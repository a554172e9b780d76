import Ordbk.Abstract.QueueBook

/-!
# Refinement/Levels — a map of linked levels is one priority queue

`LevelsRep st levels l`: in the store `st`, the ordered map `levels` of intrusive lists holds
exactly the queue `l`.  Price by price: a price has a level iff something of `l` is queued there,
and then the level is that part of `l`, in order.

Each operation on the map is the matching one on the queue — `push` is `enqueue`, `erase` cuts an
element out, `pop` drops the head — and rewrites only cells of `l` (and the new one): that is what
lets two sides, or two books, share one store.
-/

namespace Ordbk

/-- The orders of a queue at one price. -/
def queueAt (p : Price) (l : List Resting) : List Resting := l.filter fun e => e.price = p

/-- The orders at a price are the orders of that price. -/
theorem mem_queueAt {p : Price} {l : List Resting} {e : Resting} :
    e ∈ queueAt p l ↔ e ∈ l ∧ e.price = p := by simp [queueAt]

theorem queueAt_append (p : Price) (l l' : List Resting) :
    queueAt p (l ++ l') = queueAt p l ++ queueAt p l' := List.filter_append _ _

theorem queueAt_cons (p : Price) (e : Resting) (l : List Resting) :
    queueAt p (e :: l) = if e.price = p then e :: queueAt p l else queueAt p l := by
  simp [queueAt, List.filter_cons]

variable {lt : Price → Price → Prop} [DecidableRel lt] [IsStrictTotalOrder Price lt]

omit [DecidableRel lt] [IsStrictTotalOrder Price lt] in
/-- **The map of levels holds the queue.** -/
structure LevelsRep (st : Store) (levels : OrdMap lt PriceLevel) (l : List Resting) : Prop where
  /-- Where there is no level nobody is queued. -/
  absent : ∀ p, levels.find? p = none → queueAt p l = []
  /-- No level is empty, and each holds its part of the queue in order. -/
  present : ∀ p lv, levels.find? p = some lv →
    queueAt p l ≠ [] ∧ lv.Holds st ((queueAt p l).map (·.slot))
  /-- The cells hold the orders. -/
  data : ∀ e ∈ l, st.data e.slot = e.order

variable {st st' : Store} {levels : OrdMap lt PriceLevel} {l l₁ l₂ : List Resting} {e : Resting}

namespace LevelsRep

omit [DecidableRel lt] [IsStrictTotalOrder Price lt] in
/-- No levels, no queue. -/
theorem nil : LevelsRep st (OrdMap.empty : OrdMap lt PriceLevel) [] where
  absent _ _ := rfl
  present p lv h := by simp at h
  data e he := by simp at he

omit [DecidableRel lt] [IsStrictTotalOrder Price lt] in
/-- **Separation**: writes outside the queue's cells do not touch it. -/
theorem frame (h : LevelsRep st levels l) (hst : ∀ e ∈ l, st' e.slot = st e.slot) :
    LevelsRep st' levels l where
  absent := h.absent
  present p lv hlv := by
    refine ⟨(h.present p lv hlv).1, (h.present p lv hlv).2.congr fun a ha => ?_⟩
    obtain ⟨e, he, rfl⟩ := List.mem_map.mp ha
    exact hst e (mem_queueAt.mp he).1
  data e he := (Store.data_congr (hst e he)).trans (h.data e he)

omit [DecidableRel lt] [IsStrictTotalOrder Price lt] in
/-- Whoever is queued has a level. -/
theorem find?_of_mem (h : LevelsRep st levels l) (he : e ∈ l) :
    ∃ lv, levels.find? e.price = some lv := by
  cases hf : levels.find? e.price with
  | some lv => exact ⟨lv, rfl⟩
  | none =>
    have hmem : e ∈ queueAt e.price l := mem_queueAt.mpr ⟨he, rfl⟩
    rw [h.absent _ hf] at hmem
    simp at hmem

omit [DecidableRel lt] [IsStrictTotalOrder Price lt] in
/-- The level `levels[p]` holds the queue at `p`, also when it is only now created. -/
theorem holds_getD (h : LevelsRep st levels l) (p : Price) :
    ((levels.find? p).getD {}).Holds st ((queueAt p l).map (·.slot)) := by
  cases hf : levels.find? p with
  | some lv => exact (h.present p lv hf).2
  | none =>
    rw [h.absent p hf]
    exact PriceLevel.Holds.nil

omit [DecidableRel lt] [IsStrictTotalOrder Price lt] in
/-- Cells queued at different prices are different. -/
theorem slot_notMem_queueAt (hnd : (l.map (·.slot)).Nodup) {p q : Price} (hpq : p ≠ q) {a : Slot}
    (ha : a ∈ (queueAt p l).map (·.slot)) : a ∉ (queueAt q l).map (·.slot) := by
  intro ha'
  obtain ⟨e, he, rfl⟩ := List.mem_map.mp ha
  obtain ⟨f, hf, hfe⟩ := List.mem_map.mp ha'
  obtain ⟨hel, hep⟩ := mem_queueAt.mp he
  obtain ⟨hfl, hfq⟩ := mem_queueAt.mp hf
  obtain rfl := List.inj_on_of_nodup_map hnd hfl hel hfe
  exact hpq (hep.symm.trans hfq)

/-! ## `push_back` on a level

`levels[p]` creates an empty level where there is none, and the order goes to its end. -/

section Push

variable {a : Slot} {o : OrderData}

/-- Only the level's own cells are written. -/
theorem pushLevel_of_ne (h : LevelsRep st levels l) {p : Price} {c : Slot} (hca : c ≠ a)
    (hc : c ∉ (queueAt p l).map (·.slot)) :
    (pushLevel levels st p a).2 c = st c :=
  PriceLevel.pushBack_of_ne (h.holds_getD p) hca hc

/-- **A push enqueues the order.** -/
theorem push (h : LevelsRep st levels l) (hs : Priority.Sorted Resting.price lt l)
    (hnd : (l.map (·.slot)).Nodup) (ha : a ∉ l.map (·.slot)) (hd : st.data a = o) :
    LevelsRep (pushLevel levels st o.limitPrice a).2 (pushLevel levels st o.limitPrice a).1
      (Priority.enqueue Resting.price lt ⟨a, o⟩ l) := by
  have hat : ∀ p, queueAt p (Priority.enqueue Resting.price lt ⟨a, o⟩ l)
      = queueAt p l ++ if o.limitPrice = p then [⟨a, o⟩] else [] := fun p =>
    Priority.filter_enqueue (⟨a, o⟩ : Resting) hs p
  have hsub : ∀ {p c}, c ∈ (queueAt p l).map (·.slot) → c ≠ a := by
    rintro p c hc rfl
    obtain ⟨f, hf, hfc⟩ := List.mem_map.mp hc
    exact ha (List.mem_map.mpr ⟨f, (mem_queueAt.mp hf).1, hfc⟩)
  have hfind : ∀ p, (pushLevel levels st o.limitPrice a).1.find? p
      = if p = o.limitPrice then some ((levels.find? o.limitPrice).getD {} |>.pushBack st a).1
        else levels.find? p := fun p => OrdMap.find?_insertOrAssign levels _ _ p
  refine ⟨fun p hp => ?_, fun p lv hp => ?_, fun f hf => ?_⟩
  · rw [hfind] at hp
    split_ifs at hp with hpo
    rw [hat, h.absent p hp, if_neg (Ne.symm hpo)]
    rfl
  · rw [hfind] at hp
    split_ifs at hp with hpo
    · obtain rfl := Option.some.inj hp
      subst hpo
      rw [hat, if_pos rfl, List.map_append]
      exact ⟨by simp, PriceLevel.holds_pushBack (h.holds_getD _) fun hmem => hsub hmem rfl⟩
    · rw [hat, if_neg (Ne.symm hpo), List.append_nil]
      obtain ⟨h1, h2⟩ := h.present p lv hp
      refine ⟨h1, h2.congr fun c hc => ?_⟩
      exact h.pushLevel_of_ne (hsub hc) (slot_notMem_queueAt hnd hpo hc)
  · have hdata : (pushLevel levels st o.limitPrice a).2.data = st.data :=
      PriceLevel.data_pushBack
    rw [hdata]
    rcases Priority.mem_enqueue.mp hf with rfl | hf
    · exact hd
    · exact h.data f hf

end Push

/-! ## Cutting an order out

`erase` unlinks the order, and the level goes with its last order. -/

section Erase

omit [IsStrictTotalOrder Price lt] in
/-- What is left has no duplicates, and the order is not in it. -/
theorem nodup_cut (hnd : ((l₁ ++ e :: l₂).map (·.slot)).Nodup) :
    ((l₁ ++ l₂).map (·.slot)).Nodup ∧ e.slot ∉ (l₁ ++ l₂).map (·.slot) := by
  have hp : ((l₁ ++ e :: l₂).map (·.slot)).Perm (e.slot :: (l₁ ++ l₂).map (·.slot)) :=
    (List.perm_middle (a := e)).map (·.slot)
  exact (List.nodup_cons.mp (hp.nodup_iff.mp hnd)).symm

omit [DecidableRel lt] [IsStrictTotalOrder Price lt] in
/-- The level of an order that rests holds it between its neighbours. -/
theorem holds_cut (h : LevelsRep st levels (l₁ ++ e :: l₂)) :
    ∃ lv, levels.find? e.price = some lv ∧ lv.Holds st
      ((queueAt e.price l₁).map (·.slot) ++ e.slot :: (queueAt e.price l₂).map (·.slot)) := by
  obtain ⟨lv, hlv⟩ := h.find?_of_mem (e := e) (by simp)
  refine ⟨lv, hlv, ?_⟩
  have hh := (h.present _ _ hlv).2
  rwa [queueAt_append, queueAt_cons, if_pos rfl, List.map_append, List.map_cons] at hh

/-- Only the level's own cells are written. -/
theorem eraseLevel_of_notMem (h : LevelsRep st levels (l₁ ++ e :: l₂)) {c : Slot}
    (hc : c ∉ (queueAt e.price (l₁ ++ e :: l₂)).map (·.slot)) :
    (eraseLevel levels st e.price e.slot).2 c = st c := by
  obtain ⟨lv, hlv, hh⟩ := h.holds_cut
  rw [queueAt_append, queueAt_cons, if_pos rfl, List.map_append, List.map_cons] at hc
  rw [eraseLevel, hlv]
  exact PriceLevel.erase_of_notMem hh hc

/-- **An erase cuts the order out of the queue.** -/
theorem erase (h : LevelsRep st levels (l₁ ++ e :: l₂))
    (hnd : ((l₁ ++ e :: l₂).map (·.slot)).Nodup) :
    LevelsRep (eraseLevel levels st e.price e.slot).2 (eraseLevel levels st e.price e.slot).1
      (l₁ ++ l₂) := by
  obtain ⟨lv, hlv, hh⟩ := h.holds_cut
  have hcut := PriceLevel.holds_erase hh
  rw [← List.map_append, ← queueAt_append] at hcut
  have hoff : ∀ p, p ≠ e.price → queueAt p (l₁ ++ l₂) = queueAt p (l₁ ++ e :: l₂) := by
    intro p hp
    rw [queueAt_append, queueAt_append, queueAt_cons, if_neg (Ne.symm hp)]
  have hfr : ∀ p, p ≠ e.price → ∀ c ∈ (queueAt p (l₁ ++ e :: l₂)).map (·.slot),
      (eraseLevel levels st e.price e.slot).2 c = st c := fun p hp c hc =>
    h.eraseLevel_of_notMem (slot_notMem_queueAt hnd hp hc)
  have hfind : ∀ p, (eraseLevel levels st e.price e.slot).1.find? p
      = if p = e.price then
          if (lv.erase st e.slot).1.empty then none else some (lv.erase st e.slot).1
        else levels.find? p := by
    intro p
    simp only [eraseLevel, hlv, putLevel]
    split_ifs with h1 h2 h3
    · rw [OrdMap.find?_erase, if_pos h2]
    · rw [OrdMap.find?_erase, if_neg h2]
    · rw [OrdMap.find?_insertOrAssign, if_pos h3]
    · rw [OrdMap.find?_insertOrAssign, if_neg h3]
  refine ⟨fun p hp => ?_, fun p lv' hp => ?_, fun f hf => ?_⟩
  · rw [hfind] at hp
    split_ifs at hp with h1 h2
    · subst h1
      simpa using hcut.empty_iff.mp h2
    · rw [hoff p h1]
      exact h.absent p hp
  · rw [hfind] at hp
    split_ifs at hp with h1 h2
    · obtain rfl := Option.some.inj hp
      subst h1
      refine ⟨fun hnil => h2 (hcut.empty_iff.mpr (by rw [hnil]; rfl)), ?_⟩
      simpa only [eraseLevel, hlv] using hcut
    · rw [hoff p h1]
      exact ⟨(h.present p lv' hp).1, (h.present p lv' hp).2.congr (hfr p h1)⟩
  · have hdata : (eraseLevel levels st e.price e.slot).2.data = st.data := by
      simp only [eraseLevel, hlv]
      exact PriceLevel.data_erase
    rw [hdata]
    exact h.data f (by
      rcases List.mem_append.mp hf with hf | hf
      · exact List.mem_append_left _ hf
      · exact List.mem_append_right _ (List.mem_cons_of_mem _ hf))

end Erase

/-! ## The top of the book

The best order stands at the head of the first level, and that is the head of the queue. -/

omit [DecidableRel lt] in
/-- **The first level is the level of the first order.** -/
theorem begin?_eq (h : LevelsRep st levels (e :: l))
    (hs : Priority.Sorted Resting.price lt (e :: l)) :
    ∃ lv, levels.begin? = some (e.price, lv) ∧ levels.find? e.price = some lv
      ∧ lv.Holds st (e.slot :: (queueAt e.price l).map (·.slot)) := by
  have h' : LevelsRep st levels ([] ++ e :: l) := h
  obtain ⟨lv₀, hlv₀, hh⟩ := h'.holds_cut
  cases hb : levels.begin? with
  | none => exact absurd (OrdMap.begin?_eq_none.mp hb e.price) (by simp [hlv₀])
  | some b =>
    obtain ⟨p, lv⟩ := b
    obtain ⟨hp, hmin⟩ := OrdMap.find?_of_begin? hb
    have hpe : e.price = p := by
      refine (hmin e.price lv₀ hlv₀).resolve_right fun hlt => ?_
      obtain ⟨f, hfp⟩ := List.exists_mem_of_ne_nil _ (h.present p lv hp).1
      obtain ⟨hf, rfl⟩ := mem_queueAt.mp hfp
      rcases List.mem_cons.mp hf with rfl | hf
      · exact irrefl_of lt _ hlt
      · exact (Priority.sorted_cons.mp hs).1 f hf hlt
    subst hpe
    obtain rfl : lv₀ = lv := Option.some.inj (hlv₀.symm.trans hp)
    exact ⟨lv₀, rfl, hlv₀, by simpa [queueAt] using hh⟩

omit [DecidableRel lt] in
/-- **`peek_top` is the head of the queue.** -/
theorem topOf_eq (h : LevelsRep st levels l) (hs : Priority.Sorted Resting.price lt l) :
    topOf levels = l.head?.map (·.slot) := by
  cases l with
  | nil =>
    have hb : levels.begin? = none := OrdMap.begin?_eq_none.mpr fun p => by
      cases hp : levels.find? p with
      | none => rfl
      | some lv => exact absurd rfl (h.present p lv hp).1
    simp [topOf, hb]
  | cons e l =>
    obtain ⟨lv, hb, -, hh⟩ := h.begin?_eq hs
    simp only [topOf, hb]
    exact hh.front_eq

/-- **`pop_top` cuts out the head of the queue.** -/
theorem popLevel_eq (h : LevelsRep st levels (e :: l))
    (hs : Priority.Sorted Resting.price lt (e :: l)) :
    popLevel levels st = eraseLevel levels st e.price e.slot := by
  obtain ⟨lv, hb, hf, hh⟩ := h.begin?_eq hs
  simp only [popLevel, eraseLevel, hb, hf, PriceLevel.popFront_eq_erase hh]

/-! ## Writing data

A fill rewrites the head order in place, links and price untouched. -/

omit [DecidableRel lt] [IsStrictTotalOrder Price lt] in
/-- Writing the fields of the head order, its price aside, rewrites the head of the queue. -/
theorem modify_head (h : LevelsRep st levels (e :: l)) (hnd : ((e :: l).map (·.slot)).Nodup)
    {f : OrderData → OrderData} (hf : (f e.order).limitPrice = e.order.limitPrice) :
    LevelsRep (st.modify e.slot f) levels (⟨e.slot, f e.order⟩ :: l) := by
  have hat : ∀ p, (queueAt p (⟨e.slot, f e.order⟩ :: l)).map (·.slot)
      = (queueAt p (e :: l)).map (·.slot) := by
    intro p
    have hprice : (⟨e.slot, f e.order⟩ : Resting).price = e.price := hf
    rw [queueAt_cons, queueAt_cons, hprice]
    split_ifs <;> rfl
  refine ⟨fun p hp => ?_, fun p lv hp => ?_, fun g hg => ?_⟩
  · rw [← List.map_eq_nil_iff (f := (·.slot)), hat, h.absent p hp]
    rfl
  · rw [hat, ← (List.map_eq_nil_iff (f := fun e : Resting => e.slot)).ne, hat]
    obtain ⟨h1, h2⟩ := h.present p lv hp
    exact ⟨fun hnil => h1 (List.map_eq_nil_iff.mp hnil), h2.modify _ _⟩
  · rw [Store.data_modify]
    rcases List.mem_cons.mp hg with rfl | hg
    · rw [Function.update_self, h.data e (by simp)]
    · have hne : g.slot ≠ e.slot := fun hge =>
        (List.nodup_cons.mp hnd).1 (List.mem_map.mpr ⟨g, hg, hge⟩)
      rw [Function.update_of_ne hne]
      exact h.data g (List.mem_cons_of_mem _ hg)

/-! ## Walking the levels

The iterations of the source go over the levels in the map's order and along each level's links;
together they visit the queue. -/

omit [DecidableRel lt] in
/-- **The queues of the levels, in the map's order, are the queue.** -/
theorem flatMap_queueAt (h : LevelsRep st levels l) (hs : Priority.Sorted Resting.price lt l) :
    (levels.entries.flatMap fun x => queueAt x.1 l) = l := by
  have hkeys : (levels.entries.map (·.1)).Pairwise lt := List.pairwise_map.mpr levels.sorted
  have hmem : ∀ e ∈ l, e.price ∈ levels.entries.map (·.1) := by
    intro e he
    obtain ⟨lv, hlv⟩ := h.find?_of_mem he
    exact List.mem_map.mpr ⟨(e.price, lv), levels.mem_entries.mpr hlv, rfl⟩
  conv_rhs => rw [← Priority.flatMap_filter_eq hkeys hs hmem]
  rw [List.flatMap_map]
  rfl

omit [DecidableRel lt] [IsStrictTotalOrder Price lt] in
/-- Iterating the level at a price visits the queue there in order. -/
theorem slots_getD (h : LevelsRep st levels l) {fuel : ℕ} (hfuel : l.length < fuel) (p : Price) :
    ((levels.find? p).getD {}).slots st fuel = (queueAt p l).map (·.slot) := by
  refine (h.holds_getD p).slots_eq ?_
  rw [List.length_map]
  exact lt_of_le_of_lt (List.length_filter_le _ _) hfuel

omit [DecidableRel lt] in
/-- Iterating a level visits its queue in order. -/
theorem slots_level (h : LevelsRep st levels l) {fuel : ℕ} (hfuel : l.length < fuel)
    {x : Price × PriceLevel} (hx : x ∈ levels.entries) :
    queueAt x.1 l ≠ [] ∧ x.2.slots st fuel = (queueAt x.1 l).map (·.slot) := by
  obtain ⟨h1, h2⟩ := h.present x.1 x.2 (levels.mem_entries.mp hx)
  refine ⟨h1, h2.slots_eq ?_⟩
  rw [List.length_map]
  exact lt_of_le_of_lt (List.length_filter_le _ _) hfuel

omit [DecidableRel lt] in
/-- **Iterating the levels, and each level in turn, visits the queue in order.** -/
theorem flatMap_slots (h : LevelsRep st levels l) (hs : Priority.Sorted Resting.price lt l)
    {fuel : ℕ} (hfuel : l.length < fuel) :
    (levels.entries.flatMap fun x => x.2.slots st fuel) = l.map (·.slot) := by
  rw [List.flatMap_congr fun x hx => (h.slots_level hfuel hx).2, ← List.map_flatMap,
    h.flatMap_queueAt hs]

end LevelsRep

end Ordbk
