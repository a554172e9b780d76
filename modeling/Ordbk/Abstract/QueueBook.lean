import Ordbk.Abstract.Sweep
import Ordbk.Lib.Priority

/-!
# Abstract/QueueBook — a book as two price-time queues

The book the matcher is meant to keep: each side is one list, best price first and first come first
served at a price, plus the id index.  Submitting is `sweep` against the other side and `enqueue`
on the own one; cancelling removes what the index points to.

`WF` is the invariant of all of it, for arbitrary ids (repeated or not) and arbitrary bytes in the
enumeration fields; `wf_submit` and `wf_cancel` keep it.
-/

namespace Ordbk

/-- `p` has priority over `q` on this side: bids descend, asks ascend. -/
def better : Side → Price → Price → Prop
  | .buy => fun p q => p > q
  | _ => fun p q => p < q

theorem better_buy {p q : Price} : better .buy p q ↔ q < p := Iff.rfl

theorem better_sell {p q : Price} : better .sell p q ↔ p < q := Iff.rfl

instance (s : Side) : DecidableRel (better s) := by
  cases s <;> exact fun p q => inferInstanceAs (Decidable (_ < _))

instance (s : Side) : IsStrictTotalOrder Price (better s) := by
  cases s
  · exact inferInstanceAs (IsStrictTotalOrder Price (· > ·))
  · exact inferInstanceAs (IsStrictTotalOrder Price (· < ·))
  · exact inferInstanceAs (IsStrictTotalOrder Price (· < ·))

/-- Two side values that the book does not distinguish. -/
def SameSide (s s' : Side) : Prop := s = .buy ↔ s' = .buy

instance (s s' : Side) : Decidable (SameSide s s') := inferInstanceAs (Decidable (_ ↔ _))

/-- The order of the prices is the same on sides the book does not tell apart. -/
theorem better_congr {s s' : Side} (h : SameSide s s') : better s = better s' := by
  cases s <;> cases s' <;> first | rfl | simp [SameSide] at h

/-- For declared sides it is the same side. -/
theorem SameSide.eq {s s' : Side} (h : SameSide s s') (hs : s.Declared) (hs' : s'.Declared) :
    s = s' := by
  rcases hs with rfl | rfl
  · exact (h.mp rfl).symm
  · rcases hs' with rfl | rfl
    · exact h.mpr rfl
    · rfl

/-- There are two sides, and `opposite` leads to the other one. -/
theorem sameSide_opposite {s s' : Side} : SameSide (opposite s) s' ↔ ¬ SameSide s s' := by
  unfold SameSide opposite
  split_ifs <;> simp_all

/-- Two queues of resting orders and the index of their ids. -/
structure QueueBook where
  /-- Whose orders these are. -/
  instrument : InstrumentId
  /-- The buyers, highest price first, and the earlier first at a price. -/
  bids : List Resting := []
  /-- The sellers, lowest price first. -/
  asks : List Resting := []
  /-- Where the order of an id is; `cancel` finds it by this and by nothing else. -/
  index : Finmap fun _ : OrderId => Locator := ∅

/-- Drop the index entries of orders that have left. -/
def forget (index : Finmap fun _ : OrderId => Locator) (gone : List Resting) :
    Finmap fun _ : OrderId => Locator := gone.foldl (fun ix e => ix.erase e.order.id) index

/-- Erasing keys one after the other. -/
theorem lookup_eraseAll {K V : Type} [DecidableEq K] (ks : List K)
    (m : Finmap fun _ : K => V) (k : K) :
    (ks.foldl (fun m k => m.erase k) m).lookup k = if k ∈ ks then none else m.lookup k := by
  induction ks generalizing m with
  | nil => rfl
  | cons k' ks ih =>
    rw [List.foldl_cons, ih]
    by_cases hk : k = k'
    · subst hk
      simp [Finmap.lookup_erase]
    · rw [Finmap.lookup_erase_ne hk]
      simp only [List.mem_cons, hk, false_or]

/-- The ids that have left are not found, the others are found as before. -/
theorem lookup_forget (index : Finmap fun _ : OrderId => Locator) (gone : List Resting)
    (id : OrderId) :
    (forget index gone).lookup id
      = if id ∈ gone.map (·.order.id) then none else index.lookup id := by
  rw [← lookup_eraseAll, List.foldl_map, forget]

/-- Putting back what is there changes nothing. -/
theorem insert_of_lookup {K V : Type} [DecidableEq K] {m : Finmap fun _ : K => V} {k : K} {v : V}
    (h : m.lookup k = some v) : m.insert k v = m := by
  refine Finmap.ext_lookup fun k' => ?_
  by_cases hk : k' = k
  · rw [hk, Finmap.lookup_insert, h]
  · exact Finmap.lookup_insert_of_ne _ hk

/-- `emplace` does not replace an entry that is there. -/
theorem lookup_emplace {K V : Type} [DecidableEq K] (m : Finmap fun _ : K => V) (k : K) (v : V)
    (k' : K) :
    (emplace m k v).lookup k' = if k' = k ∧ m.lookup k = none then some v else m.lookup k' := by
  unfold emplace
  cases hk : m.lookup k with
  | some w => simp
  | none =>
    by_cases h : k' = k
    · subst h
      simp [Finmap.lookup_insert]
    · simp [Finmap.lookup_insert_of_ne _ h, h]

namespace QueueBook

/-- The queue of a side; everything but `Buy` is an ask. -/
def side (b : QueueBook) (s : Side) : List Resting := if s = .buy then b.bids else b.asks

/-- The book with another queue on one side. -/
def withSide (b : QueueBook) (s : Side) (l : List Resting) : QueueBook :=
  if s = .buy then { b with bids := l } else { b with asks := l }

/-- Every order at rest. -/
def resting (b : QueueBook) : List Resting := b.bids ++ b.asks

/-- The slots in use by the book. -/
def slots (b : QueueBook) : List Slot := b.resting.map (·.slot)

theorem side_congr (b : QueueBook) {s s' : Side} (h : SameSide s s') : b.side s = b.side s' := by
  unfold side
  by_cases hs : s = .buy
  · rw [if_pos hs, if_pos (h.mp hs)]
  · rw [if_neg hs, if_neg fun hs' => hs (h.mpr hs')]

/-- The other side stays as it is. -/
theorem side_withSide (b : QueueBook) (s s' : Side) (l : List Resting) :
    (b.withSide s l).side s' = if SameSide s s' then l else b.side s' := by
  unfold withSide side SameSide
  split_ifs <;> simp_all

@[simp] theorem instrument_withSide (b : QueueBook) (s : Side) (l : List Resting) :
    (b.withSide s l).instrument = b.instrument := by
  unfold withSide
  split_ifs <;> rfl

theorem mem_resting (b : QueueBook) {e : Resting} : e ∈ b.resting ↔ ∃ s, e ∈ b.side s := by
  refine List.mem_append.trans ⟨fun h => ?_, fun ⟨s, hs⟩ => ?_⟩
  · exact h.elim (fun h => ⟨.buy, h⟩) fun h => ⟨.sell, h⟩
  · unfold side at hs
    split_ifs at hs
    · exact Or.inl hs
    · exact Or.inr hs

/-- The orders at rest, one side first. -/
theorem resting_perm (b : QueueBook) (s : Side) :
    b.resting.Perm (b.side s ++ b.side (opposite s)) := by
  by_cases hs : s = .buy
  · simp [side, opposite, resting, hs]
  · simpa [side, opposite, resting, hs] using List.perm_append_comm

/-! ## The operations

As `Matcher::submit` and `OrderBook::cancel` do it, with lists in place of the levels and the slots:
check, sweep, and then rest, drop or be done. -/

/-- Bring an order to rest on its own side. -/
def rest (b : QueueBook) (e : Resting) : QueueBook :=
  let s := e.order.side
  { b.withSide s (Priority.enqueue Resting.price (better s) e (b.side s)) with
    index := emplace b.index e.order.id ⟨if s = .buy then .buy else .sell, e.price, e.slot⟩ }

/-- The book after a sweep of one side. -/
def swept (b : QueueBook) (s : Side) (r : Sweep) : QueueBook :=
  { b.withSide s r.makers with index := forget b.index r.gone }

/-- The checks at the head of `submit`: no quantity, another instrument, a limit price that is not
positive, a market order that asks to stay, a fill-or-kill order that there is not enough for. -/
def rejects (b : QueueBook) (o : OrderData) : Bool :=
  o.initialQty == 0
    || o.instrument != b.instrument
    || (o.type == .limit && decide (o.limitPrice ≤ 0))
    || (o.type == .market && (o.tif == .gtc || o.tif == .day))
    || (o.tif == .fok && !covers o o.remaining (b.side (opposite o.side)))

/-- What a submission leaves: the book, the taker, the executions, the makers filled. -/
structure Outcome where
  /-- The book afterwards. -/
  book : QueueBook
  /-- The order as its slot shows it afterwards. -/
  order : OrderData
  /-- The executions, in the order they were made. -/
  trades : List Trade
  /-- The makers that were filled and have left, whose slots are free again. -/
  gone : List Resting

/-- The sweep an incoming order makes. -/
def entry (b : QueueBook) (o : OrderData) : Sweep := sweep o (b.side (opposite o.side))

/-- The book that sweep leaves. -/
def entered (b : QueueBook) (o : OrderData) : QueueBook := b.swept (opposite o.side) (b.entry o)

/-- The status of an immediate order whose remainder is dropped. -/
def dropStatus (o : OrderData) : OrderStatus :=
  if 0 < o.filledQty then .partiallyFilled else .cancelled

/-- **Submit an order that stands in slot `a`.** -/
def submit (b : QueueBook) (a : Slot) (o : OrderData) : Outcome :=
  let r := b.entry o
  if b.rejects o then ⟨b, o.withStatus .rejected, [], []⟩
  else if r.taker.isFullyFilled then ⟨b.entered o, r.taker.withStatus .filled, r.trades, r.gone⟩
  else if o.type = .market ∨ o.tif = .ioc then
    ⟨b.entered o, r.taker.withStatus (dropStatus r.taker), r.trades, r.gone⟩
  else
    let o' := r.taker.withStatus r.taker.restStatus
    ⟨(b.entered o).rest ⟨a, o'⟩, o', r.trades, r.gone⟩

/-- **The four ends of a submission.** -/
inductive Submitted (b : QueueBook) (a : Slot) (o : OrderData) : Outcome → Prop
  | rejected : b.rejects o = true → Submitted b a o ⟨b, o.withStatus .rejected, [], []⟩
  | filled : b.rejects o = false → (b.entry o).taker.isFullyFilled = true →
      Submitted b a o ⟨b.entered o, (b.entry o).taker.withStatus .filled, (b.entry o).trades,
        (b.entry o).gone⟩
  | dropped : b.rejects o = false → (b.entry o).taker.isFullyFilled = false →
      (o.type = .market ∨ o.tif = .ioc) →
      Submitted b a o ⟨b.entered o, (b.entry o).taker.withStatus (dropStatus (b.entry o).taker),
        (b.entry o).trades, (b.entry o).gone⟩
  | rested : b.rejects o = false → (b.entry o).taker.isFullyFilled = false →
      ¬ (o.type = .market ∨ o.tif = .ioc) →
      Submitted b a o ⟨(b.entered o).rest ⟨a, (b.entry o).taker.withStatus
        (b.entry o).taker.restStatus⟩, (b.entry o).taker.withStatus (b.entry o).taker.restStatus,
        (b.entry o).trades, (b.entry o).gone⟩

/-- One of the four ends it is, and the conditions tell which. -/
theorem submitted (b : QueueBook) (a : Slot) (o : OrderData) : Submitted b a o (b.submit a o) := by
  unfold submit
  by_cases h1 : b.rejects o = true
  · rw [if_pos h1]
    exact .rejected h1
  rw [if_neg h1]
  by_cases h2 : (b.entry o).taker.isFullyFilled = true
  · rw [if_pos h2]
    exact .filled (Bool.eq_false_of_not_eq_true h1) h2
  rw [if_neg h2]
  by_cases h3 : o.type = .market ∨ o.tif = .ioc
  · rw [if_pos h3]
    exact .dropped (Bool.eq_false_of_not_eq_true h1) (Bool.eq_false_of_not_eq_true h2) h3
  · rw [if_neg h3]
    exact .rested (Bool.eq_false_of_not_eq_true h1) (Bool.eq_false_of_not_eq_true h2) h3

/-- Take an order out of its queue and its id out of the index. -/
def remove (b : QueueBook) (id : OrderId) (loc : Locator) : QueueBook :=
  { b.withSide loc.side ((b.side loc.side).filter fun e => e.slot ≠ loc.order) with
    index := b.index.erase id }

/-- **Cancel by id**: the slot is given back if the index knows the id. -/
def cancel (b : QueueBook) (id : OrderId) : QueueBook × Option Slot :=
  match b.index.lookup id with
  | none => (b, none)
  | some loc => (b.remove id loc, some loc.order)

/-! ## The invariant

Queues in priority order, no slot twice, and an index that leads to the orders it names. With
repeated ids an order may rest without the index knowing it, so nothing is said in that direction;
`Indexed` says it where ids are distinct. -/

/-- **The standing invariant of a book.**  `located` is one-sided on purpose: with repeated ids an
order may have lost its index entry, but an entry never points anywhere but at a resting order. -/
structure WF (b : QueueBook) : Prop where
  /-- Each queue is in priority order, first come first served at a price. -/
  sorted : ∀ s, Priority.Sorted Resting.price (better s) (b.side s)
  /-- Whoever is in a queue is of its side. -/
  sided : ∀ s, ∀ e ∈ b.side s, SameSide e.order.side s
  /-- Whoever is at rest has something left to trade. -/
  live : ∀ s, ∀ e ∈ b.side s, e.order.Live
  /-- And is of the book's instrument. -/
  inst : ∀ s, ∀ e ∈ b.side s, e.order.instrument = b.instrument
  /-- No slot is at rest twice. -/
  nodup : b.slots.Nodup
  /-- The index leads to an order that is there, under its own id and price.  It need not know every
  order: a repeated id is not entered again. -/
  located : ∀ id loc, b.index.lookup id = some loc →
    ∃ e ∈ b.side loc.side, e.slot = loc.order ∧ e.order.id = id ∧ e.price = loc.price
  /-- **The book is not crossed.** -/
  uncrossed : ∀ e ∈ b.bids, ∀ f ∈ b.asks, e.price < f.price

variable {b : QueueBook}

/-- The empty book. -/
theorem wf_new (i : InstrumentId) : (QueueBook.mk i [] [] ∅).WF where
  sorted s := by
    have hnil : (QueueBook.mk i [] [] ∅).side s = [] := by simp [side]
    rw [hnil]
    exact Priority.sorted_nil
  sided s e he := by simp [side] at he
  live s e he := by simp [side] at he
  inst s e he := by simp [side] at he
  nodup := List.nodup_nil
  located id loc h := by simp at h
  uncrossed e he := by simp at he

/-- Whoever is at rest can still be filled. -/
theorem WF.open (h : b.WF) {s : Side} : ∀ e ∈ b.side s, e.order.Open :=
  fun e he => (h.live s e he).isOpen

/-- Slots name orders: two resting orders in one slot are the same. -/
theorem WF.eq_of_slot (h : b.WF) {s s' : Side} {e e' : Resting} (he : e ∈ b.side s)
    (he' : e' ∈ b.side s') (hs : e.slot = e'.slot) : e = e' :=
  List.inj_on_of_nodup_map h.nodup (b.mem_resting.mpr ⟨s, he⟩) (b.mem_resting.mpr ⟨s', he'⟩) hs

/-- A slot is in use if somebody is at rest in it. -/
theorem mem_slots {a : Slot} : a ∈ b.slots ↔ ∃ s, ∃ e ∈ b.side s, e.slot = a := by
  simp only [slots, List.mem_map, mem_resting]
  exact ⟨fun ⟨e, ⟨s, hs⟩, ha⟩ => ⟨s, e, hs, ha⟩, fun ⟨s, e, hs, ha⟩ => ⟨e, ⟨s, hs⟩, ha⟩⟩

/-- An empty book has nothing to cancel. -/
theorem WF.cancel_of_slots_nil (h : b.WF) (hs : b.slots = []) (id : OrderId) :
    b.cancel id = (b, none) := by
  unfold cancel
  cases hl : b.index.lookup id with
  | none => rfl
  | some loc =>
    obtain ⟨e, he, -⟩ := h.located id loc hl
    have hmem : e.slot ∈ b.slots := mem_slots.mpr ⟨_, e, he, rfl⟩
    rw [hs] at hmem
    exact absurd hmem List.not_mem_nil

/-! ## Sweeping keeps the invariant

A sweep only shortens a queue from the front and fills the first that is left, so order, sides and
slots are what they were. -/

section Swept

variable {t : OrderData} {s : Side}

/-- Only the side that was swept is different. -/
theorem side_swept (b : QueueBook) (s s' : Side) (r : Sweep) :
    (b.swept s r).side s' = if SameSide s s' then r.makers else b.side s' :=
  b.side_withSide s s' r.makers

/-- Every order left by a sweep is one that was there, its fills aside. -/
theorem mem_side_swept (h : b.WF) (ht : t.Sound) {s' : Side} {e : Resting}
    (he : e ∈ (b.swept s (sweep t (b.side s))).side s') :
    ∃ e₀ ∈ b.side s', e₀.ident = e.ident := by
  rw [side_swept] at he
  split_ifs at he with hs
  · have hmem : e.ident ∈ (b.side s).map Resting.ident := by
      rw [← ident_sweep_makers ht h.open]
      exact List.mem_map_of_mem (List.mem_append_right _ he)
    rw [← b.side_congr hs]
    exact List.mem_map.mp hmem
  · exact ⟨e, he, rfl⟩

/-- The slots used up by a sweep, then those still in use, are the slots of the book. -/
theorem slots_swept_perm (h : b.WF) (ht : t.Sound) :
    ((sweep t (b.side s)).gone.map (·.slot) ++ (b.swept s (sweep t (b.side s))).slots).Perm
      b.slots := by
  have hid : ∀ l : List Resting, l.map (·.slot) = (l.map Resting.ident).map Prod.fst := fun l => by
    rw [List.map_map]
    rfl
  have hms := ident_sweep_makers ht (fun e he => (h.live s e he).isOpen)
  have hnew := ((b.swept s (sweep t (b.side s))).resting_perm s).map (·.slot)
  have hold := (b.resting_perm s).map (·.slot)
  rw [side_swept, if_pos (show SameSide s s from Iff.rfl), side_swept,
    if_neg (fun hss => sameSide_opposite.mp (show SameSide (opposite s) s from hss.symm) Iff.rfl)]
    at hnew
  refine (hnew.append_left _).trans (List.Perm.trans ?_ hold.symm)
  rw [List.map_append, List.map_append, ← List.append_assoc, ← List.map_append, hid, hms, ← hid]

/-- **Sweeping keeps the invariant.** -/
theorem wf_swept (h : b.WF) (ht : t.Sound) : (b.swept s (sweep t (b.side s))).WF where
  sorted s' := by
    rw [side_swept]
    split_ifs with hs
    · have hprice : ∀ l : List Resting, l.map Resting.price
          = (l.map Resting.ident).map fun p => p.2.limitPrice := fun l => by
        rw [List.map_map]
        rfl
      have hsort := Priority.sorted_iff_map.mp (h.sorted s)
      rw [hprice, ← ident_sweep_makers ht h.open, ← hprice, List.map_append] at hsort
      rw [← better_congr hs]
      exact Priority.sorted_iff_map.mpr (List.pairwise_append.mp hsort).2.1
    · exact h.sorted s'
  sided s' e he := by
    obtain ⟨e₀, he₀, hid⟩ := mem_side_swept h ht he
    have hside : e₀.order.side = e.order.side := congrArg (fun p => p.2.side) hid
    exact hside ▸ h.sided s' e₀ he₀
  live s' e he := by
    rw [side_swept] at he
    split_ifs at he with hs
    · exact live_sweep_makers ht (h.live s) e he
    · exact h.live s' e he
  inst s' e he := by
    obtain ⟨e₀, he₀, hid⟩ := mem_side_swept h ht he
    have hinst : e₀.order.instrument = e.order.instrument := congrArg (fun p => p.2.instrument) hid
    exact hinst.symm.trans ((h.inst s' e₀ he₀).trans (b.instrument_withSide s _).symm)
  nodup := ((slots_swept_perm h ht).nodup_iff.mpr h.nodup).of_append_right
  located id loc hl := by
    change (forget b.index _).lookup id = some loc at hl
    rw [lookup_forget] at hl
    split_ifs at hl with hgone
    obtain ⟨e, he, h1, h2, h3⟩ := h.located id loc hl
    rw [side_swept]
    split_ifs with hs
    · -- an order of the swept side is either left, or gone together with its index entry
      have hmem : e.ident ∈ ((sweep t (b.side s)).gone ++ (sweep t (b.side s)).makers).map
          Resting.ident := by
        rw [ident_sweep_makers ht h.open, b.side_congr hs]
        exact List.mem_map_of_mem he
      obtain ⟨e', he', hid⟩ := List.mem_map.mp hmem
      have hi : e'.order.id = id := (congrArg (fun p => p.2.id) hid).trans h2
      rcases List.mem_append.mp he' with he' | he'
      · exact absurd (List.mem_map.mpr ⟨e', he', hi⟩) hgone
      · exact ⟨e', he', (congrArg Prod.fst hid).trans h1, hi,
          (Resting.price_eq_of_ident hid).trans h3⟩
    · exact ⟨e, he, h1, h2, h3⟩
  uncrossed e he f hf := by
    have he' : e ∈ (b.swept s (sweep t (b.side s))).side .buy := he
    have hf' : f ∈ (b.swept s (sweep t (b.side s))).side .sell := hf
    obtain ⟨e₀, he₀, hid⟩ := mem_side_swept h ht he'
    obtain ⟨f₀, hf₀, hif⟩ := mem_side_swept h ht hf'
    rw [← Resting.price_eq_of_ident hid, ← Resting.price_eq_of_ident hif]
    exact h.uncrossed e₀ he₀ f₀ hf₀

/-- **A taker left over crosses nobody who is left.** -/
theorem pricesCross_eq_false_of_stops {ms : List Resting} (hs : Stops t ms)
    (h0 : t.remaining ≠ 0)
    (hsort : Priority.Sorted Resting.price (better (opposite t.side)) ms) :
    ∀ f ∈ ms, pricesCross t.side t.limitPrice f.price = false := by
  cases ms with
  | nil => simp
  | cons m ms =>
    have hb : Matcher.blocked t m.price = true := hs.resolve_left h0 m rfl
    have hm : pricesCross t.side t.limitPrice m.price = false := by
      simp only [Matcher.blocked, Bool.and_eq_true, Bool.not_eq_true'] at hb
      exact hb.2
    intro f hf
    rcases List.mem_cons.mp hf with rfl | hf
    · exact hm
    have hfm := (Priority.sorted_cons.mp hsort).1 f hf
    unfold pricesCross at hm ⊢
    by_cases hbuy : t.side = .buy
    · simp only [hbuy, if_true, opposite, better_sell, decide_eq_false_iff_not] at hm hfm ⊢
      exact fun hle => hm (le_trans (not_lt.mp hfm) hle)
    · simp only [hbuy, if_false, opposite, better_buy, decide_eq_false_iff_not] at hm hfm ⊢
      exact fun hle => hm (le_trans hle (not_lt.mp hfm))

end Swept

/-! ## Resting and cancelling keep the invariant

To rest an order must cross nobody on the other side, and its slot must be new to the book. -/

/-- Only its own side is different. -/
theorem side_rest (b : QueueBook) (e : Resting) (s : Side) :
    (b.rest e).side s = if SameSide e.order.side s
      then Priority.enqueue Resting.price (better e.order.side) e (b.side e.order.side)
      else b.side s := b.side_withSide e.order.side s _

/-- It is there, and so is everybody who was there. -/
theorem mem_side_rest {e f : Resting} {s : Side} :
    f ∈ (b.rest e).side s ↔ (f = e ∧ SameSide e.order.side s) ∨ f ∈ b.side s := by
  rw [side_rest]
  split_ifs with hs
  · rw [Priority.mem_enqueue, b.side_congr hs]
    simp [hs]
  · simp [hs]

/-- Whoever was at rest is at rest beside it. -/
theorem mem_resting_rest {e f : Resting} (he : e ∈ b.resting) : e ∈ (b.rest f).resting := by
  obtain ⟨s, hs⟩ := b.mem_resting.mp he
  exact (b.rest f).mem_resting.mpr ⟨s, mem_side_rest.mpr (.inr hs)⟩

/-- It takes its slot. -/
theorem slots_rest_perm (b : QueueBook) (e : Resting) :
    (b.rest e).slots.Perm (e.slot :: b.slots) := by
  have hnew := ((b.rest e).resting_perm e.order.side).map (·.slot)
  have hold := (b.resting_perm e.order.side).map (·.slot)
  rw [side_rest, if_pos (show SameSide _ _ from Iff.rfl), side_rest,
    if_neg (fun hss => sameSide_opposite.mp (show SameSide (opposite _) _ from hss.symm) Iff.rfl)]
    at hnew
  refine hnew.trans (List.Perm.trans ?_ (hold.symm.cons _))
  rw [List.map_append, List.map_append]
  have hq : (Priority.enqueue Resting.price (better e.order.side) e (b.side e.order.side)).Perm
      (e :: b.side e.order.side) := Priority.enqueue_perm e _
  exact (hq.map (·.slot)).append_right _

/-- **Resting keeps the invariant**, if the order crosses nobody. -/
theorem wf_rest (h : b.WF) {e : Resting} (he : e.order.Live)
    (hi : e.order.instrument = b.instrument) (hslot : e.slot ∉ b.slots)
    (hcross : ∀ f ∈ b.side (opposite e.order.side),
      pricesCross e.order.side e.price f.price = false) : (b.rest e).WF where
  sorted s := by
    rw [side_rest]
    split_ifs with hs
    · rw [← better_congr hs]
      exact Priority.sorted_enqueue e (h.sorted _)
    · exact h.sorted s
  sided s f hf := (mem_side_rest.mp hf).elim (fun hf => hf.1 ▸ hf.2) (h.sided s f)
  live s f hf := (mem_side_rest.mp hf).elim (fun hf => hf.1 ▸ he) (h.live s f)
  inst s f hf := by
    refine Eq.trans ?_ (b.instrument_withSide e.order.side _).symm
    exact (mem_side_rest.mp hf).elim (fun hf => hf.1 ▸ hi) (h.inst s f)
  nodup := (slots_rest_perm b e).nodup_iff.mpr (List.nodup_cons.mpr ⟨hslot, h.nodup⟩)
  located id loc hl := by
    change (emplace b.index _ _).lookup id = some loc at hl
    rw [lookup_emplace] at hl
    by_cases hid : id = e.order.id ∧ b.index.lookup e.order.id = none
    · rw [if_pos hid] at hl
      obtain rfl := Option.some.inj hl
      refine ⟨e, mem_side_rest.mpr (Or.inl ⟨rfl, ?_⟩), rfl, hid.1.symm, rfl⟩
      unfold SameSide
      split_ifs with hbuy <;> simp [hbuy]
    · rw [if_neg hid] at hl
      obtain ⟨f, hf, hrest⟩ := h.located id loc hl
      exact ⟨f, mem_side_rest.mpr (Or.inr hf), hrest⟩
  uncrossed f hf g hg := by
    have hf' : f ∈ (b.rest e).side .buy := hf
    have hg' : g ∈ (b.rest e).side .sell := hg
    rcases mem_side_rest.mp hf' with ⟨rfl, hs⟩ | hfb
    · have hbuy : f.order.side = .buy := hs.mpr rfl
      rcases mem_side_rest.mp hg' with ⟨rfl, hs'⟩ | hgb
      · exact absurd (hs'.mp hbuy) (by decide)
      · have := hcross g (by simpa [hbuy, opposite] using hgb)
        simpa [pricesCross, hbuy] using this
    · rcases mem_side_rest.mp hg' with ⟨rfl, hs'⟩ | hgb
      · have hsell : g.order.side ≠ .buy := fun hb => absurd (hs'.mp hb) (by decide)
        have := hcross f (by simpa [hsell, opposite] using hfb)
        simpa [pricesCross, hsell] using this
      · exact h.uncrossed f hfb g hgb

/-- Only the side of the index entry is different. -/
theorem side_remove (b : QueueBook) (id : OrderId) (loc : Locator) (s : Side) :
    (b.remove id loc).side s = if SameSide loc.side s
      then (b.side loc.side).filter fun e => e.slot ≠ loc.order else b.side s :=
  b.side_withSide loc.side s _

/-- What is cut out of a book, side by side. -/
theorem side_remove_eq (hw : b.WF) {id : OrderId} {loc : Locator}
    (hl : b.index.lookup id = some loc) (s : Side) :
    (b.remove id loc).side s = (b.side s).filter fun e => e.slot ≠ loc.order := by
  rw [side_remove]
  split_ifs with hs
  · rw [b.side_congr hs]
  · refine (List.filter_eq_self.mpr fun e he => ?_).symm
    obtain ⟨f, hf, hslot, -⟩ := hw.located id loc hl
    rw [decide_eq_true_eq]
    intro heq
    obtain rfl := hw.eq_of_slot he hf (heq.trans hslot.symm)
    exact hs ((hw.sided _ _ hf).symm.trans (hw.sided _ _ he))

/-- The slot of the entry is out of use. -/
theorem slots_remove (hw : b.WF) {id : OrderId} {loc : Locator}
    (hl : b.index.lookup id = some loc) :
    (b.remove id loc).slots = b.slots.filter (· ≠ loc.order) := by
  have hbids : (b.remove id loc).bids = b.bids.filter fun e => e.slot ≠ loc.order :=
    side_remove_eq hw hl .buy
  have hasks : (b.remove id loc).asks = b.asks.filter fun e => e.slot ≠ loc.order :=
    side_remove_eq hw hl .sell
  unfold slots resting
  rw [hbids, hasks, ← List.filter_append, List.filter_map]
  rfl

/-- Everybody else stays. -/
theorem mem_side_remove (h : b.WF) {id : OrderId} {loc : Locator}
    (hl : b.index.lookup id = some loc) {s : Side} {e : Resting} :
    e ∈ (b.remove id loc).side s ↔ e ∈ b.side s ∧ e.slot ≠ loc.order := by
  rw [side_remove]
  split_ifs with hs
  · rw [List.mem_filter, b.side_congr hs]
    simp
  · refine ⟨fun he => ⟨he, fun hslot => ?_⟩, And.left⟩
    obtain ⟨f, hf, h1, -⟩ := h.located id loc hl
    obtain rfl := h.eq_of_slot he hf (hslot.trans h1.symm)
    exact hs ((h.sided _ _ hf).symm.trans (h.sided _ _ he))

/-- **Removing what the index points to keeps the invariant.** -/
theorem wf_remove (h : b.WF) {id : OrderId} {loc : Locator}
    (hl : b.index.lookup id = some loc) : (b.remove id loc).WF where
  sorted s := by
    rw [side_remove]
    split_ifs with hs
    · rw [← better_congr hs]
      exact (h.sorted _).filter _
    · exact h.sorted s
  sided s e he := h.sided s e ((mem_side_remove h hl).mp he).1
  live s e he := h.live s e ((mem_side_remove h hl).mp he).1
  inst s e he := (h.inst s e ((mem_side_remove h hl).mp he).1).trans
    (b.instrument_withSide loc.side _).symm
  nodup := by
    refine List.Nodup.map_on (fun e he f hf hef => ?_) ?_
    · obtain ⟨s, hs⟩ := (b.remove id loc).mem_resting.mp he
      obtain ⟨s', hs'⟩ := (b.remove id loc).mem_resting.mp hf
      exact h.eq_of_slot ((mem_side_remove h hl).mp hs).1 ((mem_side_remove h hl).mp hs').1 hef
    · have hnd : b.resting.Nodup := h.nodup.of_map _
      refine hnd.sublist ?_
      unfold remove withSide resting side
      split_ifs
      · exact (List.filter_sublist).append (List.Sublist.refl _)
      · exact (List.Sublist.refl _).append List.filter_sublist
  located id' loc' hl' := by
    change (b.index.erase id).lookup id' = some loc' at hl'
    have hne : id' ≠ id := by
      rintro rfl
      simp [Finmap.lookup_erase] at hl'
    rw [Finmap.lookup_erase_ne hne] at hl'
    obtain ⟨e, he, h1, h2, h3⟩ := h.located id' loc' hl'
    refine ⟨e, (mem_side_remove h hl).mpr ⟨he, fun hslot => ?_⟩, h1, h2, h3⟩
    -- the order that leaves carries `id`, this one carries `id'`
    obtain ⟨f, hf, hf1, hf2, -⟩ := h.located id loc hl
    obtain rfl := h.eq_of_slot he hf (hslot.trans hf1.symm)
    exact hne (h2.symm.trans hf2)
  uncrossed e he f hf := h.uncrossed e ((mem_side_remove h hl (s := .buy)).mp he).1 f
    ((mem_side_remove h hl (s := .sell)).mp hf).1

/-- **Cancelling keeps the invariant.** -/
theorem wf_cancel (h : b.WF) (id : OrderId) : (b.cancel id).1.WF := by
  unfold cancel
  cases hl : b.index.lookup id with
  | none => exact h
  | some loc => exact wf_remove h hl

section Submit

variable {o : OrderData}

/-- The taker stays the order it is. -/
theorem ident_entry (h : b.WF) (ho : o.Sound) : (b.entry o).taker.ident = o.ident :=
  (ident_sweep_taker ho h.open).1

/-- And is filled no further than it wanted. -/
theorem sound_entry (h : b.WF) (ho : o.Sound) : (b.entry o).taker.Sound :=
  (sound_sweep ho h.open).1

/-- The book after the sweep is a book. -/
theorem wf_entered (h : b.WF) (ho : o.Sound) : (b.entered o).WF := wf_swept h ho

/-- The other side is what the sweep left of it. -/
theorem side_entered (b : QueueBook) (o : OrderData) :
    (b.entered o).side (opposite o.side) = (b.entry o).makers := by
  rw [entered, side_swept, if_pos (show SameSide _ _ from Iff.rfl)]

/-- What passes the checks is of the book's instrument. -/
theorem instrument_of_not_rejects (hrej : b.rejects o = false) : o.instrument = b.instrument := by
  simp only [rejects, Bool.or_eq_false_iff, bne_eq_false_iff_eq] at hrej
  exact hrej.1.1.1.2

/-- A taker with a remainder. -/
theorem open_entry (h : b.WF) (ho : o.Sound) (hnot : (b.entry o).taker.isFullyFilled = false) :
    (b.entry o).taker.Open :=
  UInt64.lt_of_le_of_ne (sound_entry h ho) (by simpa [OrderData.isFullyFilled] using hnot)

/-- **What is left of an order crosses nobody who is left.** -/
theorem not_crosses_entered (h : b.WF) (ho : o.Sound)
    (hnot : (b.entry o).taker.isFullyFilled = false) :
    ∀ f ∈ (b.entered o).side (opposite o.side),
      pricesCross o.side o.limitPrice f.price = false := by
  have hident := ident_entry h ho
  have hside : (b.entry o).taker.side = o.side := congrArg (·.side) hident
  have hprice : (b.entry o).taker.limitPrice = o.limitPrice := congrArg (·.limitPrice) hident
  have hsort := (wf_entered h ho).sorted (opposite o.side)
  rw [side_entered] at hsort ⊢
  rw [← hside, ← hprice]
  exact pricesCross_eq_false_of_stops (stops_sweep ho h.open)
    (open_entry h ho hnot).remaining_ne_zero (hside.symm ▸ hsort)

@[simp] theorem instrument_rest (b : QueueBook) (e : Resting) :
    (b.rest e).instrument = b.instrument := b.instrument_withSide _ _

@[simp] theorem instrument_entered (b : QueueBook) (o : OrderData) :
    (b.entered o).instrument = b.instrument := b.instrument_withSide _ _

/-- A book stays its instrument's. -/
theorem instrument_submit (b : QueueBook) (a : Slot) (o : OrderData) :
    (b.submit a o).book.instrument = b.instrument := by
  have hs := submitted b a o
  generalize b.submit a o = r at hs ⊢
  cases hs with
  | rejected _ => rfl
  | filled _ _ => exact b.instrument_entered o
  | dropped _ _ _ => exact b.instrument_entered o
  | rested _ _ _ => exact (instrument_rest _ _).trans (b.instrument_entered o)

theorem instrument_cancel (b : QueueBook) (id : OrderId) :
    (b.cancel id).1.instrument = b.instrument := by
  unfold cancel
  cases b.index.lookup id with
  | none => rfl
  | some loc => exact b.instrument_withSide _ _

/-- A sweep does not bring a slot into the book. -/
theorem slot_notMem_entered (h : b.WF) (ho : o.Sound) {a : Slot} (ha : a ∉ b.slots) :
    a ∉ (b.entered o).slots := fun hmem =>
  ha ((slots_swept_perm h ho).mem_iff.mp (List.mem_append_right _ hmem))

/-- **Submitting keeps the invariant**, whatever the id and the bytes of the order. -/
theorem wf_submit (h : b.WF) {a : Slot} (ho : o.Sound) (ha : a ∉ b.slots) :
    (b.submit a o).book.WF := by
  have hs := submitted b a o
  generalize b.submit a o = r at hs ⊢
  cases hs with
  | rejected _ => exact h
  | filled _ _ => exact wf_entered h ho
  | dropped _ _ _ => exact wf_entered h ho
  | rested hrej hnot _ =>
    have hident := ident_entry h ho
    refine wf_rest (wf_entered h ho) ⟨open_entry h ho hnot, rfl⟩ ?_
      (slot_notMem_entered h ho ha) ?_
    · exact (congrArg (·.instrument) hident).trans
        ((instrument_of_not_rejects hrej).trans (b.instrument_withSide (opposite o.side) _).symm)
    · have hside : (b.entry o).taker.side = o.side := congrArg (·.side) hident
      have hprice : (b.entry o).taker.limitPrice = o.limitPrice := congrArg (·.limitPrice) hident
      change ∀ f ∈ (b.entered o).side (opposite (b.entry o).taker.side),
        pricesCross (b.entry o).taker.side (b.entry o).taker.limitPrice f.price = false
      rw [hside, hprice]
      exact not_crosses_entered h ho hnot

end Submit

/-! ## Where the slots go

The slots before and after are the same ones: at rest, back to the pool, or back to the caller. -/

variable {a : Slot} {o : OrderData}

/-- An order that rests is not at its end. -/
theorem isTerminal_restStatus (o : OrderData) :
    (o.withStatus o.restStatus).isTerminal = false := by
  unfold OrderData.restStatus
  split_ifs <;> rfl

/-- **Where the slots of a submission go**: the makers' to the pool or to rest, the taker's to rest
or back to its owner. -/
theorem slots_submit_perm (h : b.WF) (ho : o.Sound) :
    ((b.submit a o).gone.map (·.slot) ++ (b.submit a o).book.slots).Perm
      (if (b.submit a o).order.rests then a :: b.slots else b.slots) := by
  have hident := ident_entry h ho
  have htype : (b.entry o).taker.type = o.type := congrArg (·.type) hident
  have htif : (b.entry o).taker.tif = o.tif := congrArg (·.tif) hident
  have hswept : ((b.entry o).gone.map (·.slot) ++ (b.entered o).slots).Perm b.slots :=
    slots_swept_perm h ho
  have hs := submitted b a o
  generalize b.submit a o = r at hs ⊢
  cases hs with
  | rejected _ => exact List.Perm.refl _
  | filled _ _ => exact hswept
  | dropped _ _ hdrop =>
    have hnot : ((b.entry o).taker.withStatus (dropStatus (b.entry o).taker)).rests = false := by
      have hbool : (o.type == .market || o.tif == .ioc) = true := by simpa using hdrop
      unfold OrderData.rests
      change (_ && !((b.entry o).taker.type == .market || (b.entry o).taker.tif == .ioc)) = false
      rw [htype, htif, hbool, Bool.not_true, Bool.and_false]
    rw [hnot, if_neg Bool.false_ne_true]
    exact hswept
  | rested _ _ hrest =>
    have hyes : ((b.entry o).taker.withStatus (b.entry o).taker.restStatus).rests = true := by
      have hbool : (o.type == .market || o.tif == .ioc) = false := by
        simpa [not_or] using hrest
      unfold OrderData.rests
      rw [isTerminal_restStatus]
      change (_ && !((b.entry o).taker.type == .market || (b.entry o).taker.tif == .ioc)) = true
      rw [htype, htif, hbool]
      rfl
    rw [hyes, if_pos rfl]
    refine (List.Perm.append_left _ (slots_rest_perm _ _)).trans ?_
    exact List.perm_middle.trans (hswept.cons a)

/-- Where the slots of a cancelled order go. -/
theorem slots_remove_perm (h : b.WF) {id : OrderId} {loc : Locator}
    (hl : b.index.lookup id = some loc) : (loc.order :: (b.remove id loc).slots).Perm b.slots := by
  have hnd := (wf_remove h hl).nodup
  have hmem : ∀ c, c ∈ (b.remove id loc).slots ↔ c ∈ b.slots ∧ c ≠ loc.order := by
    intro c
    rw [mem_slots, mem_slots]
    constructor
    · rintro ⟨s, e, he, rfl⟩
      obtain ⟨he, hne⟩ := (mem_side_remove h hl).mp he
      exact ⟨⟨s, e, he, rfl⟩, hne⟩
    · rintro ⟨⟨s, e, he, rfl⟩, hne⟩
      exact ⟨s, e, (mem_side_remove h hl).mpr ⟨he, hne⟩, rfl⟩
  obtain ⟨e, he, h1, -⟩ := h.located id loc hl
  refine (List.perm_ext_iff_of_nodup (List.nodup_cons.mpr ⟨?_, hnd⟩) h.nodup).mpr fun c => ?_
  · exact fun hc => ((hmem _).mp hc).2 rfl
  · rw [List.mem_cons, hmem]
    by_cases hc : c = loc.order
    · simp only [hc, true_or, true_iff]
      exact mem_slots.mpr ⟨_, e, he, h1⟩
    · simp [hc]

end QueueBook

end Ordbk
