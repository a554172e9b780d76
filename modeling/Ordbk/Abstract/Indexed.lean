import Ordbk.Abstract.Rested

/-!
# Abstract/Indexed — when the index is complete

`WF.located` is one half of the index: an entry points at a resting order.  The other half,
`Indexed` — every resting order has its entry — needs ids to be unique among the orders at rest, and
is kept by every operation but one: bringing to rest an order whose id somebody in the book already
has.
-/

namespace Ordbk

namespace QueueBook

variable {b : QueueBook} {a : Slot} {o : OrderData}

/-- **Every resting order is the one its id leads to.** -/
def Indexed (b : QueueBook) : Prop :=
  ∀ e ∈ b.resting, ∃ loc, b.index.lookup e.order.id = some loc ∧ loc.order = e.slot

/-- In an empty book there is nobody to find. -/
theorem indexed_new (i : InstrumentId) : (QueueBook.mk i [] [] ∅).Indexed := fun e he => by
  simp [resting] at he

/-- Ids name resting orders. -/
theorem Indexed.eq_of_id (h : b.Indexed) (hw : b.WF) {e f : Resting} (he : e ∈ b.resting)
    (hf : f ∈ b.resting) (hid : e.order.id = f.order.id) : e = f := by
  obtain ⟨loc, hl, hs⟩ := h e he
  obtain ⟨loc', hl', hs'⟩ := h f hf
  rw [hid, hl'] at hl
  obtain rfl := Option.some.inj hl
  exact List.inj_on_of_nodup_map hw.nodup he hf (hs.symm.trans hs')

/-- No two orders at rest share an id. -/
theorem Indexed.nodup_ids (h : b.Indexed) (hw : b.WF) : (b.resting.map (·.order.id)).Nodup :=
  List.Nodup.map_on (fun _ he _ hf hid => h.eq_of_id hw he hf hid) (hw.nodup.of_map _)

/-- **One entry per resting order**, no more and no less. -/
theorem Indexed.card_keys (h : b.Indexed) (hw : b.WF) : b.index.keys.card = b.resting.length := by
  have hkeys : b.index.keys = (b.resting.map (·.order.id)).toFinset := by
    ext id
    rw [Finmap.mem_keys, List.mem_toFinset, List.mem_map, ← Finmap.lookup_isSome]
    constructor
    · intro hsome
      obtain ⟨loc, hl⟩ := Option.isSome_iff_exists.mp hsome
      obtain ⟨e, he, -, hid, -⟩ := hw.located id loc hl
      exact ⟨e, b.mem_resting.mpr ⟨_, he⟩, hid⟩
    · rintro ⟨e, he, rfl⟩
      obtain ⟨loc, hl, -⟩ := h e he
      simp [hl]
  rw [hkeys, List.toFinset_card_of_nodup (h.nodup_ids hw), List.length_map]

/-- Sweeping drops the entries of the orders it uses up, and of nobody else. -/
theorem indexed_entered (h : b.Indexed) (hw : b.WF) (ho : o.Sound) : (b.entered o).Indexed := by
  intro e he
  obtain ⟨s, hs⟩ := (b.entered o).mem_resting.mp he
  obtain ⟨e₀, he₀, hid⟩ := mem_side_swept hw ho hs
  have he₀' := b.mem_resting.mpr ⟨s, he₀⟩
  have hids : e₀.order.id = e.order.id := congrArg (fun p => p.2.id) hid
  have hslot : e₀.slot = e.slot := congrArg Prod.fst hid
  obtain ⟨loc, hl, hloc⟩ := h e₀ he₀'
  refine ⟨loc, ?_, hloc.trans hslot⟩
  change (forget b.index (b.entry o).gone).lookup e.order.id = some loc
  rw [lookup_forget, if_neg, ← hids, hl]
  -- an order that is gone and has this id would sit in this slot, which is still in use
  intro hgone
  obtain ⟨g, hg, hgid⟩ := List.mem_map.mp hgone
  have hmem : g.ident ∈ (b.side (opposite o.side)).map Resting.ident := by
    rw [← ident_sweep_makers ho hw.open]
    exact List.mem_map_of_mem (List.mem_append_left _ hg)
  obtain ⟨k, hk, hkg⟩ := List.mem_map.mp hmem
  have hkid : k.order.id = e₀.order.id :=
    (congrArg (fun p => p.2.id) hkg).trans (hgid.trans hids.symm)
  obtain rfl := h.eq_of_id hw (b.mem_resting.mpr ⟨_, hk⟩) he₀' hkid
  have hgslot : g.slot = e.slot := (congrArg Prod.fst hkg).symm.trans hslot
  have hnd := (slots_swept_perm (s := opposite o.side) hw ho).nodup_iff.mpr hw.nodup
  exact List.disjoint_of_nodup_append hnd (List.mem_map_of_mem hg)
    (List.mem_map.mpr ⟨e, he, hgslot.symm⟩)

/-- **A new id gets its entry.** -/
theorem indexed_rest (h : b.Indexed) {e : Resting} (hnew : b.index.lookup e.order.id = none) :
    (b.rest e).Indexed := by
  intro f hf
  obtain ⟨s, hs⟩ := (b.rest e).mem_resting.mp hf
  change ∃ loc, (emplace b.index _ _).lookup f.order.id = some loc ∧ _
  rw [lookup_emplace]
  rcases mem_side_rest.mp hs with ⟨rfl, -⟩ | hs
  · rw [if_pos ⟨rfl, hnew⟩]
    exact ⟨_, rfl, rfl⟩
  · obtain ⟨loc, hl, hslot⟩ := h f (b.mem_resting.mpr ⟨s, hs⟩)
    have hne : ¬ (f.order.id = e.order.id ∧ b.index.lookup e.order.id = none) := by
      rintro ⟨hid, -⟩
      rw [hid, hnew] at hl
      simp at hl
    rw [if_neg hne]
    exact ⟨loc, hl, hslot⟩

/-- An id nobody at rest has is not in the index. -/
theorem lookup_eq_none (hw : b.WF) {id : OrderId} (h : ∀ e ∈ b.resting, e.order.id ≠ id) :
    b.index.lookup id = none := by
  cases hl : b.index.lookup id with
  | none => rfl
  | some loc =>
    obtain ⟨e, he, -, hid, -⟩ := hw.located id loc hl
    exact absurd hid (h e (b.mem_resting.mpr ⟨_, he⟩))

/-- **Submitting keeps the index complete** unless the order comes to rest beside another order of
its id. -/
theorem indexed_submit (h : b.Indexed) (hw : b.WF) (ho : o.Sound)
    (hid : b.Rests o → ∀ e ∈ (b.entered o).resting, e.order.id ≠ o.id) :
    (b.submit a o).book.Indexed := by
  have hent := indexed_entered h hw ho
  have hs := submitted b a o
  generalize b.submit a o = r at hs ⊢
  cases hs with
  | rejected _ => exact h
  | filled _ _ => exact hent
  | dropped _ _ _ => exact hent
  | rested h1 h2 h3 =>
    have hident : (b.entry o).taker.id = o.id := congrArg (·.id) (ident_entry hw ho)
    refine indexed_rest hent (lookup_eq_none (wf_entered hw ho) fun e he => ?_)
    change e.order.id ≠ (b.entry o).taker.id
    rw [hident]
    exact hid ⟨h1, h2, h3⟩ e he

/-- Nobody left on the other side would have traded with what is left of the order. -/
theorem blocked_entered (hw : b.WF) (ho : o.Sound)
    (hnot : (b.entry o).taker.isFullyFilled = false) :
    ∀ f ∈ (b.entered o).side (opposite o.side), Matcher.blocked o f.price = true := by
  intro f hf
  have hcross := not_crosses_entered hw ho hnot f hf
  have hne := (open_entry hw ho hnot).remaining_ne_zero
  rw [side_entered] at hf
  -- the sweep stopped at somebody, and only limit orders are stopped
  obtain ⟨g, gs, hg⟩ := List.exists_cons_of_ne_nil (List.ne_nil_of_mem hf)
  have hstop : Stops (b.entry o).taker (b.entry o).makers := stops_sweep ho hw.open
  have hblock : Matcher.blocked (b.entry o).taker g.price = true :=
    hstop.resolve_left hne g (by rw [hg]; rfl)
  rw [blocked_congr (ident_entry hw ho)] at hblock
  simp only [Matcher.blocked, Bool.and_eq_true] at hblock ⊢
  exact ⟨hblock.1, by rw [hcross]; rfl⟩

/-- **An order rests alone under its id** if every order of that id in the book is on the other side
and within its reach. -/
theorem id_ne_of_entered (hw : b.WF) (ho : o.Sound)
    (hnot : (b.entry o).taker.isFullyFilled = false)
    (hfree : ∀ e ∈ b.resting, e.order.id = o.id →
      e ∈ b.side (opposite o.side) ∧ Matcher.blocked o e.price = false) :
    ∀ e ∈ (b.entered o).resting, e.order.id ≠ o.id := by
  intro e he hid
  obtain ⟨s, hs⟩ := (b.entered o).mem_resting.mp he
  obtain ⟨e₀, he₀, hident⟩ := mem_side_swept hw ho hs
  have hid₀ : e₀.order.id = o.id := (congrArg (fun p => p.2.id) hident).trans hid
  obtain ⟨hopp, hreach⟩ := hfree e₀ (b.mem_resting.mpr ⟨s, he₀⟩) hid₀
  rw [Resting.price_eq_of_ident hident] at hreach
  have hsame : SameSide s (opposite o.side) := by
    have h1 := hw.sided s e₀ he₀
    have h2 := hw.sided _ e₀ hopp
    exact h1.symm.trans h2
  rw [(b.entered o).side_congr hsame] at hs
  rw [blocked_entered hw ho hnot e hs] at hreach
  exact Bool.false_ne_true hreach.symm

/-- A cancel takes order and entry together. -/
theorem indexed_cancel (h : b.Indexed) (hw : b.WF) (id : OrderId) : (b.cancel id).1.Indexed := by
  unfold cancel
  cases hl : b.index.lookup id with
  | none => exact h
  | some loc =>
    intro e he
    obtain ⟨s, hs⟩ := QueueBook.mem_resting _ |>.mp he
    obtain ⟨hs, hne⟩ := (mem_side_remove hw hl).mp hs
    obtain ⟨loc', hl', hslot⟩ := h e (b.mem_resting.mpr ⟨s, hs⟩)
    refine ⟨loc', ?_, hslot⟩
    change (b.index.erase id).lookup e.order.id = some loc'
    rw [Finmap.lookup_erase_ne, hl']
    rintro rfl
    rw [hl] at hl'
    obtain rfl := Option.some.inj hl'
    exact hne hslot.symm

/-- **An id leads somewhere iff an order at rest has it.** -/
theorem Indexed.isSome_lookup (h : b.Indexed) (hw : b.WF) (id : OrderId) :
    (b.index.lookup id).isSome = true ↔ ∃ e ∈ b.resting, e.order.id = id := by
  rw [Option.isSome_iff_exists]
  constructor
  · rintro ⟨loc, hl⟩
    obtain ⟨e, he, -, hid, -⟩ := hw.located id loc hl
    exact ⟨e, b.mem_resting.mpr ⟨_, he⟩, hid⟩
  · rintro ⟨e, he, rfl⟩
    obtain ⟨loc, hl, -⟩ := h e he
    exact ⟨loc, hl⟩

/-- An order that meets nobody leaves the book as it is. -/
theorem entered_of_stops (h : Stops o (b.side (opposite o.side))) : b.entered o = b := by
  rw [entered, entry, sweep_stop h, swept]
  unfold withSide side
  split_ifs <;> rfl

/-- An order that rests and has traded with nobody has met nobody. -/
theorem book_of_untraded (hw : b.WF)
    (hrest : b.Rests o) (hnone : (b.entry o).trades = []) :
    (b.submit a o).book = b.rest ⟨a, o.withStatus o.restStatus⟩ := by
  have hstops : Stops o (b.side (opposite o.side)) := by
    by_contra hgo
    obtain ⟨m, ms, hm⟩ : ∃ m ms, b.side (opposite o.side) = m :: ms := by
      refine List.exists_cons_of_ne_nil fun hnil => hgo ?_
      rw [hnil]
      exact .inr (by simp)
    rw [entry, hm] at hnone
    rw [hm] at hgo
    by_cases hle : m.order.remaining ≤ o.remaining
    · rw [sweep_take hgo hle] at hnone
      cases hnone
    · rw [sweep_part hgo (hw.open m (hm ▸ List.mem_cons_self ..)) (UInt64.not_le.mp hle)] at hnone
      cases hnone
  have htaker : (b.entry o).taker = o := congrArg Sweep.taker (sweep_stop hstops)
  have hnot := hrest.unfilled
  rw [submit, if_neg (by simp [hrest.accepted]), if_neg (by simp [hnot]),
    if_neg hrest.patient, htaker, entered_of_stops hstops]

/-- **Coming to rest and being cancelled** leaves no trace. -/
theorem cancel_rest {e : Resting} (hslot : e.slot ∉ b.slots)
    (hnew : b.index.lookup e.order.id = none) :
    (b.rest e).cancel e.order.id = (b, some e.slot) := by
  have hside : ∀ f ∈ b.side e.order.side, f.slot ≠ e.slot := fun f hf hfe =>
    hslot (mem_slots.mpr ⟨_, f, hf, hfe⟩)
  have hfilter : (Priority.enqueue Resting.price (better e.order.side) e
      (b.side e.order.side)).filter (fun f => f.slot ≠ e.slot) = b.side e.order.side := by
    obtain ⟨l₁, l₂, hl, henq⟩ := Priority.enqueue_split Resting.price (better e.order.side) e
      (b.side e.order.side)
    rw [henq, List.filter_append, List.filter_cons_of_neg (by simp), ← List.filter_append, ← hl,
      List.filter_eq_self]
    exact fun f hf => by simpa using hside f hf
  have hindex : (emplace b.index e.order.id
      ⟨if e.order.side = .buy then .buy else .sell, e.price, e.slot⟩).erase e.order.id
        = b.index := by
    refine Finmap.ext_lookup fun id => ?_
    by_cases hid : id = e.order.id
    · rw [hid, Finmap.lookup_erase, hnew]
    · rw [Finmap.lookup_erase_ne hid, lookup_emplace, if_neg fun hc => hid hc.1]
  have hloc : (b.rest e).index.lookup e.order.id
      = some ⟨if e.order.side = .buy then .buy else .sell, e.price, e.slot⟩ := by
    change (emplace b.index _ _).lookup _ = _
    rw [lookup_emplace, if_pos ⟨rfl, hnew⟩]
  rw [cancel, hloc]
  refine Prod.ext ?_ rfl
  by_cases hbuy : e.order.side = .buy
  · simp only [side, hbuy, if_true] at hfilter hindex
    simp only [remove, rest, withSide, side, hbuy, if_true, hfilter, hindex]
  · simp only [side, hbuy, if_false] at hfilter hindex
    simp only [remove, rest, withSide, side, hbuy, if_false, reduceCtorEq, hfilter, hindex]

end QueueBook

end Ordbk
