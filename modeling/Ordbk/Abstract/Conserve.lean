import Ordbk.Abstract.Rested

/-!
# Abstract/Conserve — every fill is a trade

`volume id ts` is what the executions `ts` move in the name of one order.  Submitting an order
raises its `filled_qty`, and that of each maker, by exactly that: `filled_submit` for the taker,
`exists_survivor` for the makers, gone or still resting.
-/

namespace Ordbk

/-! ## Volumes

A trade counts for both orders it names; over a list of trades the volumes of an order add up. -/

/-- The execution has this order on one of its sides. -/
def Trade.Names (x : Trade) (id : OrderId) : Prop := x.makerId = id ∨ x.takerId = id

instance (x : Trade) (id : OrderId) : Decidable (x.Names id) := inferInstanceAs (Decidable (_ ∨ _))

/-- The quantity traded by one order, over the integers. -/
def volume (id : OrderId) (ts : List Trade) : ℕ := tradedQty (ts.filter (·.Names id))

@[simp] theorem volume_nil (id : OrderId) : volume id [] = 0 := rfl

/-- What is traded in two goes is traded. -/
theorem volume_append (id : OrderId) (ts us : List Trade) :
    volume id (ts ++ us) = volume id ts + volume id us := by simp [volume]

theorem volume_cons (id : OrderId) (x : Trade) (ts : List Trade) :
    volume id (x :: ts) = (if x.Names id then x.quantity.toNat else 0) + volume id ts := by
  unfold volume
  by_cases h : x.Names id
  · rw [List.filter_cons_of_pos (by simpa using h), tradedQty_cons, if_pos h]
  · rw [List.filter_cons_of_neg (by simpa using h), if_neg h, Nat.zero_add]

/-- A fill counts for the maker. -/
theorem volume_cons_of_maker (t k : OrderData) (q : Quantity) (ts : List Trade) :
    volume k.id (tradeOf t k q :: ts) = q.toNat + volume k.id ts := by
  rw [volume_cons, if_pos (show (tradeOf t k q).Names k.id from Or.inl rfl)]
  rfl

/-- And for nobody who is not in it. -/
theorem volume_cons_of_other {t k : OrderData} {id : OrderId} (hk : k.id ≠ id) (ht : t.id ≠ id)
    (q : Quantity) (ts : List Trade) : volume id (tradeOf t k q :: ts) = volume id ts := by
  have hnot : ¬ (tradeOf t k q).Names id := fun hn => hn.elim hk ht
  rw [volume_cons, if_neg hnot, Nat.zero_add]

/-- An order nobody names has traded nothing. -/
theorem volume_eq_zero {id : OrderId} {ts : List Trade} (h : ∀ x ∈ ts, ¬ x.Names id) :
    volume id ts = 0 := by
  rw [volume, List.filter_eq_nil_iff.mpr fun x hx => by simpa using h x hx]
  rfl

/-- An order everybody names has traded everything. -/
theorem volume_eq_tradedQty {id : OrderId} {ts : List Trade} (h : ∀ x ∈ ts, x.Names id) :
    volume id ts = tradedQty ts := by
  rw [volume, List.filter_eq_self.mpr fun x hx => by simpa using h x hx]

/-! ## One sweep

In a sweep every maker is met at most once, so its volume is the quantity of one trade. -/

section Sweep

variable {t : OrderData} {ms : List Resting}

/-- **Each maker is filled by exactly what it trades.** -/
theorem exists_filled_of_sweep (ht : t.Sound) (hms : ∀ m ∈ ms, m.order.Open)
    (hnd : (ms.map (·.order.id)).Nodup) (hid : ∀ m ∈ ms, m.order.id ≠ t.id) {e : Resting}
    (he : e ∈ ms) :
    ∃ e' ∈ (sweep t ms).gone ++ (sweep t ms).makers, e'.ident = e.ident
      ∧ e'.order.filledQty.toNat
        = e.order.filledQty.toNat + volume e.order.id (sweep t ms).trades := by
  revert hnd hid he
  refine sweep_rec (P := fun t ms s => (ms.map (·.order.id)).Nodup → (∀ m ∈ ms, m.order.id ≠ t.id) →
    e ∈ ms → ∃ e' ∈ s.gone ++ s.makers, e'.ident = e.ident ∧ e'.order.filledQty.toNat
      = e.order.filledQty.toNat + volume e.order.id s.trades) ?_ ?_ ?_ ht hms
  · intro t ms _ _ _ _ _ he
    exact ⟨e, he, rfl, rfl⟩
  · intro t m ms s ht hm hms _ hle hs ih hnd hid he
    rw [List.map_cons, List.nodup_cons] at hnd
    have hid' : ∀ m' ∈ ms, m'.order.id ≠ t.id := fun m' hm' => hid m' (List.mem_cons_of_mem _ hm')
    rcases List.mem_cons.mp he with rfl | he
    · -- the maker consumed here trades with nobody later on
      refine ⟨e.consumed, by simp, rfl, ?_⟩
      have hlater : volume e.order.id s.trades = 0 := by
        refine volume_eq_zero fun x hx => ?_
        obtain ⟨k, hk, -, hxk, -⟩ := mem_sweep_trades (ht.fill hle) hms (hs ▸ hx)
        rw [hxk]
        rintro (hn | hn)
        · exact hnd.1 (List.mem_map.mpr ⟨k, hk, hn⟩)
        · exact hid e (by simp) hn.symm
      have hrem := hm.sound.toNat_remaining
      have hlt := hm.toNat_lt
      rw [volume_cons_of_maker, hlater]
      change e.order.initialQty.toNat = e.order.filledQty.toNat + (e.order.remaining.toNat + 0)
      omega
    · obtain ⟨e', he', hident, hfill⟩ := ih hnd.2 hid' he
      refine ⟨e', List.mem_cons_of_mem _ he', hident, ?_⟩
      rw [volume_cons_of_other (fun hn => hnd.1 (List.mem_map.mpr ⟨e, he, hn.symm⟩))
        (hid' e he).symm]
      exact hfill
  · intro t m ms ht hm _ _ hlt hnd hid he
    rw [List.map_cons, List.nodup_cons] at hnd
    rcases List.mem_cons.mp he with rfl | he
    · refine ⟨e.partly t.remaining, by simp, rfl, ?_⟩
      rw [volume_cons_of_maker]
      exact hm.sound.toNat_fill (UInt64.le_of_lt hlt)
    · refine ⟨e, by simp [he], rfl, ?_⟩
      rw [volume_cons_of_other (fun hn => hnd.1 (List.mem_map.mpr ⟨e, he, hn.symm⟩))
        (hid e (List.mem_cons_of_mem _ he)).symm]
      rfl

/-- The makers gone have been consumed whole. -/
theorem mem_sweep_gone (ht : t.Sound) (hms : ∀ m ∈ ms, m.order.Open) {e : Resting}
    (he : e ∈ (sweep t ms).gone) : ∃ m ∈ ms, e = m.consumed := by
  revert he
  refine sweep_rec (P := fun _ ms s => e ∈ s.gone → ∃ m ∈ ms, e = m.consumed) ?_ ?_ ?_ ht hms
  · intro t ms _ _ _ he
    simp at he
  · intro t m ms s _ _ _ _ _ _ ih he
    rcases List.mem_cons.mp he with rfl | he
    · exact ⟨m, by simp, rfl⟩
    · obtain ⟨k, hk, rfl⟩ := ih he
      exact ⟨k, List.mem_cons_of_mem _ hk, rfl⟩
  · intro t m ms _ _ _ _ _ he
    simp at he

end Sweep

/-! ## One submission

The taker's fills are all the trades; a maker that stays is filled by its own, and one that leaves
is filled whole. -/

namespace QueueBook

variable {b : QueueBook} {a : Slot} {o : OrderData}

/-- The taker stays the same order, is not overfilled, and is filled by exactly what is traded. -/
theorem filled_submit (h : b.WF) (ho : o.Sound) :
    (b.submit a o).order.ident = o.ident ∧ (b.submit a o).order.Sound
      ∧ (b.submit a o).order.filledQty.toNat
        = o.filledQty.toNat + tradedQty (b.submit a o).trades := by
  have hident := ident_entry h ho
  have hsound := sound_entry h ho
  have hfill : (b.entry o).taker.filledQty.toNat
      = o.filledQty.toNat + tradedQty (b.entry o).trades :=
    toNat_filled_sweep ho h.open
  have hs := submitted b a o
  generalize b.submit a o = r at hs ⊢
  cases hs with
  | rejected _ => exact ⟨rfl, ho, rfl⟩
  | filled _ _ => exact ⟨hident, hsound, hfill⟩
  | dropped _ _ _ => exact ⟨hident, hsound, hfill⟩
  | rested _ _ _ => exact ⟨hident, hsound, hfill⟩

/-- **An order that is let in trades all of its quantity exactly when it ends filled**, and a
fill-or-kill order does. -/
theorem status_submit (h : b.WF) (h0 : o.filledQty = 0)
    (hacc : (b.submit a o).order.status ≠ .rejected) :
    (tradedQty (b.submit a o).trades = o.initialQty.toNat ↔ (b.submit a o).order.status = .filled)
      ∧ (o.tif = .fok → (b.submit a o).order.status = .filled) := by
  have ho := OrderData.sound_of_fresh h0
  obtain ⟨hident, -, hfill⟩ := filled_submit (a := a) h ho
  rw [h0, UInt64.toNat_zero, Nat.zero_add] at hfill
  rw [← hfill, UInt64.toNat_inj]
  have hinit : (b.submit a o).order.initialQty = o.initialQty := congrArg (·.initialQty) hident
  rw [← hinit]
  have hs := submitted b a o
  generalize b.submit a o = r at hs hacc ⊢
  have hfok : b.rejects o = false → (b.entry o).taker.isFullyFilled = false → o.tif ≠ .fok := by
    intro hrej hnot ht
    have hq : o.remaining ≠ 0 := remaining_of_fresh h0 ▸ initialQty_of_accepted hrej
    exact Bool.false_ne_true (hnot.symm.trans (filled_of_fok h ho hq hrej ht))
  cases hs with
  | rejected _ => exact absurd rfl hacc
  | filled _ hfull => exact ⟨iff_of_true (beq_iff_eq.mp hfull) rfl, fun _ => rfl⟩
  | dropped hrej hnot _ =>
    exact ⟨iff_of_false (beq_eq_false_iff_ne.mp hnot) (dropStatus_ne _).2,
      fun ht => absurd ht (hfok hrej hnot)⟩
  | rested hrej hnot _ =>
    exact ⟨iff_of_false (beq_eq_false_iff_ne.mp hnot) (restStatus_ne _).2,
      fun ht => absurd ht (hfok hrej hnot)⟩

/-- Makers leave consumed whole. -/
theorem gone_submit (h : b.WF) (ho : o.Sound) {e : Resting} (he : e ∈ (b.submit a o).gone) :
    ∃ m ∈ b.side (opposite o.side), e = m.consumed := by
  have hswept := fun he => mem_sweep_gone (e := e) ho (h.open (s := opposite o.side)) he
  have hs := submitted b a o
  generalize b.submit a o = r at hs he
  cases hs with
  | rejected _ => simp at he
  | filled _ _ => exact hswept he
  | dropped _ _ _ => exact hswept he
  | rested _ _ _ => exact hswept he

/-- An order on the side that is not swept stays as it is. -/
theorem mem_entered_of_own {s : Side} {e : Resting} (he : e ∈ b.side s)
    (hs : ¬ SameSide (opposite o.side) s) : e ∈ (b.entered o).side s := by
  rw [entered, side_swept, if_neg hs]
  exact he

/-- **Where each resting order is after a submission**, and by how much it was filled. -/
theorem exists_survivor (h : b.WF) (ho : o.Sound) (hnd : (b.resting.map (·.order.id)).Nodup)
    (hid : ∀ e ∈ b.resting, e.order.id ≠ o.id) {e : Resting} (he : e ∈ b.resting) :
    ∃ e' ∈ (b.submit a o).gone ++ (b.submit a o).book.resting, e'.ident = e.ident
      ∧ e'.order.filledQty.toNat
        = e.order.filledQty.toNat + volume e.order.id (b.submit a o).trades := by
  -- first the sweep, then what is done with the taker
  have hent : ∃ e' ∈ (b.entry o).gone ++ (b.entered o).resting, e'.ident = e.ident
      ∧ e'.order.filledQty.toNat
        = e.order.filledQty.toNat + volume e.order.id (b.entry o).trades := by
    obtain ⟨s, hs⟩ := b.mem_resting.mp he
    by_cases hopp : SameSide (opposite o.side) s
    · rw [← b.side_congr hopp] at hs
      have hndopp : ((b.side (opposite o.side)).map (·.order.id)).Nodup := by
        have hperm := (b.resting_perm (opposite o.side)).map fun e : Resting => e.order.id
        rw [List.map_append] at hperm
        exact (hperm.nodup_iff.mp hnd).of_append_left
      obtain ⟨e', he', hrest⟩ := exists_filled_of_sweep ho h.open hndopp
        (fun k hk => hid k (b.mem_resting.mpr ⟨_, hk⟩)) hs
      refine ⟨e', ?_, hrest⟩
      rcases List.mem_append.mp he' with he' | he'
      · exact List.mem_append_left _ he'
      · refine List.mem_append_right _ ((b.entered o).mem_resting.mpr ⟨opposite o.side, ?_⟩)
        rw [side_entered]
        exact he'
    · refine ⟨e, List.mem_append_right _ ((b.entered o).mem_resting.mpr
        ⟨s, mem_entered_of_own hs hopp⟩), rfl, ?_⟩
      have hnone : volume e.order.id (b.entry o).trades = 0 := by
        refine volume_eq_zero fun x hx => ?_
        obtain ⟨k, hk, -, hxk, -⟩ := mem_sweep_trades ho h.open hx
        rw [hxk]
        rintro (hn | hn)
        · have hke : k = e := List.inj_on_of_nodup_map hnd (b.mem_resting.mpr ⟨_, hk⟩) he hn
          subst hke
          exact hopp ((h.sided _ _ hk).symm.trans (h.sided _ _ hs))
        · exact hid e he hn.symm
      rw [hnone, Nat.add_zero]
  have hs := submitted b a o
  generalize b.submit a o = r at hs ⊢
  cases hs with
  | rejected _ => exact ⟨e, he, rfl, rfl⟩
  | filled _ _ => exact hent
  | dropped _ _ _ => exact hent
  | rested _ _ _ =>
    obtain ⟨e', he', hrest⟩ := hent
    refine ⟨e', ?_, hrest⟩
    rcases List.mem_append.mp he' with he' | he'
    · exact List.mem_append_left _ he'
    · exact List.mem_append_right _ (mem_resting_rest he')

end QueueBook

end Ordbk
