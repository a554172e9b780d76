import Ordbk.Abstract.QueueBook

/-!
# Abstract/Rested — which orders come to rest

`Rests b o`: submitting `o` leaves a remainder of it in the book.  Anything true of the unchanging
fields of every order that comes to rest is true of every order at rest, ever after (`All`), and of
every maker of every execution.

A fill-or-kill order never comes to rest, because its dry run agrees with the sweep.
-/

namespace Ordbk

namespace QueueBook

variable {b : QueueBook} {a : Slot} {o : OrderData} {P : OrderData → Prop}

/-- A remainder of the order comes to rest. -/
structure Rests (b : QueueBook) (o : OrderData) : Prop where
  /-- It passes the checks, -/
  accepted : b.rejects o = false
  /-- something of it is left, -/
  unfilled : (b.entry o).taker.isFullyFilled = false
  /-- and it is of a kind that stays. -/
  patient : ¬ (o.type = .market ∨ o.tif = .ioc)

/-- Every resting order, its fills aside, satisfies `P`. -/
def All (P : OrderData → Prop) (b : QueueBook) : Prop := ∀ e ∈ b.resting, P e.order.ident

theorem All.side (h : b.All P) {s : Side} {e : Resting} (he : e ∈ b.side s) : P e.order.ident :=
  h e (b.mem_resting.mpr ⟨s, he⟩)

theorem all_new (i : InstrumentId) : (QueueBook.mk i [] [] ∅).All P := fun e he => by
  simp [resting] at he

theorem all_entered (h : b.WF) (ho : o.Sound) (hall : b.All P) : (b.entered o).All P := by
  intro e he
  obtain ⟨s, hs⟩ := (b.entered o).mem_resting.mp he
  obtain ⟨e₀, he₀, hid⟩ := mem_side_swept h ho hs
  have hident : e₀.order.ident = e.order.ident := congrArg Prod.snd hid
  exact hident ▸ hall.side he₀

/-- **What every order coming to rest satisfies, every order at rest satisfies.** -/
theorem all_submit (h : b.WF) (ho : o.Sound) (hall : b.All P) (hnew : b.Rests o → P o.ident) :
    (b.submit a o).book.All P := by
  have hent := all_entered h ho hall
  have hs := submitted b a o
  generalize b.submit a o = r at hs ⊢
  cases hs with
  | rejected _ => exact hall
  | filled _ _ => exact hent
  | dropped _ _ _ => exact hent
  | rested h1 h2 h3 =>
    intro e he
    obtain ⟨s, hs⟩ := QueueBook.mem_resting _ |>.mp he
    rcases mem_side_rest.mp hs with ⟨rfl, -⟩ | hs
    · have hident : (b.entry o).taker.ident = o.ident := ident_entry h ho
      change P (b.entry o).taker.ident
      exact hident ▸ hnew ⟨h1, h2, h3⟩
    · exact hent.side hs

theorem all_cancel (h : b.WF) (hall : b.All P) (id : OrderId) : (b.cancel id).1.All P := by
  unfold cancel
  cases hl : b.index.lookup id with
  | none => exact hall
  | some loc =>
    intro e he
    obtain ⟨s, hs⟩ := QueueBook.mem_resting _ |>.mp he
    exact hall.side ((mem_side_remove h hl).mp hs).1

/-- The executions of a submission are those of its sweep, if it makes one. -/
theorem trades_submit (b : QueueBook) (a : Slot) (o : OrderData) :
    (b.submit a o).trades = if b.rejects o then [] else (b.entry o).trades := by
  have hs := submitted b a o
  generalize b.submit a o = r at hs ⊢
  cases hs with
  | rejected hrej => rw [if_pos hrej]
  | filled hrej _ => rw [hrej, if_neg Bool.false_ne_true]
  | dropped hrej _ _ => rw [hrej, if_neg Bool.false_ne_true]
  | rested hrej _ _ => rw [hrej, if_neg Bool.false_ne_true]

theorem dropStatus_ne (o : OrderData) :
    dropStatus o ≠ .rejected ∧ dropStatus o ≠ .filled := by
  unfold dropStatus
  split_ifs <;> exact ⟨nofun, nofun⟩

theorem restStatus_ne (o : OrderData) :
    o.restStatus ≠ .rejected ∧ o.restStatus ≠ .filled := by
  unfold OrderData.restStatus
  split_ifs <;> exact ⟨nofun, nofun⟩

/-- The status of a rejected order, and of no other. -/
theorem status_rejected_iff : (b.submit a o).order.status = .rejected ↔ b.rejects o = true := by
  have hs := submitted b a o
  generalize b.submit a o = r at hs ⊢
  cases hs with
  | rejected h => exact iff_of_true rfl h
  | filled h _ => exact iff_of_false (by simp [OrderData.withStatus]) (by simp [h])
  | dropped h _ _ => exact iff_of_false (dropStatus_ne _).1 (by simp [h])
  | rested h _ _ => exact iff_of_false (restStatus_ne _).1 (by simp [h])

/-- **Every execution has a resting maker**, on the other side and at its price. -/
theorem exists_maker (h : b.WF) (ho : o.Sound) {x : Trade} (hx : x ∈ (b.submit a o).trades) :
    ∃ k ∈ b.side (opposite o.side), 0 < x.quantity ∧ x = tradeOf o k.order x.quantity := by
  rw [trades_submit] at hx
  split_ifs at hx
  · simp at hx
  · obtain ⟨k, hk, h1, h2, -⟩ := mem_sweep_trades ho h.open hx
    exact ⟨k, hk, h1, h2⟩

/-! ## Fill or kill

The dry run looks at the same queue as the sweep after it, with nothing in between. -/

theorem isFullyFilled_iff (ho : o.Sound) : o.isFullyFilled = true ↔ o.remaining = 0 := by
  rw [ho.remaining_eq_zero, OrderData.isFullyFilled, beq_iff_eq]

/-- **The dry run of an order decides whether the sweep fills it.** -/
theorem covers_iff_filled (h : b.WF) (ho : o.Sound) (h0 : o.remaining ≠ 0) :
    covers o o.remaining (b.side (opposite o.side)) = true
      ↔ (b.entry o).taker.isFullyFilled = true := by
  rw [isFullyFilled_iff (sound_entry h ho)]
  exact covers_iff ho h.open h0

/-- What the checks say of an order that has passed. -/
theorem initialQty_of_accepted (h : b.rejects o = false) : o.initialQty ≠ 0 := by
  simp only [rejects, Bool.or_eq_false_iff, beq_eq_false_iff_ne] at h
  exact h.1.1.1.1

theorem price_of_accepted (h : b.rejects o = false) (ht : o.type = .limit) : 0 < o.limitPrice := by
  simp only [rejects, Bool.or_eq_false_iff, ht, beq_self_eq_true, Bool.true_and,
    decide_eq_false_iff_not] at h
  exact Int.not_le.mp h.1.1.2

theorem covers_of_accepted (h : b.rejects o = false) (ht : o.tif = .fok) :
    covers o o.remaining (b.side (opposite o.side)) = true := by
  simp only [rejects, Bool.or_eq_false_iff, ht, beq_self_eq_true, Bool.true_and,
    Bool.not_eq_false'] at h
  exact h.2

/-- An accepted fill-or-kill order is filled. -/
theorem filled_of_fok (h : b.WF) (ho : o.Sound) (h0 : o.remaining ≠ 0)
    (hacc : b.rejects o = false) (ht : o.tif = .fok) : (b.entry o).taker.isFullyFilled = true :=
  (covers_iff_filled h ho h0).mp (covers_of_accepted hacc ht)

theorem remaining_of_fresh (h0 : o.filledQty = 0) : o.remaining = o.initialQty := by
  rw [OrderData.remaining, h0, UInt64.sub_zero]

/-- **What comes to rest is not fill-or-kill.** -/
theorem Rests.tif_ne_fok (hr : b.Rests o) (h : b.WF) (ho : o.Sound) (h0 : o.filledQty = 0) :
    o.tif ≠ .fok := by
  intro ht
  have hq : o.remaining ≠ 0 := remaining_of_fresh h0 ▸ initialQty_of_accepted hr.accepted
  have hfull := filled_of_fok h ho hq hr.accepted ht
  rw [hr.unfilled] at hfull
  exact Bool.false_ne_true hfull

end QueueBook

/-! ## Plain orders

The enumeration fields may hold any byte; orders that stay in the range of the enumerators rest only
as limit orders at a positive price. -/

/-- The unchanging fields of a well-behaved resting order. -/
structure Plain (o : OrderData) : Prop where
  /-- It buys or sells. -/
  side : o.side.Declared
  /-- It has a price, -/
  type : o.type = .limit
  /-- waits for as long as it takes, or for the day, -/
  tif : o.tif = .gtc ∨ o.tif = .day
  /-- and the price is positive. -/
  price : 0 < o.limitPrice

/-- The enumeration fields of an order are named by enumerators. -/
structure OrderData.Declared (o : OrderData) : Prop where
  /-- Buy or sell, -/
  side : o.side.Declared
  /-- limit or market, -/
  type : o.type.Declared
  /-- and one of the four times in force. -/
  tif : o.tif.Declared

instance (o : OrderData) : Decidable o.Declared :=
  decidable_of_iff (o.side.Declared ∧ o.type.Declared ∧ o.tif.Declared)
    ⟨fun ⟨h1, h2, h3⟩ => ⟨h1, h2, h3⟩, fun ⟨h1, h2, h3⟩ => ⟨h1, h2, h3⟩⟩

/-- **With declared enumerators, only plain orders come to rest.** -/
theorem QueueBook.Rests.plain {b : QueueBook} {o : OrderData} (hr : b.Rests o) (hw : b.WF)
    (h0 : o.filledQty = 0) (hd : o.Declared) : Plain o.ident := by
  have hfok := hr.tif_ne_fok hw (OrderData.sound_of_fresh h0) h0
  obtain ⟨hm, hi⟩ := not_or.mp hr.patient
  have htype : o.type = .limit := hd.type.resolve_right hm
  have hprice : 0 < o.limitPrice := QueueBook.price_of_accepted hr.accepted htype
  refine ⟨hd.side, htype, ?_, hprice⟩
  rcases hd.tif with h | h | h | h
  · exact Or.inl h
  · exact absurd h hi
  · exact absurd h hfok
  · exact Or.inr h

end Ordbk
