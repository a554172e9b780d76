import Ordbk.Abstract.Rested
import Ordbk.Refinement.Admission
import Ordbk.Refinement.Gateway

/-!
# Theorems/Reasons — why an order was refused

The engine refuses an order in one place and the gateway works out the reason in another,
afterwards, from the bytes of the message and from the books that are left.  `Engine.refusal` is the
first check an order fails, told from the engine beforehand; in every state the gateway can be in it
is what the client is told (`reasons_of_reach`).
-/

namespace Ordbk

/-- **The first check an order fails** at an engine; `none` if it is let in. -/
def Engine.refusal (e : Engine) (pool : Pool) (o : OrderData) : Option RejectReason :=
  match e.matchers.lookup o.instrument with
  | none => some .unknownInstrument
  | some hb =>
    if o.initialQty = 0 then some .invalidQuantity
    else if o.type = .limit ∧ o.limitPrice ≤ 0 then some .invalidPrice
    else if o.type = .market ∧ (o.tif = .gtc ∨ o.tif = .day) then some .invalidTif
    else if o.tif = .fok ∧ Matcher.canFullyFill ⟨hb, pool⟩ o = false then
      some .insufficientLiquidity
    else none

/-- Without a book nothing else is looked at. -/
theorem Engine.refusal_of_none {e : Engine} {pool : Pool} {o : OrderData}
    (hi : e.matchers.lookup o.instrument = none) : e.refusal pool o = some .unknownInstrument := by
  simp only [Engine.refusal, hi]

/-- With a book the checks come in the order of `rejects`. -/
theorem Engine.refusal_of_some {e : Engine} {pool : Pool} {o : OrderData} {hb : OrderBook}
    (hi : e.matchers.lookup o.instrument = some hb) :
    e.refusal pool o = if o.initialQty = 0 then some .invalidQuantity
      else if o.type = .limit ∧ o.limitPrice ≤ 0 then some .invalidPrice
      else if o.type = .market ∧ (o.tif = .gtc ∨ o.tif = .day) then some .invalidTif
      else if o.tif = .fok ∧ Matcher.canFullyFill ⟨hb, pool⟩ o = false then
        some .insufficientLiquidity
      else none := by
  simp only [Engine.refusal, hi]

/-! ## The two chains of checks

`Matcher::submit` looks at the order in its slot, `classify_rejection` at the bytes of the message;
the two agree where the enumerations do. -/

/-- Which bytes name which values. -/
theorem OrderType.ofByte_eq_limit {b : UInt8} : OrderType.ofByte b = .limit ↔ b = 0 := by
  unfold OrderType.ofByte
  split_ifs <;> simp_all

theorem OrderType.ofByte_eq_market {b : UInt8} : OrderType.ofByte b = .market ↔ b = 1 := by
  unfold OrderType.ofByte
  split_ifs <;> simp_all

theorem TimeInForce.ofByte_eq_gtc {b : UInt8} : TimeInForce.ofByte b = .gtc ↔ b = 0 := by
  unfold TimeInForce.ofByte
  split_ifs <;> simp_all

theorem TimeInForce.ofByte_eq_day {b : UInt8} : TimeInForce.ofByte b = .day ↔ b = 3 := by
  unfold TimeInForce.ofByte
  split_ifs <;> simp_all

theorem TimeInForce.ofByte_eq_fok {b : UInt8} : TimeInForce.ofByte b = .fok ↔ b = 2 := by
  unfold TimeInForce.ofByte
  split_ifs <;> simp_all

/-- The engine has a reason when it refuses. -/
theorem Engine.refusal_ne_unknown (e : Engine) (pool : Pool) (o : OrderData) :
    e.refusal pool o ≠ some .unknown := by
  unfold Engine.refusal
  split
  · nofun
  · split_ifs <;> nofun

/-- **The matcher's checks**, written out. -/
theorem Matcher.rejects_iff {m : Matcher} {o : OrderData} (h : o.instrument = m.book.instrument) :
    m.rejects o = true ↔ o.initialQty = 0 ∨ (o.type = .limit ∧ o.limitPrice ≤ 0)
      ∨ (o.type = .market ∧ (o.tif = .gtc ∨ o.tif = .day))
      ∨ (o.tif = .fok ∧ m.canFullyFill o = false) := by
  simp [Matcher.rejects, h, or_assoc]

/-- The price of an order is positive if that of its message is. -/
theorem limitPrice_order_nonpos {m : NewOrderMsg} {client : ClientId} :
    (m.order client).limitPrice ≤ 0 ↔ m.price ≤ 0 := by
  rw [Int64.le_iff_toInt_le]
  rfl

/-- An order that has a book is refused by the matcher or passes every check. -/
theorem Engine.refusal_eq_none {e : Engine} {pool : Pool} {o : OrderData} {hb : OrderBook}
    (hi : e.matchers.lookup o.instrument = some hb) (h : o.instrument = hb.instrument) :
    e.refusal pool o = none ↔ Matcher.rejects ⟨hb, pool⟩ o = false := by
  rw [← Bool.not_eq_true, Matcher.rejects_iff h]
  rw [Engine.refusal_of_some hi]
  split_ifs <;> simp_all

/-- **`classify` names the check**, if the engine it looks at has the same books. -/
theorem classify_eq_refusal {e e' : Engine} {pool : Pool} {m : NewOrderMsg} {client : ClientId}
    (hbook : (e'.book m.instrumentId).isNone = (e.matchers.lookup m.instrumentId).isNone)
    (hrej : e.refusal pool (m.order client) ≠ none) :
    e.refusal pool (m.order client) = some (classify .rejected m e') := by
  have htype : (m.order client).type = .ofByte m.orderType := rfl
  have htif : (m.order client).tif = .ofByte m.tif := rfl
  have hqty : (m.order client).initialQty = m.quantity := rfl
  unfold classify
  rw [if_neg (not_not.mpr rfl), hbook]
  cases hi : e.matchers.lookup m.instrumentId with
  | none =>
    rw [Engine.refusal_of_none hi]
    rfl
  | some hb =>
    rw [Engine.refusal_of_some hi] at hrej ⊢
    simp only [htype, htif, hqty, limitPrice_order_nonpos, OrderType.ofByte_eq_limit,
      OrderType.ofByte_eq_market, TimeInForce.ofByte_eq_gtc, TimeInForce.ofByte_eq_day,
      TimeInForce.ofByte_eq_fok] at hrej ⊢
    rw [Option.isNone_some, if_neg Bool.false_ne_true]
    -- the two chains branch alike; only the dry run is not repeated
    split_ifs at hrej ⊢ with _ _ _ hdry hfok <;> first | rfl | exact absurd rfl hrej | skip
    exact absurd hdry.1 hfok

namespace Dispatcher

variable {d : Dispatcher} {q : InstrumentId → QueueBook} {lost : List Slot} {s : Session}
  {m : NewOrderMsg} {a : Slot} {pool : Pool}

/-- **Refusals have their reasons**: the engine ends an order rejected exactly if it fails a check,
and then the client is told which. -/
def Reasons (d : Dispatcher) : Prop :=
  ∀ (s : Session) (m : NewOrderMsg) (a : Slot) (pool : Pool), s.state = .active →
    d.pool.acquire = some (a, pool) →
    let o := m.order s.clientId
    let r := d.engine.submit (pool.write a o) a
    ((r.2.1.storage a).status ≠ .rejected ∧ d.engine.refusal (pool.write a o) o = none)
      ∨ ∃ reason, (r.2.1.storage a).status = .rejected ∧ reason ≠ .unknown
        ∧ d.engine.refusal (pool.write a o) o = some reason ∧ classify .rejected m r.1 = reason
        ∧ (d.handleNewOrder s m).2 = s.emit (.orderReject ⟨m.clientOrderId, reason⟩)

/-- The engine refuses what fails a check. -/
theorem Inv.status_rejected (h : d.Inv q lost) (hacq : d.pool.acquire = some (a, pool))
    (c : ClientId) :
    ((d.engine.submit (pool.write a (m.order c)) a).2.1.storage a).status = .rejected
      ↔ d.engine.refusal (pool.write a (m.order c)) (m.order c) ≠ none := by
  have hw := h.written hacq (m.order c)
  obtain ⟨-, hdata⟩ := hw.submit (List.mem_cons_self ..) (pool.data_write_self a _)
    (sound_order m c)
  have hstatus : ((d.engine.submit (pool.write a (m.order c)) a).2.1.storage a).status
      = (submitOutcome d.engine q a (m.order c)).order.status := congrArg (·.status) hdata
  rw [hstatus]
  rcases submitOutcome_cases d.engine q a (m.order c) with ⟨hi, hout⟩ | ⟨hb, hi, hout⟩
  · rw [hout, Engine.refusal_of_none hi]
    exact iff_of_true rfl nofun
  · have hrep := hw.custody.rep _ hb hi
    have hinst : (m.order c).instrument = hb.instrument :=
      (hrep.instrument.trans (h.instrument _)).symm
    have hrej : Matcher.rejects ⟨hb, pool.write a (m.order c)⟩ (m.order c) = _ :=
      rejects_eq (m := ⟨hb, _⟩) hrep (hw.custody.wf _) (hw.custody.length_slots_le _) _
    rw [hout, QueueBook.status_rejected_iff, ne_eq, Engine.refusal_eq_none hi hinst, hrej,
      Bool.not_eq_false]

/-- No book comes or goes, so the gateway sees the books the engine saw. -/
theorem Inv.isNone_book (h : d.Inv q lost) (hacq : d.pool.acquire = some (a, pool)) (c : ClientId) :
    ((d.engine.submit (pool.write a (m.order c)) a).1.book m.instrumentId).isNone
      = (d.engine.matchers.lookup m.instrumentId).isNone := by
  obtain ⟨hinv, -⟩ := (h.written hacq (m.order c)).submit (List.mem_cons_self ..)
    (pool.data_write_self a _) (sound_order m c)
  have htouch := d.engine.touches_submit (pool.write a (m.order c)) a
  rw [Engine.book_eq (hinv.ptrs _), Engine.books, ← Option.not_isSome, htouch.isSome,
    Option.not_isSome]

/-- **The reason told is the check that failed**, at any gateway in order. -/
theorem Inv.reasons (h : d.Inv q lost) : d.Reasons := by
  intro s m a pool hs hacq o r
  by_cases href : d.engine.refusal (pool.write a o) o = none
  · exact .inl ⟨mt (h.status_rejected hacq s.clientId).mp (not_not.mpr href), href⟩
  have hst := (h.status_rejected hacq s.clientId).mpr href
  have hclass := classify_eq_refusal (h.isNone_book hacq s.clientId) href
  have hne := hclass ▸ d.engine.refusal_ne_unknown (pool.write a o) o
  obtain ⟨-, -, hout⟩ := (h.written hacq o).custody.engineSubmit (e := d.engine) rfl
    (List.mem_cons_self ..) (pool.data_write_self a _) (sound_order m s.clientId)
  have hres : r.2.2.order = a := congrArg MatchResult.order hout
  refine .inr ⟨_, hst, fun he => hne (congrArg some he), hclass, rfl, ?_⟩
  have hst' : (r.2.1.storage r.2.2.order).status = .rejected := hres ▸ hst
  simp only [handleNewOrder, hs, hacq, ne_eq, not_true_eq_false, if_false]
  exact if_pos hst'

end Dispatcher

/-- **The reported reason is the real one**, in every state the gateway can be in. -/
theorem Exchange.reasons_of_reach {r : InstrumentRegistry} {filter : InstrumentId → Bool}
    {e : Engine} {capacity : ℕ} {x : Exchange} (hnew : Engine.new r filter = .ok e)
    (h : Guarded.Reach Exchange.step (fun _ _ => True) (start e capacity) x) :
    x.dispatcher.Reasons := by
  obtain ⟨q, lost, hinv, -⟩ := exists_inv (J := fun _ _ _ => True) hnew trivial
    (fun _ _ _ _ _ _ _ _ _ _ _ _ => trivial) h
  exact Dispatcher.Inv.reasons hinv

/-- After an expiry: the orders of the instrument are told that it is unknown. -/
theorem Exchange.reasons_of_expiry :
    ∃ x, Guarded.Reach Exchange.step (fun _ _ => True)
        (start ([⟨1⟩].foldl (Engine.addBook fun _ => true) {}) 2) x
      ∧ (x.sessions 0).sent
          = [.logon ⟨42⟩, .orderReject ⟨5, .insufficientLiquidity⟩,
            .orderReject ⟨6, .unknownInstrument⟩]
      ∧ x.dispatcher.Reasons := by
  have hrun : (Guarded.run Exchange.step (fun _ _ => True)
      (start ([⟨1⟩].foldl (Engine.addBook fun _ => true) {}) 2)
      [.bytes 0 (encode 1 (.logon ⟨42⟩)), .turn 0,
        .bytes 0 (encode 2 (.newOrder ⟨5, 1, 0, 0, 2, 100, 4⟩)), .turn 0, .expire 1,
        .bytes 0 (encode 3 (.newOrder ⟨6, 1, 7, 1, 0, -3, 0⟩)), .turn 0]).map
      (fun x => (x.sessions 0).sent)
        = some [.logon ⟨42⟩, .orderReject ⟨5, .insufficientLiquidity⟩,
          .orderReject ⟨6, .unknownInstrument⟩] := by decide +kernel
  obtain ⟨x, hx, hsent⟩ := Option.map_eq_some_iff.mp hrun
  have hreach := Guarded.Reach.of_run hx
  exact ⟨x, hreach, hsent, reasons_of_reach (r := ⟨[⟨1⟩], true⟩) rfl hreach⟩

end Ordbk
