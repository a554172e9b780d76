import Ordbk.Refinement.Gateway
import Ordbk.Refinement.Admission
import Ordbk.Refinement.Link
import Ordbk.Refinement.Phases
import Ordbk.Abstract.Conserve
import Ordbk.Lib.Trace

/-!
# Theorems/Replies — what a client is told

Every message is answered by a block of replies of its own, and the blocks leave in the order the
messages came in (`replies_of_reach`).  What a block says is what has happened: `Reply` is the list
of all answers there are, each with what it stands for.
-/

namespace Ordbk

namespace Dispatcher

/-- **An order that is let in**: the engine leaves it as `o` with the executions `ts`, which are its
fills on entry. -/
structure Executes (d : Dispatcher) (s : Session) (m : NewOrderMsg) (o : OrderData)
    (ts : List Trade) : Prop where
  /-- The engine was asked, with a slot from the pool, and this is what it made of the order. -/
  submit : ∃ a pool, d.pool.acquire = some (a, pool)
    ∧ (d.engine.submit (pool.write a (m.order s.clientId)) a).2.1.storage.data a = o
    ∧ (d.engine.submit (pool.write a (m.order s.clientId)) a).2.2.trades = ts
  /-- It did not refuse it. -/
  status : o.status ≠ .rejected
  /-- No trade is of nothing. -/
  pos : ∀ t ∈ ts, 0 < t.quantity
  /-- The trades add up to what the order was filled by. -/
  filled : tradedQty ts = o.filledQty.toNat
  /-- Which is no more than it asked for. -/
  le : tradedQty ts ≤ m.quantity.toNat
  /-- All of it if the order ends filled, and only then. -/
  full : tradedQty ts = m.quantity.toNat ↔ o.status = .filled
  /-- A fill-or-kill order is filled to the end. -/
  fok : TimeInForce.ofByte m.tif = .fok → tradedQty ts = m.quantity.toNat

/-- **An order leaves the named book**, and no other does. -/
def Removes (d : Dispatcher) (m : CancelOrderMsg) (d' : Dispatcher) : Prop :=
  ∃ hb hb' c, d.engine.matchers.lookup m.instrumentId = some hb
    ∧ d'.engine.matchers.lookup m.instrumentId = some hb'
    ∧ c ∈ hb.restingSlots d.pool ∧ (d.pool.storage.data c).id = m.clientOrderId
    ∧ hb'.restingSlots d'.pool = (hb.restingSlots d.pool).filter (· ≠ c)

/-- The books hold the orders they held. -/
def SameBooks (d d' : Dispatcher) : Prop :=
  ∀ i, (d'.engine.matchers.lookup i).map (·.restingSlots d'.pool)
    = (d.engine.matchers.lookup i).map (·.restingSlots d.pool)

/-- **All the answers there are** to a message on session `s`, which takes the engine and the pool
from `d` to `d'`.  Where the engine is asked, `d'` is what the handler leaves: the answer to the
next message is about that state. -/
inductive Reply (d : Dispatcher) (s : Session) :
    MessageBody → List MessageBody → Dispatcher → Prop
  | logon (m : LogonMsg) : s.state = .notLoggedOn → Reply d s (.logon m) [.logon ⟨m.clientId⟩] d
  | logonAgain (m : LogonMsg) : s.state ≠ .notLoggedOn → Reply d s (.logon m) [] d
  | logout : Reply d s .logout [.logout] d
  | heartbeat : Reply d s .heartbeat [.heartbeat] d
  | refused {m : NewOrderMsg} {r : RejectReason} : d.SameBooks (d.handleNewOrder s m).1 →
      Reply d s (.newOrder m) [.orderReject ⟨m.clientOrderId, r⟩] (d.handleNewOrder s m).1
  | accepted {m : NewOrderMsg} {o : OrderData} {ts : List Trade} :
      d.Executes s m o ts → Reply d s (.newOrder m)
        (.orderAck ⟨m.clientOrderId, m.clientOrderId⟩ :: ts.map fun t =>
          .fill (fillMsg m o.status t))
        (d.handleNewOrder s m).1
  | cancelled {m : CancelOrderMsg} : d.Removes m (d.handleCancel s m).1 →
      Reply d s (.cancelOrder m) [.cancelled ⟨m.clientOrderId⟩] (d.handleCancel s m).1
  | unknown {m : CancelOrderMsg} {r : RejectReason} :
      Reply d s (.cancelOrder m) [.orderReject ⟨m.clientOrderId, r⟩] d
  | orderAck (m : OrderAckMsg) : Reply d s (.orderAck m) [] d
  | orderReject (m : OrderRejectMsg) : Reply d s (.orderReject m) [] d
  | fill (m : FillMsg) : Reply d s (.fill m) [] d
  | cancelledMsg (m : CancelledMsg) : Reply d s (.cancelled m) [] d

/-- **A message is handled and answered**: `r'` is what the visitor of `pump` makes of `r`, and the
session in it is where the message and the answer take it. -/
structure Answered (r : Dispatcher × Session) (p : MessageBody × List MessageBody)
    (r' : Dispatcher × Session) : Prop where
  /-- **The state afterwards is the one `dispatch` computes.** -/
  eq_dispatch : r' = r.1.dispatch r.2 p.1
  /-- The block says what has happened there. -/
  reply : Reply r.1 r.2 p.1 p.2 r'.1
  /-- And it is what was sent. -/
  session : r'.2 = (r.2.enter p.1).emitAll p.2

variable {d : Dispatcher} {s : Session} {q : InstrumentId → QueueBook} {lost : List Slot}

/-- What the queue book says of an order that is let in. -/
theorem Inv.executes (h : d.Inv q lost) {m : NewOrderMsg} {a : Slot} {free : List Slot}
    (hfree : d.pool.freeSlots = a :: free) (hacc : (d.outcome q s m a).order.status ≠ .rejected) :
    d.Executes s m (d.outcome q s m a).order (d.outcome q s m a).trades := by
  obtain ⟨pool, hacq, hsubmit⟩ := h.submitted s m hfree
  rcases submitOutcome_cases d.engine q a (m.order s.clientId) with ⟨-, hout⟩ | ⟨hb, -, hout⟩
  · exact absurd (congrArg (·.order.status) hout) hacc
  have hw := h.custody.wf m.instrumentId
  have hsound := sound_order m s.clientId
  change d.outcome q s m a = (q m.instrumentId).submit a (m.order s.clientId) at hout
  rw [hout] at hsubmit hacc ⊢
  obtain ⟨hident, hle, hfill⟩ := QueueBook.filled_submit (a := a) hw hsound
  obtain ⟨hfull, hfok⟩ := QueueBook.status_submit (a := a) (o := m.order s.clientId) hw rfl hacc
  have hfill : _ = tradedQty _ := hfill.trans (Nat.zero_add _)
  refine ⟨⟨a, pool, hacq, hsubmit⟩, hacc, fun t ht => ?_, hfill.symm, ?_, hfull, fun ht => ?_⟩
  · exact (QueueBook.exists_maker hw hsound ht).choose_spec.2.1
  · rw [← hfill]
    exact hle.toNat_le.trans (congrArg (·.initialQty.toNat) hident).le
  · exact hfull.mpr (hfok ht)

/-- A cancel that finds its order takes it out of the named book. -/
theorem Inv.removes (h : d.Inv q lost) (hs : s.state = .active) {m : CancelOrderMsg}
    {loc : Locator} (hl : (q m.instrumentId).index.lookup m.clientOrderId = some loc) :
    d.Removes m (d.handleCancel s m).1 := by
  have hw := h.custody.wf m.instrumentId
  obtain ⟨e, he, hslot, hid, -⟩ := hw.located _ loc hl
  have hmem : loc.order ∈ (q m.instrumentId).slots := QueueBook.mem_slots.mpr ⟨_, e, he, hslot⟩
  obtain ⟨hinv, -, -⟩ := handleCancel_spec h hs m
  cases hi : d.engine.matchers.lookup m.instrumentId with
  | none =>
    rw [h.custody.absent _ hi] at hmem
    simp at hmem
  | some hb =>
    have hrun : (d.handleCancel s m).1 = ⟨(d.engine.cancel d.pool m.instrumentId m.clientOrderId).1,
        (d.engine.cancel d.pool m.instrumentId m.clientOrderId).2.1⟩ := by
      simp only [handleCancel, hs, ne_eq, not_true_eq_false, if_false]
    have hsome : ((d.handleCancel s m).1.engine.matchers.lookup m.instrumentId).isSome := by
      rw [hrun, (d.engine.touches_cancel d.pool m.instrumentId m.clientOrderId).isSome, hi]
      rfl
    obtain ⟨hb', hi'⟩ := Option.isSome_iff_exists.mp hsome
    have hslots := hinv.restingSlots_eq hi'
    rw [Function.update_self, QueueBook.cancel, hl, QueueBook.slots_remove hw hl,
      ← h.restingSlots_eq hi] at hslots
    refine ⟨hb, hb', loc.order, hi, hi', ?_, ?_, hslots⟩
    · rwa [h.restingSlots_eq hi]
    · rw [← hslot, (h.custody.rep _ hb hi).data_side he, hid]

/-- An order the book does not take leaves the books as they are. -/
theorem Inv.sameBooks (h : d.Inv q lost) {d' : Dispatcher} {i : InstrumentId} {lost' : List Slot}
    (h' : d'.Inv q lost') (ht : Engine.Touches i d.engine d'.engine) : d.SameBooks d' := by
  intro j
  have hsome := ht.isSome j
  cases hj : d.engine.matchers.lookup j with
  | none =>
    rw [hj, Option.isSome_none, Option.isSome_eq_false_iff, Option.isNone_iff_eq_none] at hsome
    rw [hsome]
    rfl
  | some hb =>
    rw [hj, Option.isSome_some] at hsome
    obtain ⟨hb', hj'⟩ := Option.isSome_iff_exists.mp hsome
    rw [hj', Option.map_some, Option.map_some, h.restingSlots_eq hj, h'.restingSlots_eq hj']

/-- What is refused leaves its queue book alone. -/
theorem book_of_rejected {m : NewOrderMsg} {a : Slot}
    (hrej : (d.outcome q s m a).order.status = .rejected) :
    (d.outcome q s m a).book = q m.instrumentId := by
  rcases submitOutcome_cases d.engine q a (m.order s.clientId) with ⟨-, hout⟩ | ⟨hb, -, hout⟩
  · exact congrArg (·.book) hout
  · change d.outcome q s m a = (q m.instrumentId).submit a (m.order s.clientId) at hout
    rw [hout, QueueBook.status_rejected_iff] at hrej
    rw [hout, QueueBook.submit, if_pos hrej]

/-- An order is answered. -/
theorem Inv.answered_order (h : d.Inv q lost) (s : Session) (m : NewOrderMsg) :
    ∃ block q' lost', (d.handleNewOrder s m).1.Inv q' lost'
      ∧ Answered (d, s) (.newOrder m, block) (d.handleNewOrder s m) := by
  by_cases hgo : s.state = .active ∧ d.pool.freeSlots ≠ []
  · obtain ⟨hs, hfree⟩ := hgo
    obtain ⟨a, free, hfree⟩ := List.exists_cons_of_ne_nil hfree
    obtain ⟨hinv, hrep, -⟩ := handleNewOrder_spec (m := m) h hs hfree
    rw [report_eq] at hrep
    split_ifs at hrep with hst
    · have hsame := book_of_rejected hst
      have htouch := d.touches_handleNewOrder s m
      refine ⟨_, _, _, hinv, rfl, .refused ?_, hrep⟩
      rw [hsame, Function.update_eq_self] at hinv
      exact h.sameBooks hinv htouch
    · exact ⟨_, _, _, hinv, rfl, .accepted (h.executes hfree hst), hrep⟩
  · -- nothing but the session has changed
    obtain ⟨r, hr⟩ := handleNewOrder_refused (m := m) hgo
    have hsame : (d.handleNewOrder s m).1 = d := congrArg Prod.fst hr
    refine ⟨_, q, lost, ?_, rfl, .refused (r := r) fun i => ?_, congrArg Prod.snd hr⟩
    · rwa [hsame]
    · rw [hsame]

/-- A cancel is answered. -/
theorem Inv.answered_cancel (h : d.Inv q lost) (s : Session) (m : CancelOrderMsg) :
    ∃ block q' lost', (d.handleCancel s m).1.Inv q' lost'
      ∧ Answered (d, s) (.cancelOrder m, block) (d.handleCancel s m) := by
  by_cases hs : s.state = .active
  · obtain ⟨hinv, hrep, -⟩ := handleCancel_spec h hs m
    refine ⟨[_], _, _, hinv, rfl, ?_, hrep⟩
    unfold QueueBook.cancel
    cases hl : (q m.instrumentId).index.lookup m.clientOrderId with
    | none =>
      have hsame : (d.handleCancel s m).1 = d := by
        simp only [handleCancel, hs, ne_eq, not_true_eq_false, if_false, h.cancel_eq_self hl]
      rw [hsame]
      exact .unknown
    | some loc => exact .cancelled (h.removes hs hl)
  · have hr := handleCancel_refused (d := d) hs m
    have hsame : (d.handleCancel s m).1 = d := congrArg Prod.fst hr
    refine ⟨[_], q, lost, ?_, rfl, ?_, congrArg Prod.snd hr⟩
    · rwa [hsame]
    · rw [hsame]
      exact .unknown

/-- **Every message is answered.** -/
theorem Inv.answered (h : d.Inv q lost) (s : Session) (b : MessageBody) :
    ∃ block q' lost', (d.dispatch s b).1.Inv q' lost'
      ∧ Answered (d, s) (b, block) (d.dispatch s b) := by
  cases b with
  | logon m =>
    by_cases hs : s.state = .notLoggedOn
    · refine ⟨[_], _, _, h, rfl, .logon m hs, ?_⟩
      simp only [dispatch, handleLogon, Session.enter, hs, ne_eq, not_true_eq_false,
        if_false, if_true]
      rfl
    · refine ⟨[], _, _, h, rfl, .logonAgain m hs, ?_⟩
      simp only [dispatch, handleLogon, Session.enter, hs, ne_eq, not_false_eq_true,
        if_false, if_true]
      rfl
  | logout => exact ⟨_, _, _, h, rfl, .logout, rfl⟩
  | heartbeat => exact ⟨_, _, _, h, rfl, .heartbeat, rfl⟩
  | newOrder m => exact h.answered_order s m
  | cancelOrder m => exact h.answered_cancel s m
  | orderAck m => exact ⟨_, _, _, h, rfl, .orderAck m, rfl⟩
  | orderReject m => exact ⟨_, _, _, h, rfl, .orderReject m, rfl⟩
  | fill m => exact ⟨_, _, _, h, rfl, .fill m, rfl⟩
  | cancelled m => exact ⟨_, _, _, h, rfl, .cancelledMsg m, rfl⟩

/-- **One block for each message, in order.** -/
theorem Inv.exists_answers (h : d.Inv q lost) (s : Session) (bodies : List MessageBody) :
    ∃ L : List (MessageBody × List MessageBody), L.map Prod.fst = bodies
      ∧ Guarded.Path Answered (d, s) L (handle (d, s) bodies) := by
  induction bodies generalizing d s q lost with
  | nil => exact ⟨[], rfl, .nil _⟩
  | cons b bodies ih =>
    obtain ⟨block, q', lost', h', hb⟩ := h.answered s b
    obtain ⟨L, hL, hpath⟩ := ih h' (d.dispatch s b).2
    exact ⟨(b, block) :: L, by rw [List.map_cons, hL], .cons hb hpath⟩

/-- What a session sends is its blocks, one after another. -/
theorem sent_of_path {r r' : Dispatcher × Session} {L : List (MessageBody × List MessageBody)}
    (h : Guarded.Path Answered r L r') : r'.2.sent = r.2.sent ++ (L.map Prod.snd).flatten := by
  induction h with
  | nil => exact (List.append_nil _).symm
  | @cons r r₁ r₂ p L hp _ ih =>
    have henter : (r.2.enter p.1).sent = r.2.sent := by
      cases p.1 with
      | logon m =>
        simp only [Session.enter]
        split_ifs <;> rfl
      | _ => rfl
    rw [ih, hp.session, Session.sent_emitAll, henter, List.append_assoc, List.map_cons,
      List.flatten_cons]

end Dispatcher

namespace Exchange

open Dispatcher in
/-- **A `pump` on session `k`** answers the messages buffered one by one and in order, each in the
state the one before it has left, and sends nothing else. -/
def Replies (x : Exchange) (k : ℕ) : Prop :=
  ∃ (L : List (MessageBody × List MessageBody)) (s' : Session),
    L.map Prod.fst = (x.sessions k).framer.drain.2.map (·.body)
    ∧ Guarded.Path Answered (x.dispatcher, x.sessions k) L
        ((x.dispatcher.pump (x.sessions k)).1, s')
    ∧ (x.dispatcher.pump (x.sessions k)).2 = { s' with framer := (x.sessions k).framer.drain.1 }
    ∧ (x.dispatcher.pump (x.sessions k)).2.sent = (x.sessions k).sent ++ (L.map Prod.snd).flatten

/-- **The reply protocol.**  In every state the gateway can be in, a `pump` on any session answers
the messages that are buffered and leaves none behind; and it ends in such a state again, so that
this is what happens from one `pump` to the next. -/
theorem replies_of_reach {r : InstrumentRegistry} {filter : InstrumentId → Bool} {e : Engine}
    {capacity : ℕ} {x : Exchange} (hnew : Engine.new r filter = .ok e)
    (h : Guarded.Reach Exchange.step (fun _ _ => True) (start e capacity) x) (k : ℕ) :
    x.Replies k ∧ (x.dispatcher.pump (x.sessions k)).2.nextInbound.2 = none
      ∧ Guarded.Reach Exchange.step (fun _ _ => True) (start e capacity)
          (x.withSession k (x.dispatcher.pump (x.sessions k))) := by
  refine ⟨?_, nextInbound_pump x.dispatcher (x.sessions k), h.trans (x.reach_pump k)⟩
  obtain ⟨q, lost, hinv, -⟩ := exists_inv (J := fun _ _ _ => True) hnew trivial
    (fun _ _ _ _ _ _ _ _ _ _ _ _ => trivial) h
  obtain ⟨L, hL, hpath⟩ := Dispatcher.Inv.exists_answers hinv (x.sessions k)
    ((x.sessions k).framer.drain.2.map (·.body))
  have hsent := Dispatcher.sent_of_path hpath
  unfold Replies
  rw [Dispatcher.pump_eq]
  exact ⟨L, _, hL, hpath, rfl, hsent⟩

/-- A whole conversation in one buffer: what is told is what happened. -/
theorem replies_of_conversation :
    ∃ x, Guarded.Reach Exchange.step (fun _ _ => True)
        (start ([⟨1⟩].foldl (Engine.addBook fun _ => true) {}) 3) x
      ∧ (x.dispatcher.pump (x.sessions 0)).2.sent
          = [.orderReject ⟨9, .notLoggedOn⟩, .logon ⟨42⟩, .orderAck ⟨5, 5⟩, .orderAck ⟨6, 6⟩,
            .fill ⟨6, 6, 100, 4, 2⟩, .cancelled ⟨5⟩, .logout]
      ∧ x.Replies 0 ∧ (x.dispatcher.pump (x.sessions 0)).2.nextInbound.2 = none
      ∧ Guarded.Reach Exchange.step (fun _ _ => True)
          (start ([⟨1⟩].foldl (Engine.addBook fun _ => true) {}) 3)
          (x.withSession 0 (x.dispatcher.pump (x.sessions 0))) := by
  have hrun : (Guarded.run Exchange.step (fun _ _ => True)
      (start ([⟨1⟩].foldl (Engine.addBook fun _ => true) {}) 3)
      [.bytes 0 (encode 1 (.cancelOrder ⟨9, 1⟩) ++ encode 2 (.logon ⟨42⟩)),
        .bytes 0 (encode 3 (.newOrder ⟨5, 1, 1, 0, 0, 100, 10⟩)),
        .bytes 0 (encode 4 (.newOrder ⟨6, 1, 0, 0, 1, 100, 4⟩)),
        .bytes 0 (encode 5 (.cancelOrder ⟨5, 1⟩) ++ encode 6 .logout)]).map
      (fun x => (x.dispatcher.pump (x.sessions 0)).2.sent)
        = some [.orderReject ⟨9, .notLoggedOn⟩, .logon ⟨42⟩, .orderAck ⟨5, 5⟩, .orderAck ⟨6, 6⟩,
          .fill ⟨6, 6, 100, 4, 2⟩, .cancelled ⟨5⟩, .logout] := by decide +kernel
  obtain ⟨x, hx, hsent⟩ := Option.map_eq_some_iff.mp hrun
  have hreach := Guarded.Reach.of_run hx
  exact ⟨x, hreach, hsent, replies_of_reach (r := ⟨[⟨1⟩], true⟩) rfl hreach 0⟩

end Exchange

end Ordbk
