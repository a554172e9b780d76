import Ordbk.Refinement.Engine
import Ordbk.Refinement.Phases
import Ordbk.Lib.Reach

/-!
# Refinement/Gateway — messages as operations on queue books

`handleNewOrder_spec` is the one lemma about an order entering through the gateway: either it does
not reach the engine and nothing but the session changes, or its instrument's queue book takes it
and the client is told the outcome.  A slot whose order neither rests nor has ended stays in
nobody's hands; the list `lost` keeps them.
-/

namespace Ordbk

namespace Dispatcher

variable {d : Dispatcher} {s : Session} {m : NewOrderMsg} {q : InstrumentId → QueueBook}
  {lost : List Slot}

/-- **Every book behind the gateway is a queue book**, the slots in `lost` belonging to none. -/
abbrev Inv (d : Dispatcher) (q : InstrumentId → QueueBook) (lost : List Slot) : Prop :=
  EngineInv d.engine d.pool q lost

/-- The order of a message, once the engine has had it in slot `a`. -/
abbrev outcome (d : Dispatcher) (q : InstrumentId → QueueBook) (s : Session) (m : NewOrderMsg)
    (a : Slot) : QueueBook.Outcome := submitOutcome d.engine q a (m.order s.clientId)

/-- An order off the wire is filled no further than it wants. -/
theorem sound_order (m : NewOrderMsg) (client : ClientId) : (m.order client).Sound :=
  OrderData.sound_of_fresh rfl

/-- An order does not reach the engine: the client is told, and that is all. -/
theorem handleNewOrder_refused (h : ¬ (s.state = .active ∧ d.pool.freeSlots ≠ [])) :
    ∃ r, d.handleNewOrder s m = (d, s.emit (.orderReject ⟨m.clientOrderId, r⟩)) := by
  unfold handleNewOrder
  split_ifs with hs
  · exact ⟨_, rfl⟩
  · have hfree : d.pool.freeSlots = [] := by
      by_contra hne
      exact h ⟨not_not.mp hs, hne⟩
    simp only [Pool.acquire, hfree]
    exact ⟨_, rfl⟩

/-- A slot acquired and written to is in hand. -/
theorem Inv.written (h : d.Inv q lost) {a : Slot} {pool : Pool}
    (hacq : d.pool.acquire = some (a, pool)) (o : OrderData) :
    EngineInv d.engine (pool.write a o) q (a :: lost) :=
  h.repool ((h.custody.acquire hacq).write (List.mem_cons_self ..) _)

/-- A slot is taken and the order written into it. -/
theorem Inv.take (h : d.Inv q lost) {a : Slot} {free : List Slot}
    (hfree : d.pool.freeSlots = a :: free) (o : OrderData) :
    ∃ pool, d.pool.acquire = some (a, pool) ∧ pool.freeSlots = free
      ∧ pool.capacity = d.pool.capacity
      ∧ EngineInv d.engine (pool.write a o) q (a :: lost) := by
  obtain ⟨pool, hacq⟩ := Pool.exists_acquire hfree
  obtain ⟨hfree', hcap, -⟩ := Pool.acquire_eq_some hacq
  rw [hfree, List.cons.injEq] at hfree'
  exact ⟨pool, hacq, hfree'.2.symm, hcap, h.written hacq o⟩

/-- **An order enters**: its instrument's book takes it, the client is told the outcome, and its
slot is at rest, free again, or lost. -/
theorem handleNewOrder_spec (h : d.Inv q lost) (hs : s.state = .active) {a : Slot}
    {free : List Slot} (hfree : d.pool.freeSlots = a :: free) :
    (d.handleNewOrder s m).1.Inv
        (Function.update q m.instrumentId (d.outcome q s m a).book)
        (if (d.outcome q s m a).order.leaks then a :: lost else lost)
      ∧ (d.handleNewOrder s m).2 = report s m (d.handleNewOrder s m).1.engine
          (d.outcome q s m a).order.status (d.outcome q s m a).trades
      ∧ Retains d.pool q lost (d.handleNewOrder s m).1.pool
          (Function.update q m.instrumentId (d.outcome q s m a).book)
          (if (d.outcome q s m a).order.leaks then a :: lost else lost) := by
  obtain ⟨pool, hacq, hpool, hcap, hwritten⟩ := h.take hfree (m.order s.clientId)
  have ha : a ∈ a :: lost := List.mem_cons_self ..
  have hdata : (pool.write a (m.order s.clientId)).storage.data a = m.order s.clientId :=
    pool.data_write_self a _
  have hsound := sound_order m s.clientId
  obtain ⟨-, hout, hres, -, hown⟩ := hwritten.custody.settle rfl ha hdata hsound
  have hinv := hwritten.settle ha hdata hsound
  have hstatus : ((d.engine.submit (pool.write a (m.order s.clientId)) a).2.1.storage a).status
      = (d.outcome q s m a).order.status := by
    rw [← Engine.storage_settle]
    exact congrArg (·.status) hout
  have hres : (d.engine.submit (pool.write a (m.order s.clientId)) a).2.2
      = ⟨a, (d.outcome q s m a).trades⟩ := hres
  rw [List.erase_cons_head] at hinv hown
  -- the handler settles, and reports
  have hrun : d.handleNewOrder s m
      = (⟨(d.engine.settle (pool.write a (m.order s.clientId)) a).1,
          (d.engine.settle (pool.write a (m.order s.clientId)) a).2.1⟩,
        report s m (d.engine.settle (pool.write a (m.order s.clientId)) a).1
          (d.outcome q s m a).order.status (d.outcome q s m a).trades) := by
    unfold handleNewOrder Engine.settle
    rw [if_neg (not_not.mpr hs), hacq]
    simp only [hres, hstatus]
  rw [hrun]
  refine ⟨hinv, rfl, hown.repool hcap fun x hx => ?_⟩
  rw [Pool.freeSlots_write, hpool]
  rw [hfree] at hx
  exact List.perm_middle.mem_iff.mpr hx

/-- **What the engine does with an order** is its queue book's outcome. -/
theorem Inv.submitted (h : d.Inv q lost) (s : Session) (m : NewOrderMsg) {a : Slot}
    {free : List Slot} (hfree : d.pool.freeSlots = a :: free) :
    ∃ pool, d.pool.acquire = some (a, pool)
      ∧ (d.engine.submit (pool.write a (m.order s.clientId)) a).2.1.storage.data a
          = (d.outcome q s m a).order
      ∧ (d.engine.submit (pool.write a (m.order s.clientId)) a).2.2.trades
          = (d.outcome q s m a).trades := by
  obtain ⟨pool, hacq, -, -, hwritten⟩ := h.take hfree (m.order s.clientId)
  obtain ⟨-, hdata, hres⟩ := hwritten.custody.engineSubmit (e := d.engine) rfl
    (List.mem_cons_self ..) (pool.data_write_self a _) (sound_order m s.clientId)
  exact ⟨pool, hacq, hdata, congrArg MatchResult.trades hres⟩

/-- A cancel on a session that is not logged on changes nothing else. -/
theorem handleCancel_refused (hs : s.state ≠ .active) (m : CancelOrderMsg) :
    d.handleCancel s m = (d, s.emit (.orderReject ⟨m.clientOrderId, .notLoggedOn⟩)) := by
  unfold handleCancel
  rw [if_pos hs]

/-- **A cancel** is its instrument's book's affair. -/
theorem handleCancel_spec (h : d.Inv q lost) (hs : s.state = .active) (m : CancelOrderMsg) :
    (d.handleCancel s m).1.Inv
        (Function.update q m.instrumentId ((q m.instrumentId).cancel m.clientOrderId).1) lost
      ∧ (d.handleCancel s m).2 = s.emit
          (if ((q m.instrumentId).cancel m.clientOrderId).2.isSome then .cancelled ⟨m.clientOrderId⟩
          else .orderReject ⟨m.clientOrderId, .unknown⟩)
      ∧ Retains d.pool q lost (d.handleCancel s m).1.pool
          (Function.update q m.instrumentId ((q m.instrumentId).cancel m.clientOrderId).1)
          lost := by
  obtain ⟨-, hfound, -, hown⟩ := h.custody.engineCancel (e := d.engine) rfl m.clientOrderId
  unfold handleCancel
  rw [if_neg (not_not.mpr hs), ← hfound]
  exact ⟨h.cancel m.instrumentId m.clientOrderId, rfl, hown⟩

/-- Which books there are does not depend on what is done to one of them. -/
theorem touches_handleNewOrder (d : Dispatcher) (s : Session) (m : NewOrderMsg) :
    Engine.Touches m.instrumentId d.engine (d.handleNewOrder s m).1.engine := by
  unfold handleNewOrder
  split_ifs
  · exact .refl _ _
  · cases hacq : d.pool.acquire with
    | none => exact .refl _ _
    | some r =>
      obtain ⟨a, pool⟩ := r
      have hdata : ((pool.write a (m.order s.clientId)).storage.data a).instrument
          = m.instrumentId :=
        congrArg (·.instrument) (pool.data_write_self a _)
      exact hdata ▸ d.engine.touches_submit (pool.write a (m.order s.clientId)) a

/-- A cancel touches the book it names. -/
theorem touches_handleCancel (d : Dispatcher) (s : Session) (m : CancelOrderMsg) :
    Engine.Touches m.instrumentId d.engine (d.handleCancel s m).1.engine := by
  unfold handleCancel
  split_ifs
  · exact .refl _ _
  · exact d.engine.touches_cancel d.pool m.instrumentId m.clientOrderId

/-- A turn without a message. -/
theorem turn_of_none {s : Session} (h : s.nextInbound.2 = none) (d : Dispatcher) :
    d.turn s = (d, s.nextInbound.1) := by
  unfold turn
  rw [← Prod.mk.eta (p := s.nextInbound), h]

/-- What is sent about an order: one refusal, or an acknowledgement, the fills and, if the order was
cancelled, that it was. -/
theorem sent_report (s : Session) (m : NewOrderMsg) (e : Engine) (status : OrderStatus)
    (trades : List Trade) :
    (report s m e status trades).sent = s.sent ++
      (if status = .rejected then [.orderReject ⟨m.clientOrderId, classify .rejected m e⟩]
      else .orderAck ⟨m.clientOrderId, m.clientOrderId⟩ ::
        trades.map fun t => .fill (fillMsg m status t)) := by
  rw [report_eq, Session.sent_emitAll]

end Dispatcher

/-! ## One event

An event touches one session and, if it is about an order, one book.  `Happens` lists what that can
be; all that is said about runs is said event by event from there. -/

namespace Exchange

variable {x x' : Exchange} {q q' : InstrumentId → QueueBook} {lost lost' : List Slot} {ev : Event}

abbrev Inv (x : Exchange) (q : InstrumentId → QueueBook) (lost : List Slot) : Prop :=
  x.dispatcher.Inv q lost

/-- Some client has been sent this report. -/
def Reported (x : Exchange) (f : FillMsg) : Prop := ∃ k, .fill f ∈ (x.sessions k).sent

theorem reported_withSession {k : ℕ} {r : Dispatcher × Session} {f : FillMsg}
    (h : (x.withSession k r).Reported f) : x.Reported f ∨ .fill f ∈ r.2.sent := by
  obtain ⟨j, hj⟩ := h
  change .fill f ∈ (Function.update x.sessions k r.2 j).sent at hj
  by_cases hjk : j = k
  · rw [hjk, Function.update_self] at hj
    exact .inr hj
  · rw [Function.update_of_ne hjk] at hj
    exact .inl ⟨j, hj⟩

/-- A reply that reports no execution. -/
theorem reported_quiet {k : ℕ} {r : Dispatcher × Session} {f : FillMsg} {l : List MessageBody}
    (hl : ∀ f, .fill f ∉ l) (hsent : r.2.sent = (x.sessions k).sent ++ l)
    (h : (x.withSession k r).Reported f) : x.Reported f := by
  rcases reported_withSession h with h | h
  · exact h
  · rw [hsent] at h
    exact (List.mem_append.mp h).elim (fun h => ⟨k, h⟩) fun h => absurd h (hl f)

/-- **All that an event can do** to the queue books, the slots and the reports. -/
inductive Happens (x : Exchange) (q : InstrumentId → QueueBook) (lost : List Slot) :
    Event → Exchange → (InstrumentId → QueueBook) → List Slot → Prop
  /-- Nothing reaches the engine. -/
  | quiet {ev : Event} {x' : Exchange} (same : x'.dispatcher = x.dispatcher)
      (reports : ∀ f, x'.Reported f → x.Reported f) : Happens x q lost ev x' q lost
  /-- An order enters a book in slot `a`. -/
  | order {k : ℕ} {m : NewOrderMsg} {a : Slot} {x' : Exchange}
      (pending : x.pending k = some (.newOrder m)) (active : (x.sessions k).state = .active)
      (slot : x.dispatcher.pool.freeSlots.head? = some a)
      (retains : Retains x.dispatcher.pool q lost x'.dispatcher.pool
        (Function.update q m.instrumentId (x.dispatcher.outcome q (x.sessions k) m a).book)
        (if (x.dispatcher.outcome q (x.sessions k) m a).order.leaks then a :: lost
          else lost))
      (reports : ∀ f, x'.Reported f → x.Reported f ∨
        ∃ t ∈ (x.dispatcher.outcome q (x.sessions k) m a).trades, f = Dispatcher.fillMsg m
          (x.dispatcher.outcome q (x.sessions k) m a).order.status t) :
      Happens x q lost (.turn k) x'
        (Function.update q m.instrumentId (x.dispatcher.outcome q (x.sessions k) m a).book)
        (if (x.dispatcher.outcome q (x.sessions k) m a).order.leaks then a :: lost
          else lost)
  /-- An id is cancelled in a book. -/
  | cancel {k : ℕ} {m : CancelOrderMsg} {x' : Exchange}
      (pending : x.pending k = some (.cancelOrder m)) (active : (x.sessions k).state = .active)
      (retains : Retains x.dispatcher.pool q lost x'.dispatcher.pool
        (Function.update q m.instrumentId ((q m.instrumentId).cancel m.clientOrderId).1) lost)
      (reports : ∀ f, x'.Reported f → x.Reported f) :
      Happens x q lost (.turn k) x'
        (Function.update q m.instrumentId ((q m.instrumentId).cancel m.clientOrderId).1) lost
  /-- A book is drained and forgotten. -/
  | expire {i : InstrumentId} {x' : Exchange}
      (book : x.dispatcher.engine.matchers.lookup i ≠ none)
      (reports : ∀ f, x'.Reported f → x.Reported f) :
      Happens x q lost (.expire i) x' (Function.update q i ⟨i, [], [], ∅⟩) lost

/-- Handling a message, by its kind. -/
theorem dispatch_spec (h : x.Inv q lost) {k : ℕ} {body : MessageBody}
    (hp : x.pending k = some body) :
    ∃ q' lost',
      (x.withSession k (x.dispatcher.dispatch (x.sessions k).nextInbound.1 body)).Inv q' lost'
      ∧ x.Happens q lost (.turn k)
          (x.withSession k (x.dispatcher.dispatch (x.sessions k).nextInbound.1 body)) q' lost' := by
  -- a reply of one message that is no report
  have hone : ∀ {s : Session} (b : MessageBody), s.sent = (x.sessions k).sent → (∀ f, .fill f ≠ b) →
      x.Happens q lost (.turn k) (x.withSession k (x.dispatcher, s.emit b)) q lost := by
    intro s b hs hb
    refine .quiet rfl fun f hf => reported_quiet (l := [b]) ?_ (by rw [Session.sent_emit, hs]) hf
    simpa using hb
  have hnone : x.Happens q lost (.turn k)
      (x.withSession k (x.dispatcher, (x.sessions k).nextInbound.1)) q lost :=
    .quiet rfl fun f hf => reported_quiet (l := []) (by simp) (List.append_nil _).symm hf
  cases body with
  | logon m =>
    refine ⟨q, lost, h, ?_⟩
    change x.Happens q lost _ (x.withSession k (x.dispatcher, Dispatcher.handleLogon _ m)) q lost
    unfold Dispatcher.handleLogon
    split_ifs
    · exact hnone
    · exact hone _ rfl fun _ => nofun
  | logout => exact ⟨q, lost, h, hone _ rfl fun _ => nofun⟩
  | heartbeat => exact ⟨q, lost, h, hone _ rfl fun _ => nofun⟩
  | newOrder m =>
    by_cases hgo : (x.sessions k).state = .active ∧ x.dispatcher.pool.freeSlots ≠ []
    · obtain ⟨hs, hfree⟩ := hgo
      obtain ⟨a, free, hfree⟩ := List.exists_cons_of_ne_nil hfree
      obtain ⟨hinv, hrep, hown⟩ := Dispatcher.handleNewOrder_spec
        (s := (x.sessions k).nextInbound.1) (m := m) h hs hfree
      refine ⟨_, _, hinv, .order hp hs (by rw [hfree]; rfl) hown fun f hf => ?_⟩
      rcases reported_withSession hf with hf | hf
      · exact .inl hf
      · change .fill f ∈ (x.dispatcher.handleNewOrder _ m).2.sent at hf
        rw [hrep, Dispatcher.sent_report] at hf
        rcases List.mem_append.mp hf with hf | hf
        · exact .inl ⟨k, hf⟩
        · split_ifs at hf
          · simp at hf
          · obtain ⟨t, ht, hft⟩ : ∃ t ∈ _, _ = f := by simpa using hf
            exact .inr ⟨t, ht, hft.symm⟩
    · obtain ⟨r, hr⟩ := Dispatcher.handleNewOrder_refused
        (s := (x.sessions k).nextInbound.1) (m := m) hgo
      change ∃ q' lost', (x.withSession k (x.dispatcher.handleNewOrder _ m)).Inv q' lost'
        ∧ x.Happens q lost _ (x.withSession k (x.dispatcher.handleNewOrder _ m)) q' lost'
      rw [hr]
      exact ⟨q, lost, h, hone _ rfl fun _ => nofun⟩
  | cancelOrder m =>
    by_cases hs : (x.sessions k).state = .active
    · obtain ⟨hinv, hrep, hown⟩ := Dispatcher.handleCancel_spec
        (s := (x.sessions k).nextInbound.1) h hs m
      refine ⟨_, _, hinv, .cancel hp hs hown fun f hf =>
        reported_quiet (l := [_]) (fun f hf => ?_) (congrArg Session.sent hrep) hf⟩
      rw [List.mem_singleton] at hf
      split_ifs at hf
    · change ∃ q' lost', (x.withSession k (x.dispatcher.handleCancel _ m)).Inv q' lost'
        ∧ x.Happens q lost _ (x.withSession k (x.dispatcher.handleCancel _ m)) q' lost'
      rw [Dispatcher.handleCancel_refused (s := (x.sessions k).nextInbound.1) hs m]
      exact ⟨q, lost, h, hone _ rfl fun _ => nofun⟩
  | orderAck m => exact ⟨q, lost, h, hnone⟩
  | orderReject m => exact ⟨q, lost, h, hnone⟩
  | fill m => exact ⟨q, lost, h, hnone⟩
  | cancelled m => exact ⟨q, lost, h, hnone⟩

/-- A turn handles the message there is. -/
theorem turn_of_pending {k : ℕ} {body : MessageBody} (hp : x.pending k = some body) :
    x.dispatcher.turn (x.sessions k)
      = x.dispatcher.dispatch (x.sessions k).nextInbound.1 body := by
  obtain ⟨msg, hmsg, rfl⟩ := Option.map_eq_some_iff.mp hp
  unfold Dispatcher.turn
  rw [← Prod.mk.eta (p := (x.sessions k).nextInbound), hmsg]

/-- **Every event keeps the books in order**, and does one of the things it can do. -/
theorem step_spec (h : x.Inv q lost) (hs : x.step ev = some x') :
    ∃ q' lost', x'.Inv q' lost' ∧ x.Happens q lost ev x' q' lost' := by
  cases ev with
  | bytes k data =>
    obtain rfl := Option.some.inj hs
    exact ⟨q, lost, h, .quiet rfl fun f hf =>
      reported_quiet (l := []) (by simp) (List.append_nil _).symm hf⟩
  | turn k =>
    obtain rfl := Option.some.inj hs
    cases hp : x.pending k with
    | none =>
      rw [Dispatcher.turn_of_none (Option.map_eq_none_iff.mp hp)]
      exact ⟨q, lost, h, .quiet rfl fun f hf =>
        reported_quiet (l := []) (by simp) (List.append_nil _).symm hf⟩
    | some body =>
      rw [turn_of_pending hp]
      exact dispatch_spec h hp
  | expire i =>
    cases hl : x.dispatcher.engine.matchers.lookup i with
    | none =>
      obtain rfl : x = x' := by
        simpa only [step, Engine.expireInstrument, hl, Option.some.injEq] using hs
      exact ⟨q, lost, h, .quiet rfl fun f hf => hf⟩
    | some hb =>
      obtain rfl := Option.some.inj hs
      exact ⟨_, lost, EngineInv.expire h hl, .expire (by simp [hl]) fun f hf => hf⟩

/-- **Every state of every run has its queue books**, with whatever its events preserve. -/
theorem exists_inv {r : InstrumentRegistry} {filter : InstrumentId → Bool} {e : Engine}
    {capacity : ℕ} {ok : Exchange → Event → Prop}
    {J : Exchange → (InstrumentId → QueueBook) → List Slot → Prop}
    (hnew : Engine.new r filter = .ok e) (h₀ : J (start e capacity) (fun i => ⟨i, [], [], ∅⟩) [])
    (hstep : ∀ x q lost ev x' q' lost', x.Inv q lost → J x q lost → ok x ev →
      x.Happens q lost ev x' q' lost' → x'.Inv q' lost' → J x' q' lost')
    (h : Guarded.Reach Exchange.step ok (start e capacity) x) :
    ∃ q lost, x.Inv q lost ∧ J x q lost := by
  refine h.invariant (I := fun x => ∃ q lost, x.Inv q lost ∧ J x q lost)
    ⟨_, _, engineInv_new hnew, h₀⟩ fun x ev x' ⟨q, lost, hinv, hJ⟩ hok hs => ?_
  obtain ⟨q', lost', hinv', hh⟩ := step_spec hinv hs
  exact ⟨q', lost', hinv', hstep x q lost ev x' q' lost' hinv hJ hok hh hinv'⟩

theorem Inv.trades_turn (h : x.Inv q lost) {k : ℕ} {m : NewOrderMsg} {free : List Slot}
    (hp : x.pending k = some (.newOrder m)) (hs : (x.sessions k).state = .active)
    (hfree : x.dispatcher.pool.freeSlots = a :: free) :
    x.trades (.turn k) = (x.dispatcher.outcome q (x.sessions k) m a).trades := by
  obtain ⟨pool, hacq, -, htrades⟩ := Dispatcher.Inv.submitted h (x.sessions k) m hfree
  simp only [trades, hp, Dispatcher.executions, hs, hacq, ne_eq, not_true_eq_false, if_false]
  exact htrades

/-! ## A whole pump

`pump` is a loop over the messages that are there.  Its turns are events of their own, so what holds
after every event holds after a pump. -/

/-- **`pump` leaves no message behind**: its fuel is never used up. -/
theorem nextInbound_pump (d : Dispatcher) (s : Session) :
    (d.pump s).2.nextInbound.2 = none := by
  have hloop : ∀ (fuel : ℕ) (d : Dispatcher) (s : Session), s.framer.buf.length < fuel →
      (Dispatcher.pumpLoop fuel d s).2.nextInbound.2 = none := by
    intro fuel
    induction fuel with
    | zero => exact fun _ s h => absurd h (Nat.not_lt_zero _)
    | succ fuel ih =>
      intro d s hfuel
      cases hn : s.framer.next with
      | mk f msg =>
        cases msg with
        | none =>
          simp only [Dispatcher.pumpLoop, Session.nextInbound, hn]
          exact Framer.next_next hn
        | some msg =>
          simp only [Dispatcher.pumpLoop, Session.nextInbound, hn]
          refine ih _ _ ?_
          rw [Dispatcher.framer_dispatch]
          have := Framer.length_next hn
          simp only [kHeaderSize] at this
          change f.buf.length < fuel
          omega
  exact hloop _ _ _ (Nat.lt_succ_self _)

theorem withSession_withSession (x : Exchange) (k : ℕ) (r r' : Dispatcher × Session) :
    (x.withSession k r).withSession k r' = x.withSession k r' := by
  simp only [withSession, Function.update_idem]

/-- **A pump is a run of turns.** -/
theorem reach_pump (x : Exchange) (k : ℕ) :
    Guarded.Reach Exchange.step (fun _ _ => True) x
      (x.withSession k (x.dispatcher.pump (x.sessions k))) := by
  have hturn : ∀ (d : Dispatcher) (s : Session), (x.withSession k (d, s)).step (.turn k)
      = some (x.withSession k (d.turn s)) := fun d s => by
    have hs : (x.withSession k (d, s)).sessions k = s := Function.update_self ..
    simp only [step, hs, withSession_withSession]
    rfl
  have hloop : ∀ (fuel : ℕ) (d : Dispatcher) (s : Session),
      Guarded.Reach Exchange.step (fun _ _ => True) (x.withSession k (d, s))
        (x.withSession k (Dispatcher.pumpLoop fuel d s)) := by
    intro fuel
    induction fuel with
    | zero => exact fun d s => .init
    | succ fuel ih =>
      intro d s
      refine (Guarded.Reach.step .init trivial (hturn d s)).trans ?_
      cases hn : s.nextInbound with
      | mk s' msg =>
        cases msg with
        | none =>
          simp only [Dispatcher.pumpLoop, Dispatcher.turn, hn]
          exact .init
        | some msg =>
          simp only [Dispatcher.pumpLoop, Dispatcher.turn, hn]
          exact ih _ _
  have hself : x.withSession k (x.dispatcher, x.sessions k) = x := by
    simp only [withSession, Function.update_eq_self]
  have h := hloop ((x.sessions k).framer.buf.length + 1) x.dispatcher (x.sessions k)
  rwa [hself] at h

end Exchange

end Ordbk
