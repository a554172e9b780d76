import Ordbk.Refinement.Beginning
import Ordbk.Lib.Trace

/-!
# Refinement/Following — the serial gateway that keeps up

`Follows` runs a gateway that handles requests whole beside the threads: it does a request at the
moment a thread begins with it, and is ahead of the threads by what they still owe.  `serially_step`
keeps the two together for as long as no request is taken up before all are done with its book.
-/

namespace Ordbk

/-- The executions of a session's requests. -/
def Exchange.tape (k : ℕ) (M : List (Event × List Trade)) : List Trade :=
  (M.filter fun p => p.1 = .turn k).flatMap (·.2)

/-- One more event on the tape. -/
theorem Exchange.tape_snoc (k : ℕ) (M : List (Event × List Trade)) (ev : Event) (ts : List Trade) :
    tape k (M ++ [(ev, ts)]) = tape k M ++ if ev = .turn k then ts else [] := by
  unfold tape
  rw [List.filter_append, List.flatMap_append]
  by_cases hev : ev = .turn k
  · simp [hev]
  · simp [hev]

namespace Server

variable {x : Server} {k : ℕ}

/-! ## The serial gateway

It has handled every request that a thread has begun. What it has sent on a session is what the
thread has sent and still owes, and so are the executions. -/

/-- **A gateway that has handled every request begun so far**, whole, in the order in which they
began. `M` is its history: the events and the executions each of them made. -/
structure Follows (e : Engine) (n : ℕ) (x : Server) (fin : InstrumentId → QueueBook)
    (lost : List Slot) (debt : ℕ → Debt) (M : List (Event × List Trade)) (y : Exchange) : Prop where
  /-- It is a run of the gateway that handles messages whole, -/
  trace : Guarded.Trace Exchange.step (fun _ _ => True) (fun y ev => [(ev, y.trades ev)])
    (Exchange.start e n) M y
  /-- with the events in the order the threads took them. -/
  events : M.map Prod.fst = x.events
  /-- Its books are those the server will have. -/
  settled : ∃ π q, Settled e n fin lost π q y.dispatcher
  /-- Each session is ahead of the thread's by the replies that are owed, -/
  sessions : ∀ k, y.sessions k = (debt k).reply (x.sessions k)
  /-- and so are the executions. -/
  tapes : ∀ k, Exchange.tape k M = x.executed k ++ (debt k).trades

section Follow

variable {e : Engine} {n : ℕ} {x' : Server} {fin fin' : InstrumentId → QueueBook}
  {lost lost' : List Slot}
  {debt : ℕ → Debt} {M : List (Event × List Trade)} {y : Exchange}

/-- A thread goes on with its request: the serial gateway has done it already. -/
theorem Follows.advance (h : Follows e n x fin lost debt M y) (hl : x.Local k x') {d : Debt}
    (hreply : d.reply (x'.sessions k) = (debt k).reply (x.sessions k))
    (htrades : x'.executed k ++ d.trades = x.executed k ++ (debt k).trades) :
    Follows e n x' fin lost (Function.update debt k d) M y where
  trace := h.trace
  events := h.events.trans hl.events.symm
  settled := h.settled
  sessions j := by
    by_cases hjk : j = k
    · rw [hjk, Function.update_self, hreply, h.sessions]
    · rw [Function.update_of_ne hjk, hl.sessions j hjk, h.sessions]
  tapes j := by
    by_cases hjk : j = k
    · rw [hjk, Function.update_self, htrades, h.tapes]
    · rw [Function.update_of_ne hjk, hl.executed j hjk, h.tapes]

/-- Bytes arrive for a thread that owes nothing. -/
theorem Follows.bytes (h : Follows e n x fin lost debt M y) (hidle : (debt k).reply = id)
    (data : List Byte) :
    Follows e n { x with
        toExchange := x.withSession k (x.dispatcher, (x.sessions k).onBytes data)
        events := x.events ++ [.bytes k data] } fin lost debt (M ++ [(.bytes k data, [])])
      (y.withSession k (y.dispatcher, (y.sessions k).onBytes data)) where
  trace := .step h.trace trivial rfl
  events := by
    rw [List.map_append, h.events]
    rfl
  settled := h.settled
  sessions j := by
    change Function.update y.sessions k _ j = (debt j).reply (Function.update x.sessions k _ j)
    by_cases hjk : j = k
    · rw [hjk, Function.update_self, Function.update_self, h.sessions, hidle]
      rfl
    · rw [Function.update_of_ne hjk, Function.update_of_ne hjk, h.sessions]
  tapes j := by
    rw [Exchange.tape_snoc, if_neg nofun, List.append_nil]
    exact h.tapes j

/-- **A turn**: the serial gateway does the request at once. -/
theorem Follows.turn (h : Follows e n x fin lost debt M y)
    (hidle : (debt k).reply = id ∧ (debt k).trades = [])
    (hs : ∀ j, j ≠ k → x'.sessions j = x.sessions j)
    (hexec : x'.executed = x.executed) (hev : x'.events = x.events ++ [.turn k]) {d : Debt}
    (hsettled : ∃ π q, Settled e n fin' lost' π q (y.dispatcher.turn (x.sessions k)).1)
    (hreply : (y.dispatcher.turn (x.sessions k)).2 = d.reply (x'.sessions k))
    (htrades : y.trades (.turn k) = d.trades) :
    Follows e n x' fin' lost' (Function.update debt k d) (M ++ [(.turn k, y.trades (.turn k))])
      (y.withSession k (y.dispatcher.turn (y.sessions k))) where
  trace := .step h.trace trivial rfl
  events := by
    rw [List.map_append, h.events, hev]
    rfl
  settled := by
    rw [h.sessions, hidle.1]
    exact hsettled
  sessions j := by
    change Function.update y.sessions k _ j = _
    by_cases hjk : j = k
    · rw [hjk, Function.update_self, Function.update_self, h.sessions, hidle.1]
      exact hreply
    · rw [Function.update_of_ne hjk, Function.update_of_ne hjk, hs j hjk, h.sessions]
  tapes j := by
    rw [Exchange.tape_snoc, h.tapes, hexec]
    by_cases hjk : j = k
    · rw [hjk, Function.update_self, hidle.2, List.append_nil, if_pos rfl, htrades]
    · have hne : Event.turn k ≠ .turn j := fun heq => hjk (Event.turn.inj heq).symm
      rw [Function.update_of_ne hjk, if_neg hne, List.append_nil]

end Follow

/-! ## The invariant

Beside the threads and what they owe there is always a serial gateway that keeps up. One step of the
server is one of the gateway's where a thread begins with a request, and none otherwise. -/

/-- **What holds throughout a run** with one request at a time in each book. -/
def Serially (e : Engine) (n : ℕ) (x : Server) : Prop :=
  ∃ q fin held lost debt hands M y, Tracked e n x q fin held lost debt hands
    ∧ Follows e n x fin lost debt M y

/-- **At the start**, with all threads idle. -/
theorem serially_start {r : InstrumentRegistry} {filter : InstrumentId → Bool} {e : Engine} (n : ℕ)
    (hnew : Engine.new r filter = .ok e) : Serially e n (start e n) := by
  have hinv : EngineInv e (Pool.new n) _ [] := engineInv_new hnew
  refine ⟨fun i => ⟨i, [], [], ∅⟩, fun i => ⟨i, [], [], ∅⟩, [], [],
    fun _ => ⟨⟨0, [], [], ∅⟩, id, [], []⟩, fun _ => [], [], Exchange.start e n,
    ⟨hinv.custody.lodged, rfl, (settled_start n hnew).owned, fun _ => rfl, rfl,
      fun k hk => absurd rfl hk, nofun, fun _ _ => ⟨rfl, rfl, rfl⟩, fun _ _ => rfl,
      fun _ _ hat => absurd hat.1 nofun, fun _ _ _ hat => absurd hat.1 nofun,
      ⟨by simp, by simp, by simp, by simp⟩, fun _ => ⟨rfl, UInt64.le_refl _⟩⟩,
    ⟨.init, rfl, ⟨_, _, settled_start n hnew⟩, fun _ => rfl, fun _ => rfl⟩⟩

section Step

variable {e : Engine} {n : ℕ} {x' : Server} {i : InstrumentId}

/-- Only the threads of accepted connections can be at a book, -/
theorem Tracked.forall_of_vacant {q fin : InstrumentId → QueueBook} {held lost : List Slot}
    {debt : ℕ → Debt} {hands : ℕ → List Slot} (h : Tracked e n x q fin held lost debt hands)
    (hv : x.Vacant i) (j : ℕ) : ¬ x.AtBook j i := by
  intro hat
  refine hv j (h.later j fun hidle => ?_) hat
  have hinst := hat.1
  rw [instrument_eq_none.mpr hidle] at hinst
  cases hinst

/-- or be busy at all. -/
theorem Tracked.forall_of_quiet {q fin : InstrumentId → QueueBook} {held lost : List Slot}
    {debt : ℕ → Debt} {hands : ℕ → List Slot} (h : Tracked e n x q fin held lost debt hands)
    (hq : x.Quiet) (j : ℕ) : x.threads j = .idle := by
  by_contra hne
  exact hne (hq j (h.later j hne))

/-- A thread that stays idle. -/
theorem threads_after_idle (hk : x.threads k = .idle) (D : Dispatcher) (s : Session) :
    (x.after k D s .idle).threads = x.threads := by
  change Function.update x.threads k .idle = _
  rw [← hk, Function.update_eq_self]

variable {q fin : InstrumentId → QueueBook} {held lost : List Slot} {debt : ℕ → Debt}
  {hands : ℕ → List Slot} {M : List (Event × List Trade)} {y : Exchange}

/-- A turn that is over at once. -/
theorem serially_quiet (ht : Tracked e n x q fin held lost debt hands)
    (hf : Follows e n x fin lost debt M y) (hk : x.threads k = .idle) {s : Session}
    (hturn : y.dispatcher.turn (x.sessions k) = (y.dispatcher, s))
    (htrades : y.trades (.turn k) = []) :
    Serially e n { x.after k x.dispatcher s .idle with events := x.events ++ [.turn k] } := by
  obtain ⟨-, hid, hnil⟩ := ht.idle k hk
  have hdebt : Function.update debt k ⟨(debt k).book, id, [], (debt k).left⟩ = debt := by
    rw [← hid, ← hnil, Function.update_eq_self]
  have hfollows := @Follows.turn x k e n
    { x.after k x.dispatcher s .idle with events := x.events ++ [.turn k] } fin fin lost lost debt
    M y hf ⟨hid, hnil⟩ (fun j hj => Function.update_of_ne hj _ _) rfl rfl
    ⟨(debt k).book, id, [], (debt k).left⟩
    (by rw [hturn]; exact hf.settled) ?_ htrades
  · rw [hdebt] at hfollows
    exact ⟨q, fin, held, lost, debt, hands, _, _,
      ht.congr rfl (threads_after_idle hk x.dispatcher s) le_rfl rfl, hfollows⟩
  · rw [hturn]
    exact (sessions_after x k x.dispatcher s .idle).symm

/-- **A turn begins**, and the serial gateway takes it. -/
theorem serially_turn (h : Serially e n x) (hk : x.threads k = .idle) (hlt : k < x.nextSessionId)
    (hok : x.Apart (.turn k)) :
    Serially e n { x.begin k with events := x.events ++ [.turn k] } := by
  obtain ⟨q, fin, held, lost, debt, hands, M, y, ht, hf⟩ := h
  obtain ⟨hnone, hid, hnil⟩ := ht.idle k hk
  have hsame : y.sessions k = x.sessions k := by
    rw [hf.sessions, hid]
    rfl
  have hpending : ∀ {body}, x.pending k = some body → y.pending k = some body := fun hp => by
    unfold Exchange.pending
    rw [hsame]
    exact hp
  obtain ⟨π, q', hsettled⟩ := hf.settled
  change x.Clear k (x.pending k) at hok
  have hb := begins x k
  generalize x.begin k = z at hb
  cases hb with
  | quiet same none => exact serially_quiet ht hf hk (same _) (none y hsame)
  | @full m pending active free =>
    rw [pending] at hok
    have hall := ht.used_of_quiet free (ht.forall_of_quiet ((hok active).2 free))
    have hacq : y.dispatcher.pool.acquire = none := by
      simp only [Pool.acquire, hsettled.free_eq_nil hall]
    refine serially_quiet ht hf hk ?_ ?_
    · refine (Exchange.turn_of_pending (x := ⟨y.dispatcher, x.sessions⟩) pending).trans ?_
      have hs : (x.sessions k).nextInbound.1.state = .active := active
      simp only [Dispatcher.dispatch, Dispatcher.handleNewOrder, hs, hacq, ne_eq,
        not_true_eq_false, if_false]
    · simp only [Exchange.trades, hpending pending, hsame, Dispatcher.executions,
        active, hacq, ne_eq, not_true_eq_false, if_false]
  | @order m a pool pending active acquired =>
    rw [pending] at hok
    obtain ⟨hfree, -, -⟩ := Pool.acquire_eq_some acquired
    obtain ⟨ha, hlost, hfin, -, -⟩ := ht.unused_of_free (a := a) (hfree ▸ List.mem_cons_self ..)
    obtain ⟨hdone, hreply, hexec⟩ := hsettled.order (s := (x.sessions k).nextInbound.1) ha
      hlost hfin active m
    have hturn := Exchange.turn_of_pending (x := ⟨y.dispatcher, x.sessions⟩) pending
    have htracked := ht.order hk hlt (ht.forall_of_vacant (hok active).1) (hsettled.wf _) acquired
      (x.sessions k).clientId (x.sessions k).nextInbound.1
    refine ⟨_, _, _, _, _, _, _, _, htracked.congr rfl rfl le_rfl rfl,
      hf.turn ⟨hid, hnil⟩ ?_ ?_ ?_ ?_ ?_ ?_⟩
    · exact fun j hj => Function.update_of_ne hj _ _
    · rfl
    · rfl
    · rw [show y.dispatcher.turn (x.sessions k) = _ from hturn]
      exact hdone
    · rw [show y.dispatcher.turn (x.sessions k) = _ from hturn]
      refine hreply.trans ?_
      change _
        = Dispatcher.report (Function.update x.sessions k (x.sessions k).nextInbound.1 k) m e _ _
      rw [Function.update_self]
      rfl
    · simp only [Exchange.trades, hpending pending, hsame]
      exact hexec
  | @cancel m pending active =>
    rw [pending] at hok
    obtain ⟨hdone, hreply⟩ := hsettled.cancel (s := (x.sessions k).nextInbound.1) active m
    have hturn := Exchange.turn_of_pending (x := ⟨y.dispatcher, x.sessions⟩) pending
    have htracked := ht.cancel hk hlt (ht.forall_of_vacant (hok active)) (hsettled.wf _)
      (x.sessions k).nextInbound.1
    refine ⟨_, _, _, _, _, _, _, _, htracked.congr rfl rfl le_rfl rfl,
      hf.turn ⟨hid, hnil⟩ ?_ ?_ ?_ ?_ ?_ ?_⟩
    · exact fun j hj => Function.update_of_ne hj _ _
    · rfl
    · rfl
    · rw [show y.dispatcher.turn (x.sessions k) = _ from hturn]
      exact hdone
    · rw [show y.dispatcher.turn (x.sessions k) = _ from hturn]
      exact hreply.trans (congrArg _ (sessions_after x k _ _ (.cancelling m)).symm)
    · simp only [Exchange.trades, hpending pending]
      rfl

/-- **Every step keeps the serial gateway alongside.** -/
theorem serially_step (h : Serially e n x) {mv : Move} (hok : x.Apart mv)
    (hs : x.step mv = some x') : Serially e n x' := by
  cases mv with
  | accept =>
    obtain ⟨q, fin, held, lost, debt, hands, M, y, ht, hf⟩ := h
    obtain rfl := Option.some.inj hs
    exact ⟨q, fin, held, lost, debt, hands, M, y, ht.congr rfl rfl (Nat.le_succ _) rfl,
      ⟨hf.trace, hf.events, hf.settled, hf.sessions, hf.tapes⟩⟩
  | bytes k data =>
    obtain ⟨q, fin, held, lost, debt, hands, M, y, ht, hf⟩ := h
    obtain ⟨⟨-, hk⟩, hs⟩ := Option.ite_none_right_eq_some.mp hs
    obtain rfl := Option.some.inj hs
    exact ⟨q, fin, held, lost, debt, hands, _, _, ht.congr rfl rfl le_rfl rfl,
      hf.bytes (ht.idle k hk).2.1 data⟩
  | turn k =>
    obtain ⟨⟨⟨-, hlt⟩, hk⟩, hs⟩ := Option.ite_none_right_eq_some.mp hs
    obtain rfl := Option.some.inj hs
    exact serially_turn h hk hlt hok
  | advance k =>
    obtain ⟨q, fin, held, lost, debt, hands, M, y, ht, hf⟩ := h
    cases hi : (x.threads k).instrument with
    | none =>
      change x.advance k = some x' at hs
      simp only [Server.advance, instrument_eq_none.mp hi] at hs
      cases hs
    | some i =>
      obtain ⟨b, howes, hfin⟩ := ht.owes k i hi
      obtain ⟨b', held', d', hands', ha⟩ := proceeds_advance ht.lodged (ht.shared.hands_subset k)
        ht.books ht.ptrs hi howes hs
      have hspares := fun hdone => spares_advance ht.books hi howes hdone hs
      exact ⟨_, fin, held', lost, _, _, M, y, ht.advance hi howes hfin hspares ha,
        hf.advance ha.loc ha.reply ha.trades⟩

end Step

end Server

end Ordbk
