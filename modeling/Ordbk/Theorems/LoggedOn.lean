import Ordbk.Refinement.Link
import Ordbk.Refinement.Phases

/-!
# Theorems/LoggedOn — only the log-on window reaches the engine

Of all the messages a session hears, the engine is moved by the orders between the first log-on and
the first log-out; the others are refused.
-/

namespace Ordbk

open Framer (messages)

/-! ## The window

A session is heard from the first `Logon` to the first `Logout`; whatever comes before or after is
answered, if at all, without the engine. -/

/-- From the first log-on to the first log-out. -/
def loggedOn (bodies : List MessageBody) : List MessageBody :=
  (bodies.takeWhile (· ≠ .logout)).dropWhile (!·.isLogon)

/-- The orders after the first log-on and before the first log-out. -/
def window (bodies : List MessageBody) : List MessageBody :=
  (loggedOn bodies).tail.filter (·.isOrder)

/-- Who logged on. -/
def client (bodies : List MessageBody) : ClientId :=
  match (loggedOn bodies).head? with
  | some (.logon m) => m.clientId
  | _ => 0

namespace Dispatcher

/-- Handle an order of a client that is logged on. -/
def trade (client : ClientId) (d : Dispatcher) (b : MessageBody) : Dispatcher :=
  (d.dispatch { sessionId := 0, state := .active, clientId := client } b).1

variable {d : Dispatcher} {s : Session}

/-- Messages are handled one by one. -/
theorem handle_cons (b : MessageBody) (bodies : List MessageBody) :
    handle (d, s) (b :: bodies) = handle (d.dispatch s b) bodies := rfl

/-- A closing session stays so, and is not heard. -/
theorem handle_closing (hs : s.state = .closing) (bodies : List MessageBody) :
    (handle (d, s) bodies).1 = d ∧ (handle (d, s) bodies).2.state = .closing := by
  induction bodies generalizing s with
  | nil => exact ⟨rfl, hs⟩
  | cons b bodies ih =>
    have hidle : (d.dispatch s b).1 = d := d.dispatch_idle (.inl (by simp [hs]))
    have hstate : (d.dispatch s b).2.state = .closing := by
      rw [state_dispatch]
      cases b <;> simp [Session.enter, hs]
    obtain ⟨h₁, h₂⟩ := ih (s := (d.dispatch s b).2) hstate
    rw [handle_cons, ← Prod.mk.eta (p := d.dispatch s b), hidle]
    exact ⟨h₁, h₂⟩

/-- After a log-out nothing is heard. -/
theorem handle_logout (d : Dispatcher) (s : Session) (bodies : List MessageBody) :
    (handle (d, s) (.logout :: bodies)).1 = d
      ∧ (handle (d, s) (.logout :: bodies)).2.state = .closing :=
  handle_closing (s := handleLogout s) rfl bodies

/-- **An active session** is heard until the first log-out. -/
theorem handle_active (hs : s.state = .active) (bodies : List MessageBody) :
    (handle (d, s) bodies).1
        = ((bodies.takeWhile (· ≠ .logout)).filter (·.isOrder)).foldl (trade s.clientId) d
      ∧ ((handle (d, s) bodies).2.state = .active ↔ .logout ∉ bodies)
      ∧ ((handle (d, s) bodies).2.state = .active →
          (handle (d, s) bodies).2.clientId = s.clientId) := by
  induction bodies generalizing d s with
  | nil => exact ⟨rfl, ⟨fun _ => List.not_mem_nil, fun _ => hs⟩, fun _ => rfl⟩
  | cons b bodies ih =>
    by_cases hb : b = .logout
    · subst hb
      obtain ⟨h₁, h₂⟩ := handle_logout d s bodies
      rw [h₁, h₂]
      exact ⟨by simp, by simp, nofun⟩
    · have hstate : (d.dispatch s b).2.state = .active := by
        rw [state_dispatch]
        cases b <;> simp_all [Session.enter]
      have hclient : (d.dispatch s b).2.clientId = s.clientId := by
        rw [clientId_dispatch]
        cases b <;> simp [Session.enter, hs]
      obtain ⟨h₁, h₂, h₃⟩ := ih (d := (d.dispatch s b).1) hstate
      rw [hclient] at h₁ h₃
      refine ⟨?_, ?_, h₃⟩
      · rw [List.takeWhile_cons_of_pos (by simpa using hb), List.filter_cons]
        refine h₁.trans ?_
        cases ho : b.isOrder with
        | true =>
          rw [if_pos rfl, List.foldl_cons]
          congr 1
          exact d.dispatch_congr hs rfl
        | false =>
          rw [if_neg Bool.false_ne_true, d.dispatch_idle (.inr ho)]
      · rw [List.mem_cons, not_or]
        exact h₂.trans ⟨fun h => ⟨fun h' => hb h'.symm, h⟩, fun h => h.2⟩

/-- **A new session** is heard from the first log-on to the first log-out. -/
theorem handle_new (hs : s.state = .notLoggedOn) (bodies : List MessageBody) :
    (handle (d, s) bodies).1 = (window bodies).foldl (trade (client bodies)) d
      ∧ ((handle (d, s) bodies).2.state = .active
          ↔ (∃ m, .logon m ∈ bodies) ∧ .logout ∉ bodies)
      ∧ ((handle (d, s) bodies).2.state = .active →
          (handle (d, s) bodies).2.clientId = client bodies) := by
  induction bodies generalizing s with
  | nil => simp [handle, window, loggedOn, hs]
  | cons b bodies ih =>
    by_cases hout : b = .logout
    · subst hout
      obtain ⟨h₁, h₂⟩ := handle_logout d s bodies
      rw [h₁, h₂]
      exact ⟨by simp [window, loggedOn], by simp, nofun⟩
    by_cases hon : ∃ m, b = .logon m
    · obtain ⟨m, rfl⟩ := hon
      -- from here on the session is active
      have hlogon : d.dispatch s (.logon m)
          = (d, { s with clientId := m.clientId, state := .active }.emit
            (.logon ⟨m.clientId⟩)) := by
        simp only [dispatch, handleLogon, hs, ne_eq, not_true_eq_false, if_false]
      have hsession : loggedOn (.logon m :: bodies)
          = .logon m :: bodies.takeWhile (· ≠ .logout) := by
        simp [loggedOn, MessageBody.isLogon]
      rw [handle_cons, hlogon, window, client, hsession]
      obtain ⟨h₁, h₂, h₃⟩ := handle_active (d := d)
        (s := { s with clientId := m.clientId, state := .active }.emit (.logon ⟨m.clientId⟩))
        rfl bodies
      exact ⟨h₁, by simpa using h₂, h₃⟩
    · have hstate : (d.dispatch s b).2.state = .notLoggedOn := by
        rw [state_dispatch]
        cases b <;> simp_all [Session.enter]
      have hidle : (d.dispatch s b).1 = d := d.dispatch_idle (.inl (by simp [hs]))
      have hsession : loggedOn (b :: bodies) = loggedOn bodies := by
        cases b <;> simp_all [loggedOn, MessageBody.isLogon]
      have hmem : (∃ m, .logon m ∈ b :: bodies) ↔ ∃ m, .logon m ∈ bodies := by
        refine exists_congr fun m => ?_
        rw [List.mem_cons, or_iff_right fun h => hon ⟨m, h.symm⟩]
      have hmem' : .logout ∈ b :: bodies ↔ .logout ∈ bodies := by
        rw [List.mem_cons, or_iff_right fun h => hout h.symm]
      rw [handle_cons, ← Prod.mk.eta (p := d.dispatch s b), hidle, window, client, hsession, hmem,
        hmem']
      exact ih hstate

end Dispatcher

/-! ## Forward only

A session never goes back to a state it has left, and its client id never changes once it is set. -/

/-- How far a session has come. -/
def SessionState.rank : SessionState → ℕ
  | .notLoggedOn => 0
  | .active => 1
  | .closing => 2

/-- **A session moves forward**, and keeps its client once it is past the log-on. -/
structure Session.Later (s s' : Session) : Prop where
  /-- It has come at least as far. -/
  rank : s.state.rank ≤ s'.state.rank
  /-- And is the same client's, once there is one. -/
  clientId : s.state ≠ .notLoggedOn → s'.clientId = s.clientId

namespace Session.Later

variable {s s' s'' : Session}

theorem refl (s : Session) : s.Later s := ⟨le_rfl, fun _ => rfl⟩

theorem trans (h : s.Later s') (h' : s'.Later s'') : s.Later s'' := by
  refine ⟨h.rank.trans h'.rank, fun hs => ?_⟩
  have hs' : s'.state ≠ .notLoggedOn := fun hn => hs ?_
  · rw [h'.clientId hs', h.clientId hs]
  · have hrank := h.rank
    rw [hn] at hrank
    revert hrank
    cases s.state <;> simp [SessionState.rank]

/-- Whatever message comes in, -/
theorem enter (s : Session) (b : MessageBody) : s.Later (s.enter b) := by
  cases b with
  | logon m =>
    simp only [Session.enter]
    split_ifs with hs
    · exact ⟨by rw [hs]; exact Nat.zero_le _, fun h => absurd hs h⟩
    · exact refl s
  | logout => exact ⟨by cases s.state <;> simp [Session.enter, SessionState.rank], fun _ => rfl⟩
  | _ => exact refl s

/-- whatever it is answered, -/
theorem dispatch (d : Dispatcher) (s : Session) (b : MessageBody) :
    s.Later (d.dispatch s b).2 := by
  obtain ⟨hrank, hclient⟩ := enter s b
  refine ⟨?_, fun hs => ?_⟩
  · rwa [d.state_dispatch]
  · rw [d.clientId_dispatch, hclient hs]

/-- however many there are, -/
theorem handle (r : Dispatcher × Session) (bodies : List MessageBody) :
    r.2.Later (Dispatcher.handle r bodies).2 := by
  induction bodies generalizing r with
  | nil => exact refl _
  | cons b bodies ih => exact (dispatch r.1 r.2 b).trans (ih _)

/-- and however they come. -/
theorem run (l : Link) (acts : List Link.Act) : l.session.Later (l.run acts).session := by
  induction acts generalizing l with
  | nil => exact refl _
  | cons act acts ih =>
    refine trans ?_ (ih (l.step act))
    cases act with
    | recv data => exact ⟨le_rfl, fun _ => rfl⟩
    | pump =>
      change l.session.Later (l.dispatcher.pump l.session).2
      rw [Dispatcher.pump_eq]
      have h := handle (l.dispatcher, l.session) (l.session.framer.drain.2.map (·.body))
      exact ⟨h.rank, h.clientId⟩
    | send => exact ⟨le_rfl, fun _ => rfl⟩

end Session.Later

/-- **Only the log-on window reaches the engine.**  However the bytes of a session are cut and
pumped, its state only moves forward and its client stays who first logged on; the engine and the
pool are where the orders between the first log-on and the first log-out take them; and any other
order gets one refusal and changes nothing. -/
theorem dispatcher_run_eq_window (d : Dispatcher) (id : UInt64) (acts : List Link.Act) :
    let l := Link.run ⟨d, { sessionId := id }, []⟩ acts
    let bodies := (messages (Link.heard acts)).map (·.body)
    (∀ more, l.session.Later (l.run more).session)
      ∧ (l.session.state = .active → l.session.clientId = client bodies)
      ∧ l.dispatcher = (window bodies).foldl (Dispatcher.trade (client bodies)) d
      ∧ l.dispatcher = (Dispatcher.handle (d, { sessionId := id }) bodies).1
      ∧ l.session.sent = (Dispatcher.handle (d, { sessionId := id }) bodies).2.sent
      ∧ ∀ pre b post, bodies = pre ++ b :: post → b.isOrder →
          ¬ ((∃ m, .logon m ∈ pre) ∧ .logout ∉ pre) →
          (Dispatcher.handle (d, { sessionId := id }) (pre ++ [b])).1
              = (Dispatcher.handle (d, { sessionId := id }) pre).1
            ∧ (Dispatcher.handle (d, { sessionId := id }) (pre ++ [b])).2.sent
              = (Dispatcher.handle (d, { sessionId := id }) pre).2.sent
                ++ [.orderReject ⟨b.orderId, .notLoggedOn⟩] := by
  intro l bodies
  obtain ⟨f, hf⟩ := Link.follows_run (d := d) (s := { sessionId := id }) rfl acts
  have hsession : l.session.rebase {} l.taken
      = (Dispatcher.handle (d, { sessionId := id }) bodies).2 := hf.session
  have hstate := congrArg Session.state hsession
  have hclient := congrArg Session.clientId hsession
  have hsent := congrArg Session.sent hsession
  obtain ⟨h₁, -, h₃⟩ := Dispatcher.handle_new (d := d) (s := { sessionId := id }) rfl bodies
  refine ⟨fun more => Session.Later.run l more, fun ha => ?_, hf.dispatcher.trans h₁, hf.dispatcher,
    hsent, fun pre b post _ hb hout => ?_⟩
  · exact hclient.trans (h₃ (hstate.symm.trans ha))
  · obtain ⟨-, h₂, -⟩ := Dispatcher.handle_new (d := d) (s := { sessionId := id }) rfl pre
    have hidle := fun h => hout (h₂.mp h)
    rw [Dispatcher.handle_append]
    change (Dispatcher.dispatch _ _ b).1 = _ ∧ (Dispatcher.dispatch _ _ b).2.sent = _
    rw [Dispatcher.dispatch_refused _ hidle hb]
    exact ⟨rfl, rfl⟩

end Ordbk
