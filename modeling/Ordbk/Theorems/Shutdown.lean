import Mathlib.Algebra.GroupWithZero.Nat
import Mathlib.Algebra.Order.Group.Nat
import Mathlib.Algebra.Order.BigOperators.Group.List
import Mathlib.Data.List.Perm.Subperm
import Ordbk.Gateway.Lifecycle
import Ordbk.Lib.Trace

/-!
# Theorems/Shutdown — `stop` returns, and leaves nothing behind

The order of `stop` is what makes it work (`stopped_of_reach`): a socket that is open is known to
it, or still in the hands of `accept_loop`, and once `running_` is reset nobody goes back to
waiting.  So every step of any thread brings `stop` nearer its end, and then no thread runs and no
socket is open.

Nothing in the server keeps it from its end but a thread that is in a call on a socket it has closed
(`Blocked`).  If the platform does not end such a call, `stop` waits for it in a join for as long as
nobody connects or sends (`hangs_of_start`).
-/

namespace Ordbk

/-- `session_loop` has a socket to close. -/
def Serving.Serves (p : Serving) : Prop := p ≠ .unborn ∧ p ≠ .erasing ∧ p ≠ .ended

/-- `session_loop` waits for the other end, or may soon. -/
def Serving.Waits (p : Serving) : Prop := p = .reading ∨ p = .working ∨ p = .sending

/-- Whoever waits has a socket. -/
theorem Serving.Waits.serves {p : Serving} (h : p.Waits) : p.Serves := by
  obtain rfl | rfl | rfl := h <;> exact ⟨by decide, by decide, by decide⟩

/-- The steps `session_loop` has before it, at most, when `running_` is reset. -/
def Serving.rank : Serving → ℕ
  | .unborn | .ended => 0
  | .erasing => 1
  | .closing => 2
  | .testing => 3
  | .sending => 4
  | .working => 5
  | .reading => 6

/-- `accept_loop` has this connection, and its thread does not run yet. -/
def Acceptor.Hands (a : Acceptor) (k : ℕ) : Prop := a = .registering k ∨ a = .spawning k

/-- What `accept_loop` has before it, the sessions it starts included. -/
def Acceptor.rank : Acceptor → ℕ
  | .off | .ended => 0
  | .testing => 1
  | .spawning _ => 6
  | .registering _ => 8
  | .accepting => 9

/-- What `stop` itself has before it, with so many sockets and threads. -/
def Stopper.rank (sockets threads : ℕ) : Stopper → ℕ
  | .idle => 0
  | .closing => sockets + threads + 5
  | .locking => sockets + threads + 4
  | .sweeping rest => rest.length + threads + 3
  | .joiningAccept => threads + 2
  | .joining rest => rest.length + 1

/-- With fewer sockets and threads there is less for `stop` to do. -/
theorem Stopper.rank_mono {m m' n n' : ℕ} (hm : m ≤ m') (hn : n ≤ n') (s : Stopper) :
    s.rank m n ≤ s.rank m' n' := by
  cases s <;> simp only [rank] <;> omega

theorem Stopper.rank_succ_left (m n : ℕ) (s : Stopper) : s.rank (m + 1) n ≤ s.rank m n + 1 := by
  cases s <;> simp only [rank] <;> omega

theorem Stopper.rank_succ_right (m n : ℕ) (s : Stopper) : s.rank m (n + 1) ≤ s.rank m n + 1 := by
  cases s <;> simp only [rank] <;> omega

namespace Lifecycle

/-! ## What holds all along

`Kept` is about the two tables: `session_sockets_` knows every socket that is open, and
`session_threads_` every thread that runs, except for the connection that `accept_loop` has in its
hands.  `Phase` is about `stop`: what is already done when it gets to its next line. -/

/-- **Every socket is somebody's**, and `stop` can find it. -/
structure Kept (x : Lifecycle) : Prop where
  /-- Ids that were not given out are nobody's. -/
  fresh : ∀ k, x.nextSessionId ≤ k → x.sessions k = .unborn ∧ x.isOpen k = false
  /-- What `accept_loop` has in its hands has an id and no thread yet. -/
  handed : ∀ k, x.acceptor.Hands k → k < x.nextSessionId ∧ x.sessions k = .unborn
  /-- Whoever has a socket, or is about to start with it, is known to `stop`, or the socket is
  closed. -/
  listed : ∀ k, (x.sessions k).Serves ∨ x.acceptor = .spawning k →
    k ∈ x.sockets ∨ x.isOpen k = false
  /-- Who is listed has not ended, and is not started yet only if `accept_loop` is about to. -/
  alive : ∀ k ∈ x.sockets,
    x.sessions k ≠ .ended ∧ (x.sessions k = .unborn → x.acceptor = .spawning k)
  /-- No socket is listed twice. -/
  nodup : x.sockets.Nodup
  /-- Every thread that runs can be joined. -/
  threaded : ∀ k, k ∈ x.threads ∨ x.sessions k = .unborn ∨ x.sessions k = .ended
  /-- Only threads that were started are kept to be joined. -/
  born : ∀ k ∈ x.threads, x.sessions k ≠ .unborn
  /-- Every socket that is open is somebody's. -/
  opened : ∀ k, x.isOpen k → x.acceptor.Hands k ∨ (x.sessions k).Serves

/-- Nobody waits on a socket that is open. -/
def Quiet (x : Lifecycle) : Prop := ∀ k, (x.sessions k).Waits → x.isOpen k = false

/-- **What `stop` has achieved**, by where it is. -/
def Phase (x : Lifecycle) : Prop :=
  match x.stopper with
  | .idle =>
    (x.running = true → x.acceptor ≠ .off) ∧
      (x.running = false → x.acceptor = .off ∧ x.listening = false ∧ x.threads = [])
  | .closing => x.running = false ∧ x.acceptor ≠ .off
  | .locking => x.running = false ∧ x.acceptor ≠ .off ∧ x.listening = false
  | .sweeping rest =>
    x.running = false ∧ x.acceptor ≠ .off ∧ x.listening = false ∧ rest <:+ x.sockets ∧
      ∀ k ∈ x.sockets, k ∈ rest ∨ x.isOpen k = false
  | .joiningAccept => x.running = false ∧ x.acceptor ≠ .off ∧ x.listening = false ∧ x.Quiet
  | .joining rest =>
    x.running = false ∧ x.acceptor = .off ∧ x.listening = false ∧ x.Quiet ∧ rest <:+ x.threads ∧
      ∀ k ∈ x.threads, k ∈ rest ∨ x.sessions k = .ended

variable {x y : Lifecycle} {m : Move} {k : ℕ} {p : Serving}

/-- Before the server is started. -/
theorem kept_start : Kept {} := by
  constructor <;> simp [Acceptor.Hands, Serving.Serves]

/-- And `stop` has nothing to do yet. -/
theorem phase_start : Phase {} := by simp [Phase]

/-! ## What the steps are made of

Each effect of a step is kept on its own: a thread goes on, a socket is closed, a table is
changed. -/

/-- A session goes on to a place where it has a socket as well. -/
theorem Kept.goTo (h : x.Kept) (hk : (x.sessions k).Serves) (hp : p.Serves) :
    (x.goTo k p).Kept := by
  obtain ⟨fresh, handed, listed, alive, nodup, threaded, born, opened⟩ := h
  unfold Lifecycle.goTo
  constructor <;> grind [Function.update_apply, Serving.Serves]

/-- `accept_loop` has no connection in its hands, before and after. -/
theorem Kept.rehand {a : Acceptor} (h : x.Kept) (hx : ∀ k, ¬ x.acceptor.Hands k)
    (ha : ∀ k, ¬ a.Hands k) (running listening : Bool) (stopper : Stopper) :
    Kept { x with running, listening, acceptor := a, stopper } := by
  obtain ⟨fresh, handed, listed, alive, nodup, threaded, born, opened⟩ := h
  constructor <;> grind [Acceptor.Hands]

/-- `stop` closes a socket. -/
theorem Kept.close (h : x.Kept) (k : ℕ) (stopper : Stopper) :
    Kept { x with isOpen := Function.update x.isOpen k false, stopper } := by
  obtain ⟨fresh, handed, listed, alive, nodup, threaded, born, opened⟩ := h
  constructor <;> grind [Function.update_apply]

/-- `session_sockets_` is emptied when they are all closed. -/
theorem Kept.clearSockets (h : x.Kept) (hclosed : ∀ k ∈ x.sockets, x.isOpen k = false)
    (stopper : Stopper) : Kept { x with sockets := [], stopper } := by
  refine ⟨h.fresh, h.handed, fun k hk => .inr ?_, fun k hk => absurd hk List.not_mem_nil,
    List.nodup_nil,
    h.threaded, h.born, h.opened⟩
  exact (h.listed k hk).elim (hclosed k) id

/-- `session_threads_` is emptied when they have all ended. -/
theorem Kept.clearThreads (h : x.Kept) (hended : ∀ k ∈ x.threads, x.sessions k = .ended)
    (stopper : Stopper) : Kept { x with threads := [], stopper } := by
  refine ⟨h.fresh, h.handed, h.listed, h.alive, h.nodup, fun k => .inr ?_,
    fun k hk => absurd hk List.not_mem_nil, h.opened⟩
  exact (h.threaded k).elim (fun hk => .inr (hended k hk)) id

/-- A socket is open, and nobody's but `accept_loop`'s. -/
theorem Kept.accept (h : x.Kept) (hacc : x.acceptor = .accepting) :
    Kept { x with
      acceptor := .registering x.nextSessionId
      nextSessionId := x.nextSessionId + 1
      isOpen := Function.update x.isOpen x.nextSessionId true } := by
  obtain ⟨fresh, handed, listed, alive, nodup, threaded, born, opened⟩ := h
  constructor <;> grind [Acceptor.Hands, Serving.Serves, Function.update_apply]

/-- The socket is in `session_sockets_` before its thread runs. -/
theorem Kept.register (h : x.Kept) (hacc : x.acceptor = .registering k) :
    Kept { x with sockets := x.sockets ++ [k], acceptor := .spawning k } := by
  have hunborn := (h.handed k (.inl hacc)).2
  have hnew : k ∉ x.sockets := fun hk => by
    have hspawn := (h.alive k hk).2 hunborn
    rw [hacc] at hspawn
    cases hspawn
  obtain ⟨fresh, handed, listed, alive, nodup, threaded, born, opened⟩ := h
  constructor <;> grind [Acceptor.Hands]

/-- The thread is in `session_threads_` as soon as it runs. -/
theorem Kept.spawn (h : x.Kept) (hacc : x.acceptor = .spawning k) :
    Kept { x.goTo k .testing with threads := x.threads ++ [k], acceptor := .testing } := by
  obtain ⟨fresh, handed, listed, alive, nodup, threaded, born, opened⟩ := h
  unfold Lifecycle.goTo
  constructor <;> grind [Function.update_apply, Serving.Serves, Acceptor.Hands]

/-- A session closes its socket: from now on nobody has it open. -/
theorem Kept.leave (h : x.Kept) (hk : x.sessions k = .closing) :
    Kept { x.goTo k .erasing with isOpen := Function.update x.isOpen k false } := by
  obtain ⟨fresh, handed, listed, alive, nodup, threaded, born, opened⟩ := h
  unfold Lifecycle.goTo
  constructor <;> grind [Function.update_apply, Serving.Serves]

/-- And it ends when `session_sockets_` has forgotten it. -/
theorem Kept.erase (h : x.Kept) (hk : x.sessions k = .erasing) :
    Kept { x.goTo k .ended with sockets := x.sockets.erase k } := by
  obtain ⟨fresh, handed, listed, alive, nodup, threaded, born, opened⟩ := h
  unfold Lifecycle.goTo
  constructor <;> grind [Function.update_apply, Serving.Serves]

/-- It may begin to wait only while the server runs. -/
theorem Phase.goTo (h : x.Phase) (hk : x.sessions k ≠ .ended)
    (hp : p.Waits → (x.sessions k).Waits ∨ x.running = true) : (x.goTo k p).Phase := by
  unfold Lifecycle.goTo
  unfold Phase at h ⊢
  cases hstop : x.stopper <;> rw [hstop] at h <;> grind [Quiet, Function.update_apply]

/-- `accept_loop` goes on, and has not ended. -/
theorem Phase.rehand {a : Acceptor} (h : x.Phase) (hx : x.acceptor ≠ .off) (ha : a ≠ .off) :
    Phase { x with acceptor := a } := by
  unfold Phase at h ⊢
  cases hstop : x.stopper with
  | idle =>
    rw [hstop] at h
    exact ⟨fun _ => ha, fun hrun => absurd (h.2 hrun).1 hx⟩
  | closing =>
    rw [hstop] at h
    exact ⟨h.1, ha⟩
  | locking | sweeping _ | joiningAccept =>
    rw [hstop] at h
    exact ⟨h.1, ha, h.2.2⟩
  | joining rest =>
    rw [hstop] at h
    exact absurd h.2.1 hx

/-- A socket that is closed is one less to wait on. -/
theorem Phase.close (h : x.Phase) (k : ℕ) :
    Phase { x with isOpen := Function.update x.isOpen k false } := by
  unfold Phase at h ⊢
  cases hstop : x.stopper <;> rw [hstop] at h <;> grind [Quiet, Function.update_apply]

/-- A socket is open, and nobody waits on it yet. -/
theorem Phase.accept (h : x.Phase) (hx : x.Kept) (hacc : x.acceptor = .accepting) :
    Phase { x with
      acceptor := .registering x.nextSessionId
      nextSessionId := x.nextSessionId + 1
      isOpen := Function.update x.isOpen x.nextSessionId true } := by
  have hunborn := (hx.fresh _ le_rfl).1
  have hquiet : x.Quiet → ∀ k, (x.sessions k).Waits →
      Function.update x.isOpen x.nextSessionId true k = false := fun hquiet k hk => by
    have hne : k ≠ x.nextSessionId := fun heq => hk.serves.1 (heq ▸ hunborn)
    rw [Function.update_of_ne hne, hquiet k hk]
  have hunlisted : x.nextSessionId ∉ x.sockets := fun hk => by
    have hspawn := (hx.alive _ hk).2 hunborn
    rw [hacc] at hspawn
    cases hspawn
  unfold Phase at h ⊢
  cases hstop : x.stopper with
  | idle =>
    rw [hstop] at h
    refine ⟨fun _ => by simp, fun hrun => ?_⟩
    rw [(h.2 hrun).1] at hacc
    cases hacc
  | closing =>
    rw [hstop] at h
    exact ⟨h.1, by simp⟩
  | locking =>
    rw [hstop] at h
    exact ⟨h.1, by simp, h.2.2⟩
  | sweeping rest =>
    rw [hstop] at h
    obtain ⟨hrun, -, hlis, hsuf, hrest⟩ := h
    refine ⟨hrun, by simp, hlis, hsuf, fun k hk => (hrest k hk).imp_right fun hclosed => ?_⟩
    have hne : k ≠ x.nextSessionId := fun heq => hunlisted (heq ▸ hk)
    exact (Function.update_of_ne hne ..).trans hclosed
  | joiningAccept =>
    rw [hstop] at h
    exact ⟨h.1, by simp, h.2.2.1, hquiet h.2.2.2⟩
  | joining rest =>
    rw [hstop] at h
    rw [h.2.1] at hacc
    cases hacc

/-- Whoever has the lock of `session_sockets_`, it is not `stop`. -/
theorem Phase.withSockets (h : x.Phase) (hfree : x.locked = false) (sockets : List ℕ) :
    Phase { x with sockets } := by
  unfold Phase at h ⊢
  unfold locked at hfree
  cases hstop : x.stopper with
  | sweeping rest =>
    rw [hstop] at hfree
    cases hfree
  | idle | closing | locking | joiningAccept | joining _ =>
    rw [hstop] at h
    exact h

/-- A thread starts, and does not wait yet; nobody is joining. -/
theorem Phase.spawn (h : x.Phase) (hacc : x.acceptor = .spawning k) :
    Phase { x.goTo k .testing with threads := x.threads ++ [k], acceptor := .testing } := by
  unfold Lifecycle.goTo
  unfold Phase at h ⊢
  cases hstop : x.stopper <;> rw [hstop] at h <;> grind [Quiet, Serving.Waits,
    Function.update_apply]

/-! ## The threads

`stop` itself, `accept_loop`, and the end of `session_loop`. -/

/-- The steps of `stop` keep the tables right. -/
theorem Kept.stopOn (h : x.Kept) (hp : x.Phase) (hs : x.stopOn = some y) : y.Kept := by
  unfold Phase at hp
  unfold Lifecycle.stopOn at hs
  cases hstop : x.stopper with
  | idle =>
    rw [hstop] at hs
    cases hs
  | closing | locking =>
    rw [hstop] at hs
    cases hs
    exact ⟨h.fresh, h.handed, h.listed, h.alive, h.nodup, h.threaded, h.born, h.opened⟩
  | sweeping rest =>
    rw [hstop] at hp hs
    cases rest with
    | nil =>
      cases hs
      exact h.clearSockets (fun k hk => (hp.2.2.2.2 k hk).resolve_left List.not_mem_nil) _
    | cons k rest =>
      cases hs
      exact h.close k _
  | joiningAccept =>
    rw [hstop] at hs
    obtain ⟨hacc, hs⟩ := Option.ite_none_right_eq_some.mp hs
    cases hs
    exact h.rehand (by simp [Acceptor.Hands, hacc]) (by simp [Acceptor.Hands])
      x.running x.listening _
  | joining rest =>
    rw [hstop] at hp hs
    cases rest with
    | nil =>
      cases hs
      exact h.clearThreads (fun k hk => (hp.2.2.2.2.2 k hk).resolve_left List.not_mem_nil) _
    | cons k rest =>
      obtain ⟨-, hs⟩ := Option.ite_none_right_eq_some.mp hs
      cases hs
      exact ⟨h.fresh, h.handed, h.listed, h.alive, h.nodup, h.threaded, h.born, h.opened⟩

/-- **And each of them achieves what the next one needs.** -/
theorem Phase.stopOn (h : x.Phase) (hx : x.Kept) (hs : x.stopOn = some y) : y.Phase := by
  unfold Phase at h
  unfold Lifecycle.stopOn at hs
  cases hstop : x.stopper with
  | idle =>
    rw [hstop] at hs
    cases hs
  | closing =>
    rw [hstop] at h hs
    cases hs
    exact ⟨h.1, h.2, rfl⟩
  | locking =>
    rw [hstop] at h hs
    cases hs
    exact ⟨h.1, h.2.1, h.2.2, List.suffix_refl _, fun k hk => .inl hk⟩
  | sweeping rest =>
    rw [hstop] at h hs
    obtain ⟨hrun, hacc, hlis, hsuf, hrest⟩ := h
    cases rest with
    | nil =>
      cases hs
      refine ⟨hrun, hacc, hlis, fun k hk => ?_⟩
      -- whoever waits is listed, and what is listed is closed
      rcases hx.listed k (.inl hk.serves) with hmem | hclosed
      · exact (hrest k hmem).resolve_left List.not_mem_nil
      · exact hclosed
    | cons k rest =>
      cases hs
      refine ⟨hrun, hacc, hlis, (List.suffix_cons k rest).trans hsuf, fun k' hk' => ?_⟩
      by_cases heq : k' = k
      · exact .inr (heq ▸ Function.update_self ..)
      · rcases hrest k' hk' with hmem | hclosed
        · exact .inl ((List.mem_cons.mp hmem).resolve_left heq)
        · exact .inr ((Function.update_of_ne heq ..).trans hclosed)
  | joiningAccept =>
    rw [hstop] at h hs
    obtain ⟨hrun, -, hlis, hquiet⟩ := h
    obtain ⟨-, hs⟩ := Option.ite_none_right_eq_some.mp hs
    cases hs
    exact ⟨hrun, rfl, hlis, hquiet, List.suffix_refl _, fun k hk => .inl hk⟩
  | joining rest =>
    rw [hstop] at h hs
    obtain ⟨hrun, hacc, hlis, hquiet, hsuf, hrest⟩ := h
    cases rest with
    | nil =>
      cases hs
      exact ⟨fun hrun' => absurd (hrun.symm.trans hrun') Bool.false_ne_true,
        fun _ => ⟨hacc, hlis, rfl⟩⟩
    | cons k rest =>
      obtain ⟨hover, hs⟩ := Option.ite_none_right_eq_some.mp hs
      cases hs
      refine ⟨hrun, hacc, hlis, hquiet, (List.suffix_cons k rest).trans hsuf, fun k' hk' => ?_⟩
      rcases hrest k' hk' with hmem | hover'
      · exact (List.mem_cons.mp hmem).symm.imp id fun heq => by rwa [heq]
      · exact .inr hover'

/-- The steps of `accept_loop`. -/
theorem acceptOn_cases (hs : x.acceptOn = some y) :
    (x.acceptor = .testing
      ∧ y = { x with acceptor := if x.running then Acceptor.accepting else Acceptor.ended }) ∨
    (∃ k, x.acceptor = .registering k ∧ x.locked = false
      ∧ y = { x with sockets := x.sockets ++ [k], acceptor := .spawning k }) ∨
    ∃ k, x.acceptor = .spawning k
      ∧ y = { x.goTo k .testing with threads := x.threads ++ [k], acceptor := .testing } := by
  unfold Lifecycle.acceptOn at hs
  cases hacc : x.acceptor with
  | testing =>
    rw [hacc] at hs
    exact .inl ⟨rfl, (Option.some.inj hs).symm⟩
  | registering k =>
    rw [hacc] at hs
    obtain ⟨hfree, hs⟩ := Option.ite_none_left_eq_some.mp hs
    exact .inr (.inl ⟨k, rfl, by simpa using hfree, (Option.some.inj hs).symm⟩)
  | spawning k =>
    rw [hacc] at hs
    exact .inr (.inr ⟨k, rfl, (Option.some.inj hs).symm⟩)
  | off | accepting | ended =>
    rw [hacc] at hs
    cases hs

/-- The steps with which a session ends. -/
theorem leaveOn_cases (hs : x.leaveOn k = some y) :
    (x.sessions k = .closing
      ∧ y = { x.goTo k .erasing with isOpen := Function.update x.isOpen k false }) ∨
    (x.sessions k = .erasing ∧ x.locked = false
      ∧ y = { x.goTo k .ended with sockets := x.sockets.erase k }) := by
  unfold Lifecycle.leaveOn at hs
  cases hk : x.sessions k with
  | closing =>
    rw [hk] at hs
    exact .inl ⟨rfl, (Option.some.inj hs).symm⟩
  | erasing =>
    rw [hk] at hs
    obtain ⟨hfree, hs⟩ := Option.ite_none_left_eq_some.mp hs
    exact .inr ⟨rfl, by simpa using hfree, (Option.some.inj hs).symm⟩
  | unborn | testing | reading | working | sending | ended =>
    rw [hk] at hs
    cases hs

theorem Kept.acceptOn (h : x.Kept) (hs : x.acceptOn = some y) : y.Kept := by
  obtain ⟨hacc, rfl⟩ | ⟨k, hacc, -, rfl⟩ | ⟨k, hacc, rfl⟩ := acceptOn_cases hs
  · refine h.rehand (by simp [Acceptor.Hands, hacc]) (fun k => ?_) x.running x.listening x.stopper
    split_ifs <;> simp [Acceptor.Hands]
  · exact h.register hacc
  · exact h.spawn hacc

theorem Phase.acceptOn (h : x.Phase) (hs : x.acceptOn = some y) : y.Phase := by
  obtain ⟨hacc, rfl⟩ | ⟨k, hacc, hfree, rfl⟩ | ⟨k, hacc, rfl⟩ := acceptOn_cases hs
  · refine h.rehand (by simp [hacc]) ?_
    split_ifs <;> decide
  · have hon : x.acceptor ≠ .off := by simp [hacc]
    exact (h.withSockets hfree (x.sockets ++ [k])).rehand (a := .spawning k) hon (by simp)
  · exact h.spawn hacc

theorem Kept.leaveOn (h : x.Kept) (hs : x.leaveOn k = some y) : y.Kept := by
  obtain ⟨hk, rfl⟩ | ⟨hk, -, rfl⟩ := leaveOn_cases hs
  · exact h.leave hk
  · exact h.erase hk

theorem Phase.leaveOn (h : x.Phase) (hs : x.leaveOn k = some y) : y.Phase := by
  have hnot : ∀ {p : Serving}, p = .erasing ∨ p = .ended →
      p.Waits → (x.sessions k).Waits ∨ x.running = true := by
    rintro p (rfl | rfl) (hp | hp | hp) <;> cases hp
  obtain ⟨hk, rfl⟩ | ⟨hk, hfree, rfl⟩ := leaveOn_cases hs
  · exact (h.goTo (by simp [hk]) (hnot (.inl rfl))).close k
  · exact (h.goTo (by simp [hk]) (hnot (.inr rfl))).withSockets hfree _

/-! ## One step

Whoever takes it, the tables stay right and `stop` loses no ground. -/

/-- **What a step does.** -/
theorem step_cases (hs : step x m = some y) :
    (x.stopper = .idle ∧ (y = x ∨
      x.running = false ∧ y = { x with running := true, listening := true, acceptor := .testing } ∨
      x.running = true ∧ y = { x with running := false, stopper := .closing })) ∨
    x.stopOn = some y ∨ x.acceptOn = some y ∨ (∃ k, x.leaveOn k = some y) ∨
    (x.acceptor = .accepting ∧ (y = { x with acceptor := .ended } ∨ y = { x with
      acceptor := .registering x.nextSessionId
      nextSessionId := x.nextSessionId + 1
      isOpen := Function.update x.isOpen x.nextSessionId true })) ∨
    ∃ k p, (x.sessions k).Serves ∧ p.Serves ∧ (p.Waits → (x.sessions k).Waits ∨ x.running = true) ∧
      (x.running = false → p.rank < (x.sessions k).rank) ∧ x.goTo k p = y := by
  cases m with
  | start => grind [step]
  | stop => grind [step]
  | owner => exact .inr (.inl hs)
  | accept => exact .inr (.inr (.inl hs))
  | leave k => exact .inr (.inr (.inr (.inl ⟨k, hs⟩)))
  | accepted => grind [step]
  | acceptFails => grind [step]
  | acceptError => grind [step]
  | test k _ | received k | recvFails k | hangup k | worked k _ _ | sent k | sendFails k =>
    obtain ⟨hk, hs⟩ := Option.ite_none_right_eq_some.mp hs
    refine .inr (.inr (.inr (.inr (.inr ⟨k, _, ?_, ?_, ?_, ?_, Option.some.inj hs⟩)))) <;>
      grind [Serving.Serves, Serving.Waits, Serving.rank]

/-- **Every step keeps the tables right.** -/
theorem Kept.step (hx : x.Kept) (h : x.Phase) (hs : step x m = some y) : y.Kept := by
  obtain ⟨hidle, rfl | ⟨hrun, rfl⟩ | ⟨-, rfl⟩⟩ | hs | hs | ⟨k, hs⟩ | ⟨hacc, rfl | rfl⟩ |
    ⟨k, p, hk, hp, -, -, rfl⟩ := step_cases hs
  · exact hx
  · unfold Phase at h
    rw [hidle] at h
    have hoff := (h.2 hrun).1
    exact hx.rehand (by simp [Acceptor.Hands, hoff]) (by simp [Acceptor.Hands]) ..
  · exact ⟨hx.fresh, hx.handed, hx.listed, hx.alive, hx.nodup, hx.threaded, hx.born, hx.opened⟩
  · exact hx.stopOn h hs
  · exact hx.acceptOn hs
  · exact hx.leaveOn hs
  · exact hx.rehand (by simp [Acceptor.Hands, hacc]) (by simp [Acceptor.Hands]) ..
  · exact hx.accept hacc
  · exact hx.goTo hk hp

/-- **And nobody undoes what `stop` has achieved.** -/
theorem Phase.step (h : x.Phase) (hx : x.Kept) (hs : step x m = some y) : y.Phase := by
  obtain ⟨hidle, rfl | ⟨hrun, rfl⟩ | ⟨hrun, rfl⟩⟩ | hs | hs | ⟨k, hs⟩ | ⟨hacc, rfl | rfl⟩ |
    ⟨k, p, hk, -, hwaits, -, rfl⟩ := step_cases hs
  · exact h
  · simp [Phase, hidle]
  · unfold Phase at h
    rw [hidle] at h
    exact ⟨rfl, h.1 hrun⟩
  · exact h.stopOn hx hs
  · exact h.acceptOn hs
  · exact h.leaveOn hs
  · exact h.rehand (a := .ended) (by simp [hacc]) (by simp)
  · exact h.accept hx hacc
  · exact h.goTo hk.2.2 hwaits

/-! ## What `stop` can be kept waiting by

By the time it joins a thread, that thread has nothing to wait for but the end of a call on a socket
that is closed. -/

/-- **`stop` waits for a call on a socket it has closed**, in the join of the thread that is in the
call. -/
inductive Blocked (x : Lifecycle) : Prop
  | accept : x.stopper = .joiningAccept → x.acceptor = .accepting → x.listening = false → Blocked x
  | session {k : ℕ} {rest : List ℕ} : x.stopper = .joining (k :: rest) →
      x.sessions k = .reading ∨ x.sessions k = .sending → x.isOpen k = false → Blocked x

/-- It is enough that the platform ends the call. -/
theorem Blocked.exists_wakes (h : x.Blocked) : ∃ m : Move, m.Wakes ∧ (step x m).isSome := by
  cases h with
  | accept _ hacc hlis => exact ⟨.acceptFails, trivial, by simp [Lifecycle.step, hacc, hlis]⟩
  | @session k _ _ hk hclosed =>
    rcases hk with hk | hk
    · exact ⟨.recvFails k, trivial, by simp [Lifecycle.step, hk, hclosed]⟩
    · exact ⟨.sendFails k, trivial, by simp [Lifecycle.step, hk, hclosed]⟩

/-- **Otherwise the server goes on by itself.** -/
theorem own_or_blocked (hx : x.Kept) (h : x.Phase) (hstop : x.stopper ≠ .idle) :
    (∃ m : Move, m.Own ∧ (step x m).isSome) ∨ x.Blocked := by
  unfold Phase at h
  cases hs : x.stopper with
  | idle => exact absurd hs hstop
  | closing | locking =>
    exact .inl ⟨.owner, trivial, by simp [Lifecycle.step, Lifecycle.stopOn, hs]⟩
  | sweeping rest =>
    refine .inl ⟨.owner, trivial, ?_⟩
    cases rest <;> simp [Lifecycle.step, Lifecycle.stopOn, hs]
  | joiningAccept =>
    rw [hs] at h
    cases hacc : x.acceptor with
    | off => exact absurd hacc h.2.1
    | ended =>
      exact .inl ⟨.owner, trivial, by simp [Lifecycle.step, Lifecycle.stopOn, hs, hacc]⟩
    | accepting => exact .inr (.accept hs hacc h.2.2.1)
    | testing | registering k | spawning k =>
      exact .inl ⟨.accept, trivial, by simp [Lifecycle.step, Lifecycle.acceptOn, locked, hs, hacc]⟩
  | joining rest =>
    rw [hs] at h
    obtain ⟨-, -, -, hquiet, hsuf, -⟩ := h
    cases rest with
    | nil => exact .inl ⟨.owner, trivial, by simp [Lifecycle.step, Lifecycle.stopOn, hs]⟩
    | cons k rest =>
      have hborn := hx.born k (hsuf.subset (List.mem_cons_self ..))
      cases hk : x.sessions k with
      | unborn => exact absurd hk hborn
      | ended =>
        exact .inl ⟨.owner, trivial, by simp [Lifecycle.step, Lifecycle.stopOn, hs, hk]⟩
      | testing => exact .inl ⟨.test k false, trivial, by simp [Lifecycle.step, hk]⟩
      | reading => exact .inr (.session hs (.inl hk) (hquiet k (.inl hk)))
      | working => exact .inl ⟨.worked k false false, trivial, by simp [Lifecycle.step, hk]⟩
      | sending => exact .inr (.session hs (.inr hk) (hquiet k (.inr (.inr hk))))
      | closing | erasing =>
        exact .inl ⟨.leave k, trivial, by simp [Lifecycle.step, Lifecycle.leaveOn, locked, hs, hk]⟩

/-! ## …and comes to its end

A count of all there is left to do. Each step of the server lowers it once `stop` is under way, and
it is bounded by the number of threads. -/

/-- **All there is to do** until `stop` returns. -/
def rank (x : Lifecycle) : ℕ :=
  x.stopper.rank x.sockets.length x.threads.length + x.acceptor.rank
    + (x.threads.map fun k => (x.sessions k).rank).sum

/-- A session that goes on has less before it. -/
theorem sum_goTo_lt (hk : k ∈ x.threads) (hp : p.rank < (x.sessions k).rank) :
    (x.threads.map fun j => ((x.goTo k p).sessions j).rank).sum
      < (x.threads.map fun j => (x.sessions j).rank).sum := by
  refine List.sum_lt_sum _ _ (fun j _ => ?_) ⟨k, hk, ?_⟩
  · by_cases hj : j = k
    · subst hj
      simpa [Lifecycle.goTo] using hp.le
    · simp [Lifecycle.goTo, hj]
  · simpa [Lifecycle.goTo] using hp

/-- A thread of the table that goes on has less to do. -/
theorem rank_goTo (hk : k ∈ x.threads) (hp : p.rank < (x.sessions k).rank) :
    (x.goTo k p).rank < x.rank := Nat.add_lt_add_left (sum_goTo_lt hk hp) _

/-- So has `stop`. -/
theorem rank_stopOn (hs : x.stopOn = some y) : y.rank < x.rank := by
  unfold Lifecycle.stopOn at hs
  cases hstop : x.stopper with
  | idle =>
    rw [hstop] at hs
    cases hs
  | closing | locking =>
    rw [hstop] at hs
    cases hs
    simp only [rank, hstop, Stopper.rank]
    omega
  | sweeping rest =>
    rw [hstop] at hs
    cases rest <;> cases hs <;> simp only [rank, hstop, Stopper.rank, List.length_cons,
      List.length_nil]
      <;> omega
  | joiningAccept =>
    rw [hstop] at hs
    obtain ⟨hacc, hs⟩ := Option.ite_none_right_eq_some.mp hs
    cases hs
    simp only [rank, hstop, hacc, Stopper.rank, Acceptor.rank]
    omega
  | joining rest =>
    rw [hstop] at hs
    cases rest with
    | nil =>
      cases hs
      simp only [rank, hstop, Stopper.rank, List.length_nil, List.map_nil, List.sum_nil]
      omega
    | cons k rest =>
      obtain ⟨-, hs⟩ := Option.ite_none_right_eq_some.mp hs
      cases hs
      simp [rank, hstop, Stopper.rank]

/-- And `accept_loop`, once it is told to end. -/
theorem rank_acceptOn (hx : x.Kept) (hrun : x.running = false) (hs : x.acceptOn = some y) :
    y.rank < x.rank := by
  obtain ⟨hacc, rfl⟩ | ⟨k, hacc, -, rfl⟩ | ⟨k, hacc, rfl⟩ := acceptOn_cases hs
  · simp [rank, Acceptor.rank, hacc, hrun]
  · have hstop := x.stopper.rank_succ_left x.sockets.length x.threads.length
    simp only [rank, hacc, Acceptor.rank, List.length_append, List.length_singleton]
    omega
  · have hunborn := (hx.handed k (.inr hacc)).2
    have hstop := x.stopper.rank_succ_right x.sockets.length x.threads.length
    have hsame : ∀ j ∈ x.threads, Function.update x.sessions k .testing j = x.sessions j :=
      fun j hj => Function.update_of_ne (fun hjk : j = k => hx.born k (hjk ▸ hj) hunborn) ..
    have hsum : (x.threads.map fun j => (Function.update x.sessions k .testing j).rank).sum
        = (x.threads.map fun j => (x.sessions j).rank).sum :=
      congrArg List.sum (List.map_congr_left fun j hj => by rw [hsame j hj])
    have hnew : (Function.update x.sessions k .testing k).rank = 3 := by
      rw [Function.update_self]
      rfl
    simp only [rank, hacc, Acceptor.rank, Lifecycle.goTo, List.length_append, List.length_singleton,
      List.map_append, List.sum_append, hsum, List.map_singleton, List.sum_singleton, hnew]
    omega

/-- And a session that leaves. -/
theorem rank_leaveOn (hx : x.Kept) (hs : x.leaveOn k = some y) : y.rank < x.rank := by
  obtain ⟨hk, rfl⟩ | ⟨hk, -, rfl⟩ := leaveOn_cases hs
  · have hmem : k ∈ x.threads := (hx.threaded k).resolve_right (by simp [hk])
    exact rank_goTo (p := .erasing) hmem (by rw [hk]; decide)
  · have hmem : k ∈ x.threads := (hx.threaded k).resolve_right (by simp [hk])
    have hlt := rank_goTo (x := x) (p := .ended) hmem (by rw [hk]; decide)
    have hstop := x.stopper.rank_mono (List.length_erase_le (l := x.sockets) (a := k))
      (le_refl x.threads.length)
    exact lt_of_le_of_lt (Nat.add_le_add_right (Nat.add_le_add_right hstop _) _) hlt

/-- **Every step brings `stop` nearer to its end**, whoever takes it. -/
theorem rank_lt (hx : x.Kept) (h : x.Phase) (hstop : x.stopper ≠ .idle) (hs : step x m = some y) :
    y.rank < x.rank := by
  have hrun : x.running = false := by
    unfold Phase at h
    cases hs : x.stopper <;> rw [hs] at h <;> first | exact h.1 | exact absurd hs hstop
  obtain ⟨hidle, -⟩ | hs | hs | ⟨k, hs⟩ | ⟨hacc, rfl | rfl⟩ | ⟨k, p, hk, -, -, hp, rfl⟩ :=
    step_cases hs
  · exact absurd hidle hstop
  · exact rank_stopOn hs
  · exact rank_acceptOn hx hrun hs
  · exact rank_leaveOn hx hs
  · simp [rank, Acceptor.rank, hacc]
  · simp [rank, Acceptor.rank, hacc]
  · exact rank_goTo ((hx.threaded k).resolve_right (by grind [Serving.Serves])) (hp hrun)

/-- A socket that is listed is a thread's, or one is about to start for it. -/
theorem Kept.length_sockets_le (hx : x.Kept) : x.sockets.length ≤ x.threads.length + 1 := by
  have hmem : ∀ k ∈ x.sockets, k ∈ x.threads ∨ x.acceptor = .spawning k := fun k hk =>
    (hx.threaded k).imp_right fun hnone =>
      (hx.alive k hk).2 (hnone.resolve_right (hx.alive k hk).1)
  by_cases hspawn : ∃ k, x.acceptor = .spawning k
  · obtain ⟨k, hk⟩ := hspawn
    have hsub : x.sockets ⊆ x.threads ++ [k] := fun j hj => by
      rcases hmem j hj with hj | hj
      · exact List.mem_append_left _ hj
      · obtain rfl := Acceptor.spawning.inj (hk.symm.trans hj)
        exact List.mem_append_right _ (List.mem_singleton_self _)
    simpa using (hx.nodup.subperm hsub).length_le
  · have hsub : x.sockets ⊆ x.threads := fun j hj =>
      (hmem j hj).resolve_right fun hj => hspawn ⟨j, hj⟩
    exact ((hx.nodup.subperm hsub).length_le).trans (Nat.le_succ _)

/-- Eight steps for each thread, and a few. -/
theorem rank_le (hx : x.Kept) (h : x.Phase) : x.rank ≤ 8 * x.threads.length + 15 := by
  have hsockets := hx.length_sockets_le
  have hstop : x.stopper.rank x.sockets.length x.threads.length ≤ 2 * x.threads.length + 6 := by
    unfold Phase at h
    cases hs : x.stopper with
    | sweeping rest =>
      rw [hs] at h
      have hle := h.2.2.2.1.length_le
      simp only [Stopper.rank]
      omega
    | joining rest =>
      rw [hs] at h
      have hle := h.2.2.2.2.1.length_le
      simp only [Stopper.rank]
      omega
    | _ => simp only [Stopper.rank]; omega
  have hacc : x.acceptor.rank ≤ 9 := by cases x.acceptor <;> simp [Acceptor.rank]
  have hsum : (x.threads.map fun k => (x.sessions k).rank).sum ≤ 6 * x.threads.length := by
    have hle := List.sum_le_card_nsmul (x.threads.map fun k => (x.sessions k).rank) 6 (by
      rintro n hn
      obtain ⟨k, -, rfl⟩ := List.mem_map.mp hn
      cases x.sessions k <;> simp [Serving.rank])
    simpa [mul_comm] using hle
  unfold rank
  omega

/-! ## The life of a server

It can be started and stopped any number of times, and sessions come and go in between. -/

/-- **Nothing is left**: no thread, no socket. -/
structure Stopped (x : Lifecycle) : Prop where
  /-- `accept_loop` is joined. -/
  acceptor : x.acceptor = .off
  /-- Nobody can connect. -/
  listening : x.listening = false
  /-- No socket is listed, -/
  sockets : x.sockets = []
  /-- and no thread is left to be joined. -/
  threads : x.threads = []
  /-- No session is under way. -/
  sessions : ∀ k, x.sessions k = .unborn ∨ x.sessions k = .ended
  /-- **No socket is open.** -/
  isOpen : ∀ k, x.isOpen k = false

/-- When `stop` has returned, this is so. -/
theorem stopped_of_idle (hx : x.Kept) (h : x.Phase) (hstop : x.stopper = .idle)
    (hrun : x.running = false) : x.Stopped := by
  unfold Phase at h
  rw [hstop] at h
  obtain ⟨hoff, hlis, hthreads⟩ := h.2 hrun
  have hsessions : ∀ k, x.sessions k = .unborn ∨ x.sessions k = .ended := fun k =>
    (hx.threaded k).resolve_left (by simp [hthreads])
  refine ⟨hoff, hlis, List.eq_nil_iff_forall_not_mem.mpr fun k hk => ?_, hthreads, hsessions,
    fun k => ?_⟩
  · obtain ⟨hover, hspawn⟩ := hx.alive k hk
    have hacc := hspawn ((hsessions k).resolve_right hover)
    rw [hoff] at hacc
    cases hacc
  · by_contra hopen
    rcases hx.opened k (by simpa using hopen) with hhands | hserves
    · rw [hoff] at hhands
      rcases hhands with hacc | hacc <;> cases hacc
    · exact (hsessions k).elim hserves.1 hserves.2.2

/-- Both hold in every state there is. -/
theorem kept_of_reach (h : Guarded.Reach step (fun _ _ => True) {} x) : x.Kept ∧ x.Phase :=
  h.invariant (I := fun x => x.Kept ∧ x.Phase) ⟨kept_start, phase_start⟩
    fun _ _ _ hI _ hs => ⟨hI.1.step hI.2 hs, hI.2.step hI.1 hs⟩

/-- **`stop` returns, and leaves nothing behind**, on a platform that ends a call on a socket that
is closed.  At any time a socket that is open is in `session_sockets_`, or just accepted.  As long
as `stop` has not returned some thread of the server can go on without anybody outside, or `stop`
waits for a call on a socket it has closed, and then it is enough that the platform ends that call.
However the threads take turns, together they take at most eight steps for each session and a few
more, the platform's and those of whoever is outside included.  When `stop` has returned the server
is as it was before it was started. -/
theorem stopped_of_reach (h : Guarded.Reach step (fun _ _ => True) {} x) :
    (∀ k, x.isOpen k → k ∈ x.sockets ∨ x.acceptor = .registering k) ∧
    (x.stopper ≠ .idle →
      ((∃ m : Move, m.Own ∧ (step x m).isSome)
        ∨ x.Blocked ∧ ∃ m : Move, m.Wakes ∧ (step x m).isSome) ∧
      ∀ L y, Guarded.Trace step (fun s _ => s.stopper ≠ .idle) (fun _ m => [m]) x L y →
        L.length ≤ 8 * x.threads.length + 15) ∧
    (x.stopper = .idle → x.running = false → x.Stopped) := by
  obtain ⟨hx, hphase⟩ := kept_of_reach h
  refine ⟨fun k hopen => ?_, fun hstop => ⟨?_, fun L y hL => ?_⟩, stopped_of_idle hx hphase⟩
  · have hnot : ¬ x.isOpen k = false := by simp [hopen]
    rcases hx.opened k hopen with (hreg | hspawn) | hserves
    · exact .inr hreg
    · exact .inl ((hx.listed k (.inr hspawn)).resolve_right hnot)
    · exact .inl ((hx.listed k (.inl hserves)).resolve_right hnot)
  · exact (own_or_blocked hx hphase hstop).imp_right fun hb => ⟨hb, hb.exists_wakes⟩
  · have hle : (y.Kept ∧ y.Phase) ∧ L.length + y.rank ≤ x.rank := by
      refine hL.invariant (I := fun L y => (y.Kept ∧ y.Phase) ∧ L.length + y.rank ≤ x.rank)
        ⟨⟨hx, hphase⟩, by simp⟩ fun L s m s' hI hok hs => ?_
      obtain ⟨⟨hxs, hps⟩, hle⟩ := hI
      have hlt := rank_lt hxs hps hok hs
      refine ⟨⟨hxs.step hps hs, hps.step hxs hs⟩, ?_⟩
      rw [List.length_append, List.length_singleton]
      omega
    have hbound := rank_le hx hphase
    omega

/-- Somebody has connected and is being sent to when the server is stopped. -/
theorem stopped_of_sending : ∃ x, Guarded.Reach step (fun _ _ => True) {} x ∧
    x.stopper = .closing ∧ x.sessions 1 = .sending ∧
    ∀ L y, Guarded.Trace step (fun s _ => s.stopper ≠ .idle) (fun _ m => [m]) x L y →
      L.length ≤ 23 := by
  have hrun : (Guarded.run step (fun _ _ => True) {} [.start, .accept, .accepted, .accept, .accept,
      .test 1 false, .received 1, .worked 1 false true, .stop]).map (fun x =>
        decide (x.stopper = .closing ∧ x.sessions 1 = .sending ∧ x.threads = [1])) = some true := by
    decide +kernel
  obtain ⟨x, hx, hdec⟩ := Option.map_eq_some_iff.mp hrun
  obtain ⟨hstop, hsending, hthreads⟩ := of_decide_eq_true hdec
  have hreach := Guarded.Reach.of_run hx
  refine ⟨x, hreach, hstop, hsending, fun L y hL => ?_⟩
  have hle := ((stopped_of_reach hreach).2.1 (by rw [hstop]; decide)).2 L y hL
  rwa [hthreads] at hle

/-- **And it does hang** where the platform ends no call: a server is started and stopped, nobody
ever connects, and `stop` waits for `accept_loop` with no step left that is the server's own. -/
theorem hangs_of_start : ∃ x, Guarded.Reach step (fun _ _ => True) {} x ∧ x.Blocked ∧
    ∀ m : Move, m.Own → step x m = none := by
  have hrun : Guarded.run step (fun _ _ => True) {} [.start, .accept, .stop, .owner, .owner, .owner]
      = some { acceptor := .accepting, stopper := .joiningAccept } := rfl
  refine ⟨_, Guarded.Reach.of_run hrun, .accept rfl rfl rfl, fun m hm => ?_⟩
  cases m with
  | owner | accept | test k _ | worked k _ _ | leave k => rfl
  | start | stop | accepted | acceptFails | acceptError | received _ | recvFails _ | hangup _
  | sent _ | sendFails _ => exact hm.elim

end Lifecycle

end Ordbk
