import Ordbk.Refinement.Tracked

/-!
# Refinement/Beginning — a thread takes a message

`Begins` lists what a turn can begin with: something that does not reach the engine, an order the
exhausted pool turns away, an order, or a cancel.  With each of them the threads stay tracked
(`Tracked.order`, `Tracked.cancel`).
-/

namespace Ordbk

namespace Server

/-! ## What a turn begins with

`begin` takes a message off the session and looks at its kind; only an order that gets a slot, and a
cancel, make the thread busy. -/

/-- **All that a turn can begin with.** -/
inductive Begins (x : Server) (k : ℕ) : Server → Prop
  /-- Nothing for the engine. -/
  | quiet {s : Session} (same : ∀ d : Dispatcher, d.turn (x.sessions k) = (d, s))
      (none : ∀ y : Exchange, y.sessions k = x.sessions k → y.trades (.turn k) = []) :
      Begins x k (x.after k x.dispatcher s .idle)
  /-- An order turned away by an exhausted pool. -/
  | full {m : NewOrderMsg} (pending : x.pending k = some (.newOrder m))
      (active : (x.sessions k).state = .active) (free : x.dispatcher.pool.freeSlots = []) :
      Begins x k (x.after k x.dispatcher
        ((x.sessions k).nextInbound.1.emit (.orderReject ⟨m.clientOrderId, .unknown⟩)) .idle)
  /-- An order, written into the slot on top of the free stack. -/
  | order {m : NewOrderMsg} {a : Slot} {pool : Pool} (pending : x.pending k = some (.newOrder m))
      (active : (x.sessions k).state = .active)
      (acquired : x.dispatcher.pool.acquire = some (a, pool)) :
      Begins x k
        { x.after k { x.dispatcher with pool := pool.write a (m.order (x.sessions k).clientId) }
            (x.sessions k).nextInbound.1 (.entering ⟨m, a, []⟩) with
          filled := Function.update x.filled a 0 }
  /-- A cancel. -/
  | cancel {m : CancelOrderMsg} (pending : x.pending k = some (.cancelOrder m))
      (active : (x.sessions k).state = .active) :
      Begins x k (x.after k x.dispatcher (x.sessions k).nextInbound.1 (.cancelling m))

variable {x : Server} {k : ℕ}

/-- A message that does not reach the engine. -/
theorem quiet_of_idle {body : MessageBody} (hp : x.pending k = some body)
    (h : (x.sessions k).state ≠ .active ∨ body.isOrder = false) :
    (∀ d : Dispatcher, d.turn (x.sessions k)
        = (d, (x.dispatcher.dispatch (x.sessions k).nextInbound.1 body).2))
      ∧ ∀ y : Exchange, y.sessions k = x.sessions k → y.trades (.turn k) = [] := by
  constructor
  · intro d
    refine (Exchange.turn_of_pending (x := ⟨d, x.sessions⟩) hp).trans
      (Prod.ext (d.dispatch_idle h) ?_)
    by_cases hb : body.isOrder = true
    · have hs : (x.sessions k).nextInbound.1.state ≠ .active := h.resolve_right (by simp [hb])
      simp only [Dispatcher.dispatch_refused _ hs hb]
    · cases body with
      | newOrder m => exact absurd rfl hb
      | cancelOrder m => exact absurd rfl hb
      | _ => rfl
  · intro y hy
    have hp' : y.pending k = some body := by
      unfold Exchange.pending
      rw [hy]
      exact hp
    simp only [Exchange.trades, hp', hy]
    cases body with
    | newOrder m => exact if_pos (h.resolve_right fun hb => by cases hb)
    | _ => rfl

/-- What the handlers begin with. -/
theorem begin_eq {s : Session} {msg : DecodedMessage}
    (hn : (x.sessions k).nextInbound = (s, some msg)) : x.begin k = match msg.body with
      | .newOrder m =>
        if s.state ≠ .active then
          x.after k x.dispatcher (s.emit (.orderReject ⟨m.clientOrderId, .notLoggedOn⟩)) .idle
        else match x.dispatcher.pool.acquire with
          | none => x.after k x.dispatcher (s.emit (.orderReject ⟨m.clientOrderId, .unknown⟩)) .idle
          | some (order, pool) =>
            { x.after k { x.dispatcher with pool := pool.write order (m.order s.clientId) } s
                (.entering ⟨m, order, []⟩) with filled := Function.update x.filled order 0 }
      | .cancelOrder m =>
        if s.state ≠ .active then
          x.after k x.dispatcher (s.emit (.orderReject ⟨m.clientOrderId, .notLoggedOn⟩)) .idle
        else x.after k x.dispatcher s (.cancelling m)
      | b => x.after k x.dispatcher (x.dispatcher.dispatch s b).2 .idle := by
  obtain ⟨header, body⟩ := msg
  unfold begin
  rw [hn]
  cases body <;> rfl

/-- No complete message: the turn is over. -/
theorem begin_eq_none {s : Session} (hn : (x.sessions k).nextInbound = (s, none)) :
    x.begin k = x.after k x.dispatcher s .idle := by
  unfold begin
  rw [hn]

/-- **The turn begins with one of these.** -/
theorem begins (x : Server) (k : ℕ) : Begins x k (x.begin k) := by
  have hpair := (Prod.mk.eta (p := (x.sessions k).nextInbound)).symm
  cases hn : (x.sessions k).nextInbound.2 with
  | none =>
    -- the bytes that are there make no message
    rw [hn] at hpair
    rw [begin_eq_none hpair]
    refine .quiet (fun d => Dispatcher.turn_of_none hn d) fun y hy => ?_
    have hp : y.pending k = none := by
      unfold Exchange.pending
      rw [hy, hn]
      rfl
    simp only [Exchange.trades, hp]
  | some msg =>
    rw [hn] at hpair
    have hp : x.pending k = some msg.body := congrArg (Option.map _) hn
    have hquiet := fun h => quiet_of_idle hp h
    rw [begin_eq hpair]
    generalize msg.body = body at hp hquiet
    -- a message that is no order, or comes before the logon, is over in this step
    have hidle : (x.sessions k).state ≠ .active ∨ body.isOrder = false → Begins x k
        (x.after k x.dispatcher (x.dispatcher.dispatch (x.sessions k).nextInbound.1 body).2
          .idle) :=
      fun h => .quiet (hquiet h).1 (hquiet h).2
    have hrefused : (x.sessions k).state ≠ .active → body.isOrder = true →
        x.dispatcher.dispatch (x.sessions k).nextInbound.1 body = (x.dispatcher,
          (x.sessions k).nextInbound.1.emit (.orderReject ⟨body.orderId, .notLoggedOn⟩)) :=
      fun hs hb =>
      Dispatcher.dispatch_refused x.dispatcher (s := (x.sessions k).nextInbound.1) hs hb
    have hstate : (x.sessions k).nextInbound.1.state = (x.sessions k).state := rfl
    cases body with
    | newOrder m =>
      simp only [hstate]
      by_cases hs : (x.sessions k).state = .active
      · rw [if_neg (not_not.mpr hs)]
        cases hacq : x.dispatcher.pool.acquire with
        | none =>
          -- `acquire` fails only for an empty stack
          refine .full hp hs ?_
          by_contra hne
          obtain ⟨a, free, hfree⟩ := List.exists_cons_of_ne_nil hne
          obtain ⟨pool, hsome⟩ := Pool.exists_acquire hfree
          rw [hacq] at hsome
          cases hsome
        | some r => exact .order hp hs hacq
      · rw [if_pos hs]
        have h := hidle (.inl hs)
        rwa [hrefused hs rfl] at h
    | cancelOrder m =>
      simp only [hstate]
      by_cases hs : (x.sessions k).state = .active
      · rw [if_neg (not_not.mpr hs)]
        exact .cancel hp hs
      · rw [if_pos hs]
        have h := hidle (.inl hs)
        rwa [hrefused hs rfl] at h
    | _ => exact hidle (.inr rfl)

/-! ## The threads

A thread that becomes busy announces what it will owe: the book, the replies and the executions that
its request would come to if it were handled now, undisturbed. -/

section Begin

variable {e : Engine} {n : ℕ} {x' : Server} {q fin : InstrumentId → QueueBook}
  {held held' lost lost' : List Slot} {debt : ℕ → Debt} {hands : ℕ → List Slot} {i : InstrumentId}
  {a : Slot}

/-- **A thread begins with a request** about an instrument with whose book everybody is done. -/
theorem Tracked.begin (h : Tracked e n x q fin held lost debt hands) (hk : x.threads k = .idle)
    (hlt : k < x.nextSessionId) (hv : ∀ j, ¬ x.AtBook j i) {th : Thread} {d : Debt}
    {hands' : List Slot} (hthreads : x'.threads = Function.update x.threads k th)
    (hnext : x'.nextSessionId = x.nextSessionId)
    (hengine : x'.dispatcher.engine = x.dispatcher.engine)
    (hlodged : Lodged x'.dispatcher.pool x.dispatcher.engine.books q held')
    (hretains : Retains x.dispatcher.pool q held x'.dispatcher.pool q held')
    (hst : ∀ c, c ∉ x.dispatcher.pool.freeSlots →
      x'.dispatcher.pool.storage c = x.dispatcher.pool.storage c)
    (hi : th.instrument = some i)
    (hth : th.uses e x'.dispatcher.pool.storage = (e.matchers.lookup i).isSome)
    (howes : Owes e x'.dispatcher.pool.storage (q i) th d hands')
    (hshared : Shared held' lost' (Function.update hands k hands')
      (Function.update (fun j => (debt j).left) k d.left)) (hm : x'.Metered) :
    Tracked e n x' q (Function.update fin i d.book) held' lost' (Function.update debt k d)
      (Function.update hands k hands') := by
  have hbooks : ∀ j, (x'.dispatcher.engine.matchers.lookup j).isSome
      = (e.matchers.lookup j).isSome := hengine ▸ h.books
  have hself : x'.threads k = th := by rw [hthreads, Function.update_self]
  have hthread : ∀ {j}, j ≠ k → x'.threads j = x.threads j := fun hjk => by
    rw [hthreads, Function.update_of_ne hjk]
  -- a slot that leaves the free stack is nothing to the others
  have hkeep : ∀ {j l}, (x.threads j).instrument = some l →
      ∀ c ∈ (q l).slots ++ hands j, x'.dispatcher.pool.storage c = x.dispatcher.pool.storage c := by
    intro j l _ c hc
    refine hst c fun hfree => ?_
    obtain ⟨-, -, -, hheld, hslots⟩ := h.unused_of_free hfree
    exact (List.mem_append.mp hc).elim (hslots l) fun hc => hheld (h.shared.hands_subset j hc)
  have hothers : ∀ j l, j ≠ k → (x'.AtBook j l ↔ x.AtBook j l) := fun j l hjk => by
    unfold AtBook
    rw [hthread hjk, hengine]
    refine and_congr_right fun hj => ?_
    obtain ⟨b, howes₁, -⟩ := h.owes j l hj
    rw [howes₁.uses_frame h.books (hkeep hj), howes₁.uses_frame h.books fun _ _ => rfl]
  have hown : ∀ {l}, x'.AtBook k l → l = i ∧ (e.matchers.lookup i).isSome = true := fun hat => by
    obtain ⟨hinst, huses⟩ := hat
    rw [hself] at hinst huses
    rw [← howes.uses_frame hbooks fun _ _ => rfl] at hth
    exact ⟨Option.some.inj (hinst.symm.trans hi), hth.symm.trans huses⟩
  exact {
    lodged := hengine ▸ hlodged
    capacity := hretains.capacity.trans h.capacity
    owned := fun c hc => hretains.owned c (h.owned c hc)
    books := hbooks
    ptrs := hengine ▸ h.ptrs
    later := fun j hj => by
      rw [hnext]
      by_cases hjk : j = k
      · exact hjk ▸ hlt
      · exact h.later j (hthread hjk ▸ hj)
    owes := fun j l hj => by
      by_cases hjk : j = k
      · subst hjk
        rw [hself] at hj ⊢
        obtain rfl : i = l := Option.some.inj (hi.symm.trans hj)
        simp only [Function.update_self]
        exact ⟨d.book, howes, fun _ => rfl⟩
      · rw [hthread hjk] at hj ⊢
        obtain ⟨b, howes₁, hbook⟩ := h.owes j l hj
        rw [Function.update_of_ne hjk, Function.update_of_ne hjk]
        refine ⟨b, howes₁.frame (hkeep hj), fun hat => ?_⟩
        have hat' := (hothers j l hjk).mp hat
        have hli : l ≠ i := by
          rintro rfl
          exact hv j hat'
        rw [Function.update_of_ne hli]
        exact hbook hat'
    idle := fun j hj => by
      by_cases hjk : j = k
      · subst hjk
        rw [hself] at hj
        rw [instrument_eq_none.mpr hj] at hi
        cases hi
      · rw [Function.update_of_ne hjk, Function.update_of_ne hjk]
        exact h.idle j (hthread hjk ▸ hj)
    vacant := fun l hv' => by
      by_cases hli : l = i
      · -- there is no such book, so the request leaves it as it is
        subst hli
        rw [Function.update_self]
        refine howes.book_eq (Bool.eq_false_iff.mpr fun huses => hv' k ⟨hself ▸ hi, ?_⟩)
          fun l' hl' hnone => h.slots_absent (Option.some.inj (hi.symm.trans hl') ▸ hnone)
        rw [hself, howes.uses_frame hbooks fun _ _ => rfl]
        exact huses
      · rw [Function.update_of_ne hli]
        refine h.vacant l fun j hat => ?_
        by_cases hjk : j = k
        · have hinst := hat.1
          rw [hjk, instrument_eq_none.mpr hk] at hinst
          cases hinst
        · exact hv' j ((hothers j l hjk).mpr hat)
    found := fun j l hat => by
      by_cases hjk : j = k
      · subst hjk
        obtain ⟨rfl, hbook⟩ := hown hat
        exact hbook
      · exact h.found j l ((hothers j l hjk).mp hat)
    alone := fun j₁ j₂ l h₁ h₂ => by
      by_cases hj₁ : j₁ = k
      · by_cases hj₂ : j₂ = k
        · rw [hj₁, hj₂]
        · obtain ⟨rfl, -⟩ := hown (hj₁ ▸ h₁)
          exact absurd ((hothers j₂ l hj₂).mp h₂) (hv j₂)
      · by_cases hj₂ : j₂ = k
        · obtain ⟨rfl, -⟩ := hown (hj₂ ▸ h₂)
          exact absurd ((hothers j₁ l hj₁).mp h₁) (hv j₁)
        · exact h.alone j₁ j₂ l ((hothers j₁ l hj₁).mp h₁) ((hothers j₂ l hj₂).mp h₂)
    shared := by
      rw [left_update]
      exact hshared
    metered := hm }

/-- With an order. -/
theorem Tracked.order (h : Tracked e n x q fin held lost debt hands) (hk : x.threads k = .idle)
    (hlt : k < x.nextSessionId) {m : NewOrderMsg}
    (hv : ∀ j, ¬ x.AtBook j m.instrumentId) (hw : (fin m.instrumentId).WF)
    {pool : Pool} (hacq : x.dispatcher.pool.acquire = some (a, pool)) (client : ClientId)
    (s : Session) :
    Tracked e n { x.after k { x.dispatcher with pool := pool.write a (m.order client) } s
        (.entering ⟨m, a, []⟩) with filled := Function.update x.filled a 0 } q
      (Function.update fin m.instrumentId (submitOutcome e fin a (m.order client)).book) (a :: held)
      (if (submitOutcome e fin a (m.order client)).order.leaks then a :: lost else lost)
      (Function.update debt k (Ticket.debt ⟨m, a, []⟩ e
        (submitOutcome e fin a (m.order client)).result
        (submitOutcome e fin a (m.order client)).trades)) (Function.update hands k [a]) := by
  obtain ⟨hfree, hcap, hkeep⟩ := Pool.acquire_eq_some hacq
  obtain ⟨-, -, -, hheld, hslots⟩ := h.unused_of_free (a := a) (hfree ▸ List.mem_cons_self ..)
  have hdata : (pool.write a (m.order client)).storage.data a = m.order client :=
    pool.data_write_self a _
  -- everybody is done with the book, so it is the one the serial gateway would find
  have hfin := h.vacant m.instrumentId hv
  have hout : submitOutcome e fin a (m.order client)
      = submitOutcome e (fun _ => q m.instrumentId) a (m.order client) :=
    submitOutcome_congr hfin e a
  have hother : ∀ c, c ≠ a → (pool.write a (m.order client)).storage c
      = x.dispatcher.pool.storage c :=
    fun c hc => (Function.update_of_ne hc _ _).trans (hkeep c hc)
  refine h.begin (d := Ticket.debt ⟨m, a, []⟩ e (submitOutcome e fin a (m.order client)).result
      (submitOutcome e fin a (m.order client)).trades) hk hlt hv rfl rfl rfl
    ((h.lodged.acquire hacq).write (List.mem_cons_self ..) _) ⟨hcap, fun c hc => ?_⟩
    (fun c hc => hother c (ne_of_mem_of_not_mem (hfree ▸ List.mem_cons_self ..) hc).symm) rfl rfl
    (.order (.entering hdata rfl rfl (hfin ▸ hw) (hslots _) rfl (congrArg _ hout)) rfl) ?_
    fun c => ?_
  · refine hc.repool fun c hc => ?_
    change c ∈ pool.freeSlots ++ a :: held
    rw [hfree] at hc
    exact List.perm_middle.mem_iff.mpr hc
  · exact h.shared.take (h.idle k hk).1 hheld _
  · change Function.update x.filled a 0 c
      = ((pool.write a (m.order client)).storage.data c).filledQty.toNat
      ∧ ((pool.write a (m.order client)).storage.data c).Sound
    by_cases hca : c = a
    · rw [hca, Function.update_self, hdata]
      exact ⟨rfl, Dispatcher.sound_order m client⟩
    · rw [Function.update_of_ne hca, Store.data_congr (hother c hca)]
      exact h.metered c

/-- With a cancel. -/
theorem Tracked.cancel (h : Tracked e n x q fin held lost debt hands) (hk : x.threads k = .idle)
    (hlt : k < x.nextSessionId) {m : CancelOrderMsg}
    (hv : ∀ j, ¬ x.AtBook j m.instrumentId) (hw : (fin m.instrumentId).WF)
    (s : Session) :
    Tracked e n (x.after k x.dispatcher s (.cancelling m)) q
      (Function.update fin m.instrumentId ((fin m.instrumentId).cancel m.clientOrderId).1) held lost
      (Function.update debt k (cancelDebt (fin m.instrumentId) m))
      (Function.update hands k []) := by
  have hfin := h.vacant m.instrumentId hv
  refine h.begin (d := cancelDebt (fin m.instrumentId) m) hk hlt hv rfl rfl rfl h.lodged .refl
    (fun _ _ => rfl) rfl rfl ?_ ?_ h.metered
  · rw [hfin]
    exact .cancelling (hfin ▸ hw)
  · rw [← (h.idle k hk).1, Function.update_eq_self]
    exact h.shared.of_hands_nil (h.idle k hk).1 []

end Begin

end Server

end Ordbk
