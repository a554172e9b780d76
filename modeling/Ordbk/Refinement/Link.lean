import Ordbk.Gateway.Link

/-!
# Refinement/Link — a connection follows its messages

`dispatch` looks neither at the bytes still buffered nor at the bytes already queued
(`dispatch_rebase`).  So `pump` is the handling of the messages drained (`pump_eq`), and a
connection is at every moment where the messages heard so far take it (`follows_run`), however its
bytes came in and went out.
-/

namespace Ordbk

/-- The same session, with another framer and more bytes ahead of its reply. -/
def Session.rebase (s : Session) (f : Framer) (out : List Byte) : Session :=
  { s with framer := f, outbound := out ++ s.outbound }

/-- Only more bytes ahead of its reply. -/
theorem Session.rebase_of_framer {s : Session} {f : Framer} {out : List Byte} (hf : s.framer = f) :
    s.rebase f out = { s with outbound := out ++ s.outbound } := by
  rw [← hf]
  rfl

namespace Dispatcher

variable (d : Dispatcher) (s : Session) (f : Framer) (out : List Byte)

/-- A message is appended to whatever is queued. -/
theorem emit_rebase (body : MessageBody) :
    (s.rebase f out).emit body = (s.emit body).rebase f out := by
  simp only [Session.emit, Session.rebase, List.append_assoc]

/-- And so is a report. -/
theorem report_rebase (m : NewOrderMsg) (e : Engine) (status : OrderStatus) (trades : List Trade) :
    report (s.rebase f out) m e status trades = (report s m e status trades).rebase f out := by
  unfold report
  split_ifs
  · exact emit_rebase ..
  · rw [emit_rebase]
    generalize s.emit _ = s
    induction trades generalizing s with
    | nil => rfl
    | cons t trades ih => rw [List.foldl_cons, List.foldl_cons, emit_rebase, ih]

/-- The two handlers, each on its own. -/
theorem handleNewOrder_rebase (m : NewOrderMsg) : d.handleNewOrder (s.rebase f out) m
    = ((d.handleNewOrder s m).1, (d.handleNewOrder s m).2.rebase f out) := by
  unfold handleNewOrder
  change (if s.state ≠ .active then _ else _) = _
  split_ifs
  · rw [emit_rebase]
  · cases d.pool.acquire with
    | none =>
      simp only
      rw [emit_rebase]
    | some r =>
      simp only
      rw [report_rebase]
      rfl

theorem handleCancel_rebase (m : CancelOrderMsg) : d.handleCancel (s.rebase f out) m
    = ((d.handleCancel s m).1, (d.handleCancel s m).2.rebase f out) := by
  unfold handleCancel
  change (if s.state ≠ .active then _ else _) = _
  split_ifs
  · rw [emit_rebase]
  · simp only
    rw [emit_rebase]

/-- **A handler looks neither at the framer nor at what is queued.** -/
theorem dispatch_rebase (body : MessageBody) : d.dispatch (s.rebase f out) body
    = ((d.dispatch s body).1, (d.dispatch s body).2.rebase f out) := by
  cases body with
  | logon m =>
    simp only [dispatch, handleLogon]
    change (d, if s.state ≠ .notLoggedOn then _ else _) = _
    split_ifs
    · rfl
    · exact congrArg (Prod.mk d)
        (emit_rebase { s with clientId := m.clientId, state := .active } ..)
  | logout => exact congrArg (Prod.mk d) (emit_rebase { s with state := .closing } ..)
  | heartbeat => exact congrArg (Prod.mk d) (emit_rebase ..)
  | newOrder m => exact handleNewOrder_rebase ..
  | cancelOrder m => exact handleCancel_rebase ..
  | _ => rfl

theorem handle_rebase (bodies : List MessageBody) : handle (d, s.rebase f out) bodies
    = ((handle (d, s) bodies).1, (handle (d, s) bodies).2.rebase f out) := by
  induction bodies generalizing d s with
  | nil => rfl
  | cons body bodies ih =>
    change handle (d.dispatch (s.rebase f out) body) bodies = _
    rw [dispatch_rebase, ih]
    rfl

/-- Messages are handled one after the other. -/
theorem handle_append (r : Dispatcher × Session) (xs ys : List MessageBody) :
    handle r (xs ++ ys) = handle (handle r xs) ys := List.foldl_append

/-- **`pump` drains the framer and handles what comes out.** -/
theorem pump_eq : d.pump s = ((handle (d, s) (s.framer.drain.2.map (·.body))).1,
    (handle (d, s) (s.framer.drain.2.map (·.body))).2.rebase s.framer.drain.1 []) := by
  have hloop : ∀ (fuel : ℕ) (d : Dispatcher) (s : Session), pumpLoop fuel d s
      = ((handle (d, s) ((s.framer.drainLoop fuel).2.map (·.body))).1,
        (handle (d, s) ((s.framer.drainLoop fuel).2.map (·.body))).2.rebase
          (s.framer.drainLoop fuel).1 []) := by
    intro fuel
    induction fuel with
    | zero => exact fun d s => rfl
    | succ fuel ih =>
      intro d s
      cases hn : s.framer.next with
      | mk f msg =>
        cases msg with
        | none =>
          simp only [pumpLoop, Session.nextInbound, Framer.drainLoop, hn]
          rfl
        | some msg =>
          simp only [pumpLoop, Session.nextInbound, Framer.drainLoop, hn]
          -- the session of the next pass differs from that of the handlers in its framer alone
          have hdispatch := d.dispatch_rebase s f [] msg.body
          change d.dispatch { s with framer := f } msg.body = _ at hdispatch
          rw [hdispatch, ih, handle_rebase]
          rfl
  exact hloop _ d s

end Dispatcher

namespace Link

open Framer (messages)

variable {d : Dispatcher} {s : Session} {l : Link} {f : Framer} {heard unheard : List Byte}

/-- **A connection is where its messages take it**: handling those of the bytes heard, one after
another, gives the dispatcher, the session and the bytes out; the framer has the rest. -/
structure Follows (d : Dispatcher) (s : Session) (heard unheard : List Byte) (l : Link)
    (f : Framer) : Prop where
  /-- The framer has made its messages of the bytes heard. -/
  made : Framer.Made heard (messages heard) f
  /-- It holds the bytes fed since. -/
  framer : l.session.framer = f.feed unheard
  /-- **The gateway is where those messages take it.** -/
  dispatcher : l.dispatcher = (Dispatcher.handle (d, s) ((messages heard).map (·.body))).1
  /-- And so is the session, with the bytes already taken put back in front. -/
  session : l.session.rebase {} l.taken
    = (Dispatcher.handle (d, s) ((messages heard).map (·.body))).2

/-- Handling more messages. -/
theorem Follows.pump (h : Follows d s heard unheard l f) :
    Follows d s (heard ++ unheard) [] (l.step .pump) (f.feed unheard).drain.1 := by
  obtain ⟨hmade, hframer, hd, hs⟩ := h
  have hfed := hmade.feed unheard
  have hmore : Dispatcher.handle (d, s) ((messages (heard ++ unheard)).map (·.body))
      = Dispatcher.handle (l.dispatcher, l.session.rebase {} l.taken)
          ((f.feed unheard).drain.2.map (·.body)) := by
    rw [← hfed.eq_messages, List.map_append, Dispatcher.handle_append, hd, hs]
  rw [Dispatcher.handle_rebase] at hmore
  have hstep : l.step .pump = { l with
      dispatcher := (l.dispatcher.pump l.session).1, session := (l.dispatcher.pump l.session).2 } :=
    rfl
  rw [Dispatcher.pump_eq, hframer] at hstep
  rw [hfed.eq_messages] at hfed
  rw [hstep]
  refine ⟨hfed, ?_, ?_, ?_⟩
  · exact (Framer.feed_nil _).symm
  · rw [hmore]
  · rw [hmore]
    rfl

/-- One act keeps a connection in step with its messages. -/
theorem Follows.step (h : Follows d s heard unheard l f) (act : Act) :
    ∃ f', Follows d s (hear (heard, unheard) act).1 (hear (heard, unheard) act).2
      (l.step act) f' := by
  cases act with
  | recv data =>
    refine ⟨f, h.made, ?_, h.dispatcher, h.session⟩
    change l.session.framer.feed data = _
    rw [h.framer, Framer.feed_feed]
    rfl
  | pump => exact ⟨_, h.pump⟩
  | send =>
    refine ⟨f, h.made, h.framer, h.dispatcher, ?_⟩
    change Session.rebase _ _ _ = (Dispatcher.handle (d, s) ((messages heard).map (·.body))).2
    rw [← h.session]
    simp only [Link.step, Session.takeOutbound, Session.rebase, List.append_nil]

/-- **However its bytes came in and went out**, a connection is where its messages take it. -/
theorem follows_run (hs : s.framer = {}) (acts : List Act) :
    ∃ f, Follows d s (acts.foldl hear ([], [])).1 (acts.foldl hear ([], [])).2
      (run ⟨d, s, []⟩ acts) f := by
  have hrun : ∀ (acts : List Act) (bytes : List Byte × List Byte) (l : Link) (f : Framer),
      Follows d s bytes.1 bytes.2 l f → ∃ f', Follows d s (acts.foldl hear bytes).1
        (acts.foldl hear bytes).2 (run l acts) f' := by
    intro acts
    induction acts with
    | nil => exact fun _ _ f h => ⟨f, h⟩
    | cons act acts ih =>
      intro bytes l f h
      obtain ⟨f', h'⟩ := h.step act
      exact ih _ _ f' h'
  refine hrun acts ([], []) ⟨d, s, []⟩ {} ⟨Framer.made_new, hs, rfl, ?_⟩
  change s.rebase {} [] = s
  rw [← hs]
  rfl

/-- Every piece is heard when its turn is over. -/
theorem hear_turns (heard : List Byte) (pieces : List (List Byte)) :
    (turns pieces).foldl hear (heard, []) = (heard ++ pieces.flatten, []) := by
  induction pieces generalizing heard with
  | nil => simp [turns]
  | cons data pieces ih =>
    change (turns pieces).foldl hear (heard ++ data, []) = _
    rw [ih, List.flatten_cons, List.append_assoc]

end Link

end Ordbk
