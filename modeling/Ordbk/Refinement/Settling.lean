import Ordbk.Refinement.Handling
import Ordbk.Refinement.Link
import Ordbk.Refinement.Phases

/-!
# Refinement/Settling — how a request ends, step by step

After the matching loop: the order comes to rest, the replies are written, the slot goes back to the
pool; and the steps of `handle_cancel`.  With those of the loop, every step of a handler proceeds
(`proceeds_advance`).
-/

namespace Ordbk

open QueueBook (Result)

/-- The replies depend on which books there are, not on what is in them. -/
theorem report_congr {e e' : Engine}
    (hbooks : ∀ j, (e'.matchers.lookup j).isSome = (e.matchers.lookup j).isSome)
    (hptrs : e'.bookPtrs = e.bookPtrs) (s : Session) (m : NewOrderMsg)
    (status : OrderStatus) (ts : List Trade) :
    Dispatcher.report s m e' status ts = Dispatcher.report s m e status ts := by
  have hbook : (e'.book m.instrumentId).isNone = (e.book m.instrumentId).isNone := by
    unfold Engine.book
    rw [hptrs]
    cases e.bookPtrs.lookup m.instrumentId with
    | none => rfl
    | some j =>
      have hj := hbooks j
      rw [Option.bind_some, Option.bind_some, ← Option.not_isSome, hj, Option.not_isSome]
  unfold Dispatcher.report classify
  rw [hbook]

namespace Server

variable {e : Engine} {x x' : Server} {k : ℕ} {q : InstrumentId → QueueBook} {i : InstrumentId}
  {held hands : List Slot} {t : Ticket} {r : Result} {rest : List Trade} {hb : OrderBook}
  {o : OrderData} {d : Debt}

/-! ## `add_resting`

What is left of a patient order goes behind those at its price, and the slot out of the thread's
hands into the book. -/

/-- **The order comes to rest.** -/
theorem proceeds_rest (hl : Lodged x.dispatcher.pool x.dispatcher.engine.books q held)
    (hh : [t.order] ⊆ held) (hi : x.dispatcher.engine.matchers.lookup t.msg.instrumentId = some hb)
    (hd : x.dispatcher.pool.storage.data t.order = o) (ht : (q t.msg.instrumentId).Tidy)
    (hout : t.order ∉ (q t.msg.instrumentId).slots) (hr : o.rests = true)
    (hresult : r = ⟨(q t.msg.instrumentId).rest ⟨t.order, o⟩, o, t.trades⟩)
    (htrades : r.trades = t.trades ++ rest) :
    x.Proceeds e k t.msg.instrumentId q held (t.debt e r rest) [t.order] (x.rest k t hb) := by
  have hrep : BookRep x.dispatcher.pool.storage hb (q t.msg.instrumentId) := hl.rep _ hb hi
  have hdata : (hb.addResting x.dispatcher.pool.storage t.order).2.data
      = x.dispatcher.pool.storage.data :=
    BookRep.data_addResting hb _ t.order
  have hmoves := (show Moves ⟨hb, x.dispatcher.pool⟩ _ [t.order] _ _ [] from .refl hrep).rest
    ht.sorted ht.nodup
    hd (List.mem_cons_self ..) hout fun _ hc => hc
  have hrest : ((q t.msg.instrumentId).rest ⟨t.order, o⟩).slots.Perm
      (t.order :: (q t.msg.instrumentId).slots) := QueueBook.slots_rest_perm _ _
  have hperm : (((q t.msg.instrumentId).rest ⟨t.order, o⟩).slots ++ held.erase t.order).Perm
      ((q t.msg.instrumentId).slots ++ held) := by
    refine (hrest.append_right _).trans (List.perm_middle.symm.trans ?_)
    exact (List.perm_cons_erase (hh (List.mem_cons_self ..))).symm.append_left _
  have hleft : (t.debt e r rest).left = [] := by
    change (if r.order.leaks then [t.order] else []) = []
    rw [hresult, OrderData.leaks, hr, Bool.not_true, Bool.and_false, if_neg Bool.false_ne_true]
  -- at rest, it is in the book's hands and no longer in the thread's
  have hstage : Stage e (hb.addResting x.dispatcher.pool.storage t.order).2
      ((q t.msg.instrumentId).rest ⟨t.order, o⟩) r t (.replying t) [] := by
    have ho : (hb.addResting x.dispatcher.pool.storage t.order).2.data t.order = o :=
      (congrFun hdata _).trans hd
    refine .rested (hrest.mem_iff.mpr (List.mem_cons_self ..)) ?_ ?_
    · rw [ho]
      exact hr
    · rw [ho]
      exact hresult
  have howes : Owes e (hb.addResting x.dispatcher.pool.storage t.order).2
      ((q t.msg.instrumentId).rest ⟨t.order, o⟩) (.replying t) (t.debt e r rest)
      ([t.order].erase t.order) := by
    rw [List.erase_cons_head]
    exact .order hstage htrades
  refine proceeds_goto (World.book hl hi hmoves (List.Subset.refl _) hh hperm)
    (.drop (List.mem_cons_self ..) (hleft ▸ List.not_mem_nil)) howes (.inl rfl) rfl rfl rfl rfl
    fun a => ?_
  have ha := congrFun hdata a
  exact ⟨congrArg (·.filledQty) ha, congrArg (·.initialQty) ha⟩

/-! ## The replies

The acknowledgement or rejection and the fills are written at once, in one step of the session; what
the handler reads for them is the order's status, the executions it has noted, and whether there is
a book. -/

/-- A step of the session alone. -/
theorem proceeds_say {s : Session} {next : Thread} {hands' : List Slot} {c : Debt}
    (hl : Lodged x.dispatcher.pool x.dispatcher.engine.books q held) (hh : hands ⊆ held)
    (hhand : Handover held hands d.left (q i).slots held hands')
    (howes : Owes e x.dispatcher.pool.storage (q i) next c hands')
    (hbusy : next.instrument = some i ∨ next = .idle) (hbook : c.book = d.book)
    (hleft : c.left = d.left) (hreply : c.reply s = d.reply (x.sessions k))
    (htrades : c.trades = d.trades) : x.Proceeds e k i q held d hands
    (x.after k x.dispatcher s next) :=
  proceeds_after (.refl x k) (World.write hl hh rfl rfl fun _ _ => rfl) hhand howes hbusy
    hbook hleft hreply
    (by rw [htrades]) fun h => h.of_data rfl fun _ => ⟨rfl, rfl⟩

/-- The last step, if the replies are all that is owed. -/
theorem proceeds_done {s : Session} (hl : Lodged x.dispatcher.pool x.dispatcher.engine.books q held)
    (hh : hands ⊆ held) (hhand : Handover held hands d.left (q i).slots held [])
    (hbook : d.book = q i) (hreply : s = d.reply (x.sessions k)) (htrades : d.trades = []) :
    x.Proceeds e k i q held d hands (x.after k x.dispatcher s .idle) :=
  proceeds_say (c := ⟨q i, id, [], d.left⟩) hl hh hhand .idle (.inr rfl) hbook.symm rfl hreply
    htrades.symm

/-- **The replies** of an order, and whether its slot is still to be given back. -/
theorem proceeds_reply (hl : Lodged x.dispatcher.pool x.dispatcher.engine.books q held)
    (hh : hands ⊆ held) (hbooks : ∀ j, (x.dispatcher.engine.matchers.lookup j).isSome
      = (e.matchers.lookup j).isSome) (hptrs : x.dispatcher.engine.bookPtrs = e.bookPtrs)
    (hs : Stage e x.dispatcher.pool.storage (q t.msg.instrumentId) r t (.replying t) hands)
    (htrades : r.trades = t.trades ++ rest) :
    x.Proceeds e k t.msg.instrumentId q held (t.debt e r rest) hands (x.reply k t) := by
  have hresult : r = ⟨q t.msg.instrumentId, x.dispatcher.pool.storage.data t.order, t.trades⟩ := by
    cases hs with
    | rested _ _ result => exact result
    | ended _ result => exact result
  have hrest : rest = [] := by
    rw [hresult] at htrades
    exact List.self_eq_append_right.mp htrades
  have hsay : Dispatcher.report (x.sessions k) t.msg x.dispatcher.engine
      (x.dispatcher.pool.storage t.order).status t.trades
      = (t.debt e r rest).reply (x.sessions k) := by
    rw [report_congr hbooks hptrs]
    change _ = Dispatcher.report (x.sessions k) t.msg e r.order.status r.trades
    rw [hresult]
    rfl
  have hleaks : (t.debt e r rest).left
      = if (x.dispatcher.pool.storage.data t.order).leaks then [t.order] else [] := by
    change (if r.order.leaks then [t.order] else []) = _
    rw [hresult]
  have hbook : (t.debt e r rest).book = q t.msg.instrumentId := congrArg (·.book) hresult
  change x.Proceeds e k t.msg.instrumentId q held (t.debt e r rest) hands (x.after k x.dispatcher _
    (if (x.dispatcher.pool.storage.data t.order).isTerminal then .closing t else .idle))
  rw [hsay]
  cases hs with
  | rested mem rests _ =>
    -- an order at rest has not ended, so the reply is the last step
    have hterm : (x.dispatcher.pool.storage.data t.order).isTerminal = false :=
      Bool.eq_false_iff.mpr fun h => by simp [rests_of_terminal h] at rests
    rw [hterm, if_neg Bool.false_ne_true]
    exact proceeds_done hl hh .keep hbook rfl hrest
  | ended rests _ =>
    cases hterm : (x.dispatcher.pool.storage.data t.order).isTerminal with
    | true =>
      -- it has ended: the slot is still to be given back
      have hleft : (t.debt e r rest).left = [] := by
        rw [hleaks, OrderData.leaks, hterm, Bool.not_true, Bool.false_and,
          if_neg Bool.false_ne_true]
      rw [if_pos rfl]
      exact proceeds_say hl hh .keep .closing (.inl rfl) hbook.symm hleft.symm rfl hrest.symm
    | false =>
      -- dropped half filled: the slot stays with nobody
      have hleft : (t.debt e r rest).left = [t.order] := by
        rw [hleaks, OrderData.leaks, hterm, rests]
        rfl
      rw [if_neg Bool.false_ne_true]
      exact proceeds_done hl hh (.leave hleft.symm) hbook rfl hrest

/-! ## The steps of `handle_cancel`

A cancel is two steps where it finds the order, the cut out of the queue and the release of the
slot, and one where it does not. -/

/-- The debt of a cancel. -/
def cancelDebt (b : QueueBook) (m : CancelOrderMsg) : Debt where
  book := (b.cancel m.clientOrderId).1
  reply s := s.emit (if (b.cancel m.clientOrderId).2.isSome then .cancelled ⟨m.clientOrderId⟩
    else .orderReject ⟨m.clientOrderId, .unknown⟩)
  trades := []
  left := []

/-- There is no such order. -/
theorem proceeds_refused {m : CancelOrderMsg}
    (hl : Lodged x.dispatcher.pool x.dispatcher.engine.books q held)
    (hc : (q m.instrumentId).cancel m.clientOrderId = (q m.instrumentId, none)) :
    x.Proceeds e k m.instrumentId q held (cancelDebt (q m.instrumentId) m) []
      (x.after k x.dispatcher ((x.sessions k).emit (.orderReject ⟨m.clientOrderId, .unknown⟩))
        .idle) := by
  refine proceeds_done hl (List.nil_subset _) .keep ?_ ?_ rfl
  · change ((q m.instrumentId).cancel m.clientOrderId).1 = _
    rw [hc]
  · change _ = (x.sessions k).emit
      (if ((q m.instrumentId).cancel m.clientOrderId).2.isSome then _ else _)
    rw [hc]
    rfl

/-- An order is taken out of its queue. -/
theorem proceeds_take {m : CancelOrderMsg} {loc : Locator} {hb' : OrderBook} {st : Store}
    (hl : Lodged x.dispatcher.pool x.dispatcher.engine.books q held) (hw : (q m.instrumentId).WF)
    (hi : x.dispatcher.engine.matchers.lookup m.instrumentId = some hb)
    (hloc : (q m.instrumentId).index.lookup m.clientOrderId = some loc)
    (hrep : BookRep st hb' ((q m.instrumentId).remove m.clientOrderId loc))
    (hdata : st.data = x.dispatcher.pool.storage.data)
    (hframe : ∀ c, c ∉ (q m.instrumentId).slots → st c = x.dispatcher.pool.storage c) :
    x.Proceeds e k m.instrumentId q held (cancelDebt (q m.instrumentId) m) []
      (x.goto k
        (x.dispatcher.withMatcher m.instrumentId
          ⟨hb', { x.dispatcher.pool with storage := st }⟩)
        (.returning m loc.order)) := by
  have hperm := QueueBook.slots_remove_perm hw hloc
  have hmem : loc.order ∈ (q m.instrumentId).slots := hperm.mem_iff.mp (List.mem_cons_self ..)
  have hmoves : Moves ⟨hb, x.dispatcher.pool⟩ (q m.instrumentId) []
      ⟨hb', { x.dispatcher.pool with storage := st }⟩
      ((q m.instrumentId).remove m.clientOrderId loc) [] :=
    ⟨hrep, rfl, rfl, fun c _ hc => hframe c hc, by simp⟩
  have hslots : (((q m.instrumentId).remove m.clientOrderId loc).slots ++ loc.order :: held).Perm
      ((q m.instrumentId).slots ++ held) := List.perm_middle.trans (hperm.append_right held)
  have hcancel : (q m.instrumentId).cancel m.clientOrderId
      = ((q m.instrumentId).remove m.clientOrderId loc, some loc.order) := by
    unfold QueueBook.cancel
    rw [hloc]
  have hdebt : cancelDebt (q m.instrumentId) m = ⟨(q m.instrumentId).remove m.clientOrderId loc,
      fun s => s.emit (.cancelled ⟨m.clientOrderId⟩), [], []⟩ := by
    unfold cancelDebt
    rw [hcancel]
    rfl
  rw [hdebt]
  refine proceeds_goto (World.book hl hi hmoves (List.nil_subset _) (List.nil_subset _) hslots)
    (.gain hmem)
    .returning (.inl rfl) rfl rfl rfl rfl fun a => ?_
  have ha := congrFun hdata a
  exact ⟨congrArg (·.filledQty) ha, congrArg (·.initialQty) ha⟩

/-- No book. -/
theorem cancel_of_none {m : CancelOrderMsg}
    (hi : x.dispatcher.engine.matchers.lookup m.instrumentId = none) :
    x.cancel k m = x.after k x.dispatcher
      ((x.sessions k).emit (.orderReject ⟨m.clientOrderId, .unknown⟩)) .idle := by
  simp only [cancel, hi]

/-- No such order in the book. -/
theorem cancel_of_miss {m : CancelOrderMsg} {hb' : OrderBook} {st : Store}
    (hi : x.dispatcher.engine.matchers.lookup m.instrumentId = some hb)
    (hc : hb.cancelAndGet x.dispatcher.pool.storage m.clientOrderId = (hb', st, none)) :
    x.cancel k m = x.after k x.dispatcher
      ((x.sessions k).emit (.orderReject ⟨m.clientOrderId, .unknown⟩)) .idle := by
  simp only [cancel, hi, hc]

/-- An order is found and cut out. -/
theorem cancel_of_hit {m : CancelOrderMsg} {hb' : OrderBook} {st : Store} {a : Slot}
    (hi : x.dispatcher.engine.matchers.lookup m.instrumentId = some hb)
    (hc : hb.cancelAndGet x.dispatcher.pool.storage m.clientOrderId = (hb', st, some a)) :
    x.cancel k m = x.goto k
      (x.dispatcher.withMatcher m.instrumentId ⟨hb', { x.dispatcher.pool with storage := st }⟩)
      (.returning m a) := by
  simp only [cancel, hi, hc]

/-- **The first step of a cancel**, whichever it is. -/
theorem proceeds_cancel {m : CancelOrderMsg}
    (hl : Lodged x.dispatcher.pool x.dispatcher.engine.books q held) (hw : (q m.instrumentId).WF) :
    x.Proceeds e k m.instrumentId q held (cancelDebt (q m.instrumentId) m) [] (x.cancel k m) := by
  cases hi : x.dispatcher.engine.matchers.lookup m.instrumentId with
  | none =>
    rw [cancel_of_none hi]
    exact proceeds_refused hl (hw.cancel_of_slots_nil (hl.absent _ hi) _)
  | some hb =>
    obtain ⟨hrep, hslot, hdata, hframe⟩ := (hl.rep _ hb hi).cancelAndGet_rep hw m.clientOrderId
    generalize hres : hb.cancelAndGet x.dispatcher.pool.storage m.clientOrderId = res
      at hrep hslot hdata hframe
    obtain ⟨hb', st, found⟩ := res
    change found = _ at hslot
    cases hloc : (q m.instrumentId).index.lookup m.clientOrderId with
    | none =>
      have hc : (q m.instrumentId).cancel m.clientOrderId = (q m.instrumentId, none) := by
        unfold QueueBook.cancel
        rw [hloc]
      obtain rfl : found = none := hslot.trans (congrArg Prod.snd hc)
      rw [cancel_of_miss hi hres]
      exact proceeds_refused hl hc
    | some loc =>
      have hc : (q m.instrumentId).cancel m.clientOrderId
          = ((q m.instrumentId).remove m.clientOrderId loc, some loc.order) := by
        unfold QueueBook.cancel
        rw [hloc]
      obtain rfl : found = some loc.order := hslot.trans (congrArg Prod.snd hc)
      rw [hc] at hrep
      rw [cancel_of_hit hi hres]
      exact proceeds_take hl hw hi hloc hrep hdata hframe

/-- And the second: the slot goes back, and the reply is sent. -/
theorem proceeds_giveBack {m : CancelOrderMsg} {a : Slot}
    (hl : Lodged x.dispatcher.pool x.dispatcher.engine.books q held) (hh : [a] ⊆ held) :
    x.Proceeds e k i q held ⟨q i, fun s => s.emit (.cancelled ⟨m.clientOrderId⟩), [], []⟩ [a]
      (x.giveBack k m a) := by
  have herase : [a].erase a = [] := List.erase_cons_head ..
  refine proceeds_after (c := ⟨q i, id, [], []⟩) (.refl x k) (World.release (a := a) hl hh
    (hh (List.mem_cons_self ..)) rfl rfl fun c hc => ?_)
      (.drop (List.mem_cons_self ..) List.not_mem_nil)
    (herase.symm ▸ .idle) (.inr rfl) rfl rfl rfl rfl
    fun h => h.of_data rfl fun c => quantities_withStatus _ _ .cancelled c
  change Store.modify _ a (·.withStatus .cancelled) c = _
  exact Store.modify_of_ne (by simpa using hc)

/-! ## Any step

A thread at work is at one of the places `Thread` names; each place has its lemma above. -/

/-- Orders rest in books only. -/
theorem exists_book (hl : Lodged x.dispatcher.pool x.dispatcher.engine.books q held) {s : Side}
    {c : Resting} {ms : List Resting} (hc : (q i).side s = c :: ms) :
    ∃ hb, x.dispatcher.engine.matchers.lookup i = some hb := by
  refine Option.ne_none_iff_exists'.mp fun hnone => ?_
  have hmem : c.slot ∈ (q i).slots :=
    QueueBook.mem_slots.mpr ⟨s, c, hc ▸ List.mem_cons_self, rfl⟩
  rw [hl.absent i hnone] at hmem
  exact List.not_mem_nil hmem

/-- **A thread that is busy proceeds**, as far as its book and its hands go alone. -/
theorem proceeds_advance (hl : Lodged x.dispatcher.pool x.dispatcher.engine.books q held)
    (hh : hands ⊆ held) (hbooks : ∀ j, (x.dispatcher.engine.matchers.lookup j).isSome
      = (e.matchers.lookup j).isSome) (hptrs : x.dispatcher.engine.bookPtrs = e.bookPtrs)
    (hi : (x.threads k).instrument = some i)
    (howes : Owes e x.dispatcher.pool.storage (q i) (x.threads k) d hands)
    (hadv : x.advance k = some x') : x.Proceeds e k i q held d hands x' := by
  unfold advance at hadv
  generalize x.threads k = th at hi howes hadv
  cases howes with
  | idle => simp [Thread.instrument] at hi
  | @closing t =>
    obtain rfl := Option.some.inj hadv
    have herase : [t.order].erase t.order = [] := List.erase_cons_head ..
    exact proceeds_release hl hh (List.mem_cons_self ..) List.not_mem_nil
      (herase.symm ▸ .idle) (.inr rfl)
      rfl rfl rfl rfl
  | @cancelling m wf =>
    obtain rfl : m.instrumentId = i := Option.some.inj hi
    obtain rfl := Option.some.inj hadv
    exact proceeds_cancel hl wf
  | returning =>
    obtain rfl := Option.some.inj hadv
    exact proceeds_giveBack hl hh
  | @order t r rest _ _ stage trades =>
    cases stage with
    | entering data fresh inst wf _ none result =>
      obtain rfl : t.msg.instrumentId = i := Option.some.inj hi
      obtain rfl := Option.some.inj hadv
      exact proceeds_enter hl hh hbooks data fresh inst wf none (inst ▸ result) trades
    | looking data mid result =>
      obtain rfl : t.msg.instrumentId = i := Option.some.inj hi
      obtain ⟨hb, hlookup, rfl⟩ := Option.map_eq_some_iff.mp hadv
      exact proceeds_look hl hh hlookup data mid result trades
    | filling data mid top go result =>
      obtain rfl : t.msg.instrumentId = i := Option.some.inj hi
      obtain rfl := Option.some.inj hadv
      exact proceeds_fillTaker hl hh data mid top go result trades
    | hitting data mid top go result =>
      obtain rfl : t.msg.instrumentId = i := Option.some.inj hi
      obtain rfl := Option.some.inj hadv
      obtain ⟨hb, hlookup⟩ := exists_book hl top
      exact proceeds_fillMaker hl hh hlookup data mid top go result trades
    | popping data tidy top mid result =>
      obtain rfl : t.msg.instrumentId = i := Option.some.inj hi
      obtain ⟨hb, hlookup, rfl⟩ := Option.map_eq_some_iff.mp hadv
      exact proceeds_pop hl hh hlookup data tidy top mid result trades
    | freeing data mid ne result =>
      obtain rfl : t.msg.instrumentId = i := Option.some.inj hi
      obtain rfl := Option.some.inj hadv
      exact proceeds_free hl hh data mid ne result trades
    | resting data tidy out rests result =>
      obtain rfl : t.msg.instrumentId = i := Option.some.inj hi
      obtain ⟨hb, hlookup, rfl⟩ := Option.map_eq_some_iff.mp hadv
      exact proceeds_rest hl hh hlookup data tidy out rests result trades
    | rested mem rests result =>
      obtain rfl : t.msg.instrumentId = i := Option.some.inj hi
      obtain rfl := Option.some.inj hadv
      exact proceeds_reply hl hh hbooks hptrs (.rested mem rests result) trades
    | ended rests result =>
      obtain rfl : t.msg.instrumentId = i := Option.some.inj hi
      obtain rfl := Option.some.inj hadv
      exact proceeds_reply hl hh hbooks hptrs (.ended rests result) trades

/-! ## Done with the book

What is left to do then is the replies and the slots in hand: the books stay as they are, and the
thread does not come back to them. -/

/-- The store and the thread after such a step. -/
def Spares (e : Engine) (x : Server) (k : ℕ) (hands : List Slot) (x' : Server) : Prop :=
  (∀ c, c ∉ hands → x'.dispatcher.pool.storage c = x.dispatcher.pool.storage c)
    ∧ (x'.threads k).uses e x'.dispatcher.pool.storage = false

/-- Only an order in hand is written to. -/
theorem spares_mark {a : Slot} (ha : a ∈ hands) {f : OrderData → OrderData} {D : Dispatcher}
    (hd : D.pool.storage = x.dispatcher.pool.storage.modify a f) {s : Session} {next : Thread}
    (hnext : next.uses e D.pool.storage = false) : x.Spares e k hands (x.after k D s next) := by
  refine ⟨fun c hc => ?_, ?_⟩
  · change D.pool.storage c = _
    rw [hd]
    exact Store.modify_of_ne (ne_of_mem_of_not_mem ha hc).symm
  · rw [threads_after]
    exact hnext

/-- Nothing is written to. -/
theorem spares_say {D : Dispatcher} (hd : D.pool.storage = x.dispatcher.pool.storage) {s : Session}
    {next : Thread} (hnext : next.uses e D.pool.storage = false) :
    x.Spares e k hands (x.after k D s next) := by
  refine ⟨fun c _ => congrFun hd c, ?_⟩
  rw [threads_after]
  exact hnext

/-- **A thread that is done with its book leaves it alone.** -/
theorem spares_advance {b : QueueBook} (hbooks : ∀ j, (x.dispatcher.engine.matchers.lookup j).isSome
      = (e.matchers.lookup j).isSome) (hi : (x.threads k).instrument = some i)
    (howes : Owes e x.dispatcher.pool.storage b (x.threads k) d hands)
    (hdone : (x.threads k).uses e x.dispatcher.pool.storage = false)
    (hadv : x.advance k = some x') : x.Spares e k hands x' := by
  have hnone : ∀ j, (e.matchers.lookup j).isSome = false →
      x.dispatcher.engine.matchers.lookup j = none := fun j hj =>
    Option.not_isSome_iff_eq_none.mp (by simp [hbooks j, hj])
  unfold advance at hadv
  generalize x.threads k = th at hi howes hdone hadv
  cases howes with
  | idle => simp [Thread.instrument] at hi
  | closing =>
    obtain rfl := Option.some.inj hadv
    exact spares_say (s := x.sessions k) rfl rfl
  | @cancelling m =>
    obtain rfl := Option.some.inj hadv
    simp only [Server.cancel, hnone m.instrumentId hdone]
    exact spares_say rfl rfl
  | returning =>
    obtain rfl := Option.some.inj hadv
    exact spares_mark (f := (·.withStatus .cancelled)) (List.mem_cons_self ..) rfl rfl
  | @order t r rest _ _ stage trades =>
    cases stage with
    | entering data fresh inst =>
      obtain rfl := Option.some.inj hadv
      have hinst : (x.dispatcher.pool.storage t.order).instrument = t.msg.instrumentId :=
        (congrArg (·.instrument) data).trans inst
      have hbook : x.dispatcher.engine.matchers.lookup
          (x.dispatcher.pool.storage t.order).instrument = none :=
        hinst ▸ hnone t.msg.instrumentId hdone
      simp only [enter, hbook]
      refine spares_mark (f := (·.withStatus .rejected)) (s := x.sessions k)
        (List.mem_cons_self ..) rfl ?_
      change ((x.dispatcher.pool.storage.modify t.order _).data t.order).rests = false
      rw [Store.data_modify, Function.update_self]
      exact rests_of_terminal rfl
    | rested mem rests =>
      change (x.dispatcher.pool.storage.data t.order).rests = false at hdone
      rw [rests] at hdone
      cases hdone
    | ended =>
      obtain rfl := Option.some.inj hadv
      refine spares_say rfl ?_
      split_ifs <;> rfl
    | _ => cases hdone

end Server

end Ordbk
