import Ordbk.Refinement.Threads

/-!
# Refinement/Serving — one step of one thread

`World` is what a step of a thread busy with instrument `i` may do to the engine and the pool: it
rewrites the book of `i` and the slots in its hands, and slots pass between the two and the free
stack. `Proceeds` adds what becomes of the thread itself: its debt is paid or stays what it was.
Every step of a handler proceeds (`proceeds_advance`).
-/

namespace Ordbk

open QueueBook (Result)

/-! ## The books and the pool

Every step of a handler is one of four kinds: it writes to a slot in hand, gives one back, works on
the book, or writes to an order of it. -/

/-- **What a step about instrument `i` leaves alone**, the slots in `hands` being the thread's. -/
structure World (d : Dispatcher) (i : InstrumentId) (q : InstrumentId → QueueBook)
    (held hands : List Slot) (d' : Dispatcher) (b' : QueueBook) (held' : List Slot) : Prop where
  /-- The books are queue books again, that of `i` a new one. -/
  lodged : Lodged d'.pool d'.engine.books (Function.update q i b') held'
  /-- No slot is lost on the way. -/
  retains : Retains d.pool q held d'.pool (Function.update q i b') held'
  /-- Only the book of `i` may be another. -/
  touches : Engine.Touches i d.engine d'.engine
  /-- Nor is an order written to that is neither in that book nor in hand. -/
  frame : ∀ c, c ∉ (q i).slots → c ∉ hands → d'.pool.storage c = d.pool.storage c

section World

variable {d : Dispatcher} {i : InstrumentId} {q : InstrumentId → QueueBook}
  {held held' hands : List Slot} {b' : QueueBook} {a : Slot}

/-- Writing to the slots in hand. -/
theorem World.write (hl : Lodged d.pool d.engine.books q held) (hh : hands ⊆ held) {pool' : Pool}
    (hcap : pool'.capacity = d.pool.capacity) (hfree : pool'.freeSlots = d.pool.freeSlots)
    (hst : ∀ c, c ∉ hands → pool'.storage c = d.pool.storage c) :
    World d i q held hands { d with pool := pool' } (q i) held := by
  have hupd : Function.update q i (q i) = q := Function.update_eq_self i q
  refine ⟨?_, ?_, .refl _ _, fun c _ hc => hst c hc⟩
  · rw [hupd]
    refine hl.repool hcap (by rw [hfree]) fun c hc => hst c fun hmem => ?_
    exact hc (List.mem_append_right _ (hh hmem))
  · rw [hupd]
    exact Retains.refl.repool_right hcap (by rw [hfree]; exact List.Subset.refl _)

/-- Giving a slot in hand back, written to or not. -/
theorem World.release (hl : Lodged d.pool d.engine.books q held) (hh : hands ⊆ held) (ha : a ∈ held)
    {pool' : Pool} (hcap : pool'.capacity = d.pool.capacity)
    (hfree : pool'.freeSlots = a :: d.pool.freeSlots)
    (hst : ∀ c, c ∉ hands → pool'.storage c = d.pool.storage c) :
    World d i q held hands { d with pool := pool' } (q i) (held.erase a) := by
  have hupd : Function.update q i (q i) = q := Function.update_eq_self i q
  have hperm : (pool'.freeSlots ++ held.erase a).Perm (d.pool.freeSlots ++ held) := by
    rw [hfree]
    exact List.perm_middle.symm.trans ((List.perm_cons_erase ha).symm.append_left _)
  refine ⟨?_, ?_, .refl _ _, fun c _ hc => hst c hc⟩
  · rw [hupd]
    refine hl.repool hcap hperm.subperm fun c hc => hst c fun hmem => ?_
    exact hc (List.mem_append_right _ (hh hmem))
  · rw [hupd]
    exact Retains.refl.repool_right hcap hperm.symm.subset

/-- A piece of the matcher's work on the book. -/
theorem World.book (hl : Lodged d.pool d.engine.books q held) {hb : OrderBook}
    (hi : d.engine.matchers.lookup i = some hb) {own : List Slot} {m' : Matcher}
    (hm : Moves ⟨hb, d.pool⟩ (q i) own m' b' []) (hown : own ⊆ hands) (hh : hands ⊆ held)
    (hperm : (b'.slots ++ held').Perm ((q i).slots ++ held)) :
    World d i q held hands (d.withMatcher i m') b' held' := by
  have hbooks : (d.withMatcher i m').engine.books
      = Function.update d.engine.books i (some m'.book) := by
    ext1 j
    change (d.engine.matchers.insert i m'.book).lookup j = _
    by_cases hj : j = i
    · rw [hj, Finmap.lookup_insert, Function.update_self]
    · rw [Finmap.lookup_insert_of_ne _ hj, Function.update_of_ne hj]
      rfl
  refine ⟨?_, ⟨hm.capacity, fun c hc => hc.update hm ?_⟩, .insert hi _, fun c hc hch => ?_⟩
  · rw [hbooks]
    exact hl.update hi hm (fun c hc => hh (hown hc)) hperm.subperm
  · exact hperm.symm.subset
  · exact hm.frame c (fun hmem => hch (hown hmem)) hc

/-- Writing to an order of the book. -/
theorem World.rewrite (hl : Lodged d.pool d.engine.books q held) {hb : OrderBook}
    (hi : d.engine.matchers.lookup i = some hb) {pool' : Pool}
    (hm : Moves ⟨hb, d.pool⟩ (q i) [] ⟨hb, pool'⟩ b' []) (hh : hands ⊆ held)
    (hslots : b'.slots = (q i).slots) :
    World d i q held hands { d with pool := pool' } b' held := by
  have hsame : d.withMatcher i ⟨hb, pool'⟩ = { d with pool := pool' } := by
    unfold Dispatcher.withMatcher
    rw [insert_of_lookup hi]
  rw [← hsame]
  exact World.book hl hi hm (List.nil_subset _) hh (by rw [hslots])

end World

/-! ## The thread

What a step makes of the thread's own: its hands, its session and what it still owes. Handlers
differ only in this. -/

/-- **Slots change hands**, those in `left` for ever. -/
inductive Handover (held hands left slots : List Slot) : List Slot → List Slot → Prop
  | keep : Handover held hands left slots held hands
  | leave : hands = left → Handover held hands left slots held []
  | gain {c : Slot} : c ∈ slots → Handover held hands left slots (c :: held) (c :: hands)
  | drop {c : Slot} : c ∈ hands → c ∉ left →
      Handover held hands left slots (held.erase c) (hands.erase c)

namespace Server

/-- A step of thread `k` is nobody else's. -/
structure Local (x : Server) (k : ℕ) (x' : Server) : Prop where
  /-- The other sessions are as they were, -/
  sessions : ∀ j, j ≠ k → x'.sessions j = x.sessions j
  /-- their threads are where they were, -/
  threads : ∀ j, j ≠ k → x'.threads j = x.threads j
  /-- and their executions are what they were. -/
  executed : ∀ j, j ≠ k → x'.executed j = x.executed j
  /-- Nobody has connected, -/
  nextSessionId : x'.nextSessionId = x.nextSessionId
  /-- and no turn has begun. -/
  events : x'.events = x.events

/-- **Nobody is overfilled**, and the ledger of fills is right. -/
def Metered (x : Server) : Prop :=
  ∀ a, x.filled a = (x.dispatcher.pool.storage.data a).filledQty.toNat
    ∧ (x.dispatcher.pool.storage.data a).Sound

/-- **A step of a thread busy with instrument `i`.** -/
structure Advanced (e : Engine) (x : Server) (k : ℕ) (i : InstrumentId)
    (q : InstrumentId → QueueBook) (held : List Slot) (d : Debt) (hands : List Slot) (x' : Server)
    (b' : QueueBook) (held' : List Slot) (d' : Debt) (hands' : List Slot) : Prop where
  /-- The engine and the pool change as they may. -/
  world : World x.dispatcher i q held hands x'.dispatcher b' held'
  /-- Of the sessions and the threads only this one is concerned. -/
  loc : x.Local k x'
  /-- One slot at most comes into its hands or leaves them. -/
  handover : Handover held hands d.left (q i).slots held' hands'
  /-- It has got somewhere else, or to its end, -/
  owes : Owes e x'.dispatcher.pool.storage b' (x'.threads k) d' hands'
  /-- with the same instrument. -/
  busy : (x'.threads k).instrument = some i ∨ x'.threads k = .idle
  /-- The book will be what it was going to be, -/
  book : d'.book = d.book
  /-- with the same slots out of use, -/
  left : d'.left = d.left
  /-- and what is said and what is still to be said come to the same, -/
  reply : d'.reply (x'.sessions k) = d.reply (x.sessions k)
  /-- as do the executions. -/
  trades : x'.executed k ++ d'.trades = x.executed k ++ d.trades
  /-- Nobody is overfilled by the step. -/
  metered : x.Metered → x'.Metered

/-- The step leads to some debt and hands. -/
def Proceeds (e : Engine) (x : Server) (k : ℕ) (i : InstrumentId) (q : InstrumentId → QueueBook)
    (held : List Slot) (d : Debt) (hands : List Slot) (x' : Server) : Prop :=
  ∃ b' held' d' hands', x.Advanced e k i q held d hands x' b' held' d' hands'

variable {e : Engine} {x x' : Server} {k : ℕ} {i : InstrumentId} {q : InstrumentId → QueueBook}
  {held hands : List Slot} {d : Debt} {t : Ticket} {r : Result} {rest : List Trade} {hb : OrderBook}

theorem local_after (x : Server) (k : ℕ) (d : Dispatcher) (s : Session) (th : Thread) :
    x.Local k (x.after k d s th) :=
  ⟨fun _ hj => Function.update_of_ne hj _ _, fun _ hj => Function.update_of_ne hj _ _,
    fun _ _ => rfl, rfl, rfl⟩

@[simp] theorem threads_after (x : Server) (k : ℕ) (d : Dispatcher) (s : Session) (th : Thread) :
    (x.after k d s th).threads k = th := Function.update_self ..

@[simp] theorem sessions_after (x : Server) (k : ℕ) (d : Dispatcher) (s : Session) (th : Thread) :
    (x.after k d s th).sessions k = s := Function.update_self ..

/-- Writing anything but quantities. -/
theorem Metered.of_data (h : x.Metered) (hfilled : x'.filled = x.filled)
    (hdata : ∀ a, (x'.dispatcher.pool.storage.data a).filledQty
        = (x.dispatcher.pool.storage.data a).filledQty
      ∧ (x'.dispatcher.pool.storage.data a).initialQty
        = (x.dispatcher.pool.storage.data a).initialQty) : x'.Metered := by
  intro a
  obtain ⟨hf, hi⟩ := hdata a
  unfold OrderData.Sound
  rw [hfilled, hf, hi]
  exact h a

/-- A status is no quantity. -/
theorem quantities_withStatus (st : Store) (a : Slot) (s : OrderStatus) (c : Slot) :
    ((st.modify a fun o => o.withStatus s).data c).filledQty = (st.data c).filledQty
      ∧ ((st.modify a fun o => o.withStatus s).data c).initialQty = (st.data c).initialQty := by
  rw [Store.data_modify]
  by_cases hc : c = a
  · rw [hc, Function.update_self]
    exact ⟨rfl, rfl⟩
  · rw [Function.update_of_ne hc]
    exact ⟨rfl, rfl⟩

/-- Filling an order by no more than what is left of it. -/
theorem Metered.addFill (h : x.Metered) {a : Slot} {n : Quantity}
    (hn : n ≤ (x.dispatcher.pool.storage.data a).remaining) : (x.addFill a n).Metered := by
  intro c
  change Function.update x.filled a _ c
    = ((x.dispatcher.pool.storage.modify a fun o => o.fill n).data
    c).filledQty.toNat ∧ ((x.dispatcher.pool.storage.modify a fun o => o.fill n).data c).Sound
  rw [Store.data_modify]
  by_cases hc : c = a
  · subst hc
    rw [Function.update_self, Function.update_self, (h c).2.toNat_fill hn, (h c).1]
    exact ⟨rfl, (h c).2.fill hn⟩
  · rw [Function.update_of_ne hc, Function.update_of_ne hc]
    exact h c

theorem Local.trans {y z : Server} (h : x.Local k y) (h' : y.Local k z) : x.Local k z :=
  ⟨fun j hj => (h'.sessions j hj).trans (h.sessions j hj),
    fun j hj => (h'.threads j hj).trans (h.threads j hj),
    fun j hj => (h'.executed j hj).trans (h.executed j hj),
    h'.nextSessionId.trans h.nextSessionId, h'.events.trans h.events⟩

/-- What there is to show of a step. -/
theorem proceeds_after {y : Server} {D : Dispatcher} {s : Session} {next : Thread} {b' : QueueBook}
    {held' hands' : List Slot} {c : Debt} (hloc : x.Local k y)
    (hw : World x.dispatcher i q held hands D b' held')
    (hh : Handover held hands d.left (q i).slots held' hands')
    (howes : Owes e D.pool.storage b' next c hands')
    (hbusy : next.instrument = some i ∨ next = .idle) (hbook : c.book = d.book)
    (hleft : c.left = d.left) (hreply : c.reply s = d.reply (x.sessions k))
    (htrades : y.executed k ++ c.trades = x.executed k ++ d.trades)
    (hm : x.Metered → (y.after k D s next).Metered) :
    x.Proceeds e k i q held d hands (y.after k D s next) := by
  refine ⟨b', held', c, hands', hw, hloc.trans (y.local_after k D s next), hh, ?_, ?_,
    hbook, hleft, ?_,
    htrades, hm⟩
  · rw [threads_after]
    exact howes
  · rw [threads_after]
    exact hbusy
  · rw [sessions_after]
    exact hreply

theorem Local.refl (x : Server) (k : ℕ) : x.Local k x :=
  ⟨fun _ _ => rfl, fun _ _ => rfl, fun _ _ => rfl, rfl, rfl⟩

/-- A step that says nothing and executes nothing. -/
theorem proceeds_goto {D : Dispatcher} {next : Thread} {b' : QueueBook} {held' hands' : List Slot}
    {d' : Debt} (hw : World x.dispatcher i q held hands D b' held')
    (hh : Handover held hands d.left (q i).slots held' hands')
    (howes : Owes e D.pool.storage b' next d' hands')
    (hbusy : next.instrument = some i ∨ next = .idle) (hbook : d'.book = d.book)
    (hleft : d'.left = d.left) (hreply : d'.reply (x.sessions k) = d.reply (x.sessions k))
    (htrades : d'.trades = d.trades)
    (hdata : ∀ a, (D.pool.storage.data a).filledQty = (x.dispatcher.pool.storage.data a).filledQty
      ∧ (D.pool.storage.data a).initialQty = (x.dispatcher.pool.storage.data a).initialQty) :
    x.Proceeds e k i q held d hands (x.goto k D next) :=
  proceeds_after (.refl x k) hw hh howes hbusy hbook hleft hreply (by rw [htrades])
    fun h => h.of_data rfl hdata

end Server

end Ordbk
