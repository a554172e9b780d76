import Ordbk.Refinement.Following
import Ordbk.Refinement.View

/-!
# Theorems/Serial — threads without a lock

A thread for every connection works on the one engine, and nothing keeps two requests about one book
apart.  If no request is taken up before the others are done with its book, the threads do what a
gateway does that handles one request at a time (`serialised_of_reach`).  If they overlap there, a
maker is filled twice over, or its slot goes back to the pool twice (`not_serialised_of_overlap`).
-/

namespace Ordbk

/-- A book of the engine, slot addresses aside. -/
def Exchange.shown (x : Exchange) (i : InstrumentId) :=
  (x.dispatcher.engine.book i).map (·.snapshot x.dispatcher.pool)

namespace Server

/-- **As if one after another.** -/
structure Serialised (x₀ : Exchange) (x : Server) : Prop where
  /-- No slot has been given back twice. -/
  released : x.dispatcher.pool.freeSlots.Nodup
  /-- No order has been filled by more than its quantity. -/
  filled : ∀ a, x.filled a ≤ (x.dispatcher.pool.storage.data a).initialQty.toNat
  /-- A gateway that handled the same requests one after another, in the order in which they began,
  has given the same replies and made the same executions on every session that is between two
  messages, and has the same book for every instrument whose book all threads are done with. -/
  serial : ∃ M y, Guarded.Trace Exchange.step (fun _ _ => True)
    (fun y ev => [(ev, y.trades ev)]) x₀ M y
    ∧ M.map Prod.fst = x.events
    ∧ (∀ k, x.threads k = .idle → y.sessions k = x.sessions k ∧ Exchange.tape k M = x.executed k)
    ∧ ∀ i, (∀ k, ¬ x.AtBook k i) → y.shown i = x.toExchange.shown i

variable {e : Engine} {n : ℕ} {x : Server} {q fin : InstrumentId → QueueBook}
  {held lost : List Slot}
  {debt : ℕ → Debt} {hands : ℕ → List Slot} {i : InstrumentId}

/-- A book that everybody is done with is the serial gateway's. -/
theorem Tracked.shown_eq (h : Tracked e n x q fin held lost debt hands)
    (hptrs : ∀ i, e.bookPtrs.lookup i = if (e.matchers.lookup i).isSome then some i else none)
    {π : Equiv.Perm Slot} {q' : InstrumentId → QueueBook} {y : Exchange}
    (hs : Settled e n fin lost π q' y.dispatcher) (hv : ∀ k, ¬ x.AtBook k i) :
    y.shown i = x.toExchange.shown i := by
  have hy : y.dispatcher.engine.book i = y.dispatcher.engine.books i :=
    Engine.book_eq (hs.inv.ptrs i)
  have hx : x.dispatcher.engine.book i = x.dispatcher.engine.books i := by
    refine Engine.book_eq ?_
    rw [h.ptrs, h.books, hptrs]
  have hsome : (y.dispatcher.engine.books i).isSome = (x.dispatcher.engine.books i).isSome :=
    (hs.books i).trans (h.books i).symm
  unfold Exchange.shown
  rw [hy, hx]
  refine map_eq_of_isSome hsome fun hbk' hbk hb' hb => ?_
  have hfin := h.vacant i hv
  exact (h.lodged.rep i hbk hb).snapshot_eq (hs.inv.custody.rep i hbk' hb')
    (hfin ▸ hs.wf i) (h.lodged.length_slots_le i) (hs.inv.custody.length_slots_le i)
    ⟨π, hfin ▸ hs.renamed i⟩

/-- **Requests that do not overlap in a book are serialised**, in every state of every run. -/
theorem serialised_of_reach {r : InstrumentRegistry} {filter : InstrumentId → Bool}
    (hnew : Engine.new r filter = .ok e) (h : Guarded.Reach step Apart (start e n) x) :
    x.Serialised (Exchange.start e n) := by
  obtain ⟨q, fin, held, lost, debt, hands, M, y, ht, hf⟩ :=
    h.invariant (serially_start n hnew) fun _ _ _ hx hok hs => serially_step hx hok hs
  have hinv : EngineInv e (Pool.new n) _ [] := engineInv_new hnew
  obtain ⟨π, q', hs⟩ := hf.settled
  refine ⟨(ht.lodged.nodup 0).of_append_left.of_append_left, fun a => ?_, M, y, hf.trace, hf.events,
    fun k hk => ⟨?_, ?_⟩, fun i hv => ht.shown_eq hinv.ptrs hs hv⟩
  · obtain ⟨hfilled, hsound⟩ := ht.metered a
    rw [hfilled]
    exact UInt64.le_iff_toNat_le.mp hsound
  · rw [hf.sessions, (ht.idle k hk).2.1]
    rfl
  · rw [hf.tapes, (ht.idle k hk).2.2, List.append_nil]

/-- Two connections, each logged on. -/
def twoSessions : List Move :=
  [.accept, .accept, .bytes 1 (encode 1 (.logon ⟨1⟩)), .turn 1,
    .bytes 2 (encode 1 (.logon ⟨2⟩)), .turn 2]

/-- Both sessions send orders and the second a cancel; the threads alternate, on different
instruments. -/
def alternating : List Move := twoSessions ++
  [.bytes 1 (encode 2 (.newOrder ⟨5, 1, 1, 0, 0, 100, 4⟩)), .turn 1,
    .bytes 2 (encode 2 (.newOrder ⟨6, 2, 1, 0, 0, 100, 4⟩)), .turn 2, .advance 2,
      .advance 1, .advance 2,
    .advance 1, .advance 1, .advance 2, .advance 1, .advance 2,
    .bytes 1 (encode 3 (.newOrder ⟨9, 2, 0, 0, 1, 100, 3⟩)), .turn 1,
    .bytes 2 (encode 3 (.cancelOrder ⟨5, 1⟩)), .turn 2, .advance 2, .advance 1,
      .advance 1, .advance 1,
    .advance 2, .advance 1, .advance 1, .advance 1, .advance 1]

/-- The first session buys what the second has offered. -/
theorem serialised_of_alternating :
    ∃ x, Guarded.Reach step Apart
        (start ([⟨1⟩, ⟨2⟩].foldl (Engine.addBook fun _ => true) {}) 4) x
      ∧ x.Quiet ∧ (x.executed 1).map (·.quantity) = [3]
      ∧ x.Serialised (Exchange.start ([⟨1⟩, ⟨2⟩].foldl (Engine.addBook fun _ => true) {}) 4) := by
  have hrun : (Guarded.run step Apart (start ([⟨1⟩, ⟨2⟩].foldl (Engine.addBook fun _ => true) {}) 4)
      alternating).map (fun x => decide (x.Quiet ∧ (x.executed 1).map (·.quantity) = [3]))
      = some true := by decide +kernel
  obtain ⟨x, hx, hrun⟩ := Option.map_eq_some_iff.mp hrun
  obtain ⟨hquiet, hqty⟩ := of_decide_eq_true hrun
  have hreach := Guarded.Reach.of_run hx
  exact ⟨x, hreach, hquiet, hqty, serialised_of_reach (r := ⟨[⟨1⟩, ⟨2⟩], true⟩) rfl hreach⟩

/-! ## Overlapping requests

Two runs in which threads meet in a book. Nothing in the server prevents either. -/

/-- The first session brings an order to rest. -/
def offer (seq : UInt32) (m : NewOrderMsg) : List Move :=
  [.bytes 1 (encode seq (.newOrder m)), .turn 1, .advance 1, .advance 1, .advance 1, .advance 1]

/-- An offer of 4; both sessions want it and have looked at it before either takes it. -/
def twoTakers : List Move := twoSessions ++ offer 2 ⟨5, 1, 1, 0, 0, 100, 4⟩ ++
  [.bytes 1 (encode 3 (.newOrder ⟨6, 1, 0, 0, 1, 100, 4⟩)), .turn 1, .advance 1, .advance 1,
    .bytes 2 (encode 2 (.newOrder ⟨7, 1, 0, 0, 1, 100, 4⟩)), .turn 2, .advance 2, .advance 2,
    .advance 1, .advance 1, .advance 2, .advance 2, .advance 1, .advance 1, .advance 1, .advance 1,
    .advance 1, .advance 2, .advance 2, .advance 2]

/-- Two offers; the first is cancelled when a taker has filled it and not yet popped it. -/
def lateCancel : List Move := twoSessions ++ offer 2 ⟨5, 1, 1, 0, 0, 100, 4⟩ ++
  offer 3 ⟨8, 1, 1, 0, 0, 101, 4⟩ ++
  [.bytes 2 (encode 2 (.newOrder ⟨7, 1, 0, 0, 1, 100, 4⟩)), .turn 2, .advance 2,
    .advance 2, .advance 2,
    .advance 2, .bytes 1 (encode 4 (.cancelOrder ⟨5, 1⟩)), .turn 1, .advance 1, .advance 1,
    .advance 2, .advance 2, .advance 2, .advance 2, .advance 2]

/-- **The threads are not serialisable.**  Two takers fill an order of 4 by 8 between them, each
told that it has bought all 4; and a cancel between the fill and the pop has the maker's slot given
back twice. -/
theorem not_serialised_of_overlap :
    (∃ x, Guarded.Reach step (fun _ _ => True)
      (start ([⟨1⟩].foldl (Engine.addBook fun _ => true) {}) 4) x
        ∧ x.Quiet ∧ (x.dispatcher.pool.storage.data 3).initialQty = 4 ∧ x.filled 3 = 8
        ∧ (x.executed 1).map (·.quantity) = [4] ∧ (x.executed 2).map (·.quantity) = [4]
        ∧ .fill ⟨6, 6, 100, 4, 2⟩ ∈ (x.sessions 1).sent
        ∧ .fill ⟨7, 7, 100, 4, 2⟩ ∈ (x.sessions 2).sent
        ∧ ¬ x.Serialised (Exchange.start ([⟨1⟩].foldl (Engine.addBook fun _ => true) {}) 4))
      ∧ ∃ x, Guarded.Reach step (fun _ _ => True)
          (start ([⟨1⟩].foldl (Engine.addBook fun _ => true) {}) 4) x
        ∧ x.Quiet ∧ x.dispatcher.pool.freeSlots = [1, 3, 3, 0]
        ∧ .cancelled ⟨5⟩ ∈ (x.sessions 1).sent
        ∧ .fill ⟨7, 7, 100, 4, 2⟩ ∈ (x.sessions 2).sent
        ∧ ¬ x.Serialised (Exchange.start ([⟨1⟩].foldl (Engine.addBook fun _ => true) {}) 4) := by
  constructor
  · have hrun : (Guarded.run step (fun _ _ => True)
        (start ([⟨1⟩].foldl (Engine.addBook fun _ => true) {}) 4) twoTakers).map (fun x =>
          decide (x.Quiet ∧ (x.dispatcher.pool.storage.data 3).initialQty = 4 ∧ x.filled 3 = 8
            ∧ (x.executed 1).map (·.quantity) = [4] ∧ (x.executed 2).map (·.quantity) = [4]
            ∧ .fill ⟨6, 6, 100, 4, 2⟩ ∈ (x.sessions 1).sent
            ∧ .fill ⟨7, 7, 100, 4, 2⟩ ∈ (x.sessions 2).sent)) = some true := by decide +kernel
    obtain ⟨x, hx, hrun⟩ := Option.map_eq_some_iff.mp hrun
    obtain ⟨hquiet, hqty, hfill, hrest⟩ := of_decide_eq_true hrun
    refine ⟨x, Guarded.Reach.of_run hx, hquiet, hqty, hfill, hrest.1, hrest.2.1,
      hrest.2.2.1, hrest.2.2.2,
      fun hs => ?_⟩
    have hle := hs.filled 3
    rw [hfill, hqty] at hle
    exact absurd hle (by decide)
  · have hrun : (Guarded.run step (fun _ _ => True)
        (start ([⟨1⟩].foldl (Engine.addBook fun _ => true) {}) 4) lateCancel).map (fun x =>
          decide (x.Quiet ∧ x.dispatcher.pool.freeSlots = [1, 3, 3, 0]
            ∧ .cancelled ⟨5⟩ ∈ (x.sessions 1).sent
            ∧ .fill ⟨7, 7, 100, 4, 2⟩ ∈ (x.sessions 2).sent)) = some true := by decide +kernel
    obtain ⟨x, hx, hrun⟩ := Option.map_eq_some_iff.mp hrun
    obtain ⟨hquiet, hfree, hcancelled, hfill⟩ := of_decide_eq_true hrun
    refine ⟨x, Guarded.Reach.of_run hx, hquiet, hfree, hcancelled, hfill, fun hs => ?_⟩
    have hnd := hs.released
    rw [hfree] at hnd
    exact absurd hnd (by decide)

end Server

end Ordbk
