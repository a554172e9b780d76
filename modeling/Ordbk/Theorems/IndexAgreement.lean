import Ordbk.Refinement.Admission
import Ordbk.Abstract.Indexed

/-!
# Theorems/IndexAgreement — the index and the levels

The gateway takes order ids from its clients as they come, and `add_resting` keeps the old index
entry when an id comes to rest a second time.  `indexAgrees_of_reach`: as long as no order comes to
rest beside another order of its id, index and levels name the same orders and every resting order
can be cancelled.  `not_indexAgrees_of_repeatedId` is the other case.
-/

namespace Ordbk

/-- Every order of this id in the book is on the other side, within reach: it will be gone before
the order rests. -/
def Matcher.IdFree (m : Matcher) (o : OrderData) : Prop :=
  ∀ a ∈ m.book.restingSlots m.pool, (m.pool.storage a).id = o.id →
    a ∈ m.book.sideSlots m.pool (opposite o.side)
      ∧ blocked o (m.pool.storage a).limitPrice = false

instance (m : Matcher) (o : OrderData) : Decidable (m.IdFree o) :=
  inferInstanceAs (Decidable (∀ a ∈ m.book.restingSlots m.pool, _))

/-- An order that is going to rest does so under an id of its own. -/
def Dispatcher.RestsAlone (d : Dispatcher) (s : Session) (m : NewOrderMsg) : Prop :=
  ∀ k ∈ d.meets s m, k.restsIn (m.order s.clientId) = true → k.IdFree (m.order s.clientId)

instance (d : Dispatcher) (s : Session) (m : NewOrderMsg) : Decidable (d.RestsAlone s m) :=
  inferInstanceAs (Decidable (∀ k ∈ d.meets s m, _))

namespace Dispatcher

/-- A `CancelOrder` for slot `a` of book `i` on session `s` is answered by `Cancelled`, and takes
out `a` and nothing else. -/
def Cancels (d : Dispatcher) (s : Session) (i : InstrumentId) (hb : OrderBook) (a : Slot) : Prop :=
  (d.handleCancel s ⟨(d.pool.storage a).id, i⟩).2 = s.emit (.cancelled ⟨(d.pool.storage a).id⟩)
    ∧ ∃ hb', (d.handleCancel s ⟨(d.pool.storage a).id, i⟩).1.engine.matchers.lookup i = some hb'
      ∧ (a :: hb'.restingSlots (d.handleCancel s ⟨(d.pool.storage a).id, i⟩).1.pool).Perm
        (hb.restingSlots d.pool)

/-- **Index and levels agree**, book by book. -/
structure IndexAgrees (d : Dispatcher) : Prop where
  /-- There are as many entries as orders. -/
  count : ∀ i hb, d.engine.matchers.lookup i = some hb →
    hb.orderCount = (hb.restingSlots d.pool).length
  /-- Each order is found by its id, -/
  find : ∀ i hb, d.engine.matchers.lookup i = some hb →
    ∀ a ∈ hb.restingSlots d.pool, hb.find (d.pool.storage a).id = some a
  /-- and can be cancelled by it, from any session that is logged on. -/
  cancellable : ∀ i hb, d.engine.matchers.lookup i = some hb →
    ∀ a ∈ hb.restingSlots d.pool, ∀ s : Session, s.state = .active → d.Cancels s i hb a

variable {d : Dispatcher} {q : InstrumentId → QueueBook} {lost : List Slot} {i : InstrumentId}
  {hb : OrderBook} {s : Session}

/-- An indexed order can be cancelled by its id. -/
theorem cancels_of_lookup (h : d.Inv q lost) (hi : d.engine.matchers.lookup i = some hb) {a : Slot}
    {loc : Locator} (hl : (q i).index.lookup (d.pool.storage a).id = some loc) (ha : loc.order = a)
    (hs : s.state = .active) : d.Cancels s i hb a := by
  obtain ⟨hinv, hreply, -⟩ := handleCancel_spec h hs ⟨(d.pool.storage a).id, i⟩
  have hc : (q i).cancel (d.pool.storage a).id
      = ((q i).remove (d.pool.storage a).id loc, some a) := by
    simp only [QueueBook.cancel, hl, ha]
  simp only [hc, Option.isSome_some, if_true] at hreply hinv
  obtain ⟨hb', hi'⟩ : ∃ hb',
      (d.handleCancel s ⟨(d.pool.storage a).id, i⟩).1.engine.matchers.lookup i = some hb' := by
    unfold handleCancel
    rw [if_neg (not_not.mpr hs)]
    simp only [Engine.cancel, hi]
    exact ⟨_, Finmap.lookup_insert _⟩
  refine ⟨hreply, hb', hi', ?_⟩
  rw [hinv.restingSlots_eq hi', h.restingSlots_eq hi, Function.update_self, ← ha]
  exact QueueBook.slots_remove_perm (h.custody.wf i) (ha ▸ hl)

theorem indexAgrees_of_inv (h : d.Inv q lost) (hall : ∀ i, (q i).Indexed) : d.IndexAgrees := by
  have hloc : ∀ i hb, d.engine.matchers.lookup i = some hb → ∀ a ∈ hb.restingSlots d.pool,
      ∃ loc, (q i).index.lookup (d.pool.storage a).id = some loc ∧ loc.order = a := by
    intro i hb hi a ha
    rw [h.restingSlots_eq hi] at ha
    obtain ⟨e, he, rfl⟩ := List.mem_map.mp ha
    have hid : (d.pool.storage e.slot).id = e.order.id :=
      congrArg (·.id) ((h.custody.rep i hb hi).data he)
    rw [hid]
    exact hall i e he
  refine ⟨fun i hb hi => ?_, fun i hb hi a ha => ?_, fun i hb hi a ha s hs => ?_⟩
  · rw [OrderBook.orderCount, (h.custody.rep i hb hi).index, h.restingSlots_eq hi,
      (hall i).card_keys (h.custody.wf i), QueueBook.slots, List.length_map]
  · obtain ⟨loc, hl, rfl⟩ := hloc i hb hi a ha
    rw [OrderBook.find, (h.custody.rep i hb hi).index, hl]
    rfl
  · obtain ⟨loc, hl, hla⟩ := hloc i hb hi a ha
    exact cancels_of_lookup h hi hl hla hs

end Dispatcher

namespace Exchange

variable {x x' : Exchange} {q q' : InstrumentId → QueueBook} {lost lost' : List Slot} {ev : Event}

/-- The queue book has room for the id of an order that is going to rest. -/
theorem id_ne_of_restsAlone (h : x.Inv q lost) {k : ℕ} {m : NewOrderMsg} {a : Slot} {hb : OrderBook}
    (hs : (x.sessions k).state = .active) (hfree : x.dispatcher.pool.freeSlots.head? = some a)
    (hi : x.dispatcher.engine.matchers.lookup m.instrumentId = some hb)
    (halone : x.dispatcher.RestsAlone (x.sessions k) m)
    (hr : (q m.instrumentId).Rests (m.order (x.sessions k).clientId)) :
    ∀ e ∈ ((q m.instrumentId).entered (m.order (x.sessions k).clientId)).resting,
      e.order.id ≠ m.clientOrderId := by
  have hw := h.custody.wf m.instrumentId
  have hrep := h.custody.rep _ hb hi
  have hidFree := halone _ (Dispatcher.meets_eq hs hfree hi)
    ((h.custody.restsIn_iff hi rfl).mpr hr)
  refine QueueBook.id_ne_of_entered hw (Dispatcher.sound_order m _) hr.unfilled fun e he hid => ?_
  have hdata : x.dispatcher.pool.storage.data e.slot = e.order := hrep.data he
  have hmem : e.slot ∈ hb.restingSlots x.dispatcher.pool := by
    rw [h.restingSlots_eq hi]
    exact List.mem_map_of_mem he
  obtain ⟨hside, hreach⟩ := hidFree e.slot hmem ((congrArg (·.id) hdata).trans hid)
  have hprice : (x.dispatcher.pool.storage e.slot).limitPrice = e.price :=
    congrArg (·.limitPrice) hdata
  change e.slot ∈ hb.sideSlots x.dispatcher.pool (opposite _) at hside
  rw [hrep.sideSlots_eq hw.sorted (h.custody.length_slots_le _)] at hside
  obtain ⟨f, hf, hfe⟩ := List.mem_map.mp hside
  obtain rfl : f = e :=
    List.inj_on_of_nodup_map hw.nodup ((q _).mem_resting.mpr ⟨_, hf⟩) he hfe
  exact ⟨hf, hprice ▸ hreach⟩

theorem Happens.indexed (hh : x.Happens q lost ev x' q' lost') (h : x.Inv q lost)
    (hok : x.Entering Dispatcher.RestsAlone ev) (hall : ∀ i, (q i).Indexed) :
    ∀ i, (q' i).Indexed := by
  -- changing one book
  have hone : ∀ i b, b.Indexed → ∀ j, (Function.update q i b j).Indexed := fun i b hb =>
    (Function.forall_update_iff q fun _ b => b.Indexed).mpr ⟨hb, fun j _ => hall j⟩
  cases hh with
  | quiet _ _ => exact hall
  | @order k m a x' hp hs hfree _ _ =>
    refine hone _ _ ?_
    rcases submitOutcome_cases x.dispatcher.engine q a (m.order (x.sessions k).clientId) with
      ⟨hi, hout⟩ | ⟨hb, hi, hout⟩
    · rw [Dispatcher.outcome, hout]
      exact hall _
    · rw [Dispatcher.outcome, hout]
      exact QueueBook.indexed_submit (hall _) (h.custody.wf _) (Dispatcher.sound_order m _)
        (id_ne_of_restsAlone h hs hfree hi (hok.order hp))
  | cancel _ _ _ _ => exact hone _ _ (QueueBook.indexed_cancel (hall _) (h.custody.wf _) _)
  | expire _ _ => exact hone _ _ (QueueBook.indexed_new _)

variable {r : InstrumentRegistry} {filter : InstrumentId → Bool} {e : Engine} {capacity : ℕ}

/-- **Index and levels agree** in every run in which no order comes to rest beside another of its
id, whatever else the sessions send. -/
theorem indexAgrees_of_reach (hnew : Engine.new r filter = .ok e)
    (h : Guarded.Reach Exchange.step (Entering Dispatcher.RestsAlone) (start e capacity) x) :
    x.dispatcher.IndexAgrees := by
  obtain ⟨q, lost, hinv, hall⟩ := exists_inv (J := fun _ q _ => ∀ i, (q i).Indexed) hnew
    (fun i => QueueBook.indexed_new i)
    (fun x q lost ev x' q' lost' hinv hJ hok hh _ => hh.indexed hinv hok hJ) h
  exact Dispatcher.indexAgrees_of_inv hinv hall

/-- An id used again by the order that takes its first owner out of the book. -/
theorem indexAgrees_of_takeover :
    ∃ x hb, Guarded.Reach Exchange.step (Entering Dispatcher.RestsAlone)
        (start ([⟨1⟩].foldl (Engine.addBook fun _ => true) {}) 4) x
      ∧ x.dispatcher.engine.matchers.lookup 1 = some hb ∧ hb.restingSlots x.dispatcher.pool = [2]
      ∧ hb.find 5 = some 2 ∧ x.dispatcher.IndexAgrees := by
  have hrun : (Guarded.run Exchange.step (Entering Dispatcher.RestsAlone)
      (start ([⟨1⟩].foldl (Engine.addBook fun _ => true) {}) 4)
      [.bytes 0 (encode 1 (.logon ⟨42⟩)), .turn 0,
        .bytes 0 (encode 2 (.newOrder ⟨5, 1, 0, 0, 0, 100, 10⟩)), .turn 0,
        .bytes 1 (encode 1 (.logon ⟨8⟩)), .turn 1,
        .bytes 1 (encode 2 (.newOrder ⟨5, 1, 1, 0, 0, 100, 15⟩)), .turn 1]).map
      (fun x => (x.dispatcher.engine.matchers.lookup 1).map fun hb =>
        (hb.restingSlots x.dispatcher.pool, hb.find 5)) = some (some ([2], some 2)) := by
    decide +kernel
  obtain ⟨x, hx, hbook⟩ := Option.map_eq_some_iff.mp hrun
  obtain ⟨hb, hlookup, hout⟩ := Option.map_eq_some_iff.mp hbook
  obtain ⟨hslots, hfind⟩ := Prod.mk.inj hout
  have hreach := Guarded.Reach.of_run hx
  exact ⟨x, hb, hreach, hlookup, hslots, hfind,
    indexAgrees_of_reach (r := ⟨[⟨1⟩], true⟩) rfl hreach⟩

/-- Two bids of one id: both rest, one is indexed. -/
theorem not_indexAgrees_of_repeatedId :
    ¬ ∀ x, Guarded.Reach Exchange.step (fun _ _ => True)
        (start ([⟨1⟩].foldl (Engine.addBook fun _ => true) {}) 4) x →
      x.dispatcher.IndexAgrees := by
  intro hall
  have hrun : (Guarded.run Exchange.step (fun _ _ => True)
      (start ([⟨1⟩].foldl (Engine.addBook fun _ => true) {}) 4)
      [.bytes 0 (encode 1 (.logon ⟨42⟩)), .turn 0,
        .bytes 0 (encode 2 (.newOrder ⟨5, 1, 0, 0, 0, 100, 10⟩)), .turn 0,
        .bytes 0 (encode 3 (.newOrder ⟨5, 1, 0, 0, 0, 99, 10⟩)), .turn 0]).map
      (fun x => (x.dispatcher.engine.matchers.lookup 1).map fun hb =>
        (hb.orderCount, (hb.restingSlots x.dispatcher.pool).length)) = some (some (1, 2)) := by
    decide +kernel
  obtain ⟨x, hx, hbook⟩ := Option.map_eq_some_iff.mp hrun
  obtain ⟨hb, hlookup, hout⟩ := Option.map_eq_some_iff.mp hbook
  obtain ⟨hcount, hlen⟩ := Prod.mk.inj hout
  have hagree := (hall x (Guarded.Reach.of_run hx)).count 1 hb hlookup
  omega

end Exchange

end Ordbk
