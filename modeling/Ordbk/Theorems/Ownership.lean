import Ordbk.Theorems.Replies
import Ordbk.Theorems.SlotLedger
import Ordbk.Abstract.Fate

/-!
# Theorems/Ownership — whose orders are whose

Nothing in the book knows who an order belongs to: a cancel names an instrument and an id, and takes
out whoever has it (`not_private_of_foreignCancel`).  That is all another client can do, though,
short of trading with the order at its price (`fate_of_reach`); left uncancelled the order stays
until its executions add up to it (`stays_of_trace`).
-/

namespace Ordbk

/-- Giving a slot back leaves what is in it. -/
theorem Dispatcher.storage_handleNewOrder {d : Dispatcher} {s : Session} {a : Slot} {pool : Pool}
    (hs : s.state = .active) (hacq : d.pool.acquire = some (a, pool)) (m : NewOrderMsg) :
    (d.handleNewOrder s m).1.pool.storage
      = (d.engine.submit (pool.write a (m.order s.clientId)) a).2.1.storage := by
  simp only [handleNewOrder, hs, hacq, ne_eq, not_true_eq_false, if_false]
  split_ifs <;> rfl

namespace Exchange

/-- The orders at rest in a book, by slot. -/
def resting (x : Exchange) (i : InstrumentId) : List Slot :=
  x.dispatcher.engine.resting x.dispatcher.pool i

/-- The order in a slot. -/
def order (x : Exchange) (a : Slot) : OrderData := x.dispatcher.pool.storage.data a

/-- The order that the index of the book of `i` has under an id. -/
def indexed (x : Exchange) (i : InstrumentId) (id : OrderId) : Option Slot :=
  (x.dispatcher.engine.matchers.lookup i).bind fun book => book.find id

/-- The event is a cancel, from a client that is logged on, of this id on this instrument. -/
def Cancels (x : Exchange) (i : InstrumentId) (id : OrderId) : Event → Prop
  | .turn k => x.pending k = some (.cancelOrder ⟨id, i⟩) ∧ (x.sessions k).state = .active
  | _ => False

instance (x : Exchange) (i : InstrumentId) (id : OrderId) : DecidablePred (x.Cancels i id)
  | .turn _ => inferInstanceAs (Decidable (_ ∧ _))
  | .bytes _ _ => inferInstanceAs (Decidable False)
  | .expire _ => inferInstanceAs (Decidable False)

/-- An execution of the event against the order in slot `a`, at its limit price. -/
structure Hits (x : Exchange) (a : Slot) (ev : Event) (t : Trade) : Prop where
  /-- It is made in that event, -/
  mem : t ∈ x.trades ev
  /-- The order is the maker. -/
  maker : t.makerId = (x.order a).id
  /-- It trades at its own price. -/
  price : t.price = (x.order a).limitPrice
  /-- and is of something. -/
  pos : 0 < t.quantity

/-- **All that a client's message can do to an order at rest** in slot `a` of the book of `i`. -/
inductive Fate (x : Exchange) (i : InstrumentId) (a : Slot) (ev : Event) (x' : Exchange) : Prop
  | stays : a ∈ x'.resting i → x'.order a = x.order a → Fate x i a ev x'
  | partly {t : Trade} : x.Hits a ev t → a ∈ x'.resting i →
      (x'.order a).ident = (x.order a).ident →
      (x'.order a).filledQty.toNat = (x.order a).filledQty.toNat + t.quantity.toNat →
      Fate x i a ev x'
  | filled {t : Trade} : x.Hits a ev t → a ∉ x'.resting i →
      (x.order a).filledQty.toNat + t.quantity.toNat = (x.order a).initialQty.toNat →
      Fate x i a ev x'
  | cancelled : x.Cancels i (x.order a).id ev → a ∉ x'.resting i → Fate x i a ev x'

variable {x x' : Exchange} {q q' : InstrumentId → QueueBook} {lost lost' : List Slot} {ev : Event}
  {i : InstrumentId} {a : Slot}

/-- A resting order of the queue book is the order in its slot. -/
theorem Inv.order_eq (h : x.Inv q lost) {e : Resting} (he : e ∈ (q i).resting) :
    x.order e.slot = e.order := by
  cases hb : x.dispatcher.engine.books i with
  | none =>
    have hmem : e.slot ∈ (q i).slots := List.mem_map_of_mem he
    rw [EngineInv.custody h |>.absent i hb] at hmem
    simp at hmem
  | some book => exact (EngineInv.custody h |>.rep i book hb).data he

/-- At rest in the book is at rest in the queue book. -/
theorem Inv.mem_resting (h : x.Inv q lost) : a ∈ x.resting i ↔ ∃ e ∈ (q i).resting, e.slot = a := by
  rw [resting, h.resting_eq i]
  exact List.mem_map

/-- And whoever is not is not. -/
theorem Inv.notMem_resting (h : x.Inv q lost) (ha : a ∉ (q i).slots) : a ∉ x.resting i := by
  rwa [resting, h.resting_eq i]

/-- Nothing has become of an order that is in the queue book as it was. -/
theorem Inv.stays (h : x.Inv q lost) (h' : x'.Inv q' lost') {e : Resting} (he : e ∈ (q i).resting)
    (he' : e ∈ (q' i).resting) : x.Fate i e.slot ev x' :=
  .stays (h'.mem_resting.mpr ⟨e, he', rfl⟩) ((h'.order_eq he').trans (h.order_eq he).symm)

/-- What the queue book makes of an order is what becomes of it. -/
theorem Inv.fate (h : x.Inv q lost) (h' : x'.Inv q' lost') {e : Resting} (he : e ∈ (q i).resting)
    {o : OrderData} (hf : e.Fate o (x.trades ev) (q' i)) : x.Fate i e.slot ev x' := by
  have horder := h.order_eq he
  have hopen : e.order.Open :=
    let ⟨_, hs⟩ := (q i).mem_resting.mp he
    (EngineInv.custody h |>.wf i).open e hs
  have hits : ∀ {n : Quantity}, tradeOf o e.order n ∈ x.trades ev → 0 < n →
      x.Hits e.slot ev (tradeOf o e.order n) := fun ht hn =>
    ⟨ht, by rw [horder]; rfl, by rw [horder]; rfl, hn⟩
  cases hf with
  | stays he' => exact h.stays h' he he'
  | @partly n ht hn hlt he' =>
    have horder' : x'.order e.slot = (e.partly n).order := h'.order_eq he'
    refine .partly (hits ht hn) (h'.mem_resting.mpr ⟨_, he', rfl⟩) ?_ ?_
    · rw [horder', horder]
      rfl
    · rw [horder', horder]
      exact hopen.sound.toNat_fill (UInt64.le_of_lt hlt)
  | filled ht hn hgone =>
    refine .filled (hits ht hn) (h'.notMem_resting hgone) ?_
    have hrem := hopen.sound.toNat_remaining
    have hle := hopen.sound.toNat_le
    rw [horder]
    change _ + e.order.remaining.toNat = _
    omega

/-- **One message and one order at rest.** -/
theorem Inv.fate_step (h : x.Inv q lost) (ha : a ∈ x.resting i) (hev : isTraffic ev = true)
    (hs : x.step ev = some x') : x.Fate i a ev x' := by
  obtain ⟨q', lost', h', hh⟩ := step_spec h hs
  obtain ⟨e, he, rfl⟩ := h.mem_resting.mp ha
  cases hh with
  | quiet _ _ => exact h.stays h' he he
  | @order k m c _ hp hact hslot _ _ =>
    by_cases hi : i = m.instrumentId
    · subst hi
      obtain ⟨free, hfree⟩ := List.head?_eq_some_iff.mp hslot
      have htrades := Inv.trades_turn h hp hact hfree
      refine h.fate h' he (o := m.order (x.sessions k).clientId) ?_
      rw [htrades, Function.update_self]
      obtain ⟨pool, -, -, -, hheld⟩ := Dispatcher.Inv.take h hfree (m.order (x.sessions k).clientId)
      have hc : c ∉ (q m.instrumentId).slots :=
        hheld.custody.notMem_slots_of_held (List.mem_cons_self ..)
      rcases submitOutcome_cases x.dispatcher.engine q c (m.order (x.sessions k).clientId) with
        ⟨-, hout⟩ | ⟨hb, -, hout⟩
      · rw [Dispatcher.outcome, hout]
        exact .stays he
      · rw [Dispatcher.outcome, hout]
        exact QueueBook.fate_submit (EngineInv.custody h |>.wf _) (Dispatcher.sound_order m _) hc he
    · refine h.stays h' he ?_
      rwa [Function.update_of_ne hi]
  | @cancel k m _ hp hact _ _ =>
    by_cases hi : i = m.instrumentId
    · subst hi
      have hwf := EngineInv.custody h |>.wf m.instrumentId
      rcases QueueBook.fate_cancel hwf he m.clientOrderId with hk | ⟨hid, hgone⟩
      · refine h.stays h' he ?_
        rwa [Function.update_self]
      · refine .cancelled ⟨?_, hact⟩ (h'.notMem_resting ?_)
        · rw [hp, h.order_eq he, hid]
        · rwa [Function.update_self]
    · refine h.stays h' he ?_
      rwa [Function.update_of_ne hi]
  | expire _ _ => nomatch hev

/-- **A cancel, whoever it is from**, takes out the order the index has under its id, and no other.
-/
theorem Inv.cancels (h : x.Inv q lost) {id : OrderId} (hc : x.Cancels i id ev)
    (ha : x.indexed i id = some a) (hs : x.step ev = some x') :
    a ∈ x.resting i ∧ (x.order a).id = id ∧ x'.resting i = (x.resting i).filter (· ≠ a) := by
  cases ev with
  | bytes k data => exact hc.elim
  | expire j => exact hc.elim
  | turn k =>
    obtain ⟨hp, hact⟩ := hc
    have hw := EngineInv.custody h |>.wf i
    -- the index of the book is that of its queue book
    obtain ⟨book, hbook, hfind⟩ := Option.bind_eq_some_iff.mp ha
    obtain ⟨loc, hloc, rfl⟩ := Option.map_eq_some_iff.mp hfind
    rw [(EngineInv.custody h |>.rep i book hbook).index] at hloc
    obtain ⟨e, he, hslot, hid, -⟩ := hw.located id loc hloc
    have hmem : e ∈ (q i).resting := (q i).mem_resting.mpr ⟨_, he⟩
    refine ⟨h.mem_resting.mpr ⟨e, hmem, hslot⟩, by rw [← hslot, h.order_eq hmem, hid], ?_⟩
    obtain rfl := Option.some.inj hs
    rw [turn_of_pending hp]
    obtain ⟨hinv, -, -⟩ := Dispatcher.handleCancel_spec (s := (x.sessions k).nextInbound.1) h hact
      ⟨id, i⟩
    have hafter := Inv.resting_eq (x := x.withSession k _) hinv i
    rw [Function.update_self, QueueBook.cancel, hloc, QueueBook.slots_remove hw hloc] at hafter
    rw [resting, resting, h.resting_eq i]
    exact hafter

/-! ## Left uncancelled

An order that nobody cancels is followed through a whole run: what it has been filled by is what the
run's trades say, and it leaves the book only when that is all of it. -/

/-- **What has become of an order** `o` in slot `a` that came to rest with `n` of it executed, after
the executions `T` of a run: some of those are its own, and it is at rest until they add up. -/
def Kept (i : InstrumentId) (a : Slot) (o : OrderData) (n : ℕ) (T : List Trade) (x : Exchange) :
    Prop :=
  ∃ L : List Trade, L.Sublist T
    ∧ (∀ t ∈ L, t.makerId = o.id ∧ t.price = o.limitPrice ∧ 0 < t.quantity)
    ∧ (a ∈ x.resting i ∧ (x.order a).ident = o.ident
        ∧ (x.order a).filledQty.toNat = n + tradedQty L ∧ n + tradedQty L < o.initialQty.toNat
      ∨ n + tradedQty L = o.initialQty.toNat)

/-- The client's message is no cancel of this id on this instrument. -/
def Uncancelled (i : InstrumentId) (id : OrderId) (x : Exchange) (ev : Event) : Prop :=
  isTraffic ev = true ∧ ¬ x.Cancels i id ev

instance (i : InstrumentId) (id : OrderId) (x : Exchange) (ev : Event) :
    Decidable (Uncancelled i id x ev) := inferInstanceAs (Decidable (_ ∧ _))

/-- An order at rest has something left. -/
theorem Inv.filledQty_lt (h : x.Inv q lost) (ha : a ∈ x.resting i) :
    (x.order a).filledQty.toNat < (x.order a).initialQty.toNat := by
  obtain ⟨e, he, rfl⟩ := h.mem_resting.mp ha
  obtain ⟨s, hs⟩ := (q i).mem_resting.mp he
  rw [h.order_eq he]
  exact ((EngineInv.custody h |>.wf i).open e hs).toNat_lt

/-- **One event**, which is no cancel of the order. -/
theorem Kept.step {o : OrderData} {n : ℕ} {T : List Trade} (hk : Kept i a o n T x)
    (h : x.Inv q lost) (hok : Uncancelled i o.id x ev) (hs : x.step ev = some x') :
    Kept i a o n (T ++ x.trades ev) x' := by
  obtain ⟨L, hsub, hown, ⟨ha, hident, hfill, hlt⟩ | hfull⟩ := hk
  · have hid : (x.order a).id = o.id := congrArg (·.id) hident
    have hprice : (x.order a).limitPrice = o.limitPrice := congrArg (·.limitPrice) hident
    have hinit : (x.order a).initialQty = o.initialQty := congrArg (·.initialQty) hident
    -- one more execution of its own
    have hmore : ∀ {t}, x.Hits a ev t → (L ++ [t]).Sublist (T ++ x.trades ev)
        ∧ (∀ t' ∈ L ++ [t], t'.makerId = o.id ∧ t'.price = o.limitPrice ∧ 0 < t'.quantity)
        ∧ n + tradedQty (L ++ [t]) = (x.order a).filledQty.toNat + t.quantity.toNat := by
      intro t ht
      refine ⟨hsub.append (List.singleton_sublist.mpr ht.mem), fun t' ht' => ?_, ?_⟩
      · rcases List.mem_append.mp ht' with ht' | ht'
        · exact hown t' ht'
        · rw [List.mem_singleton.mp ht']
          exact ⟨ht.maker.trans hid, ht.price.trans hprice, ht.pos⟩
      · rw [tradedQty_append, tradedQty_cons, tradedQty_nil, hfill]
        omega
    cases h.fate_step ha hok.1 hs with
    | stays ha' hsame =>
      exact ⟨L, hsub.trans (List.sublist_append_left _ _), hown,
        .inl ⟨ha', by rw [hsame, hident], by rw [hsame, hfill], hlt⟩⟩
    | @partly t ht ha' hident' hfill' =>
      obtain ⟨hsub', hown', hsum⟩ := hmore ht
      obtain ⟨q', lost', h', -⟩ := step_spec h hs
      have hinit' : (x'.order a).initialQty = o.initialQty :=
        (congrArg (·.initialQty) hident').trans hinit
      have hlt' := h'.filledQty_lt ha'
      rw [hinit', hfill', ← hsum] at hlt'
      exact ⟨L ++ [t], hsub', hown', .inl ⟨ha', hident'.trans hident, hfill'.trans hsum.symm, hlt'⟩⟩
    | @filled t ht _ hfull =>
      obtain ⟨hsub', hown', hsum⟩ := hmore ht
      exact ⟨L ++ [t], hsub', hown', .inr (hsum.trans (hfull.trans (congrArg _ hinit)))⟩
    | cancelled hc _ => exact absurd (hid ▸ hc) hok.2
  · exact ⟨L, hsub.trans (List.sublist_append_left _ _), hown, .inr hfull⟩

/-- The order as it came to rest. -/
theorem Inv.kept_of_entry (h : x.Inv q lost) {k : ℕ} {m : NewOrderMsg} {pool : Pool}
    (hp : x.pending k = some (.newOrder m)) (hact : (x.sessions k).state = .active)
    (hacq : x.dispatcher.pool.acquire = some (a, pool)) (hs : x.step (.turn k) = some x')
    (ha : a ∈ x'.resting m.instrumentId) :
    Kept m.instrumentId a (m.order (x.sessions k).clientId) (tradedQty (x.trades (.turn k))) []
      x' := by
  obtain ⟨hfree, -⟩ := Pool.acquire_eq_some hacq
  obtain ⟨q', lost', h', -⟩ := step_spec h hs
  obtain ⟨pool', hacq', hdata, -⟩ := Dispatcher.Inv.submitted h (x.sessions k) m hfree
  obtain rfl : pool = pool' := (Prod.mk.inj (Option.some.inj (hacq.symm.trans hacq'))).2
  -- the slot holds what the engine made of the order
  have horder : x'.order a = (x.dispatcher.outcome q (x.sessions k) m a).order := by
    obtain rfl := Option.some.inj hs
    rw [← hdata]
    change (x.dispatcher.turn (x.sessions k)).1.pool.storage.data a = _
    rw [turn_of_pending hp]
    exact congrArg (fun st : Store => st.data a)
      (Dispatcher.storage_handleNewOrder (s := (x.sessions k).nextInbound.1) hact hacq m)
  have hfill : (x'.order a).ident = (m.order (x.sessions k).clientId).ident
      ∧ (x'.order a).filledQty.toNat = tradedQty (x.trades (.turn k)) := by
    rw [Inv.trades_turn h hp hact hfree, horder]
    rcases submitOutcome_cases x.dispatcher.engine q a (m.order (x.sessions k).clientId) with
      ⟨-, hout⟩ | ⟨hb, -, hout⟩
    · rw [Dispatcher.outcome, hout]
      exact ⟨rfl, rfl⟩
    · rw [Dispatcher.outcome, hout]
      obtain ⟨hident, -, hfill⟩ := QueueBook.filled_submit (a := a)
        (EngineInv.custody h |>.wf m.instrumentId)
        (Dispatcher.sound_order m (x.sessions k).clientId)
      exact ⟨hident, hfill.trans (Nat.zero_add _)⟩
  have hinit : (x'.order a).initialQty = (m.order (x.sessions k).clientId).initialQty :=
    congrArg (·.initialQty) hfill.1
  have hlt := h'.filledQty_lt ha
  rw [hinit, hfill.2] at hlt
  exact ⟨[], List.Sublist.refl _, by simp, .inl ⟨ha, hfill.1, hfill.2, hlt⟩⟩

/-- **What other clients can do to an order.**  In every state the gateway can be in, a client's
message leaves an order at rest as it is, or trades with it at its limit price, or is a cancel
naming its instrument and its id, whoever sends it; and such a cancel does take out the order that
the index has under the id.  An order that came to rest stays there, for as long as nobody cancels
its id on its instrument, until its executions add up to its quantity. -/
theorem fate_of_reach {r : InstrumentRegistry} {filter : InstrumentId → Bool} {e : Engine}
    {capacity : ℕ} (hnew : Engine.new r filter = .ok e)
    (h : Guarded.Reach Exchange.step (fun _ _ => True) (start e capacity) x) :
    (∀ i a ev x', isTraffic ev = true → a ∈ x.resting i → x.step ev = some x' → x.Fate i a ev x')
      ∧ (∀ i id a ev x', x.Cancels i id ev → x.indexed i id = some a → x.step ev = some x' →
          a ∈ x.resting i ∧ (x.order a).id = id ∧ x'.resting i = (x.resting i).filter (· ≠ a))
      ∧ ∀ k m a pool x₁, x.pending k = some (.newOrder m) → (x.sessions k).state = .active →
          x.dispatcher.pool.acquire = some (a, pool) → x.step (.turn k) = some x₁ →
          a ∈ x₁.resting m.instrumentId →
          ∀ T x₂, Guarded.Trace Exchange.step (Uncancelled m.instrumentId m.clientOrderId) trades
            x₁ T x₂ →
          Kept m.instrumentId a (m.order (x.sessions k).clientId) (tradedQty (x.trades (.turn k)))
            T x₂ := by
  obtain ⟨q, lost, hinv, -⟩ := exists_inv (J := fun _ _ _ => True) hnew trivial
    (fun _ _ _ _ _ _ _ _ _ _ _ _ => trivial) h
  refine ⟨fun i a ev x' hev ha hs => hinv.fate_step ha hev hs,
    fun i id a ev x' hc ha hs => hinv.cancels hc ha hs,
    fun k m a pool x₁ hp hact hacq hs ha T x₂ htrace => ?_⟩
  obtain ⟨q₁, lost₁, h₁, -⟩ := step_spec hinv hs
  have hkept := hinv.kept_of_entry hp hact hacq hs ha
  refine (htrace.invariant (I := fun T x₂ => (∃ q lost, x₂.Inv q lost)
    ∧ Kept m.instrumentId a (m.order (x.sessions k).clientId) (tradedQty (x.trades (.turn k))) T x₂)
    ⟨⟨q₁, lost₁, h₁⟩, hkept⟩ ?_).2
  rintro T x ev x' ⟨⟨q, lost, h⟩, hkept⟩ hok hs
  obtain ⟨q', lost', h', -⟩ := step_spec h hs
  exact ⟨⟨q', lost', h'⟩, hkept.step h hok hs⟩

/-- Two clients log on, and the first has a bid for 10 on its way. -/
def twoClients : List Event :=
  [.bytes 0 (encode 1 (.logon ⟨1⟩)), .turn 0, .bytes 1 (encode 1 (.logon ⟨2⟩)), .turn 1,
    .bytes 0 (encode 2 (.newOrder ⟨5, 1, 0, 0, 0, 100, 10⟩))]

/-- The second client sells 4 to the bid; or it cancels the bid. -/
theorem fate_of_partialFill :
    (∃ x x₁ x₂ T, Guarded.Reach Exchange.step (fun _ _ => True)
        (start ([⟨1⟩].foldl (Engine.addBook fun _ => true) {}) 3) x
      ∧ x.step (.turn 0) = some x₁
      ∧ Guarded.Trace Exchange.step (Uncancelled 1 5) trades x₁ T x₂
      ∧ T.map (·.quantity) = [4]
      ∧ Kept 1 2 (NewOrderMsg.order ⟨5, 1, 0, 0, 0, 100, 10⟩ (x.sessions 0).clientId)
          (tradedQty (x.trades (.turn 0))) T x₂)
      ∧ ∃ x x', Guarded.Reach Exchange.step (fun _ _ => True)
          (start ([⟨1⟩].foldl (Engine.addBook fun _ => true) {}) 3) x
        ∧ x.step (.turn 1) = some x'
        ∧ 2 ∈ x.resting 1 ∧ (x.order 2).id = 5 ∧ x'.resting 1 = (x.resting 1).filter (· ≠ 2) := by
  constructor
  · have hrun : (Guarded.run Exchange.step (fun _ _ => True)
        (start ([⟨1⟩].foldl (Engine.addBook fun _ => true) {}) 3) twoClients).bind (fun x =>
          (x.step (.turn 0)).bind fun x₁ =>
            (Guarded.record Exchange.step (Uncancelled 1 5) trades x₁
              [.bytes 1 (encode 2 (.newOrder ⟨6, 1, 1, 0, 1, 100, 4⟩)), .turn 1]).map fun R =>
              decide (x.pending 0 = some (.newOrder ⟨5, 1, 0, 0, 0, 100, 10⟩)
                ∧ (x.sessions 0).state = .active ∧ x.dispatcher.pool.freeSlots.head? = some 2
                ∧ 2 ∈ x₁.resting 1 ∧ R.1.map (·.quantity) = [4])) = some true := by decide +kernel
    obtain ⟨x, hx, hrun⟩ := Option.bind_eq_some_iff.mp hrun
    obtain ⟨x₁, hx₁, hrun⟩ := Option.bind_eq_some_iff.mp hrun
    obtain ⟨⟨T, x₂⟩, hT, hrun⟩ := Option.map_eq_some_iff.mp hrun
    obtain ⟨hp, hact, hslot, ha, hqty⟩ := of_decide_eq_true hrun
    obtain ⟨free, hfree⟩ := List.head?_eq_some_iff.mp hslot
    obtain ⟨pool, hacq⟩ := Pool.exists_acquire hfree
    have hreach := Guarded.Reach.of_run hx
    have htrace := Guarded.Trace.of_record hT
    have hkept := (fate_of_reach (r := ⟨[⟨1⟩], true⟩) rfl hreach).2.2 0 _ 2 pool x₁ hp hact hacq hx₁
      ha T x₂ htrace
    exact ⟨x, x₁, x₂, T, hreach, hx₁, htrace, hqty, hkept⟩
  · have hrun : (Guarded.run Exchange.step (fun _ _ => True)
        (start ([⟨1⟩].foldl (Engine.addBook fun _ => true) {}) 3)
        (twoClients ++ [.turn 0, .bytes 1 (encode 2 (.cancelOrder ⟨5, 1⟩))])).map (fun x =>
          decide (x.Cancels 1 5 (.turn 1) ∧ x.indexed 1 5 = some 2))
            = some true := by decide +kernel
    obtain ⟨x, hx, hrun⟩ := Option.map_eq_some_iff.mp hrun
    obtain ⟨hcancels, hindexed⟩ := of_decide_eq_true hrun
    have hreach := Guarded.Reach.of_run hx
    exact ⟨x, _, hreach, rfl,
      (fate_of_reach (r := ⟨[⟨1⟩], true⟩) rfl hreach).2.1 1 5 2 (.turn 1) _ hcancels hindexed rfl⟩

/-- **A client can cancel another client's order**: the bid was acknowledged to the first client and
is at rest, untraded; a cancel of the second takes it out. -/
theorem not_private_of_foreignCancel :
    ∃ x x', Guarded.Reach Exchange.step (fun _ ev => isTraffic ev = true)
        (start ([⟨1⟩].foldl (Engine.addBook fun _ => true) {}) 3) x
      ∧ x.step (.turn 1) = some x'
      ∧ (x.sessions 0).state = .active ∧ (x.sessions 1).state = .active
      ∧ (x.sessions 0).clientId ≠ (x.sessions 1).clientId
      ∧ .orderAck ⟨5, 5⟩ ∈ (x.sessions 0).sent ∧ 2 ∈ x.resting 1
      ∧ (x.order 2).client = (x.sessions 0).clientId
      ∧ x.trades (.turn 1) = [] ∧ 2 ∉ x'.resting 1 := by
  have hrun : (Guarded.run Exchange.step (fun _ ev => isTraffic ev = true)
      (start ([⟨1⟩].foldl (Engine.addBook fun _ => true) {}) 3)
      (twoClients ++ [.turn 0, .bytes 1 (encode 2 (.cancelOrder ⟨5, 1⟩))])).bind (fun x =>
        (x.step (.turn 1)).map fun x' =>
          decide ((x.sessions 0).state = .active ∧ (x.sessions 1).state = .active
            ∧ (x.sessions 0).clientId ≠ (x.sessions 1).clientId
            ∧ .orderAck ⟨5, 5⟩ ∈ (x.sessions 0).sent ∧ 2 ∈ x.resting 1
            ∧ (x.order 2).client = (x.sessions 0).clientId
            ∧ x.trades (.turn 1) = [] ∧ 2 ∉ x'.resting 1)) = some true := by decide +kernel
  obtain ⟨x, hx, hrun⟩ := Option.bind_eq_some_iff.mp hrun
  obtain ⟨x', hx', hrun⟩ := Option.map_eq_some_iff.mp hrun
  exact ⟨x, x', Guarded.Reach.of_run hx, hx', of_decide_eq_true hrun⟩

end Exchange

end Ordbk
