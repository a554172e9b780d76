import Ordbk.Refinement.Gateway
import Ordbk.Abstract.Rested

/-!
# Refinement/Admission — what will become of an order, told beforehand

Whether an order rests, is filled or is dropped is decided by the book it meets: `rejects` and
`canFullyFill`, asked before the order enters, tell.  The predicates here speak of the message about
to be handled and of the state it will find, and `restsIn_iff` and `strands_of_leaks` tie them to
the queue book's own account.
-/

namespace Ordbk

namespace Matcher

/-- The order is accepted, and the book cannot fill all of it. -/
def leavesRemainder (m : Matcher) (o : OrderData) : Bool := !m.rejects o && !m.canFullyFill o

/-- A remainder of the order comes to rest. -/
def restsIn (m : Matcher) (o : OrderData) : Bool :=
  m.leavesRemainder o && !(o.type == .market || o.tif == .ioc)

/-- The order trades against the top of the book, and a remainder of it is dropped. -/
def strands (m : Matcher) (o : OrderData) : Bool :=
  m.leavesRemainder o && (o.type == .market || o.tif == .ioc) &&
    match m.book.peekTop (opposite o.side) with
    | none => false
    | some maker => !blocked o (m.pool.storage maker).limitPrice

end Matcher

namespace Dispatcher

/-- The matcher an order on this session is going to meet. -/
def meets (d : Dispatcher) (s : Session) (m : NewOrderMsg) : Option Matcher :=
  if s.state = .active ∧ d.pool.availableApprox ≠ 0 then
    (d.engine.matchers.lookup m.instrumentId).map fun hb => ⟨hb, d.pool⟩
  else none

end Dispatcher

namespace Exchange

/-- The new order the event is going to handle, and the session it came on. -/
def entrant (x : Exchange) : Event → Option (Session × NewOrderMsg)
  | .turn k =>
    match x.pending k with
    | some (.newOrder m) => some (x.sessions k, m)
    | _ => none
  | _ => none

/-- If the event handles a new order, the order satisfies `P`. -/
def Entering (P : Dispatcher → Session → NewOrderMsg → Prop) (x : Exchange) (ev : Event) : Prop :=
  ∀ y ∈ x.entrant ev, P x.dispatcher y.1 y.2

instance (P : Dispatcher → Session → NewOrderMsg → Prop) [∀ d s m, Decidable (P d s m)]
    (x : Exchange) (ev : Event) : Decidable (x.Entering P ev) :=
  inferInstanceAs (Decidable (∀ y ∈ x.entrant ev, P x.dispatcher y.1 y.2))

theorem Entering.order {P : Dispatcher → Session → NewOrderMsg → Prop} {x : Exchange} {k : ℕ}
    {m : NewOrderMsg} (h : x.Entering P (.turn k)) (hp : x.pending k = some (.newOrder m)) :
    P x.dispatcher (x.sessions k) m :=
  h (x.sessions k, m) (by simp only [entrant, hp, Option.mem_def])

end Exchange

/-! ## The queue book's account

Whether a book lets an order rest, or drops what is left of it, can be told beforehand. -/

section Account

variable {books : InstrumentId → Option OrderBook} {pool : Pool} {q : InstrumentId → QueueBook}
  {held : List Slot} {i : InstrumentId} {hb : OrderBook} {o : OrderData} {a : Slot}

/-- Either there is no book for the order, or its queue book takes it. -/
theorem submitOutcome_cases (e : Engine) (q : InstrumentId → QueueBook) (a : Slot) (o : OrderData) :
    (e.matchers.lookup o.instrument = none
        ∧ submitOutcome e q a o = ⟨q o.instrument, o.withStatus .rejected, [], []⟩)
      ∨ ∃ hb, e.matchers.lookup o.instrument = some hb
        ∧ submitOutcome e q a o = (q o.instrument).submit a o := by
  unfold submitOutcome
  cases e.matchers.lookup o.instrument with
  | none => exact .inl ⟨rfl, rfl⟩
  | some hb => exact .inr ⟨hb, rfl, rfl⟩

theorem Custody.leavesRemainder_iff (h : Custody pool books q held) (hi : books i = some hb)
    (h0 : o.filledQty = 0) :
    Matcher.leavesRemainder ⟨hb, pool⟩ o = true
      ↔ (q i).rejects o = false ∧ ((q i).entry o).taker.isFullyFilled = false := by
  have hrep := h.rep i hb hi
  have hw := h.wf i
  have hlen := h.length_slots_le i
  have hrej : Matcher.rejects ⟨hb, pool⟩ o = (q i).rejects o :=
    rejects_eq (m := ⟨hb, pool⟩) hrep hw hlen o
  have hcan : Matcher.canFullyFill ⟨hb, pool⟩ o
      = covers o o.remaining ((q i).side (opposite o.side)) :=
    canFullyFill_eq (m := ⟨hb, pool⟩) hrep hw hlen o
  rw [Matcher.leavesRemainder, hrej, hcan, Bool.and_eq_true, Bool.not_eq_true', Bool.not_eq_true']
  refine and_congr_right fun hacc => ?_
  have hne : o.remaining ≠ 0 :=
    QueueBook.remaining_of_fresh h0 ▸ QueueBook.initialQty_of_accepted hacc
  rw [← Bool.not_eq_true, ← Bool.not_eq_true,
    QueueBook.covers_iff_filled hw (OrderData.sound_of_fresh h0) hne]

/-- **Who comes to rest**, told from the book beforehand. -/
theorem Custody.restsIn_iff (h : Custody pool books q held) (hi : books i = some hb)
    (h0 : o.filledQty = 0) : Matcher.restsIn ⟨hb, pool⟩ o = true ↔ (q i).Rests o := by
  rw [Matcher.restsIn, Bool.and_eq_true, h.leavesRemainder_iff hi h0, Bool.not_eq_true',
    Bool.or_eq_false_iff, beq_eq_false_iff_ne, beq_eq_false_iff_ne]
  constructor
  · rintro ⟨⟨h1, h2⟩, h3, h4⟩
    exact ⟨h1, h2, not_or.mpr ⟨h3, h4⟩⟩
  · rintro ⟨h1, h2, h3⟩
    exact ⟨⟨h1, h2⟩, not_or.mp h3⟩

/-- **Who is dropped half filled** has traded against the top of the book. -/
theorem Custody.strands_of_leaks (h : Custody pool books q held) (hi : books i = some hb)
    (h0 : o.filledQty = 0) (hl : ((q i).submit a o).order.leaks = true) :
    Matcher.strands ⟨hb, pool⟩ o = true := by
  have hrep := h.rep i hb hi
  have hw := h.wf i
  have hident := QueueBook.ident_entry hw (OrderData.sound_of_fresh h0)
  have hrest := h.leavesRemainder_iff hi h0
  have hs := (q i).submitted a o
  generalize (q i).submit a o = r at hs hl
  cases hs with
  | rejected => simp [OrderData.leaks, OrderData.isTerminal, OrderData.withStatus] at hl
  | filled => simp [OrderData.leaks, OrderData.isTerminal, OrderData.withStatus] at hl
  | rested hacc hnot htype =>
    -- an order at rest is no leak
    have htype' : (((q i).entry o).taker.type == .market || ((q i).entry o).taker.tif == .ioc)
        = false := by
      rw [show ((q i).entry o).taker.type = o.type from congrArg (·.type) hident,
        show ((q i).entry o).taker.tif = o.tif from congrArg (·.tif) hident]
      simpa using htype
    rw [OrderData.leaks, OrderData.rests, QueueBook.isTerminal_restStatus] at hl
    change (!false && !(!false && !(((q i).entry o).taker.type == .market
      || ((q i).entry o).taker.tif == .ioc))) = true at hl
    rw [htype'] at hl
    cases hl
  | dropped hacc hnot htype =>
    have hstops : ¬ Stops o ((q i).side (opposite o.side)) := by
      -- who meets nobody is cancelled
      intro hstops
      have htaker : ((q i).entry o).taker = o := congrArg Sweep.taker (sweep_stop hstops)
      have hstatus : QueueBook.dropStatus o = .cancelled := by
        rw [QueueBook.dropStatus, h0]
        rfl
      rw [htaker, hstatus] at hl
      simp [OrderData.leaks, OrderData.isTerminal, OrderData.withStatus] at hl
    cases hside : (q i).side (opposite o.side) with
    | nil =>
      rw [hside] at hstops
      exact absurd (.inr (by simp)) hstops
    | cons k ks =>
      have hblocked := (not_stops_cons.mp (hside ▸ hstops)).2
      have htop := hrep.peekTop_cons hw.sorted hside
      have hprice : (pool.storage k.slot).limitPrice = k.price :=
        congrArg (·.limitPrice) (hrep.data_head hside)
      have htype' : (o.type == .market || o.tif == .ioc) = true := by simpa using htype
      simp only [Matcher.strands, hrest.mpr ⟨hacc, hnot⟩, htype', htop, hprice, hblocked,
        Bool.and_self, Bool.not_false]

/-- The matcher an order meets on a session is the one of its instrument. -/
theorem Dispatcher.meets_eq {d : Dispatcher} {s : Session} {m : NewOrderMsg}
    (hs : s.state = .active) (hfree : d.pool.freeSlots.head? = some a)
    (hi : d.engine.matchers.lookup m.instrumentId = some hb) :
    d.meets s m = some ⟨hb, d.pool⟩ := by
  have hne : d.pool.availableApprox ≠ 0 := by
    cases hf : d.pool.freeSlots with
    | nil => simp [hf] at hfree
    | cons c free => simp [Pool.availableApprox, hf]
  rw [meets, if_pos ⟨hs, hne⟩, hi]
  rfl

end Account

end Ordbk
