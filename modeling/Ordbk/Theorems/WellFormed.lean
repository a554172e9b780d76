import Ordbk.Refinement.Admission

/-!
# Theorems/WellFormed — what the gateway lets into a book

The dispatcher casts three raw bytes of a message into enumerations and hands the order on; no check
asks whether the bytes name an enumerator.  `wellFormed_of_reach`: as long as no order with an
undeclared byte comes to rest, every resting order is a positively priced limit order on its own
side and every reported execution has a positive price.  `not_wellFormed_of_badType` is an order of
type 7 at rest.
-/

namespace Ordbk

/-- Side, type and time in force of a message are among the documented values. -/
def NewOrderMsg.Declared (m : NewOrderMsg) : Prop :=
  (m.side = 0 ∨ m.side = 1) ∧ (m.orderType = 0 ∨ m.orderType = 1)
    ∧ (m.tif = 0 ∨ m.tif = 1 ∨ m.tif = 2 ∨ m.tif = 3)

instance (m : NewOrderMsg) : Decidable m.Declared := inferInstanceAs (Decidable (_ ∧ _))

theorem NewOrderMsg.declared_order {m : NewOrderMsg} (h : m.Declared) (client : ClientId) :
    (m.order client).Declared := by
  obtain ⟨h1, h2, h3⟩ := h
  refine ⟨?_, ?_, ?_⟩
  · change (Side.ofByte m.side).Declared
    rcases h1 with h | h <;> rw [h] <;> decide
  · change (OrderType.ofByte m.orderType).Declared
    rcases h2 with h | h <;> rw [h] <;> decide
  · change (TimeInForce.ofByte m.tif).Declared
    rcases h3 with h | h | h | h <;> rw [h] <;> decide

/-- An order that is going to rest has no undeclared byte. -/
def Dispatcher.RestsDeclared (d : Dispatcher) (s : Session) (m : NewOrderMsg) : Prop :=
  ∀ k ∈ d.meets s m, k.restsIn (m.order s.clientId) = true → m.Declared

instance (d : Dispatcher) (s : Session) (m : NewOrderMsg) : Decidable (d.RestsDeclared s m) :=
  inferInstanceAs (Decidable (∀ k ∈ d.meets s m, _))

/-- An order that may rest on a side. -/
structure RestsProperly (side : Side) (o : OrderData) : Prop where
  /-- It has a limit, -/
  type : o.type = .limit
  /-- a positive one, -/
  price : 0 < o.limitPrice
  /-- stands on its own side, -/
  side : o.side = side
  /-- and may wait. -/
  tif : o.tif = .gtc ∨ o.tif = .day

namespace Exchange

/-- **Nothing ill-formed is at rest, and nothing was reported at a price that is not positive.** -/
structure WellFormed (x : Exchange) : Prop where
  /-- Of what is at rest, -/
  resting : ∀ i hb, x.dispatcher.engine.matchers.lookup i = some hb →
    ∀ side, side = .buy ∨ side = .sell → ∀ a ∈ hb.sideSlots x.dispatcher.pool side,
      RestsProperly side (x.dispatcher.pool.storage.data a)
  /-- and of what was told to the clients. -/
  fills : ∀ f, x.Reported f → 0 < f.price

/-- A plain order at a price a message can carry. -/
def Listed (o : OrderData) : Prop := Plain o ∧ o.limitPrice < 2 ^ 63

/-- The reports carry the price of a listed maker. -/
theorem fillMsg_price_pos {m : NewOrderMsg} {status : OrderStatus} {t : Trade} {o : OrderData}
    (ho : Listed o) (ht : t.price = o.limitPrice) : 0 < (Dispatcher.fillMsg m status t).price := by
  change 0 < Int64.ofInt t.price
  have hpos : (0 : Int) < o.limitPrice := ho.1.price
  have hlt : (o.limitPrice : Int) < 2 ^ 63 := ho.2
  rw [ht, Int64.lt_iff_toInt_lt, Int64.toInt_ofInt_of_le (by omega) (by omega)]
  exact hpos

variable {x x' : Exchange} {q q' : InstrumentId → QueueBook} {lost lost' : List Slot} {ev : Event}

theorem wellFormed_of_inv (h : x.Inv q lost) (hall : ∀ i, (q i).All Listed)
    (hfills : ∀ f, x.Reported f → 0 < f.price) : x.WellFormed := by
  refine ⟨fun i hb hi side hside a ha => ?_, hfills⟩
  have hrep := h.custody.rep i hb hi
  have hw := h.custody.wf i
  rw [hrep.sideSlots_eq hw.sorted (h.custody.length_slots_le i)] at ha
  obtain ⟨e, he, rfl⟩ := List.mem_map.mp ha
  rw [hrep.data_side he]
  have hp : Plain e.order.ident := ((hall i).side he).1
  exact ⟨hp.type, hp.price, (hw.sided side e he).eq hp.side hside, hp.tif⟩

/-- What an event keeps, if it lets no ill-formed order rest. -/
theorem Happens.listed (hh : x.Happens q lost ev x' q' lost') (h : x.Inv q lost)
    (hok : x.Entering Dispatcher.RestsDeclared ev) (hall : ∀ i, (q i).All Listed)
    (hfills : ∀ f, x.Reported f → 0 < f.price) :
    (∀ i, (q' i).All Listed) ∧ ∀ f, x'.Reported f → 0 < f.price := by
  -- changing one book
  have hone : ∀ i b, b.All Listed → ∀ j, (Function.update q i b j).All Listed := fun i b hb =>
    (Function.forall_update_iff q fun _ b => b.All Listed).mpr ⟨hb, fun j _ => hall j⟩
  cases hh with
  | quiet _ hrep => exact ⟨hall, fun f hf => hfills f (hrep f hf)⟩
  | @order k m a x' hp hs hfree _ hrep =>
    have hw := h.custody.wf m.instrumentId
    have hsound := Dispatcher.sound_order m (x.sessions k).clientId
    rcases submitOutcome_cases x.dispatcher.engine q a (m.order (x.sessions k).clientId) with
      ⟨hi, hout⟩ | ⟨hb, hi, hout⟩
    · simp only [Dispatcher.outcome, hout] at hrep ⊢
      refine ⟨hone _ _ (hall _), fun f hf => ?_⟩
      rcases hrep f hf with hf | ⟨t, ht, -⟩
      · exact hfills f hf
      · simp at ht
    · simp only [Dispatcher.outcome, hout] at hrep ⊢
      refine ⟨hone _ _ (QueueBook.all_submit hw hsound (hall _) fun hr => ?_), fun f hf => ?_⟩
      · have hdecl : m.Declared := hok.order hp _ (Dispatcher.meets_eq hs hfree hi)
          ((h.custody.restsIn_iff hi rfl).mpr hr)
        exact ⟨hr.plain hw rfl (NewOrderMsg.declared_order hdecl _), Int64.toInt_lt m.price⟩
      · rcases hrep f hf with hf | ⟨t, ht, rfl⟩
        · exact hfills f hf
        · obtain ⟨k, hk, -, htrade⟩ := QueueBook.exists_maker hw hsound ht
          exact fillMsg_price_pos ((hall _).side hk) (by rw [htrade]; rfl)
  | cancel _ _ _ hrep =>
    exact ⟨hone _ _ (QueueBook.all_cancel (h.custody.wf _) (hall _) _),
      fun f hf => hfills f (hrep f hf)⟩
  | expire _ hrep => exact ⟨hone _ _ (QueueBook.all_new _), fun f hf => hfills f (hrep f hf)⟩

variable {r : InstrumentRegistry} {filter : InstrumentId → Bool} {e : Engine} {capacity : ℕ}

/-- **The gateway keeps its books well formed** in every run that brings no order with an undeclared
byte to rest. -/
theorem wellFormed_of_reach (hnew : Engine.new r filter = .ok e)
    (h : Guarded.Reach Exchange.step (Entering Dispatcher.RestsDeclared) (start e capacity) x) :
    x.WellFormed := by
  obtain ⟨q, lost, hinv, hall, hfills⟩ := exists_inv
    (J := fun x q _ => (∀ i, (q i).All Listed) ∧ ∀ f, x.Reported f → 0 < f.price) hnew
    ⟨fun i => QueueBook.all_new i, fun f ⟨k, hk⟩ => by simp [start] at hk⟩
    (fun x q lost ev x' q' lost' hinv hJ hok hh _ => hh.listed hinv hok hJ.1 hJ.2) h
  exact wellFormed_of_inv hinv hall hfills

/-- A bid at 100, partly filled by a market order of side, type and tif bytes 1, 1, 1; a second
market order with an undeclared side byte 9 never rests and does no harm. -/
theorem wellFormed_of_marketFills :
    ∃ x, Guarded.Reach Exchange.step (Entering Dispatcher.RestsDeclared)
        (start ([⟨1⟩].foldl (Engine.addBook fun _ => true) {}) 4) x
      ∧ (x.sessions 1).sent = [.logon ⟨8⟩, .orderAck ⟨6, 6⟩, .fill ⟨6, 6, 100, 4, 2⟩,
          .orderAck ⟨7, 7⟩, .fill ⟨7, 7, 100, 3, 2⟩]
      ∧ x.WellFormed := by
  have hrun : (Guarded.run Exchange.step (Entering Dispatcher.RestsDeclared)
      (start ([⟨1⟩].foldl (Engine.addBook fun _ => true) {}) 4)
      [.bytes 0 (encode 1 (.logon ⟨42⟩)), .turn 0,
        .bytes 0 (encode 2 (.newOrder ⟨5, 1, 0, 0, 0, 100, 10⟩)), .turn 0,
        .bytes 1 (encode 1 (.logon ⟨8⟩)), .turn 1,
        .bytes 1 (encode 2 (.newOrder ⟨6, 1, 1, 1, 1, 0, 4⟩)), .turn 1,
        .bytes 1 (encode 3 (.newOrder ⟨7, 1, 9, 1, 1, 0, 3⟩)), .turn 1]).map
      (fun x => (x.sessions 1).sent) = some [.logon ⟨8⟩, .orderAck ⟨6, 6⟩, .fill ⟨6, 6, 100, 4, 2⟩,
          .orderAck ⟨7, 7⟩, .fill ⟨7, 7, 100, 3, 2⟩] := by decide +kernel
  obtain ⟨x, hx, hsent⟩ := Option.map_eq_some_iff.mp hrun
  have hreach := Guarded.Reach.of_run hx
  exact ⟨x, hreach, hsent, wellFormed_of_reach (r := ⟨[⟨1⟩], true⟩) rfl hreach⟩

/-- An order of type byte 7 at price -5 is taken for neither a limit nor a market order: it rests,
and the next market order is told of an execution at -5. -/
theorem not_wellFormed_of_badType :
    ¬ ∀ x, Guarded.Reach Exchange.step (fun _ _ => True)
        (start ([⟨1⟩].foldl (Engine.addBook fun _ => true) {}) 4) x → x.WellFormed := by
  intro hall
  have hrun : (Guarded.run Exchange.step (fun _ _ => True)
      (start ([⟨1⟩].foldl (Engine.addBook fun _ => true) {}) 4)
      [.bytes 0 (encode 1 (.logon ⟨42⟩)), .turn 0,
        .bytes 0 (encode 2 (.newOrder ⟨5, 1, 0, 7, 0, -5, 10⟩)), .turn 0,
        .bytes 0 (encode 3 (.newOrder ⟨6, 1, 1, 1, 1, 0, 4⟩)), .turn 0]).map
      (fun x => (x.sessions 0).sent) = some [.logon ⟨42⟩, .orderAck ⟨5, 5⟩, .orderAck ⟨6, 6⟩,
          .fill ⟨6, 6, -5, 4, 2⟩] := by decide +kernel
  obtain ⟨x, hx, hsent⟩ := Option.map_eq_some_iff.mp hrun
  have hpos := (hall x (Guarded.Reach.of_run hx)).fills ⟨6, 6, -5, 4, 2⟩ ⟨0, by simp [hsent]⟩
  exact absurd hpos (by decide)

end Exchange

end Ordbk
