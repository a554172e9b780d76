import Ordbk.Theorems.Replies

/-!
# Theorems/PostStatus — the status a fill carries

Every fill of an order carries the status the order is left with, not the one it had after that
fill. The two agree unless the order is filled by more than one maker: `postStatus_iff` says so of
the book the order meets.
-/

namespace Ordbk

/-! ## Fills, one after the other

An order filled in one piece has one status to tell; filled in several it was partially filled in
between, but the code tells the last status with each of them. -/

/-- What was traded so far is no more than what was traded in all. -/
theorem tradedQty_take_le (ts : List Trade) (k : ℕ) : tradedQty (ts.take k) ≤ tradedQty ts := by
  calc tradedQty (ts.take k) ≤ tradedQty (ts.take k) + tradedQty (ts.drop k) := Nat.le_add_right _ _
    _ = tradedQty ts := by rw [← tradedQty_append, List.take_append_drop]

/-- A status is the right one after every fill, if it is the last one's and there is no other that
fills the order. -/
theorem forall_postStatus_iff {ts : List Trade} {st : OrderStatus} {n : ℕ}
    (hpos : ∀ t ∈ ts, 0 < t.quantity) (hle : tradedQty ts ≤ n)
    (hfull : tradedQty ts = n ↔ st = .filled)
    (hpart : ts ≠ [] → st ≠ .filled → st = .partiallyFilled) :
    (∀ k < ts.length, st = if tradedQty (ts.take (k + 1)) = n then .filled else .partiallyFilled)
      ↔ (st = .filled → ts.length ≤ 1) := by
  constructor
  · rintro h rfl
    match ts, hpos with
    | [], _ => exact Nat.zero_le _
    | [t], _ => exact le_rfl
    | t :: u :: ts, hpos =>
      -- after the first fill there is something left
      have hu : 0 < u.quantity.toNat := UInt64.lt_iff_toNat_lt.mp (hpos u (by simp))
      have hfirst := h 0 (by simp)
      have hne : tradedQty ((t :: u :: ts).take 1) ≠ n := by
        rw [← hfull.mpr rfl]
        simp only [List.take_succ_cons, List.take_zero, tradedQty_cons, tradedQty_nil]
        omega
      rw [if_neg hne] at hfirst
      cases hfirst
  · intro h k hk
    by_cases hst : st = .filled
    · have hk0 : ts.length ≤ k + 1 := (h hst).trans (Nat.le_add_left _ _)
      rw [List.take_of_length_le hk0, if_pos (hfull.mpr hst), hst]
    · have hlt : tradedQty (ts.take (k + 1)) ≠ n := by
        have hle' := tradedQty_take_le ts (k + 1)
        have hne := mt hfull.mp hst
        omega
      rw [if_neg hlt]
      exact hpart (List.ne_nil_of_length_pos (Nat.zero_lt_of_lt hk)) hst

namespace QueueBook

variable {b : QueueBook} {a : Slot} {o : OrderData}

/-- **An order ends filled** exactly when the other side covers it. -/
theorem status_filled_iff (h : b.WF) (h0 : o.filledQty = 0) (hacc : b.rejects o = false) :
    (b.submit a o).order.status = .filled
      ↔ covers o o.remaining (b.side (opposite o.side)) = true := by
  have hne : o.remaining ≠ 0 := remaining_of_fresh h0 ▸ initialQty_of_accepted hacc
  rw [covers_iff_filled h (OrderData.sound_of_fresh h0) hne]
  have hs := submitted b a o
  generalize b.submit a o = r at hs ⊢
  cases hs with
  | rejected hrej => exact absurd (hacc.symm.trans hrej) Bool.false_ne_true
  | filled _ hfull => exact iff_of_true rfl hfull
  | dropped _ hnot _ => exact iff_of_false (dropStatus_ne _).2 (by simp [hnot])
  | rested _ hnot _ => exact iff_of_false (restStatus_ne _).2 (by simp [hnot])

/-- An order that has traded and is not filled is partially filled. -/
theorem status_partial (h : b.WF) (h0 : o.filledQty = 0) (hacc : b.rejects o = false)
    (htr : (b.submit a o).trades ≠ []) (hst : (b.submit a o).order.status ≠ .filled) :
    (b.submit a o).order.status = .partiallyFilled := by
  have ho := OrderData.sound_of_fresh h0
  obtain ⟨t, ts, hts⟩ := List.exists_cons_of_ne_nil htr
  obtain ⟨-, -, hfill⟩ := filled_submit (a := a) h ho
  obtain ⟨-, -, hpos, -⟩ := exists_maker (a := a) h ho (hts ▸ List.mem_cons_self ..)
  have hq : 0 < (b.submit a o).order.filledQty := by
    rw [UInt64.lt_iff_toNat_lt, hfill, hts, tradedQty_cons]
    have := UInt64.lt_iff_toNat_lt.mp hpos
    rw [UInt64.toNat_zero] at this ⊢
    omega
  have hs := submitted b a o
  generalize b.submit a o = r at hs hq hst ⊢
  cases hs with
  | rejected hrej => exact absurd (hacc.symm.trans hrej) Bool.false_ne_true
  | filled _ _ => exact absurd rfl hst
  | dropped _ _ _ => exact if_pos hq
  | rested _ _ _ => exact if_pos hq

/-- A covered order trades all that is left of it. -/
theorem tradedQty_entry (h : b.WF) (ho : o.Sound) (hne : o.remaining ≠ 0)
    (hcov : covers o o.remaining (b.side (opposite o.side)) = true) :
    tradedQty (b.entry o).trades = o.remaining.toNat := by
  have hopen := h.open (s := opposite o.side)
  have hfull : (b.entry o).taker.filledQty = (b.entry o).taker.initialQty :=
    (sound_entry h ho).remaining_eq_zero.mp ((covers_iff ho hopen hne).mp hcov)
  have hinit : (b.entry o).taker.initialQty = o.initialQty :=
    congrArg (·.initialQty) (ident_entry h ho)
  have hfill : (b.entry o).taker.filledQty.toNat
      = o.filledQty.toNat + tradedQty (b.entry o).trades :=
    toNat_filled_sweep ho hopen
  rw [hfull, hinit] at hfill
  rw [ho.toNat_remaining, hfill, Nat.add_sub_cancel_left]

/-- Whoever is covered crosses the first maker. -/
theorem exists_head_of_covers {s : Side} (hne : o.remaining ≠ 0)
    (hcov : covers o o.remaining (b.side s) = true) :
    ∃ k ms, b.side s = k :: ms ∧ ¬ Stops o (k :: ms) := by
  cases hside : b.side s with
  | nil =>
    rw [hside, covers, beq_iff_eq] at hcov
    exact absurd hcov hne
  | cons k ms =>
    refine ⟨k, ms, rfl, not_stops_cons.mpr ⟨hne, ?_⟩⟩
    by_contra hb
    rw [hside, covers, if_pos (Bool.eq_true_of_not_eq_false hb), beq_iff_eq] at hcov
    exact hne hcov

/-- **An order is filled in one piece** exactly when the first maker is as large. -/
theorem length_trades_le_one (h : b.WF) (ho : o.Sound) (hne : o.remaining ≠ 0)
    (hcov : covers o o.remaining (b.side (opposite o.side)) = true) :
    (b.entry o).trades.length ≤ 1
      ↔ ∃ k ∈ (b.side (opposite o.side)).head?, o.remaining ≤ k.order.remaining := by
  have hsum := tradedQty_entry h ho hne hcov
  obtain ⟨k, ms, hside, hcross⟩ := exists_head_of_covers hne hcov
  have hopen : k.order.Open := h.open (s := opposite o.side) k (hside ▸ List.mem_cons_self ..)
  simp only [entry, hside] at hsum ⊢
  rw [List.head?_cons]
  rcases UInt64.lt_or_le o.remaining k.order.remaining with hlt | hle
  · -- the first maker is larger
    rw [sweep_part hcross hopen hlt]
    exact iff_of_true le_rfl ⟨k, rfl, UInt64.le_of_lt hlt⟩
  have htake := sweep_take hcross hle
  rw [htake] at hsum ⊢
  by_cases heq : o.remaining ≤ k.order.remaining
  · -- exactly as large: nothing is left to trade
    have hz : (o.fill k.order.remaining).remaining = 0 := by
      rw [← UInt64.toNat_inj, ho.toNat_remaining_fill hle, UInt64.toNat_zero]
      exact Nat.sub_eq_zero_of_le (UInt64.le_iff_toNat_le.mp heq)
    rw [sweep_stop (.inl hz)]
    exact iff_of_true le_rfl ⟨k, rfl, heq⟩
  · -- smaller: the rest is traded with others
    refine iff_of_false (fun hlen => ?_) fun ⟨c, hc, hcle⟩ => heq (Option.some.inj hc ▸ hcle)
    have hnil : (sweep (o.fill k.order.remaining) ms).trades = [] :=
      List.eq_nil_of_length_eq_zero (Nat.le_zero.mp (Nat.le_of_succ_le_succ hlen))
    have hq : k.order.remaining.toNat = o.remaining.toNat := by
      rw [tradedQty_cons, hnil] at hsum
      exact hsum
    exact heq (UInt64.le_iff_toNat_le.mpr hq.ge)

end QueueBook

/-! ## What is told

The condition is read off the book before the order comes: the top of the other side has all of it,
or there is not enough. -/

/-- The first maker an order meets is as large as the order. -/
def Matcher.topCovers (m : Matcher) (o : OrderData) : Bool :=
  match m.book.peekTop (opposite o.side) with
  | none => false
  | some maker => decide (o.remaining ≤ (m.pool.storage maker).remaining)

/-- A status is told by its byte. -/
theorem OrderStatus.toByte_inj {s t : OrderStatus} : s.toByte = t.toByte ↔ s = t := by
  cases s <;> cases t <;> decide

/-- **Every fill carries the status after it**: `Filled` once the fills so far add up to the whole
order, `PartiallyFilled` until then. -/
def StatusAfterEach (m : NewOrderMsg) (fs : List FillMsg) : Prop :=
  ∀ (k : ℕ) (h : k < fs.length), (fs.get ⟨k, h⟩).postStatus
    = (if ((fs.take (k + 1)).map (·.quantity.toNat)).sum = m.quantity.toNat then OrderStatus.filled
      else .partiallyFilled).toByte

instance (m : NewOrderMsg) (fs : List FillMsg) : Decidable (StatusAfterEach m fs) :=
  inferInstanceAs (Decidable (∀ (k : ℕ) (_ : k < fs.length), _ = _))

namespace Dispatcher

variable {d : Dispatcher} {s : Session} {m : NewOrderMsg} {q : InstrumentId → QueueBook}
  {lost : List Slot}

/-- What handling a new order sends. -/
def replies (d : Dispatcher) (s : Session) (m : NewOrderMsg) : List MessageBody :=
  (d.handleNewOrder s m).2.sent.drop s.sent.length

/-- The order is acknowledged. -/
def Accepts (d : Dispatcher) (s : Session) (m : NewOrderMsg) : Prop :=
  .orderAck ⟨m.clientOrderId, m.clientOrderId⟩ ∈ d.replies s m

instance (d : Dispatcher) (s : Session) (m : NewOrderMsg) : Decidable (d.Accepts s m) :=
  inferInstanceAs (Decidable (_ ∈ _))

/-- The fills an order is told of. -/
def fills (d : Dispatcher) (s : Session) (m : NewOrderMsg) : List FillMsg :=
  (d.replies s m).filterMap fun
    | .fill f => some f
    | _ => none

/-- An order that is acknowledged has reached a book that lets it in, and its fills are reported
under the status it ends with. -/
theorem Inv.accepted (h : d.Inv q lost) (hacc : d.Accepts s m) :
    ∃ a free hb, s.state = .active ∧ d.pool.freeSlots = a :: free
      ∧ d.engine.matchers.lookup m.instrumentId = some hb
      ∧ (q m.instrumentId).rejects (m.order s.clientId) = false
      ∧ d.fills s m = ((q m.instrumentId).submit a (m.order s.clientId)).trades.map
          (fillMsg m ((q m.instrumentId).submit a (m.order s.clientId)).order.status) := by
  unfold Accepts replies at hacc
  unfold fills replies
  by_cases hgo : s.state = .active ∧ d.pool.freeSlots ≠ []
  · obtain ⟨hs, hfree⟩ := hgo
    obtain ⟨a, free, hfree⟩ := List.exists_cons_of_ne_nil hfree
    obtain ⟨-, hrep, -⟩ := handleNewOrder_spec (m := m) h hs hfree
    rw [hrep, sent_report, List.drop_left] at hacc ⊢
    split_ifs at hacc ⊢ with hst
    · simp at hacc
    rcases submitOutcome_cases d.engine q a (m.order s.clientId) with ⟨-, hout⟩ | ⟨hb, hi, hout⟩
    · exact absurd (congrArg (·.order.status) hout) hst
    · change d.outcome q s m a = (q m.instrumentId).submit a (m.order s.clientId) at hout
      rw [hout] at hst ⊢
      refine ⟨a, free, hb, hs, hfree, hi, ?_, ?_⟩
      · exact Bool.eq_false_of_not_eq_true (mt QueueBook.status_rejected_iff.mpr hst)
      · simp [List.filterMap_map]
  · obtain ⟨r, hr⟩ := handleNewOrder_refused (m := m) hgo
    rw [hr, Session.sent_emit, List.drop_left] at hacc
    simp at hacc

/-- Whether a first maker covers an order, on the queue book. -/
theorem Inv.topCovers_iff (h : d.Inv q lost) {i : InstrumentId} {hb : OrderBook}
    (hi : d.engine.matchers.lookup i = some hb) (o : OrderData) :
    Matcher.topCovers ⟨hb, d.pool⟩ o = true
      ↔ ∃ k ∈ ((q i).side (opposite o.side)).head?, o.remaining ≤ k.order.remaining := by
  have hrep : BookRep d.pool.storage hb (q i) := h.custody.rep i hb hi
  simp only [Matcher.topCovers, hrep.peekTop_eq (h.custody.wf i).sorted]
  cases hside : (q i).side (opposite o.side) with
  | nil => exact iff_of_false Bool.false_ne_true fun ⟨k, hk, _⟩ => nomatch hk
  | cons k ms =>
    have hk : (d.pool.storage k.slot).remaining = k.order.remaining :=
      congrArg (·.remaining) (hrep.data_head hside)
    simp [hk]

/-- Of the code's own messages: the status they carry is one status. -/
theorem statusAfterEach_map {ts : List Trade} {st : OrderStatus} :
    StatusAfterEach m (ts.map (fillMsg m st)) ↔ ∀ k < ts.length,
      st = if tradedQty (ts.take (k + 1)) = m.quantity.toNat
        then .filled else .partiallyFilled := by
  have hsum : ∀ k, (((ts.map (fillMsg m st)).take k).map (·.quantity.toNat)).sum
      = tradedQty (ts.take k) := fun k => by
    rw [← List.map_take, List.map_map]
    rfl
  simp only [StatusAfterEach, hsum, List.length_map, List.get_eq_getElem, List.getElem_map]
  exact forall₂_congr fun k _ => OrderStatus.toByte_inj

/-- **The condition, for one order that is let in.** -/
theorem Inv.statusAfterEach_iff (h : d.Inv q lost) (hacc : d.Accepts s m) :
    StatusAfterEach m (d.fills s m) ↔ ∀ t ∈ d.meets s m,
      t.canFullyFill (m.order s.clientId) = true → t.topCovers (m.order s.clientId) = true := by
  obtain ⟨a, free, hb, hs, hfree, hi, hrej, hfills⟩ := h.accepted hacc
  have hw := h.custody.wf m.instrumentId
  have hst : ((q m.instrumentId).submit a (m.order s.clientId)).order.status ≠ .rejected :=
    mt QueueBook.status_rejected_iff.mp (by simp [hrej])
  have hne : (m.order s.clientId).remaining ≠ 0 := by
    rw [QueueBook.remaining_of_fresh (o := m.order s.clientId) rfl]
    exact QueueBook.initialQty_of_accepted hrej
  have hcan : Matcher.canFullyFill ⟨hb, d.pool⟩ (m.order s.clientId) = _ :=
    canFullyFill_eq (m := ⟨hb, d.pool⟩) (h.custody.rep _ hb hi) hw (h.custody.length_slots_le _) _
  have hentry : ((q m.instrumentId).submit a (m.order s.clientId)).trades
      = ((q m.instrumentId).entry (m.order s.clientId)).trades := by
    rw [QueueBook.trades_submit, hrej, if_neg Bool.false_ne_true]
  obtain ⟨hfull, -⟩ := QueueBook.status_submit (a := a) (o := m.order s.clientId) hw rfl hst
  have hout : d.outcome q s m a = (q m.instrumentId).submit a (m.order s.clientId) := by
    rcases submitOutcome_cases d.engine q a (m.order s.clientId) with ⟨hnone, -⟩ | ⟨_, -, hout⟩
    · exact absurd (hi.symm.trans hnone) nofun
    · exact hout
  have hexec := hout ▸ h.executes (s := s) hfree (hout ▸ hst)
  have hpart := QueueBook.status_partial (a := a) (o := m.order s.clientId) hw rfl hrej
  have hmeets : d.meets s m = some ⟨hb, d.pool⟩ := meets_eq hs (by rw [hfree]; rfl) hi
  rw [hfills, statusAfterEach_map, forall_postStatus_iff hexec.pos hexec.le hfull hpart,
    QueueBook.status_filled_iff hw rfl hrej, hentry, hmeets]
  simp only [Option.mem_some_iff, forall_eq', hcan]
  exact imp_congr_right fun hcov => (QueueBook.length_trades_le_one hw (sound_order m _)
    hne hcov).trans
    (h.topCovers_iff hi _).symm

end Dispatcher

/-- **When fills tell the truth**: in every state the gateway can be in, exactly if the book the
order meets cannot fill it, or its first maker can do so alone. -/
theorem Exchange.postStatus_iff {r : InstrumentRegistry} {filter : InstrumentId → Bool} {e : Engine}
    {capacity : ℕ} {x : Exchange} (hnew : Engine.new r filter = .ok e)
    (h : Guarded.Reach Exchange.step (fun _ _ => True) (start e capacity) x) {s : Session}
    {m : NewOrderMsg} (hacc : x.dispatcher.Accepts s m) :
    StatusAfterEach m (x.dispatcher.fills s m) ↔ ∀ t ∈ x.dispatcher.meets s m,
      t.canFullyFill (m.order s.clientId) = true → t.topCovers (m.order s.clientId) = true := by
  obtain ⟨q, lost, hinv, -⟩ := exists_inv (J := fun _ _ _ => True) hnew trivial
    (fun _ _ _ _ _ _ _ _ _ _ _ _ => trivial) h
  exact Dispatcher.Inv.statusAfterEach_iff hinv hacc

/-- Two offers of one lot each, at one price. -/
def Exchange.twoOffers : List Event :=
  [.bytes 0 (encode 1 (.logon ⟨42⟩)), .turn 0,
    .bytes 0 (encode 2 (.newOrder ⟨5, 1, 1, 0, 0, 100, 1⟩)), .turn 0,
    .bytes 0 (encode 3 (.newOrder ⟨6, 1, 1, 0, 0, 100, 1⟩)), .turn 0]

/-- One lot is bought in one piece, and the fill says so. -/
theorem Exchange.postStatus_of_oneLot :
    ∃ x, Guarded.Reach Exchange.step (fun _ _ => True)
        (start ([⟨1⟩].foldl (Engine.addBook fun _ => true) {}) 3) x
      ∧ x.dispatcher.fills (x.sessions 0) ⟨7, 1, 0, 0, 0, 100, 1⟩ = [⟨7, 7, 100, 1, 2⟩]
      ∧ (StatusAfterEach ⟨7, 1, 0, 0, 0, 100, 1⟩
          (x.dispatcher.fills (x.sessions 0) ⟨7, 1, 0, 0, 0, 100, 1⟩)
        ↔ ∀ t ∈ x.dispatcher.meets (x.sessions 0) ⟨7, 1, 0, 0, 0, 100, 1⟩,
          t.canFullyFill (NewOrderMsg.order ⟨7, 1, 0, 0, 0, 100, 1⟩ (x.sessions 0).clientId)
            = true →
          t.topCovers (NewOrderMsg.order ⟨7, 1, 0, 0, 0, 100, 1⟩ (x.sessions 0).clientId)
            = true) := by
  have hrun : ((Guarded.run Exchange.step (fun _ _ => True)
      (start ([⟨1⟩].foldl (Engine.addBook fun _ => true) {}) 3) twoOffers).map fun x => decide
        (x.dispatcher.Accepts (x.sessions 0) ⟨7, 1, 0, 0, 0, 100, 1⟩
          ∧ x.dispatcher.fills (x.sessions 0) ⟨7, 1, 0, 0, 0, 100, 1⟩ = [⟨7, 7, 100, 1, 2⟩]))
        = some true := by decide +kernel
  obtain ⟨x, hx, hd⟩ := Option.map_eq_some_iff.mp hrun
  have hreach := Guarded.Reach.of_run hx
  obtain ⟨hacc, hfills⟩ := of_decide_eq_true hd
  exact ⟨x, hreach, hfills, postStatus_iff (r := ⟨[⟨1⟩], true⟩) rfl hreach hacc⟩

/-- **Two lots are bought in two pieces, and both fills say `Filled`.** -/
theorem Exchange.not_postStatus_of_twoLots :
    ∃ x, Guarded.Reach Exchange.step (fun _ _ => True)
        (start ([⟨1⟩].foldl (Engine.addBook fun _ => true) {}) 3) x
      ∧ x.dispatcher.Accepts (x.sessions 0) ⟨7, 1, 0, 0, 0, 100, 2⟩
      ∧ x.dispatcher.fills (x.sessions 0) ⟨7, 1, 0, 0, 0, 100, 2⟩
          = [⟨7, 7, 100, 1, 2⟩, ⟨7, 7, 100, 1, 2⟩]
      ∧ ¬ StatusAfterEach ⟨7, 1, 0, 0, 0, 100, 2⟩
          (x.dispatcher.fills (x.sessions 0) ⟨7, 1, 0, 0, 0, 100, 2⟩) := by
  have hrun : ((Guarded.run Exchange.step (fun _ _ => True)
      (start ([⟨1⟩].foldl (Engine.addBook fun _ => true) {}) 3) twoOffers).map fun x => decide
        (x.dispatcher.Accepts (x.sessions 0) ⟨7, 1, 0, 0, 0, 100, 2⟩
          ∧ x.dispatcher.fills (x.sessions 0) ⟨7, 1, 0, 0, 0, 100, 2⟩
            = [⟨7, 7, 100, 1, 2⟩, ⟨7, 7, 100, 1, 2⟩]
          ∧ ¬ StatusAfterEach ⟨7, 1, 0, 0, 0, 100, 2⟩
            (x.dispatcher.fills (x.sessions 0) ⟨7, 1, 0, 0, 0, 100, 2⟩))) = some true := by
    decide +kernel
  obtain ⟨x, hx, hd⟩ := Option.map_eq_some_iff.mp hrun
  exact ⟨x, Guarded.Reach.of_run hx, of_decide_eq_true hd⟩

end Ordbk
