import Ordbk.Matching.Matcher

/-!
# Abstract/Sweep — a taker against one list of makers

Once a side of the book is a single list in priority order, matching is one recursion: `sweep` fills
the taker against the head, drops the head when it is full and stops at the first maker that is too
expensive.  No links, no levels, no fuel.

Everything else here is read off one induction, `sweep_rec`: under the standing assumption that
nobody is overfilled, a sweep is a stop, a maker consumed whole followed by a sweep, or a maker
consumed in part — in which case the taker is done.
-/

namespace Ordbk

/-! ## Fills do not wrap

Quantities are 64-bit numbers; a fill is never more than what remains on either side, so they count
like natural numbers. -/

/-- The smaller one, as a number. -/
theorem toNat_qtyMin (a b : Quantity) : (qtyMin a b).toNat = min a.toNat b.toNat := by
  unfold qtyMin
  split_ifs with h
  · rw [UInt64.lt_iff_toNat_lt] at h
    omega
  · rw [UInt64.lt_iff_toNat_lt] at h
    omega

theorem qty_pos_iff {q : Quantity} : 0 < q ↔ q ≠ 0 := by
  rw [UInt64.lt_iff_toNat_lt, UInt64.toNat_zero, ← UInt64.toNat_inj.ne, UInt64.toNat_zero]
  omega

namespace OrderData

/-- The order has not been filled beyond its quantity. -/
def Sound (o : OrderData) : Prop := o.filledQty ≤ o.initialQty

/-- Something of the order is left. -/
def Open (o : OrderData) : Prop := o.filledQty < o.initialQty

instance (o : OrderData) : Decidable o.Sound := inferInstanceAs (Decidable (_ ≤ _))

instance (o : OrderData) : Decidable o.Open := inferInstanceAs (Decidable (_ < _))

/-- `filled_qty += q`. -/
def fill (o : OrderData) (q : Quantity) : OrderData := { o with filledQty := o.filledQty + q }

/-- The order with its whole quantity filled. -/
def full (o : OrderData) : OrderData := { o with filledQty := o.initialQty }

/-- `status = s`. -/
def withStatus (o : OrderData) (s : OrderStatus) : OrderData := { o with status := s }

variable {o : OrderData} {q : Quantity}

/-- An order that is not filled is not overfilled. -/
theorem sound_of_fresh (h : o.filledQty = 0) : o.Sound := by
  unfold Sound
  rw [h, UInt64.le_iff_toNat_le, UInt64.toNat_zero]
  exact Nat.zero_le _

theorem Open.sound (h : o.Open) : o.Sound := UInt64.le_of_lt h

theorem Sound.toNat_remaining (h : o.Sound) :
    o.remaining.toNat = o.initialQty.toNat - o.filledQty.toNat := UInt64.toNat_sub_of_le _ _ h

theorem Sound.toNat_le (h : o.Sound) : o.filledQty.toNat ≤ o.initialQty.toNat :=
  UInt64.le_iff_toNat_le.mp h

theorem Open.toNat_lt (h : o.Open) : o.filledQty.toNat < o.initialQty.toNat :=
  UInt64.lt_iff_toNat_lt.mp h

theorem Sound.remaining_eq_zero (h : o.Sound) : o.remaining = 0 ↔ o.filledQty = o.initialQty := by
  rw [← UInt64.toNat_inj, h.toNat_remaining, ← UInt64.toNat_inj, UInt64.toNat_zero]
  have := h.toNat_le
  omega

/-- Something left is something remaining. -/
theorem Open.remaining_ne_zero (h : o.Open) : o.remaining ≠ 0 := by
  intro h0
  have heq := congrArg UInt64.toNat (h.sound.remaining_eq_zero.mp h0)
  have hlt := h.toNat_lt
  omega

/-- **A fill of at most what remains is exact.** -/
theorem Sound.toNat_fill (h : o.Sound) (hq : q ≤ o.remaining) :
    (o.fill q).filledQty.toNat = o.filledQty.toNat + q.toNat := by
  have hlt := o.initialQty.toNat_lt
  have hle := h.toNat_le
  rw [UInt64.le_iff_toNat_le, h.toNat_remaining] at hq
  rw [fill, UInt64.toNat_add, Nat.mod_eq_of_lt (by omega)]

/-- Nor is it overfilled by what remains. -/
theorem Sound.fill (h : o.Sound) (hq : q ≤ o.remaining) : (o.fill q).Sound := by
  have hf := h.toNat_fill hq
  rw [UInt64.le_iff_toNat_le, h.toNat_remaining] at hq
  have hle := h.toNat_le
  refine UInt64.le_iff_toNat_le.mpr ?_
  rw [hf]
  change _ ≤ o.initialQty.toNat
  omega

theorem Sound.toNat_remaining_fill (h : o.Sound) (hq : q ≤ o.remaining) :
    (o.fill q).remaining.toNat = o.remaining.toNat - q.toNat := by
  rw [(h.fill hq).toNat_remaining, h.toNat_fill hq, h.toNat_remaining]
  change o.initialQty.toNat - _ = _
  omega

/-- Filling what remains fills the order. -/
theorem fill_remaining : o.fill o.remaining = o.full := by
  have h : o.filledQty + (o.initialQty - o.filledQty) = o.initialQty := by
    rw [UInt64.add_comm, UInt64.sub_add_cancel]
  simp only [fill, full, remaining, h]

@[simp] theorem isFullyFilled_full : o.full.isFullyFilled = true := by
  simp [full, isFullyFilled]

/-- Filling less than what remains leaves the order open. -/
theorem Sound.open_fill (h : o.Sound) (hq : q < o.remaining) : (o.fill q).Open := by
  have hf := h.toNat_fill (UInt64.le_of_lt hq)
  rw [UInt64.lt_iff_toNat_lt, h.toNat_remaining] at hq
  refine UInt64.lt_iff_toNat_lt.mpr ?_
  rw [hf]
  change _ < o.initialQty.toNat
  omega

end OrderData

namespace OrderData

/-- The fields no fill ever changes, the others reset. -/
def ident (o : OrderData) : OrderData := { o with filledQty := 0, status := .new }

@[simp] theorem ident_fill (o : OrderData) (q : Quantity) : (o.fill q).ident = o.ident := rfl

@[simp] theorem ident_full (o : OrderData) : o.full.ident = o.ident := rfl

@[simp] theorem ident_withStatus (o : OrderData) (s : OrderStatus) :
    (o.withStatus s).ident = o.ident := rfl

/-- The status of an order that has come to rest, or rests on after a fill. -/
def restStatus (o : OrderData) : OrderStatus := if 0 < o.filledQty then .partiallyFilled else .new

/-- What the book promises of a resting order: something is left of it, and its status says
whether something was filled. -/
structure Live (o : OrderData) : Prop where
  /-- It wants more, -/
  isOpen : o.Open
  /-- and is `New` or `PartiallyFilled` accordingly. -/
  status_eq : o.status = o.restStatus

end OrderData

/-! ## The sweep

A queue is looked at from its front only: how the loop of `match` goes over levels and lists does
not show. -/

/-- An order at rest: its slot and its fields. -/
structure Resting where
  slot : Slot
  order : OrderData
  deriving DecidableEq, Repr

/-- The price a resting order is queued at. -/
def Resting.price (e : Resting) : Price := e.order.limitPrice

/-- What a sweep leaves: the taker, the makers still resting, the executions in order, and the
makers filled on the way, each in its last state. -/
structure Sweep where
  /-- With all it was filled by. -/
  taker : OrderData
  /-- The first of them may be filled in part. -/
  makers : List Resting
  /-- One for each maker met. -/
  trades : List Trade
  /-- The book has no more of them; their slots go back to the pool. -/
  gone : List Resting

/-- The execution of `q` between a taker and a maker, at the maker's price. -/
def tradeOf (taker maker : OrderData) (q : Quantity) : Trade :=
  ⟨maker.id, taker.id, taker.instrument, maker.limitPrice, q, taker.ts⟩

/-- Fill the taker against the head of the makers for as long as it crosses. -/
def sweep (taker : OrderData) : List Resting → Sweep
  | [] => ⟨taker, [], [], []⟩
  | m :: ms =>
    if taker.remaining = 0 ∨ Matcher.blocked taker m.price = true then ⟨taker, m :: ms, [], []⟩
    else
      let q := qtyMin taker.remaining m.order.remaining
      let maker := m.order.fill q
      if maker.isFullyFilled then
        let s := sweep (taker.fill q) ms
        { s with
          trades := tradeOf taker m.order q :: s.trades
          gone := ⟨m.slot, maker.withStatus .filled⟩ :: s.gone }
      else
        ⟨taker.fill q, ⟨m.slot, maker.withStatus .partiallyFilled⟩ :: ms,
          [tradeOf taker m.order q], []⟩

/-- The maker filled to the last unit. -/
def Resting.consumed (m : Resting) : Resting :=
  ⟨m.slot, m.order.full.withStatus .filled⟩

/-- The maker filled by `q`, something of it left. -/
def Resting.partly (m : Resting) (q : Quantity) : Resting :=
  ⟨m.slot, (m.order.fill q).withStatus .partiallyFilled⟩

/-- Why a sweep ends: the taker is filled, nobody is left, or the next maker is too expensive. -/
def Stops (t : OrderData) (ms : List Resting) : Prop :=
  t.remaining = 0 ∨ ∀ m ∈ ms.head?, Matcher.blocked t m.price = true

theorem sweep_stop {t : OrderData} {ms : List Resting} (h : Stops t ms) :
    sweep t ms = ⟨t, ms, [], []⟩ := by
  cases ms with
  | nil => rfl
  | cons m ms => rw [sweep, if_pos (h.imp_right fun hb => hb m rfl)]

/-- A sweep goes on if the taker wants more and the next maker is not too expensive. -/
theorem not_stops_cons {t : OrderData} {m : Resting} {ms : List Resting} :
    ¬ Stops t (m :: ms) ↔ t.remaining ≠ 0 ∧ Matcher.blocked t m.price = false := by
  simp [Stops]

/-- A maker no larger than the taker is consumed whole. -/
theorem sweep_take {t : OrderData} {m : Resting} {ms : List Resting} (h : ¬ Stops t (m :: ms))
    (hle : m.order.remaining ≤ t.remaining) :
    sweep t (m :: ms)
      = { sweep (t.fill m.order.remaining) ms with
          trades := tradeOf t m.order m.order.remaining
            :: (sweep (t.fill m.order.remaining) ms).trades
          gone := m.consumed :: (sweep (t.fill m.order.remaining) ms).gone } := by
  obtain ⟨h0, hb⟩ := not_stops_cons.mp h
  have hq : qtyMin t.remaining m.order.remaining = m.order.remaining :=
    if_neg (UInt64.not_lt.mpr hle)
  rw [sweep, if_neg (by simp [h0, hb])]
  simp only [hq, OrderData.fill_remaining, OrderData.isFullyFilled_full, if_true,
    Resting.consumed]

/-- A maker larger than the taker is consumed in part, and the taker is filled. -/
theorem sweep_part {t : OrderData} {m : Resting} {ms : List Resting} (h : ¬ Stops t (m :: ms))
    (hm : m.order.Open) (hlt : t.remaining < m.order.remaining) :
    sweep t (m :: ms)
      = ⟨t.full, m.partly t.remaining :: ms,
          [tradeOf t m.order t.remaining], []⟩ := by
  obtain ⟨h0, hb⟩ := not_stops_cons.mp h
  have hq : qtyMin t.remaining m.order.remaining = t.remaining := if_pos hlt
  have hfull : (m.order.fill t.remaining).isFullyFilled = false := by
    have hne := (hm.sound.open_fill hlt).toNat_lt
    rw [OrderData.isFullyFilled, beq_eq_false_iff_ne, ← UInt64.toNat_inj.ne]
    omega
  rw [sweep, if_neg (by simp [h0, hb])]
  simp only [hq, hfull, Bool.false_eq_true, if_false, OrderData.fill_remaining, Resting.partly]

/-- **The induction behind every fact about sweeps.**  Nobody is overfilled, so a pass either ends
the sweep or removes the head. -/
theorem sweep_rec {P : OrderData → List Resting → Sweep → Prop}
    (stop : ∀ t ms, t.Sound → (∀ m ∈ ms, m.order.Open) → Stops t ms → P t ms ⟨t, ms, [], []⟩)
    (take : ∀ t m ms s, t.Sound → m.order.Open → (∀ m ∈ ms, m.order.Open) →
      ¬ Stops t (m :: ms) → m.order.remaining ≤ t.remaining →
      s = sweep (t.fill m.order.remaining) ms → P (t.fill m.order.remaining) ms s →
      P t (m :: ms) { s with
        trades := tradeOf t m.order m.order.remaining :: s.trades, gone := m.consumed :: s.gone })
    (part : ∀ t m ms, t.Sound → m.order.Open → (∀ m ∈ ms, m.order.Open) →
      ¬ Stops t (m :: ms) → t.remaining < m.order.remaining →
      P t (m :: ms) ⟨t.full, m.partly t.remaining :: ms,
        [tradeOf t m.order t.remaining], []⟩)
    {t : OrderData} {ms : List Resting} (ht : t.Sound) (hms : ∀ m ∈ ms, m.order.Open) :
    P t ms (sweep t ms) := by
  induction ms generalizing t with
  | nil =>
    have hs : Stops t [] := Or.inr (by simp)
    exact sweep_stop hs ▸ stop t [] ht hms hs
  | cons m ms ih =>
    have hm : m.order.Open := hms m (by simp)
    have hms' : ∀ m ∈ ms, m.order.Open := fun m' hm' => hms m' (List.mem_cons_of_mem _ hm')
    by_cases hs : Stops t (m :: ms)
    · exact sweep_stop hs ▸ stop t (m :: ms) ht hms hs
    by_cases hle : m.order.remaining ≤ t.remaining
    · rw [sweep_take hs hle]
      exact take t m ms _ ht hm hms' hs hle rfl (ih (ht.fill hle) hms')
    · have hlt : t.remaining < m.order.remaining := UInt64.not_le.mp hle
      rw [sweep_part hs hm hlt]
      exact part t m ms ht hm hms' hs hlt

/-! ## What a sweep keeps

Ids, prices, sides and slots stay; what changes is how much is filled. -/

section Facts

variable {t : OrderData} {ms : List Resting}

/-- The same resting order, its fillable fields forgotten. -/
def Resting.ident (e : Resting) : Slot × OrderData := (e.slot, e.order.ident)

@[simp] theorem Resting.ident_consumed (m : Resting) : m.consumed.ident = m.ident := rfl

@[simp] theorem Resting.ident_partly (m : Resting) (q : Quantity) :
    (m.partly q).ident = m.ident := rfl

theorem Resting.price_eq_of_ident {e f : Resting} (h : e.ident = f.ident) : e.price = f.price :=
  congrArg (fun p => p.2.limitPrice) h

/-- **The taker stays the same order** and, for now, keeps its status. -/
theorem ident_sweep_taker (ht : t.Sound) (hms : ∀ m ∈ ms, m.order.Open) :
    (sweep t ms).taker.ident = t.ident ∧ (sweep t ms).taker.status = t.status := by
  refine sweep_rec (P := fun t _ s => s.taker.ident = t.ident ∧ s.taker.status = t.status)
    ?_ ?_ ?_ ht hms
  · intro t ms _ _ _
    exact ⟨rfl, rfl⟩
  · intro t m ms s _ _ _ _ _ _ ih
    exact ih
  · intro t m ms _ _ _ _ _
    exact ⟨rfl, rfl⟩

/-- **The makers are used up from the front**: those gone, then those left, are the makers there
were. -/
theorem ident_sweep_makers (ht : t.Sound) (hms : ∀ m ∈ ms, m.order.Open) :
    ((sweep t ms).gone ++ (sweep t ms).makers).map Resting.ident = ms.map Resting.ident := by
  refine sweep_rec (P := fun _ ms s => (s.gone ++ s.makers).map Resting.ident
    = ms.map Resting.ident) ?_ ?_ ?_ ht hms
  · intro t ms _ _ _
    rfl
  · intro t m ms s _ _ _ _ _ _ ih
    simpa using ih
  · intro t m ms _ _ _ _ _
    rfl

/-- **A sweep overfills nobody.** -/
theorem sound_sweep (ht : t.Sound) (hms : ∀ m ∈ ms, m.order.Open) :
    (sweep t ms).taker.Sound ∧ ∀ m ∈ (sweep t ms).makers, m.order.Open := by
  refine sweep_rec (P := fun _ _ s => s.taker.Sound ∧ ∀ m ∈ s.makers, m.order.Open)
    ?_ ?_ ?_ ht hms
  · intro t ms ht hms _
    exact ⟨ht, hms⟩
  · intro t m ms s _ _ _ _ _ _ ih
    exact ih
  · intro t m ms _ hm hms _ hlt
    refine ⟨UInt64.le_refl _, fun m' hm' => ?_⟩
    rcases List.mem_cons.mp hm' with rfl | hm'
    · exact hm.sound.open_fill hlt
    · exact hms m' hm'

/-- **A sweep ends for a reason.** -/
theorem stops_sweep (ht : t.Sound) (hms : ∀ m ∈ ms, m.order.Open) :
    Stops (sweep t ms).taker (sweep t ms).makers := by
  refine sweep_rec (P := fun _ _ s => Stops s.taker s.makers) ?_ ?_ ?_ ht hms
  · intro t ms _ _ hs
    exact hs
  · intro t m ms s _ _ _ _ _ _ ih
    exact ih
  · intro t m ms _ _ _ _ _
    exact Or.inl (UInt64.sub_self t.initialQty)

/-- Every maker left is one of the old ones, or the head filled in part. -/
theorem mem_sweep_makers (ht : t.Sound) (hms : ∀ m ∈ ms, m.order.Open) {e : Resting}
    (he : e ∈ (sweep t ms).makers) :
    e ∈ ms ∨ ∃ m ∈ ms, ∃ q, 0 < q ∧ q < m.order.remaining ∧ e = m.partly q := by
  revert he
  refine sweep_rec (P := fun _ ms s => e ∈ s.makers →
    e ∈ ms ∨ ∃ m ∈ ms, ∃ q, 0 < q ∧ q < m.order.remaining ∧ e = m.partly q) ?_ ?_ ?_ ht hms
  · intro t ms _ _ _ he
    exact Or.inl he
  · intro t m ms s _ _ _ _ _ _ ih he
    exact (ih he).imp (List.mem_cons_of_mem _) fun ⟨m', hm', h⟩ =>
      ⟨m', List.mem_cons_of_mem _ hm', h⟩
  · intro t m ms _ _ _ hs hlt he
    rcases List.mem_cons.mp he with rfl | he
    · exact Or.inr ⟨m, by simp, t.remaining, qty_pos_iff.mpr (not_stops_cons.mp hs).1, hlt, rfl⟩
    · exact Or.inl (List.mem_cons_of_mem _ he)

/-- **Resting orders stay live** under a fill that leaves something of them. -/
theorem live_partly {m : Resting} {q : Quantity} (hm : m.order.Open) (hq : 0 < q)
    (hlt : q < m.order.remaining) : (m.partly q).order.Live where
  isOpen := hm.sound.open_fill hlt
  status_eq := by
    have hf := hm.sound.toNat_fill (UInt64.le_of_lt hlt)
    have hpos : 0 < (m.order.fill q).filledQty := by
      rw [UInt64.lt_iff_toNat_lt] at hq ⊢
      rw [hf]
      exact Nat.lt_of_lt_of_le hq (Nat.le_add_left _ _)
    exact (if_pos hpos).symm

theorem live_sweep_makers (ht : t.Sound) (hms : ∀ m ∈ ms, m.order.Live) :
    ∀ m ∈ (sweep t ms).makers, m.order.Live := by
  intro e he
  rcases mem_sweep_makers ht (fun m hm => (hms m hm).isOpen) he with he | ⟨m, hm, q, h0, hlt, rfl⟩
  · exact hms e he
  · exact live_partly (hms m hm).isOpen h0 hlt

/-! ## What a sweep trades

Every trade is made with somebody of the queue, at that order's price, and the quantities add up to
what the taker is filled by. -/

/-- The quantity traded, over the integers. -/
def tradedQty (ts : List Trade) : ℕ := (ts.map fun x => x.quantity.toNat).sum

@[simp] theorem tradedQty_nil : tradedQty [] = 0 := rfl

@[simp] theorem tradedQty_cons (x : Trade) (ts : List Trade) :
    tradedQty (x :: ts) = x.quantity.toNat + tradedQty ts := rfl

@[simp] theorem tradedQty_append (ts us : List Trade) :
    tradedQty (ts ++ us) = tradedQty ts + tradedQty us := by simp [tradedQty]

/-- **The taker is filled by exactly what it trades**, over the integers. -/
theorem toNat_filled_sweep (ht : t.Sound) (hms : ∀ m ∈ ms, m.order.Open) :
    (sweep t ms).taker.filledQty.toNat = t.filledQty.toNat + tradedQty (sweep t ms).trades := by
  refine sweep_rec (P := fun t _ s => s.taker.filledQty.toNat
    = t.filledQty.toNat + tradedQty s.trades) ?_ ?_ ?_ ht hms
  · intro t ms _ _ _
    rfl
  · intro t m ms s ht hm _ _ hle _ ih
    rw [ih, ht.toNat_fill hle, tradedQty_cons, Nat.add_assoc]
    rfl
  · intro t m ms ht _ _ _ _
    have hr := ht.toNat_remaining
    have hle := ht.toNat_le
    change t.initialQty.toNat = t.filledQty.toNat + (t.remaining.toNat + 0)
    omega

/-- **Each execution is between the taker and one of the makers, at the maker's price, of a
positive quantity.** -/
theorem mem_sweep_trades (ht : t.Sound) (hms : ∀ m ∈ ms, m.order.Open) {x : Trade}
    (hx : x ∈ (sweep t ms).trades) :
    ∃ m ∈ ms, 0 < x.quantity ∧ x = tradeOf t m.order x.quantity
      ∧ Matcher.blocked t m.price = false := by
  revert hx
  refine sweep_rec (P := fun t ms s => x ∈ s.trades → ∃ m ∈ ms, 0 < x.quantity
    ∧ x = tradeOf t m.order x.quantity ∧ Matcher.blocked t m.price = false) ?_ ?_ ?_ ht hms
  · intro t ms _ _ _ hx
    simp at hx
  · intro t m ms s _ hm _ hs _ _ ih hx
    rcases List.mem_cons.mp hx with rfl | hx
    · exact ⟨m, by simp, qty_pos_iff.mpr hm.remaining_ne_zero, rfl, (not_stops_cons.mp hs).2⟩
    · obtain ⟨m', hm', h⟩ := ih hx
      exact ⟨m', List.mem_cons_of_mem _ hm', h⟩
  · intro t m ms _ _ _ hs _ hx
    obtain rfl : x = tradeOf t m.order t.remaining := by simpa using hx
    exact ⟨m, by simp, qty_pos_iff.mpr (not_stops_cons.mp hs).1, rfl, (not_stops_cons.mp hs).2⟩

end Facts

/-! ## The dry run

`covers` counts down what is needed along the queue, as far as it is cheap enough; a sweep fills the
taker exactly if nothing is needed at the end. -/

/-- The dry run of a sweep: whether the makers cover what the taker still needs. -/
def covers (taker : OrderData) : Quantity → List Resting → Bool
  | need, [] => need == 0
  | need, m :: ms =>
    if Matcher.blocked taker m.price then need == 0
    else if need ≤ m.order.remaining then true
    else covers taker (need - m.order.remaining) ms

theorem blocked_congr {t t' : OrderData} (h : t.ident = t'.ident) (p : Price) :
    Matcher.blocked t p = Matcher.blocked t' p := by
  change Matcher.blocked t.ident p = Matcher.blocked t'.ident p
  rw [h]

theorem covers_congr {t t' : OrderData} (h : t.ident = t'.ident) (need : Quantity)
    (ms : List Resting) : covers t need ms = covers t' need ms := by
  induction ms generalizing need with
  | nil => rfl
  | cons m ms ih => simp only [covers, blocked_congr h, ih]

/-- **The dry run agrees with the run**: a taker with something left is covered exactly when the
sweep fills it. -/
theorem covers_iff {t : OrderData} {ms : List Resting} (ht : t.Sound)
    (hms : ∀ m ∈ ms, m.order.Open) (h0 : t.remaining ≠ 0) :
    covers t t.remaining ms = true ↔ (sweep t ms).taker.remaining = 0 := by
  revert h0
  refine sweep_rec (P := fun t ms s => t.remaining ≠ 0 →
    (covers t t.remaining ms = true ↔ s.taker.remaining = 0)) ?_ ?_ ?_ ht hms
  · intro t ms _ _ hs h0
    have hb := hs.resolve_left h0
    cases ms with
    | nil => simp [covers]
    | cons m ms => simp [covers, hb m rfl]
  · intro t m ms s ht hm hms hs hle hsw ih _
    have hrem := ht.toNat_remaining_fill hle
    rw [covers, if_neg (by simp [(not_stops_cons.mp hs).2])]
    by_cases heq : t.remaining = m.order.remaining
    · -- the maker is exactly large enough: the sweep stops right behind it
      have hz : (t.fill m.order.remaining).remaining = 0 := by
        rw [← UInt64.toNat_inj, hrem, heq, Nat.sub_self, UInt64.toNat_zero]
      rw [if_pos (UInt64.le_of_eq heq), hsw, sweep_stop (Or.inl hz)]
      exact iff_of_true rfl hz
    · have hne : (t.fill m.order.remaining).remaining ≠ 0 := by
        rw [← UInt64.toNat_inj.ne, hrem, UInt64.toNat_zero]
        rw [← UInt64.toNat_inj] at heq
        rw [UInt64.le_iff_toNat_le] at hle
        omega
      have hnle : ¬ t.remaining ≤ m.order.remaining := fun h => heq (UInt64.le_antisymm h hle)
      have hsub : t.remaining - m.order.remaining = (t.fill m.order.remaining).remaining := by
        rw [← UInt64.toNat_inj, hrem, UInt64.toNat_sub_of_le _ _ hle]
      rw [if_neg hnle, hsub]
      exact (Bool.eq_iff_iff.mp (covers_congr (by rfl) _ _)).trans (ih hne)
  · intro t m ms _ hm _ hs hlt _
    rw [covers, if_neg (by simp [(not_stops_cons.mp hs).2]), if_pos (UInt64.le_of_lt hlt)]
    exact iff_of_true rfl (UInt64.sub_self t.initialQty)

end Ordbk
