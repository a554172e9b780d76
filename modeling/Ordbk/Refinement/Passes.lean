import Ordbk.Refinement.Matcher

/-!
# Refinement/Passes — a submission, pass by pass

`onward` is what is left of a submission in the middle of its matching loop: the taker partly
filled, some executions made.  It starts as the whole submission (`result_submit`), each pass of the
loop leaves it as it is (`onward_take`, `onward_part`), and in the end it is `concluded`
(`onward_stop`).
-/

namespace Ordbk

namespace QueueBook

/-- What a caller gets to see of an outcome. -/
structure Result where
  /-- The book as it is left, -/
  book : QueueBook
  /-- the order as it ends, -/
  order : OrderData
  /-- and the executions, oldest first. -/
  trades : List Trade

def Outcome.result (r : Outcome) : Result := ⟨r.book, r.order, r.trades⟩

/-- What follows the matching loop. -/
def concluded (b : QueueBook) (a : Slot) (t : OrderData) (ts : List Trade) : Result :=
  if t.isFullyFilled then ⟨b, t.withStatus .filled, ts⟩
  else if t.type = .market ∨ t.tif = .ioc then ⟨b, t.withStatus (dropStatus t), ts⟩
  else ⟨b.rest ⟨a, t.withStatus t.restStatus⟩, t.withStatus t.restStatus, ts⟩

/-- **The rest of a submission**, for a taker that has made the executions `ts`. -/
def onward (b : QueueBook) (a : Slot) (t : OrderData) (ts : List Trade) : Result :=
  (b.entered t).concluded a (b.entry t).taker (ts ++ (b.entry t).trades)

variable {b : QueueBook} {a : Slot} {t : OrderData} {k : Resting} {ms : List Resting}
  {ts : List Trade}

/-- At the start it is all of it. -/
theorem result_submit (hw : b.WF) (ht : t.Sound) (hrej : b.rejects t = false) :
    (b.submit a t).result = b.onward a t [] := by
  have hident := ident_entry hw ht
  have htype : (b.entry t).taker.type = t.type := congrArg (·.type) hident
  have htif : (b.entry t).taker.tif = t.tif := congrArg (·.tif) hident
  unfold submit onward concluded
  rw [hrej, if_neg Bool.false_ne_true, htype, htif, List.nil_append]
  split_ifs <;> rfl

/-- At the end it is what follows the loop. -/
theorem onward_stop (hs : Stops t (b.side (opposite t.side))) :
    b.onward a t ts = b.concluded a t ts := by
  have hentry : b.entry t = ⟨t, b.side (opposite t.side), [], []⟩ := sweep_stop hs
  unfold onward entered
  rw [hentry, swept_of_gone_nil, withSide_side, List.append_nil]

/-- Rewriting the head of a side before it is popped makes no difference. -/
theorem popped_withSide (b : QueueBook) (s : Side) {c' : Resting} (hid : c'.order.id = k.order.id) :
    (b.withSide s (c' :: ms)).popped s c' ms = b.popped s k ms := by
  unfold popped withSide
  rw [hid]
  split_ifs <;> rfl

/-- **A pass that uses up its maker.** -/
theorem onward_take (hk : b.side (opposite t.side) = k :: ms) (hs : ¬ Stops t (k :: ms))
    (hle : k.order.remaining ≤ t.remaining) :
    b.onward a t ts = (b.popped (opposite t.side) k ms).onward a (t.fill k.order.remaining)
      (ts ++ [tradeOf t k.order k.order.remaining]) := by
  have hside : (b.popped (opposite t.side) k ms).side (opposite t.side) = ms := by
    rw [side_popped, if_pos (show SameSide _ _ from Iff.rfl)]
  have hrest : (b.popped (opposite t.side) k ms).entry (t.fill k.order.remaining)
      = sweep (t.fill k.order.remaining) ms := congrArg _ hside
  have hentry := sweep_take hs hle
  rw [← hk] at hentry
  have hbook : (b.popped (opposite t.side) k ms).entered (t.fill k.order.remaining)
      = b.entered t := by
    unfold entered
    rw [hrest, entry, hentry]
    exact swept_take b _ k ms _ _
  unfold onward
  rw [hbook, hrest, entry, hentry, List.append_assoc]
  rfl

/-- **A pass that leaves something of its maker** fills the taker. -/
theorem onward_part (hk : b.side (opposite t.side) = k :: ms) (hs : ¬ Stops t (k :: ms))
    (hopen : k.order.Open) (hlt : t.remaining < k.order.remaining) :
    b.onward a t ts = (b.withSide (opposite t.side) (k.partly t.remaining :: ms)).onward a t.full
      (ts ++ [tradeOf t k.order t.remaining]) := by
  have hstop : ∀ l, Stops t.full l := fun l => .inl (UInt64.sub_self t.initialQty)
  have hentry := sweep_part hs hopen hlt
  rw [← hk] at hentry
  rw [onward_stop (hstop _), onward, entered, entry, hentry, swept_of_gone_nil]

/-- What has been executed so far stays executed. -/
theorem trades_onward (b : QueueBook) (a : Slot) (t : OrderData) (ts : List Trade) :
    ∃ us, (b.onward a t ts).trades = ts ++ us := by
  unfold onward concluded
  split_ifs <;> exact ⟨_, rfl⟩

end QueueBook

end Ordbk
