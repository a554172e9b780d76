import Ordbk.Refinement.Serving

/-!
# Refinement/Handling — the matching loop, step by step

Each step of `handle_new_order` up to the end of its matching loop, on a book that nobody else is
busy with: from any stage a thread proceeds to the next.
-/

namespace Ordbk

open QueueBook (Result)

namespace Server

variable {e : Engine} {x x' : Server} {k : ℕ} {q : InstrumentId → QueueBook}
  {held hands : List Slot} {t : Ticket} {r : Result} {rest : List Trade} {hb : OrderBook}
  {o : OrderData}

/-! ## The status of the order

An early return, and the end of the matching loop, write one status into the order; nothing in the
book moves. -/

/-- The thread's own order is given a status. -/
theorem proceeds_mark {i : InstrumentId} {d : Debt} {status : OrderStatus} {next : Thread}
    (hl : Lodged x.dispatcher.pool x.dispatcher.engine.books q held) (hh : hands ⊆ held)
    (ha : t.order ∈ hands) (hnext : next.instrument = some i)
    (howes : Owes e (x.dispatcher.pool.storage.modify t.order fun o => o.withStatus status)
      (q i) next d hands) : x.Proceeds e k i q held d hands (x.mark k t status next) := by
  refine proceeds_goto (World.write hl hh rfl rfl fun c hc => ?_) .keep howes (.inl hnext)
    rfl rfl rfl rfl
    fun a => quantities_withStatus _ _ status a
  change Store.modify _ t.order (·.withStatus status) c = _
  exact Store.modify_of_ne (ne_of_mem_of_not_mem ha hc).symm

/-- An order that has ended, or is dropped, with its last status. -/
theorem proceeds_ended {status : OrderStatus}
    (hl : Lodged x.dispatcher.pool x.dispatcher.engine.books q held) (hh : [t.order] ⊆ held)
    (hd : x.dispatcher.pool.storage.data t.order = o) (hr : (o.withStatus status).rests = false)
    (hresult : r = ⟨q t.msg.instrumentId, o.withStatus status, t.trades⟩)
    (htrades : r.trades = t.trades ++ rest) :
    x.Proceeds e k t.msg.instrumentId q held (t.debt e r rest) [t.order]
      (x.mark k t status (.replying t)) := by
  have hdata : (x.dispatcher.pool.storage.modify t.order fun o => o.withStatus status).data t.order
      = o.withStatus status := by
    rw [Store.data_modify, Function.update_self, hd]
  refine proceeds_mark hl hh (List.mem_cons_self ..) rfl (.order (.ended ?_ ?_) htrades)
  · rw [hdata]
    exact hr
  · rw [hdata]
    exact hresult

/-! ## Entering

The handler finds the matcher, `submit` checks the order, and the thread is either at the end
already or at the head of the loop. -/

/-- The checks of `submit`: no book, a refusal, or the loop. -/
theorem proceeds_enter (hl : Lodged x.dispatcher.pool x.dispatcher.engine.books q held)
    (hh : [t.order] ⊆ held)
    (hbooks : ∀ j, (x.dispatcher.engine.matchers.lookup j).isSome = (e.matchers.lookup j).isSome)
    (hd : x.dispatcher.pool.storage.data t.order = o) (h0 : o.filledQty = 0)
    (hi : o.instrument = t.msg.instrumentId) (hw : (q t.msg.instrumentId).WF)
    (hnone : t.trades = [])
    (hresult : r = (submitOutcome e (fun _ => q t.msg.instrumentId) t.order o).result)
    (htrades : r.trades = t.trades ++ rest) :
    x.Proceeds e k t.msg.instrumentId q held (t.debt e r rest) [t.order] (x.enter k t) := by
  have hout := hl.notMem_slots_of_held (i := t.msg.instrumentId) (hh (List.mem_cons_self ..))
  have hsound := OrderData.sound_of_fresh h0
  have hinst : (x.dispatcher.pool.storage t.order).instrument = t.msg.instrumentId :=
    (congrArg (·.instrument) hd).trans hi
  have hdata : (x.dispatcher.pool.storage t.order).toOrderData = o := hd
  have hrej : (o.withStatus .rejected).rests = false := rests_of_terminal rfl
  have hsame := hbooks t.msg.instrumentId
  unfold submitOutcome at hresult
  rw [hi] at hresult
  cases hb : x.dispatcher.engine.matchers.lookup t.msg.instrumentId with
  | none =>
    -- there is no such book, here as in `e`
    rw [hb] at hsame
    rw [Option.isSome_eq_false_iff.mp hsame.symm |> Option.isNone_iff_eq_none.mp] at hresult
    have hb' : x.dispatcher.engine.matchers.lookup (x.dispatcher.pool.storage t.order).instrument
        = none := hinst ▸ hb
    simp only [enter, hb']
    exact proceeds_ended hl hh hd hrej (hresult.trans (by rw [hnone]; rfl)) htrades
  | some book =>
    rw [hb] at hsame
    obtain ⟨book', hsome⟩ := Option.isSome_iff_exists.mp hsame.symm
    rw [hsome] at hresult
    have hb' : x.dispatcher.engine.matchers.lookup (x.dispatcher.pool.storage t.order).instrument
        = some book := hinst ▸ hb
    have hrejects : Matcher.rejects ⟨book, x.dispatcher.pool⟩ o
        = (q t.msg.instrumentId).rejects o :=
      rejects_eq (hl.rep _ book hb) hw (hl.length_slots_le _) o
    simp only [enter, hb', hdata, hrejects]
    cases hc : (q t.msg.instrumentId).rejects o with
    | true =>
      -- the checks refuse it
      rw [if_pos rfl]
      refine proceeds_ended hl hh hd hrej (hresult.trans ?_) htrades
      rw [QueueBook.submit, hc, if_pos rfl, hnone]
      rfl
    | false =>
      -- it goes on to the loop, and what it owes is what the loop will do
      rw [if_neg Bool.false_ne_true]
      refine proceeds_goto (World.write hl hh rfl rfl fun _ _ => rfl) .keep
        (.order (.looking hd ⟨⟨hw.sorted, hw.nodup⟩, hw.open, hout, hsound⟩ ?_) htrades)
        (.inl rfl) rfl
        rfl rfl rfl fun _ => ⟨rfl, rfl⟩
      rw [hresult, hnone]
      exact QueueBook.result_submit hw hsound hc

/-! ## The matching loop

One turn of the loop is four steps: a look at the top of the other side, the taker's fill, the
maker's fill with its execution, and, for a maker that is used up, the pop and the release of its
slot. `onward` is what the whole loop makes of the book from wherever it stands, so a step that
moves the book and the order alike leaves it as it is. -/

/-- Why the loop ends. -/
theorem peek_stop {m : Matcher} {b : QueueBook} {a : Slot} (h : BookRep m.pool.storage m.book b)
    (ht : b.Tidy) (hd : m.pool.storage.data a = o) (hs : Stops o (b.side (opposite o.side))) :
    m.peek a = none := by
  have hdata : (m.pool.storage a).toOrderData = o := hd
  unfold Matcher.peek
  simp only [hdata]
  split_ifs with h0
  · -- the taker wants more: then nobody is there, or the price is in the way
    have hb := hs.resolve_left (qty_pos_iff.mp h0)
    rw [h.peekTop_eq ht.sorted]
    cases hk : b.side (opposite o.side) with
    | nil => rfl
    | cons k ms =>
      have hprice : (m.pool.storage k.slot).limitPrice = k.price :=
        congrArg (·.limitPrice) (h.data_head hk)
      have hblock : Matcher.blocked o k.price = true := hb k (by rw [hk]; rfl)
      simp only [List.head?_cons, Option.map_some, hprice, hblock, if_true]
  · rfl

/-- Whom it trades with otherwise. -/
theorem peek_go {m : Matcher} {b : QueueBook} {a : Slot} {c : Resting} {ms : List Resting}
    (h : BookRep m.pool.storage m.book b) (ht : b.Tidy) (hd : m.pool.storage.data a = o)
    (hk : b.side (opposite o.side) = c :: ms) (hs : ¬ Stops o (c :: ms)) :
    m.peek a = some c.slot := by
  have hdata : (m.pool.storage a).toOrderData = o := hd
  obtain ⟨h0, hb⟩ := not_stops_cons.mp hs
  have hprice : (m.pool.storage c.slot).limitPrice = c.price :=
    congrArg (·.limitPrice) (h.data_head hk)
  have htop := h.peekTop_cons ht.sorted hk
  unfold Matcher.peek
  simp only [hdata, if_pos (qty_pos_iff.mpr h0), htop, hprice, hb, Bool.false_eq_true, if_false]

/-- Behind the loop: the order is dropped, is filled, or goes on to rest. -/
theorem proceeds_conclude (hl : Lodged x.dispatcher.pool x.dispatcher.engine.books q held)
    (hh : [t.order] ⊆ held) (hd : x.dispatcher.pool.storage.data t.order = o)
    (ht : (q t.msg.instrumentId).Tidy)
    (hresult : r = (q t.msg.instrumentId).concluded t.order o t.trades)
    (htrades : r.trades = t.trades ++ rest) :
    x.Proceeds e k t.msg.instrumentId q held (t.debt e r rest) [t.order] (x.conclude k t) := by
  have hdata : (x.dispatcher.pool.storage t.order).toOrderData = o := hd
  have hout := hl.notMem_slots_of_held (i := t.msg.instrumentId) (hh (List.mem_cons_self ..))
  have hsome : ∀ s : OrderStatus, (x.dispatcher.pool.storage.modify t.order
      fun o => o.withStatus s).data t.order = o.withStatus s := fun s => by
    rw [Store.data_modify, Function.update_self, hd]
  unfold QueueBook.concluded at hresult
  unfold conclude
  simp only [hdata]
  -- the three ends of `submit`, in the order of the source
  by_cases hfull : o.isFullyFilled = true
  · rw [if_pos hfull] at hresult ⊢
    exact proceeds_ended hl hh hd (rests_of_terminal rfl) hresult htrades
  rw [if_neg hfull] at hresult ⊢
  by_cases hdrop : o.type = .market ∨ o.tif = .ioc
  · rw [if_pos hdrop] at hresult ⊢
    refine proceeds_ended hl hh hd ?_ hresult htrades
    have himmediate : (o.type == .market || o.tif == .ioc) = true := by simpa using hdrop
    change (!_ && !(o.type == .market || o.tif == .ioc)) = false
    rw [himmediate, Bool.not_true, Bool.and_false]
  · rw [if_neg hdrop] at hresult ⊢
    refine proceeds_mark hl hh (List.mem_cons_self ..) rfl
      (.order (.resting (hsome o.restStatus) ht hout ?_ hresult) htrades)
    have hresting : (o.type == .market || o.tif == .ioc) = false := by simpa using hdrop
    unfold OrderData.rests
    rw [QueueBook.isTerminal_restStatus]
    change (!false && !(o.type == .market || o.tif == .ioc)) = true
    rw [hresting]
    rfl

/-- The head of the loop. -/
theorem proceeds_look (hl : Lodged x.dispatcher.pool x.dispatcher.engine.books q held)
    (hh : [t.order] ⊆ held) (hi : x.dispatcher.engine.matchers.lookup t.msg.instrumentId = some hb)
    (hd : x.dispatcher.pool.storage.data t.order = o)
    (hm : Sweeping (q t.msg.instrumentId) t.order o)
    (hresult : r = (q t.msg.instrumentId).onward t.order o t.trades)
    (htrades : r.trades = t.trades ++ rest) :
    x.Proceeds e k t.msg.instrumentId q held (t.debt e r rest) [t.order] (x.look k t hb) := by
  have hrep : BookRep x.dispatcher.pool.storage hb (q t.msg.instrumentId) := hl.rep _ hb hi
  unfold look
  by_cases hs : Stops o ((q t.msg.instrumentId).side (opposite o.side))
  · -- the loop is over: `conclude` is part of the same step
    simp only [peek_stop (m := ⟨hb, x.dispatcher.pool⟩) hrep hm.toTidy hd hs]
    exact proceeds_conclude hl hh hd hm.toTidy (hresult.trans (QueueBook.onward_stop hs)) htrades
  cases hk : (q t.msg.instrumentId).side (opposite o.side) with
  | nil => exact absurd (.inr (by simp [hk])) hs
  | cons c ms =>
    -- what the thread computes now it will use two steps later; nobody writes to either order
    rw [hk] at hs
    have hc : x.dispatcher.pool.storage.data c.slot = c.order :=
      hrep.data_side (s := opposite o.side) (hk ▸ List.mem_cons_self)
    have hprice : (x.dispatcher.pool.storage c.slot).limitPrice = c.price :=
      congrArg (·.limitPrice) hc
    have hfill : qtyMin (x.dispatcher.pool.storage t.order).remaining
        (x.dispatcher.pool.storage c.slot).remaining = qtyMin o.remaining c.order.remaining :=
      congrArg₂ (fun o c : OrderData => qtyMin o.remaining c.remaining) hd hc
    simp only [peek_go (m := ⟨hb, x.dispatcher.pool⟩) hrep hm.toTidy hd hk hs, hprice, hfill]
    exact proceeds_goto (World.write hl hh rfl rfl fun _ _ => rfl) .keep
      (.order (.filling hd hm hk hs hresult) htrades) (.inl rfl) rfl rfl rfl rfl fun _ => ⟨rfl, rfl⟩

/-- A trade is for no more than the taker still wants, -/
theorem qtyMin_le_left (a b : Quantity) : qtyMin a b ≤ a := by
  rw [UInt64.le_iff_toNat_le, toNat_qtyMin]
  exact min_le_left _ _

/-- and for no more than the maker still offers. -/
theorem qtyMin_le_right (a b : Quantity) : qtyMin a b ≤ b := by
  rw [UInt64.le_iff_toNat_le, toNat_qtyMin]
  exact min_le_right _ _

variable {c : Resting} {ms : List Resting}

/-- **The taker's half of a trade.** -/
theorem proceeds_fillTaker (hl : Lodged x.dispatcher.pool x.dispatcher.engine.books q held)
    (hh : [t.order] ⊆ held) (hd : x.dispatcher.pool.storage.data t.order = o)
    (hm : Sweeping (q t.msg.instrumentId) t.order o)
    (hk : (q t.msg.instrumentId).side (opposite o.side) = c :: ms) (hs : ¬ Stops o (c :: ms))
    (hresult : r = (q t.msg.instrumentId).onward t.order o t.trades)
    (htrades : r.trades = t.trades ++ rest) :
    x.Proceeds e k t.msg.instrumentId q held (t.debt e r rest) [t.order]
      (x.fillTaker k t c.slot c.price (qtyMin o.remaining c.order.remaining)) := by
  have hdata : (x.dispatcher.pool.storage.modify t.order fun o' =>
      o'.fill (qtyMin o.remaining c.order.remaining)).data t.order
      = o.fill (qtyMin o.remaining c.order.remaining) := by
    rw [Store.data_modify, Function.update_self, hd]
  refine proceeds_after ⟨fun _ _ => rfl, fun _ _ => rfl, fun _ _ => rfl, rfl, rfl⟩
    (World.write hl hh rfl rfl fun a ha => ?_) .keep
    (.order (.hitting hdata hm hk hs hresult) htrades)
    (.inl rfl) rfl rfl rfl rfl fun h => ?_
  · change x.dispatcher.pool.storage.modify t.order
      (fun o' => o'.fill (qtyMin o.remaining c.order.remaining)) a = _
    exact Store.modify_of_ne (by simpa using ha)
  · refine (h.addFill (a := t.order) ?_).of_data rfl fun _ => ⟨rfl, rfl⟩
    rw [hd]
    exact qtyMin_le_left _ _

/-- The top maker is filled and given a status, as the source writes it. -/
theorem rewriteTop_moves {m : Matcher} {b : QueueBook} {s : Side}
    (hrep : BookRep m.pool.storage m.book b)
    (ht : b.Tidy) (hc : b.side s = c :: ms) (n : Quantity) (status : OrderStatus) :
    Moves m b []
      ⟨m.book, (m.pool.modify c.slot fun o => o.fill n).modify c.slot fun o => o.withStatus status⟩
      (b.withSide s (⟨c.slot, (c.order.fill n).withStatus status⟩ :: ms)) [] := by
  have hslot : c.slot ∈ b.slots :=
    QueueBook.mem_slots.mpr ⟨s, c, hc ▸ List.mem_cons_self, rfl⟩
  have htwice : (m.pool.storage.modify c.slot fun o => o.fill n).modify c.slot
      (fun o => o.withStatus status) = m.pool.storage.modify c.slot
        fun o => (o.fill n).withStatus status := Store.modify_modify _ _ _ _
  refine ⟨?_, rfl, rfl, fun a _ ha => ?_, by simp⟩
  · change BookRep ((m.pool.storage.modify c.slot fun o => o.fill n).modify c.slot
      fun o => o.withStatus status) m.book _
    rw [htwice]
    exact hrep.modifyTop_rep ht.nodup hc rfl
  · change (m.pool.storage.modify c.slot fun o => o.fill n).modify c.slot
      (fun o => o.withStatus status) a = _
    rw [htwice]
    exact Store.modify_of_ne (ne_of_mem_of_not_mem hslot ha).symm

/-- The maker is filled by `n` and given a status, and the execution is noted. -/
def hit (x : Server) (k : ℕ) (maker : Slot) (n : Quantity) (status : OrderStatus) (trade : Trade)
    (next : Thread) : Server :=
  let x := { x.addFill maker n with
    executed := Function.update x.executed k (x.executed k ++ [trade]) }
  x.goto k { x.dispatcher with
    pool := x.dispatcher.pool.modify maker fun o => o.withStatus status } next

/-- The two ends of `fillMaker` are the same write with a different status and a different place to
go on. -/
theorem fillMaker_eq {n : Quantity} (hd : x.dispatcher.pool.storage.data t.order = o.fill n)
    (hc : x.dispatcher.pool.storage.data c.slot = c.order) (hne : t.order ≠ c.slot) :
    x.fillMaker k t c.slot c.price n
      = if (c.order.fill n).isFullyFilled then
          x.hit k c.slot n .filled (tradeOf o c.order n)
            (.popping (t.noted (tradeOf o c.order n)) c.slot)
        else
          x.hit k c.slot n .partiallyFilled (tradeOf o c.order n)
            (.looking (t.noted (tradeOf o c.order n))) := by
  have hmaker : ((x.addFill c.slot n).dispatcher.pool.storage c.slot).toOrderData
      = c.order.fill n := by
    change (x.dispatcher.pool.storage.modify c.slot fun o => o.fill n).data c.slot = _
    rw [Store.data_modify, Function.update_self, hc]
  have htaker : ((x.addFill c.slot n).dispatcher.pool.storage t.order).toOrderData = o.fill n := by
    change (x.dispatcher.pool.storage.modify c.slot fun o => o.fill n).data t.order = _
    rw [Store.data_modify, Function.update_of_ne hne, hd]
  simp only [fillMaker, hmaker, htaker]
  rfl

/-- **The maker's half of a trade.** -/
theorem proceeds_hit {n : Quantity} {status : OrderStatus} {trade : Trade} {next : Thread}
    {us : List Trade} (hl : Lodged x.dispatcher.pool x.dispatcher.engine.books q held)
    (hh : [t.order] ⊆ held) (hi : x.dispatcher.engine.matchers.lookup t.msg.instrumentId = some hb)
    (ht : (q t.msg.instrumentId).Tidy) {s : Side} (hk : (q t.msg.instrumentId).side s = c :: ms)
    (hn : n ≤ c.order.remaining) (hnext : next.instrument = some t.msg.instrumentId)
    (hstage : ∀ st : Store, st.data t.order = x.dispatcher.pool.storage.data t.order →
      Stage e st ((q t.msg.instrumentId).withSide s
        (⟨c.slot, (c.order.fill n).withStatus status⟩ :: ms)) r (t.noted trade) next [t.order])
    (hus : r.trades = (t.noted trade).trades ++ us) (htrades : r.trades = t.trades ++ rest) :
    x.Proceeds e k t.msg.instrumentId q held (t.debt e r rest) [t.order]
      (x.hit k c.slot n status trade next) := by
  have hrep : BookRep x.dispatcher.pool.storage hb (q t.msg.instrumentId) := hl.rep _ hb hi
  have hmem : c ∈ (q t.msg.instrumentId).side s := hk ▸ List.mem_cons_self
  have hslot : c.slot ∈ (q t.msg.instrumentId).slots := QueueBook.mem_slots.mpr ⟨_, c, hmem, rfl⟩
  have hout := hl.notMem_slots_of_held (i := t.msg.instrumentId) (hh (List.mem_cons_self ..))
  have hne : t.order ≠ c.slot := (ne_of_mem_of_not_mem hslot hout).symm
  have hmoves := rewriteTop_moves (m := ⟨hb, x.dispatcher.pool⟩) hrep ht hk n status
  -- the execution that was still to come is the one noted here
  have hrest : rest = trade :: us := by
    rw [hus, Ticket.noted, List.append_assoc] at htrades
    exact (List.append_cancel_left htrades).symm
  refine proceeds_after ⟨fun _ _ => rfl, fun _ _ => rfl,
    fun j hj => Function.update_of_ne hj _ _, rfl, rfl⟩
    (World.rewrite hl hi hmoves hh (slots_withHead hk _ rfl)) .keep
    (.order (hstage _ ?_) hus) (.inl hnext)
    rfl rfl rfl ?_ fun h => ?_
  · change ((x.dispatcher.pool.storage.modify c.slot fun o => o.fill n).modify c.slot
      fun o => o.withStatus status).data t.order = _
    rw [Store.data_modify, Function.update_of_ne hne, Store.data_modify, Function.update_of_ne hne]
  · change Function.update x.executed k (x.executed k ++ [trade]) k ++ us = x.executed k ++ rest
    rw [Function.update_self, List.append_assoc, hrest]
    rfl
  · have hfill : (x.addFill c.slot n).Metered :=
      h.addFill (by rwa [hrep.data_side hmem])
    exact hfill.of_data rfl fun a => quantities_withStatus _ _ status a

/-- The maker's half, as the source branches: a maker that is used up is popped next. -/
theorem proceeds_fillMaker (hl : Lodged x.dispatcher.pool x.dispatcher.engine.books q held)
    (hh : [t.order] ⊆ held) (hi : x.dispatcher.engine.matchers.lookup t.msg.instrumentId = some hb)
    (hd : x.dispatcher.pool.storage.data t.order
      = o.fill (qtyMin o.remaining c.order.remaining))
    (hm : Sweeping (q t.msg.instrumentId) t.order o)
    (hk : (q t.msg.instrumentId).side (opposite o.side) = c :: ms) (hs : ¬ Stops o (c :: ms))
    (hresult : r = (q t.msg.instrumentId).onward t.order o t.trades)
    (htrades : r.trades = t.trades ++ rest) :
    x.Proceeds e k t.msg.instrumentId q held (t.debt e r rest) [t.order]
      (x.fillMaker k t c.slot c.price (qtyMin o.remaining c.order.remaining)) := by
  have hmem : c ∈ (q t.msg.instrumentId).side (opposite o.side) := hk ▸ List.mem_cons_self
  have hslot : c.slot ∈ (q t.msg.instrumentId).slots := QueueBook.mem_slots.mpr ⟨_, c, hmem, rfl⟩
  have hc : x.dispatcher.pool.storage.data c.slot = c.order := (hl.rep _ hb hi).data_side hmem
  have hopen := hm.isOpen c hmem
  have hle := qtyMin_le_right o.remaining c.order.remaining
  rw [fillMaker_eq hd hc (ne_of_mem_of_not_mem hslot hm.out).symm]
  by_cases hall : c.order.remaining ≤ o.remaining
  · -- the maker is used up
    have hn : qtyMin o.remaining c.order.remaining = c.order.remaining :=
      if_neg (UInt64.not_lt.mpr hall)
    rw [hn] at hd hle ⊢
    rw [OrderData.fill_remaining, if_pos OrderData.isFullyFilled_full]
    have honward := hresult.trans (QueueBook.onward_take hk hs hall)
    obtain ⟨us, hus⟩ := QueueBook.trades_onward
      ((q t.msg.instrumentId).popped (opposite o.side) c ms)
      t.order (o.fill c.order.remaining) (t.noted (tradeOf o c.order c.order.remaining)).trades
    refine proceeds_hit hl hh hi hm.toTidy hk hle rfl (fun st hst => ?_)
      ((congrArg (·.trades) honward).trans hus) htrades
    rw [OrderData.fill_remaining]
    have htop : ((q t.msg.instrumentId).withSide (opposite o.side) (c.consumed :: ms)).side
        (opposite (o.fill c.order.remaining).side) = c.consumed :: ms := by
      rw [QueueBook.side_withSide]
      exact if_pos Iff.rfl
    have hpop : ((q t.msg.instrumentId).withSide (opposite o.side) (c.consumed :: ms)).popped
        (opposite o.side) c.consumed ms = (q t.msg.instrumentId).popped (opposite o.side) c ms :=
      QueueBook.popped_withSide (k := c) _ _ rfl
    -- the book still has the maker, filled, at the head of its side
    exact @Stage.popping _ _ _ _ _ _ c.consumed ms (hst.trans hd)
      (hm.toTidy.withHead hk rfl rfl) htop
      (hpop.symm ▸ hm.take hk hall) (hpop.symm ▸ honward)
  · -- the taker is
    have hlt : o.remaining < c.order.remaining := UInt64.not_le.mp hall
    have hn : qtyMin o.remaining c.order.remaining = o.remaining := if_pos hlt
    have hfull : (c.order.fill o.remaining).isFullyFilled = false :=
      beq_eq_false_iff_ne.mpr (UInt64.ne_of_lt (hopen.sound.open_fill hlt))
    rw [hn] at hd hle ⊢
    rw [hfull, if_neg Bool.false_ne_true]
    rw [OrderData.fill_remaining] at hd
    have honward := hresult.trans (QueueBook.onward_part hk hs hopen hlt)
    obtain ⟨us, hus⟩ := QueueBook.trades_onward ((q t.msg.instrumentId).withSide (opposite o.side)
      (c.partly o.remaining :: ms)) t.order o.full (t.noted (tradeOf o c.order o.remaining)).trades
    exact proceeds_hit hl hh hi hm.toTidy hk hle rfl
      (fun st hst => .looking (hst.trans hd) (hm.part hk hlt) honward)
      ((congrArg (·.trades) honward).trans hus) htrades

/-- The head of a side is popped. -/
theorem pop_moves {m : Matcher} {b : QueueBook} {s : Side} (hrep : BookRep m.pool.storage m.book b)
    (ht : b.Tidy) (hc : b.side s = c :: ms) :
    Moves m b [] ⟨(m.book.popTop m.pool.storage s).1,
      { m.pool with storage := (m.book.popTop m.pool.storage s).2 }⟩ (b.popped s c ms) [] :=
  ⟨hrep.popTop_rep ht.sorted ht.nodup hc, rfl, rfl,
    fun _ _ ha => hrep.popTop_of_notMem ht.sorted hc ha, by simp⟩

/-- A maker that is used up leaves the book; its slot is in the thread's hands. -/
theorem proceeds_pop (hl : Lodged x.dispatcher.pool x.dispatcher.engine.books q held)
    (hh : [t.order] ⊆ held) (hi : x.dispatcher.engine.matchers.lookup t.msg.instrumentId = some hb)
    (hd : x.dispatcher.pool.storage.data t.order = o) (ht : (q t.msg.instrumentId).Tidy)
    (hk : (q t.msg.instrumentId).side (opposite o.side) = c :: ms)
    (hm : Sweeping ((q t.msg.instrumentId).popped (opposite o.side) c ms) t.order o)
    (hresult : r = ((q t.msg.instrumentId).popped (opposite o.side) c ms).onward t.order o t.trades)
    (htrades : r.trades = t.trades ++ rest) :
    x.Proceeds e k t.msg.instrumentId q held (t.debt e r rest) [t.order] (x.pop k t c.slot hb) := by
  have hrep : BookRep x.dispatcher.pool.storage hb (q t.msg.instrumentId) := hl.rep _ hb hi
  have hside : (x.dispatcher.pool.storage t.order).side = o.side := congrArg (·.side) hd
  have hslot : c.slot ∈ (q t.msg.instrumentId).slots :=
    QueueBook.mem_slots.mpr ⟨_, c, hk ▸ List.mem_cons_self, rfl⟩
  have hout := hl.notMem_slots_of_held (i := t.msg.instrumentId) (hh (List.mem_cons_self ..))
  have hdata := hrep.data_popTop ht.sorted hk
  have hmoves := pop_moves (m := ⟨hb, x.dispatcher.pool⟩) hrep ht hk
  -- the slot moves from the book into the thread's hands
  have hperm : (((q t.msg.instrumentId).popped (opposite o.side) c ms).slots ++ c.slot :: held).Perm
      ((q t.msg.instrumentId).slots ++ held) :=
    List.perm_middle.trans ((slots_popped_perm hk).symm.append_right held)
  simp only [pop, hside]
  refine proceeds_goto (World.book hl hi hmoves (List.nil_subset _) hh hperm) (.gain hslot)
    (.order (.freeing ((congrFun hdata _).trans hd) hm (ne_of_mem_of_not_mem hslot hout) hresult)
      htrades)
    (.inl rfl) rfl rfl rfl rfl fun a => ?_
  have ha := congrFun hdata a
  exact ⟨congrArg (·.filledQty) ha, congrArg (·.initialQty) ha⟩

/-! ## Giving slots back

`Pool::release` puts a slot of the thread's own on the free stack. -/

/-- A slot the thread holds and does not owe. -/
theorem proceeds_release {i : InstrumentId} {d d' : Debt} {a : Slot} {next : Thread}
    (hl : Lodged x.dispatcher.pool x.dispatcher.engine.books q held) (hh : hands ⊆ held)
    (ha : a ∈ hands) (hout : a ∉ d.left)
    (howes : Owes e x.dispatcher.pool.storage (q i) next d' (hands.erase a))
    (hbusy : next.instrument = some i ∨ next = .idle) (hbook : d'.book = d.book)
    (hleft : d'.left = d.left) (hreply : d'.reply (x.sessions k) = d.reply (x.sessions k))
    (htrades : d'.trades = d.trades) :
    x.Proceeds e k i q held d hands (x.release k a next) :=
  proceeds_goto (World.release hl hh (hh ha) rfl rfl fun _ _ => rfl) (.drop ha hout)
    howes hbusy hbook
    hleft hreply htrades fun _ => ⟨rfl, rfl⟩

/-- Back to the loop. -/
theorem proceeds_free {maker : Slot}
    (hl : Lodged x.dispatcher.pool x.dispatcher.engine.books q held)
    (hh : [maker, t.order] ⊆ held) (hd : x.dispatcher.pool.storage.data t.order = o)
    (hm : Sweeping (q t.msg.instrumentId) t.order o) (hne : maker ≠ t.order)
    (hresult : r = (q t.msg.instrumentId).onward t.order o t.trades)
    (htrades : r.trades = t.trades ++ rest) :
    x.Proceeds e k t.msg.instrumentId q held (t.debt e r rest) [maker, t.order]
      (x.release k maker (.looking t)) := by
  have herase : [maker, t.order].erase maker = [t.order] := List.erase_cons_head ..
  refine proceeds_release hl hh (List.mem_cons_self ..) (fun hmem => ?_) ?_ (.inl rfl)
    rfl rfl rfl rfl
  swap
  · rw [herase]
    exact .order (.looking hd hm hresult) htrades
  -- a thread keeps at most its own order for ever, not a maker
  change maker ∈ (if r.order.leaks then [t.order] else []) at hmem
  split_ifs at hmem
  · exact hne (List.mem_singleton.mp hmem)
  · exact List.not_mem_nil hmem

end Server

end Ordbk
