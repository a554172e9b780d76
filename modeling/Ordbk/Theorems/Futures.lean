import Ordbk.Abstract.Interest
import Ordbk.Refinement.Recorded
import Ordbk.Theorems.Conservation

/-!
# Theorems/Futures — what a book has in store

Two matchers whose books show the same interests (who is queued, at what price, with what remaining)
cannot be told apart: whatever is submitted and cancelled from now on, both give the same replies
(`sameFuture_of_reach`).  How the books came about, what has been filled and where the orders are
stored does not matter.
-/

namespace Ordbk

namespace Desk

variable {d d' e e' : Desk} {b b' : QueueBook} {L M : List Played}

/-- The interests of a side, in the order the levels are iterated. -/
def interests (d : Desk) (s : Side) : List Interest :=
  (d.matcher.book.sideSlots d.matcher.pool s).map fun c => (d.order c).interest

/-- The interests of a desk are those of its queue book. -/
theorem Inv.interests_eq (h : d.Inv b) (s : Side) : d.interests s = b.interests s := by
  unfold interests QueueBook.interests
  rw [h.rep.sideSlots_eq h.wf.sorted h.length_le, List.map_map]
  exact List.map_congr_left fun e he => congrArg OrderData.interest (h.rep.data_side he)

/-- **A run from anywhere** is the queue book answering. -/
theorem Inv.exists_path (h : d.Inv b) (hL : Guarded.Trace Desk.call Undrained shown d L d') :
    ∃ b', d'.Inv b' ∧ Guarded.Path Answers (some b) L (some b') :=
  hL.invariant (I := fun L d' => ∃ b', d'.Inv b' ∧ Guarded.Path Answers (some b) L (some b'))
    ⟨_, h, .nil _⟩
    fun _ _ _ _ ⟨_, hb, hp⟩ hok hc => ⟨_, hb.call hc, hp.append (hb.path hok hc)⟩

/-- Akin queue books have the same interests. -/
theorem interests_of_akin {π : Equiv.Perm Slot} (h : b.Akin π b') (s : Side) :
    b'.interests s = b.interests s := by
  have hs := h.side s
  unfold QueueBook.interests
  generalize b.side s = l at hs
  generalize b'.side s = l' at hs
  induction hs with
  | nil => rfl
  | cons hm _ ih => rw [List.map_cons, List.map_cons, hm.interest, ih]

/-- A run with fresh ids, its queue book and its index. -/
theorem exists_indexed {i : InstrumentId} {capacity : ℕ}
    (h : Guarded.Reach Desk.call FreshIds (start i capacity) d) :
    ∃ b, d.Inv b ∧ b.instrument = i ∧ b.Indexed := by
  obtain ⟨b, hb, -, hindexed⟩ := exists_ledger h
  obtain ⟨b₁, hb₁, hi, -⟩ := exists_inv (J := fun _ => True) trivial
    (fun _ _ _ _ _ _ _ _ => trivial) h
  exact ⟨b, hb, (hb.rep.instrument.symm.trans hb₁.rep.instrument).trans hi, hindexed⟩

/-- **The same interests, the same future.** -/
theorem sameFuture_of_reach {i : InstrumentId} {capacity capacity' : ℕ}
    (hd : Guarded.Reach Desk.call FreshIds (start i capacity) d)
    (he : Guarded.Reach Desk.call FreshIds (start i capacity') e)
    (hint : ∀ s, e.interests s = d.interests s)
    (hL : Guarded.Trace Desk.call Undrained shown d L d')
    (hM : Guarded.Trace Desk.call Undrained shown e M e')
    (hcalls : M.map Played.call = L.map Played.call) :
    M = L ∧ ∀ s, e'.interests s = d'.interests s := by
  obtain ⟨b, hb, hib, hxb⟩ := exists_indexed hd
  obtain ⟨c, hc, hic, hxc⟩ := exists_indexed he
  have hakin : ∃ π, QueueBook.Akin π b c := by
    refine QueueBook.exists_akin hxb hxc hb.wf hc.wf (hic.trans hib.symm) fun s => ?_
    rw [← hc.interests_eq, ← hb.interests_eq, hint]
  obtain ⟨b', hb', hpath⟩ := hb.exists_path hL
  obtain ⟨c', hc', hpath'⟩ := hc.exists_path hM
  obtain ⟨hB, hrel⟩ := Guarded.Path.lockstep (B := Eq) (fun _ _ _ _ _ _ _ hR hx hy hxy =>
    hx.akin hR hy hxy)
    (.some hakin) hpath hpath' (Guarded.forall₂_of_map_eq hcalls.symm)
  refine ⟨(List.forall₂_eq_eq_eq ▸ hB : L = M).symm, fun s => ?_⟩
  cases hrel with
  | some hrel =>
    obtain ⟨π, hπ⟩ := hrel
    rw [hc'.interests_eq, hb'.interests_eq, interests_of_akin hπ]

/-! ## Telling books apart

The other way round a caller can find out what the interests are: a market order for all there is
names everybody on the side it meets, in order, each with what remains. -/

/-- **A market order asks the queue it meets.** -/
theorem submit_probe (b : QueueBook) (a : Slot) (s : Side) {q : Quantity} (hq : q ≠ 0) :
    (b.submit a (probe b.instrument s q)).trades
      = (sweep (probe b.instrument s q) (b.side s)).trades
      ∧ (b.submit a (probe b.instrument s q)).book.side s
        = (sweep (probe b.instrument s q) (b.side s)).makers
      ∧ (b.submit a (probe b.instrument s q)).book.instrument = b.instrument := by
  have hsame : SameSide (opposite (probe b.instrument s q).side) s := by
    change SameSide (opposite (opposite s)) s
    unfold opposite SameSide
    split_ifs <;> simp_all
  have hside : b.side (opposite (probe b.instrument s q).side) = b.side s := b.side_congr hsame
  have hrej : b.rejects (probe b.instrument s q) = false := by
    simp [QueueBook.rejects, probe, hq]
  have hentry : b.entry (probe b.instrument s q) = sweep (probe b.instrument s q) (b.side s) := by
    rw [QueueBook.entry, hside]
  have hsides : (b.entered (probe b.instrument s q)).side s
      = (sweep (probe b.instrument s q) (b.side s)).makers := by
    rw [← QueueBook.side_congr _ hsame, QueueBook.side_entered, hentry]
  unfold QueueBook.submit
  rw [if_neg (by simp [hrej]), hentry]
  split_ifs with hfull hdrop
  · exact ⟨rfl, hsides, b.instrument_entered _⟩
  · exact ⟨rfl, hsides, b.instrument_entered _⟩
  · exact absurd (.inl rfl) hdrop

/-- A submission does not change what kind of order it is. -/
theorem type_submit (hw : b.WF) {a : Slot} {o : OrderData} (h0 : o.filledQty = 0) :
    (b.submit a o).order.type = o.type := by
  have hident := (QueueBook.ident_entry hw (OrderData.sound_of_fresh h0))
  have htype : (b.entry o).taker.type = o.type := congrArg (·.type) hident
  have hs := QueueBook.submitted b a o
  generalize b.submit a o = r at hs ⊢
  cases hs with
  | rejected _ => rfl
  | filled _ _ | dropped _ _ _ | rested _ _ _ => exact htype

/-- The caller asks with a slot it has, and has it back. -/
theorem Inv.exists_probe (h : d.Inv b) {a : Slot} (ha : a ∈ d.held) {o : OrderData}
    (h0 : o.filledQty = 0) (ho : o.type = .market) :
    ∃ d', Guarded.Trace Desk.call Undrained shown d
        [.submit o (b.submit a o).order (b.submit a o).trades] d'
      ∧ d'.Inv (b.submit a o).book ∧ a ∈ d'.held := by
  -- written, submitted, given back and acquired again
  let d₁ : Desk := { d with
    matcher.pool.storage := Function.update d.matcher.pool.storage a { o with } }
  have hd₁ : d.call (.write a { o with }) = some d₁ := if_pos ha
  have horder : d₁.order a = o := by simp [Desk.order, Store.data, d₁]
  have hinv₁ : d₁.Inv b := h.call hd₁
  have h0₁ : (d₁.order a).filledQty = 0 := horder ▸ h0
  have ha₁ : a ∈ d₁.held := ha
  have hd₂ : d₁.call (.submit a) = some (d₁.submit a) := if_pos ⟨ha₁, h0₁⟩
  obtain ⟨-, hafter, hresult⟩ := hinv₁.submit_moves ha₁ h0₁
  have hinv₂ : (d₁.submit a).Inv (b.submit a (d₁.order a)).book := hinv₁.call hd₂
  rw [horder] at hafter hresult hinv₂
  have hrests : ((d₁.submit a).order a).rests = false := by
    have hafter' : (d₁.submit a).order a = (b.submit a o).order := hafter
    rw [hafter', OrderData.rests, type_submit h.wf h0, ho]
    simp
  have hout : a ∈ (d₁.submit a).held ++ (d₁.submit a).out := by
    refine List.mem_append_right _ ?_
    change a ∈ if ((d₁.submit a).order a).rests then d₁.out else a :: d₁.out
    rw [hrests]
    exact List.mem_cons_self ..
  obtain ⟨d₃, hd₃, hfree⟩ : ∃ d₃, (d₁.submit a).call (.release a) = some d₃
      ∧ d₃.matcher.pool.freeSlots = a :: (d₁.submit a).matcher.pool.freeSlots :=
    ⟨_, if_pos hout, rfl⟩
  have hinv₃ : d₃.Inv (b.submit a o).book := hinv₂.call hd₃
  obtain ⟨pool, hacq⟩ := Pool.exists_acquire hfree
  have hd₄ : d₃.call .acquire = some { d₃ with matcher.pool := pool, held := a :: d₃.held } := by
    simp only [Desk.call, hacq, Option.map_some]
  have htrace : Guarded.Trace Desk.call Undrained shown d _ _ :=
    (((Guarded.Trace.init.step (by trivial) hd₁).step (by trivial) hd₂).step (by trivial) hd₃).step
      (by trivial) hd₄
  have hshown : d₁.shown (.submit a) = [.submit o (b.submit a o).order (b.submit a o).trades] := by
    simp only [shown, horder, hafter, hresult]
  refine ⟨_, ?_, hinv₃.call hd₄, List.mem_cons_self ..⟩
  rw [hshown] at htrace
  exact htrace

/-- **The callers can ask a queue whatever they like.** -/
theorem Inv.exists_feed (h : d.Inv b) {a : Slot} (ha : a ∈ d.held) (s : Side) {qs : List Quantity}
    (hqs : ∀ q ∈ qs, q ≠ 0) :
    ∃ L d', Guarded.Trace Desk.call Undrained shown d L d'
      ∧ L.map Played.call = qs.map (fun q => .submit (probe b.instrument s q))
      ∧ L.map Played.trades = feed b.instrument s (b.side s) qs := by
  induction qs generalizing d b with
  | nil => exact ⟨[], d, .init, rfl, rfl⟩
  | cons q qs ih =>
    obtain ⟨hq, hqs⟩ := List.forall_mem_cons.mp hqs
    obtain ⟨d₁, hd₁, hinv, ha₁⟩ := h.exists_probe ha (o := probe b.instrument s q) rfl rfl
    obtain ⟨htrades, hside, hinst⟩ := submit_probe b a s hq
    obtain ⟨L, d', hL, hcalls, hfeed⟩ := ih hinv ha₁ hqs
    refine ⟨_, d', hd₁.trans hL, ?_, ?_⟩
    · rw [List.map_append, hcalls, hinst]
      rfl
    · rw [List.map_append, hfeed, hinst, hside, feed, ← htrades]
      rfl

/-- **Two matchers cannot be told apart exactly when they show the same interests**, whatever their
histories. -/
theorem indistinguishable_iff {i : InstrumentId} {capacity capacity' : ℕ}
    (hd : Guarded.Reach Desk.call FreshIds (start i capacity) d)
    (he : Guarded.Reach Desk.call FreshIds (start i capacity') e) (hheld : d.held ≠ [])
    (hheld' : e.held ≠ []) :
    (∀ L M d' e', Guarded.Trace Desk.call Undrained shown d L d' →
        Guarded.Trace Desk.call Undrained shown e M e' →
        M.map Played.call = L.map Played.call → M = L)
      ↔ ∀ s, e.interests s = d.interests s := by
  constructor
  · intro hsame s
    obtain ⟨b, hb, hib, -⟩ := exists_indexed hd
    obtain ⟨c, hc, hic, -⟩ := exists_indexed he
    obtain ⟨a, ha⟩ := List.exists_mem_of_ne_nil _ hheld
    obtain ⟨a', ha'⟩ := List.exists_mem_of_ne_nil _ hheld'
    rw [hc.interests_eq, hb.interests_eq]
    refine interests_of_feed (i := i) (s := s) hb.wf.open hc.wf.open fun qs hqs => ?_
    obtain ⟨L, d', hL, hcalls, hfeed⟩ := hb.exists_feed ha s hqs
    obtain ⟨M, e', hM, hcalls', hfeed'⟩ := hc.exists_feed ha' s hqs
    rw [hib] at hcalls hfeed
    rw [hic] at hcalls' hfeed'
    rw [← hfeed, ← hfeed', hsame L M d' e' hL hM (hcalls'.trans hcalls.symm)]
  · intro hint L M d' e' hL hM hcalls
    exact (sameFuture_of_reach hd he hint hL hM hcalls).1

/-- There are two sides. -/
theorem interests_of_ne (d : Desk) {s : Side} (hs : s ≠ .buy) :
    d.interests s = d.interests .sell := by
  unfold interests OrderBook.sideSlots
  rw [if_neg hs, if_neg (by decide)]

/-- Six of ten are left of one order, the other came with six. -/
theorem indistinguishable_of_six : ∃ d e : Desk,
    Guarded.Reach Desk.call FreshIds (start 1 4) d ∧ Guarded.Reach Desk.call FreshIds (start 1 2) e
      ∧ d.interests .buy = [⟨1, 100, 6⟩] ∧ d.trades.length = 1 ∧ e.trades = []
      ∧ ∀ L M d' e', Guarded.Trace Desk.call Undrained shown d L d' →
        Guarded.Trace Desk.call Undrained shown e M e' →
        M.map Played.call = L.map Played.call → M = L := by
  have hrun : ((Guarded.run Desk.call FreshIds (start 1 4)
      [.acquire, .write 3 { id := 1, limitPrice := 100, initialQty := 10, instrument := 1 },
        .submit 3, .acquire,
        .write 2 { id := 2, limitPrice := 99, initialQty := 4, instrument := 1, side := .sell },
        .submit 2, .acquire]).bind fun d =>
      (Guarded.run Desk.call FreshIds (start 1 2)
        [.acquire, .write 1 { id := 1, limitPrice := 100, initialQty := 6, instrument := 1 },
          .submit 1, .acquire]).map fun e =>
        decide ((d.held ≠ [] ∧ e.held ≠ []) ∧ d.interests .buy = [⟨1, 100, 6⟩] ∧ d.trades.length = 1
          ∧ e.trades = [] ∧ e.interests .buy = d.interests .buy
          ∧ e.interests .sell = d.interests .sell)) = some true := by decide +kernel
  obtain ⟨d, hd, hrun⟩ := Option.bind_eq_some_iff.mp hrun
  obtain ⟨e, he, hval⟩ := Option.map_eq_some_iff.mp hrun
  obtain ⟨⟨hheld, hheld'⟩, hint, htrades, hnone, hbuy, hsell⟩ := of_decide_eq_true hval
  have hd := Guarded.Reach.of_run hd
  have he := Guarded.Reach.of_run he
  refine ⟨d, e, hd, he, hint, htrades, hnone,
    (indistinguishable_iff hd he hheld hheld').mpr fun s => ?_⟩
  by_cases hs : s = .buy
  · rw [hs, hbuy]
  · rw [e.interests_of_ne hs, d.interests_of_ne hs, hsell]

end Desk

end Ordbk
