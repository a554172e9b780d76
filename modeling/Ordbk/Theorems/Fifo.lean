import Ordbk.Refinement.SpscThreads

/-!
# Theorems/Fifo — the ring buffer as its callers see it

Whatever the interleaving, pops return a prefix of what was pushed, and no more than `Capacity - 1`
values are under way; the cell the consumer is about to read was last written by the push whose turn
it is, and no cell with a value under way has been written since (`fifo_of_reach`).  A call that
runs alone is the one-step operation of `Utils/SpscRingBuffer`, and fails on a full, or an empty,
ring only.
-/

namespace Ordbk

namespace SpscThreads

variable {T : Type} {Capacity : ℕ} {s : SpscThreads T Capacity} {moved : T → T} {value : T}

/-! ## Calls that run alone

A call that no other call interrupts has a result, and that is what it means for a queue to be full
or empty at a moment. -/

theorem run_push_full (hs : s.producer = .idle)
    (hfull : (s.ring.tail + 1) &&& (Capacity - 1) = s.ring.head) :
    Guarded.run (step moved) (fun _ _ => True) s (.push value :: List.replicate 2 .produce)
      = some (s.returnFull value) := by
  simp [List.replicate_succ, Guarded.run, step, produce, hs, hfull, returnFull]

theorem run_push (hs : s.producer = .idle)
    (hroom : (s.ring.tail + 1) &&& (Capacity - 1) ≠ s.ring.head) :
    Guarded.run (step moved) (fun _ _ => True) s (.push value :: List.replicate 4 .produce)
      = some ((s.write value s.ring.tail).storeTail value s.ring.tail) := by
  simp [List.replicate_succ, Guarded.run, step, produce, hs, hroom, write, storeTail, pushed]

theorem run_pop_empty (hs : s.consumer = .idle) (hempty : s.ring.head = s.ring.tail) :
    Guarded.run (step moved) (fun _ _ => True) s (.pop :: List.replicate 2 .consume)
      = some s.returnEmpty := by
  simp [List.replicate_succ, Guarded.run, step, consume, hs, hempty, returnEmpty]

theorem run_pop (hs : s.consumer = .idle) (hne : s.ring.head ≠ s.ring.tail) :
    Guarded.run (step moved) (fun _ _ => True) s (.pop :: List.replicate 4 .consume)
      = some ((s.moveOut moved s.ring.head).storeHead s.ring.head (s.ring.buffer s.ring.head)) := by
  simp [List.replicate_succ, Guarded.run, step, consume, hs, hne, moveOut, storeHead]

theorem produce_of_idle (hs : s.producer = .idle) : s.step moved .produce = none := by
  simp only [step, produce, hs]

theorem consume_of_idle (hs : s.consumer = .idle) : s.step moved .consume = none := by
  simp only [step, consume, hs]

/-- **A push alone** returns what the one-step push returns. -/
theorem pushReturns_iff (hs : s.producer = .idle) {ok : Bool} :
    PushReturns moved s value ok ↔ ok = (s.ring.push value).2 := by
  have hend : ∃ k s', Guarded.run (step moved) (fun _ _ => True) s
      (.push value :: List.replicate k .produce) = some s' ∧ s'.producer = .idle
        ∧ s'.pushes = s.pushes ++ [(value, (s.ring.push value).2)] := by
    by_cases hfull : (s.ring.tail + 1) &&& (Capacity - 1) = s.ring.head
    · exact ⟨2, _, run_push_full hs hfull, rfl,
        by simp only [SpscRingBuffer.push, if_pos hfull]; rfl⟩
    · exact ⟨4, _, run_push hs hfull, rfl, by simp only [SpscRingBuffer.push, if_neg hfull]; rfl⟩
  obtain ⟨k, s', hrun, hidle, hpushes⟩ := hend
  constructor
  · rintro ⟨k', s'', hrun', hidle', hpushes'⟩
    obtain rfl := Guarded.run_cons_replicate_unique hrun (produce_of_idle hidle) hrun'
      (produce_of_idle hidle')
    simpa [hpushes] using hpushes'.symm
  · rintro rfl
    exact ⟨k, s', hrun, hidle, hpushes⟩

/-- **A pop alone** returns what the one-step pop returns. -/
theorem popReturns_iff (hs : s.consumer = .idle) {out : Option T} :
    PopReturns moved s out ↔ out = s.ring.pop.map (·.1) := by
  have hend : ∃ k s', Guarded.run (step moved) (fun _ _ => True) s
    (.pop :: List.replicate k .consume)
      = some s' ∧ s'.consumer = .idle ∧ s'.pops = s.pops ++ [s.ring.pop.map (·.1)] := by
    by_cases hempty : s.ring.head = s.ring.tail
    · exact ⟨2, _, run_pop_empty hs hempty, rfl, by rw [SpscRingBuffer.pop, if_pos hempty]; rfl⟩
    · exact ⟨4, _, run_pop hs hempty, rfl, by rw [SpscRingBuffer.pop, if_neg hempty]; rfl⟩
  obtain ⟨k, s', hrun, hidle, hpops⟩ := hend
  constructor
  · rintro ⟨k', s'', hrun', hidle', hpops'⟩
    obtain rfl := Guarded.run_cons_replicate_unique hrun (consume_of_idle hidle) hrun'
      (consume_of_idle hidle')
    simpa [hpops] using hpops'.symm
  · rintro rfl
    exact ⟨k, s', hrun, hidle, hpops⟩

/-! ## The queue

Its length, its elements and what the next calls would return, all told from the logs of the
callers. -/

/-- **A bounded queue**, in its callers' logs and in its cells. -/
structure Fifo (moved : T → T) (s : SpscThreads T Capacity) : Prop where
  /-- In order, without loss or duplication. -/
  popped : s.popped <+: s.pushed
  /-- It has room for all but one of its cells. -/
  count_le : s.count ≤ Capacity - 1
  /-- The cell about to be read holds the next value, written by its push. -/
  reads : ∀ head, s.consumer = .reading head →
    s.pushed[s.popped.length]? = some (s.ring.buffer head)
    ∧ s.stamp head = some s.popped.length
  /-- No cell is written while it is read. -/
  writes : ∀ value tail head,
    s.producer = .writing value tail → s.consumer = .reading head → tail ≠ head
  /-- No cell is written again before its value is popped. -/
  kept : ∀ n < s.count, s.stamp ((s.ring.head + n) % Capacity) = some (s.popped.length + n)
  /-- A push is refused exactly when the queue is full, -/
  push : s.producer = .idle → ∀ value,
    (PushReturns moved s value false ↔ s.count = Capacity - 1)
      ∧ (PushReturns moved s value true ↔ s.count ≠ Capacity - 1)
  /-- a pop exactly when it is empty, and otherwise it gets the next value. -/
  pop : s.consumer = .idle → (PopReturns moved s none ↔ s.count = 0)
    ∧ ∀ out, PopReturns moved s (some out) ↔ s.pushed[s.popped.length]? = some out
  /-- Between two steps the estimate is exact. -/
  approxSize : s.ring.approxSize = s.count

theorem Inv.reads (h : s.Inv) {head : ℕ} (hc : s.consumer = .reading head) :
    s.pushed[s.popped.length]? = some (s.ring.buffer head)
      ∧ s.stamp head = some s.popped.length := by
  have hconsumer := h.consumer
  rw [hc] at hconsumer
  obtain ⟨rfl, hpos⟩ := hconsumer
  have hcell := h.next_cell hpos
  simpa only [content, hc] using hcell

theorem Inv.writes (h : s.Inv) {tail head : ℕ} (hp : s.producer = .writing value tail)
    (hc : s.consumer = .reading head) : tail ≠ head := by
  have hproducer := h.producer
  have hconsumer := h.consumer
  rw [hp] at hproducer
  rw [hc] at hconsumer
  obtain ⟨rfl, -⟩ := hproducer
  obtain ⟨rfl, hpos⟩ := hconsumer
  exact fun heq => Nat.ne_of_gt hpos (h.head_eq_tail_iff.mp heq.symm)

theorem Inv.kept (h : s.Inv) {n : ℕ} (hn : n < s.count) :
    s.stamp ((s.ring.head + n) % Capacity) = some (s.popped.length + n) := by
  have hlt : s.popped.length + n < s.pushed.length := by unfold count at hn; omega
  have hget : s.queue[n]? = some (s.pushed[s.popped.length + n], some (s.popped.length + n)) := by
    rw [queue, List.getElem?_drop, getElem?_numbered, List.getElem?_eq_getElem hlt]
    rfl
  exact congrArg Prod.snd (h.holds.cell n _ hget)

theorem Inv.push_eq_false_iff (h : s.Inv) (hcap : SpscRingBuffer.IsCapacity Capacity) :
    (s.ring.push value).2 = false ↔ s.count = Capacity - 1 := by
  have hfull := h.next_eq_head_iff hcap.exists_pow
  have hlt := h.count_lt
  unfold SpscRingBuffer.push
  simp only
  split_ifs with hnext
  · simp only [true_iff]
    have := hfull.mp hnext
    omega
  · simp only [false_iff]
    have := mt hfull.mpr hnext
    omega

theorem Inv.pop_eq (h : s.Inv) (hs : s.consumer = .idle) :
    s.ring.pop.map (·.1) = s.pushed[s.popped.length]? := by
  have hempty := h.head_eq_tail_iff
  unfold SpscRingBuffer.pop
  split_ifs with hnext
  · have hle : s.pushed.length ≤ s.popped.length := Nat.le_of_sub_eq_zero (hempty.mp hnext)
    exact (List.getElem?_eq_none hle).symm
  · have hcell := (h.next_cell (Nat.pos_of_ne_zero (mt hempty.mpr hnext))).1
    simp only [content, hs] at hcell
    exact hcell.symm

/-- **The ring buffer is a bounded queue** under every interleaving. -/
theorem fifo_of_reach [Inhabited T] (hcap : SpscRingBuffer.IsCapacity Capacity)
    (h : Guarded.Reach (step moved) (fun _ _ => True) start s) : s.Fifo moved := by
  have hinv := inv_of_reach hcap h
  have hlt := hinv.count_lt
  refine
    { popped := hinv.popped
      count_le := by omega
      reads := fun _ hc => hinv.reads hc
      writes := fun _ _ _ hp hc => hinv.writes hp hc
      kept := fun _ hn => hinv.kept hn
      push := fun hs value => ?_
      pop := fun hs => ?_
      approxSize := by rw [← length_queue]; exact hinv.holds.approxSize hcap }
  · have hfull : (s.ring.push value).2 = false ↔ s.count = Capacity - 1 :=
      hinv.push_eq_false_iff hcap
    rw [pushReturns_iff hs, pushReturns_iff hs, ne_eq, ← hfull, Bool.not_eq_false]
    exact ⟨eq_comm, eq_comm⟩
  · have hout := hinv.pop_eq hs
    have hnone : none = s.pushed[s.popped.length]? ↔ s.count = 0 := by
      rw [eq_comm, List.getElem?_eq_none_iff, count, Nat.sub_eq_zero_iff_le]
    refine ⟨by rw [popReturns_iff hs, hout, hnone], fun out => ?_⟩
    rw [popReturns_iff hs, hout, eq_comm]

/-- A pop that overtakes a push: 5 is read and given up while 6 is written and not published. -/
theorem fifo_of_overtaken : ∃ s : SpscThreads ℕ 4,
    Guarded.Reach (step fun _ => 0) (fun _ _ => True) start s
      ∧ s.pushed = [5] ∧ s.popped = [5] ∧ s.ring.buffer 0 = 0 ∧ s.ring.buffer 1 = 6
      ∧ s.Fifo fun _ => 0 := by
  have hrun : (Guarded.run (step fun _ => 0) (fun _ _ => True) (start : SpscThreads ℕ 4)
      [.push 5, .produce, .produce, .produce, .produce, .push 6, .produce, .pop, .consume, .consume,
        .produce, .produce, .consume, .consume]).map
      (fun s => decide (s.pushed = [5] ∧ s.popped = [5] ∧ s.ring.buffer 0 = 0
        ∧ s.ring.buffer 1 = 6))
        = some true := by decide +kernel
  obtain ⟨s, hs, hval⟩ := Option.map_eq_some_iff.mp hrun
  obtain ⟨hpushed, hpopped, hmoved, hwritten⟩ := of_decide_eq_true hval
  have hreach := Guarded.Reach.of_run hs
  exact ⟨s, hreach, hpushed, hpopped, hmoved, hwritten,
    fifo_of_reach ⟨by decide, by decide, by decide⟩ hreach⟩

end SpscThreads

end Ordbk
