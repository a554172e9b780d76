import Ordbk.Refinement.SpscThreads

/-!
# Refinement/BoundedQueue — the queue behind the ring

`boundedQueue` is what a ring buffer is for.  A ring used by one thread is such a queue at each call
(`Holds.pushed`, `Holds.popped`), and a ring used by two at the step in which a call returns
(`Inv.returned_step`).
-/

namespace Ordbk

/-- **A queue that holds up to `bound` values**, used by one thread. -/
def boundedQueue {T : Type} (bound : ℕ) (l : List T) : QueueCall T → List T × QueueAnswer T
  | .push value => if l.length < bound then (l ++ [value], .pushed true) else (l, .pushed false)
  | .pop => (l.tail, .popped l.head?)

namespace SpscRingBuffer

variable {T : Type} {Capacity : ℕ} {b : SpscRingBuffer T Capacity} {l : List T}

/-- A push of a ring, as the queue's. -/
theorem Holds.pushed (h : b.Holds l) (hpow : ∃ n, Capacity = 2 ^ n) (value : T) :
    (boundedQueue (Capacity - 1) l (.push value)).2 = .pushed (b.push value).2
      ∧ (b.push value).1.Holds (boundedQueue (Capacity - 1) l (.push value)).1 := by
  have hfits := h.fits
  by_cases hroom : l.length < Capacity - 1
  · obtain ⟨hok, hholds⟩ := h.push hpow (v := value) (by omega)
    rw [boundedQueue, if_pos hroom, hok]
    exact ⟨rfl, hholds⟩
  · rw [boundedQueue, if_neg hroom, h.push_full hpow (by omega)]
    exact ⟨rfl, h⟩

/-- And a pop. -/
theorem Holds.popped (h : b.Holds l) (hpow : ∃ n, Capacity = 2 ^ n) :
    (boundedQueue (Capacity - 1) l .pop).2 = .popped (b.pop.map (·.1))
      ∧ ((b.pop.map (·.2)).getD b).Holds (boundedQueue (Capacity - 1) l .pop).1 := by
  cases l with
  | nil =>
    rw [h.pop_nil]
    exact ⟨rfl, h⟩
  | cons v l =>
    obtain ⟨b', hpop, hholds⟩ := h.pop hpow
    rw [hpop]
    exact ⟨rfl, hholds⟩

end SpscRingBuffer

namespace SpscThreads

variable {T : Type} {Capacity : ℕ} {s s' : SpscThreads T Capacity} {moved : T → T} {value : T}

/-- The values under way. -/
def waiting (s : SpscThreads T Capacity) : List T := s.pushed.drop s.popped.length

/-- As many as the indices count. -/
theorem length_waiting : s.waiting.length = s.count := by simp [waiting, count]

/-! ## Where a call returns

A push or a pop takes several steps of its thread. Exactly one of them changes which values are
under way, and it is the one in which the call returns. -/

/-- A producer's step shows nothing, or is one push, -/
theorem Inv.returned_produce (h : s.Inv) (hpow : ∃ n, Capacity = 2 ^ n) (hs : s.produce = some s') :
    (s.returned .produce = [] ∧ s'.waiting = s.waiting)
      ∨ ∃ c, s.returned .produce = [(c, (boundedQueue (Capacity - 1) s.waiting c).2)]
        ∧ s'.waiting = (boundedQueue (Capacity - 1) s.waiting c).1 := by
  have hproducer := h.producer
  unfold SpscThreads.produce at hs
  unfold returned
  cases hp : s.producer with
  | idle => simp [hp] at hs
  | called value | writing value tail =>
    simp only [hp, Option.some.injEq] at hs
    subst hs
    exact .inl ⟨rfl, rfl⟩
  | loaded value tail =>
    rw [hp] at hproducer
    obtain rfl : tail = s.ring.tail := hproducer
    simp only [hp] at hs ⊢
    split_ifs at hs with hfull <;> obtain rfl := Option.some.inj hs
    · have hcount := (h.next_eq_head_iff hpow).mp hfull
      have hlen : ¬ s.waiting.length < Capacity - 1 := by
        rw [length_waiting]
        omega
      refine .inr ⟨.push value, ?_, ?_⟩
      · rw [if_pos hfull, boundedQueue, if_neg hlen]
      · rw [boundedQueue, if_neg hlen, waiting, pushed_returnFull]
        rfl
    · rw [if_neg hfull]
      exact .inl ⟨rfl, rfl⟩
  | written value tail =>
    rw [hp] at hproducer
    obtain ⟨rfl, hroom, -, -⟩ := hproducer
    simp only [hp, Option.some.injEq] at hs
    subst hs
    have hlen : s.waiting.length < Capacity - 1 := by
      rw [length_waiting]
      omega
    refine .inr ⟨.push value, ?_, ?_⟩
    · rw [boundedQueue, if_pos hlen]
    · rw [boundedQueue, if_pos hlen, waiting, pushed_storeTail]
      exact List.drop_append_of_le_length h.popped.length_le

/-- and a consumer's shows nothing, or is one pop. -/
theorem Inv.returned_consume (h : s.Inv) (hs : s.consume moved = some s') :
    (s.returned .consume = [] ∧ s'.waiting = s.waiting)
      ∨ ∃ c, s.returned .consume = [(c, (boundedQueue (Capacity - 1) s.waiting c).2)]
        ∧ s'.waiting = (boundedQueue (Capacity - 1) s.waiting c).1 := by
  have hconsumer := h.consumer
  unfold SpscThreads.consume at hs
  unfold returned
  cases hc : s.consumer with
  | idle => simp [hc] at hs
  | called | reading head =>
    simp only [hc, Option.some.injEq] at hs
    subst hs
    exact .inl ⟨rfl, rfl⟩
  | loaded head =>
    rw [hc] at hconsumer
    obtain rfl : head = s.ring.head := hconsumer
    simp only [hc] at hs ⊢
    split_ifs at hs with hempty <;> obtain rfl := Option.some.inj hs
    · have hnil : s.waiting = [] := by
        rw [← List.length_eq_zero_iff, length_waiting]
        exact h.head_eq_tail_iff.mp hempty
      refine .inr ⟨.pop, ?_, ?_⟩
      · rw [if_pos hempty, boundedQueue, hnil]
        rfl
      · rw [boundedQueue, hnil, waiting, popped_returnEmpty]
        exact hnil
    · rw [if_neg hempty]
      exact .inl ⟨rfl, rfl⟩
  | read head out =>
    rw [hc] at hconsumer
    obtain ⟨rfl, hout⟩ := hconsumer
    simp only [hc, Option.some.injEq] at hs
    subst hs
    refine .inr ⟨.pop, ?_, ?_⟩
    · rw [boundedQueue, waiting, List.head?_drop, hout]
    · rw [boundedQueue, waiting, popped_storeHead, List.length_append, waiting, List.tail_drop]
      rfl

/-- What the producer's steps are to its caller. -/
theorem produce_cases (hs : s.produce = some s') : s'.consumer = s.consumer
    ∧ ((s.returned .produce = [] ∧ s'.producer.value = s.producer.value)
      ∨ ∃ value ok, s.producer.value = some value
        ∧ s.returned .produce = [(.push value, .pushed ok)] ∧ s'.producer = .idle) := by
  unfold produce at hs
  unfold returned
  cases hp : s.producer with
  | idle => simp [hp] at hs
  | called value | writing value tail =>
    simp only [hp, Option.some.injEq] at hs
    subst hs
    exact ⟨rfl, .inl ⟨rfl, rfl⟩⟩
  | loaded value tail =>
    simp only [hp] at hs ⊢
    split_ifs at hs ⊢ with hfull <;> obtain rfl := Option.some.inj hs
    · exact ⟨rfl, .inr ⟨value, false, rfl, rfl, rfl⟩⟩
    · exact ⟨rfl, .inl ⟨rfl, rfl⟩⟩
  | written value tail =>
    simp only [hp, Option.some.injEq] at hs
    subst hs
    exact ⟨rfl, .inr ⟨value, true, rfl, rfl, rfl⟩⟩

/-- And the consumer's. -/
theorem consume_cases (hs : s.consume moved = some s') : s'.producer = s.producer
    ∧ (s.returned .consume = []
      ∨ ∃ out, s.returned .consume = [(.pop, .popped out)] ∧ s'.consumer = .idle) := by
  unfold consume at hs
  unfold returned
  cases hc : s.consumer with
  | idle => simp [hc] at hs
  | called | reading head =>
    simp only [hc, Option.some.injEq] at hs
    subst hs
    exact ⟨rfl, .inl rfl⟩
  | loaded head =>
    simp only [hc] at hs ⊢
    split_ifs at hs ⊢ with hempty <;> obtain rfl := Option.some.inj hs
    · exact ⟨rfl, .inr ⟨none, rfl, rfl⟩⟩
    · exact ⟨rfl, .inl rfl⟩
  | read head out =>
    simp only [hc, Option.some.injEq] at hs
    subst hs
    exact ⟨rfl, .inr ⟨some out, rfl, rfl⟩⟩

/-- **Each step shows nothing, or is one call** of the queue. -/
theorem Inv.returned_step (h : s.Inv) (hpow : ∃ n, Capacity = 2 ^ n) {a : SpscAct T}
    (hs : s.step moved a = some s') :
    (s.returned a = [] ∧ s'.waiting = s.waiting)
      ∨ ∃ c, s.returned a = [(c, (boundedQueue (Capacity - 1) s.waiting c).2)]
        ∧ s'.waiting = (boundedQueue (Capacity - 1) s.waiting c).1 := by
  cases a with
  | push value =>
    cases hp : s.producer with
    | idle =>
      simp only [SpscThreads.step, hp, Option.some.injEq] at hs
      subst hs
      exact .inl ⟨rfl, rfl⟩
    | called _ | loaded _ _ | writing _ _ | written _ _ => simp [SpscThreads.step, hp] at hs
  | produce => exact h.returned_produce hpow hs
  | pop =>
    cases hc : s.consumer with
    | idle =>
      simp only [SpscThreads.step, hc, Option.some.injEq] at hs
      subst hs
      exact .inl ⟨rfl, rfl⟩
    | called | loaded _ | reading _ | read _ _ => simp [SpscThreads.step, hc] at hs
  | consume => exact h.returned_consume hs

end SpscThreads

end Ordbk
