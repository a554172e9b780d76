import Ordbk.Utils.SpscThreads

/-!
# Refinement/SpscThreads — a queue behind two threads

What is pushed and not popped is the queue; `settled` is the ring with what the consumer has moved
out, but not yet given up, put back in its cell.  It holds the queue, value and stamp, at every
moment: the producer changes it where it publishes `tail`, the consumer where it publishes `head`,
and each thread's locals agree with the ring it shares (`Inv.produce`, `Inv.consume`).
-/

namespace Ordbk

namespace SpscThreads

variable {T : Type} {Capacity : ℕ} {s s' : SpscThreads T Capacity} {moved : T → T}

/-- What the cells hold, or held before the consumer's move. -/
def content (s : SpscThreads T Capacity) : ℕ → T :=
  match s.consumer with
  | .read head out => Function.update s.ring.buffer head out
  | _ => s.ring.buffer

/-- **The ring with stamps**, what is in the consumer's hand put back. -/
def settled (s : SpscThreads T Capacity) : SpscRingBuffer (T × Option ℕ) Capacity where
  head := s.ring.head
  tail := s.ring.tail
  buffer k := (s.content k, s.stamp k)

/-- Values with the numbers of their pushes. -/
def numbered (l : List T) : List (T × Option ℕ) := l.zipIdx.map fun p => (p.1, some p.2)

/-- **The queue.** -/
def queue (s : SpscThreads T Capacity) : List (T × Option ℕ) :=
  (numbered s.pushed).drop s.popped.length

/-- A push gets the next number. -/
theorem numbered_concat (l : List T) (v : T) :
    numbered (l ++ [v]) = numbered l ++ [(v, some l.length)] := by
  simp [numbered, List.zipIdx_append]

/-- The number of a value is its place. -/
theorem getElem?_numbered (l : List T) (k : ℕ) :
    (numbered l)[k]? = l[k]?.map fun v => (v, some k) := by
  simp [numbered, List.getElem?_zipIdx, Function.comp_def]

@[simp] theorem length_numbered (l : List T) : (numbered l).length = l.length := by simp [numbered]

@[simp] theorem length_queue : s.queue.length = s.count := by simp [queue, count]

/-! ## The locals

A thread has loaded indices that the other may have moved since; what it knows of them stays true,
for each end moves in one direction only. -/

/-- **The producer's locals**: `tail` is its own; a cell is free before it is written, and keeps
what was written until it is published. -/
def ProducerAt (s : SpscThreads T Capacity) : Producer T → Prop
  | .idle | .called _ => True
  | .loaded _ tail => tail = s.ring.tail
  | .writing _ tail => tail = s.ring.tail ∧ s.count + 1 < Capacity
  | .written value tail => tail = s.ring.tail ∧ s.count + 1 < Capacity
      ∧ s.ring.buffer tail = value ∧ s.stamp tail = some s.pushed.length

/-- **The consumer's locals**: `head` is its own; what it has moved out is the next value. -/
def ConsumerAt (s : SpscThreads T Capacity) : Consumer T → Prop
  | .idle | .called => True
  | .loaded head => head = s.ring.head
  | .reading head => head = s.ring.head ∧ 0 < s.count
  | .read head out => head = s.ring.head ∧ s.pushed[s.popped.length]? = some out

/-- The consumer frees cells, and leaves the free one alone. -/
theorem ProducerAt.mono {p : Producer T} (h : s.ProducerAt p) (htail : s'.ring.tail = s.ring.tail)
    (hcount : s'.count ≤ s.count) (hpushed : s'.pushed = s.pushed)
    (hbuffer : s'.ring.buffer s.ring.tail = s.ring.buffer s.ring.tail)
    (hstamp : s'.stamp = s.stamp) : s'.ProducerAt p := by
  cases p with
  | idle | called value => trivial
  | loaded value tail => exact Eq.trans h htail.symm
  | writing value tail => exact ⟨h.1.trans htail.symm, by have := h.2; omega⟩
  | written value tail =>
    obtain ⟨rfl, hroom, hvalue, hnumber⟩ := h
    exact ⟨htail.symm, by omega, hbuffer.trans hvalue, by rw [hstamp, hpushed, hnumber]⟩

/-- The producer adds at the other end. -/
theorem ConsumerAt.mono {c : Consumer T} (h : s.ConsumerAt c) (hhead : s'.ring.head = s.ring.head)
    (hpopped : s'.popped = s.popped) (hpushed : s.pushed <+: s'.pushed) : s'.ConsumerAt c := by
  cases c with
  | idle | called => trivial
  | loaded head => exact Eq.trans h hhead.symm
  | reading head =>
    obtain ⟨rfl, hpos⟩ := h
    have hle := hpushed.length_le
    refine ⟨hhead.symm, ?_⟩
    unfold count at hpos ⊢
    rw [hpopped]
    omega
  | read head out =>
    obtain ⟨rfl, hout⟩ := h
    obtain ⟨more, hmore⟩ := hpushed
    refine ⟨hhead.symm, ?_⟩
    rw [hpopped, ← hmore, List.getElem?_append_left (List.getElem?_eq_some_iff.mp hout).1, hout]

/-! ## The invariant

One side is enough to say it: the ring with the consumer's value put back is a ring between two
calls, and that is what `SpscRingBuffer.Holds` is about. -/

/-- **The queue is in the ring**, what was popped came first, and the locals are up to date. -/
structure Inv (s : SpscThreads T Capacity) : Prop where
  /-- **The settled ring holds the queue.** -/
  holds : s.settled.Holds s.queue
  /-- What came out is what went in, in order. -/
  popped : s.popped <+: s.pushed
  /-- The producer's locals are right. -/
  producer : s.ProducerAt s.producer
  /-- The consumer's locals are right. -/
  consumer : s.ConsumerAt s.consumer

/-- An empty ring, and both threads between calls. -/
theorem inv_start [Inhabited T] (hcap : 0 < Capacity) : (start : SpscThreads T Capacity).Inv where
  holds := ⟨hcap, hcap, (Nat.zero_mod _).symm, fun k v hv => by cases hv⟩
  popped := List.nil_prefix
  producer := trivial
  consumer := trivial

/-- **Room** is what the producer sees of `head`. -/
theorem Inv.next_eq_head_iff (h : s.Inv) (hpow : ∃ n, Capacity = 2 ^ n) :
    (s.ring.tail + 1) &&& (Capacity - 1) = s.ring.head ↔ s.count + 1 = Capacity := by
  rw [← length_queue]
  exact h.holds.next_eq_head_iff hpow

/-- **Something to take** is what the consumer sees of `tail`. -/
theorem Inv.head_eq_tail_iff (h : s.Inv) : s.ring.head = s.ring.tail ↔ s.count = 0 := by
  rw [← length_queue, List.length_eq_zero_iff]
  exact h.holds.head_eq_tail_iff

/-- One cell is always free. -/
theorem Inv.count_lt (h : s.Inv) : s.count < Capacity := by
  rw [← length_queue]
  exact h.holds.fits

/-- The producer's cell is not in the consumer's hand. -/
theorem Inv.head_ne_tail (h : s.Inv) {head : ℕ} {out : T} (hc : s.consumer = .read head out) :
    head ≠ s.ring.tail := by
  have hconsumer := h.consumer
  rw [hc] at hconsumer
  obtain ⟨rfl, hout⟩ := hconsumer
  have hlt := (List.getElem?_eq_some_iff.mp hout).1
  refine mt h.head_eq_tail_iff.mp ?_
  unfold count
  omega

/-- The free cell is not the one in the consumer's hand. -/
theorem Inv.content_tail (h : s.Inv) : s.content s.ring.tail = s.ring.buffer s.ring.tail := by
  unfold content
  cases hc : s.consumer with
  | read head out => exact Function.update_of_ne (h.head_ne_tail hc).symm ..
  | idle | called | loaded _ | reading _ => rfl

/-- The next value, at the head of the queue. -/
theorem queue_eq_cons {out : T} (hout : s.pushed[s.popped.length]? = some out) :
    s.queue = (out, some s.popped.length) :: (numbered s.pushed).drop (s.popped.length + 1) := by
  have hlt : s.popped.length < (numbered s.pushed).length := by
    rw [length_numbered]
    exact (List.getElem?_eq_some_iff.mp hout).1
  have hget := getElem?_numbered s.pushed s.popped.length
  rw [hout, Option.map_some] at hget
  rw [queue, List.drop_eq_getElem_cons hlt, (List.getElem?_eq_some_iff.mp hget).2]

/-! ## The producer's steps

Only the store of `tail` is seen by the consumer; until then what is written lies in a cell that is
free. -/

/-- A push that is refused changes nothing. -/
theorem Inv.returnFull (h : s.Inv) (value : T) : (s.returnFull value).Inv := by
  have hqueue : (s.returnFull value).queue = s.queue := by
    rw [queue, pushed_returnFull]
    rfl
  exact
    { holds := by rw [hqueue]; exact h.holds
      popped := by rw [pushed_returnFull]; exact h.popped
      producer := trivial
      consumer := h.consumer.mono rfl rfl ⟨[], by rw [List.append_nil, pushed_returnFull]⟩ }

/-- A write to the free cell is a write to the ring. -/
theorem Inv.content_write (h : s.Inv) (value : T) :
    (s.write value s.ring.tail).content = Function.update s.content s.ring.tail value := by
  unfold content
  change (match s.consumer with | .read head out => _ | _ => _) = _
  cases hc : s.consumer with
  | read head out => exact Function.update_comm (h.head_ne_tail hc).symm value out s.ring.buffer
  | idle | called | loaded _ | reading _ => rfl

/-- Two functions updated at one place are one function updated there. -/
theorem update_prodMk {A B : Type} (f : ℕ → A) (g : ℕ → B) (i : ℕ) (a : A) (b : B) :
    (fun k => (Function.update f i a k, Function.update g i b k))
      = Function.update (fun k => (f k, g k)) i (a, b) := by
  funext k
  by_cases hk : k = i
  · subst hk
    simp only [Function.update_self]
  · simp only [Function.update_of_ne hk]

/-- Writing the free cell is not seen yet. -/
theorem Inv.write (h : s.Inv) (hroom : s.count + 1 < Capacity) (value : T) :
    (s.write value s.ring.tail).Inv := by
  have hbuffer : (s.write value s.ring.tail).settled.buffer
      = Function.update s.settled.buffer s.settled.tail (value, some s.pushed.length) := by
    change (fun k => ((s.write value s.ring.tail).content k,
      Function.update s.stamp s.ring.tail _ k)) = _
    rw [h.content_write]
    exact update_prodMk ..
  have hholds := h.holds.update_tail (value, some s.pushed.length)
  rw [← hbuffer] at hholds
  exact
    { holds := hholds
      popped := h.popped
      producer := ⟨rfl, hroom, Function.update_self .., Function.update_self ..⟩
      consumer := h.consumer.mono rfl rfl List.prefix_rfl }

/-- **Publishing `tail`** appends the value to the queue. -/
theorem Inv.storeTail (h : s.Inv) (hpow : ∃ n, Capacity = 2 ^ n) (hroom : s.count + 1 < Capacity)
    {value : T} (hvalue : s.ring.buffer s.ring.tail = value)
    (hstamp : s.stamp s.ring.tail = some s.pushed.length) :
    (s.storeTail value s.ring.tail).Inv := by
  have hqueue : (s.storeTail value s.ring.tail).queue
      = s.queue ++ [(value, some s.pushed.length)] := by
    have hle : s.popped.length ≤ (numbered s.pushed).length := by
      rw [length_numbered]
      exact h.popped.length_le
    rw [queue, pushed_storeTail, numbered_concat]
    exact List.drop_append_of_le_length hle
  have hcell : s.settled.buffer s.settled.tail = (value, some s.pushed.length) :=
    Prod.ext (h.content_tail.trans hvalue) hstamp
  exact
    { holds := by
        rw [hqueue]
        exact h.holds.append hpow (by rw [length_queue]; exact hroom) hcell
      popped := by
        rw [pushed_storeTail]
        exact h.popped.trans (List.prefix_append ..)
      producer := trivial
      consumer := h.consumer.mono rfl rfl (by rw [pushed_storeTail]; exact List.prefix_append ..) }

/-- **The producer's steps keep the queue.** -/
theorem Inv.produce (h : s.Inv) (hpow : ∃ n, Capacity = 2 ^ n) (hs : s.produce = some s') :
    s'.Inv := by
  have hproducer := h.producer
  unfold SpscThreads.produce at hs
  cases hp : s.producer with
  | idle => simp [hp] at hs
  | called value =>
    simp only [hp, Option.some.injEq] at hs
    subst hs
    exact ⟨h.holds, h.popped, rfl, h.consumer⟩
  | loaded value tail =>
    rw [hp] at hproducer
    obtain rfl : tail = s.ring.tail := hproducer
    simp only [hp] at hs
    split_ifs at hs with hfull <;> obtain rfl := Option.some.inj hs
    · exact h.returnFull value
    · have hroom : s.count + 1 < Capacity := by
        have hlt := h.count_lt
        have hne := mt (h.next_eq_head_iff hpow).mpr hfull
        omega
      exact ⟨h.holds, h.popped, ⟨rfl, hroom⟩, h.consumer⟩
  | writing value tail =>
    rw [hp] at hproducer
    obtain ⟨rfl, hroom⟩ := hproducer
    simp only [hp, Option.some.injEq] at hs
    subst hs
    exact h.write hroom value
  | written value tail =>
    rw [hp] at hproducer
    obtain ⟨rfl, hroom, hvalue, hstamp⟩ := hproducer
    simp only [hp, Option.some.injEq] at hs
    subst hs
    exact h.storeTail hpow hroom hvalue hstamp

/-! ## The consumer's steps

Only the store of `head` is seen by the producer; until then the value moved out counts as if it
were in its cell. -/

/-- Loading an index moves nothing. -/
theorem Inv.load (h : s.Inv) {c : Consumer T} (hc : s.ConsumerAt c)
    (hstill : s.content = s.ring.buffer)
    (hstill' : content { s with consumer := c } = s.ring.buffer) :
    Inv { s with consumer := c } := by
  have hsettled : settled { s with consumer := c } = s.settled := by
    unfold settled
    rw [hstill, hstill']
  exact ⟨hsettled ▸ h.holds, h.popped, h.producer, hc⟩

/-- A pop that finds nothing changes nothing. -/
theorem Inv.returnEmpty (h : s.Inv) (hstill : s.content = s.ring.buffer) : s.returnEmpty.Inv := by
  have hqueue : s.returnEmpty.queue = s.queue := by
    rw [queue, popped_returnEmpty]
    rfl
  have hcount : s.returnEmpty.count = s.count := by
    rw [← length_queue, hqueue, length_queue]
  have hidle := h.load (c := .idle) trivial hstill rfl
  exact
    { holds := by rw [hqueue]; exact hidle.holds
      popped := by rw [popped_returnEmpty]; exact h.popped
      producer := h.producer.mono rfl hcount.le rfl rfl rfl
      consumer := trivial }

/-- **What the consumer is about to read** is the next value, and it was written by its push. -/
theorem Inv.next_cell (h : s.Inv) (hpos : 0 < s.count) :
    s.pushed[s.popped.length]? = some (s.content s.ring.head)
      ∧ s.stamp s.ring.head = some s.popped.length := by
  have hlt : s.popped.length < s.pushed.length := by unfold count at hpos; omega
  have hget := List.getElem?_eq_getElem hlt
  have hholds := h.holds
  rw [queue_eq_cons hget] at hholds
  have hcell : (s.content s.ring.head, s.stamp s.ring.head)
      = (s.pushed[s.popped.length], some s.popped.length) := hholds.buffer_head
  obtain ⟨hcontent, hstamp⟩ := Prod.mk.inj hcell
  exact ⟨by rw [hget, hcontent], hstamp⟩

/-- Moving a value out of its cell leaves the queue as it was. -/
theorem Inv.moveOut (h : s.Inv) (hc : s.consumer = .reading s.ring.head) (hpos : 0 < s.count) :
    (s.moveOut moved s.ring.head).Inv := by
  have hne : s.ring.tail ≠ s.ring.head :=
    fun heq => Nat.ne_of_gt hpos (h.head_eq_tail_iff.mp heq.symm)
  have hstill : s.content = s.ring.buffer := by simp only [content, hc]
  have hcontent : (s.moveOut moved s.ring.head).content = s.content := by
    change Function.update (Function.update s.ring.buffer s.ring.head _) s.ring.head _ = _
    rw [Function.update_idem, Function.update_eq_self, hstill]
  have hsettled : (s.moveOut moved s.ring.head).settled = s.settled := by
    unfold settled
    rw [hcontent]
    rfl
  exact
    { holds := by rw [hsettled]; exact h.holds
      popped := h.popped
      producer := h.producer.mono rfl le_rfl rfl (Function.update_of_ne hne ..) rfl
      consumer := ⟨rfl, hstill ▸ (h.next_cell hpos).1⟩ }

/-- **Publishing `head`** drops the value from the queue. -/
theorem Inv.storeHead (h : s.Inv) (hpow : ∃ n, Capacity = 2 ^ n) {out : T}
    (hc : s.consumer = .read s.ring.head out) (hout : s.pushed[s.popped.length]? = some out) :
    (s.storeHead s.ring.head out).Inv := by
  have hqueue : (s.storeHead s.ring.head out).queue
      = (numbered s.pushed).drop (s.popped.length + 1) := by
    rw [queue, popped_storeHead, List.length_append]
    rfl
  have hbuffer : ∀ k, k ≠ s.ring.head → (s.storeHead s.ring.head out).settled.buffer k
      = s.settled.buffer k := by
    intro k hk
    have hcontent : s.content k = s.ring.buffer k := by
      simp only [content, hc]
      exact Function.update_of_ne hk ..
    exact Prod.ext hcontent.symm rfl
  have hpopped : s.popped ++ [out] <+: s.pushed := by
    have htake : s.pushed.take (s.popped.length + 1) = s.popped ++ [out] := by
      rw [List.take_add_one, hout, ← List.prefix_iff_eq_take.mp h.popped]
      rfl
    rw [← htake]
    exact List.take_prefix ..
  have hcount : (s.storeHead s.ring.head out).count ≤ s.count := by
    unfold count
    rw [popped_storeHead, List.length_append]
    exact Nat.sub_le_sub_left (Nat.le_add_right ..) _
  have hholds := h.holds
  rw [queue_eq_cons hout] at hholds
  exact
    { holds := by rw [hqueue]; exact hholds.advance hpow hbuffer
      popped := by rw [popped_storeHead]; exact hpopped
      producer := h.producer.mono rfl hcount rfl rfl rfl
      consumer := trivial }

/-- **The consumer's steps keep the queue.** -/
theorem Inv.consume (h : s.Inv) (hpow : ∃ n, Capacity = 2 ^ n) (hs : s.consume moved = some s') :
    s'.Inv := by
  have hconsumer := h.consumer
  unfold SpscThreads.consume at hs
  cases hc : s.consumer with
  | idle => simp [hc] at hs
  | called =>
    have hstill : s.content = s.ring.buffer := by simp only [content, hc]
    simp only [hc, Option.some.injEq] at hs
    subst hs
    exact h.load rfl hstill rfl
  | loaded head =>
    rw [hc] at hconsumer
    obtain rfl : head = s.ring.head := hconsumer
    have hstill : s.content = s.ring.buffer := by simp only [content, hc]
    simp only [hc] at hs
    split_ifs at hs with hempty <;> obtain rfl := Option.some.inj hs
    · exact h.returnEmpty hstill
    · have hpos : 0 < s.count := Nat.pos_of_ne_zero (mt h.head_eq_tail_iff.mpr hempty)
      exact h.load ⟨rfl, hpos⟩ hstill rfl
  | reading head =>
    rw [hc] at hconsumer
    obtain ⟨rfl, hpos⟩ := hconsumer
    simp only [hc, Option.some.injEq] at hs
    subst hs
    exact h.moveOut hc hpos
  | read head out =>
    rw [hc] at hconsumer
    obtain ⟨rfl, hout⟩ := hconsumer
    simp only [hc, Option.some.injEq] at hs
    subst hs
    exact h.storeHead hpow hc hout

/-! ## Runs

One step at a time, from the empty ring. -/

/-- **One step** of either thread. -/
theorem Inv.step (h : s.Inv) (hpow : ∃ n, Capacity = 2 ^ n) {a : SpscAct T}
    (hs : s.step moved a = some s') : s'.Inv := by
  cases a with
  | push value =>
    cases hp : s.producer with
    | idle =>
      simp only [SpscThreads.step, hp, Option.some.injEq] at hs
      subst hs
      exact ⟨h.holds, h.popped, trivial, h.consumer⟩
    | called _ | loaded _ _ | writing _ _ | written _ _ => simp [SpscThreads.step, hp] at hs
  | produce => exact h.produce hpow hs
  | pop =>
    cases hc : s.consumer with
    | idle =>
      have hstill : s.content = s.ring.buffer := by simp only [content, hc]
      simp only [SpscThreads.step, hc, Option.some.injEq] at hs
      subst hs
      exact h.load trivial hstill rfl
    | called | loaded _ | reading _ | read _ _ => simp [SpscThreads.step, hc] at hs
  | consume => exact h.consume hpow hs

/-- **It holds in every state of every run.** -/
theorem inv_of_reach [Inhabited T] (hcap : SpscRingBuffer.IsCapacity Capacity)
    {ok : SpscThreads T Capacity → SpscAct T → Prop}
    (h : Guarded.Reach (SpscThreads.step moved) ok start s) : s.Inv :=
  h.invariant (inv_start (by have := hcap.two_le; omega)) fun _ _ _ h _ hs =>
    h.step hcap.exists_pow hs

end SpscThreads

end Ordbk
