import Mathlib.Data.Nat.ModEq
import Mathlib.Logic.Function.Basic

/-!
# Utils/SpscRingBuffer — a bounded queue over a ring of cells

One cell stays unused, so that equal indices mean empty.  `Holds b l`: the cells from `head` up to
`tail`, round the ring, are the queue `l`.  `push` and `pop` are then `l ++ [v]` and `l.tail`, and
`push` is refused exactly when `Capacity - 1` elements are queued.  Both indices stay below
`Capacity`, so adding one to them does not wrap.
-/

namespace Ordbk

/-- A ring of cells, and where the queue in it begins and ends. -/
structure SpscRingBuffer (T : Type) (Capacity : ℕ) where
  /-- The oldest element. -/
  head : ℕ := 0
  /-- The cell that is written next. -/
  tail : ℕ := 0
  /-- The cells; what is in those that are not in use does not matter. -/
  buffer : ℕ → T

namespace SpscRingBuffer

variable {T : Type} {Capacity : ℕ}

/-- The value-initialised ring. -/
def empty [Inhabited T] : SpscRingBuffer T Capacity := { buffer := fun _ => default }

/-- Refused when the next cell is the oldest element. -/
def push (b : SpscRingBuffer T Capacity) (value : T) : SpscRingBuffer T Capacity × Bool :=
  let next := (b.tail + 1) &&& (Capacity - 1)
  if next = b.head then (b, false)
  else ({ b with buffer := Function.update b.buffer b.tail value, tail := next }, true)

/-- Nothing when both indices are the same. -/
def pop (b : SpscRingBuffer T Capacity) : Option (T × SpscRingBuffer T Capacity) :=
  if b.head = b.tail then none
  else some (b.buffer b.head, { b with head := (b.head + 1) &&& (Capacity - 1) })

/-- `approx_size`; the difference is one of 64-bit numbers. -/
def approxSize (b : SpscRingBuffer T Capacity) : ℕ :=
  ((b.tail + 2 ^ 64 - b.head) % 2 ^ 64) &&& (Capacity - 1)

/-- **What the template asserts** of its parameter, a `size_t`. -/
structure IsCapacity (Capacity : ℕ) : Prop where
  /-- At least 2, -/
  two_le : 2 ≤ Capacity
  /-- a power of two, -/
  power : Capacity &&& (Capacity - 1) = 0
  /-- and small enough for its type. -/
  lt : Capacity < 2 ^ 64

theorem IsCapacity.exists_pow (h : IsCapacity Capacity) : ∃ n, Capacity = 2 ^ n :=
  (Nat.and_sub_one_eq_zero_iff_isPowerOfTwo (Nat.ne_of_gt (by have := h.two_le; omega))).mp h.power

/-- 64-bit arithmetic is arithmetic round the ring. -/
theorem IsCapacity.dvd (h : IsCapacity Capacity) : Capacity ∣ 2 ^ 64 := by
  obtain ⟨n, rfl⟩ := h.exists_pow
  exact Nat.pow_dvd_pow 2 (Nat.le_of_lt ((Nat.pow_lt_pow_iff_right (by decide)).mp h.lt))

/-! ## The queue it holds

Places are counted from `head`, so going round the ring does not show. -/

/-- **The ring holds a queue.** -/
structure Holds (b : SpscRingBuffer T Capacity) (l : List T) : Prop where
  /-- The indices are below `Capacity`. -/
  head_lt : b.head < Capacity
  /-- One cell stays free. -/
  fits : l.length < Capacity
  /-- The tail is as far behind the head as there are elements. -/
  tail_eq : b.tail = (b.head + l.length) % Capacity
  /-- **The cells hold the values in order.** -/
  cell : ∀ k v, l[k]? = some v → b.buffer ((b.head + k) % Capacity) = v

theorem holds_empty [Inhabited T] (h : 0 < Capacity) :
    (empty : SpscRingBuffer T Capacity).Holds [] where
  head_lt := h
  fits := h
  tail_eq := (Nat.zero_mod _).symm
  cell k v hv := by simp at hv

/-- Two places in the ring less than a turn apart. -/
theorem add_mod_ne {x j k : ℕ} (hj : j < Capacity) (hk : k < Capacity) (hne : j ≠ k) :
    (x + j) % Capacity ≠ (x + k) % Capacity := by
  intro heq
  have hjk : j ≡ k [MOD Capacity] := Nat.ModEq.add_left_cancel' x heq
  exact hne (hjk.eq_of_lt_of_lt hj hk)

theorem add_mod_ne_self {x k : ℕ} (hx : x < Capacity) (h0 : 0 < k) (hk : k < Capacity) :
    (x + k) % Capacity ≠ x := by
  have hne := add_mod_ne (x := x) (j := k) (k := 0) hk (by omega) (by omega)
  simpa [Nat.mod_eq_of_lt hx] using hne

section Ops

variable {b : SpscRingBuffer T Capacity} {l : List T} {v : T}

theorem and_mask (hpow : ∃ n, Capacity = 2 ^ n) (x : ℕ) :
    x &&& (Capacity - 1) = x % Capacity := by
  obtain ⟨n, rfl⟩ := hpow
  exact Nat.and_two_pow_sub_one_eq_mod x n

/-- The cell after the last one. -/
theorem Holds.next_eq (h : b.Holds l) (hpow : ∃ n, Capacity = 2 ^ n) :
    (b.tail + 1) &&& (Capacity - 1) = (b.head + (l.length + 1)) % Capacity := by
  rw [and_mask hpow, h.tail_eq, Nat.mod_add_mod, Nat.add_assoc]

/-- **Full** is when the next cell is the first. -/
theorem Holds.next_eq_head_iff (h : b.Holds l) (hpow : ∃ n, Capacity = 2 ^ n) :
    (b.tail + 1) &&& (Capacity - 1) = b.head ↔ l.length + 1 = Capacity := by
  rw [h.next_eq hpow]
  constructor
  · intro heq
    have hfits := h.fits
    by_contra hne
    exact add_mod_ne_self h.head_lt (Nat.succ_pos _) (by omega) heq
  · intro hfull
    rw [hfull, Nat.add_mod_right, Nat.mod_eq_of_lt h.head_lt]

/-- **Empty** is when there is no cell between. -/
theorem Holds.head_eq_tail_iff (h : b.Holds l) : b.head = b.tail ↔ l = [] := by
  rw [h.tail_eq]
  constructor
  · intro heq
    by_contra hne
    exact add_mod_ne_self h.head_lt (List.length_pos_iff.mpr hne) h.fits heq.symm
  · rintro rfl
    rw [List.length_nil, Nat.add_zero, Nat.mod_eq_of_lt h.head_lt]

/-- A full ring refuses. -/
theorem Holds.push_full (h : b.Holds l) (hpow : ∃ n, Capacity = 2 ^ n)
    (hfull : l.length + 1 = Capacity) : b.push v = (b, false) := by
  unfold push
  simp only [(h.next_eq_head_iff hpow).mpr hfull, if_true]

/-- A push that is refused changes nothing. -/
theorem push_refused (hp : (b.push v).2 = false) : (b.push v).1 = b := by
  unfold push at hp ⊢
  simp only at hp ⊢
  split_ifs at hp ⊢
  rfl

/-- The cell at `tail` is free. -/
theorem Holds.update_tail (h : b.Holds l) (v : T) :
    ({ b with buffer := Function.update b.buffer b.tail v } : SpscRingBuffer T Capacity).Holds
      l where
  head_lt := h.head_lt
  fits := h.fits
  tail_eq := h.tail_eq
  cell k w hw := by
    have hk : k < l.length := (List.getElem?_eq_some_iff.mp hw).1
    have hcell : (b.head + k) % Capacity ≠ b.tail := by
      rw [h.tail_eq]
      exact add_mod_ne (by have := h.fits; omega) h.fits (by omega)
    change Function.update b.buffer b.tail v ((b.head + k) % Capacity) = w
    rw [Function.update_of_ne hcell]
    exact h.cell k w hw

/-- Moving `tail` on appends what its cell holds. -/
theorem Holds.append (h : b.Holds l) (hpow : ∃ n, Capacity = 2 ^ n)
    (hroom : l.length + 1 < Capacity) (hcell : b.buffer b.tail = v) :
    ({ b with tail := (b.tail + 1) &&& (Capacity - 1) } : SpscRingBuffer T Capacity).Holds
      (l ++ [v]) where
  head_lt := h.head_lt
  fits := by simpa using hroom
  tail_eq := by
    rw [List.length_append]
    exact h.next_eq hpow
  cell k w hw := by
    rcases Nat.lt_trichotomy k l.length with hk | hk | hk
    · rw [List.getElem?_append_left hk] at hw
      exact h.cell k w hw
    · subst hk
      change b.buffer ((b.head + l.length) % Capacity) = w
      rw [← h.tail_eq, hcell]
      simpa using hw
    · rw [List.getElem?_eq_none (by simp; omega)] at hw
      cases hw

/-- **A ring with room takes the value at the end.** -/
theorem Holds.push (h : b.Holds l) (hpow : ∃ n, Capacity = 2 ^ n)
    (hroom : l.length + 1 < Capacity) :
    (b.push v).2 = true ∧ (b.push v).1.Holds (l ++ [v]) := by
  have hne : (b.tail + 1) &&& (Capacity - 1) ≠ b.head :=
    mt (h.next_eq_head_iff hpow).mp (Nat.ne_of_lt hroom)
  unfold SpscRingBuffer.push
  simp only [if_neg hne]
  exact ⟨trivial, (h.update_tail v).append hpow hroom (Function.update_self ..)⟩

/-- An empty ring has nothing. -/
theorem Holds.pop_nil (h : b.Holds []) : b.pop = none := by
  unfold pop
  rw [if_pos (h.head_eq_tail_iff.mpr rfl)]

/-- The first value is at `head`. -/
theorem Holds.buffer_head (h : b.Holds (v :: l)) : b.buffer b.head = v := by
  have hcell := h.cell 0 v rfl
  rwa [Nat.add_zero, Nat.mod_eq_of_lt h.head_lt] at hcell

/-- Moving `head` on drops the first value, whatever is left in its cell. -/
theorem Holds.advance (h : b.Holds (v :: l)) (hpow : ∃ n, Capacity = 2 ^ n) {buffer : ℕ → T}
    (hbuffer : ∀ k, k ≠ b.head → buffer k = b.buffer k) :
    ({ b with head := (b.head + 1) &&& (Capacity - 1), buffer } : SpscRingBuffer T Capacity).Holds
      l := by
  have hfits := h.fits
  rw [List.length_cons] at hfits
  have hmask := and_mask hpow (b.head + 1)
  refine ⟨?_, by omega, ?_, fun k w hw => ?_⟩
  · change (b.head + 1) &&& (Capacity - 1) < Capacity
    rw [hmask]
    exact Nat.mod_lt _ (by omega)
  · change b.tail = (((b.head + 1) &&& (Capacity - 1)) + l.length) % Capacity
    rw [hmask, Nat.mod_add_mod, h.tail_eq, List.length_cons, Nat.add_assoc, Nat.add_comm 1]
  · change buffer ((((b.head + 1) &&& (Capacity - 1)) + k) % Capacity) = w
    have hk : k < l.length := (List.getElem?_eq_some_iff.mp hw).1
    rw [hmask, Nat.mod_add_mod, Nat.add_assoc, Nat.add_comm 1,
      hbuffer _ (add_mod_ne_self h.head_lt (Nat.succ_pos k) (by omega))]
    exact h.cell (k + 1) w hw

/-- **A ring gives back its first value.** -/
theorem Holds.pop (h : b.Holds (v :: l)) (hpow : ∃ n, Capacity = 2 ^ n) :
    ∃ b', b.pop = some (v, b') ∧ b'.Holds l := by
  unfold SpscRingBuffer.pop
  rw [if_neg (mt h.head_eq_tail_iff.mp (List.cons_ne_nil v l)), h.buffer_head]
  exact ⟨_, rfl, h.advance hpow fun _ _ => rfl⟩

/-- **The size of a ring at rest.** -/
theorem Holds.approxSize (h : b.Holds l) (hcap : IsCapacity Capacity) :
    b.approxSize = l.length := by
  have hturn : b.tail + 2 ^ 64 - b.head ≡ l.length [MOD Capacity] := by
    have hle : b.head ≤ b.tail + 2 ^ 64 :=
      (Nat.le_of_lt (h.head_lt.trans hcap.lt)).trans (Nat.le_add_left _ _)
    refine Nat.ModEq.add_right_cancel' b.head ?_
    rw [Nat.sub_add_cancel hle, Nat.add_comm l.length, h.tail_eq]
    calc (b.head + l.length) % Capacity + 2 ^ 64
        ≡ (b.head + l.length) + 0 [MOD Capacity] :=
          (Nat.mod_modEq _ _).add ((Nat.modEq_zero_iff_dvd).mpr hcap.dvd)
      _ = b.head + l.length := Nat.add_zero _
  unfold SpscRingBuffer.approxSize
  rw [and_mask hcap.exists_pow, Nat.mod_mod_of_dvd _ hcap.dvd]
  exact Eq.trans hturn (Nat.mod_eq_of_lt h.fits)

/-! ## Reading the queue off a result

Conversely, the result of a call says what the queue was. -/

theorem Holds.of_push (h : b.Holds l) (hpow : ∃ n, Capacity = 2 ^ n) (hp : (b.push v).2 = true) :
    (b.push v).1.Holds (l ++ [v]) := by
  rcases Nat.lt_or_eq_of_le (Nat.succ_le_of_lt h.fits) with hlt | heq
  · exact (h.push hpow hlt).2
  · rw [h.push_full hpow heq] at hp
    cases hp

theorem Holds.of_pop {b' : SpscRingBuffer T Capacity} (h : b.Holds l) (hpow : ∃ n, Capacity = 2 ^ n)
    (hp : b.pop = some (v, b')) : ∃ l', l = v :: l' ∧ b'.Holds l' := by
  cases l with
  | nil =>
    rw [h.pop_nil] at hp
    cases hp
  | cons w l =>
    obtain ⟨b'', hpop, hholds⟩ := h.pop hpow
    rw [hpop, Option.some.injEq, Prod.mk.injEq] at hp
    obtain ⟨rfl, rfl⟩ := hp
    exact ⟨l, rfl, hholds⟩

theorem Holds.of_pop_none (h : b.Holds l) (hpow : ∃ n, Capacity = 2 ^ n) (hp : b.pop = none) :
    l = [] := by
  cases l with
  | nil => rfl
  | cons w l =>
    obtain ⟨b', hpop, -⟩ := h.pop hpow
    rw [hpop] at hp
    cases hp

end Ops

end SpscRingBuffer

end Ordbk
