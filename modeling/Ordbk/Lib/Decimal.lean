import Mathlib.Data.Nat.Digits.Lemmas

/-!
# Lib/Decimal — numbers in decimal, with leading zeros

`padded w n` are the digits of `n`, the most significant first, with as many zeros in front as it
takes to make them `w`; a number that needs more than `w` digits keeps them.  `value` reads digits,
whatever their number.  Reading undoes writing (`value_padded`), and writing undoes reading for
lists of the width written to (`padded_value`).
-/

namespace Decimal

/-- The number some digits stand for. -/
def value (ds : List ℕ) : ℕ := ds.foldl (fun v d => v * 10 + d) 0

/-- At least `w` digits. -/
def padded (w n : ℕ) : List ℕ := (Nat.digits 10 n).reverse.leftpad w 0

theorem foldl_eq (ds : List ℕ) (v : ℕ) :
    ds.foldl (fun v d => v * 10 + d) v = v * 10 ^ ds.length + value ds := by
  induction ds generalizing v with
  | nil => simp [value]
  | cons d ds ih =>
    rw [value, List.foldl_cons, List.foldl_cons, ih, ih (0 * 10 + d), List.length_cons]
    ring

theorem value_cons (d : ℕ) (ds : List ℕ) : value (d :: ds) = d * 10 ^ ds.length + value ds := by
  rw [value, List.foldl_cons, foldl_eq, Nat.zero_mul, Nat.zero_add]

theorem value_append (ds es : List ℕ) :
    value (ds ++ es) = value ds * 10 ^ es.length + value es := by
  rw [value, List.foldl_append, foldl_eq]
  rfl

/-- Read from the other end. -/
theorem value_reverse (ds : List ℕ) : value ds.reverse = Nat.ofDigits 10 ds := by
  induction ds with
  | nil => rfl
  | cons d ds ih =>
    rw [List.reverse_cons, value_append, ih, Nat.ofDigits_cons, value_cons]
    simp [value]
    ring

theorem value_replicate_zero (n : ℕ) : value (List.replicate n 0) = 0 := by
  induction n with
  | zero => rfl
  | succ n ih => rw [List.replicate_succ, value_cons, ih, Nat.zero_mul]

/-- **Reading undoes writing.** -/
theorem value_padded (w n : ℕ) : value (padded w n) = n := by
  rw [padded, List.leftpad, value_append, value_replicate_zero, Nat.zero_mul, Nat.zero_add,
    value_reverse, Nat.ofDigits_digits]

theorem lt_of_mem_padded {w n d : ℕ} (h : d ∈ padded w n) : d < 10 := by
  rw [padded, List.leftpad, List.mem_append] at h
  rcases h with h | h
  · rw [List.eq_of_mem_replicate h]
    decide
  · exact Nat.digits_lt_base (by decide) (List.mem_reverse.mp h)

theorem length_padded (w n : ℕ) : (padded w n).length = max w (Nat.digits 10 n).length := by
  rw [padded, List.length_leftpad, List.length_reverse]

theorem le_length_padded (w n : ℕ) : w ≤ (padded w n).length := by
  rw [length_padded]
  exact le_max_left _ _

/-- **A number below `10 ^ w` has `w` digits.** -/
theorem length_padded_of_lt {w n : ℕ} (h : n < 10 ^ w) : (padded w n).length = w := by
  rw [length_padded]
  exact max_eq_left ((Nat.digits_length_le_iff (by decide) n).mpr h)

theorem value_lt {ds : List ℕ} (h : ∀ d ∈ ds, d < 10) : value ds < 10 ^ ds.length := by
  rw [← List.reverse_reverse ds, value_reverse, List.reverse_reverse, ← List.length_reverse]
  exact Nat.ofDigits_lt_base_pow_length (by decide) fun d hd => h d (List.mem_reverse.mp hd)

/-- As many digits are told apart by their value. -/
theorem value_inj {ds es : List ℕ} (hlen : ds.length = es.length) (hd : ∀ d ∈ ds, d < 10)
    (he : ∀ d ∈ es, d < 10) (h : value ds = value es) : ds = es := by
  rw [← List.reverse_inj]
  refine Nat.ofDigits_inj_of_len_eq (by decide) (by simpa using hlen)
    (fun d hm => hd d (List.mem_reverse.mp hm)) (fun d hm => he d (List.mem_reverse.mp hm)) ?_
  rw [← value_reverse, ← value_reverse, List.reverse_reverse, List.reverse_reverse, h]

/-- **Writing undoes reading**, at the width that was read. -/
theorem padded_value {w : ℕ} {ds : List ℕ} (hlen : ds.length = w) (h : ∀ d ∈ ds, d < 10) :
    padded w (value ds) = ds := by
  have hw : (padded w (value ds)).length = w := length_padded_of_lt (hlen ▸ value_lt h)
  exact value_inj (hw.trans hlen.symm) (fun d => lt_of_mem_padded) h (value_padded _ _)

/-- **Rounding down to tens** makes the last digit a zero. -/
theorem padded_div_mul {w n : ℕ} (h : n < 10 ^ (w + 1)) :
    padded (w + 1) (n / 10 * 10) = (padded (w + 1) n).take w ++ [0] := by
  have hlen := length_padded_of_lt h
  have htake : ((padded (w + 1) n).take w).length = w := List.length_take_of_le (by omega)
  have hdigits : ∀ d ∈ (padded (w + 1) n).take w, d < 10 := fun d hd =>
    lt_of_mem_padded (List.mem_of_mem_take hd)
  obtain ⟨d, hd⟩ : ∃ d, (padded (w + 1) n).drop w = [d] :=
    List.length_eq_one_iff.mp (by rw [List.length_drop, hlen]; omega)
  have hlt : d < 10 := lt_of_mem_padded (List.mem_of_mem_drop (hd ▸ List.mem_singleton_self d))
  have hvalue : value ((padded (w + 1) n).take w) * 10 + d = n := by
    have hn := value_padded (w + 1) n
    rw [← List.take_append_drop w (padded (w + 1) n), hd, value_append] at hn
    simpa [value] using hn
  have hzero : value ((padded (w + 1) n).take w ++ [0]) = n / 10 * 10 := by
    have hv := value_append ((padded (w + 1) n).take w) [0]
    rw [hv]
    change value _ * 10 ^ 1 + 0 = _
    omega
  rw [← hzero]
  refine padded_value (by rw [List.length_append, htake]; rfl) fun e he => ?_
  rcases List.mem_append.mp he with he | he
  · exact hdigits e he
  · obtain rfl := List.mem_singleton.mp he
    decide

end Decimal
