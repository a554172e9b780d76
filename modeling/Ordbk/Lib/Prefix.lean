import Mathlib.Data.List.Basic

/-!
# Lib/Prefix — taking what is due off the front

A list is consumed from the front for as long as its head is due.  If due is closed downwards along
the order the list is sorted by, what is taken is everything that is due (`takeWhile_eq_filter`).
Two passes, the second with a later limit, are one pass with that limit
(`takeWhile_append_takeWhile`), whether or not the list is sorted.
-/

namespace Prefix

variable {α : Type*} {R : α → α → Prop} {P Q : α → Bool} {l : List α}

/-- **All that is due is taken.** -/
theorem takeWhile_eq_filter (hP : ∀ a b, R a b → P b = true → P a = true) (hl : l.Pairwise R) :
    l.takeWhile P = l.filter P := by
  induction l with
  | nil => rfl
  | cons a l ih =>
    obtain ⟨ha, hl'⟩ := List.pairwise_cons.mp hl
    by_cases hPa : P a = true
    · rw [List.takeWhile_cons_of_pos hPa, List.filter_cons_of_pos hPa, ih hl']
    · have hnone : l.filter P = [] := List.filter_eq_nil_iff.mpr fun b hb hPb =>
        hPa (hP a b (ha b hb) hPb)
      rw [List.takeWhile_cons_of_neg hPa, List.filter_cons_of_neg hPa, hnone]

/-- What is left is what is not due. -/
theorem dropWhile_eq_filter (hP : ∀ a b, R a b → P b = true → P a = true) (hl : l.Pairwise R) :
    l.dropWhile P = l.filter fun a => !P a := by
  induction l with
  | nil => rfl
  | cons a l ih =>
    obtain ⟨ha, hl'⟩ := List.pairwise_cons.mp hl
    by_cases hPa : P a = true
    · rw [List.dropWhile_cons_of_pos hPa, List.filter_cons_of_neg (by simp [hPa]), ih hl']
    · have hall : l.filter (fun b => !P b) = l := List.filter_eq_self.mpr fun b hb => by
        simpa using fun hPb => hPa (hP a b (ha b hb) hPb)
      rw [List.dropWhile_cons_of_neg hPa, List.filter_cons_of_pos (by simp [hPa]), hall]

/-- **Two passes are one.** -/
theorem takeWhile_append_takeWhile (hPQ : ∀ a, P a = true → Q a = true) (l : List α) :
    l.takeWhile P ++ (l.dropWhile P).takeWhile Q = l.takeWhile Q := by
  induction l with
  | nil => rfl
  | cons a l ih =>
    by_cases hPa : P a = true
    · rw [List.takeWhile_cons_of_pos hPa, List.dropWhile_cons_of_pos hPa,
        List.takeWhile_cons_of_pos (hPQ a hPa), List.cons_append, ih]
    · rw [List.takeWhile_cons_of_neg hPa, List.dropWhile_cons_of_neg hPa, List.nil_append]

theorem dropWhile_dropWhile (hPQ : ∀ a, P a = true → Q a = true) (l : List α) :
    (l.dropWhile P).dropWhile Q = l.dropWhile Q := by
  induction l with
  | nil => rfl
  | cons a l ih =>
    by_cases hPa : P a = true
    · rw [List.dropWhile_cons_of_pos hPa, List.dropWhile_cons_of_pos (hPQ a hPa), ih]
    · rw [List.dropWhile_cons_of_neg hPa]

end Prefix
