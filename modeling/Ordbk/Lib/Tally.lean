import Mathlib.Algebra.BigOperators.Group.Finset.Basic

/-!
# Lib/Tally — adding up in instalments

Threads add to one total, each its own amount and in as many instalments as it likes; `part` is what
a thread has added so far, told from where it is.  The total is what those who are done have added,
and the parts of the others (`Adds`).  All that is used of the amounts is that they add up in any
order.
-/

namespace Tally

variable {M α : Type*} [AddCommMonoid M] {part : α → M} {total done x whole : M} {active : Finset ℕ}
  {threads : ℕ → α} {t : ℕ} {q : α}

/-- **What the total is made of.** -/
def Adds (part : α → M) (total done : M) (active : Finset ℕ) (threads : ℕ → α) : Prop :=
  total = done + ∑ t ∈ active, part (threads t)

/-- The others are where they were. -/
theorem sum_update_of_notMem (ht : t ∉ active) (q : α) :
    ∑ u ∈ active, part (Function.update threads t q u) = ∑ u ∈ active, part (threads u) := by
  refine Finset.sum_congr rfl fun u hu => ?_
  rw [Function.update_of_ne]
  rintro rfl
  exact ht hu

/-- A thread begins, with or without an instalment. -/
theorem Adds.begin (h : Adds part total done active threads) (ht : t ∉ active) (q : α) :
    Adds part (total + part q) done (insert t active) (Function.update threads t q) := by
  rw [Adds] at h ⊢
  rw [Finset.sum_insert ht, Function.update_self, sum_update_of_notMem ht, h, add_assoc,
    add_comm (part q)]

theorem sum_erase (part : α → M) (threads : ℕ → α) (ht : t ∈ active) :
    ∑ u ∈ active.erase t, part (threads u) + part (threads t) = ∑ u ∈ active, part (threads u) :=
  Finset.sum_erase_add active _ ht

/-- **An instalment.** -/
theorem Adds.add (h : Adds part total done active threads) (ht : t ∈ active)
    (hq : part q = part (threads t) + x) :
    Adds part (total + x) done active (Function.update threads t q) := by
  rw [Adds] at h ⊢
  rw [← sum_erase _ _ ht, sum_update_of_notMem (Finset.notMem_erase t active),
    Function.update_self, hq, h, ← sum_erase part threads ht, add_assoc, add_assoc]

/-- **The last instalment.** -/
theorem Adds.finish (h : Adds part total done active threads) (ht : t ∈ active)
    (hwhole : part (threads t) + x = whole) (q : α) :
    Adds part (total + x) (done + whole) (active.erase t) (Function.update threads t q) := by
  rw [Adds] at h ⊢
  rw [sum_update_of_notMem (Finset.notMem_erase t active), h,
    ← sum_erase part threads ht, ← hwhole]
  simp only [add_assoc, add_comm, add_left_comm]

/-- With nobody at work, the total is what has been done. -/
theorem Adds.eq_done (h : Adds part total done active threads) (hnone : active = ∅) :
    total = done := by
  rw [Adds, hnone, Finset.sum_empty, add_zero] at h
  exact h

end Tally
