import Mathlib.Algebra.BigOperators.Group.List.Basic
import Mathlib.Algebra.Order.Ring.Defs
import Mathlib.Data.Nat.Cast.Order.Ring
import Mathlib.Tactic.Linarith
import Mathlib.Tactic.Ring

/-!
# Lib/Greedy — filling from the cheapest on

An offer is a price and an amount.  `fill n` takes `n` from the front of a list of offers, each as
far as it goes.  If the prices ascend, no other way of taking as much is cheaper (`cost_fill_le`).
The proof is duality: at any price `p` whoever takes `n` pays at least `p * n` less the `surplus` of
the offers below `p`, and at the price of the last offer taken `fill` pays no more.
-/

namespace Greedy

variable {R : Type*} {n : ℕ} {xs : List ℕ} {l : List (R × ℕ)}

/-- Take `n` from the front, from each offer as far as it goes. -/
def fill : ℕ → List (R × ℕ) → List ℕ
  | _, [] => []
  | n, o :: l => min n o.2 :: fill (n - o.2) l

/-- A way of taking: so much from each offer. -/
def Within (xs : List ℕ) (l : List (R × ℕ)) : Prop := List.Forall₂ (fun x o => x ≤ o.2) xs l

/-- All that is offered. -/
def total (l : List (R × ℕ)) : ℕ := (l.map Prod.snd).sum

@[simp] theorem total_cons (o : R × ℕ) (l : List (R × ℕ)) : total (o :: l) = o.2 + total l :=
  List.sum_cons

theorem Within.sum_le (h : Within xs l) : xs.sum ≤ total l := by
  induction h with
  | nil => exact Nat.le_refl _
  | cons hx _ ih =>
    rw [List.sum_cons, total_cons]
    exact Nat.add_le_add hx ih

/-- The prices do not matter to how much is taken from each. -/
theorem fill_map {S : Type*} (f : R → S) (n : ℕ) (l : List (R × ℕ)) :
    fill n (l.map fun o => (f o.1, o.2)) = fill n l := by
  induction l generalizing n with
  | nil => rfl
  | cons o l ih => rw [List.map_cons, fill, fill, ih]

/-- What is left in front once `n` has been taken. -/
def left : ℕ → List (R × ℕ) → List (R × ℕ)
  | _, [] => []
  | n, o :: l => if o.2 ≤ n then left (n - o.2) l else (o.1, o.2 - n) :: l

section Ring

variable [CommRing R]

/-- What is paid. -/
def cost : List ℕ → List (R × ℕ) → R
  | x :: xs, o :: l => x * o.1 + cost xs l
  | _, _ => 0

/-- Nothing is taken, and nothing paid. -/
@[simp] theorem cost_fill_zero (l : List (R × ℕ)) : cost (fill 0 l) l = 0 := by
  induction l with
  | nil => rfl
  | cons o l ih =>
    rw [fill, Nat.zero_min, Nat.zero_sub, cost, ih, Nat.cast_zero, zero_mul, add_zero]

/-- **Filling in two goes** costs what filling at once does. -/
theorem cost_fill_add (m n : ℕ) (l : List (R × ℕ)) :
    cost (fill (m + n) l) l = cost (fill m l) l + cost (fill n (left m l)) (left m l) := by
  induction l generalizing m with
  | nil => exact (add_zero _).symm
  | cons o l ih =>
    rw [fill, fill, cost, cost, left]
    split_ifs with hle
    · have hsub : m + n - o.2 = m - o.2 + n := by omega
      rw [Nat.min_eq_right hle, Nat.min_eq_right (hle.trans (Nat.le_add_right m n)), hsub,
        ih, add_assoc]
    · have hlt : m ≤ o.2 := (Nat.lt_of_not_le hle).le
      have hmin : min (m + n) o.2 = m + min n (o.2 - m) := by omega
      have hsub : m + n - o.2 = n - (o.2 - m) := by omega
      rw [fill, cost, Nat.min_eq_left hlt, Nat.sub_eq_zero_of_le hlt, cost_fill_zero, hmin, hsub,
        Nat.cast_add]
      ring

/-- At the negated prices, the negated cost. -/
theorem cost_neg (xs : List ℕ) (l : List (R × ℕ)) :
    cost xs (l.map fun o => (-o.1, o.2)) = -cost xs l := by
  induction xs generalizing l with
  | nil => simp [cost]
  | cons x xs ih =>
    cases l with
    | nil => simp [cost]
    | cons o l =>
      rw [List.map_cons, cost, cost, ih]
      ring

end Ring

section Order

variable [CommRing R] [LinearOrder R]

/-- What the offers below a price would leave to whoever may resell at it. -/
def surplus (p : R) (l : List (R × ℕ)) : R := (l.map fun o => o.2 * max 0 (p - o.1)).sum

@[simp] theorem surplus_nil (p : R) : surplus p [] = 0 := rfl

@[simp] theorem surplus_cons (p : R) (o : R × ℕ) (l : List (R × ℕ)) :
    surplus p (o :: l) = o.2 * max 0 (p - o.1) + surplus p l := List.sum_cons

variable [IsStrictOrderedRing R]

/-- Offers that are not below the price leave nothing. -/
theorem surplus_eq_zero {p : R} (h : ∀ o ∈ l, p ≤ o.1) : surplus p l = 0 := by
  induction l with
  | nil => rfl
  | cons o l ih =>
    obtain ⟨ho, hl⟩ := List.forall_mem_cons.mp h
    rw [surplus_cons, ih hl, max_eq_left (sub_nonpos.mpr ho), mul_zero, add_zero]

/-- **Weak duality**: no way of taking is cheaper than the price less the surplus. -/
theorem Within.le_cost (h : Within xs l) (p : R) : p * xs.sum - surplus p l ≤ cost xs l := by
  induction h with
  | nil => simp [cost]
  | @cons x o xs l hx _ ih =>
    rw [List.sum_cons, surplus_cons, cost, Nat.cast_add]
    have hx' : (x : R) ≤ o.2 := Nat.cast_le.mpr hx
    have hgain : (x : R) * (p - o.1) ≤ o.2 * max 0 (p - o.1) :=
      (mul_le_mul_of_nonneg_left (le_max_right 0 (p - o.1)) (Nat.cast_nonneg x)).trans
        (mul_le_mul_of_nonneg_right hx' (le_max_left 0 (p - o.1)))
    linarith

/-- **Filling attains it**, at some price no lower than a given one that is below all offers. -/
theorem exists_cost_fill {p₀ : R} (hsorted : (l.map Prod.fst).Pairwise (· ≤ ·))
    (hp₀ : ∀ o ∈ l, p₀ ≤ o.1) (hn : n ≤ total l) :
    ∃ p, p₀ ≤ p ∧ cost (fill n l) l = p * n - surplus p l := by
  induction l generalizing n p₀ with
  | nil =>
    obtain rfl : n = 0 := Nat.le_zero.mp hn
    exact ⟨p₀, le_refl _, by simp⟩
  | cons o l ih =>
    rw [List.map_cons, List.pairwise_cons] at hsorted
    have hle : ∀ o' ∈ l, o.1 ≤ o'.1 := fun o' ho' => hsorted.1 _ (List.mem_map_of_mem ho')
    have ho : p₀ ≤ o.1 := hp₀ o (List.mem_cons_self ..)
    by_cases hno : n ≤ o.2
    · refine ⟨o.1, ho, ?_⟩
      rw [fill, Nat.min_eq_left hno, Nat.sub_eq_zero_of_le hno, cost, cost_fill_zero,
        surplus_cons, surplus_eq_zero hle, sub_self, max_self]
      ring
    · have hlt : o.2 ≤ n := (Nat.lt_of_not_le hno).le
      rw [total_cons] at hn
      obtain ⟨p, hp, hcost⟩ := ih hsorted.2 hle (n := n - o.2) (by omega)
      refine ⟨p, ho.trans hp, ?_⟩
      rw [fill, Nat.min_eq_right hlt, cost, hcost, surplus_cons, max_eq_right (sub_nonneg.mpr hp),
        Nat.cast_sub hlt]
      ring

/-- **Nobody takes as much for less.** -/
theorem cost_fill_le (hsorted : (l.map Prod.fst).Pairwise (· ≤ ·)) (h : Within xs l) :
    cost (fill xs.sum l) l ≤ cost xs l := by
  have hbelow : ∃ p₀ : R, ∀ o ∈ l, p₀ ≤ o.1 := by
    cases l with
    | nil => exact ⟨0, fun o ho => by cases ho⟩
    | cons o l =>
      rw [List.map_cons, List.pairwise_cons] at hsorted
      exact ⟨o.1, List.forall_mem_cons.mpr
        ⟨le_refl _, fun o' ho' => hsorted.1 _ (List.mem_map_of_mem ho')⟩⟩
  obtain ⟨p₀, hp₀⟩ := hbelow
  obtain ⟨p, -, hcost⟩ := exists_cost_fill hsorted hp₀ h.sum_le
  rw [hcost]
  exact h.le_cost p

/-- The same for whoever sells: no way of giving as much earns more, if the prices descend. -/
theorem le_cost_fill (hsorted : (l.map Prod.fst).Pairwise (· ≥ ·)) (h : Within xs l) :
    cost xs l ≤ cost (fill xs.sum l) l := by
  have hneg : Within xs (l.map fun o => (-o.1, o.2)) := List.forall₂_map_right_iff.mpr h
  have hsorted' : ((l.map fun o => (-o.1, o.2)).map Prod.fst).Pairwise (· ≤ ·) := by
    rw [List.map_map, List.pairwise_map]
    exact (List.pairwise_map.mp hsorted).imp fun hle => neg_le_neg hle
  have hcost := cost_fill_le hsorted' hneg
  rw [fill_map, cost_neg, cost_neg] at hcost
  exact neg_le_neg_iff.mp hcost

end Order

end Greedy
