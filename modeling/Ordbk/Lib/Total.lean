import Mathlib.Algebra.GroupWithZero.Nat
import Mathlib.Algebra.Order.BigOperators.Group.List
import Mathlib.Algebra.Order.Group.Nat
import Mathlib.Data.List.Induction

/-!
# Lib/Total — adding up in 64 bits

A loop that adds 64-bit numbers keeps a running total, and loses a multiple of `2^64` whenever the
total wraps: `total f xs` is the sum `sum f xs` modulo `2^64` (`toNat_total`).  No addition wraps if
and only if the sum is less than that (`fits_iff`).  Totals do not depend on the order, and totals
of parts add up to the total (`total_perm`, `total_flatMap`); the same holds of a running maximum
(`peak`).
-/

namespace Total

variable {α β : Type*} (f : α → UInt64)

/-- The loop. -/
def total (xs : List α) : UInt64 := xs.foldl (fun t a => t + f a) 0

/-- The sum without bound. -/
def sum (xs : List α) : ℕ := (xs.map fun a => (f a).toNat).sum

@[simp] theorem sum_nil : sum f [] = 0 := rfl

@[simp] theorem sum_cons (a : α) (xs : List α) : sum f (a :: xs) = (f a).toNat + sum f xs :=
  List.sum_cons

@[simp] theorem sum_append (xs ys : List α) : sum f (xs ++ ys) = sum f xs + sum f ys := by
  rw [sum, List.map_append, List.sum_append]
  rfl

theorem toNat_foldl_add (xs : List α) (t : UInt64) :
    (xs.foldl (fun t a => t + f a) t).toNat = (t.toNat + sum f xs) % 2 ^ 64 := by
  induction xs generalizing t with
  | nil => exact (Nat.mod_eq_of_lt t.toNat_lt).symm
  | cons a xs ih =>
    rw [List.foldl_cons, ih, UInt64.toNat_add, Nat.mod_add_mod, sum_cons, Nat.add_assoc]

/-- **A total is the sum** modulo `2^64`. -/
theorem toNat_total (xs : List α) : (total f xs).toNat = sum f xs % 2 ^ 64 := by
  rw [total, toNat_foldl_add]
  exact congrArg (· % 2 ^ 64) (Nat.zero_add _)

theorem total_eq_iff {xs : List α} {g : β → UInt64} {ys : List β} :
    total f xs = total g ys ↔ sum f xs % 2 ^ 64 = sum g ys % 2 ^ 64 := by
  rw [← UInt64.toNat_inj, toNat_total, toNat_total]

theorem total_congr {f g : α → UInt64} {xs : List α} (h : ∀ a ∈ xs, f a = g a) :
    total f xs = total g xs :=
  (total_eq_iff f).mpr (by rw [sum, sum, List.map_congr_left fun a ha => by rw [h a ha]])

/-! ## Wrapping

Natural numbers do not cancel: once an addition has wrapped the total stays below the true sum. -/

/-- **No addition wraps.** -/
def Fits (xs : List α) : Prop :=
  ∀ ys a zs, xs = ys ++ a :: zs → (total f ys).toNat + (f a).toNat < 2 ^ 64

theorem fits_of_lt {xs : List α} (h : sum f xs < 2 ^ 64) : Fits f xs := by
  rintro ys a zs rfl
  rw [sum_append, sum_cons] at h
  rw [toNat_total, Nat.mod_eq_of_lt (by omega)]
  omega

/-- **No addition wraps** exactly if the sum is less than `2^64`. -/
theorem fits_iff {xs : List α} : Fits f xs ↔ sum f xs < 2 ^ 64 := by
  refine ⟨fun h => ?_, fits_of_lt f⟩
  induction xs using List.reverseRecOn with
  | nil => exact Nat.two_pow_pos 64
  | append_singleton xs a ih =>
    have hxs : sum f xs < 2 ^ 64 := ih fun ys b zs hys =>
      h ys b (zs ++ [a]) (by rw [hys, List.append_assoc, List.cons_append])
    have hlast := h xs a [] rfl
    rw [toNat_total, Nat.mod_eq_of_lt hxs] at hlast
    rw [sum_append, sum_cons, sum_nil]
    exact hlast

/-- A total is exact exactly if no addition wraps. -/
theorem toNat_total_eq_iff {xs : List α} : (total f xs).toNat = sum f xs ↔ sum f xs < 2 ^ 64 := by
  rw [toNat_total]
  exact ⟨fun h => h ▸ Nat.mod_lt _ (by decide), Nat.mod_eq_of_lt⟩

/-! ## Orders and parts

Neither the order of the summands nor how they are grouped makes a difference to a total. -/

theorem sum_perm {xs ys : List α} (h : xs.Perm ys) : sum f xs = sum f ys := (h.map _).sum_eq

theorem total_perm {xs ys : List α} (h : xs.Perm ys) : total f xs = total f ys :=
  (total_eq_iff f).mpr (by rw [sum_perm f h])

theorem total_append (xs ys : List α) : total f (xs ++ ys) = total f xs + total f ys := by
  rw [← UInt64.toNat_inj, UInt64.toNat_add, toNat_total, toNat_total, toNat_total, sum_append,
    Nat.add_mod]

theorem total_concat (xs : List α) (a : α) : total f (xs ++ [a]) = total f xs + f a :=
  List.foldl_concat ..

/-- **Totals of parts** add up. -/
theorem total_flatMap (g : β → List α) (bs : List β) :
    total (fun b => total f (g b)) bs = total f (bs.flatMap g) := by
  induction bs using List.reverseRecOn with
  | nil => rfl
  | append_singleton bs b ih =>
    rw [total_concat, ih, List.flatMap_append, total_append]
    simp

/-- Adding to one of the numbers adds to the total. -/
theorem total_update [DecidableEq α] {xs : List α} (hnd : xs.Nodup) {a : α} (ha : a ∈ xs)
    (v : UInt64) : total (Function.update f a (f a + v)) xs = total f xs + v := by
  obtain ⟨ys, zs, rfl⟩ := List.append_of_mem ha
  have hperm : (ys ++ a :: zs).Perm ((ys ++ zs) ++ [a]) :=
    List.perm_middle.trans (List.perm_append_singleton a (ys ++ zs)).symm
  have hnotMem : a ∉ ys ++ zs := (List.nodup_cons.mp (List.perm_middle.nodup_iff.mp hnd)).1
  have hrest : total (Function.update f a (f a + v)) (ys ++ zs) = total f (ys ++ zs) :=
    total_congr fun b hb => Function.update_of_ne (ne_of_mem_of_not_mem hb hnotMem) _ _
  rw [total_perm _ hperm, total_perm f hperm, total_concat, total_concat, hrest,
    Function.update_self, UInt64.add_assoc]

/-- A part of a list has no larger a sum. -/
theorem sum_le_of_sublist {xs ys : List α} (h : xs.Sublist ys) : sum f xs ≤ sum f ys :=
  (h.map _).sum_le_sum fun _ _ => Nat.zero_le _

/-! ## The largest

A running maximum is treated like a total: it does not depend on order or grouping either. -/

/-- The larger one, as the loops find it. -/
def larger (m a : UInt64) : UInt64 := if m < a then a else m

theorem toNat_larger (m a : UInt64) : (larger m a).toNat = max m.toNat a.toNat := by
  unfold larger
  split_ifs with h
  · exact (max_eq_right (Nat.le_of_lt (UInt64.lt_iff_toNat_lt.mp h))).symm
  · exact (max_eq_left (Nat.le_of_not_lt (mt UInt64.lt_iff_toNat_lt.mpr h))).symm

/-- The running maximum. -/
def peak (xs : List α) : UInt64 := xs.foldl (fun m a => larger m (f a)) 0

theorem peak_concat (xs : List α) (a : α) : peak f (xs ++ [a]) = larger (peak f xs) (f a) :=
  List.foldl_concat ..

/-- **A running maximum** is a maximum: it is below what all elements are below. -/
theorem peak_le_iff {xs : List α} {n : ℕ} : (peak f xs).toNat ≤ n ↔ ∀ a ∈ xs, (f a).toNat ≤ n := by
  induction xs using List.reverseRecOn with
  | nil => exact iff_of_true (Nat.zero_le n) nofun
  | append_singleton xs a ih => simp [peak_concat, toNat_larger, ih, or_imp, forall_and]

theorem peak_eq_of_iff {xs : List α} {g : β → UInt64} {ys : List β}
    (h : ∀ n, (∀ a ∈ xs, (f a).toNat ≤ n) ↔ ∀ b ∈ ys, (g b).toNat ≤ n) : peak f xs = peak g ys := by
  rw [← UInt64.toNat_inj]
  exact eq_of_forall_ge_iff fun n => by rw [peak_le_iff, peak_le_iff, h]

theorem peak_perm {xs ys : List α} (h : xs.Perm ys) : peak f xs = peak f ys :=
  peak_eq_of_iff f fun _ => by simp only [h.mem_iff]

/-- Maxima of parts have the maximum. -/
theorem peak_flatMap (g : β → List α) (bs : List β) :
    peak (fun b => peak f (g b)) bs = peak f (bs.flatMap g) := by
  refine peak_eq_of_iff _ fun n => ?_
  simp only [peak_le_iff, List.mem_flatMap]
  exact ⟨fun h a ⟨b, hb, ha⟩ => h b hb a ha, fun h b hb a ha => h a ⟨b, hb, ha⟩⟩

end Total
