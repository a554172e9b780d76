import Mathlib.Data.List.Basic

/-!
# Lib/Reach — runs of a guarded transition system

A system is a partial step function over labels, `step s a = none` when the label cannot be taken in
that state.  `Reach step ok s₀` is what a run can reach if every step it takes meets the side
condition `ok` of the state before it; `Reach.invariant` is the induction rule for safety.
-/

namespace Guarded

variable {σ α : Type*}

/-- **The states a run can reach**, every step of it meeting `ok`. -/
inductive Reach (step : σ → α → Option σ) (ok : σ → α → Prop) (s₀ : σ) : σ → Prop
  | init : Reach step ok s₀ s₀
  | step {s s' : σ} {a : α} : Reach step ok s₀ s → ok s a → step s a = some s' →
      Reach step ok s₀ s'

variable {step : σ → α → Option σ} {ok ok' : σ → α → Prop} {s₀ s s' : σ}

/-- **Safety**: what holds at the start and survives every admitted step holds throughout. -/
theorem Reach.invariant {I : σ → Prop} (h₀ : I s₀)
    (hstep : ∀ s a s', I s → ok s a → step s a = some s' → I s')
    (h : Reach step ok s₀ s) : I s := by
  induction h with
  | init => exact h₀
  | step _ hok hs ih => exact hstep _ _ _ ih hok hs

/-- A weaker side condition admits more runs. -/
theorem Reach.mono (hok : ∀ s a, ok s a → ok' s a) (h : Reach step ok s₀ s) :
    Reach step ok' s₀ s := by
  induction h with
  | init => exact .init
  | step _ ha hs ih => exact .step ih (hok _ _ ha) hs

/-- Runs compose. -/
theorem Reach.trans {s₁ : σ} (h : Reach step ok s₀ s₁) (h' : Reach step ok s₁ s) :
    Reach step ok s₀ s := by
  induction h' with
  | init => exact h
  | step _ ha hs ih => exact .step ih ha hs

/-- **Forward simulation**: each step of one system is matched by steps of another, or by none, from
a state the other can reach. -/
theorem Reach.simulate {τ β : Type*} {step' : τ → β → Option τ} {ok' : τ → β → Prop} {t₀ : τ}
    {R : σ → τ → Prop} (h₀ : R s₀ t₀)
    (hstep : ∀ s a s' t, R s t → Reach step' ok' t₀ t → ok s a → step s a = some s' →
      ∃ t', Reach step' ok' t t' ∧ R s' t')
    (h : Reach step ok s₀ s) : ∃ t, Reach step' ok' t₀ t ∧ R s t := by
  induction h with
  | init => exact ⟨t₀, .init, h₀⟩
  | step _ hok hs ih =>
    obtain ⟨t, ht, hR⟩ := ih
    obtain ⟨t', ht', hR'⟩ := hstep _ _ _ t hR ht hok hs
    exact ⟨t', ht.trans ht', hR'⟩

section Run

variable [∀ s a, Decidable (ok s a)]

/-- Take the given steps, as long as each is admitted and possible. -/
def run (step : σ → α → Option σ) (ok : σ → α → Prop) [∀ s a, Decidable (ok s a)] :
    σ → List α → Option σ
  | s, [] => some s
  | s, a :: as => if ok s a then (step s a).bind fun s => run step ok s as else none

theorem Reach.of_run {as : List α} (h : run step ok s as = some s') : Reach step ok s s' := by
  induction as generalizing s with
  | nil =>
    obtain rfl : s = s' := Option.some.inj h
    exact .init
  | cons a as ih =>
    rw [run, Option.ite_none_right_eq_some] at h
    obtain ⟨ha, h⟩ := h
    obtain ⟨s₁, hs, h⟩ := Option.bind_eq_some_iff.mp h
    exact Reach.trans (.step .init ha hs) (ih h)

/-- A step repeated until it cannot be taken ends in one state. -/
theorem run_replicate_unique {k k' : ℕ} {a : α} {s₁ s₂ : σ}
    (h₁ : run step ok s (List.replicate k a) = some s₁) (hstop₁ : step s₁ a = none)
    (h₂ : run step ok s (List.replicate k' a) = some s₂) (hstop₂ : step s₂ a = none) : s₁ = s₂ := by
  induction k generalizing s k' with
  | zero =>
    obtain rfl : s = s₁ := Option.some.inj h₁
    cases k' with
    | zero => exact Option.some.inj h₂
    | succ k' => simp [List.replicate_succ, run, hstop₁] at h₂
  | succ k ih =>
    cases k' with
    | zero =>
      obtain rfl : s = s₂ := Option.some.inj h₂
      simp [List.replicate_succ, run, hstop₂] at h₁
    | succ k' =>
      rw [List.replicate_succ, run, Option.ite_none_right_eq_some] at h₁ h₂
      obtain ⟨s', hs', h₁⟩ := Option.bind_eq_some_iff.mp h₁.2
      obtain ⟨s'', hs'', h₂⟩ := Option.bind_eq_some_iff.mp h₂.2
      obtain rfl : s' = s'' := Option.some.inj (hs'.symm.trans hs'')
      exact ih h₁ h₂

theorem run_cons_replicate_unique {k k' : ℕ} {a b : α} {s₁ s₂ : σ}
    (h₁ : run step ok s (b :: List.replicate k a) = some s₁) (hstop₁ : step s₁ a = none)
    (h₂ : run step ok s (b :: List.replicate k' a) = some s₂)
    (hstop₂ : step s₂ a = none) : s₁ = s₂ := by
  rw [run, Option.ite_none_right_eq_some] at h₁ h₂
  obtain ⟨s', hs', h₁⟩ := Option.bind_eq_some_iff.mp h₁.2
  obtain ⟨s'', hs'', h₂⟩ := Option.bind_eq_some_iff.mp h₂.2
  obtain rfl : s' = s'' := Option.some.inj (hs'.symm.trans hs'')
  exact run_replicate_unique h₁ hstop₁ h₂ hstop₂

end Run

end Guarded
