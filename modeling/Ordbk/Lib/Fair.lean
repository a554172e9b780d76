import Mathlib.Data.Nat.Basic
import Mathlib.Order.WellFounded
import Ordbk.Lib.Reach

/-!
# Lib/Fair — what comes about in the end

An infinite run of a guarded system takes a step at every moment (`Runs`).  It is `Fair` to a set of
labels if, once from some moment on one of them is always possible, one of them is taken.  Then a
rank that these labels lower and the others do not raise brings the goal about (`Fair.eventually`).
-/

namespace Guarded

variable {σ α β : Type*} {step : σ → α → Option σ} {x : ℕ → σ} {a : ℕ → α} {mine : α → Prop}

/-- **An infinite run**: the states it goes through and the labels of its steps. -/
def Runs (step : σ → α → Option σ) (x : ℕ → σ) (a : ℕ → α) : Prop :=
  ∀ i, step (x i) (a i) = some (x (i + 1))

/-- **Weak fairness** to the labels that are `mine`. -/
def Fair (step : σ → α → Option σ) (mine : α → Prop) (x : ℕ → σ) (a : ℕ → α) : Prop :=
  ∀ i, (∀ j, i ≤ j → ∃ b, mine b ∧ (step (x j) b).isSome) → ∃ j, i ≤ j ∧ mine (a j)

/-- What a run goes through can be reached. -/
theorem Runs.reach {ok : σ → α → Prop} {s₀ : σ} (h : Runs step x a) (hok : ∀ i, ok (x i) (a i))
    (h₀ : Reach step ok s₀ (x 0)) (i : ℕ) : Reach step ok s₀ (x i) := by
  induction i with
  | zero => exact h₀
  | succ i ih => exact ih.step (hok i) (h i)

/-- The system when it need not do anything, so that a run that ends goes on for ever. -/
def pausing (step : σ → α → Option σ) (s : σ) : Option α → Option σ
  | none => some s
  | some a => step s a

theorem Runs.pause_or_step {a : ℕ → Option α} (h : Runs (pausing step) x a) (i : ℕ) :
    x (i + 1) = x i ∨ ∃ b, a i = some b ∧ step (x i) b = some (x (i + 1)) := by
  have hi := h i
  cases ha : a i with
  | none =>
    rw [ha] at hi
    exact .inl (Option.some.inj hi).symm
  | some b =>
    rw [ha] at hi
    exact .inr ⟨b, rfl, hi⟩

/-- What every step keeps stays, pauses or not. -/
theorem Runs.stays {a : ℕ → Option α} {P : σ → Prop} {i : ℕ} (h : Runs (pausing step) x a)
    (hi : P (x i))
    (hstep : ∀ j, i ≤ j → ∀ b, P (x j) → step (x j) b = some (x (j + 1)) → P (x (j + 1))) {j : ℕ}
    (hij : i ≤ j) : P (x j) := by
  induction j, hij using Nat.le_induction with
  | base => exact hi
  | succ j hij ih =>
    rcases h.pause_or_step j with hsame | ⟨b, -, hs⟩
    · rwa [hsame]
    · exact hstep j hij b ih hs

/-- A pause leads nowhere. -/
theorem Runs.reach_of_pausing {a : ℕ → Option α} {s₀ : σ} (h : Runs (pausing step) x a)
    (h₀ : Reach step (fun _ _ => True) s₀ (x 0)) (i : ℕ) : Reach step (fun _ _ => True) s₀ (x i) :=
  h.stays h₀ (fun _ _ _ hreach hs => hreach.step trivial hs) (Nat.zero_le i)

/-- Some steps, and then a pause for ever. -/
theorem exists_runs_of_run {as : List α} {s s' : σ}
    (h : run step (fun _ _ => True) s as = some s') :
    ∃ (x : ℕ → σ) (a : ℕ → Option α), Runs (pausing step) x a ∧ x 0 = s
      ∧ ∀ i, as.length ≤ i → x i = s' := by
  induction as generalizing s with
  | nil =>
    obtain rfl : s = s' := Option.some.inj h
    exact ⟨fun _ => s, fun _ => none, fun _ => rfl, rfl, fun _ _ => rfl⟩
  | cons b as ih =>
    rw [run, if_pos trivial] at h
    obtain ⟨s₁, hs, h⟩ := Option.bind_eq_some_iff.mp h
    obtain ⟨x, a, hruns, rfl, hend⟩ := ih h
    refine ⟨fun i => i.casesOn s x, fun i => i.casesOn (some b) a, fun i => ?_, rfl, fun i hi => ?_⟩
    · cases i with
      | zero => exact hs
      | succ i => exact hruns i
    · cases i with
      | zero => exact absurd hi (Nat.not_succ_le_zero _)
      | succ i => exact hend i (Nat.le_of_succ_le_succ hi)

/-- Nobody is forgotten who can do nothing in the end. -/
theorem fair_of_stuck {m : ℕ} {s : σ} (hend : ∀ i, m ≤ i → x i = s)
    (hstuck : ∀ b, mine b → step s b = none) : Fair step mine x a := by
  intro i hi
  obtain ⟨b, hb, hsome⟩ := hi (max i m) (le_max_left i m)
  rw [hend _ (le_max_right i m), hstuck b hb] at hsome
  cases hsome

/-- **Progress under fairness**: as long as the goal is not there, one of the labels is possible, it
lowers the rank, and the others do not raise it. -/
theorem Fair.eventually [Preorder β] [WellFoundedLT β] (rank : σ → β) (goal : σ → Prop)
    (h : Fair step mine x a) (henabled : ∀ i, ¬ goal (x i) → ∃ b, mine b ∧ (step (x i) b).isSome)
    (hmine : ∀ i, ¬ goal (x i) → mine (a i) → rank (x (i + 1)) < rank (x i))
    (hother : ∀ i, ¬ goal (x i) → ¬ mine (a i) → rank (x (i + 1)) ≤ rank (x i)) (i : ℕ) :
    ∃ j, i ≤ j ∧ goal (x j) := by
  by_contra hnever
  have hnot : ∀ j, i ≤ j → ¬ goal (x j) := fun j hj hg => hnever ⟨j, hj, hg⟩
  have hle : ∀ j, i ≤ j → ∀ k, j ≤ k → rank (x k) ≤ rank (x j) := by
    intro j hj k hk
    induction k, hk using Nat.le_induction with
    | base => exact le_refl _
    | succ k hk ih =>
      have hstep : rank (x (k + 1)) ≤ rank (x k) := by
        by_cases hm : mine (a k)
        · exact (hmine k (hnot k (hj.trans hk)) hm).le
        · exact hother k (hnot k (hj.trans hk)) hm
      exact hstep.trans ih
  have hno : ∀ r : β, ∀ j, i ≤ j → rank (x j) = r → False := by
    intro r
    induction r using WellFoundedLT.induction with
    | ind r ih =>
      rintro j hj rfl
      obtain ⟨k, hk, hm⟩ := h j fun k hk => henabled k (hnot k (hj.trans hk))
      have hlt := (hmine k (hnot k (hj.trans hk)) hm).trans_le (hle j hj k hk)
      exact ih _ hlt (k + 1) ((hj.trans hk).trans (Nat.le_succ k)) rfl
  exact hno _ i le_rfl rfl

/-- The same for one label of a system that may pause. -/
theorem Fair.eventually_of_pausing [Preorder β] [WellFoundedLT β] {a : ℕ → Option α} {b : α}
    (rank : σ → β) (goal : σ → Prop) (h : Fair (pausing step) (· = some b) x a)
    (hruns : Runs (pausing step) x a) (henabled : ∀ i, ¬ goal (x i) → (step (x i) b).isSome)
    (hmine : ∀ i, ¬ goal (x i) → step (x i) b = some (x (i + 1)) → rank (x (i + 1)) < rank (x i))
    (hother : ∀ i, ¬ goal (x i) → ∀ c ≠ b, step (x i) c = some (x (i + 1)) →
      rank (x (i + 1)) ≤ rank (x i)) (i : ℕ) : ∃ j, i ≤ j ∧ goal (x j) := by
  refine h.eventually rank goal (fun i hnot => ⟨some b, rfl, henabled i hnot⟩) (fun i hnot ha => ?_)
    (fun i hnot ha => ?_) i
  · have hs := hruns i
    rw [show a i = some b from ha] at hs
    exact hmine i hnot hs
  · rcases hruns.pause_or_step i with hsame | ⟨c, hc, hs⟩
    · rw [hsame]
    · exact hother i hnot c (fun heq => ha (hc.trans (congrArg some heq))) hs

/-- **Finitely many things that come about and stay** are all there in the end. -/
theorem eventually_forall {P : ℕ → ℕ → Prop} {n m : ℕ}
    (hstay : ∀ k < n, ∀ i j, m ≤ i → i ≤ j → P k i → P k j)
    (hcome : ∀ k < n, ∀ i, m ≤ i → ∃ j, i ≤ j ∧ P k j) :
    ∃ i, m ≤ i ∧ ∀ j, i ≤ j → ∀ k < n, P k j := by
  induction n with
  | zero => exact ⟨m, le_rfl, fun _ _ k hk => absurd hk (Nat.not_lt_zero k)⟩
  | succ n ih =>
    obtain ⟨i, hmi, hi⟩ := ih (fun k hk => hstay k (Nat.lt_succ_of_lt hk))
      fun k hk => hcome k (Nat.lt_succ_of_lt hk)
    obtain ⟨i', hii', hn⟩ := hcome n n.lt_succ_self i hmi
    have hmi' := hmi.trans hii'
    refine ⟨i', hmi', fun j hj k hk => ?_⟩
    rcases Nat.lt_succ_iff_lt_or_eq.mp hk with hk | rfl
    · exact hi j (hii'.trans hj) k hk
    · exact hstay k k.lt_succ_self i' j hmi' hj hn

end Guarded
