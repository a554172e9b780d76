import Ordbk.Lib.Reach
import Mathlib.Data.List.Forall2

/-!
# Lib/Trace — what a run shows

A run of a guarded system seen from outside is the list of what its steps let be seen: `Trace` is
`Reach` with that list.  `Path` is the same thing for a labelled relation, built from the front.

Two-run properties are proved by `Path.lockstep`: if two systems keep a relation between their
states for as long as they are given inputs that agree, then they show outputs that agree.
-/

namespace Guarded

variable {σ α ω : Type*}

/-- **A run and what it has shown.** -/
inductive Trace (step : σ → α → Option σ) (ok : σ → α → Prop) (shown : σ → α → List ω) (s₀ : σ) :
    List ω → σ → Prop
  | init : Trace step ok shown s₀ [] s₀
  | step {L : List ω} {s s' : σ} {a : α} : Trace step ok shown s₀ L s → ok s a →
      step s a = some s' → Trace step ok shown s₀ (L ++ shown s a) s'

variable {step : σ → α → Option σ} {ok : σ → α → Prop} {shown : σ → α → List ω} {s₀ s s' : σ}
  {L L' : List ω}

/-- Safety, for a property of the state and of what has been shown. -/
theorem Trace.invariant {I : List ω → σ → Prop} (h₀ : I [] s₀)
    (hstep : ∀ L s a s', I L s → ok s a → step s a = some s' → I (L ++ shown s a) s')
    (h : Trace step ok shown s₀ L s) : I L s := by
  induction h with
  | init => exact h₀
  | step _ hok hs ih => exact hstep _ _ _ _ ih hok hs

/-- What has been shown aside, it is a run. -/
theorem Trace.reach (h : Trace step ok shown s₀ L s) : Reach step ok s₀ s :=
  h.invariant (I := fun _ s => Reach step ok s₀ s) .init fun _ _ _ _ hr hok hs => hr.step hok hs

/-- A weaker side condition admits more runs. -/
theorem Trace.mono {ok' : σ → α → Prop} (hok : ∀ s a, ok s a → ok' s a)
    (h : Trace step ok shown s₀ L s) : Trace step ok' shown s₀ L s := by
  induction h with
  | init => exact .init
  | step _ ha hs ih => exact .step ih (hok _ _ ha) hs

/-- Runs compose, and so does what they show. -/
theorem Trace.trans {s₁ : σ} (h : Trace step ok shown s₀ L s₁) (h' : Trace step ok shown s₁ L' s) :
    Trace step ok shown s₀ (L ++ L') s := by
  induction h' with
  | init => rwa [List.append_nil]
  | step _ ha hs ih =>
    rw [← List.append_assoc]
    exact .step ih ha hs

section Record

variable [∀ s a, Decidable (ok s a)]

/-- Take the given steps and note what they show. -/
def record (step : σ → α → Option σ) (ok : σ → α → Prop) [∀ s a, Decidable (ok s a)]
    (shown : σ → α → List ω) : σ → List α → Option (List ω × σ)
  | s, [] => some ([], s)
  | s, a :: as =>
    if ok s a then
      (step s a).bind fun s' => (record step ok shown s' as).map fun r => (shown s a ++ r.1, r.2)
    else none

theorem Trace.of_record {as : List α} (h : record step ok shown s as = some (L, s')) :
    Trace step ok shown s L s' := by
  induction as generalizing s L with
  | nil =>
    obtain ⟨rfl, rfl⟩ : [] = L ∧ s = s' := by simpa [record] using h
    exact .init
  | cons a as ih =>
    rw [record, Option.ite_none_right_eq_some] at h
    obtain ⟨ha, h⟩ := h
    obtain ⟨s₁, hs, h⟩ := Option.bind_eq_some_iff.mp h
    obtain ⟨⟨L₁, s₂⟩, hr, heq⟩ := Option.map_eq_some_iff.mp h
    obtain ⟨rfl, rfl⟩ := Prod.mk.inj heq
    exact Trace.trans (.step .init ha hs) (ih hr)

end Record

/-! ## Labelled relations

A relation between states with a label on each pair; a system whose steps are not a function of what
is put in is given this way. -/

/-- **A path** through a labelled relation, and its labels. -/
inductive Path (T : σ → ω → σ → Prop) : σ → List ω → σ → Prop
  | nil (s : σ) : Path T s [] s
  | cons {s s₁ s₂ : σ} {x : ω} {L : List ω} : T s x s₁ → Path T s₁ L s₂ → Path T s (x :: L) s₂

section Path

variable {τ υ : Type*} {T : σ → ω → σ → Prop} {U : τ → υ → τ → Prop}

theorem Path.append {s₁ : σ} (h : Path T s L s₁) (h' : Path T s₁ L' s') :
    Path T s (L ++ L') s' := by
  induction h with
  | nil => exact h'
  | cons hx _ ih => exact .cons hx (ih h')

/-- A path can be cut anywhere. -/
theorem Path.split (h : Path T s (L ++ L') s') : ∃ s₁, Path T s L s₁ ∧ Path T s₁ L' s' := by
  induction L generalizing s with
  | nil => exact ⟨s, .nil s, h⟩
  | cons x L ih =>
    cases h with
    | cons hx h =>
      obtain ⟨s₁, h₁, h₂⟩ := ih h
      exact ⟨s₁, .cons hx h₁, h₂⟩

theorem Path.uncons {x : ω} (h : Path T s (x :: L) s') : ∃ s₁, T s x s₁ ∧ Path T s₁ L s' := by
  cases h with
  | cons hx h => exact ⟨_, hx, h⟩

/-- Safety along a path. -/
theorem Path.invariant {I : σ → Prop} (hstep : ∀ s x s', x ∈ L → I s → T s x s' → I s')
    (h : Path T s L s') (h₀ : I s) : I s' := by
  induction h with
  | nil => exact h₀
  | cons hx _ ih =>
    exact ih (fun s y s' hy => hstep s y s' (List.mem_cons_of_mem _ hy))
      (hstep _ _ _ (List.mem_cons_self ..) h₀ hx)

/-- **Two paths in lockstep**: related states given inputs that agree show what agrees, and stay
related. -/
theorem Path.lockstep {R : σ → τ → Prop} {A B : ω → υ → Prop} {t t' : τ} {M : List υ}
    (hstep : ∀ s x s' t y t', x ∈ L → R s t → T s x s' → U t y t' → A x y → B x y ∧ R s' t')
    (hR : R s t) (h : Path T s L s') (h' : Path U t M t') (hA : List.Forall₂ A L M) :
    List.Forall₂ B L M ∧ R s' t' := by
  induction h generalizing t M with
  | nil =>
    cases hA
    cases h'
    exact ⟨.nil, hR⟩
  | cons hx _ ih =>
    cases hA with
    | cons hxy hA =>
      cases h' with
      | cons hy h' =>
        obtain ⟨hB, hR'⟩ := hstep _ _ _ _ _ _ (List.mem_cons_self ..) hR hx hy hxy
        obtain ⟨hBs, hR''⟩ := ih (fun s x s' t y t' hmem =>
          hstep s x s' t y t' (List.mem_cons_of_mem _ hmem)) hR' h' hA
        exact ⟨.cons hB hBs, hR''⟩

/-- Lists with the same image agree in it, place by place. -/
theorem forall₂_of_map_eq {α β γ : Type*} {f : α → γ} {g : β → γ} {L : List α} {M : List β}
    (h : L.map f = M.map g) : List.Forall₂ (fun x y => f x = g y) L M := by
  have heq : List.Forall₂ Eq (L.map f) (M.map g) := by
    rw [h]
    exact List.forall₂_refl _
  exact List.forall₂_map_left_iff.mp (List.forall₂_map_right_iff.mp heq)

end Path

end Guarded
