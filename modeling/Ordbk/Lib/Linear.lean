import Ordbk.Lib.Trace

/-!
# Lib/Linear — concurrent objects and their histories

A sequential object answers each call at once: `op o c` is the object after call `c`, and the
answer.  A history is `Legal` if every answer in it is the object's own.  A concurrent
implementation whose calls show `(c, r)` where they take effect is linearizable if every run shows a
legal history, and `Guarded.Trace.legal` says how to see that: a relation between states and objects
that a step either keeps, showing nothing, or carries through one call of the object.
-/

namespace Guarded

variable {σ α ω κ ρ : Type*}

/-- **A history of a sequential object**: each answer is the object's. -/
inductive Legal (op : ω → κ → ω × ρ) (o₀ : ω) : List (κ × ρ) → ω → Prop
  | nil : Legal op o₀ [] o₀
  | snoc {H : List (κ × ρ)} {o : ω} (c : κ) : Legal op o₀ H o →
      Legal op o₀ (H ++ [(c, (op o c).2)]) (op o c).1

variable {op : ω → κ → ω × ρ} {o₀ : ω} {H : List (κ × ρ)}

variable {step : σ → α → Option σ} {ok : σ → α → Prop} {shown : σ → α → List (κ × ρ)} {s₀ s : σ}

/-- **Linearizability**: every step keeps the relation and shows nothing, or is one call. -/
theorem Trace.legal {R : σ → ω → Prop} (h₀ : R s₀ o₀)
    (hstep : ∀ s a s' o, R s o → ok s a → step s a = some s' →
      (shown s a = [] ∧ R s' o) ∨ ∃ c, shown s a = [(c, (op o c).2)] ∧ R s' (op o c).1)
    (h : Trace step ok shown s₀ H s) : ∃ o, Legal op o₀ H o ∧ R s o := by
  refine h.invariant (I := fun H s => ∃ o, Legal op o₀ H o ∧ R s o) ⟨o₀, .nil, h₀⟩ ?_
  rintro H s a s' ⟨o, hH, hR⟩ hok hs
  rcases hstep s a s' o hR hok hs with ⟨hshown, hR'⟩ | ⟨c, hshown, hR'⟩
  · rw [hshown, List.append_nil]
    exact ⟨o, hH, hR'⟩
  · rw [hshown]
    exact ⟨_, hH.snoc c, hR'⟩

end Guarded
