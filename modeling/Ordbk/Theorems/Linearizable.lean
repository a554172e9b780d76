import Ordbk.Lib.Linear
import Ordbk.Refinement.BoundedQueue

/-!
# Theorems/Linearizable — the ring buffer is an atomic queue

The last step of a `push` publishes `tail`, or finds the ring full; the last step of a `pop`
publishes `head`, or finds the ring empty.  The calls in the order of these steps, and what they
return, are the history of a bounded queue used by one thread (`linearizable_of_trace`).
-/

namespace Ordbk

namespace SpscThreads

variable {T : Type} {Capacity : ℕ} {s s' : SpscThreads T Capacity} {moved : T → T} {value : T}

/-- The returned calls of one side, in a history. -/
def pushOf : QueueCall T × QueueAnswer T → Option (T × Bool)
  | (.push value, .pushed ok) => some (value, ok)
  | _ => none

def popOf : QueueCall T × QueueAnswer T → Option (Option T)
  | (.pop, .popped out) => some out
  | _ => none

/-- **The logs are what has returned.** -/
theorem logs_step {a : SpscAct T} (hs : s.step moved a = some s') :
    s'.pushes = s.pushes ++ (s.returned a).filterMap pushOf
      ∧ s'.pops = s.pops ++ (s.returned a).filterMap popOf := by
  cases a with
  | push value =>
    cases hp : s.producer with
    | idle =>
      simp only [step, hp, Option.some.injEq] at hs
      subst hs
      simp [returned]
    | called _ | loaded _ _ | writing _ _ | written _ _ => simp [step, hp] at hs
  | pop =>
    cases hc : s.consumer with
    | idle =>
      simp only [step, hc, Option.some.injEq] at hs
      subst hs
      simp [returned]
    | called | loaded _ | reading _ | read _ _ => simp [step, hc] at hs
  | produce =>
    unfold step produce at hs
    cases hp : s.producer with
    | idle => simp [hp] at hs
    | loaded value tail =>
      simp only [hp] at hs
      split_ifs at hs with hfull <;> obtain rfl := Option.some.inj hs <;>
        simp [returned, hp, hfull, pushOf, popOf, returnFull]
    | called value | writing value tail | written value tail =>
      simp only [hp, Option.some.injEq] at hs
      subst hs
      simp [returned, hp, pushOf, popOf, write, storeTail]
  | consume =>
    unfold step consume at hs
    cases hc : s.consumer with
    | idle => simp [hc] at hs
    | loaded head =>
      simp only [hc] at hs
      split_ifs at hs with hempty <;> obtain rfl := Option.some.inj hs <;>
        simp [returned, hc, hempty, pushOf, popOf, returnEmpty]
    | called | reading head | read head out =>
      simp only [hc, Option.some.injEq] at hs
      subst hs
      simp [returned, hc, pushOf, popOf, moveOut, storeHead]

/-- **Every interleaving is the history of one queue**, and the history is what the calls returned.
-/
theorem linearizable_of_trace [Inhabited T] (hcap : SpscRingBuffer.IsCapacity Capacity)
    {H : List (QueueCall T × QueueAnswer T)}
    (h : Guarded.Trace (step moved) (fun _ _ => True) returned start H s) :
    Guarded.Legal (boundedQueue (Capacity - 1)) [] H s.waiting
      ∧ s.pushes = H.filterMap pushOf ∧ s.pops = H.filterMap popOf := by
  have hpow := hcap.exists_pow
  have hstart : (start : SpscThreads T Capacity).Inv := inv_start (by have := hcap.two_le; omega)
  obtain ⟨l, hlegal, -, rfl⟩ : ∃ l, Guarded.Legal (boundedQueue (Capacity - 1)) [] H l
      ∧ s.Inv ∧ s.waiting = l :=
    h.legal (R := fun s l => s.Inv ∧ s.waiting = l) ⟨hstart, rfl⟩ <| by
      rintro s a s' _ ⟨hinv, rfl⟩ - hs
      rcases hinv.returned_step hpow hs with ⟨hreturned, hwait⟩ | ⟨c, hreturned, hwait⟩
      · exact .inl ⟨hreturned, hinv.step hpow hs, hwait⟩
      · exact .inr ⟨c, hreturned, hinv.step hpow hs, hwait⟩
  have hlogs := h.invariant
    (I := fun H s => s.pushes = H.filterMap pushOf ∧ s.pops = H.filterMap popOf) ⟨rfl, rfl⟩ <| by
      rintro H s a s' ⟨hpushes, hpops⟩ - hs
      obtain ⟨hpushes', hpops'⟩ := logs_step hs
      rw [List.filterMap_append, List.filterMap_append, ← hpushes, ← hpops]
      exact ⟨hpushes', hpops'⟩
  exact ⟨hlegal, hlogs⟩

/-- A push is refused in the middle of the pop that makes room for it. -/
theorem linearizable_of_refused : ∃ s : SpscThreads ℕ 2,
    Guarded.Trace (step fun _ => 0) (fun _ _ => True) returned start
        [(.push 5, .pushed true), (.push 6, .pushed false), (.pop, .popped (some 5))] s
      ∧ Guarded.Legal (boundedQueue (2 - 1)) []
        [(.push 5, .pushed true), (.push 6, .pushed false), (.pop, .popped (some 5))] s.waiting
      ∧ s.pushes = [(5, true), (6, false)] ∧ s.pops = [some 5] := by
  have hrun : (Guarded.record (step fun _ => 0) (fun _ _ => True) returned (start : SpscThreads ℕ 2)
      [.push 5, .produce, .produce, .produce, .produce, .push 6, .produce, .pop, .consume, .consume,
        .produce, .consume, .consume]).map (·.1)
      = some [(.push 5, .pushed true), (.push 6, .pushed false), (.pop, .popped (some 5))] := by
    decide +kernel
  obtain ⟨⟨H, s⟩, hs, rfl⟩ := Option.map_eq_some_iff.mp hrun
  have htrace := Guarded.Trace.of_record hs
  exact ⟨s, htrace, linearizable_of_trace ⟨by decide, by decide, by decide⟩ htrace⟩

end SpscThreads

end Ordbk
