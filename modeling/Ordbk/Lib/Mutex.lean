import Mathlib.Logic.Function.Basic
import Ordbk.Lib.Linear

/-!
# Lib/Mutex — an object behind a lock

Threads call an object whose calls take many steps each, all of them between the lock and the unlock
of one mutex; besides, a thread may touch what is its own at any time.  If the steps of a call add
up to the call of a sequential object (`Calls.Implements`), then the calls are linearizable in the
order in which they unlock (`Locked.legal_of_trace`), and no two threads are ever inside
(`Locked.Inv.unique`).
-/

namespace Guarded

variable {σ κ l ρ ω : Type*}

/-- **What the calls do.** -/
structure Calls (σ κ l ρ : Type*) where
  /-- The thread that makes a call. -/
  caller : κ → ℕ
  /-- Where a call begins, once it has the lock. -/
  enter : κ → l
  /-- Its next step: on to another place, or the unlock and what is returned. -/
  micro : σ → κ → l → σ × (l ⊕ ρ)
  /-- A call that takes no lock, and one step. -/
  direct : σ → κ → Option (σ × ρ)

/-- Where a thread is. -/
inductive Place (κ l : Type*)
  | idle
  | waiting (c : κ)
  | inside (c : κ) (i : l)

/-- Memory, the holder of the lock, and the threads. -/
structure Locked (σ κ l : Type*) where
  /-- What the lock guards. -/
  shared : σ
  /-- Who has the lock. -/
  owner : Option ℕ := none
  /-- Where each thread is in its call. -/
  threads : ℕ → Place κ l := fun _ => .idle

/-- What the scheduler picks. -/
inductive Turn (κ : Type*)
  | call (c : κ)
  | lock (t : ℕ)
  | step (t : ℕ)
  | direct (c : κ)

namespace Locked

variable (p : Calls σ κ l ρ)

def step (x : Locked σ κ l) : Turn κ → Option (Locked σ κ l)
  | .call c =>
    match x.threads (p.caller c) with
    | .idle => some { x with threads := Function.update x.threads (p.caller c) (.waiting c) }
    | _ => none
  | .lock t =>
    match x.threads t, x.owner with
    | .waiting c, none => some { x with
        owner := some t
        threads := Function.update x.threads t (.inside c (p.enter c)) }
    | _, _ => none
  | .step t =>
    match x.threads t with
    | .inside c i =>
      match p.micro x.shared c i with
      | (s, .inl i) => some { x with
          shared := s
          threads := Function.update x.threads t (.inside c i) }
      | (s, .inr _) => some ⟨s, none, Function.update x.threads t .idle⟩
    | _ => none
  | .direct c =>
    match x.threads (p.caller c) with
    | .idle => (p.direct x.shared c).map fun r => { x with shared := r.1 }
    | _ => none

/-- The calls that a step completes. -/
def shown (x : Locked σ κ l) : Turn κ → List (κ × ρ)
  | .step t =>
    match x.threads t with
    | .inside c i =>
      match (p.micro x.shared c i).2 with
      | .inl _ => []
      | .inr r => [(c, r)]
    | _ => []
  | .direct c => ((p.direct x.shared c).map fun r => (c, r.2)).toList
  | _ => []

/-- The callers' duty, for calls and for what takes no lock. -/
def Duty (pre own : σ → κ → Prop) (x : Locked σ κ l) : Turn κ → Prop
  | .call c => pre x.shared c
  | .direct c => own x.shared c
  | _ => True

instance (pre own : σ → κ → Prop) [∀ s c, Decidable (pre s c)] [∀ s c, Decidable (own s c)]
    (x : Locked σ κ l) : (a : Turn κ) → Decidable (x.Duty pre own a)
  | .call c => inferInstanceAs (Decidable (pre x.shared c))
  | .direct c => inferInstanceAs (Decidable (own x.shared c))
  | .lock _ | .step _ => isTrue trivial

end Locked

/-- **The steps of a call add up to the call of a sequential object.**  `R` relates memory to the
object while the lock is free, `M` while a call is inside and has not taken effect yet. -/
structure Calls.Implements (p : Calls σ κ l ρ) (op : ω → κ → ω × ρ) (pre own : σ → κ → Prop)
    (R : σ → ω → Prop) (M : κ → l → σ → ω → Prop) : Prop where
  /-- A call that gets the lock finds memory as the object has it. -/
  enter : ∀ s o c, R s o → pre s c → M c (p.enter c) s o
  /-- The steps before the last are not seen from outside. -/
  inside : ∀ s o c i s' i', M c i s o → p.micro s c i = (s', .inl i') → M c i' s' o
  /-- The last one is the object's whole call, and returns what it returns. -/
  leave : ∀ s o c i s' r, M c i s o → p.micro s c i = (s', .inr r) →
    r = (op o c).2 ∧ R s' (op o c).1
  /-- Others can rely on their duty being done. -/
  keeps : ∀ s o c i c', M c i s o → p.caller c' ≠ p.caller c → pre s c' → pre (p.micro s c i).1 c'
  /-- A call without the lock is the object's, where its duty is done. -/
  direct : ∀ s o c s' r, R s o → own s c → p.direct s c = some (s', r) →
    r = (op o c).2 ∧ R s' (op o c).1
  /-- What a thread does without the lock does not disturb the one inside. -/
  beside : ∀ s o c i c' s' r, M c i s o → p.caller c' ≠ p.caller c → own s c' →
    p.direct s c' = some (s', r) → r = (op o c').2 ∧ M c i s' (op o c').1
  /-- And leaves the duties of the others as they are. -/
  directKeeps : ∀ s c c' s' r, p.caller c' ≠ p.caller c → own s c → pre s c' →
    p.direct s c = some (s', r) →
    pre s' c'

namespace Locked

variable {p : Calls σ κ l ρ} {op : ω → κ → ω × ρ} {pre own : σ → κ → Prop} {R : σ → ω → Prop}
  {M : κ → l → σ → ω → Prop} {x x' : Locked σ κ l} {o : ω}

/-- **The invariant**: one thread at most is inside, and then it has the lock. -/
structure Inv (p : Calls σ κ l ρ) (pre : σ → κ → Prop) (R : σ → ω → Prop)
    (M : κ → l → σ → ω → Prop) (x : Locked σ κ l) (o : ω) : Prop where
  /-- Whoever waits for the lock has done its duty. -/
  waiting : ∀ t c, x.threads t = .waiting c → p.caller c = t ∧ pre x.shared c
  /-- Whoever is inside has the lock, and has got somewhere with its call. -/
  inside : ∀ t c i, x.threads t = .inside c i →
    p.caller c = t ∧ x.owner = some t ∧ M c i x.shared o
  /-- The lock is held by someone inside, if it is held. -/
  owner : ∀ t, x.owner = some t → ∃ c i, x.threads t = .inside c i
  /-- With nobody inside, memory is the object. -/
  free : x.owner = none → R x.shared o

/-- Where a thread is when one has moved. -/
theorem place_update {threads : ℕ → Place κ l} {t t' : ℕ} {q q' : Place κ l}
    (h : Function.update threads t q t' = q') : (t' = t ∧ q = q') ∨ (t' ≠ t ∧ threads t' = q') := by
  by_cases htt : t' = t
  · rw [htt, Function.update_self] at h
    exact .inl ⟨htt, h⟩
  · rw [Function.update_of_ne htt] at h
    exact .inr ⟨htt, h⟩

/-- **Mutual exclusion.** -/
theorem Inv.unique (h : Inv p pre R M x o) {t t' : ℕ} {c c' : κ} {i i' : l}
    (ht : x.threads t = .inside c i) (ht' : x.threads t' = .inside c' i') : t = t' := by
  obtain ⟨-, howner, -⟩ := h.inside t c i ht
  obtain ⟨-, howner', -⟩ := h.inside t' c' i' ht'
  exact Option.some.inj (howner.symm.trans howner')

theorem inv_start (s : σ) (h : R s o) : Inv p pre R M { shared := s } o where
  waiting t c ht := by cases ht
  inside t c i ht := by cases ht
  owner t ht := by cases ht
  free _ := h

/-- A thread is called. -/
theorem Inv.call (h : Inv p pre R M x o) {c : κ} (hidle : x.threads (p.caller c) = .idle)
    (hpre : pre x.shared c) :
    Inv p pre R M { x with threads := Function.update x.threads (p.caller c) (.waiting c) } o where
  waiting t c' ht := by
    rcases place_update ht with ⟨rfl, hq⟩ | ⟨-, ht⟩
    · obtain rfl := Place.waiting.inj hq
      exact ⟨rfl, hpre⟩
    · exact h.waiting t c' ht
  inside t c' i ht := by
    rcases place_update ht with ⟨-, hq⟩ | ⟨-, ht⟩
    · cases hq
    · exact h.inside t c' i ht
  owner t ht := by
    obtain ⟨c', i, hinside⟩ := h.owner t ht
    refine ⟨c', i, (Function.update_of_ne ?_ ..).trans hinside⟩
    rintro rfl
    rw [hidle] at hinside
    cases hinside
  free := h.free

/-- A thread gets the lock. -/
theorem Inv.lock (h : Inv p pre R M x o) (himp : p.Implements op pre own R M) {t : ℕ} {c : κ}
    (hwaiting : x.threads t = .waiting c) (hfree : x.owner = none) :
    Inv p pre R M { x with
      owner := some t
      threads := Function.update x.threads t (.inside c (p.enter c)) } o where
  waiting t' c' ht := by
    rcases place_update ht with ⟨-, hq⟩ | ⟨-, ht⟩
    · cases hq
    · exact h.waiting t' c' ht
  inside t' c' i ht := by
    rcases place_update ht with ⟨rfl, hq⟩ | ⟨-, ht⟩
    · obtain ⟨rfl, rfl⟩ := Place.inside.inj hq
      obtain ⟨hcaller, hpre⟩ := h.waiting _ _ hwaiting
      exact ⟨hcaller, rfl, himp.enter _ _ _ (h.free hfree) hpre⟩
    · have howner := (h.inside t' c' i ht).2.1
      rw [hfree] at howner
      cases howner
  owner t' ht := by
    obtain rfl := Option.some.inj ht
    exact ⟨c, _, Function.update_self ..⟩
  free ht := by cases ht

/-- The others' duty is still done after a step inside. -/
theorem Inv.waiting_micro (h : Inv p pre R M x o) (himp : p.Implements op pre own R M)
    {t : ℕ} {c : κ} {i : l} (hinside : x.threads t = .inside c i) {t' : ℕ} (htt : t' ≠ t) {c' : κ}
    (ht : x.threads t' = .waiting c') :
    p.caller c' = t' ∧ pre (p.micro x.shared c i).1 c' := by
  obtain ⟨hcaller, -, hM⟩ := h.inside t c i hinside
  obtain ⟨hcaller', hpre⟩ := h.waiting t' c' ht
  exact ⟨hcaller', himp.keeps _ _ _ _ _ hM (by rw [hcaller, hcaller']; exact htt) hpre⟩

/-- The thread inside goes on. -/
theorem Inv.inside_step (h : Inv p pre R M x o) (himp : p.Implements op pre own R M) {t : ℕ} {c : κ}
    {i i' : l} {s : σ} (hinside : x.threads t = .inside c i)
    (hmicro : p.micro x.shared c i = (s, .inl i')) :
    Inv p pre R M { x with
      shared := s
      threads := Function.update x.threads t (.inside c i') } o where
  waiting t' c' ht := by
    rcases place_update ht with ⟨-, hq⟩ | ⟨htt, ht⟩
    · cases hq
    · have hduty := h.waiting_micro himp hinside htt ht
      rwa [hmicro] at hduty
  inside t' c' j ht := by
    obtain ⟨hcaller, howner, hM⟩ := h.inside t c i hinside
    rcases place_update ht with ⟨rfl, hq⟩ | ⟨htt, ht⟩
    · obtain ⟨rfl, rfl⟩ := Place.inside.inj hq
      exact ⟨hcaller, howner, himp.inside _ _ _ _ _ _ hM hmicro⟩
    · exact absurd (h.unique ht hinside) htt
  owner t' ht := by
    have howner : x.owner = some t := (h.inside t c i hinside).2.1
    obtain rfl : t = t' := Option.some.inj (howner.symm.trans ht)
    exact ⟨c, i', Function.update_self ..⟩
  free ht := by
    have howner : x.owner = some t := (h.inside t c i hinside).2.1
    rw [show x.owner = none from ht] at howner
    cases howner

/-- It unlocks and returns. -/
theorem Inv.leave_step (h : Inv p pre R M x o) (himp : p.Implements op pre own R M) {t : ℕ} {c : κ}
    {i : l} {s : σ} {r : ρ} (hinside : x.threads t = .inside c i)
    (hmicro : p.micro x.shared c i = (s, .inr r)) :
    r = (op o c).2 ∧ Inv p pre R M ⟨s, none, Function.update x.threads t .idle⟩ (op o c).1 := by
  obtain ⟨-, -, hM⟩ := h.inside t c i hinside
  obtain ⟨hr, hR⟩ := himp.leave _ _ _ _ _ _ hM hmicro
  refine ⟨hr, fun t' c' ht => ?_, fun t' c' j ht => ?_, fun t' ht => (by cases ht), fun _ => hR⟩
  · rcases place_update ht with ⟨-, hq⟩ | ⟨htt, ht⟩
    · cases hq
    · have hduty := h.waiting_micro himp hinside htt ht
      rwa [hmicro] at hduty
  · rcases place_update ht with ⟨-, hq⟩ | ⟨htt, ht⟩
    · cases hq
    · exact absurd (h.unique ht hinside) htt

/-- A thread touches what is its own. -/
theorem Inv.direct_step (h : Inv p pre R M x o) (himp : p.Implements op pre own R M) {c : κ}
    {s : σ} {r : ρ} (hidle : x.threads (p.caller c) = .idle) (hown : own x.shared c)
    (hdirect : p.direct x.shared c = some (s, r)) :
    r = (op o c).2 ∧ Inv p pre R M { x with shared := s } (op o c).1 := by
  have hwaiting : ∀ t c', x.threads t = .waiting c' →
      p.caller c' = t ∧ pre s c' := fun t c' ht => by
    obtain ⟨hcaller, hpre'⟩ := h.waiting t c' ht
    refine ⟨hcaller, himp.directKeeps _ _ _ _ _ (fun heq => ?_) hown hpre' hdirect⟩
    rw [← heq, hcaller, ht] at hidle
    cases hidle
  have hother : ∀ t c' i, x.threads t = .inside c' i → p.caller c ≠ p.caller c' := by
    intro t c' i ht heq
    rw [heq, (h.inside t c' i ht).1, ht] at hidle
    cases hidle
  have hinside : ∀ t c' i, x.threads t = .inside c' i →
      r = (op o c).2 ∧ M c' i s (op o c).1 := fun t c' i ht =>
    himp.beside _ _ _ _ _ _ _ (h.inside t c' i ht).2.2 (hother t c' i ht) hown hdirect
  obtain howner | ⟨t, howner⟩ := Option.eq_none_or_eq_some x.owner
  · obtain ⟨hr, hR⟩ := himp.direct _ _ _ _ _ (h.free howner) hown hdirect
    refine ⟨hr, hwaiting, fun t c' i ht => ?_, h.owner, fun _ => hR⟩
    exact ⟨(h.inside t c' i ht).1, (h.inside t c' i ht).2.1, (hinside t c' i ht).2⟩
  · obtain ⟨c', i, ht⟩ := h.owner t howner
    refine ⟨(hinside t c' i ht).1, hwaiting, fun t c' i ht => ?_, h.owner, fun hnone => ?_⟩
    · exact ⟨(h.inside t c' i ht).1, (h.inside t c' i ht).2.1, (hinside t c' i ht).2⟩
    · rw [show x.owner = none from hnone] at howner
      cases howner

/-- **Every step keeps the invariant**, and a call takes effect in its last one. -/
theorem Inv.step (h : Inv p pre R M x o) (himp : p.Implements op pre own R M) {a : Turn κ}
    (hok : x.Duty pre own a) (hs : x.step p a = some x') :
    (x.shown p a = [] ∧ Inv p pre R M x' o)
      ∨ ∃ c, x.shown p a = [(c, (op o c).2)] ∧ Inv p pre R M x' (op o c).1 := by
  cases a with
  | call c =>
    unfold Locked.step at hs
    cases hidle : x.threads (p.caller c) with
    | idle =>
      simp only [hidle, Option.some.injEq] at hs
      subst hs
      exact .inl ⟨rfl, h.call hidle hok⟩
    | waiting _ | inside _ _ => simp [hidle] at hs
  | lock t =>
    unfold Locked.step at hs
    cases hwaiting : x.threads t with
    | idle | inside _ _ => simp [hwaiting] at hs
    | waiting c =>
      cases hfree : x.owner with
      | some _ => simp [hwaiting, hfree] at hs
      | none =>
        simp only [hwaiting, hfree, Option.some.injEq] at hs
        subst hs
        exact .inl ⟨rfl, h.lock himp hwaiting hfree⟩
  | step t =>
    unfold Locked.step at hs
    unfold shown
    cases hinside : x.threads t with
    | idle | waiting _ => simp [hinside] at hs
    | inside c i =>
      cases hmicro : p.micro x.shared c i with
      | mk s out =>
        cases out with
        | inl i' =>
          simp only [hinside, hmicro, Option.some.injEq] at hs
          subst hs
          exact .inl ⟨by simp only [hinside, hmicro], h.inside_step himp hinside hmicro⟩
        | inr r =>
          simp only [hinside, hmicro, Option.some.injEq] at hs
          subst hs
          obtain ⟨rfl, hinv⟩ := h.leave_step himp hinside hmicro
          exact .inr ⟨c, by simp only [hinside, hmicro], hinv⟩
  | direct c =>
    unfold Locked.step at hs
    cases hidle : x.threads (p.caller c) with
    | waiting _ | inside _ _ => simp [hidle] at hs
    | idle =>
      simp only [hidle, Option.map_eq_some_iff] at hs
      obtain ⟨⟨s, r⟩, hdirect, rfl⟩ := hs
      obtain ⟨rfl, hinv⟩ := h.direct_step himp hidle hok hdirect
      refine .inr ⟨c, ?_, hinv⟩
      rw [shown, hdirect]
      rfl

/-- **Linearizable**: the calls, in the order in which they unlock, are a history of the sequential
object. -/
theorem legal_of_trace (himp : p.Implements op pre own R M) {s₀ : σ} {o₀ : ω} (h₀ : R s₀ o₀)
    {H : List (κ × ρ)}
    (h : Trace (step p) (Duty pre own) (shown p) { shared := s₀ } H x) :
    ∃ o, Legal op o₀ H o ∧ Inv p pre R M x o :=
  h.legal (R := Inv p pre R M) (inv_start s₀ h₀) fun _ _ _ _ hinv hok hs => hinv.step himp hok hs

end Locked

end Guarded
