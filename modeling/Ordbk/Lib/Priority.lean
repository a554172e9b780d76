import Mathlib.Order.RelClasses
import Mathlib.Data.List.Perm.Basic

/-!
# Lib/Priority — price-time queues in the abstract

A priority queue with first-come-first-served ties is one list, sorted by a key: `enqueue` puts an
element behind everything that is at least as good.  Looked at key by key it is a family of plain
FIFO queues — `filter_enqueue` says that `enqueue` appends to one of them and touches no other, and
`flatMap_filter_eq` that the sorted list is the concatenation of those queues in key order.
-/

namespace Priority

variable {α K : Type*} {key : α → K} {lt : K → K → Prop}

/-- Nothing in the list is beaten by something behind it. -/
def Sorted (key : α → K) (lt : K → K → Prop) (l : List α) : Prop :=
  l.Pairwise fun a b => ¬ lt (key b) (key a)

theorem sorted_nil : Sorted key lt [] := List.Pairwise.nil

/-- The first is beaten by nobody behind it. -/
theorem sorted_cons {a : α} {l : List α} :
    Sorted key lt (a :: l) ↔ (∀ b ∈ l, ¬ lt (key b) (key a)) ∧ Sorted key lt l :=
  List.pairwise_cons

/-- Sortedness is a property of the keys alone. -/
theorem sorted_iff_map {l : List α} :
    Sorted key lt l ↔ (l.map key).Pairwise fun a b => ¬ lt b a := by
  rw [List.pairwise_map]
  rfl

variable [DecidableRel lt]

/-- Put an element behind everything at least as good as it. -/
def enqueue (key : α → K) (lt : K → K → Prop) [DecidableRel lt] (e : α) : List α → List α
  | [] => [e]
  | x :: l => if lt (key e) (key x) then e :: x :: l else x :: enqueue key lt e l

/-- One more, and nobody less. -/
theorem enqueue_perm (e : α) (l : List α) : (enqueue key lt e l).Perm (e :: l) := by
  induction l with
  | nil => exact List.Perm.refl _
  | cons x l ih =>
    simp only [enqueue]
    split_ifs
    · exact List.Perm.refl _
    · exact (ih.cons x).trans (List.Perm.swap e x l)

@[simp] theorem mem_enqueue {e x : α} {l : List α} :
    x ∈ enqueue key lt e l ↔ x = e ∨ x ∈ l := by
  rw [(enqueue_perm e l).mem_iff, List.mem_cons]

/-- An element is put somewhere, and nothing else moves. -/
theorem enqueue_split (key : α → K) (lt : K → K → Prop) [DecidableRel lt] (e : α) (l : List α) :
    ∃ l₁ l₂, l = l₁ ++ l₂ ∧ enqueue key lt e l = l₁ ++ e :: l₂ := by
  induction l with
  | nil => exact ⟨[], [], rfl, rfl⟩
  | cons x l ih =>
    simp only [enqueue]
    split_ifs
    · exact ⟨[], x :: l, rfl, rfl⟩
    · obtain ⟨l₁, l₂, rfl, h⟩ := ih
      exact ⟨x :: l₁, l₂, rfl, by rw [h, List.cons_append]⟩

/-- Better than everything: in front. -/
theorem enqueue_of_forall {e : α} {l : List α} (h : ∀ x ∈ l, lt (key e) (key x)) :
    enqueue key lt e l = e :: l := by
  cases l with
  | nil => rfl
  | cons x l => rw [enqueue, if_pos (h x (List.mem_cons_self ..))]

/-- Better than nothing: at the end. -/
theorem enqueue_of_forall_not {e : α} {l : List α} (h : ∀ x ∈ l, ¬ lt (key e) (key x)) :
    enqueue key lt e l = l ++ [e] := by
  induction l with
  | nil => rfl
  | cons x l ih =>
    obtain ⟨hx, hl⟩ := List.forall_mem_cons.mp h
    rw [enqueue, if_neg hx, ih hl, List.cons_append]

variable [IsStrictTotalOrder K lt]

/-- **Enqueueing keeps the order.** -/
theorem sorted_enqueue (e : α) {l : List α} (hl : Sorted key lt l) :
    Sorted key lt (enqueue key lt e l) := by
  induction l with
  | nil => exact List.pairwise_singleton _ _
  | cons x l ih =>
    obtain ⟨hx, hl'⟩ := sorted_cons.mp hl
    simp only [enqueue]
    split_ifs with h
    · refine sorted_cons.mpr ⟨fun b hb hbe => ?_, hl⟩
      rcases List.mem_cons.mp hb with rfl | hb
      · exact asymm_of lt h hbe
      · exact hx b hb (trans_of lt hbe h)
    · refine sorted_cons.mpr ⟨fun b hb => ?_, ih hl'⟩
      rcases mem_enqueue.mp hb with rfl | hb
      · exact h
      · exact hx b hb

/-- **Enqueueing commutes with leaving**: it does not matter whether others leave before or after.
-/
theorem filter_enqueue_comm (e : α) {l : List α} (hl : Sorted key lt l) {P : α → Bool}
    (he : P e = true) : (enqueue key lt e l).filter P = enqueue key lt e (l.filter P) := by
  induction l with
  | nil => simp [enqueue, he]
  | cons x l ih =>
    obtain ⟨hx, hl'⟩ := sorted_cons.mp hl
    by_cases hlt : lt (key e) (key x)
    · -- `e` beats the head, hence whoever is left
      have hall : ∀ y ∈ (x :: l).filter P, lt (key e) (key y) := by
        intro y hy
        rcases List.mem_cons.mp (List.mem_filter.mp hy).1 with rfl | hy
        · exact hlt
        · rcases trichotomous_of lt (key e) (key y) with h | h | h
          · exact h
          · exact absurd (h ▸ hlt) (hx y hy)
          · exact absurd (trans_of lt h hlt) (hx y hy)
      rw [enqueue, if_pos hlt, List.filter_cons_of_pos he, enqueue_of_forall hall]
    · rw [enqueue, if_neg hlt]
      by_cases hPx : P x = true
      · rw [List.filter_cons_of_pos hPx, List.filter_cons_of_pos hPx, enqueue, if_neg hlt, ih hl']
      · rw [List.filter_cons_of_neg hPx, List.filter_cons_of_neg hPx, ih hl']

variable [DecidableEq K]

/-- **Enqueueing appends to the queue of its own key and touches no other.** -/
theorem filter_enqueue (e : α) {l : List α} (hl : Sorted key lt l) (k : K) :
    (enqueue key lt e l).filter (fun x => key x = k)
      = (l.filter fun x => key x = k) ++ if key e = k then [e] else [] := by
  induction l with
  | nil => by_cases h : key e = k <;> simp [enqueue, h]
  | cons x l ih =>
    obtain ⟨hx, hl'⟩ := sorted_cons.mp hl
    by_cases h1 : lt (key e) (key x)
    · rw [enqueue, if_pos h1]
      by_cases h2 : key e = k
      · -- `e` beats the head, hence the whole list: no element of the list has its key
        have hnone : ∀ b ∈ x :: l, key b ≠ k := by
          intro b hb hbk
          rcases List.mem_cons.mp hb with rfl | hb
          · exact irrefl_of lt (key e) (by rwa [hbk, ← h2] at h1)
          · exact hx b hb (by rwa [hbk, ← h2])
        have hnil : (x :: l).filter (fun x => key x = k) = [] :=
          List.filter_eq_nil_iff.mpr fun b hb => by simpa using hnone b hb
        rw [List.filter_cons_of_pos (by simpa using h2), hnil, if_pos h2]
        rfl
      · rw [List.filter_cons_of_neg (by simpa using h2), if_neg h2, List.append_nil]
    · rw [enqueue, if_neg h1]
      by_cases hxk : key x = k
      · rw [List.filter_cons_of_pos (by simpa using hxk), ih hl',
          List.filter_cons_of_pos (by simpa using hxk), List.cons_append]
      · rw [List.filter_cons_of_neg (by simpa using hxk), ih hl',
          List.filter_cons_of_neg (by simpa using hxk)]

omit [DecidableRel lt] in
/-- **A sorted list is the concatenation of its queues, in key order.** -/
theorem flatMap_filter_eq {ks : List K} (hks : ks.Pairwise lt) {l : List α}
    (hl : Sorted key lt l) (hmem : ∀ a ∈ l, key a ∈ ks) :
    (ks.flatMap fun k => l.filter fun a => key a = k) = l := by
  induction ks generalizing l with
  | nil =>
    rw [List.flatMap_nil]
    exact (List.eq_nil_iff_forall_not_mem.mpr fun a ha => by simpa using hmem a ha).symm
  | cons k ks ih =>
    obtain ⟨hk, hks'⟩ := List.pairwise_cons.mp hks
    -- the elements with the least key come first, the others follow
    have hsplit : ∀ l : List α, Sorted key lt l → (∀ a ∈ l, key a ∈ k :: ks) →
        (l.filter fun a => key a = k) ++ (l.filter fun a => key a ≠ k) = l := by
      intro l hl hmem
      induction l with
      | nil => rfl
      | cons a l iha =>
        obtain ⟨ha, hl'⟩ := sorted_cons.mp hl
        have hrest := iha hl' fun b hb => hmem b (List.mem_cons_of_mem _ hb)
        by_cases hak : key a = k
        · rw [List.filter_cons_of_pos (by simpa using hak),
            List.filter_cons_of_neg (by simpa using hak), List.cons_append, hrest]
        · have hka : lt k (key a) := hk _ ((List.mem_cons.mp (hmem a (by simp))).resolve_left hak)
          have hnil : (l.filter fun a => key a = k) = [] :=
            List.filter_eq_nil_iff.mpr fun b hb => by
              simpa using fun hbk => ha b hb (by rwa [hbk])
          rw [hnil, List.nil_append] at hrest
          rw [List.filter_cons_of_neg (by simpa using hak), hnil, List.nil_append,
            List.filter_cons_of_pos (by simpa using hak), hrest]
    have hfil : ∀ k' ∈ ks, (l.filter fun a => key a = k')
        = (l.filter fun a => key a ≠ k).filter fun a => key a = k' := by
      intro k' hk'
      rw [List.filter_filter]
      refine congrArg (fun P => List.filter P l) (funext fun a => ?_)
      by_cases h : key a = k'
      · have hne : k' ≠ k := fun hkk => irrefl_of lt k (hkk ▸ hk k' hk')
        simp [h, hne]
      · simp [h]
    rw [List.flatMap_cons, List.flatMap_congr hfil, ih hks' (hl.filter _)]
    · exact hsplit l hl hmem
    · intro a ha
      obtain ⟨ha, hne⟩ := List.mem_filter.mp ha
      exact (List.mem_cons.mp (hmem a ha)).resolve_left (by simpa using hne)

end Priority
