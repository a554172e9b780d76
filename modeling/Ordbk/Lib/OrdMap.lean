import Mathlib.Order.RelClasses
import Mathlib.Data.List.Lookmap

/-!
# Lib/OrdMap — an ordered map is its sorted entry list

`OrdMap lt V` is a finite map whose keys are kept in the order of a strict total comparator `lt`
(the reverse comparator gives the reverse iteration order).  The sortedness is a field, so every
map built by the operations iterates in key order; `find?_insertOrAssign` and `find?_erase` say
what they do to lookups, and `find?_of_begin?` that the first entry is the least one.
-/

/-- A finite map from `K` to `V`, iterated in the order of the comparator `lt`. -/
structure OrdMap {K : Type*} (lt : K → K → Prop) (V : Type*) where
  /-- The keys with their values, in iteration order. -/
  entries : List (K × V)
  /-- **In the order of the keys**, so no key twice. -/
  sorted : entries.Pairwise fun a b => lt a.1 b.1

namespace OrdMap

variable {K V : Type*} {lt : K → K → Prop}

/-- A map is its list of entries. -/
@[ext] theorem ext' {m m' : OrdMap lt V} (h : m.entries = m'.entries) : m = m' := by
  cases m
  cases m'
  subst h
  rfl

/-- The map with no entry. -/
def empty : OrdMap lt V := ⟨[], List.Pairwise.nil⟩

@[simp] theorem entries_empty : (empty : OrdMap lt V).entries = [] := rfl

/-- The first entry in iteration order. -/
def begin? (m : OrdMap lt V) : Option (K × V) := m.entries.head?

variable [DecidableEq K]

/-- The first entry under a key counts. -/
theorem lookup_cons (e : K × V) (l : List (K × V)) (k : K) :
    (e :: l).lookup k = if k = e.1 then some e.2 else l.lookup k := by
  obtain ⟨k', v⟩ := e
  by_cases h : k = k'
  · simp [h]
  · have hb : (k == k') = false := by simpa using h
    simp only [List.lookup_cons, hb, h, if_false]

/-- The value stored under a key. -/
def find? (m : OrdMap lt V) (k : K) : Option V := m.entries.lookup k

@[simp] theorem find?_empty (k : K) : (empty : OrdMap lt V).find? k = none := rfl

/-- Nothing is found in an empty map. -/
theorem find?_of_entries_nil {m : OrdMap lt V} (h : m.entries = []) (k : K) : m.find? k = none := by
  rw [find?, h]
  rfl

/-- What is found is an entry. -/
theorem entries_ne_nil {m : OrdMap lt V} {k : K} {v : V} (h : m.find? k = some v) :
    m.entries ≠ [] :=
  fun hnil => by
    rw [find?_of_entries_nil hnil] at h
    cases h

/-- Remove a key. -/
def erase (m : OrdMap lt V) (k : K) : OrdMap lt V :=
  ⟨m.entries.filter fun e => e.1 ≠ k, m.sorted.filter _⟩

section Insert

variable [DecidableRel lt]

/-- Store `v` under `k` in a sorted entry list: before the first later key, over an equal one. -/
def insertEntry (lt : K → K → Prop) [DecidableRel lt] (k : K) (v : V) :
    List (K × V) → List (K × V)
  | [] => [(k, v)]
  | e :: l =>
    if lt k e.1 then (k, v) :: e :: l
    else if e.1 = k then (k, v) :: l
    else e :: insertEntry lt k v l

/-- Nothing else comes in. -/
theorem mem_insertEntry {k : K} {v : V} {e : K × V} {l : List (K × V)}
    (h : e ∈ insertEntry lt k v l) : e = (k, v) ∨ e ∈ l := by
  induction l with
  | nil => simpa [insertEntry] using h
  | cons a l ih =>
    simp only [insertEntry] at h
    split_ifs at h with h1 h2
    · simpa using h
    · rcases List.mem_cons.mp h with rfl | h
      · exact Or.inl rfl
      · exact Or.inr (List.mem_cons_of_mem _ h)
    · rcases List.mem_cons.mp h with rfl | h
      · exact Or.inr (by simp)
      · exact (ih h).imp_right (List.mem_cons_of_mem _)

variable [IsStrictTotalOrder K lt]

/-- An insertion keeps the order. -/
theorem sorted_insertEntry (k : K) (v : V) {l : List (K × V)}
    (hl : l.Pairwise fun a b => lt a.1 b.1) :
    (insertEntry lt k v l).Pairwise fun a b => lt a.1 b.1 := by
  induction l with
  | nil => exact List.pairwise_singleton _ _
  | cons a l ih =>
    obtain ⟨ha, hl'⟩ := List.pairwise_cons.mp hl
    simp only [insertEntry]
    split_ifs with h1 h2
    · refine List.pairwise_cons.mpr ⟨fun b hb => ?_, hl⟩
      rcases List.mem_cons.mp hb with rfl | hb
      · exact h1
      · exact trans_of lt h1 (ha b hb)
    · exact List.pairwise_cons.mpr ⟨fun b hb => h2 ▸ ha b hb, hl'⟩
    · refine List.pairwise_cons.mpr ⟨fun b hb => ?_, ih hl'⟩
      rcases mem_insertEntry hb with rfl | hb
      · exact (trichotomous_of lt a.1 k).elim id fun h => h.elim (fun h => absurd h h2)
          fun h => absurd h h1
      · exact ha b hb

/-- Store a value under a key, whether or not the key is present. -/
def insertOrAssign (m : OrdMap lt V) (k : K) (v : V) : OrdMap lt V :=
  ⟨insertEntry lt k v m.entries, sorted_insertEntry k v m.sorted⟩

omit [IsStrictTotalOrder K lt] in
/-- Lookup in the entry list after an insertion. -/
theorem lookup_insertEntry (k : K) (v : V) (l : List (K × V)) (k' : K) :
    (insertEntry lt k v l).lookup k' = if k' = k then some v else l.lookup k' := by
  induction l with
  | nil => simp [insertEntry, lookup_cons]
  | cons a l ih =>
    simp only [insertEntry]
    split_ifs with h1 h2 h3 h4 h5
    · simp [lookup_cons, h2]
    · simp [lookup_cons, h2]
    · simp [lookup_cons, h4]
    · have hak : k' ≠ a.1 := fun h => h4 (h.trans h3)
      simp [lookup_cons, h4, hak]
    · have hak : k' ≠ a.1 := fun h => h3 (h.symm.trans h5)
      rw [lookup_cons, if_neg hak, ih, if_pos h5]
    · rw [lookup_cons, lookup_cons, ih, if_neg h5]

@[simp] theorem find?_insertOrAssign (m : OrdMap lt V) (k : K) (v : V) (k' : K) :
    (m.insertOrAssign k v).find? k' = if k' = k then some v else m.find? k' :=
  lookup_insertEntry k v m.entries k'

end Insert

/-- Lookup in the entry list without a key. -/
theorem lookup_filter_ne (l : List (K × V)) (k k' : K) :
    (l.filter fun e => e.1 ≠ k).lookup k' = if k' = k then none else l.lookup k' := by
  induction l with
  | nil => simp
  | cons a l ih =>
    by_cases ha : a.1 = k
    · rw [List.filter_cons_of_neg (by simpa using ha), ih, lookup_cons, ha]
      split_ifs <;> rfl
    · rw [List.filter_cons_of_pos (by simpa using ha), lookup_cons, ih, lookup_cons]
      by_cases hk : k' = a.1
      · rw [if_pos hk, if_neg (fun h => ha (hk.symm.trans h)), if_pos hk]
      · rw [if_neg hk, if_neg hk]

@[simp] theorem find?_erase (m : OrdMap lt V) (k k' : K) :
    (m.erase k).find? k' = if k' = k then none else m.find? k' :=
  lookup_filter_ne m.entries k k'

section Order

variable [IsStrictTotalOrder K lt]

/-- Every entry is found under its key. -/
theorem lookup_of_mem {l : List (K × V)} (hl : l.Pairwise fun a b => lt a.1 b.1) {e : K × V}
    (he : e ∈ l) : l.lookup e.1 = some e.2 := by
  induction l with
  | nil => simp at he
  | cons a l ih =>
    obtain ⟨ha, hl'⟩ := List.pairwise_cons.mp hl
    rcases List.mem_cons.mp he with rfl | he
    · rw [lookup_cons, if_pos rfl]
    · have hne : e.1 ≠ a.1 := fun h => irrefl_of lt a.1 (h ▸ ha e he)
      rw [lookup_cons, if_neg hne]
      exact ih hl' he

omit [IsStrictTotalOrder K lt] in
/-- And what is found is an entry. -/
theorem mem_of_lookup {l : List (K × V)} {k : K} {v : V} (h : l.lookup k = some v) :
    (k, v) ∈ l := by
  induction l with
  | nil => simp at h
  | cons a l ih =>
    rw [lookup_cons] at h
    split_ifs at h with hk
    · exact List.mem_cons.mpr (Or.inl (Prod.ext hk (Option.some.inj h).symm))
    · exact List.mem_cons_of_mem _ (ih h)

/-- **The entries are the graph of the lookup.** -/
theorem mem_entries (m : OrdMap lt V) {k : K} {v : V} :
    (k, v) ∈ m.entries ↔ m.find? k = some v :=
  ⟨fun h => lookup_of_mem m.sorted h, mem_of_lookup⟩

/-- **The first entry has the least key.** -/
theorem find?_of_begin? {m : OrdMap lt V} {k : K} {v : V} (h : m.begin? = some (k, v)) :
    m.find? k = some v ∧ ∀ k' v', m.find? k' = some v' → k' = k ∨ lt k k' := by
  obtain ⟨l, hl⟩ : ∃ l, m.entries = (k, v) :: l := by
    simpa [begin?, List.head?_eq_some_iff] using h
  refine ⟨m.mem_entries.mp (by simp [hl]), fun k' v' hk' => ?_⟩
  have hmem := m.mem_entries.mpr hk'
  rw [hl, List.mem_cons] at hmem
  rcases hmem with heq | hmem
  · exact Or.inl (congrArg Prod.fst heq)
  · have hs := m.sorted
    rw [hl] at hs
    exact Or.inr ((List.pairwise_cons.mp hs).1 _ hmem)

/-- A map has no first entry if nothing is in it. -/
theorem begin?_eq_none {m : OrdMap lt V} : m.begin? = none ↔ ∀ k, m.find? k = none := by
  rw [begin?, List.head?_eq_none_iff]
  refine ⟨fun h k => by simp [find?, h], fun h => List.eq_nil_iff_forall_not_mem.mpr ?_⟩
  rintro ⟨k, v⟩ hmem
  exact absurd (m.mem_entries.mp hmem) (by simp [h k])

/-- **Storing what is stored** changes nothing. -/
theorem insertOrAssign_of_find? [DecidableRel lt] {m : OrdMap lt V} {k : K} {v : V}
    (h : m.find? k = some v) : m.insertOrAssign k v = m := by
  refine ext' ?_
  obtain ⟨l, hl⟩ := m
  change insertEntry lt k v l = l
  change l.lookup k = some v at h
  induction l with
  | nil => cases h
  | cons a l ih =>
    obtain ⟨ha, hl'⟩ := List.pairwise_cons.mp hl
    rw [lookup_cons] at h
    rw [insertEntry]
    by_cases hk : k = a.1
    · subst hk
      rw [if_pos rfl] at h
      rw [if_neg (irrefl_of lt a.1), if_pos rfl, ← Option.some.inj h]
    · rw [if_neg hk] at h
      have hlt : lt a.1 k := ha _ (mem_of_lookup h)
      rw [if_neg (asymm_of lt hlt), if_neg fun hak => hk hak.symm, ih hl' h]

end Order

end OrdMap
