import Ordbk.Lib.Priority
import Ordbk.Lib.Prefix

/-!
# Lib/Multimap — ordered maps that keep equal keys

A `Multimap lt V` is iterated in the order of its keys, and under one key in the order of insertion.
`Follows m l` says so: under each key the map has the entries of the list `l`, in the order of `l`,
where `l` is what was inserted and is still there, the oldest first.
-/

/-- A map from `K` to any number of values, iterated in the order of the comparator `lt`. -/
structure Multimap {K : Type*} (lt : K → K → Prop) (V : Type*) where
  /-- In the order in which an iterator visits them. -/
  entries : List (K × V)
  /-- Of one key, the value that came first stands first. -/
  sorted : Priority.Sorted Prod.fst lt entries

namespace Multimap

variable {K V : Type*} {lt : K → K → Prop}

@[ext] theorem ext' {m m' : Multimap lt V} (h : m.entries = m'.entries) : m = m' := by
  cases m
  cases m'
  subst h
  rfl

/-- The map with no entry. -/
def empty : Multimap lt V := ⟨[], Priority.sorted_nil⟩

@[simp] theorem entries_empty : (empty : Multimap lt V).entries = [] := rfl

/-- Insert an entry behind those with its key. -/
def emplace [DecidableRel lt] [IsStrictTotalOrder K lt] (m : Multimap lt V) (k : K) (v : V) :
    Multimap lt V :=
  ⟨Priority.enqueue Prod.fst lt (k, v) m.entries, Priority.sorted_enqueue _ m.sorted⟩

/-- Erase the first entry under a key that has this value. -/
def eraseFirst [DecidableEq K] [DecidableEq V] (m : Multimap lt V) (k : K) (v : V) :
    Multimap lt V :=
  ⟨m.entries.erase (k, v), m.sorted.sublist List.erase_sublist⟩

/-- Erase entries from the front, as long as their keys satisfy `P`. -/
def dropFront (P : K → Bool) (m : Multimap lt V) : Multimap lt V :=
  ⟨m.entries.dropWhile fun x => P x.1, m.sorted.sublist (List.dropWhile_sublist _)⟩

/-! ## What is due

A prefix of the entries is a set of them, for they are sorted: those with keys up to a bound. -/

section Due

variable {P : K → Bool} (hP : ∀ a b, ¬ lt b a → P b = true → P a = true) (m : Multimap lt V)
include hP

theorem takeWhile_eq_filter :
    m.entries.takeWhile (fun x => P x.1) = m.entries.filter fun x => P x.1 :=
  Prefix.takeWhile_eq_filter (fun a b => hP a.1 b.1) m.sorted

theorem entries_dropFront : (m.dropFront P).entries = m.entries.filter fun x => !P x.1 :=
  Prefix.dropWhile_eq_filter (fun a b => hP a.1 b.1) m.sorted

end Due

/-! ## Order of insertion

Between equal keys the order is that of the insertions, and it survives erasures. -/

variable [DecidableEq K]

/-- **Under each key, the entries of `l` in the order of `l`.** -/
def Follows (m : Multimap lt V) (l : List (K × V)) : Prop :=
  ∀ k, (m.entries.filter fun x => x.1 = k) = l.filter fun x => x.1 = k

variable {m : Multimap lt V} {l : List (K × V)}

theorem follows_empty : (empty : Multimap lt V).Follows [] := fun _ => rfl

theorem Follows.emplace [DecidableRel lt] [IsStrictTotalOrder K lt] (h : m.Follows l)
    (k : K) (v : V) : (m.emplace k v).Follows (l ++ [(k, v)]) := fun k' => by
  rw [Multimap.emplace, Priority.filter_enqueue _ m.sorted, h k', List.filter_append]
  by_cases hk : k = k'
  · rw [if_pos hk, List.filter_cons_of_pos (by simpa using hk), List.filter_nil]
  · rw [if_neg hk, List.filter_cons_of_neg (by simpa using hk), List.filter_nil]

theorem Follows.eraseFirst [DecidableEq V] (h : m.Follows l) (k : K) (v : V) :
    (m.eraseFirst k v).Follows (l.erase (k, v)) := fun k' => by
  rw [← List.erase_filter, ← h k', List.erase_filter]
  rfl

theorem Follows.dropFront (h : m.Follows l) {P : K → Bool}
    (hP : ∀ a b, ¬ lt b a → P b = true → P a = true) :
    (m.dropFront P).Follows (l.filter fun x => !P x.1) := fun k => by
  rw [entries_dropFront hP, List.filter_comm, h k, List.filter_comm]

end Multimap
