import Mathlib.Data.Finmap

/-!
# Lib/OneToOne — finite one-to-one maps

A `OneToOne K V` is a finite map in which no value stands under two keys; being one-to-one is a
field, so an insertion asks for a value that is new.  A map so built can be read backwards: an index
by value may hold any part of the key (`Inverse`), and counts the entries (`Inverse.card_eq`).
-/

/-- A finite map from `K` to `V` that takes no value twice. -/
structure OneToOne (K V : Type*) [DecidableEq K] where
  /-- The pairs. -/
  map : Finmap fun _ : K => V
  /-- A value leads back to its key. -/
  inj : ∀ k k' v, map.lookup k = some v → map.lookup k' = some v → k = k'

namespace OneToOne

variable {K V : Type*} [DecidableEq K] (M : OneToOne K V)

/-- The value under a key. -/
def lookup (k : K) : Option V := M.map.lookup k

/-- The number of entries. -/
def card : ℕ := M.map.keys.card

/-- The value stands under no key. -/
def Fresh (v : V) : Prop := ∀ k, M.lookup k ≠ some v

/-- The map with no entry. -/
def empty : OneToOne K V := ⟨∅, fun k k' v h => by simp at h⟩

@[simp] theorem lookup_empty (k : K) : (empty : OneToOne K V).lookup k = none :=
  Finmap.lookup_empty k

/-- Put a new value under a key. -/
def insert (k : K) (v : V) (h : M.Fresh v) : OneToOne K V where
  map := M.map.insert k v
  inj a b w ha hb := by
    by_cases hak : a = k
    · by_cases hbk : b = k
      · rw [hak, hbk]
      · rw [hak, Finmap.lookup_insert] at ha
        rw [Finmap.lookup_insert_of_ne _ hbk, ← ha] at hb
        exact absurd hb (h b)
    · rw [Finmap.lookup_insert_of_ne _ hak] at ha
      by_cases hbk : b = k
      · rw [hbk, Finmap.lookup_insert] at hb
        exact absurd (hb ▸ ha) (h a)
      · rw [Finmap.lookup_insert_of_ne _ hbk] at hb
        exact M.inj a b w ha hb

theorem lookup_insert (k : K) (v : V) (h : M.Fresh v) (k' : K) :
    (M.insert k v h).lookup k' = if k' = k then some v else M.lookup k' := by
  split_ifs with hk
  · rw [hk]
    exact Finmap.lookup_insert _
  · exact Finmap.lookup_insert_of_ne _ hk

/-- Take a key out. -/
def erase (k : K) : OneToOne K V where
  map := M.map.erase k
  inj a b w ha hb := by
    have hne : ∀ c, (M.map.erase k).lookup c = some w → c ≠ k := by
      rintro c hc rfl
      rw [Finmap.lookup_erase] at hc
      cases hc
    rw [Finmap.lookup_erase_ne (hne a ha)] at ha
    rw [Finmap.lookup_erase_ne (hne b hb)] at hb
    exact M.inj a b w ha hb

theorem lookup_erase (k k' : K) :
    (M.erase k).lookup k' = if k' = k then none else M.lookup k' := by
  split_ifs with hk
  · rw [hk]
    exact Finmap.lookup_erase _ _
  · exact Finmap.lookup_erase_ne hk

variable {M}

theorem eq_of_lookup {k k' : K} {v : V} (h : M.lookup k = some v) (h' : M.lookup k' = some v) :
    k = k' := M.inj k k' v h h'

/-- What there is after an insertion under a new key. -/
theorem lookup_insert_eq_some {k k' : K} {v w : V} {h : M.Fresh v} (hk : M.lookup k = none) :
    (M.insert k v h).lookup k' = some w ↔ (k' = k ∧ v = w) ∨ M.lookup k' = some w := by
  rw [lookup_insert]
  split_ifs with hkk
  · rw [Option.some_inj, hkk, hk]
    simp
  · simp [hkk]

/-- What there is after an entry is taken out: no other value goes with it. -/
theorem lookup_erase_eq_some {k k' : K} {v w : V} (hk : M.lookup k = some v) :
    (M.erase k).lookup k' = some w ↔ w ≠ v ∧ M.lookup k' = some w := by
  rw [lookup_erase]
  split_ifs with hkk
  · rw [hkk, hk, Option.some_inj]
    exact iff_of_false nofun fun ⟨hne, heq⟩ => hne heq.symm
  · exact ⟨fun h => ⟨fun heq => hkk (eq_of_lookup h (heq ▸ hk)), h⟩, And.right⟩

theorem mem_keys {k : K} : k ∈ M.map.keys ↔ ∃ v, M.lookup k = some v := by
  rw [Finmap.mem_keys, ← Finmap.lookup_isSome, Option.isSome_iff_exists]
  rfl

/-! ## Read backwards

A second map from values to something of their keys can stand beside the first, and then answers for
it. -/

variable {W : Type*} [DecidableEq V] {f : K → W} {N : Finmap fun _ : V => W}

/-- **An index by value** has, for each value, what `f` takes of its key. -/
def Inverse (M : OneToOne K V) (f : K → W) (N : Finmap fun _ : V => W) : Prop :=
  ∀ v w, N.lookup v = some w ↔ ∃ k, f k = w ∧ M.lookup k = some v

theorem inverse_empty : (empty : OneToOne K V).Inverse f ∅ := fun v w => by simp

namespace Inverse

variable (h : M.Inverse f N)
include h

theorem lookup_eq {k : K} {v : V} (hk : M.lookup k = some v) : N.lookup v = some (f k) :=
  (h v _).mpr ⟨k, rfl, hk⟩

theorem isSome_iff (v : V) : (N.lookup v).isSome ↔ ∃ k, M.lookup k = some v := by
  rw [Option.isSome_iff_exists]
  constructor
  · rintro ⟨w, hw⟩
    obtain ⟨k, -, hk⟩ := (h v w).mp hw
    exact ⟨k, hk⟩
  · rintro ⟨k, hk⟩
    exact ⟨_, h.lookup_eq hk⟩

theorem lookup_eq_none {v : V} (hv : M.Fresh v) : N.lookup v = none := by
  rw [← Option.not_isSome_iff_eq_none, h.isSome_iff]
  exact fun ⟨k, hk⟩ => hv k hk

theorem insert {k : K} {v : V} (hv : M.Fresh v) (hk : M.lookup k = none) :
    (M.insert k v hv).Inverse f (N.insert v (f k)) := fun v' w => by
  simp only [lookup_insert_eq_some hk]
  by_cases hvv : v' = v
  · subst hvv
    have hnone : ∀ k, M.lookup k ≠ some v' := hv
    rw [Finmap.lookup_insert, Option.some_inj]
    simp [hnone]
  · rw [Finmap.lookup_insert_of_ne _ hvv, h]
    simp [Ne.symm hvv]

theorem erase {k : K} {v : V} (hk : M.lookup k = some v) : (M.erase k).Inverse f (N.erase v) :=
  fun v' w => by
    simp only [lookup_erase_eq_some hk]
    by_cases hvv : v' = v
    · rw [hvv, Finmap.lookup_erase]
      simp
    · rw [Finmap.lookup_erase_ne hvv, h]
      simp [hvv]

/-- **Counted by values.** -/
theorem card_eq : M.card = N.keys.card := by
  refine Finset.card_bij (fun k hk => (mem_keys.mp hk).choose) (fun k hk => ?_)
    (fun a ha b hb heq => ?_)
    fun v hv => ?_
  · rw [Finmap.mem_keys, ← Finmap.lookup_isSome, h.isSome_iff]
    exact ⟨k, (mem_keys.mp hk).choose_spec⟩
  · exact eq_of_lookup (mem_keys.mp ha).choose_spec (heq ▸ (mem_keys.mp hb).choose_spec)
  · rw [Finmap.mem_keys, ← Finmap.lookup_isSome, h.isSome_iff] at hv
    obtain ⟨k, hk⟩ := hv
    refine ⟨k, mem_keys.mpr ⟨v, hk⟩, ?_⟩
    have hspec := (mem_keys.mp (mem_keys.mpr ⟨v, hk⟩)).choose_spec
    exact Option.some.inj (hspec.symm.trans hk)

end Inverse

end OneToOne
