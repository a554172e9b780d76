import Mathlib.Data.List.NodupEquivFin
import Ordbk.Utils.PoolThreads

/-!
# Theorems/LockedPool — one pool for all threads

The steps of `acquire` and `release` under `mu_` add up to those of a pool used by one thread, so
any number of threads may share it (`linear_of_trace`): a slot is on the stack or in one thread's
hands, no index leaves the array, and `acquire` fails only when every slot is out.
-/

namespace Ordbk

/-- A pool, and who has which of its slots. -/
structure PoolHands where
  /-- The pool of one thread, -/
  pool : Pool
  /-- and who holds which slot. -/
  hands : ℕ → List Slot

namespace PoolHands

/-- Nobody holds anything yet. -/
def new (capacity : ℕ) : PoolHands := ⟨Pool.new capacity, fun _ => []⟩

/-- **The calls, one at a time.** -/
def op (o : PoolHands) : PoolCall → PoolHands × Option Slot
  | .acquire t =>
    match o.pool.acquire with
    | none => (o, none)
    | some (a, pool) => (⟨pool, Function.update o.hands t (a :: o.hands t)⟩, some a)
  | .release t a => (⟨o.pool.release a, Function.update o.hands t ((o.hands t).erase a)⟩, none)
  | .write _ a value =>
    ({ o with pool.storage := Function.update o.pool.storage a value }, none)
  | .give t t' a => ({ o with hands := PoolMemory.given o.hands t t' a }, none)

/-- **Every slot is in one place**: on the stack, or in the hands of one thread. -/
structure Kept (capacity : ℕ) (o : PoolHands) : Prop where
  /-- No slot is on the stack twice, -/
  free : o.pool.freeSlots.Nodup
  /-- nor twice in one holder's hands. -/
  own : ∀ t, (o.hands t).Nodup
  /-- A slot in somebody's hands is not on the stack, -/
  apart : ∀ t, ∀ a ∈ o.hands t, a ∉ o.pool.freeSlots
  /-- nor in anybody else's. -/
  alone : ∀ t t' a, a ∈ o.hands t → a ∈ o.hands t' → t = t'
  /-- And those are all the slots there are. -/
  somewhere : ∀ a, a < capacity ↔ a ∈ o.pool.freeSlots ∨ ∃ t, a ∈ o.hands t

variable {capacity : ℕ} {o : PoolHands} {t t' : ℕ} {a : Slot} {l : List Slot}

/-- At first all slots are on the stack. -/
theorem kept_new (capacity : ℕ) : (new capacity).Kept capacity where
  free := List.nodup_reverse.mpr List.nodup_range
  own _ := List.nodup_nil
  apart _ _ ha := by cases ha
  alone _ _ _ ha := by cases ha
  somewhere a := by simp [new, Pool.new]

/-- The stack fits into its array. -/
theorem Kept.length_le (h : o.Kept capacity) : o.pool.freeSlots.length ≤ capacity := by
  have hsub : o.pool.freeSlots ⊆ List.range capacity := fun a ha =>
    List.mem_range.mpr ((h.somewhere a).mpr (.inl ha))
  simpa using (h.free.subperm hsub).length_le

/-- There is room on the stack for a slot that is out. -/
theorem Kept.length_lt (h : o.Kept capacity) (ha : a ∈ o.hands t) :
    o.pool.freeSlots.length < capacity := by
  have hsub : a :: o.pool.freeSlots ⊆ List.range capacity :=
    List.cons_subset.mpr ⟨List.mem_range.mpr ((h.somewhere a).mpr (.inr ⟨t, ha⟩)), fun b hb =>
      List.mem_range.mpr ((h.somewhere b).mpr (.inl hb))⟩
  have hlen := ((List.nodup_cons.mpr ⟨h.apart t a ha, h.free⟩).subperm hsub).length_le
  rwa [List.length_range] at hlen

/-- A slot is handed out. -/
theorem Kept.acquire (h : o.Kept capacity) (hl : o.pool.freeSlots = a :: l) :
    Kept capacity ⟨{ o.pool with storage := Function.update o.pool.storage a {}, freeSlots := l },
      Function.update o.hands t (a :: o.hands t)⟩ := by
  have hfree := h.free
  rw [hl] at hfree
  obtain ⟨hnew, hnodup⟩ := List.nodup_cons.mp hfree
  have hout : ∀ t', a ∉ o.hands t' := fun t' ha => h.apart t' a ha (hl ▸ List.mem_cons_self ..)
  have hmem : ∀ t' b, b ∈ Function.update o.hands t (a :: o.hands t) t'
      ↔ (b = a ∧ t' = t) ∨ b ∈ o.hands t' := by
    intro t' b
    by_cases ht : t' = t
    · subst ht
      rw [Function.update_self, List.mem_cons]
      simp
    · rw [Function.update_of_ne ht]
      simp [ht]
  have hown : ∀ t', (Function.update o.hands t (a :: o.hands t) t').Nodup := by
    intro t'
    by_cases ht : t' = t
    · rw [ht, Function.update_self]
      exact List.nodup_cons.mpr ⟨hout t, h.own t⟩
    · rw [Function.update_of_ne ht]
      exact h.own t'
  refine ⟨hnodup, hown, fun t' b hb => ?_, fun t' t'' b hb hb' => ?_, fun b => ?_⟩
  · rcases (hmem t' b).mp hb with ⟨rfl, -⟩ | hb
    · exact hnew
    · exact fun hbl => h.apart t' b hb (hl ▸ List.mem_cons_of_mem _ hbl)
  · rcases (hmem t' b).mp hb with ⟨rfl, rfl⟩ | hb₁ <;>
      rcases (hmem t'' b).mp hb' with ⟨h₁, h₂⟩ | hb₂
    · exact h₂.symm
    · exact absurd hb₂ (hout t'')
    · exact absurd (h₁ ▸ hb₁) (hout t')
    · exact h.alone t' t'' b hb₁ hb₂
  · have hplace := h.somewhere b
    rw [hl, List.mem_cons] at hplace
    refine hplace.trans ?_
    simp only [hmem]
    constructor
    · rintro ((rfl | hb) | ⟨t', hb⟩)
      · exact .inr ⟨t, .inl ⟨rfl, rfl⟩⟩
      · exact .inl hb
      · exact .inr ⟨t', .inr hb⟩
    · rintro (hb | ⟨t', ⟨rfl, -⟩ | hb⟩)
      · exact .inl (.inr hb)
      · exact .inl (.inl rfl)
      · exact .inr ⟨t', hb⟩

/-- What is left when a slot goes out of a holder's hands. -/
theorem Kept.mem_erased (h : o.Kept capacity) (ha : a ∈ o.hands t) {b : Slot} :
    b ∈ Function.update o.hands t ((o.hands t).erase a) t' ↔ b ∈ o.hands t' ∧ b ≠ a := by
  by_cases ht : t' = t
  · subst ht
    rw [Function.update_self, (h.own t').mem_erase_iff, and_comm]
  · rw [Function.update_of_ne ht]
    refine ⟨fun hb => ⟨hb, ?_⟩, fun hb => hb.1⟩
    rintro rfl
    exact ht (h.alone _ _ _ hb ha)

/-- Handing a slot out of some hands doubles none. -/
theorem Kept.nodup_erased (h : o.Kept capacity) (t' : ℕ) :
    (Function.update o.hands t ((o.hands t).erase a) t').Nodup := by
  by_cases ht : t' = t
  · rw [ht, Function.update_self]
    exact (h.own t).erase a
  · rw [Function.update_of_ne ht]
    exact h.own t'

/-- A slot is given back. -/
theorem Kept.release (h : o.Kept capacity) (ha : a ∈ o.hands t) :
    Kept capacity ⟨o.pool.release a, Function.update o.hands t ((o.hands t).erase a)⟩ := by
  refine ⟨List.nodup_cons.mpr ⟨h.apart t a ha, h.free⟩, h.nodup_erased, fun t' b hb => ?_,
    fun t' t'' b hb hb' => ?_, fun b => ?_⟩
  · obtain ⟨hb, hne⟩ := (h.mem_erased ha).mp hb
    exact fun hfree => (List.mem_cons.mp hfree).elim hne (h.apart t' b hb)
  · exact h.alone t' t'' b ((h.mem_erased ha).mp hb).1 ((h.mem_erased ha).mp hb').1
  · refine (h.somewhere b).trans ?_
    simp only [h.mem_erased ha, Pool.freeSlots_release, List.mem_cons]
    by_cases hb : b = a
    · subst hb
      exact iff_of_true (.inr ⟨t, ha⟩) (.inl (.inl rfl))
    · simp only [hb, false_or, ne_eq, not_false_iff, and_true]

/-- Whose hands a slot is in when `a` has been given to `t'`. -/
theorem Kept.mem_given (h : o.Kept capacity) (ha : a ∈ o.hands t) {t'' : ℕ} {b : Slot} :
    b ∈ PoolMemory.given o.hands t t' a t''
      ↔ (b = a ∧ t'' = t') ∨ (b ∈ o.hands t'' ∧ b ≠ a) := by
  unfold PoolMemory.given
  by_cases ht : t'' = t'
  · subst ht
    rw [Function.update_self, List.mem_cons, h.mem_erased ha]
    simp
  · rw [Function.update_of_ne ht, h.mem_erased ha]
    simp [ht]

/-- A slot goes into other hands. -/
theorem Kept.give (h : o.Kept capacity) (ha : a ∈ o.hands t) (t' : ℕ) :
    Kept capacity { o with hands := PoolMemory.given o.hands t t' a } := by
  have hown : ∀ t'', (PoolMemory.given o.hands t t' a t'').Nodup := by
    intro t''
    unfold PoolMemory.given
    by_cases ht : t'' = t'
    · rw [ht, Function.update_self]
      exact List.nodup_cons.mpr ⟨fun hmem => ((h.mem_erased ha).mp hmem).2 rfl, h.nodup_erased t'⟩
    · rw [Function.update_of_ne ht]
      exact h.nodup_erased t''
  refine ⟨h.free, hown, fun t'' b hb => ?_, fun t₁ t₂ b hb₁ hb₂ => ?_, fun b => ?_⟩
  · rcases (h.mem_given ha).mp hb with ⟨rfl, -⟩ | ⟨hb, -⟩
    · exact h.apart t b ha
    · exact h.apart t'' b hb
  · rcases (h.mem_given ha).mp hb₁ with ⟨rfl, rfl⟩ | ⟨hb₁, hne⟩
    · exact ((h.mem_given ha).mp hb₂).elim (fun hb => hb.2.symm) fun hb => absurd rfl hb.2
    · exact ((h.mem_given ha).mp hb₂).elim (fun hb => absurd hb.1 hne) fun hb =>
        h.alone t₁ t₂ b hb₁ hb.1
  · refine (h.somewhere b).trans (or_congr_right ?_)
    simp only [h.mem_given ha]
    by_cases hb : b = a
    · subst hb
      exact iff_of_true ⟨t, ha⟩ ⟨t', .inl ⟨rfl, rfl⟩⟩
    · simp only [hb, false_and, false_or, ne_eq, not_false_iff, and_true]

/-- An order is written to. -/
theorem Kept.write (h : o.Kept capacity) (value : Order) :
    Kept capacity { o with pool.storage := Function.update o.pool.storage a value } :=
  ⟨h.free, h.own, h.apart, h.alone, h.somewhere⟩

end PoolHands

namespace PoolMemory

/-! ## The stack in memory

`free_slots_` is an array filled from the bottom, `stack_top_` its height. A call reads the height,
reads or writes one cell and writes the height, each a step of its own; `Underway` says how far it
has got. -/

/-- The array from the bottom up is the list from its end. -/
def Entries (f : ℕ → UInt32) : List Slot → Prop
  | [] => True
  | a :: l => (f l.length).toNat = a ∧ Entries f l

/-- A cell above the stack can be written. -/
theorem entries_update {f : ℕ → UInt32} {l : List Slot} (h : Entries f l) {k : ℕ}
    (hk : l.length ≤ k) (v : UInt32) : Entries (Function.update f k v) l := by
  induction l with
  | nil => trivial
  | cons a l ih =>
    rw [List.length_cons] at hk
    refine ⟨?_, ih h.2 (Nat.le_of_succ_le hk)⟩
    rw [Function.update_of_ne (by omega)]
    exact h.1

/-- An index fits its 32 bits. -/
theorem toNat_ofNat_of_lt {k : ℕ} (h : k < 2 ^ 32) : (UInt32.ofNat k).toNat = k :=
  UInt32.toNat_ofNat_of_lt' h

/-- The array as the constructor fills it. -/
theorem entries_new {capacity : ℕ} (hcap : capacity < 2 ^ 32) :
    Entries UInt32.ofNat (List.range capacity).reverse := by
  induction capacity with
  | zero => trivial
  | succ k ih =>
    rw [List.range_succ, List.reverse_append]
    refine ⟨?_, ih (Nat.lt_of_succ_lt hcap)⟩
    change (UInt32.ofNat (List.range k).reverse.length).toNat = k
    rw [List.length_reverse, List.length_range]
    exact toNat_ofNat_of_lt (Nat.lt_of_succ_lt hcap)

/-- **The stack is `l`**, and the orders are `storage`. -/
structure Holds (s : PoolMemory) (storage : Store) (l : List Slot) : Prop where
  /-- The orders are those of the pool, -/
  storage_eq : s.storage = storage
  /-- the height is that of its stack, -/
  top : s.stackTop.toNat = l.length
  /-- and the cells below hold its slots. -/
  entries : Entries s.freeSlots l

/-- What a call of the pool has done so far, for a pool in which it has not happened yet. -/
inductive Underway (s : PoolMemory) (o : PoolHands) : PoolCall → PoolPlace → Prop
  | testing {t : ℕ} : s.Holds o.pool.storage o.pool.freeSlots → Underway s o (.acquire t) .testing
  | empty {t : ℕ} : s.Holds o.pool.storage o.pool.freeSlots → o.pool.freeSlots = [] →
      Underway s o (.acquire t) (.returning none)
  | popping {t : ℕ} {a : Slot} {l : List Slot} : s.Holds o.pool.storage o.pool.freeSlots →
      o.pool.freeSlots = a :: l → Underway s o (.acquire t) .popping
  | reading {t : ℕ} {a : Slot} {l : List Slot} : s.Holds o.pool.storage l →
      o.pool.freeSlots = a :: l → (s.freeSlots l.length).toNat = a →
      Underway s o (.acquire t) (.reading s.stackTop)
  | zeroing {t : ℕ} {a : Slot} {l : List Slot} : s.Holds o.pool.storage l →
      o.pool.freeSlots = a :: l → Underway s o (.acquire t) (.zeroing a)
  | acquired {t : ℕ} {a : Slot} {l : List Slot} :
      s.Holds (Function.update o.pool.storage a {}) l → o.pool.freeSlots = a :: l →
      Underway s o (.acquire t) (.returning (some a))
  | raising {t : ℕ} {a : Slot} : s.Holds o.pool.storage o.pool.freeSlots →
      Underway s o (.release t a) .raising
  | storing {t : ℕ} {a : Slot} {top : UInt32} : s.storage = o.pool.storage →
      top.toNat = o.pool.freeSlots.length → s.stackTop.toNat = o.pool.freeSlots.length + 1 →
      Entries s.freeSlots o.pool.freeSlots → Underway s o (.release t a) (.storing top)
  | released {t : ℕ} {a : Slot} : s.Holds o.pool.storage (a :: o.pool.freeSlots) →
      Underway s o (.release t a) (.returning none)

/-- What is so at any time, inside and outside. -/
structure Common (capacity : ℕ) (s : PoolMemory) (o : PoolHands) : Prop where
  /-- The pool is in good order, -/
  kept : o.Kept capacity
  /-- and the hands are those of the threads. -/
  hands : s.hands = o.hands

/-- Who holds a slot, by the pool for one thread. -/
theorem Common.mem_hands {capacity t : ℕ} {s : PoolMemory} {o : PoolHands} {a : Slot}
    (h : Common capacity s o) (ha : a ∈ s.hands t) : a ∈ o.hands t := h.hands ▸ ha

/-- The memory between the calls. -/
def Between (capacity : ℕ) (s : PoolMemory) (o : PoolHands) : Prop :=
  Common capacity s o ∧ s.Holds o.pool.storage o.pool.freeSlots

/-- The memory in the middle of one. -/
def Within (capacity : ℕ) (c : PoolCall) (i : PoolPlace) (s : PoolMemory) (o : PoolHands) : Prop :=
  Common capacity s o ∧ s.Mine c ∧ Underway s o c i

variable {capacity : ℕ} {s s' : PoolMemory} {o : PoolHands} {c : PoolCall} {i i' : PoolPlace}
  {r : Option Slot}

/-- **A step inside.** -/
theorem within_micro (hcap : capacity < 2 ^ 32) (h : Within capacity c i s o)
    (hm : s.micro c i = (s', .inl i')) : Within capacity c i' s' o := by
  obtain ⟨hcommon, hmine, hmid⟩ := h
  cases hmid with
  | testing hholds =>
    obtain ⟨rfl, hi⟩ := Prod.mk.inj hm
    obtain rfl := Sum.inl.inj hi
    have htop := hholds.top
    split_ifs with hzero
    · have hnil : o.pool.freeSlots = [] := by
        rw [hzero] at htop
        exact List.length_eq_zero_iff.mp htop.symm
      exact ⟨hcommon, hmine, .empty hholds hnil⟩
    · obtain ⟨a, l, hl⟩ := List.exists_cons_of_ne_nil (l := o.pool.freeSlots) fun hnil => hzero (by
        rw [hnil] at htop
        exact UInt32.toNat_inj.mp htop)
      exact ⟨hcommon, hmine, .popping hholds hl⟩
  | empty => cases hm
  | @popping t a l hholds hl =>
    obtain ⟨rfl, hi⟩ := Prod.mk.inj hm
    obtain rfl := Sum.inl.inj hi
    have htop := hholds.top
    have hentries := hholds.entries
    rw [hl] at hentries
    rw [hl, List.length_cons] at htop
    have hdown : (s.stackTop - 1).toNat = l.length := by
      rw [UInt32.toNat_sub_of_le]
      · rw [htop]
        rfl
      · rw [UInt32.le_iff_toNat_le, htop]
        exact Nat.succ_le_succ (Nat.zero_le _)
    exact ⟨⟨hcommon.kept, hcommon.hands⟩, hmine,
      .reading ⟨hholds.storage_eq, hdown, hentries.2⟩ hl hentries.1⟩
  | @reading t a l hholds hl ha =>
    obtain ⟨rfl, hi⟩ := Prod.mk.inj hm
    obtain rfl := Sum.inl.inj hi
    rw [hholds.top, ha]
    exact ⟨hcommon, hmine, .zeroing hholds hl⟩
  | @zeroing t a l hholds hl =>
    obtain ⟨rfl, hi⟩ := Prod.mk.inj hm
    obtain rfl := Sum.inl.inj hi
    refine ⟨⟨hcommon.kept, hcommon.hands⟩, hmine, .acquired ⟨?_, hholds.top, hholds.entries⟩ hl⟩
    exact congrArg (Function.update · a _) hholds.storage_eq
  | acquired => cases hm
  | @raising t a hholds =>
    obtain ⟨rfl, hi⟩ := Prod.mk.inj hm
    obtain rfl := Sum.inl.inj hi
    have hroom := hcommon.kept.length_lt (hcommon.mem_hands hmine)
    have hup : (s.stackTop + 1).toNat = o.pool.freeSlots.length + 1 := by
      rw [UInt32.toNat_add, hholds.top]
      exact Nat.mod_eq_of_lt (lt_of_le_of_lt hroom hcap)
    exact ⟨⟨hcommon.kept, hcommon.hands⟩, hmine,
      .storing hholds.storage_eq hholds.top hup hholds.entries⟩
  | @storing t a top hstorage htop hup hentries =>
    obtain ⟨rfl, hi⟩ := Prod.mk.inj hm
    obtain rfl := Sum.inl.inj hi
    refine ⟨⟨hcommon.kept, hcommon.hands⟩, hmine, .released ⟨hstorage, hup, ?_, ?_⟩⟩
    · have hlt : a < 2 ^ 32 := by
        have ha : a < capacity := (hcommon.kept.somewhere a).mpr (.inr ⟨t, hcommon.mem_hands hmine⟩)
        exact ha.trans hcap
      change (Function.update s.freeSlots top.toNat (UInt32.ofNat a) _).toNat = a
      rw [← htop, Function.update_self, toNat_ofNat_of_lt hlt]
    · exact entries_update hentries htop.ge _
  | released => cases hm

/-- **The last step**: the call has happened. -/
theorem between_micro (h : Within capacity c i s o) (hm : s.micro c i = (s', .inr r)) :
    r = (o.op c).2 ∧ Between capacity s' (o.op c).1 := by
  obtain ⟨hcommon, hmine, hmid⟩ := h
  cases hmid with
  | testing | popping | reading | zeroing | raising | storing => cases hm
  | @empty t hholds hnil =>
    obtain ⟨rfl, hr⟩ := Prod.mk.inj hm
    obtain rfl := Sum.inr.inj hr
    have hop : o.op (.acquire t) = (o, none) := by
      simp only [PoolHands.op, Pool.acquire, hnil]
    rw [hop]
    exact ⟨rfl, ⟨hcommon.kept, hcommon.hands⟩, hholds⟩
  | @acquired t a l hholds hl =>
    obtain ⟨rfl, hr⟩ := Prod.mk.inj hm
    obtain rfl := Sum.inr.inj hr
    have hop : o.op (.acquire t) = (⟨{ o.pool with
        storage := Function.update o.pool.storage a {}, freeSlots := l },
        Function.update o.hands t (a :: o.hands t)⟩, some a) := by
      simp only [PoolHands.op, Pool.acquire, hl]
    rw [hop]
    refine ⟨rfl, ⟨hcommon.kept.acquire hl, ?_⟩, hholds.storage_eq, hholds.top, hholds.entries⟩
    exact congrArg (fun hands => Function.update hands t (a :: hands t)) hcommon.hands
  | @released t a hholds =>
    obtain ⟨rfl, hr⟩ := Prod.mk.inj hm
    obtain rfl := Sum.inr.inj hr
    refine ⟨rfl, ⟨hcommon.kept.release (hcommon.mem_hands hmine), ?_⟩, hholds.storage_eq,
      hholds.top, hholds.entries⟩
    exact congrArg (fun hands => Function.update hands t ((hands t).erase a)) hcommon.hands

/-- **Writing to an order in one's hands** is not seen by who is inside. -/
theorem within_write {t : ℕ} {a : Slot} (h : Within capacity c i s o) (ha : a ∈ s.hands t)
    (value : Order) :
    Within capacity c i { s with storage := Function.update s.storage a value }
      (o.op (.write t a value)).1 := by
  obtain ⟨hcommon, hmine, hmid⟩ := h
  have hholds : ∀ {storage l}, s.Holds storage l →
      Holds { s with storage := Function.update s.storage a value }
        (Function.update storage a value) l := fun hh =>
    ⟨congrArg (Function.update · a value) hh.storage_eq, hh.top, hh.entries⟩
  have hmine' : Mine { s with storage := Function.update s.storage a value } c := by
    cases c with
    | acquire t => trivial
    | release t b => exact hmine
    | write t b v => exact hmine.elim
    | give t t' b => exact hmine.elim
  refine ⟨⟨hcommon.kept.write value, hcommon.hands⟩, hmine', ?_⟩
  cases hmid with
  | testing hh => exact .testing (hholds hh)
  | empty hh hnil => exact .empty (hholds hh) hnil
  | popping hh hl => exact .popping (hholds hh) hl
  | reading hh hl hentry => exact .reading (hholds hh) hl hentry
  | zeroing hh hl => exact .zeroing (hholds hh) hl
  | @acquired t' b l hh hl =>
    have hne : b ≠ a := by
      rintro rfl
      exact hcommon.kept.apart t b (hcommon.mem_hands ha) (hl ▸ List.mem_cons_self ..)
    have hcomm := hholds hh
    rw [Function.update_comm hne] at hcomm
    exact .acquired hcomm hl
  | raising hh => exact .raising (hholds hh)
  | storing hstorage htop hup hentries =>
    exact .storing (congrArg (Function.update · a value) hstorage) htop hup hentries
  | released hh => exact .released (hholds hh)

/-- Giving a slot away leaves what the others have in hand. -/
theorem mine_given {t t' : ℕ} (hne : caller c ≠ t) (h : s.Mine c) (a : Slot) :
    Mine { s with hands := given s.hands t t' a } c := by
  cases c with
  | acquire t₁ => trivial
  | write t₁ b v => exact h.elim
  | give t₁ t₂ b => exact h.elim
  | release t₁ b =>
    change b ∈ given s.hands t t' a t₁
    have hsame : Function.update s.hands t ((s.hands t).erase a) t₁ = s.hands t₁ :=
      Function.update_of_ne hne ..
    unfold given
    by_cases ht : t₁ = t'
    · subst ht
      rw [Function.update_self, hsame]
      exact List.mem_cons_of_mem _ h
    · rw [Function.update_of_ne ht, hsame]
      exact h

/-- **Giving a slot away** is not seen by who is inside. -/
theorem within_give {t t' : ℕ} {a : Slot} (h : Within capacity c i s o) (hne : caller c ≠ t)
    (ha : a ∈ s.hands t) :
    Within capacity c i { s with hands := given s.hands t t' a } (o.op (.give t t' a)).1 := by
  obtain ⟨hcommon, hmine, hmid⟩ := h
  have hholds : ∀ {storage l}, s.Holds storage l →
      Holds { s with hands := given s.hands t t' a } storage l := fun hh =>
    ⟨hh.storage_eq, hh.top, hh.entries⟩
  refine ⟨⟨hcommon.kept.give (hcommon.mem_hands ha) t', ?_⟩, mine_given hne hmine a, ?_⟩
  · exact congrArg (fun hands => given hands t t' a) hcommon.hands
  cases hmid with
  | testing hh => exact .testing (hholds hh)
  | empty hh hnil => exact .empty (hholds hh) hnil
  | popping hh hl => exact .popping (hholds hh) hl
  | reading hh hl hentry => exact .reading (hholds hh) hl hentry
  | zeroing hh hl => exact .zeroing (hholds hh) hl
  | acquired hh hl => exact .acquired (hholds hh) hl
  | raising hh => exact .raising (hholds hh)
  | storing hstorage htop hup hentries => exact .storing hstorage htop hup hentries
  | released hh => exact .released (hholds hh)

/-- A call changes what its own thread has in hand, and nobody else's. -/
theorem mine_micro {c' : PoolCall} (hne : caller c' ≠ caller c) (h : s.Mine c')
    (i : PoolPlace) : (s.micro c i).1.Mine c' := by
  cases c' with
  | acquire t => trivial
  | write t a v => exact h.elim
  | give t t' a => exact h.elim
  | release t a =>
    have hhands : (s.micro c i).1.hands t = s.hands t := by
      cases i with
      | returning r =>
        change s.handed c r t = s.hands t
        cases c with
        | acquire t' =>
          cases r with
          | none => rfl
          | some b => exact Function.update_of_ne hne ..
        | release t' b => exact Function.update_of_ne hne ..
        | write t' b v => rfl
        | give t' t'' b => rfl
      | storing top => cases c <;> rfl
      | testing | popping | reading _ | zeroing _ | raising => rfl
    change a ∈ (s.micro c i).1.hands t
    rw [hhands]
    exact h

/-- **The steps add up.** -/
theorem implements (hcap : capacity < 2 ^ 32) :
    calls.Implements PoolHands.op Mine Owns (Between capacity)
      (Within capacity) where
  enter s o c h hmine := by
    cases c with
    | acquire t => exact ⟨h.1, hmine, .testing h.2⟩
    | release t a => exact ⟨h.1, hmine, .raising h.2⟩
    | write t a v => exact hmine.elim
    | give t t' a => exact hmine.elim
  inside s o c i s' i' h hm := within_micro hcap h hm
  leave s o c i s' r h hm := between_micro h hm
  keeps s o c i c' h hne hmine := mine_micro hne hmine i
  direct s o c s' r h hown hm := by
    cases c with
    | acquire t => exact hown.elim
    | release t a => exact hown.elim
    | write t a v =>
      obtain ⟨rfl, rfl⟩ := Prod.mk.inj (Option.some.inj hm)
      refine ⟨rfl, ⟨h.1.kept.write v, h.1.hands⟩, ?_, h.2.top, h.2.entries⟩
      exact congrArg (Function.update · a v) h.2.storage_eq
    | give t t' a =>
      obtain ⟨rfl, rfl⟩ := Prod.mk.inj (Option.some.inj hm)
      refine ⟨rfl, ⟨h.1.kept.give (h.1.mem_hands hown) t', ?_⟩, h.2.storage_eq,
        h.2.top, h.2.entries⟩
      exact congrArg (fun hands => given hands t t' a) h.1.hands
  beside s o c i c' s' r h hne hown hm := by
    cases c' with
    | acquire t => exact hown.elim
    | release t a => exact hown.elim
    | write t a v =>
      obtain ⟨rfl, rfl⟩ := Prod.mk.inj (Option.some.inj hm)
      exact ⟨rfl, within_write h hown v⟩
    | give t t' a =>
      obtain ⟨rfl, rfl⟩ := Prod.mk.inj (Option.some.inj hm)
      exact ⟨rfl, within_give h (Ne.symm hne) hown⟩
  directKeeps s c c' s' r hne hown hmine hm := by
    cases c with
    | acquire t => exact hown.elim
    | release t a => exact hown.elim
    | write t a v =>
      obtain ⟨rfl, rfl⟩ := Prod.mk.inj (Option.some.inj hm)
      cases c' with
      | acquire t => trivial
      | release t b => exact hmine
      | write t b v => exact hmine
      | give t t' b => exact hmine
    | give t t' a =>
      obtain ⟨rfl, rfl⟩ := Prod.mk.inj (Option.some.inj hm)
      exact mine_given hne hmine a

/-! ## The result

Read off the memory itself, in every state of a run, in the middle of a call or not. -/

open Guarded in
/-- **What threads can rely on.** -/
structure Safe (capacity : ℕ) (x : Locked PoolMemory PoolCall PoolPlace) : Prop where
  /-- One thread at a time is between `lock` and `unlock`. -/
  exclusive : ∀ t t' c c' i i', x.threads t = .inside c i → x.threads t' = .inside c' i' → t = t'
  /-- The array is read and written within its bounds. -/
  bounds : ∀ t c top, x.threads t = .inside c (.reading top)
    ∨ x.threads t = .inside c (.storing top) →
    top.toNat < capacity
  /-- An order that is reset is in nobody's hands. -/
  reset : ∀ t c a, x.threads t = .inside c (.zeroing a) → a < capacity ∧ ∀ t', a ∉ x.shared.hands t'
  /-- No slot is in two threads' hands. -/
  apart : ∀ t t' a, a ∈ x.shared.hands t → a ∈ x.shared.hands t' → t = t'
  /-- A call that fails does so with every slot out. -/
  exhausted : ∀ t t', x.threads t = .inside (.acquire t') (.returning none) →
    ∀ a < capacity, ∃ t'', a ∈ x.shared.hands t''

variable {x : Guarded.Locked PoolMemory PoolCall PoolPlace}

/-- Whoever is inside tells what there is in the pool. -/
theorem safe_of_inv
    (h : Guarded.Locked.Inv calls Mine (Between capacity) (Within capacity) x o)
    (hcommon : Common capacity x.shared o) : Safe capacity x where
  exclusive t t' c c' i i' ht ht' := h.unique ht ht'
  bounds t c top ht := by
    rcases ht with ht | ht
    · obtain ⟨-, -, hcommon, -, hmid⟩ := h.inside _ _ _ ht
      cases hmid with
      | @reading _ a l hholds hl _ =>
        have hlen := hcommon.kept.length_le
        rw [hl, List.length_cons] at hlen
        exact lt_of_eq_of_lt hholds.top hlen
    · obtain ⟨-, -, hcommon, hmine, hmid⟩ := h.inside _ _ _ ht
      cases hmid with
      | storing _ htop _ _ =>
        exact lt_of_eq_of_lt htop (hcommon.kept.length_lt (hcommon.mem_hands hmine))
  reset t c a ht := by
    obtain ⟨-, -, hcommon, -, hmid⟩ := h.inside _ _ _ ht
    cases hmid with
    | @zeroing _ _ l hholds hl =>
      have hfree : a ∈ o.pool.freeSlots := hl ▸ List.mem_cons_self ..
      exact ⟨(hcommon.kept.somewhere a).mpr (.inl hfree), fun t' ha =>
        hcommon.kept.apart t' a (hcommon.mem_hands ha) hfree⟩
  apart t t' a ha ha' := hcommon.kept.alone t t' a (hcommon.mem_hands ha) (hcommon.mem_hands ha')
  exhausted t t' ht a ha := by
    obtain ⟨-, -, -, -, hmid⟩ := h.inside _ _ _ ht
    cases hmid with
    | empty _ hnil =>
      rw [hcommon.hands]
      refine ((hcommon.kept.somewhere a).mp ha).resolve_left ?_
      rw [hnil]
      exact List.not_mem_nil

/-- Inside or between the calls. -/
theorem common_of_inv
    (h : Guarded.Locked.Inv calls Mine (Between capacity) (Within capacity) x o) :
    Common capacity x.shared o := by
  obtain howner | ⟨t, howner⟩ := Option.eq_none_or_eq_some x.owner
  · exact (h.free howner).1
  · obtain ⟨c, i, ht⟩ := h.owner t howner
    exact (h.inside t c i ht).2.2.1

open Guarded in
/-- **A pool for any number of threads.**  However their loads and stores interleave, the calls of
`acquire` and `release`, and the writes of threads to orders in their hands, whoever they have them
from, are a history of the pool used by one thread, in the order in which they unlock; and every
state on the way is safe. -/
theorem linear_of_trace {H : List (PoolCall × Option Slot)} (hcap : capacity ≤ 0xFFFFFFFE)
    (h : Trace (Locked.step calls) (Locked.Duty Mine Owns) (Locked.shown calls)
      { shared := new capacity } H x) :
    (∃ o, Legal PoolHands.op (PoolHands.new capacity) H o ∧ o.hands = x.shared.hands
        ∧ (x.owner = none → o.pool.storage = x.shared.storage
          ∧ o.pool.availableApprox = x.shared.stackTop.toNat))
      ∧ Safe capacity x := by
  have hlt : capacity < 2 ^ 32 := lt_of_le_of_lt hcap (by decide)
  have hstart : Between capacity (new capacity) (PoolHands.new capacity) := by
    refine ⟨⟨PoolHands.kept_new capacity, rfl⟩, rfl, ?_, entries_new hlt⟩
    change (UInt32.ofNat capacity).toNat = (List.range capacity).reverse.length
    rw [toNat_ofNat_of_lt hlt, List.length_reverse, List.length_range]
  obtain ⟨o, hlegal, hinv⟩ := Locked.legal_of_trace (implements hlt) hstart h
  have hcommon := common_of_inv hinv
  refine ⟨⟨o, hlegal, hcommon.hands.symm, fun hfree => ?_⟩, safe_of_inv hinv hcommon⟩
  exact ⟨(hinv.free hfree).2.storage_eq.symm, (hinv.free hfree).2.top.symm⟩

open Guarded in
/-- One thread writes to its order while another one acquires the last slot and a third one waits.
Then the order goes through a ring, holder 3, to the second thread, which releases it. -/
theorem linear_of_three : ∃ x : Locked PoolMemory PoolCall PoolPlace, ∃ H,
    Trace (Locked.step calls) (Locked.Duty Mine Owns) (Locked.shown calls) { shared := new 2 } H x
      ∧ H.map (·.2) = [some 1, none, some 0, none, none, none, none]
      ∧ x.shared.hands 0 = [] ∧ x.shared.hands 1 = [0] ∧ x.shared.stackTop = 1
      ∧ (∃ o, Legal PoolHands.op (PoolHands.new 2) H o ∧ o.hands = x.shared.hands
        ∧ (x.owner = none → o.pool.storage = x.shared.storage
          ∧ o.pool.availableApprox = x.shared.stackTop.toNat))
      ∧ Safe 2 x := by
  have hrun : (record (Locked.step calls) (Locked.Duty Mine Owns) (Locked.shown calls)
      { shared := new 2 }
      ([.call (.acquire 0), .lock 0, .step 0, .step 0, .step 0, .step 0, .step 0,
        .call (.acquire 1), .call (.acquire 2), .lock 1, .step 1, .step 1, .step 1,
        .direct (.write 0 1 { id := 7 }), .step 1, .step 1, .lock 2, .step 2, .step 2,
        .direct (.give 0 3 1), .direct (.give 3 1 1), .call (.release 1 1), .lock 1,
        .step 1, .step 1,
        .step 1] : List (Turn PoolCall))).map
      (fun r => decide (r.1.map (·.2) = [some 1, none, some 0, none, none, none, none]
        ∧ r.2.shared.hands 0 = [] ∧ r.2.shared.hands 1 = [0] ∧ r.2.shared.stackTop = 1))
      = some true := by decide +kernel
  obtain ⟨⟨H, x⟩, hx, hval⟩ := Option.map_eq_some_iff.mp hrun
  obtain ⟨hanswers, hfirst, hsecond, htop⟩ := of_decide_eq_true hval
  have htrace := Trace.of_record hx
  exact ⟨x, H, htrace, hanswers, hfirst, hsecond, htop, linear_of_trace (by decide) htrace⟩

end PoolMemory

end Ordbk
