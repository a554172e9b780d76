import Ordbk.Lib.Mutex
import Ordbk.Utils.Pool

/-!
# Utils/PoolThreads — a pool used by many threads

The fields of `pool.hpp` as they are, and `acquire` and `release` in single loads and stores,
between the lock and the unlock of `mu_`.  `hands` is ghost: who answers for a slot that is out.
That is the thread `acquire` has returned it to, until that thread gives it to somebody else: a slot
acquired by one thread may well be released by another, as a `ShardedMatcher` does with its producer
and its workers.

The holders are numbered, and only some of them need be threads.  A ring or a book in which orders
wait is a holder too, one that calls nothing and only gives: a push gives the slot to the ring, and
a pop gives it to the worker.  Whoever has a slot in hand may write to the order in it at any time.
-/

namespace Ordbk

/-- The members of `Pool`. -/
structure PoolMemory where
  /-- `storage_.size()`. -/
  capacity : ℕ
  /-- `storage_`. -/
  storage : Store
  /-- `free_slots_`, all of its cells; those below `stack_top_` are on the stack. -/
  freeSlots : ℕ → UInt32
  /-- `stack_top_`. -/
  stackTop : UInt32
  /-- Whose the slots are that are out. -/
  hands : ℕ → List Slot

/-- A call by thread `t`; the last two are no calls of the pool. -/
inductive PoolCall
  | acquire (t : ℕ)
  | release (t : ℕ) (o : Slot)
  /-- `*o = value`. -/
  | write (t : ℕ) (o : Slot) (value : Order)
  /-- From now on `t'` answers for the slot. -/
  | give (t t' : ℕ) (o : Slot)

/-- Where a call of the pool is. -/
inductive PoolPlace
  /-- About to test `stack_top_ == 0`. -/
  | testing
  /-- About to decrement `stack_top_`. -/
  | popping
  /-- About to read `free_slots_[top]`. -/
  | reading (top : UInt32)
  /-- About to reset the order. -/
  | zeroing (o : Slot)
  /-- About to increment `stack_top_`. -/
  | raising
  /-- About to write `free_slots_[top]`. -/
  | storing (top : UInt32)
  /-- About to unlock and return. -/
  | returning (o : Option Slot)
  deriving DecidableEq, Repr

namespace PoolMemory

/-- `Pool(capacity)`. -/
def new (capacity : ℕ) : PoolMemory where
  capacity := capacity
  storage := fun _ => {}
  freeSlots := UInt32.ofNat
  stackTop := UInt32.ofNat capacity
  hands := fun _ => []

/-- Who calls. -/
def caller : PoolCall → ℕ
  | .acquire t => t
  | .release t _ => t
  | .write t _ _ => t
  | .give t _ _ => t

/-- Where a call begins. -/
def enter : PoolCall → PoolPlace
  | .acquire _ => .testing
  | .release _ _ => .raising
  | .write _ _ _ | .give _ _ _ => .returning none

/-- A slot goes from one holder to another. -/
def given (hands : ℕ → List Slot) (t t' : ℕ) (o : Slot) : ℕ → List Slot :=
  let hands := Function.update hands t ((hands t).erase o)
  Function.update hands t' (o :: hands t')

/-- What the threads have in hand when a call returns. -/
def handed (s : PoolMemory) : PoolCall → Option Slot → ℕ → List Slot
  | .acquire t, some o => Function.update s.hands t (o :: s.hands t)
  | .release t o, _ => Function.update s.hands t ((s.hands t).erase o)
  | _, _ => s.hands

/-- The next load or store of a call that has the lock. -/
def micro (s : PoolMemory) (c : PoolCall) : PoolPlace → PoolMemory × (PoolPlace ⊕ Option Slot)
  | .testing => (s, .inl (if s.stackTop = 0 then .returning none else .popping))
  | .popping => ({ s with stackTop := s.stackTop - 1 }, .inl (.reading (s.stackTop - 1)))
  | .reading top => (s, .inl (.zeroing (s.freeSlots top.toNat).toNat))
  | .zeroing o => ({ s with storage := Function.update s.storage o {} }, .inl (.returning (some o)))
  | .raising => ({ s with stackTop := s.stackTop + 1 }, .inl (.storing s.stackTop))
  | .storing top =>
    match c with
    | .release _ o =>
      ({ s with freeSlots := Function.update s.freeSlots top.toNat (UInt32.ofNat o) },
        .inl (.returning none))
    | _ => (s, .inl (.returning none))
  | .returning o => ({ s with hands := s.handed c o }, .inr o)

/-- Writing to an order takes no lock, and giving it away is not seen in memory. -/
def direct (s : PoolMemory) : PoolCall → Option (PoolMemory × Option Slot)
  | .write _ o value => some ({ s with storage := Function.update s.storage o value }, none)
  | .give t t' o => some ({ s with hands := given s.hands t t' o }, none)
  | _ => none

def calls : Guarded.Calls PoolMemory PoolCall PoolPlace (Option Slot) :=
  ⟨caller, enter, micro, direct⟩

/-- A thread releases what it has in hand. -/
def Mine (s : PoolMemory) : PoolCall → Prop
  | .acquire _ => True
  | .release t o => o ∈ s.hands t
  | .write _ _ _ | .give _ _ _ => False

/-- And it writes to, or gives away, nothing else. -/
def Owns (s : PoolMemory) : PoolCall → Prop
  | .write t o _ => o ∈ s.hands t
  | .give t _ o => o ∈ s.hands t
  | _ => False

instance (s : PoolMemory) : (c : PoolCall) → Decidable (s.Mine c)
  | .acquire _ => isTrue trivial
  | .release t o => inferInstanceAs (Decidable (o ∈ s.hands t))
  | .write _ _ _ | .give _ _ _ => isFalse id

instance (s : PoolMemory) : (c : PoolCall) → Decidable (s.Owns c)
  | .acquire _ | .release _ _ => isFalse id
  | .write t o _ => inferInstanceAs (Decidable (o ∈ s.hands t))
  | .give t _ o => inferInstanceAs (Decidable (o ∈ s.hands t))

end PoolMemory

end Ordbk
