import Ordbk.Core.Types
import Ordbk.Lib.Dll

/-!
# Orderbook/PriceLevel — the intrusive list of one price level

`PriceLevel` keeps two pointers; everything else it needs is in the `levelPrev` / `levelNext` fields
of the orders themselves.  The orders live in a `Store`, so each operation returns the level *and*
the store it has rewritten, one assignment of the source at a time.

`Holds st l xs` says that the level is the sequence `xs`; the `holds_*` theorems are the `Lib/Dll`
surgeries at this store, and the `*_of_ne` theorems say which cells an operation leaves alone.
-/

namespace Ordbk

/-- The orders, by slot. -/
abbrev Store := Slot → Order

namespace Store

variable (st : Store) (p v : Option Slot) (a : Slot)

/-- `p->level_prev = v`, nothing at null. -/
def setPrev : Option Slot → Option Slot → Store
  | none, _ => st
  | some a, v => Function.update st a { st a with levelPrev := v }

/-- `p->level_next = v`, nothing at null. -/
def setNext : Option Slot → Option Slot → Store
  | none, _ => st
  | some a, v => Function.update st a { st a with levelNext := v }

/-- Assign data fields of one order, leaving its links. -/
def modify (f : OrderData → OrderData) : Store :=
  Function.update st a { st a with toOrderData := f (st a).toOrderData }

/-- The backward links, as a function. -/
def prevs : Slot → Option Slot := fun a => (st a).levelPrev

/-- The forward links, as a function. -/
def nexts : Slot → Option Slot := fun a => (st a).levelNext

/-- The orders without their links. -/
def data : Slot → OrderData := fun a => (st a).toOrderData

@[simp] theorem prevs_setPrev : (st.setPrev p v).prevs = Dll.setAt st.prevs p v := by
  cases p with
  | none => rfl
  | some a =>
    funext b
    by_cases h : b = a <;> simp [setPrev, prevs, h]

@[simp] theorem nexts_setPrev : (st.setPrev p v).nexts = st.nexts := by
  cases p with
  | none => rfl
  | some a =>
    funext b
    by_cases h : b = a <;> simp [setPrev, nexts, h]

@[simp] theorem data_setPrev : (st.setPrev p v).data = st.data := by
  cases p with
  | none => rfl
  | some a =>
    funext b
    by_cases h : b = a <;> simp [setPrev, data, h]

@[simp] theorem nexts_setNext : (st.setNext p v).nexts = Dll.setAt st.nexts p v := by
  cases p with
  | none => rfl
  | some a =>
    funext b
    by_cases h : b = a <;> simp [setNext, nexts, h]

@[simp] theorem prevs_setNext : (st.setNext p v).prevs = st.prevs := by
  cases p with
  | none => rfl
  | some a =>
    funext b
    by_cases h : b = a <;> simp [setNext, prevs, h]

@[simp] theorem data_setNext : (st.setNext p v).data = st.data := by
  cases p with
  | none => rfl
  | some a =>
    funext b
    by_cases h : b = a <;> simp [setNext, data, h]

@[simp] theorem prevs_modify (f : OrderData → OrderData) : (st.modify a f).prevs = st.prevs := by
  funext b
  by_cases h : b = a <;> simp [modify, prevs, h]

@[simp] theorem nexts_modify (f : OrderData → OrderData) : (st.modify a f).nexts = st.nexts := by
  funext b
  by_cases h : b = a <;> simp [modify, nexts, h]

@[simp] theorem data_modify (f : OrderData → OrderData) :
    (st.modify a f).data = Function.update st.data a (f (st.data a)) := by
  funext b
  by_cases h : b = a <;> simp [modify, data, h]

/-- Two assignments to one order are one. -/
theorem modify_modify (f g : OrderData → OrderData) :
    (st.modify a f).modify a g = st.modify a (g ∘ f) := by
  funext b
  by_cases h : b = a
  · subst h
    simp [modify]
  · simp [modify, h]

variable {st p v a} {b : Slot}

/-- A cell the pointer does not name is not written. -/
theorem setPrev_of_ne (h : p ≠ some b) : st.setPrev p v b = st b := by
  cases p with
  | none => rfl
  | some a => exact Function.update_of_ne (fun hba => h (congrArg some hba.symm)) _ _

theorem setNext_of_ne (h : p ≠ some b) : st.setNext p v b = st b := by
  cases p with
  | none => rfl
  | some a => exact Function.update_of_ne (fun hba => h (congrArg some hba.symm)) _ _

theorem modify_of_ne {f : OrderData → OrderData} (h : b ≠ a) : st.modify a f b = st b :=
  Function.update_of_ne h _ _

/-- Two stores agreeing on a cell agree on its links and its data. -/
theorem prevs_congr {st' : Store} (h : st' a = st a) : st'.prevs a = st.prevs a :=
  congrArg (·.levelPrev) h

theorem nexts_congr {st' : Store} (h : st' a = st a) : st'.nexts a = st.nexts a :=
  congrArg (·.levelNext) h

theorem data_congr {st' : Store} (h : st' a = st a) : st'.data a = st.data a :=
  congrArg (·.toOrderData) h

end Store

/-- The two ends of the list of orders at one price. -/
structure PriceLevel where
  /-- The first to trade. -/
  head : Option Slot := none
  /-- The last to have come. -/
  tail : Option Slot := none
  deriving DecidableEq, Repr

namespace PriceLevel

def empty (l : PriceLevel) : Bool := l.head.isNone

def front (l : PriceLevel) : Option Slot := l.head

def pushBack (l : PriceLevel) (st : Store) (o : Slot) : PriceLevel × Store :=
  let st := st.setPrev (some o) l.tail
  let st := st.setNext (some o) none
  let st := st.setNext l.tail (some o)
  ({ head := if l.tail.isSome then l.head else some o, tail := some o }, st)

def popFront (l : PriceLevel) (st : Store) : PriceLevel × Store :=
  match l.head with
  | none => (l, st) -- the source dereferences null here; a level in a book is never empty
  | some o =>
    let head := (st o).levelNext
    let st := st.setPrev head none
    let tail := if head.isSome then l.tail else none
    let st := (st.setNext (some o) none).setPrev (some o) none
    ({ head := head, tail := tail }, st)

def erase (l : PriceLevel) (st : Store) (o : Slot) : PriceLevel × Store :=
  let head := if (st o).levelPrev.isSome then l.head else (st o).levelNext
  let st := st.setNext (st o).levelPrev (st o).levelNext
  let tail := if (st o).levelNext.isSome then l.tail else (st o).levelPrev
  let st := st.setPrev (st o).levelNext (st o).levelPrev
  let st := (st.setNext (some o) none).setPrev (some o) none
  ({ head := head, tail := tail }, st)

/-- The range-`for` over a level: the orders met from `begin()` along `level_next`.  `fuel` bounds
the walk; `slots_eq` shows that any bound above the length gives the whole level. -/
def slots (l : PriceLevel) (st : Store) (fuel : ℕ) : List Slot := Dll.walk st.nexts fuel l.head

/-- **The level is the sequence `xs`** in this store. -/
def Holds (st : Store) (l : PriceLevel) (xs : List Slot) : Prop :=
  Dll.Linked st.prevs st.nexts l.head l.tail xs

variable {st st' : Store} {l : PriceLevel} {xs ys : List Slot} {o a : Slot}

theorem Holds.nil : Holds st {} [] := Dll.Linked.nil

theorem Holds.empty_iff (h : Holds st l xs) : l.empty = true ↔ xs = [] := by
  rw [empty, Option.isNone_iff_eq_none, Dll.Linked.head_isNone h]

theorem Holds.front_eq (h : Holds st l xs) : l.front = xs.head? := h.head_eq

/-- **Separation**: a level is untouched by writes to cells it does not hold. -/
theorem Holds.congr (h : Holds st l xs) (hst : ∀ a ∈ xs, st' a = st a) : Holds st' l xs :=
  Dll.Linked.congr h (fun a ha => Store.prevs_congr (hst a ha))
    fun a ha => Store.nexts_congr (hst a ha)

/-- Assigning data fields moves no link. -/
theorem Holds.modify (h : Holds st l xs) (a : Slot) (f : OrderData → OrderData) :
    Holds (st.modify a f) l xs := by simpa [Holds] using h

/-- **Iteration terminates and visits exactly the sequence.** -/
theorem Holds.slots_eq (h : Holds st l xs) {fuel : ℕ} (hf : xs.length < fuel) :
    l.slots st fuel = xs := Dll.Linked.walk_eq h hf

/-! ## `push_back`

The last order and the new one point to each other. -/

theorem holds_pushBack (h : Holds st l xs) (ho : o ∉ xs) :
    Holds (l.pushBack st o).2 (l.pushBack st o).1 (xs ++ [o]) := by
  simpa [Holds, pushBack] using Dll.Linked.pushBack h ho

@[simp] theorem data_pushBack : (l.pushBack st o).2.data = st.data := by simp [pushBack]

/-- Appending writes only the new cell and the old last one. -/
theorem pushBack_of_ne (h : Holds st l xs) (hao : a ≠ o) (ha : a ∉ xs) :
    (l.pushBack st o).2 a = st a := by
  have htail : l.tail ≠ some a := fun ht =>
    ha (List.mem_of_getLast? ((Dll.Linked.tail_eq h).symm.trans ht))
  have hoa : (some o : Option Slot) ≠ some a := fun h => hao (Option.some.inj h).symm
  exact (Store.setNext_of_ne htail).trans
    ((Store.setNext_of_ne hoa).trans (Store.setPrev_of_ne hoa))

/-! ## `erase`

The neighbours are joined, or the ends of the level moved. -/

/-- `erase` of a cell of the list, with the cell's own links replaced by its neighbours. -/
theorem erase_eq (h : Holds st l (xs ++ o :: ys)) :
    l.erase st o
      = ({ head := if xs.getLast?.isSome then l.head else ys.head?
           tail := if ys.head?.isSome then l.tail else xs.getLast? },
        (((st.setNext xs.getLast? ys.head?).setPrev ys.head? xs.getLast?).setNext
          (some o) none).setPrev (some o) none) := by
  obtain ⟨hp, hn⟩ := Dll.Linked.links_eq h
  have hox : xs.getLast? ≠ some o := fun hx =>
    List.disjoint_of_nodup_append (Dll.Linked.nodup h) (List.mem_of_getLast? hx) (by simp)
  have hkeep : st.setNext xs.getLast? ys.head? o = st o := Store.setNext_of_ne hox
  change (st o).levelPrev = _ at hp
  change (st o).levelNext = _ at hn
  simp only [erase, hp, hn, hkeep]

theorem holds_erase (h : Holds st l (xs ++ o :: ys)) :
    Holds (l.erase st o).2 (l.erase st o).1 (xs ++ ys) := by
  rw [erase_eq h]
  simpa [Holds] using Dll.Linked.erase h

@[simp] theorem data_erase : (l.erase st o).2.data = st.data := by simp [erase]

/-- Cutting a cell out writes only cells of its own list. -/
theorem erase_of_notMem (h : Holds st l (xs ++ o :: ys)) (ha : a ∉ xs ++ o :: ys) :
    (l.erase st o).2 a = st a := by
  simp only [List.mem_append, List.mem_cons, not_or] at ha
  have hoa : (some o : Option Slot) ≠ some a := fun h => ha.2.1 (Option.some.inj h).symm
  have hx : xs.getLast? ≠ some a := fun hx => ha.1 (List.mem_of_getLast? hx)
  have hy : ys.head? ≠ some a := fun hy => ha.2.2 (List.mem_of_mem_head? hy)
  rw [erase_eq h]
  exact (Store.setPrev_of_ne hoa).trans ((Store.setNext_of_ne hoa).trans
    ((Store.setPrev_of_ne hy).trans (Store.setNext_of_ne hx)))

/-! ## `pop_front`

An `erase` of the first order that does not ask where it is. -/

/-- **`pop_front` is `erase` of the head.** -/
theorem popFront_eq_erase (h : Holds st l (o :: ys)) : l.popFront st = l.erase st o := by
  have hh : l.head = some o := Dll.Linked.head_eq h
  have h' : Holds st l ([] ++ o :: ys) := h
  have hn : (st o).levelNext = ys.head? := (Dll.Linked.links_eq h').2
  rw [erase_eq h', popFront, hh]
  simp only [hn]
  rfl

end PriceLevel

end Ordbk
