import Ordbk.Refinement.Desk

/-!
# Theorems/Heap — many lists in one heap

The orders of all levels, of both sides and of every book, are cells of one heap, and an operation
on one level writes through pointers.  `Heap.Spells` says which sequence each of a family of levels
is, and that no two of them share a cell; an operation does to the sequence of its level what its
name says and leaves every other cell alone (`spells_apply`).  The levels of a book are such a
family (`Desk.spells_of_reach`).
-/

namespace Ordbk

namespace PriceLevel

variable {st : Store} {l : PriceLevel} {xs : List Slot}

/-- **Well linked**: head and tail are the ends of the sequence, and the two links of a cell are its
neighbours in it. -/
structure WellLinked (st : Store) (l : PriceLevel) (xs : List Slot) : Prop where
  /-- The head is the first, -/
  head : l.head = xs.head?
  /-- the tail the last, -/
  tail : l.tail = xs.getLast?
  /-- and a cell knows who stands on either side of it. -/
  links : ∀ ys a zs, xs = ys ++ a :: zs →
    (st a).levelPrev = ys.getLast? ∧ (st a).levelNext = zs.head?

theorem wellLinked_iff : WellLinked st l xs ↔ Holds st l xs := by
  rw [Holds, Dll.linked_iff]
  exact ⟨fun h => ⟨h.head, h.tail, h.links⟩, fun h => ⟨h.1, h.2.1, h.2.2⟩⟩

/-! ## The iterator

It follows `level_next` from the head. Every operation is then one on a level, with the cell it adds
or takes out. -/

/-- `begin()`. -/
def begin (l : PriceLevel) : Option Slot := l.head

/-- `operator++`; at `end()` the source dereferences null, here it stays. -/
def advance (st : Store) (cur : Option Slot) : Option Slot := cur.bind fun a => (st a).levelNext

/-- **The iterator after `k` steps** is at cell `k`, and at `end()` from the length on. -/
theorem Holds.iterate_advance (h : Holds st l xs) (k : ℕ) :
    (advance st)^[k] l.begin = xs[k]? := by
  induction k with
  | zero => rw [Function.iterate_zero_apply, begin, Dll.Linked.head_eq h, List.head?_eq_getElem?]
  | succ k ih =>
    rw [Function.iterate_succ_apply', ih, advance]
    rcases Nat.lt_or_ge k xs.length with hk | hk
    · have hcut : xs = xs.take k ++ xs[k] :: xs.drop (k + 1) := by
        rw [List.getElem_cons_drop, List.take_append_drop]
      obtain ⟨-, hn⟩ := (wellLinked_iff.mpr h).links _ _ _ hcut
      rw [List.getElem?_eq_getElem hk, Option.bind_some, hn, List.head?_drop]
    · rw [List.getElem?_eq_none hk, List.getElem?_eq_none (Nat.le_succ_of_le hk)]
      rfl

/-- The links of a cell taken out. -/
theorem links_erase (l : PriceLevel) (st : Store) (o : Slot) :
    ((l.erase st o).2 o).levelPrev = none
      ∧ ((l.erase st o).2 o).levelNext = none := by
  simp [erase, Store.setPrev, Store.setNext]

end PriceLevel

/-- The orders, and levels in them. -/
structure Heap (ι : Type) where
  /-- The cells, -/
  store : Store
  /-- and the levels they are linked into, or not. -/
  levels : ι → PriceLevel

namespace Heap

/-- An operation on one level. -/
inductive Op (ι : Type)
  | pushBack (i : ι) (o : Slot)
  | popFront (i : ι)
  | erase (i : ι) (o : Slot)

variable {ι : Type} [DecidableEq ι]

/-- The level and the store after one operation. -/
def put (h : Heap ι) (i : ι) (r : PriceLevel × Store) : Heap ι :=
  ⟨r.2, Function.update h.levels i r.1⟩

def apply (h : Heap ι) : Op ι → Heap ι
  | .pushBack i o => h.put i ((h.levels i).pushBack h.store o)
  | .popFront i => h.put i ((h.levels i).popFront h.store)
  | .erase i o => h.put i ((h.levels i).erase h.store o)

namespace Op

/-- The level operated on. -/
def level : Op ι → ι
  | pushBack i _ | popFront i | erase i _ => i

/-- When the operation may be called: a cell appended is in no list, one taken out is in this one.
-/
def Allowed (seqs : ι → List Slot) : Op ι → Prop
  | pushBack _ o => ∀ i, o ∉ seqs i
  | popFront i => seqs i ≠ []
  | erase i o => o ∈ seqs i

instance [Fintype ι] (seqs : ι → List Slot) : DecidablePred (Allowed seqs)
  | pushBack _ o => inferInstanceAs (Decidable (∀ i, o ∉ seqs i))
  | popFront i => inferInstanceAs (Decidable (seqs i ≠ []))
  | erase i o => inferInstanceAs (Decidable (o ∈ seqs i))

/-- What the operation makes of the sequence of its level. -/
def result (xs : List Slot) : Op ι → List Slot
  | pushBack _ o => xs ++ [o]
  | popFront _ => xs.tail
  | erase _ o => xs.erase o

/-- The cell that is taken out. -/
def removed (xs : List Slot) : Op ι → Option Slot
  | pushBack _ _ => none
  | popFront _ => xs.head?
  | erase _ o => some o

/-- The cell that is put in. -/
def added : Op ι → Option Slot
  | pushBack _ o => some o
  | _ => none

end Op

/-- **Which sequences the levels are**, and no two of them share a cell. -/
structure Spells (h : Heap ι) (seqs : ι → List Slot) : Prop where
  /-- Each level is its sequence, -/
  linked : ∀ i, (h.levels i).WellLinked h.store (seqs i)
  /-- and has its cells to itself. -/
  disjoint : ∀ i j, i ≠ j → (seqs i).Disjoint (seqs j)

/-- The sequences after an operation. -/
def after (seqs : ι → List Slot) (op : Op ι) : ι → List Slot :=
  Function.update seqs op.level (op.result (seqs op.level))

/-- **What an operation does.** -/
structure Does (h : Heap ι) (seqs : ι → List Slot) (op : Op ι) : Prop where
  /-- The sequences are what the operation makes of them. -/
  spells : (h.apply op).Spells (after seqs op)
  /-- What is taken out has its links reset. -/
  removed : ∀ a ∈ op.removed (seqs op.level),
    ((h.apply op).store a).levelPrev = none ∧ ((h.apply op).store a).levelNext = none
  /-- A cell of another level, or of none. -/
  others : ∀ a, a ∉ seqs op.level → op.added ≠ some a → (h.apply op).store a = h.store a
  /-- Nothing but links is written. -/
  data : (h.apply op).store.data = h.store.data
  /-- And iteration visits each sequence in order. -/
  iterates : ∀ i k, (PriceLevel.advance (h.apply op).store)^[k] ((h.apply op).levels i).begin
    = (after seqs op i)[k]?

variable {h : Heap ι} {seqs : ι → List Slot} {i : ι}

omit [DecidableEq ι] in
theorem Spells.holds (hs : h.Spells seqs) (i : ι) : (h.levels i).Holds h.store (seqs i) :=
  PriceLevel.wellLinked_iff.mp (hs.linked i)

/-- One level and the store are rewritten: it is enough to look at the cells of that level. -/
theorem Spells.put (hs : h.Spells seqs) {r : PriceLevel × Store} {xs : List Slot}
    (hr : r.1.Holds r.2 xs) (hkeep : ∀ j, j ≠ i → ∀ a ∈ seqs j, r.2 a = h.store a)
    (hdis : ∀ j, j ≠ i → xs.Disjoint (seqs j)) :
    (h.put i r).Spells (Function.update seqs i xs) := by
  refine ⟨fun j => PriceLevel.wellLinked_iff.mpr ?_, fun j k hjk => ?_⟩
  · change ((Function.update h.levels i r.1) j).Holds r.2 (Function.update seqs i xs j)
    by_cases hj : j = i
    · rw [hj, Function.update_self, Function.update_self]
      exact hr
    · rw [Function.update_of_ne hj, Function.update_of_ne hj]
      exact (hs.holds j).congr (hkeep j hj)
  · by_cases hj : j = i
    · have hk : k ≠ i := fun hk => hjk (hj.trans hk.symm)
      rw [hj, Function.update_self, Function.update_of_ne hk]
      exact hdis k hk
    · rw [Function.update_of_ne hj]
      by_cases hk : k = i
      · rw [hk, Function.update_self]
        exact (hdis j hj).symm
      · rw [Function.update_of_ne hk]
        exact hs.disjoint j k hjk

/-- The iterators of a spelled heap. -/
theorem Does.of_spells {op : Op ι} (hspells : (h.apply op).Spells (after seqs op))
    (hremoved : ∀ a ∈ op.removed (seqs op.level),
      ((h.apply op).store a).levelPrev = none ∧ ((h.apply op).store a).levelNext = none)
    (hothers : ∀ a, a ∉ seqs op.level → op.added ≠ some a → (h.apply op).store a = h.store a)
    (hdata : (h.apply op).store.data = h.store.data) : h.Does seqs op :=
  ⟨hspells, hremoved, hothers, hdata, fun i => (hspells.holds i).iterate_advance⟩

theorem Spells.pushBack (hs : h.Spells seqs) {o : Slot} (ho : ∀ j, o ∉ seqs j) :
    h.Does seqs (.pushBack i o) := by
  have hkeep : ∀ a, a ∉ seqs i → a ≠ o → ((h.levels i).pushBack h.store o).2 a = h.store a :=
    fun a ha hao => PriceLevel.pushBack_of_ne (hs.holds i) hao ha
  refine .of_spells (hs.put (PriceLevel.holds_pushBack (hs.holds i) (ho i)) ?_ ?_) nofun ?_
    PriceLevel.data_pushBack
  · intro j hj a ha
    exact hkeep a (hs.disjoint j i hj ha) fun hao => ho j (hao ▸ ha)
  · exact fun j hj => List.disjoint_append_left.mpr
      ⟨hs.disjoint i j hj.symm, List.singleton_disjoint.mpr (ho j)⟩
  · intro a ha hao
    exact hkeep a ha fun h => hao (congrArg some h.symm)

theorem Spells.erase (hs : h.Spells seqs) {o : Slot} (ho : o ∈ seqs i) :
    h.Does seqs (.erase i o) := by
  obtain ⟨xs, ys, hxy⟩ := List.append_of_mem ho
  have hholds : (h.levels i).Holds h.store (xs ++ o :: ys) := hxy ▸ hs.holds i
  have hkeep : ∀ a, a ∉ seqs i → ((h.levels i).erase h.store o).2 a = h.store a := fun a ha =>
    PriceLevel.erase_of_notMem hholds (hxy ▸ ha)
  have hcut : (seqs i).erase o = xs ++ ys := by
    have hnd := Dll.Linked.nodup hholds
    have hox : o ∉ xs := fun hx => List.disjoint_of_nodup_append hnd hx (List.mem_cons_self ..)
    rw [hxy, List.erase_append_right _ hox, List.erase_cons_head]
  refine .of_spells (hs.put ?_ ?_ ?_) ?_ (fun a ha _ => hkeep a ha)
    (PriceLevel.data_erase (l := h.levels i))
  · change PriceLevel.Holds _ _ ((seqs i).erase o)
    rw [hcut]
    exact PriceLevel.holds_erase hholds
  · exact fun j hj a ha => hkeep a (hs.disjoint j i hj ha)
  · exact fun j hj => List.disjoint_of_subset_left List.erase_subset (hs.disjoint i j hj.symm)
  · rintro a ha
    obtain rfl := Option.some.inj ha
    exact PriceLevel.links_erase (h.levels i) h.store _

/-- `pop_front` is `erase` of the head. -/
theorem apply_popFront (hs : h.Spells seqs) {o : Slot} {ys : List Slot} (hi : seqs i = o :: ys) :
    h.apply (.popFront i) = h.apply (.erase i o) := by
  have hholds : (h.levels i).Holds h.store (o :: ys) := hi ▸ hs.holds i
  change h.put i _ = h.put i _
  rw [PriceLevel.popFront_eq_erase hholds]

theorem Spells.popFront (hs : h.Spells seqs) (hne : seqs i ≠ []) : h.Does seqs (.popFront i) := by
  obtain ⟨o, ys, hi⟩ := List.exists_cons_of_ne_nil hne
  obtain ⟨hspells, hremoved, hothers, hdata, -⟩ := hs.erase (o := o) (i := i) (by simp [hi])
  have hresult : after seqs (.popFront i) = after seqs (.erase i o) := by
    simp [after, Op.level, Op.result, hi]
  rw [← apply_popFront hs hi] at hspells hremoved hothers hdata
  refine .of_spells (hresult ▸ hspells) (fun a ha => hremoved a ?_) hothers hdata
  change (seqs i).head? = some a at ha
  rw [hi] at ha
  exact ha

/-- **An operation on one of many lists.** -/
theorem spells_apply (hs : h.Spells seqs) {op : Op ι} (hop : op.Allowed seqs) : h.Does seqs op := by
  cases op with
  | pushBack i o => exact hs.pushBack hop
  | popFront i => exact hs.popFront hop
  | erase i o => exact hs.erase hop

/-! ## Many operations

Operations that are allowed, one after another, on any number of levels in the same storage. -/

/-- One operation, and what it makes of the sequences. -/
def step (x : Heap ι × (ι → List Slot)) (op : Op ι) : Option (Heap ι × (ι → List Slot)) :=
  some (x.1.apply op, after x.2 op)

/-- **Any run of allowed operations** leaves the lists well linked and apart. -/
theorem Spells.of_reach {x : Heap ι × (ι → List Slot)} (hs : h.Spells seqs)
    (hreach : Guarded.Reach step (fun x op => op.Allowed x.2) (h, seqs) x) : x.1.Spells x.2 := by
  refine hreach.invariant (I := fun x => x.1.Spells x.2) hs fun x op x' hx hop hstep => ?_
  obtain rfl := Option.some.inj hstep
  cases op with
  | pushBack i o => exact (hx.pushBack hop).spells
  | popFront i => exact (hx.popFront hop).spells
  | erase i o => exact (hx.erase hop).spells

/-- No lists yet. -/
def blank : Heap ι := ⟨fun _ => {}, fun _ => {}⟩

omit [DecidableEq ι] in
theorem spells_blank : (blank : Heap ι).Spells fun _ => [] where
  linked _ := PriceLevel.wellLinked_iff.mpr .nil
  disjoint _ _ _ := List.disjoint_nil_left _

/-- A cell is cut out of the middle of three, next to a list of one. -/
theorem spells_apply_of_middle : ∃ (h : Heap Bool) (seqs : Bool → List Slot), h.Spells seqs
    ∧ seqs true = [1, 2, 3] ∧ seqs false = [4] ∧ h.Does seqs (.erase true 2)
    ∧ after seqs (.erase true 2) true = [1, 3] := by
  have hrun : (Guarded.run step (fun x op => op.Allowed x.2) ((blank : Heap Bool), fun _ => [])
      [.pushBack true 1, .pushBack true 2, .pushBack false 4, .pushBack true 3]).map
      (fun x => decide (x.2 true = [1, 2, 3] ∧ x.2 false = [4])) = some true := by decide
  obtain ⟨⟨h, seqs⟩, hx, hseqs⟩ := Option.map_eq_some_iff.mp hrun
  obtain ⟨htrue, hfalse⟩ : seqs true = [1, 2, 3] ∧ seqs false = [4] := of_decide_eq_true hseqs
  have hs : h.Spells seqs := spells_blank.of_reach (Guarded.Reach.of_run hx)
  have hop : (Op.erase true 2).Allowed seqs := by
    change 2 ∈ seqs true
    rw [htrue]
    decide
  refine ⟨h, seqs, hs, htrue, hfalse, spells_apply hs hop, ?_⟩
  change Function.update seqs true ((seqs true).erase 2) true = _
  rw [Function.update_self, htrue]
  rfl

end Heap

/-! ## A book

The levels of both sides of a book are such a family, in every state of a run. -/

/-- The levels of a book, bids under `true`. -/
def OrderBook.heap (hb : OrderBook) (st : Store) : Heap (Bool × Price) :=
  ⟨st, fun x => (if x.1 then hb.bids.find? x.2 else hb.asks.find? x.2).getD {}⟩

/-- The orders of a queue book at one price. -/
def QueueBook.levelSlots (b : QueueBook) (x : Bool × Price) : List Slot :=
  (queueAt x.2 (if x.1 then b.bids else b.asks)).map (·.slot)

/-- **The levels of a book are well linked and apart.** -/
theorem BookRep.spells {st : Store} {hb : OrderBook} {b : QueueBook} (h : BookRep st hb b)
    (hnd : b.slots.Nodup) : (hb.heap st).Spells b.levelSlots := by
  refine ⟨fun ⟨side, p⟩ => PriceLevel.wellLinked_iff.mpr ?_,
    fun ⟨side, p⟩ ⟨side', q⟩ hne a ha ha' => ?_⟩
  · cases side
    · exact h.asks.holds_getD p
    · exact h.bids.holds_getD p
  · obtain ⟨e, he, rfl⟩ := List.mem_map.mp ha
    obtain ⟨f, hf, hfe⟩ := List.mem_map.mp ha'
    cases side <;> cases side'
    · have hpq : p ≠ q := fun hpq => hne (by rw [hpq])
      exact LevelsRep.slot_notMem_queueAt (BookRep.nodup_asks hnd) hpq ha ha'
    · exact BookRep.slot_ne_of_sides hnd (mem_queueAt.mp hf).1 (mem_queueAt.mp he).1 hfe
    · exact BookRep.slot_ne_of_sides hnd (mem_queueAt.mp he).1 (mem_queueAt.mp hf).1 hfe.symm
    · have hpq : p ≠ q := fun hpq => hne (by rw [hpq])
      exact LevelsRep.slot_notMem_queueAt (BookRep.nodup_bids hnd) hpq ha ha'

/-- Every book of every run of a matcher. -/
theorem Desk.spells_of_reach {d : Desk} {i : InstrumentId} {capacity : ℕ}
    (h : Guarded.Reach Desk.call (fun _ _ => True) (start i capacity) d) :
    ∃ seqs, (d.matcher.book.heap d.matcher.pool.storage).Spells seqs := by
  obtain ⟨b, hb, -⟩ := exists_inv (J := fun _ => True) trivial (fun _ _ _ _ _ _ _ _ => trivial) h
  exact ⟨_, hb.rep.spells hb.wf.nodup⟩

end Ordbk
