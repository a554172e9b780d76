import Ordbk.Refinement.Custody
import Ordbk.Matching.Engine

/-!
# Refinement/Engine — many books, one pool

The engine's books under the custody rules: `EngineInv e pool q held` has one queue book per
instrument id, and each operation moves the queue book of its own instrument and nobody else's.
-/

namespace Ordbk

namespace Engine

/-- The books by instrument. -/
def books (e : Engine) : InstrumentId → Option OrderBook := fun i => e.matchers.lookup i

variable {e : Engine} {pool : Pool} {a : Slot} {i : InstrumentId} {hb : OrderBook}

/-- Without a book the order is rejected, and nothing else happens. -/
theorem submit_of_none (h : e.matchers.lookup (pool.storage.data a).instrument = none) :
    e.submit pool a = (e, pool.modify a fun o => o.withStatus .rejected, ⟨a, []⟩) := by
  have h' : e.matchers.lookup (pool.storage a).instrument = none := h
  simp only [submit, h']
  rfl

/-- With a book the matcher answers, on the one pool. -/
theorem submit_of_some (h : e.matchers.lookup (pool.storage.data a).instrument = some hb) :
    e.submit pool a
      = (⟨e.matchers.insert (pool.storage.data a).instrument (Matcher.submit ⟨hb, pool⟩ a).1.book,
          e.bookPtrs⟩, (Matcher.submit ⟨hb, pool⟩ a).1.pool, (Matcher.submit ⟨hb, pool⟩ a).2) := by
  have h' : e.matchers.lookup (pool.storage a).instrument = some hb := h
  simp only [submit, h']
  rfl

/-- A pointer to every book, and to nothing else: `Engine::book` finds the book. -/
theorem book_eq (h : e.bookPtrs.lookup i = if (e.matchers.lookup i).isSome then some i else none) :
    e.book i = e.books i := by
  unfold Engine.book books
  rw [h]
  cases hl : e.matchers.lookup i with
  | none => rfl
  | some hb => exact hl

/-- **A call about instrument `i`** changes the book of `i`, and brings or takes no book. -/
structure Touches (i : InstrumentId) (e e' : Engine) : Prop where
  /-- No other book is different. -/
  other : ∀ j, j ≠ i → e'.matchers.lookup j = e.matchers.lookup j
  /-- No book comes or goes. -/
  isSome : ∀ j, (e'.matchers.lookup j).isSome = (e.matchers.lookup j).isSome
  /-- The pointers stay. -/
  ptrs : e'.bookPtrs = e.bookPtrs

theorem Touches.refl (i : InstrumentId) (e : Engine) : Touches i e e :=
  ⟨fun _ _ => rfl, fun _ => rfl, rfl⟩

/-- Another book is put in the place of one that is there. -/
theorem Touches.insert (hi : e.matchers.lookup i = some hb) (hb' : OrderBook) :
    Touches i e { e with matchers := e.matchers.insert i hb' } := by
  refine ⟨fun j hj => Finmap.lookup_insert_of_ne _ hj, fun j => ?_, rfl⟩
  by_cases hj : j = i
  · rw [hj, hi, Finmap.lookup_insert]
    rfl
  · rw [Finmap.lookup_insert_of_ne _ hj]

/-- A submission touches the book of the order's instrument. -/
theorem touches_submit (e : Engine) (pool : Pool) (a : Slot) :
    Touches (pool.storage.data a).instrument e (e.submit pool a).1 := by
  cases hl : e.matchers.lookup (pool.storage.data a).instrument with
  | none =>
    rw [submit_of_none hl]
    exact .refl _ _
  | some hb =>
    rw [submit_of_some hl]
    exact .insert hl _

/-- A cancel touches the book it is about. -/
theorem touches_cancel (e : Engine) (pool : Pool) (i : InstrumentId) (id : OrderId) :
    Touches i e (e.cancel pool i id).1 := by
  unfold Engine.cancel
  cases hl : e.matchers.lookup i with
  | none => exact .refl _ _
  | some hb => exact .insert hl _

end Engine

/-- What `Engine::submit` does to the queue books: nothing without a book. -/
def submitOutcome (e : Engine) (q : InstrumentId → QueueBook) (a : Slot) (o : OrderData) :
    QueueBook.Outcome :=
  match e.matchers.lookup o.instrument with
  | none => ⟨q o.instrument, o.withStatus .rejected, [], []⟩
  | some _ => (q o.instrument).submit a o

/-- With a book it is the queue book's submission. -/
theorem submitOutcome_of_ne_none {e : Engine} {o : OrderData}
    (hb : e.matchers.lookup o.instrument ≠ none) (q : InstrumentId → QueueBook) (a : Slot) :
    submitOutcome e q a o = (q o.instrument).submit a o := by
  unfold submitOutcome
  cases hl : e.matchers.lookup o.instrument with
  | none => exact absurd hl hb
  | some _ => rfl

/-- Only the book of the instrument matters. -/
theorem submitOutcome_congr {q q' : InstrumentId → QueueBook} {o : OrderData}
    (h : q o.instrument = q' o.instrument) (e : Engine) (a : Slot) :
    submitOutcome e q a o = submitOutcome e q' a o := by
  unfold submitOutcome
  rw [h]

/-- A queue book stays its instrument's. -/
theorem instrument_submitOutcome (e : Engine) (q : InstrumentId → QueueBook) (a : Slot)
    (o : OrderData) : (submitOutcome e q a o).book.instrument = (q o.instrument).instrument := by
  unfold submitOutcome
  cases e.matchers.lookup o.instrument with
  | none => rfl
  | some hb => exact (q o.instrument).instrument_submit a o

/-- Neither at rest nor at an end. -/
def OrderData.leaks (o : OrderData) : Bool := !o.isTerminal && !o.rests

/-- What the callers of `Engine::submit` do with the slot: give it back if the order has ended. -/
def Engine.settle (e : Engine) (pool : Pool) (order : Slot) : Engine × Pool × MatchResult :=
  let (engine, pool, result) := e.submit pool order
  (engine, if (pool.storage result.order).isTerminal then pool.release result.order else pool,
    result)

/-- An order that has ended does not rest. -/
theorem rests_of_terminal {o : OrderData} (h : o.isTerminal = true) : o.rests = false := by
  rw [OrderData.rests, h, Bool.not_true, Bool.false_and]

/-- Giving the slot back does not write to it. -/
theorem Engine.storage_settle (e : Engine) (pool : Pool) (a : Slot) :
    (e.settle pool a).2.1.storage = (e.submit pool a).2.1.storage := by
  unfold Engine.settle
  simp only
  split_ifs <;> rfl

namespace Custody

/-! ## An engine among others

Several engines may serve one family of books; what each is asked about an instrument must be that
instrument's book. -/

variable {books : InstrumentId → Option OrderBook} {q : InstrumentId → QueueBook} {e : Engine}
  {pool : Pool} {held : List Slot} {a : Slot} {i : InstrumentId} {o : OrderData}

/-- **`Engine::submit`** routes to the matcher of the order's instrument. -/
theorem engineSubmit (h : Custody pool books q held)
    (he : e.matchers.lookup o.instrument = books o.instrument) (ha : a ∈ held)
    (hd : pool.storage.data a = o) (ho : o.Sound) :
    Custody (e.submit pool a).2.1
        (Function.update books o.instrument ((e.submit pool a).1.matchers.lookup o.instrument))
        (Function.update q o.instrument (submitOutcome e q a o).book)
        (if (submitOutcome e q a o).order.rests then held.erase a else held)
      ∧ (e.submit pool a).2.1.storage.data a = (submitOutcome e q a o).order
      ∧ (e.submit pool a).2.2 = ⟨a, (submitOutcome e q a o).trades⟩ := by
  subst hd
  unfold submitOutcome
  cases hl : e.matchers.lookup (pool.storage.data a).instrument with
  | none =>
    have hrests : ((pool.storage.data a).withStatus .rejected).rests = false :=
      rests_of_terminal rfl
    rw [Engine.submit_of_none hl]
    simp only [he, hrests, Bool.false_eq_true, if_false, Function.update_eq_self]
    refine ⟨h.repool rfl (List.Subperm.refl _) fun c hc => ?_, ?_, trivial⟩
    · rw [Pool.storage_modify]
      refine Store.modify_of_ne ?_
      rintro rfl
      exact hc (List.mem_append_right _ ha)
    · rw [Pool.storage_modify, Store.data_modify, Function.update_self]
  | some hb =>
    obtain ⟨-, hd', hr⟩ := h.submit_moves (he ▸ hl) ha rfl ho
    rw [Engine.submit_of_some hl]
    simp only [Finmap.lookup_insert]
    exact ⟨h.submit (he ▸ hl) ha rfl ho, hd', hr⟩

/-- A submission writes to no slot in hand but its own. -/
theorem storage_engineSubmit (h : Custody pool books q held)
    (he : e.matchers.lookup o.instrument = books o.instrument) (ha : a ∈ held)
    (hd : pool.storage.data a = o) (ho : o.Sound) {c : Slot} (hc : c ∈ held) (hne : c ≠ a) :
    (e.submit pool a).2.1.storage c = pool.storage c := by
  subst hd
  cases hl : e.matchers.lookup (pool.storage.data a).instrument with
  | none =>
    rw [Engine.submit_of_none hl]
    change Store.modify pool.storage a (·.withStatus .rejected) c = _
    exact Store.modify_of_ne hne
  | some hb =>
    obtain ⟨hm, -, -⟩ := h.submit_moves (he ▸ hl) ha rfl ho
    rw [Engine.submit_of_some hl]
    exact hm.frame c (by simpa using hne) (h.notMem_slots_of_held hc)

/-- A submission loses no slot. -/
theorem retains_engineSubmit (h : Custody pool books q held)
    (he : e.matchers.lookup o.instrument = books o.instrument) (ha : a ∈ held)
    (hd : pool.storage.data a = o) (ho : o.Sound) :
    Retains pool q held (e.submit pool a).2.1
      (Function.update q o.instrument (submitOutcome e q a o).book)
      (if (submitOutcome e q a o).order.rests then held.erase a else held) := by
  subst hd
  unfold submitOutcome
  cases hl : e.matchers.lookup (pool.storage.data a).instrument with
  | none =>
    have hrests : ((pool.storage.data a).withStatus .rejected).rests = false :=
      rests_of_terminal rfl
    rw [Engine.submit_of_none hl]
    simp only [hrests, Bool.false_eq_true, if_false, Function.update_eq_self]
    exact ⟨rfl, fun _ hc => hc⟩
  | some hb =>
    rw [Engine.submit_of_some hl]
    exact h.retains_submit (he ▸ hl) ha rfl ho

/-- **Submit and settle**: the slot is at rest, free again, or stays where it was. -/
theorem settle (h : Custody pool books q held)
    (he : e.matchers.lookup o.instrument = books o.instrument) (ha : a ∈ held)
    (hd : pool.storage.data a = o) (ho : o.Sound) :
    Custody (e.settle pool a).2.1
        (Function.update books o.instrument ((e.settle pool a).1.matchers.lookup o.instrument))
        (Function.update q o.instrument (submitOutcome e q a o).book)
        (if (submitOutcome e q a o).order.leaks then held else held.erase a)
      ∧ (e.settle pool a).2.1.storage.data a = (submitOutcome e q a o).order
      ∧ (e.settle pool a).2.2 = ⟨a, (submitOutcome e q a o).trades⟩
      ∧ (∀ c ∈ held, c ≠ a → (e.settle pool a).2.1.storage c = pool.storage c)
      ∧ Retains pool q held (e.settle pool a).2.1
          (Function.update q o.instrument (submitOutcome e q a o).book)
          (if (submitOutcome e q a o).order.leaks then held else held.erase a) := by
  obtain ⟨hcus, hdata, hres⟩ := h.engineSubmit he ha hd ho
  have hst := fun c => h.storage_engineSubmit he ha hd ho (c := c)
  have hown := h.retains_engineSubmit he ha hd ho
  unfold Engine.settle
  generalize e.submit pool a = r at hcus hdata hres hst hown ⊢
  obtain ⟨e', p, res⟩ := r
  obtain rfl : res = ⟨a, (submitOutcome e q a o).trades⟩ := hres
  have hterm : (p.storage a).isTerminal = (submitOutcome e q a o).order.isTerminal :=
    congrArg (·.isTerminal) hdata
  simp only [hterm]
  unfold OrderData.leaks
  cases ht : (submitOutcome e q a o).order.isTerminal with
  | false =>
    cases hr : (submitOutcome e q a o).order.rests with
    | false =>
      simp only [hr, Bool.false_eq_true, if_false] at hcus hown
      exact ⟨hcus, hdata, trivial, hst, hown⟩
    | true =>
      simp only [hr, if_true] at hcus hown
      exact ⟨hcus, hdata, trivial, hst, hown⟩
  | true =>
    have hr : (submitOutcome e q a o).order.rests = false := rests_of_terminal ht
    simp only [hr, Bool.false_eq_true, if_false] at hcus hown
    refine ⟨hcus.release ha, hdata, trivial, hst, hown.repool_right rfl fun x hx => ?_⟩
    have hback := (List.perm_cons_erase ha).symm.append_left
    exact (List.perm_middle.symm.trans (hback _)).mem_iff.mpr hx

/-- A submission takes nothing off the free stack. -/
theorem free_settle (h : Custody pool books q held)
    (he : e.matchers.lookup o.instrument = books o.instrument) (ha : a ∈ held)
    (hd : pool.storage.data a = o) (ho : o.Sound) :
    pool.freeSlots <:+ (e.settle pool a).2.1.freeSlots := by
  have hsubmit : pool.freeSlots <:+ (e.submit pool a).2.1.freeSlots := by
    subst hd
    cases hl : e.matchers.lookup (pool.storage.data a).instrument with
    | none =>
      rw [Engine.submit_of_none hl]
      exact List.suffix_rfl
    | some hb =>
      rw [Engine.submit_of_some hl]
      exact ⟨_, (h.submit_moves (he ▸ hl) ha rfl ho).1.free.symm⟩
  unfold Engine.settle
  simp only
  split_ifs
  · exact hsubmit.trans (List.suffix_cons _ _)
  · exact hsubmit

/-- Where there is no book there is nothing to cancel. -/
theorem cancel_of_none (h : Custody pool books q held) (hi : books i = none) (id : OrderId) :
    (q i).cancel id = (q i, none) :=
  (h.wf i).cancel_of_slots_nil (h.absent i hi) id

/-- **`Engine::cancel`**, and whether it finds the id. -/
theorem engineCancel (h : Custody pool books q held) (he : e.matchers.lookup i = books i)
    (id : OrderId) :
    Custody (e.cancel pool i id).2.1
        (Function.update books i ((e.cancel pool i id).1.matchers.lookup i))
        (Function.update q i ((q i).cancel id).1) held
      ∧ (e.cancel pool i id).2.2 = ((q i).cancel id).2.isSome
      ∧ (∀ c ∈ held, (e.cancel pool i id).2.1.storage c = pool.storage c)
      ∧ Retains pool q held (e.cancel pool i id).2.1 (Function.update q i ((q i).cancel id).1)
          held := by
  unfold Engine.cancel
  cases hl : e.matchers.lookup i with
  | none =>
    rw [h.cancel_of_none (he ▸ hl)]
    simp only [he, Function.update_eq_self]
    exact ⟨h, rfl, fun _ _ => trivial, .refl⟩
  | some hb =>
    simp only [Finmap.lookup_insert]
    refine ⟨h.cancel (he ▸ hl) id, ?_, fun c hc => ?_, h.retains_cancel (he ▸ hl) id⟩
    · rcases cancel_moves (m := ⟨hb, pool⟩) (h.rep i hb (he ▸ hl)) (h.wf i) id with
        ⟨hloc, hm⟩ | ⟨loc, f, hloc, -, -, -, hm, -⟩
      · rw [hm]
        simp only [QueueBook.cancel, hloc, Option.isSome_none]
      · rw [hm]
        simp only [QueueBook.cancel, hloc, Option.isSome_some]
    · rcases cancel_moves (m := ⟨hb, pool⟩) (h.rep i hb (he ▸ hl)) (h.wf i) id with
        ⟨-, hm⟩ | ⟨loc, f, -, -, -, -, -, hm⟩
      · rw [hm]
      · exact hm.frame c List.not_mem_nil (h.notMem_slots_of_held hc)

/-- A cancel takes nothing off the free stack. -/
theorem free_engineCancel (h : Custody pool books q held) (he : e.matchers.lookup i = books i)
    (id : OrderId) : pool.freeSlots <:+ (e.cancel pool i id).2.1.freeSlots := by
  unfold Engine.cancel
  cases hl : e.matchers.lookup i with
  | none => exact List.suffix_rfl
  | some hb =>
    rcases cancel_moves (m := ⟨hb, pool⟩) (h.rep i hb (he ▸ hl)) (h.wf i) id with
      ⟨-, hm⟩ | ⟨loc, f, -, -, -, -, -, hm⟩
    · simp only [hm]
      exact List.suffix_rfl
    · exact ⟨_, hm.free.symm⟩

end Custody

/-- **Every book of the engine is a queue book**, each instrument's its own, and the slots are in
good custody. -/
structure EngineInv (e : Engine) (pool : Pool) (q : InstrumentId → QueueBook) (held : List Slot) :
    Prop where
  /-- Every slot is in one book, in somebody's hands, or free. -/
  custody : Custody pool e.books q held
  /-- The books are kept under their own instruments. -/
  instrument : ∀ i, (q i).instrument = i
  /-- There is a pointer to each book, and to nothing else. -/
  ptrs : ∀ i, e.bookPtrs.lookup i = if (e.matchers.lookup i).isSome then some i else none

namespace EngineInv

variable {e : Engine} {pool pool' : Pool} {q : InstrumentId → QueueBook} {held held' : List Slot}
  {a : Slot} {i : InstrumentId} {hb : OrderBook} {o : OrderData}

/-- The pool is another one, and its custody is known. -/
theorem repool (h : EngineInv e pool q held) (hc : Custody pool' e.books q held') :
    EngineInv e pool' q held' := ⟨hc, h.instrument, h.ptrs⟩

/-- An instrument that has expired has no book. -/
theorem books_erase (e : Engine) (i : InstrumentId)
    (ptrs : Finmap fun _ : InstrumentId => InstrumentId) :
    ({ matchers := e.matchers.erase i, bookPtrs := ptrs } : Engine).books
      = Function.update e.books i none := by
  ext1 j
  by_cases h : j = i
  · subst h
    simp [Engine.books, Finmap.lookup_erase]
  · simp [Engine.books, Finmap.lookup_erase_ne h, h]

/-- The orders in a book's levels, level by level. -/
theorem restingSlots_eq (h : EngineInv e pool q held) (hi : e.matchers.lookup i = some hb) :
    hb.restingSlots pool = (q i).slots :=
  (h.custody.rep i hb hi).restingSlots_eq (h.custody.wf i).sorted (h.custody.length_slots_le i)

/-- What a call about one instrument leaves, if it leaves it in good custody. -/
theorem of_touches (h : EngineInv e pool q held) {e' : Engine} {b' : QueueBook}
    (ht : Engine.Touches i e e') (hinst : b'.instrument = (q i).instrument)
    (hc : Custody pool' (Function.update e.books i (e'.matchers.lookup i))
      (Function.update q i b') held') :
    EngineInv e' pool' (Function.update q i b') held' := by
  have hbooks : Function.update e.books i (e'.matchers.lookup i) = e'.books := by
    ext1 j
    by_cases hj : j = i
    · rw [hj, Function.update_self]
      rfl
    · rw [Function.update_of_ne hj]
      exact (ht.other j hj).symm
  refine ⟨hbooks ▸ hc, ?_, fun j => ?_⟩
  · exact (Function.forall_update_iff q fun j b => b.instrument = j).mpr
      ⟨hinst.trans (h.instrument i), fun j _ => h.instrument j⟩
  · rw [ht.ptrs, h.ptrs j, ht.isSome]

/-- **`Engine::submit`**: the order's slot stays in hand unless it comes to rest. -/
theorem submit (h : EngineInv e pool q held) (ha : a ∈ held) (hd : pool.storage.data a = o)
    (ho : o.Sound) :
    EngineInv (e.submit pool a).1 (e.submit pool a).2.1
        (Function.update q o.instrument (submitOutcome e q a o).book)
        (if (submitOutcome e q a o).order.rests then held.erase a else held)
      ∧ (e.submit pool a).2.1.storage.data a = (submitOutcome e q a o).order := by
  obtain ⟨hc, hdata, -⟩ := h.custody.engineSubmit rfl ha hd ho
  exact ⟨h.of_touches (hd ▸ e.touches_submit pool a) (instrument_submitOutcome e q a o) hc, hdata⟩

/-- **Submit and settle.** -/
theorem settle (h : EngineInv e pool q held) (ha : a ∈ held) (hd : pool.storage.data a = o)
    (ho : o.Sound) :
    EngineInv (e.settle pool a).1 (e.settle pool a).2.1
      (Function.update q o.instrument (submitOutcome e q a o).book)
      (if (submitOutcome e q a o).order.leaks then held else held.erase a) :=
  h.of_touches (hd ▸ e.touches_submit pool a) (instrument_submitOutcome e q a o)
    (h.custody.settle rfl ha hd ho).1

/-- The queue book after a cancel. -/
theorem cancel (h : EngineInv e pool q held) (i : InstrumentId) (id : OrderId) :
    EngineInv (e.cancel pool i id).1 (e.cancel pool i id).2.1
      (Function.update q i ((q i).cancel id).1) held :=
  h.of_touches (e.touches_cancel pool i id) ((q i).instrument_cancel id)
    (h.custody.engineCancel rfl id).1

/-- An id nobody has: nothing is done. -/
theorem cancel_eq_self (h : EngineInv e pool q held) {id : OrderId}
    (hl : (q i).index.lookup id = none) : e.cancel pool i id = (e, pool, false) := by
  unfold Engine.cancel
  cases hi : e.matchers.lookup i with
  | none => rfl
  | some hb =>
    rcases cancel_moves (m := ⟨hb, pool⟩) (h.custody.rep i hb hi) (h.custody.wf i) id with
      ⟨-, hm⟩ | ⟨loc, f, hl', -⟩
    · simp only [hm, insert_of_lookup hi]
    · rw [hl] at hl'
      cases hl'

/-- **`Engine::expire_instrument`** drains one book and forgets it. -/
theorem expire (h : EngineInv e pool q held) (hi : e.matchers.lookup i = some hb) :
    EngineInv (e.expireInstrument pool i).1 (e.expireInstrument pool i).2.1
      (Function.update q i ⟨i, [], [], ∅⟩) held := by
  have hc := h.custody.cancelAll (i := i) hi
  rw [h.instrument i] at hc
  unfold Engine.expireInstrument
  simp only [hi]
  refine ⟨?_, fun j => ?_, fun j => ?_⟩
  · rw [books_erase]
    refine ⟨fun j hb' hj => ?_, fun j hj => ?_, hc.wf, hc.nodup, hc.bound, hc.apart⟩
    · by_cases hji : j = i
      · subst hji
        simp at hj
      · refine hc.rep j hb' ?_
        rw [Function.update_of_ne hji] at hj ⊢
        exact hj
    · by_cases hji : j = i
      · subst hji
        rw [Function.update_self]
        rfl
      · refine hc.absent j ?_
        rw [Function.update_of_ne hji] at hj ⊢
        exact hj
  · by_cases hj : j = i
    · subst hj
      rw [Function.update_self]
    · rw [Function.update_of_ne hj]
      exact h.instrument j
  · change (e.bookPtrs.erase i).lookup j = if ((e.matchers.erase i).lookup j).isSome then _ else _
    by_cases hj : j = i
    · subst hj
      rw [Finmap.lookup_erase, Finmap.lookup_erase]
      rfl
    · rw [Finmap.lookup_erase_ne hj, Finmap.lookup_erase_ne hj]
      exact h.ptrs j

end EngineInv

/-! ## The start

The constructor adds a book for every instrument its filter lets through, and nobody has traded
yet. -/

section Start

variable {r : InstrumentRegistry} {filter : InstrumentId → Bool} {e : Engine} {capacity : ℕ}

/-- What the constructor's loop has built so far. -/
structure Built (filter : InstrumentId → Bool) (e : Engine) : Prop where
  /-- The books are empty, and only of instruments the filter takes. -/
  fresh : ∀ i hb, e.matchers.lookup i = some hb → hb = { instrument := i } ∧ filter i = true
  /-- There is a pointer to each of them. -/
  ptrs : ∀ i, e.bookPtrs.lookup i = if (e.matchers.lookup i).isSome then some i else none

/-- One round of the constructor's loop. -/
theorem Built.addBook (h : Built filter e) (spec : InstrumentSpec) :
    Built filter (e.addBook filter spec) := by
  unfold Engine.addBook
  split_ifs with hf
  · refine ⟨fun i hb hi => ?_, fun i => ?_⟩
    · rw [lookup_emplace] at hi
      split_ifs at hi with hi'
      · obtain rfl := Option.some.inj hi
        exact ⟨by rw [hi'.1], hi'.1 ▸ hf⟩
      · exact h.fresh i hb hi
    · have hnone : e.bookPtrs.lookup spec.id = none ↔ e.matchers.lookup spec.id = none := by
        rw [h.ptrs spec.id]
        cases e.matchers.lookup spec.id <;> simp
      simp only [lookup_emplace, hnone]
      split_ifs with hi' hsome hsome
      · rw [hi'.1]
      · exact absurd rfl hsome
      · rw [h.ptrs i, if_pos hsome]
      · rw [h.ptrs i, if_neg hsome]
  · exact h

/-- What the constructor builds. -/
theorem built_new (h : Engine.new r filter = .ok e) : Built filter e := by
  unfold Engine.new at h
  split_ifs at h
  obtain rfl := Except.ok.inj h
  have hall : ∀ (specs : List InstrumentSpec) (e : Engine), Built filter e →
      Built filter (specs.foldl (Engine.addBook filter) e) := by
    intro specs
    induction specs with
    | nil => exact fun e he => he
    | cons spec specs ih => exact fun e he => ih _ (he.addBook spec)
  exact hall _ _ ⟨fun i hb hi => by simp at hi, fun i => by simp⟩

/-- The instruments the constructor's loop takes. -/
theorem isSome_addBooks (specs : List InstrumentSpec) (e : Engine) (i : InstrumentId) :
    ((specs.foldl (Engine.addBook filter) e).matchers.lookup i).isSome
      = ((e.matchers.lookup i).isSome || filter i && specs.any (·.id = i)) := by
  induction specs generalizing e with
  | nil => simp
  | cons spec specs ih =>
    rw [List.foldl_cons, ih, List.any_cons]
    unfold Engine.addBook
    by_cases hi : spec.id = i
    · subst hi
      split_ifs with hf
      · rw [lookup_emplace]
        cases e.matchers.lookup spec.id <;> simp [hf]
      · simp [hf]
    · split_ifs with hf
      · simp [lookup_emplace, hi, Ne.symm hi]
      · simp [hi]

/-- **Which books there are.** -/
theorem isSome_new (h : Engine.new r filter = .ok e) (i : InstrumentId) :
    (e.matchers.lookup i).isSome = (filter i && r.all.any (·.id = i)) := by
  unfold Engine.new at h
  split_ifs at h
  obtain rfl := Except.ok.inj h
  rw [isSome_addBooks]
  simp

/-- Empty books over a pool nobody has used. -/
theorem custody_new {books : InstrumentId → Option OrderBook}
    (hfresh : ∀ i hb, books i = some hb → hb = { instrument := i }) :
    Custody (Pool.new capacity) books (fun i => ⟨i, [], [], ∅⟩) [] := by
  refine ⟨fun i hb hi => ?_, fun _ _ => rfl, fun i => QueueBook.wf_new i, fun _ => ?_, ?_, ?_⟩
  · obtain rfl := hfresh i hb hi
    exact BookRep.new _ _
  · change ((List.range capacity).reverse ++ [] ++ []).Nodup
    simpa using List.nodup_range
  · intro _ a ha
    change a ∈ (List.range capacity).reverse ++ [] ++ [] at ha
    change a < capacity
    simpa using ha
  · exact fun _ _ _ => List.disjoint_nil_left _

/-- **A new engine has empty books.** -/
theorem engineInv_new (h : Engine.new r filter = .ok e) :
    EngineInv e (Pool.new capacity) (fun i => ⟨i, [], [], ∅⟩) [] :=
  ⟨custody_new fun i hb hi => ((built_new h).fresh i hb hi).1, fun _ => rfl, (built_new h).ptrs⟩

end Start

end Ordbk
