import Ordbk.Refinement.Drain
import Mathlib.Tactic.Abel

/-!
# Refinement/Custody — who owns a slot

Several books share one pool.  `Custody` is the ownership discipline that keeps them apart: a slot
is on the free stack, in somebody's hands (`held`), or at rest in one place of one book — never in
two of these.  Each book is then a queue book of its own, whatever happens to the others.

Two rules cover every operation: `Custody.update` for a call into one of the books, and
`Custody.repool` for what is done to the pool outside them.  Both are rules of `Lodged`, which asks
nothing of the queue books and so holds in the middle of a call too.
-/

namespace Ordbk

/-- A part of what has no duplicates has none. -/
theorem nodup_of_subperm {α : Type} {l l' : List α} (h : l.Subperm l') (hnd : l'.Nodup) :
    l.Nodup := by
  obtain ⟨k, hperm, hsub⟩ := h
  exact hperm.nodup_iff.mp (hnd.sublist hsub)

variable {ι : Type} [DecidableEq ι]

/-- **Every slot has at most one owner**, whatever the books are in the middle of. -/
structure Lodged (pool : Pool) (books : ι → Option OrderBook) (q : ι → QueueBook)
    (held : List Slot) : Prop where
  /-- Each book is the queue book of its place. -/
  rep : ∀ i hb, books i = some hb → BookRep pool.storage hb (q i)
  /-- Where there is no book nobody is at rest. -/
  absent : ∀ i, books i = none → (q i).slots = []
  /-- **No slot is in two places**: free, in hand, or at rest in a book. -/
  nodup : ∀ i, (pool.freeSlots ++ held ++ (q i).slots).Nodup
  /-- Every slot is a slot of the pool. -/
  bound : ∀ i, ∀ a ∈ pool.freeSlots ++ held ++ (q i).slots, a < pool.capacity
  /-- Nor is one at rest in two books. -/
  apart : ∀ i j, i ≠ j → (q i).slots.Disjoint (q j).slots

/-- **Every slot has at most one owner**, and every book refines its queue book. -/
structure Custody (pool : Pool) (books : ι → Option OrderBook) (q : ι → QueueBook)
    (held : List Slot) : Prop where
  /-- A book is its queue book. -/
  rep : ∀ i hb, books i = some hb → BookRep pool.storage hb (q i)
  /-- Where there is no book nobody is at rest. -/
  absent : ∀ i, books i = none → (q i).slots = []
  /-- And the queue books are in order. -/
  wf : ∀ i, (q i).WF
  /-- The free stack, the slots in hand and those of a book have none in common. -/
  nodup : ∀ i, (pool.freeSlots ++ held ++ (q i).slots).Nodup
  /-- They are slots of the pool. -/
  bound : ∀ i, ∀ a ∈ pool.freeSlots ++ held ++ (q i).slots, a < pool.capacity
  /-- And no slot is in two books. -/
  apart : ∀ i j, i ≠ j → (q i).slots.Disjoint (q j).slots

namespace Lodged

variable {pool pool' : Pool} {books : ι → Option OrderBook} {q : ι → QueueBook}
  {held held' : List Slot} {i j : ι} {a : Slot}

omit [DecidableEq ι] in
/-- With queue books in order it is custody. -/
theorem custody (h : Lodged pool books q held) (hw : ∀ i, (q i).WF) : Custody pool books q held :=
  ⟨h.rep, h.absent, hw, h.nodup, h.bound, h.apart⟩

omit [DecidableEq ι] in
/-- Nobody is at rest twice. -/
theorem nodup_slots (h : Lodged pool books q held) (i : ι) : (q i).slots.Nodup :=
  (h.nodup i).of_append_right

omit [DecidableEq ι] in
/-- A slot in use by a book is neither free nor in anybody's hands. -/
theorem notMem_of_mem_slots (h : Lodged pool books q held) (ha : a ∈ (q i).slots) :
    a ∉ pool.freeSlots ++ held := fun hmem =>
  List.disjoint_of_nodup_append (h.nodup i) hmem ha

omit [DecidableEq ι] in
theorem notMem_slots_of_held (h : Lodged pool books q held) (ha : a ∈ held) :
    a ∉ (q i).slots := fun hmem =>
  h.notMem_of_mem_slots hmem (List.mem_append_right _ ha)

omit [DecidableEq ι] in
/-- No book outgrows the pool. -/
theorem length_slots_le (h : Lodged pool books q held) (i : ι) :
    (q i).slots.length ≤ pool.capacity := by
  have hsub : (q i).slots ⊆ List.range pool.capacity := fun a ha =>
    List.mem_range.mpr (h.bound i a (List.mem_append_right _ ha))
  simpa using ((h.nodup_slots i).subperm hsub).length_le

/-- **A call into one book** keeps everybody's property apart, if it neither invents nor
duplicates slots. -/
theorem update (h : Lodged pool books q held) {hb : OrderBook} (hi : books i = some hb)
    {own : List Slot} {m' : Matcher} {b' : QueueBook} {gone : List Resting}
    (hm : Moves ⟨hb, pool⟩ (q i) own m' b' gone) (hown : ∀ a ∈ own, a ∈ held)
    (hsub : (gone.map (·.slot) ++ b'.slots ++ held').Subperm ((q i).slots ++ held)) :
    Lodged m'.pool (Function.update books i (some m'.book)) (Function.update q i b') held' := by
  -- as multisets: the new owners' slots are among the old owners'
  have hfree : (m'.pool.freeSlots ++ held' ++ b'.slots).Subperm
      (pool.freeSlots ++ held ++ (q i).slots) := by
    have hnew : (m'.pool.freeSlots ++ held' ++ b'.slots).Perm
        (pool.freeSlots ++ (gone.map (·.slot) ++ b'.slots ++ held')) := by
      rw [hm.free, ← Multiset.coe_eq_coe]
      simp only [← Multiset.coe_add, Multiset.coe_reverse]
      abel
    have hold : (pool.freeSlots ++ ((q i).slots ++ held)).Perm
        (pool.freeSlots ++ held ++ (q i).slots) := by
      rw [List.append_assoc]
      exact List.perm_append_comm.append_left _
    exact hnew.subperm.trans (((List.subperm_append_left _).mpr hsub).trans hold.subperm)
  have hothers : ∀ j, j ≠ i → ∀ c ∈ (q j).slots, c ∉ (q i).slots ++ held := by
    intro j hj c hc hmem
    rcases List.mem_append.mp hmem with hmem | hmem
    · exact h.apart j i hj hc hmem
    · exact h.notMem_slots_of_held hmem hc
  have hmem' : ∀ c ∈ m'.pool.freeSlots ++ held', c ∈ pool.freeSlots ++ held ++ (q i).slots :=
    fun c hc => hfree.subset (List.mem_append_left _ hc)
  have hmemb : ∀ c ∈ b'.slots, c ∈ (q i).slots ++ held := fun c hc =>
    hsub.subset (by simp [hc])
  refine ⟨fun j hb' hj => ?_, fun j hj => ?_, fun j => ?_, fun j c hc => ?_, fun j k hjk => ?_⟩
  · by_cases hji : j = i
    · subst hji
      obtain rfl : m'.book = hb' := by simpa using hj
      simpa using hm.rep
    · rw [Function.update_of_ne hji] at hj ⊢
      refine (h.rep j hb' hj).frame fun c hc => hm.frame c ?_ ?_
      · exact fun hco => hothers j hji c hc (List.mem_append_right _ (hown c hco))
      · exact fun hcb => hothers j hji c hc (List.mem_append_left _ hcb)
  · by_cases hji : j = i
    · subst hji
      simp at hj
    · rw [Function.update_of_ne hji] at hj ⊢
      exact h.absent j hj
  · by_cases hji : j = i
    · subst hji
      rw [Function.update_self]
      exact nodup_of_subperm hfree (h.nodup j)
    · rw [Function.update_of_ne hji]
      refine List.nodup_append.mpr ⟨?_, h.nodup_slots j, fun c hc c' hc' hcc => ?_⟩
      · exact (nodup_of_subperm hfree (h.nodup i)).of_append_left
      · subst hcc
        rcases List.mem_append.mp (hmem' c hc) with hc | hc
        · exact h.notMem_of_mem_slots hc' hc
        · exact hothers j hji c hc' (List.mem_append_left _ hc)
  · rw [hm.capacity]
    rcases List.mem_append.mp hc with hc | hc
    · exact h.bound i c (hmem' c hc)
    by_cases hji : j = i
    · subst hji
      rw [Function.update_self] at hc
      exact h.bound j c (hfree.subset (List.mem_append_right _ hc))
    · rw [Function.update_of_ne hji] at hc
      exact h.bound j c (List.mem_append_right _ hc)
  · intro c hcj hck
    by_cases hji : j = i
    · subst hji
      rw [Function.update_self] at hcj
      rw [Function.update_of_ne (Ne.symm hjk)] at hck
      exact hothers k (Ne.symm hjk) c hck (hmemb c hcj)
    · rw [Function.update_of_ne hji] at hcj
      by_cases hki : k = i
      · subst hki
        rw [Function.update_self] at hck
        exact hothers j hji c hcj (hmemb c hck)
      · rw [Function.update_of_ne hki] at hck
        exact h.apart j k hjk hcj hck

omit [DecidableEq ι] in
/-- **What is done outside the books**: slots change hands between the free stack and their
holders, who may write what they like to them. -/
theorem repool (h : Lodged pool books q held) (hcap : pool'.capacity = pool.capacity)
    (hsub : (pool'.freeSlots ++ held').Subperm (pool.freeSlots ++ held))
    (hst : ∀ c, c ∉ pool.freeSlots ++ held → pool'.storage c = pool.storage c) :
    Lodged pool' books q held' := by
  have hall : ∀ i, (pool'.freeSlots ++ held' ++ (q i).slots).Subperm
      (pool.freeSlots ++ held ++ (q i).slots) := fun i =>
    (List.subperm_append_right _).mpr hsub
  refine ⟨fun i hb hi => ?_, h.absent, fun i => nodup_of_subperm (hall i) (h.nodup i), ?_, h.apart⟩
  · exact (h.rep i hb hi).frame fun c hc => hst c (h.notMem_of_mem_slots hc)
  · intro i a ha
    rw [hcap]
    exact h.bound i a ((hall i).subset ha)

omit [DecidableEq ι] in
/-- Forgetting about slots in hand. -/
theorem mono (h : Lodged pool books q held) (hsub : held'.Subperm held) :
    Lodged pool books q held' :=
  h.repool rfl ((List.subperm_append_left _).mpr hsub) fun _ _ => rfl

omit [DecidableEq ι] in
theorem acquire (h : Lodged pool books q held) (ha : pool.acquire = some (a, pool')) :
    Lodged pool' books q (a :: held) := by
  obtain ⟨hfree, hcap, hkeep⟩ := Pool.acquire_eq_some ha
  refine h.repool hcap (List.Perm.subperm ?_) fun d hd => hkeep d ?_
  · rw [hfree]
    exact List.perm_middle
  · rw [hfree] at hd
    exact fun hda => hd (by simp [hda])

omit [DecidableEq ι] in
theorem release (h : Lodged pool books q held) (ha : a ∈ held) :
    Lodged (pool.release a) books q (held.erase a) := by
  refine h.repool rfl (List.Perm.subperm ?_) fun _ _ => rfl
  exact (List.perm_middle.symm.trans ((List.perm_cons_erase ha).symm.append_left _))

omit [DecidableEq ι] in
/-- Writing to a slot in one's hands. -/
theorem write (h : Lodged pool books q held) (ha : a ∈ held) (o : Order) :
    Lodged { pool with storage := Function.update pool.storage a o } books q held := by
  refine h.repool rfl (List.Subperm.refl _) fun c hc => Function.update_of_ne ?_ _ _
  rintro rfl
  exact hc (List.mem_append_right _ ha)

end Lodged

namespace Custody

variable {pool pool' : Pool} {books : ι → Option OrderBook} {q : ι → QueueBook}
  {held held' : List Slot} {i j : ι} {a : Slot}

omit [DecidableEq ι] in
/-- Custody without the order of the queues. -/
theorem lodged (h : Custody pool books q held) : Lodged pool books q held :=
  ⟨h.rep, h.absent, h.nodup, h.bound, h.apart⟩

omit [DecidableEq ι] in
theorem notMem_of_mem_slots (h : Custody pool books q held) (ha : a ∈ (q i).slots) :
    a ∉ pool.freeSlots ++ held := h.lodged.notMem_of_mem_slots ha

omit [DecidableEq ι] in
theorem notMem_slots_of_held (h : Custody pool books q held) (ha : a ∈ held) :
    a ∉ (q i).slots := h.lodged.notMem_slots_of_held ha

omit [DecidableEq ι] in
theorem length_slots_le (h : Custody pool books q held) (i : ι) :
    (q i).slots.length ≤ pool.capacity := h.lodged.length_slots_le i

/-- **A call into one book** that leaves it well formed. -/
theorem update (h : Custody pool books q held) {hb : OrderBook} (hi : books i = some hb)
    {own : List Slot} {m' : Matcher} {b' : QueueBook} {gone : List Resting}
    (hm : Moves ⟨hb, pool⟩ (q i) own m' b' gone) (hw : b'.WF) (hown : ∀ a ∈ own, a ∈ held)
    (hsub : (gone.map (·.slot) ++ b'.slots ++ held').Subperm ((q i).slots ++ held)) :
    Custody m'.pool (Function.update books i (some m'.book)) (Function.update q i b') held' :=
  (h.lodged.update hi hm hown hsub).custody <|
    (Function.forall_update_iff q fun _ b => b.WF).mpr ⟨hw, fun j _ => h.wf j⟩

omit [DecidableEq ι] in
/-- What is done outside the books. -/
theorem repool (h : Custody pool books q held) (hcap : pool'.capacity = pool.capacity)
    (hsub : (pool'.freeSlots ++ held').Subperm (pool.freeSlots ++ held))
    (hst : ∀ c, c ∉ pool.freeSlots ++ held → pool'.storage c = pool.storage c) :
    Custody pool' books q held' := (h.lodged.repool hcap hsub hst).custody h.wf

omit [DecidableEq ι] in
/-- Forgetting about slots in hand. -/
theorem mono (h : Custody pool books q held) (hsub : held'.Subperm held) :
    Custody pool books q held' := (h.lodged.mono hsub).custody h.wf

omit [DecidableEq ι] in
theorem acquire (h : Custody pool books q held) (ha : pool.acquire = some (a, pool')) :
    Custody pool' books q (a :: held) := (h.lodged.acquire ha).custody h.wf

omit [DecidableEq ι] in
theorem release (h : Custody pool books q held) (ha : a ∈ held) :
    Custody (pool.release a) books q (held.erase a) := (h.lodged.release ha).custody h.wf

omit [DecidableEq ι] in
/-- Writing to a slot in one's hands. -/
theorem write (h : Custody pool books q held) (ha : a ∈ held) (o : Order) :
    Custody { pool with storage := Function.update pool.storage a o } books q held :=
  (h.lodged.write ha o).custody h.wf

/-! ## The three operations

A book's own lemma says which slots it gives back and which it keeps; the discipline is kept because
it gives back only its own. -/

section Ops

variable {hb : OrderBook} {o : OrderData}

omit [DecidableEq ι] in
/-- What a submission moves, by the matcher's own lemma. -/
theorem submit_moves (h : Custody pool books q held) (hi : books i = some hb) (ha : a ∈ held)
    (hd : pool.storage.data a = o) (ho : o.Sound) :
    Moves ⟨hb, pool⟩ (q i) [a] (Matcher.submit ⟨hb, pool⟩ a).1 ((q i).submit a o).book
        ((q i).submit a o).gone
      ∧ (Matcher.submit ⟨hb, pool⟩ a).1.pool.storage.data a = ((q i).submit a o).order
      ∧ (Matcher.submit ⟨hb, pool⟩ a).2 = ⟨a, ((q i).submit a o).trades⟩ :=
  Ordbk.submit_moves (m := ⟨hb, pool⟩) (h.rep i hb hi) (h.wf i) (h.length_slots_le i)
    (h.notMem_slots_of_held ha) hd ho

/-- Submitting an order in one's hands: its slot stays there unless the order comes to rest. -/
theorem submit (h : Custody pool books q held) (hi : books i = some hb) (ha : a ∈ held)
    (hd : pool.storage.data a = o) (ho : o.Sound) :
    Custody (Matcher.submit ⟨hb, pool⟩ a).1.pool
      (Function.update books i (some (Matcher.submit ⟨hb, pool⟩ a).1.book))
      (Function.update q i ((q i).submit a o).book)
      (if ((q i).submit a o).order.rests then held.erase a else held) := by
  refine h.update hi (h.submit_moves hi ha hd ho).1
    (QueueBook.wf_submit (h.wf i) ho (h.notMem_slots_of_held ha)) (by simpa using ha) ?_
  refine ((QueueBook.slots_submit_perm (h.wf i) ho).append_right _).subperm.trans ?_
  split_ifs
  · have hperm : (a :: (q i).slots ++ held.erase a).Perm ((q i).slots ++ held) := by
      refine (List.perm_middle (a := a)).symm.trans ?_
      exact (List.perm_cons_erase ha).symm.append_left _
    exact hperm.subperm
  · exact List.Subperm.refl _

/-- Cancelling by id. -/
theorem cancel (h : Custody pool books q held) (hi : books i = some hb) (id : OrderId) :
    Custody (Matcher.cancel ⟨hb, pool⟩ id).1.pool
      (Function.update books i (some (Matcher.cancel ⟨hb, pool⟩ id).1.book))
      (Function.update q i ((q i).cancel id).1) held := by
  rcases cancel_moves (m := ⟨hb, pool⟩) (h.rep i hb hi) (h.wf i) id with
    ⟨hl, hm⟩ | ⟨loc, e, hl, -, h1, -, -, hm⟩
  · have hq : ((q i).cancel id).1 = q i := by simp only [QueueBook.cancel, hl]
    rw [hm, hq, ← hi, Function.update_eq_self, Function.update_eq_self]
    exact h
  · have hq : ((q i).cancel id).1 = (q i).remove id loc := by simp only [QueueBook.cancel, hl]
    rw [hq]
    refine h.update hi hm (QueueBook.wf_remove (h.wf i) hl) (by simp) ?_
    refine List.Perm.subperm (List.Perm.append_right _ ?_)
    change (e.slot :: _).Perm _
    rw [h1]
    exact QueueBook.slots_remove_perm (h.wf i) hl

/-- Draining a book. -/
theorem cancelAll (h : Custody pool books q held) (hi : books i = some hb) :
    Custody (Matcher.cancelAll ⟨hb, pool⟩).pool
      (Function.update books i (some (Matcher.cancelAll ⟨hb, pool⟩).book))
      (Function.update q i ⟨(q i).instrument, [], [], ∅⟩) held := by
  refine h.update hi (cancelAll_moves (m := ⟨hb, pool⟩) (h.rep i hb hi) (h.wf i))
    (QueueBook.wf_new _) (by simp) ?_
  have hslots : (((q i).fronts.map Resting.cancelled).map (·.slot)).Sublist (q i).slots := by
    rw [List.map_map]
    exact (q i).fronts_sublist.map _
  refine (List.Subperm.append ?_ (List.Subperm.refl _))
  exact (List.append_nil _).symm ▸ hslots.subperm

end Ops

end Custody

/-! ## Nothing is lost

The discipline so far is about at most one owner.  A slot that has one has one afterwards: that is
what `Retains` adds. -/

/-- A slot is accounted for: free, in somebody's hands, or at rest. -/
def Owned (pool : Pool) (q : ι → QueueBook) (held : List Slot) (c : Slot) : Prop :=
  c ∈ pool.freeSlots ++ held ∨ ∃ i, c ∈ (q i).slots

section Owned

variable {pool pool' : Pool} {books : ι → Option OrderBook} {q : ι → QueueBook}
  {held held' : List Slot} {i : ι} {c : Slot} {hb : OrderBook}

/-- A call into one book loses nothing, if what it had is somewhere afterwards. -/
theorem Owned.update {own : List Slot} {m' : Matcher} {b' : QueueBook} {gone : List Resting}
    (hm : Moves ⟨hb, pool⟩ (q i) own m' b' gone)
    (hsup : (q i).slots ++ held ⊆ gone.map (·.slot) ++ b'.slots ++ held')
    (hc : Owned pool q held c) : Owned m'.pool (Function.update q i b') held' c := by
  have hnew : c ∈ (q i).slots ++ held → Owned m'.pool (Function.update q i b') held' c := by
    intro hmem
    rcases List.mem_append.mp (hsup hmem) with hmem | hmem
    · rcases List.mem_append.mp hmem with hmem | hmem
      · refine .inl (List.mem_append_left _ ?_)
        rw [hm.free]
        exact List.mem_append_left _ (List.mem_reverse.mpr hmem)
      · exact .inr ⟨i, by rwa [Function.update_self]⟩
    · exact .inl (List.mem_append_right _ hmem)
  rcases hc with hc | ⟨j, hc⟩
  · rcases List.mem_append.mp hc with hc | hc
    · refine .inl (List.mem_append_left _ ?_)
      rw [hm.free]
      exact List.mem_append_right _ hc
    · exact hnew (List.mem_append_right _ hc)
  · by_cases hji : j = i
    · exact hnew (List.mem_append_left _ (hji ▸ hc))
    · exact .inr ⟨j, by rwa [Function.update_of_ne hji]⟩

omit [DecidableEq ι] in
theorem Owned.repool (hsub : pool.freeSlots ++ held ⊆ pool'.freeSlots ++ held')
    (hc : Owned pool q held c) : Owned pool' q held' c :=
  hc.imp_left fun h => hsub h

end Owned

/-- **Nothing gets lost** from one state to the next. -/
structure Retains (pool : Pool) (q : ι → QueueBook) (held : List Slot) (pool' : Pool)
    (q' : ι → QueueBook) (held' : List Slot) : Prop where
  /-- The pool has as many slots as before. -/
  capacity : pool'.capacity = pool.capacity
  /-- **What was somebody's is somebody's.** -/
  owned : ∀ c, Owned pool q held c → Owned pool' q' held' c

section Retains

variable {pool pool' : Pool} {books : ι → Option OrderBook} {q q' : ι → QueueBook}
  {held held' held'' : List Slot} {i : ι} {a : Slot} {hb : OrderBook} {o : OrderData}

omit [DecidableEq ι] in
theorem Retains.refl : Retains pool q held pool q held := ⟨rfl, fun _ hc => hc⟩

omit [DecidableEq ι] in
/-- What is done to the pool outside the books, beforehand. -/
theorem Retains.repool {pool₀ : Pool} {held₀ : List Slot} (h : Retains pool q held pool' q' held')
    (hcap : pool.capacity = pool₀.capacity)
    (hsub : pool₀.freeSlots ++ held₀ ⊆ pool.freeSlots ++ held) :
    Retains pool₀ q held₀ pool' q' held' :=
  ⟨h.capacity.trans hcap, fun c hc => h.owned c (hc.repool hsub)⟩

omit [DecidableEq ι] in
/-- And afterwards. -/
theorem Retains.repool_right {pool'' : Pool} (h : Retains pool q held pool' q' held')
    (hcap : pool''.capacity = pool'.capacity)
    (hsub : pool'.freeSlots ++ held' ⊆ pool''.freeSlots ++ held'') :
    Retains pool q held pool'' q' held'' :=
  ⟨hcap.trans h.capacity, fun c hc => (h.owned c hc).repool hsub⟩

/-- A submission loses nothing. -/
theorem Custody.retains_submit (h : Custody pool books q held) (hi : books i = some hb)
    (ha : a ∈ held) (hd : pool.storage.data a = o) (ho : o.Sound) :
    Retains pool q held (Matcher.submit ⟨hb, pool⟩ a).1.pool
      (Function.update q i ((q i).submit a o).book)
      (if ((q i).submit a o).order.rests then held.erase a else held) := by
  have hm := (h.submit_moves hi ha hd ho).1
  refine ⟨hm.capacity, fun c hc => hc.update hm fun d hmem => ?_⟩
  have hperm := QueueBook.slots_submit_perm (a := a) (h.wf i) ho
  rcases List.mem_append.mp hmem with hmem | hmem
  · refine List.mem_append_left _ (hperm.mem_iff.mpr ?_)
    split_ifs
    · exact List.mem_cons_of_mem _ hmem
    · exact hmem
  · split_ifs with hr
    · rw [if_pos hr] at hperm
      by_cases hda : d = a
      · exact List.mem_append_left _ (hperm.mem_iff.mpr (hda ▸ List.mem_cons_self ..))
      · exact List.mem_append_right _ ((List.mem_erase_of_ne hda).mpr hmem)
    · exact List.mem_append_right _ hmem

/-- Nor does a cancel. -/
theorem Custody.retains_cancel (h : Custody pool books q held) (hi : books i = some hb)
    (id : OrderId) :
    Retains pool q held (Matcher.cancel ⟨hb, pool⟩ id).1.pool
      (Function.update q i ((q i).cancel id).1) held := by
  rcases cancel_moves (m := ⟨hb, pool⟩) (h.rep i hb hi) (h.wf i) id with
    ⟨hl, hm⟩ | ⟨loc, e, hl, -, h1, -, -, hm⟩
  · have hq : ((q i).cancel id).1 = q i := by simp only [QueueBook.cancel, hl]
    rw [hm, hq, Function.update_eq_self]
    exact .refl
  · have hq : ((q i).cancel id).1 = (q i).remove id loc := by simp only [QueueBook.cancel, hl]
    rw [hq]
    refine ⟨hm.capacity, fun c hc => hc.update hm (List.Perm.subset (List.Perm.append_right _ ?_))⟩
    change List.Perm _ (e.slot :: _)
    rw [h1]
    exact (QueueBook.slots_remove_perm (h.wf i) hl).symm

end Retains

end Ordbk
