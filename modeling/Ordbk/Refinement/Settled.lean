import Ordbk.Refinement.Settling
import Ordbk.Refinement.Admission
import Ordbk.Abstract.Rename

/-!
# Refinement/Settled — a gateway that has done everything begun so far

`Settled` compares a gateway with a family of books and a list of slots out of use, slot names
aside: it holds exactly these.  A request in any unused slot takes both to the same place
(`Settled.order`, `Settled.cancel`), and the gateway has a slot for it whenever there is one
(`Settled.exists_free`).
-/

namespace Ordbk

open QueueBook (Renamed)

/-- **The gateway has the books `fin`**, and the slots in `lost` out of use, under other slot names.
-/
structure Settled (e : Engine) (n : ℕ) (fin : InstrumentId → QueueBook) (lost : List Slot)
    (π : Equiv.Perm Slot) (q : InstrumentId → QueueBook) (d : Dispatcher) : Prop where
  /-- Its books are queue books, the slots out of use aside. -/
  inv : d.Inv q (lost.map π)
  /-- It has as many slots. -/
  capacity : d.pool.capacity = n
  /-- Every slot of the pool has an owner. -/
  owned : ∀ c < n, Owned d.pool q (lost.map π) c
  /-- The renaming stays within the pool. -/
  bounded : ∀ c, π c < n ↔ c < n
  /-- **The books are the same**, slot names aside. -/
  renamed : ∀ i, Renamed π (fin i) (q i)
  /-- They are in order. -/
  wf : ∀ i, (fin i).WF
  /-- For the same instruments. -/
  books : ∀ j, (d.engine.matchers.lookup j).isSome = (e.matchers.lookup j).isSome
  /-- And as they are found by `Engine::book`. -/
  ptrs : d.engine.bookPtrs = e.bookPtrs

namespace Settled

variable {e : Engine} {n : ℕ} {fin q : InstrumentId → QueueBook} {lost : List Slot}
  {π : Equiv.Perm Slot} {d : Dispatcher} {a a' : Slot} {s : Session}

/-- A slot is in use on one side if its namesake is on the other. -/
theorem mem_slots_iff (h : Settled e n fin lost π q d) {i : InstrumentId} :
    π a ∈ (q i).slots ↔ a ∈ (fin i).slots := by
  rw [(h.renamed i).slots_eq]
  exact List.mem_map_of_injective π.injective

/-- The same goes for the slots out of use. -/
theorem mem_lost_iff : π a ∈ lost.map π ↔ a ∈ lost := List.mem_map_of_injective π.injective

/-- **There is a slot**, if one is in nobody's use. -/
theorem exists_free (h : Settled e n fin lost π q d) (ha : a < n) (hl : a ∉ lost)
    (hf : ∀ i, a ∉ (fin i).slots) : ∃ a' free, d.pool.freeSlots = a' :: free := by
  refine List.exists_cons_of_ne_nil fun hnil => ?_
  rcases h.owned (π a) ((h.bounded a).mpr ha) with hown | ⟨i, hown⟩
  · rw [hnil, List.nil_append, mem_lost_iff] at hown
    exact hl hown
  · exact hf i (h.mem_slots_iff.mp hown)

/-- **There is none**, if every slot is in use. -/
theorem free_eq_nil (h : Settled e n fin lost π q d)
    (hall : ∀ c < n, c ∈ lost ∨ ∃ i, c ∈ (fin i).slots) : d.pool.freeSlots = [] := by
  refine List.eq_nil_iff_forall_not_mem.mpr fun c hc => ?_
  obtain ⟨c, rfl⟩ := π.surjective c
  have hbound : π c < d.pool.capacity :=
    h.inv.custody.bound 0 (π c) (List.mem_append_left _ (List.mem_append_left _ hc))
  rw [h.capacity] at hbound
  rcases hall c ((h.bounded c).mp hbound) with hlost | ⟨i, hslot⟩
  · have hnd := (h.inv.custody.nodup 0).of_append_left
    exact List.disjoint_of_nodup_append hnd hc (mem_lost_iff.mpr hlost)
  · exact List.disjoint_of_nodup_append (h.inv.custody.nodup i) (List.mem_append_left _ hc)
      (h.mem_slots_iff.mpr hslot)

/-- **Any unused slot may go by the name of any free one.** -/
theorem exists_renaming (h : Settled e n fin lost π q d) (ha : a < n) (hl : a ∉ lost)
    (hf : ∀ i, a ∉ (fin i).slots) (ha' : a' ∈ d.pool.freeSlots) :
    ∃ σ, Settled e n fin lost σ q d ∧ σ a = a' := by
  have hbound : a' < n := by
    rw [← h.capacity]
    exact h.inv.custody.bound 0 a' (List.mem_append_left _ (List.mem_append_left _ ha'))
  have hne : ∀ c, c ≠ a → π c ≠ a' → Equiv.swap (π a) a' (π c) = π c := fun c hc hc' =>
    Equiv.swap_apply_of_ne_of_ne (fun heq => hc (π.injective heq)) hc'
  have hlost : ∀ c ∈ lost, Equiv.swap (π a) a' (π c) = π c := fun c hc => by
    refine hne c (ne_of_mem_of_not_mem hc hl) fun heq => ?_
    have hnd := (h.inv.custody.nodup 0).of_append_left
    exact List.disjoint_of_nodup_append hnd ha' (heq ▸ mem_lost_iff.mpr hc)
  have hslots : ∀ i, ∀ c ∈ (fin i).slots, Equiv.swap (π a) a' (π c) = π c := fun i c hc => by
    refine hne c (ne_of_mem_of_not_mem hc (hf i)) fun heq => ?_
    exact List.disjoint_of_nodup_append (h.inv.custody.nodup i) (List.mem_append_left _ ha')
      (heq ▸ h.mem_slots_iff.mpr hc)
  have hmap : lost.map (π.trans (Equiv.swap (π a) a')) = lost.map π :=
    List.map_congr_left fun c hc => hlost c hc
  refine ⟨π.trans (Equiv.swap (π a) a'), ⟨hmap ▸ h.inv, h.capacity, hmap ▸ h.owned, fun c => ?_,
    fun i => (h.renamed i).congr (h.wf i) fun c hc => hslots i c hc, h.wf, h.books, h.ptrs⟩,
    by simp⟩
  -- the two slots swapped are both in range
  rw [← h.bounded c]
  change Equiv.swap (π a) a' (π c) < n ↔ _
  have hpa := (h.bounded a).mpr ha
  rw [Equiv.swap_apply_def]
  split_ifs with h1 h2
  · rw [h1]
    exact iff_of_true hbound hpa
  · rw [h2]
    exact iff_of_true hpa hbound
  · exact Iff.rfl

/-- Both make the same of an order. -/
theorem outcome_eq (h : Settled e n fin lost π q d) (o : OrderData) :
    Renamed π (submitOutcome e fin a o).book (submitOutcome d.engine q (π a) o).book
      ∧ (submitOutcome d.engine q (π a) o).order = (submitOutcome e fin a o).order
      ∧ (submitOutcome d.engine q (π a) o).trades = (submitOutcome e fin a o).trades := by
  have hsome := h.books o.instrument
  unfold submitOutcome
  cases hd : d.engine.matchers.lookup o.instrument with
  | none =>
    rw [hd, Option.isSome_none] at hsome
    rw [Option.isSome_eq_false_iff.mp hsome.symm |> Option.isNone_iff_eq_none.mp]
    exact ⟨h.renamed _, rfl, rfl⟩
  | some hb =>
    rw [hd, Option.isSome_some] at hsome
    obtain ⟨hb', he⟩ := Option.isSome_iff_exists.mp hsome.symm
    rw [he]
    exact (h.renamed _).submit a o

/-- The books with one of them changed on both sides. -/
theorem update (h : Settled e n fin lost π q d) {i : InstrumentId} {b b' : QueueBook}
    {lost' : List Slot} {d' : Dispatcher} (hr : Renamed π b b') (hw : b.WF)
    (hinv : d'.Inv (Function.update q i b') (lost'.map π))
    (hown : Retains d.pool q (lost.map π) d'.pool (Function.update q i b') (lost'.map π))
    (ht : Engine.Touches i d.engine d'.engine) :
    Settled e n (Function.update fin i b) lost' π (Function.update q i b') d' where
  inv := hinv
  capacity := hown.capacity.trans h.capacity
  owned c hc := hown.owned c (h.owned c hc)
  bounded := h.bounded
  renamed j := by
    by_cases hj : j = i
    · rw [hj, Function.update_self, Function.update_self]
      exact hr
    · rw [Function.update_of_ne hj, Function.update_of_ne hj]
      exact h.renamed j
  wf := (Function.forall_update_iff fin fun _ b => b.WF).mpr ⟨hw, fun j _ => h.wf j⟩
  books j := (ht.isSome j).trans (h.books j)
  ptrs := ht.ptrs.trans h.ptrs

/-- **An order goes alike**: the same replies, the same executions, and settled again. -/
theorem order (h : Settled e n fin lost π q d) (ha : a < n) (hl : a ∉ lost)
    (hf : ∀ i, a ∉ (fin i).slots) (hs : s.state = .active) (m : NewOrderMsg) :
    (∃ π' q', Settled e n
        (Function.update fin m.instrumentId (submitOutcome e fin a (m.order s.clientId)).book)
        (if (submitOutcome e fin a (m.order s.clientId)).order.leaks then a :: lost else lost) π' q'
        (d.handleNewOrder s m).1)
      ∧ (d.handleNewOrder s m).2 = Dispatcher.report s m e
          (submitOutcome e fin a (m.order s.clientId)).order.status
          (submitOutcome e fin a (m.order s.clientId)).trades
      ∧ d.executions s (.newOrder m) = (submitOutcome e fin a (m.order s.clientId)).trades := by
  obtain ⟨a', free, hfree⟩ := h.exists_free ha hl hf
  obtain ⟨σ, h, rfl⟩ := h.exists_renaming ha hl hf (hfree ▸ List.mem_cons_self)
  obtain ⟨hbook, horder, htrades⟩ := h.outcome_eq (a := a) (m.order s.clientId)
  obtain ⟨hinv, hrep, hown⟩ := Dispatcher.handleNewOrder_spec (m := m) h.inv hs hfree
  obtain ⟨pool, hacq, -, hexec⟩ := Dispatcher.Inv.submitted h.inv s m hfree
  have ht := d.touches_handleNewOrder s m
  have hwf : (submitOutcome e fin a (m.order s.clientId)).book.WF := by
    rcases submitOutcome_cases e fin a (m.order s.clientId) with ⟨-, hout⟩ | ⟨hb, -, hout⟩
    · rw [hout]
      exact h.wf _
    · rw [hout]
      exact QueueBook.wf_submit (h.wf _) (Dispatcher.sound_order m _) (hf _)
  have hlost : (if (submitOutcome d.engine q (σ a) (m.order s.clientId)).order.leaks
        then σ a :: lost.map σ else lost.map σ)
      = (if (submitOutcome e fin a (m.order s.clientId)).order.leaks
        then a :: lost else lost).map σ := by
    rw [horder]
    split_ifs <;> rfl
  rw [Dispatcher.outcome, hlost] at hinv hown
  refine ⟨⟨σ, _, h.update hbook hwf hinv hown ht⟩, ?_, ?_⟩
  · rw [hrep, Dispatcher.outcome, horder, htrades]
    exact report_congr (fun j => (ht.isSome j).trans (h.books j)) (ht.ptrs.trans h.ptrs) s m _ _
  · rw [← htrades]
    simp only [Dispatcher.executions, hs, hacq, ne_eq, not_true_eq_false, if_false]
    exact hexec

/-- **A cancel goes alike.** -/
theorem cancel (h : Settled e n fin lost π q d) (hs : s.state = .active) (m : CancelOrderMsg) :
    (∃ π' q', Settled e n
        (Function.update fin m.instrumentId ((fin m.instrumentId).cancel m.clientOrderId).1)
        lost π' q' (d.handleCancel s m).1)
      ∧ (d.handleCancel s m).2 = (Server.cancelDebt (fin m.instrumentId) m).reply s := by
  obtain ⟨hbook, hsome⟩ := (h.renamed m.instrumentId).cancel m.clientOrderId
  obtain ⟨hinv, hrep, hown⟩ := Dispatcher.handleCancel_spec h.inv hs m
  refine ⟨⟨π, _, h.update hbook (QueueBook.wf_cancel (h.wf _) _) hinv hown
    (d.touches_handleCancel s m)⟩, ?_⟩
  rw [hrep, hsome]
  rfl

end Settled

/-- At the start. -/
theorem settled_start {r : InstrumentRegistry} {filter : InstrumentId → Bool} {e : Engine}
    (n : ℕ) (hnew : Engine.new r filter = .ok e) :
    Settled e n (fun i => ⟨i, [], [], ∅⟩) [] (Equiv.refl Slot) (fun i => ⟨i, [], [], ∅⟩)
      ⟨e, Pool.new n⟩ where
  inv := engineInv_new hnew
  capacity := rfl
  owned c hc := .inl (by simpa [Pool.new] using hc)
  bounded _ := Iff.rfl
  renamed i := ⟨rfl, rfl, rfl, fun _ => rfl⟩
  wf i := QueueBook.wf_new i
  books _ := rfl
  ptrs := rfl

end Ordbk
