import Ordbk.Refinement.Custody
import Ordbk.Matching.Desk

/-!
# Refinement/Desk — runs of one matcher

`Desk.Inv d b`: the desk's book is the queue book `b`, and its pool is in good custody.  `Inv.call`
is the step lemma — the abstract book after a call is `Desk.next` — and `exists_inv` the run lemma:
every state of every run has such a book, whatever the ids and bytes of the orders.
-/

namespace Ordbk

namespace Desk

variable {d d' : Desk} {b : QueueBook} {c : Call}

/-- **The desk's book is `b`**, and every slot has at most one owner. -/
def Inv (d : Desk) (b : QueueBook) : Prop :=
  Custody d.matcher.pool (fun _ : Unit => some d.matcher.book) (fun _ => b) (d.held ++ d.out)

/-- The queue book after a call. -/
def next (d : Desk) (b : QueueBook) : Call → QueueBook
  | .submit a => (b.submit a (d.order a)).book
  | .cancel id => (b.cancel id).1
  | .cancelAll => ⟨b.instrument, [], [], ∅⟩
  | _ => b

/-- The book in the store is the queue book. -/
theorem Inv.rep (h : d.Inv b) : BookRep d.matcher.pool.storage d.matcher.book b :=
  Custody.rep h () _ rfl

theorem Inv.wf (h : d.Inv b) : b.WF := Custody.wf h ()

/-- It does not outgrow the pool. -/
theorem Inv.length_le (h : d.Inv b) : b.slots.length ≤ d.matcher.pool.capacity :=
  Custody.length_slots_le h ()

/-- A slot the caller has is not at rest. -/
theorem Inv.notMem (h : d.Inv b) {a : Slot} (ha : a ∈ d.held) : a ∉ b.slots :=
  Custody.notMem_slots_of_held h (i := ()) (List.mem_append_left _ ha)

/-- A submission moves the slots its queue book moves. -/
theorem Inv.submit_moves (h : d.Inv b) {a : Slot} (ha : a ∈ d.held)
    (h0 : (d.order a).filledQty = 0) :
    Moves d.matcher b [a] (d.matcher.submit a).1 (b.submit a (d.order a)).book
        (b.submit a (d.order a)).gone
      ∧ (d.matcher.submit a).1.pool.storage.data a = (b.submit a (d.order a)).order
      ∧ (d.matcher.submit a).2 = ⟨a, (b.submit a (d.order a)).trades⟩ :=
  Ordbk.submit_moves h.rep h.wf h.length_le (h.notMem ha) rfl (OrderData.sound_of_fresh h0)

theorem update_unit {β : Type} (x y : β) : Function.update (fun _ : Unit => x) () y = fun _ => y :=
  funext fun _ => Function.update_self ..

/-- **One call keeps the invariant**, and moves the queue book by `next`. -/
theorem Inv.call (h : d.Inv b) (hc : d.call c = some d') : d'.Inv (d.next b c) := by
  cases c with
  | acquire =>
    obtain ⟨⟨a, pool⟩, hacq, rfl⟩ := Option.map_eq_some_iff.mp hc
    exact Custody.acquire h hacq
  | write a o =>
    obtain ⟨ha, rfl⟩ : a ∈ d.held ∧ _ = d' := by simpa [Desk.call] using hc
    exact Custody.write h (List.mem_append_left _ ha) o
  | submit a =>
    obtain ⟨⟨ha, h0⟩, rfl⟩ : (a ∈ d.held ∧ (d.order a).filledQty = 0) ∧ d.submit a = d' := by
      simpa [Desk.call] using hc
    have hs := Custody.submit h (i := ()) (o := d.order a) rfl (List.mem_append_left _ ha) rfl
      (OrderData.sound_of_fresh h0)
    rw [update_unit, update_unit] at hs
    refine hs.mono ?_
    have hord : (d.submit a).order a = (b.submit a (d.order a)).order := (h.submit_moves ha h0).2.1
    change (d.held.erase a ++ if ((d.submit a).order a).rests then d.out else a :: d.out).Subperm _
    rw [hord, List.erase_append_left _ ha]
    split_ifs
    · exact List.Subperm.refl _
    · refine List.Perm.subperm (List.perm_middle.trans ?_)
      exact (List.perm_cons_erase ha).symm.append_right _
  | cancel id =>
    obtain rfl := Option.some.inj hc
    have hs := Custody.cancel h (i := ()) rfl id
    rwa [update_unit, update_unit] at hs
  | cancelAll =>
    obtain rfl := Option.some.inj hc
    have hs := Custody.cancelAll h (i := ()) rfl
    rwa [update_unit, update_unit] at hs
  | release a =>
    obtain ⟨ha, rfl⟩ : a ∈ d.held ++ d.out ∧ _ = d' := by
      simpa only [Desk.call, Option.ite_none_right_eq_some, Option.some.injEq] using hc
    refine (Custody.release h ha).mono (List.Sublist.subperm ?_)
    by_cases hin : a ∈ d.held
    · rw [List.erase_append_left _ hin]
      exact List.Sublist.append (List.Sublist.refl _) List.erase_sublist
    · rw [List.erase_append_right _ hin]
      exact List.Sublist.append List.erase_sublist (List.Sublist.refl _)

/-- At first the book is empty and every slot is free. -/
theorem inv_start (i : InstrumentId) (capacity : ℕ) : (start i capacity).Inv ⟨i, [], [], ∅⟩ where
  rep _ hb h := by
    obtain rfl := Option.some.inj h
    exact BookRep.new _ _
  absent _ _ := rfl
  wf _ := QueueBook.wf_new i
  nodup _ := by
    change ((List.range capacity).reverse ++ [] ++ []).Nodup
    simpa using List.nodup_range
  bound _ a ha := by
    change a ∈ (List.range capacity).reverse ++ [] ++ [] at ha
    change a < capacity
    simpa using ha
  apart i j hij := absurd rfl hij

/-- A book stays its instrument's. -/
theorem instrument_next (d : Desk) (b : QueueBook) (c : Call) :
    (d.next b c).instrument = b.instrument := by
  cases c with
  | submit a => exact b.instrument_submit a _
  | cancel id => exact b.instrument_cancel id
  | _ => rfl

/-- **Every state of every run has a queue book**, with whatever its steps preserve. -/
theorem exists_inv {ok : Desk → Call → Prop} {i : InstrumentId} {capacity : ℕ}
    {J : QueueBook → Prop} (h₀ : J ⟨i, [], [], ∅⟩)
    (hstep : ∀ d d' b c, d.Inv b → J b → ok d c → d.call c = some d' → J (d.next b c))
    (h : Guarded.Reach Desk.call ok (start i capacity) d) :
    ∃ b, d.Inv b ∧ b.instrument = i ∧ J b :=
  h.invariant (I := fun d => ∃ b, d.Inv b ∧ b.instrument = i ∧ J b)
    ⟨_, inv_start i capacity, rfl, h₀⟩
    fun d c d' ⟨b, hb, hi, hj⟩ hok hc =>
      ⟨_, hb.call hc, (instrument_next d b c).trans hi, hstep d d' b c hb hj hok hc⟩

end Desk

end Ordbk
