import Ordbk.Abstract.Mirror
import Ordbk.Refinement.Recorded

/-!
# Theorems/Mirroring — the Buy branches are the Sell branches

The source writes every operation of the book once per side, over maps with opposite comparators.
`mirrored_of_traces`: give the matcher a sequence of calls with all sides turned around and all
prices reflected at `K`, and it does the reflected thing at every call; its bids end up as the
reflected asks and its asks as the reflected bids.
-/

namespace Ordbk

/-- A level, reflected. -/
def mirrorLevel (K : ℤ) (x : Price × List OrderData) : Price × List OrderData :=
  (K - x.1, x.2.map (OrderData.mirror K))

/-- **Reflected queues are reflected levels.** -/
theorem sideView_mirror {K : ℤ} {lt lt' : Price → Price → Prop} [IsStrictTotalOrder Price lt]
    [IsStrictTotalOrder Price lt'] {levels : OrdMap lt PriceLevel} {levels' : OrdMap lt' PriceLevel}
    {pool pool' : Pool} {l l' : List Resting} (hlt : ∀ p q, lt p q → lt' (K - p) (K - q))
    (h : LevelsRep pool.storage levels l) (h' : LevelsRep pool'.storage levels' l')
    (hlen : l.length ≤ pool.capacity) (hlen' : l'.length ≤ pool'.capacity)
    (heq : l'.map (·.order) = (l.map (·.order)).map (OrderData.mirror K)) :
    sideView levels' pool' = (sideView levels pool).map (mirrorLevel K) := by
  have hprices : levels'.entries.map (·.1) = (levels.entries.map (·.1)).map (K - ·) := by
    refine List.Pairwise.eq_of_mem_iff (r := lt') (List.pairwise_map.mpr levels'.sorted)
      (List.pairwise_map.mpr ((List.pairwise_map.mpr levels.sorted).imp fun h => hlt _ _ h))
      fun p => ?_
    have hmem : p ∈ (levels.entries.map (·.1)).map (K - ·) ↔ K - p ∈ levels.entries.map (·.1) := by
      rw [List.mem_map]
      constructor
      · rintro ⟨q, hq, rfl⟩
        rwa [sub_sub_cancel]
      · intro hp
        exact ⟨K - p, hp, sub_sub_cancel K p⟩
    rw [hmem, h'.mem_prices, h.mem_prices, heq, List.map_map]
    simp only [List.mem_map, Function.comp_def, OrderData.mirror]
    refine exists_congr fun o => and_congr_right fun _ => ?_
    exact ⟨fun ho => by rw [← ho, sub_sub_cancel], fun ho => by rw [ho, sub_sub_cancel]⟩
  have hqueue : ∀ p, ((l.map (·.order)).map (OrderData.mirror K)).filter
      (fun o => o.limitPrice = K - p)
      = ((l.map (·.order)).filter fun o => o.limitPrice = p).map
        (OrderData.mirror K) := fun p => by
    rw [List.filter_map]
    refine congrArg _ (List.filter_congr fun o _ => ?_)
    exact decide_eq_decide.mpr sub_right_inj
  rw [h.sideView_eq hlen, h'.sideView_eq hlen', hprices, heq]
  generalize levels.entries.map (·.1) = prices
  generalize l.map (·.order) = orders at hqueue ⊢
  rw [List.map_map, List.map_map]
  exact List.map_congr_left fun p _ => congrArg (Prod.mk (K - p)) (hqueue p)

namespace Desk

variable {d d' : Desk} {b b' : QueueBook} {K : ℤ}

/-- The bids and the asks of a desk. -/
def view (d : Desk) := d.matcher.book.view d.matcher.pool

/-- A reflected book looks reflected. -/
theorem Inv.view_mirror (h : d.Inv b) (h' : d'.Inv b') (hR : QueueBook.Reflects K b b') :
    d'.view = (d.view.2.map (mirrorLevel K), d.view.1.map (mirrorLevel K)) := by
  have hlen := h.length_le
  have hlen' := h'.length_le
  simp only [QueueBook.slots, QueueBook.resting, List.length_map, List.length_append] at hlen hlen'
  refine Prod.ext ?_ ?_
  · exact sideView_mirror (fun p q hpq => sub_lt_sub_left (α := ℤ) hpq K) h.rep.asks h'.rep.bids
      (by omega) (by omega) (hR.orders_eq (.inr rfl))
  · exact sideView_mirror (fun p q hpq => sub_lt_sub_left (α := ℤ) hpq K) h.rep.bids h'.rep.asks
      (by omega) (by omega) (hR.orders_eq (.inl rfl))

theorem eq_map_of_forall₂ {α β : Type*} {g : α → β} {L : List α} {M : List β}
    (h : List.Forall₂ (fun x y => y = g x) L M) : M = L.map g := by
  induction h with
  | nil => rfl
  | cons hx _ ih => rw [hx, ih, List.map_cons]

/-- **Buy and sell are mirror images.** -/
theorem mirrored_of_traces {i : InstrumentId} {capacity capacity' : ℕ} {L M : List Played}
    (h : Guarded.Trace Desk.call Undrained shown (start i capacity) L d)
    (h' : Guarded.Trace Desk.call Undrained shown (start i capacity') M d')
    (hL : ∀ x ∈ L, x.Mirrorable K)
    (hM : M.map Played.call = L.map fun x => x.call.mirror K) :
    M = L.map (Played.mirror K)
      ∧ d'.view = (d.view.2.map (mirrorLevel K), d.view.1.map (mirrorLevel K)) := by
  obtain ⟨b, hb, hpath⟩ := exists_path h
  obtain ⟨b', hb', hpath'⟩ := exists_path h'
  have hstart : Option.Rel (QueueBook.Reflects K) (some ⟨i, [], [], ∅⟩) (some ⟨i, [], [], ∅⟩) :=
    .some ⟨_, .new K i, .refl _⟩
  obtain ⟨hB, hrel⟩ := Guarded.Path.lockstep (B := fun x y => y = x.mirror K)
    (fun _ x _ _ _ _ hx hR hs ht hc => hs.reflects hR ht (hL x hx) hc.symm) hstart hpath hpath'
    (Guarded.forall₂_of_map_eq hM.symm)
  cases hrel with
  | some hrel => exact ⟨eq_map_of_forall₂ hB, hb.view_mirror hb' hrel⟩

/-- An order at 10, a better one, and a market order for the better one and a part of the other. -/
def threeOrders (makers : Side) (p₁ p₂ p₃ : Price) : List Call :=
  [.acquire,
    .write 3 { id := 1, limitPrice := p₁, initialQty := 5, instrument := 1, side := makers },
    .submit 3, .acquire,
    .write 2 { id := 2, limitPrice := p₂, initialQty := 5, instrument := 1, side := makers },
    .submit 2, .acquire,
    .write 1
      { id := 3, limitPrice := p₃, initialQty := 7, instrument := 1, side := opposite makers
        type := .market, tif := .ioc },
    .submit 1, .cancel 2]

/-- Bids and a sale, reflected at 100 into offers and a purchase. -/
theorem mirrored_of_threeOrders :
    ∃ L M d d', Guarded.Trace Desk.call Undrained shown (start 1 4) L d
      ∧ Guarded.Trace Desk.call Undrained shown (start 1 4) M d'
      ∧ (L.flatMap Played.trades).map (·.price) = [11, 10]
      ∧ M = L.map (Played.mirror 100)
      ∧ d'.view = (d.view.2.map (mirrorLevel 100), d.view.1.map (mirrorLevel 100)) := by
  have hrun : ((Guarded.record Desk.call Undrained shown (start 1 4)
      (threeOrders .buy 10 11 (-7))).bind fun r =>
      (Guarded.record Desk.call Undrained shown (start 1 4) (threeOrders .sell 90 89 107)).map
      fun r' =>
        decide ((r.1.flatMap Played.trades).map (·.price) = [11, 10]
          ∧ (∀ x ∈ r.1, x.Mirrorable 100)
          ∧ r'.1.map Played.call = r.1.map fun x => x.call.mirror 100)) = some true := by
    decide +kernel
  obtain ⟨⟨L, d⟩, hd, hrun⟩ := Option.bind_eq_some_iff.mp hrun
  obtain ⟨⟨M, d'⟩, hd', hval⟩ := Option.map_eq_some_iff.mp hrun
  obtain ⟨htrades, hL, hM⟩ := of_decide_eq_true hval
  have hd := Guarded.Trace.of_record hd
  have hd' := Guarded.Trace.of_record hd'
  obtain ⟨h1, h2⟩ := mirrored_of_traces hd hd' hL hM
  exact ⟨L, M, d, d', hd, hd', htrades, h1, h2⟩

end Desk

end Ordbk
