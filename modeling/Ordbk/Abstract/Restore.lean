import Ordbk.Abstract.Interest

/-!
# Abstract/Restore — building a book again from what is left in it

Submit what remains of each order of a book to an empty one, the bids from best to worst and then
the asks: nobody trades, and the new book has the interests of the old (`restores`).
-/

namespace Ordbk

/-- What remains of an order, as a new one. -/
def OrderData.restored (o : OrderData) : OrderData :=
  { o with initialQty := o.remaining, filledQty := 0, status := .new }

@[simp] theorem OrderData.interest_restored (o : OrderData) : o.restored.interest = o.interest := by
  unfold interest remaining restored
  simp [remaining]

namespace QueueBook

variable {b c : QueueBook} {a : Slot} {o : OrderData} {s : Side}

/-- **An order that will rest at the end of its queue**, having met nobody. -/
structure Quiet (c : QueueBook) (o : OrderData) : Prop where
  /-- A limit order that may rest. -/
  plain : Plain o
  /-- Nothing of it is filled yet. -/
  fresh : o.filledQty = 0
  /-- It wants something. -/
  wanted : o.initialQty ≠ 0
  /-- It belongs to this book. -/
  inst : o.instrument = c.instrument
  /-- **It crosses nobody.** -/
  clear : ∀ x ∈ c.interests (opposite o.side), Matcher.blocked o x.price = true
  /-- And is better than nobody on its own side. -/
  last : ∀ x ∈ c.interests o.side, ¬ better o.side o.limitPrice x.price

/-- The interests of a side are those of its orders. -/
theorem mem_interests {x : Interest} : x ∈ c.interests s ↔ ∃ e ∈ c.side s, e.order.interest = x :=
  List.mem_map

/-- A sweep ends before it has begun. -/
theorem Quiet.stops (h : c.Quiet o) : Stops o (c.side (opposite o.side)) :=
  .inr fun m hm => h.clear _ (mem_interests.mpr ⟨m, List.mem_of_mem_head? hm, rfl⟩)

/-- It passes the checks. -/
theorem Quiet.rejects_eq_false (h : c.Quiet o) : c.rejects o = false := by
  have hprice : ¬ o.limitPrice ≤ 0 := not_le.mpr h.plain.price
  have htif : o.tif ≠ .fok := by
    rcases h.plain.tif with ht | ht <;> rw [ht] <;> decide
  simp [rejects, h.wanted, h.inst, h.plain.type, hprice, htif]

/-- It comes to rest without a trade. -/
theorem Quiet.submit_eq (h : c.Quiet o) (a : Slot) :
    (c.submit a o).book = c.rest ⟨a, o.withStatus o.restStatus⟩ ∧ (c.submit a o).trades = [] := by
  have hentry : c.entry o = ⟨o, c.side (opposite o.side), [], []⟩ := sweep_stop h.stops
  have hnot : o.isFullyFilled = false := by
    rw [OrderData.isFullyFilled, h.fresh, beq_eq_false_iff_ne]
    exact h.wanted.symm
  have hpatient : ¬ (o.type = .market ∨ o.tif = .ioc) := by
    rw [h.plain.type]
    rcases h.plain.tif with ht | ht <;> rw [ht] <;> decide
  rw [submit, if_neg (by simp [h.rejects_eq_false]), hentry, if_neg (by simp [hnot]),
    if_neg hpatient, entered_of_stops h.stops]
  exact ⟨rfl, rfl⟩

/-- **It rests at the end of its queue.** -/
theorem Quiet.interests_submit (h : c.Quiet o) (a : Slot) (s : Side) :
    (c.submit a o).book.interests s
      = if SameSide o.side s then c.interests s ++ [o.interest] else c.interests s := by
  have hlast : ∀ e ∈ c.side o.side, ¬ better o.side o.limitPrice e.price := fun e he =>
    h.last _ (mem_interests.mpr ⟨e, he, rfl⟩)
  have henqueue : Priority.enqueue Resting.price (better o.side) ⟨a, o.withStatus o.restStatus⟩
      (c.side o.side) = c.side o.side ++ [⟨a, o.withStatus o.restStatus⟩] :=
    Priority.enqueue_of_forall_not hlast
  rw [(h.submit_eq a).1]
  have hside : (OrderData.withStatus o o.restStatus).side = o.side := rfl
  unfold interests
  rw [side_rest]
  simp only [hside, henqueue]
  split_ifs with hs
  · rw [List.map_append, c.side_congr hs]
    rfl
  · rfl

/-- A list of orders for one side, each to rest behind those before it. -/
structure Quietly (c : QueueBook) (s : Side) (os : List OrderData) : Prop where
  /-- Each of them may rest, wants something, and has not been filled. -/
  plain : ∀ o ∈ os, Plain o ∧ o.filledQty = 0 ∧ o.initialQty ≠ 0 ∧ o.instrument = c.instrument
  /-- They are all of one side. -/
  side : ∀ o ∈ os, SameSide o.side s
  /-- Nobody on the other side is in their way. -/
  clear : ∀ o ∈ os, ∀ x ∈ c.interests (opposite s), Matcher.blocked o x.price = true
  /-- And they come in the order of their priority, after those who are there. -/
  sorted : ((c.interests s).map (·.price) ++ os.map (·.limitPrice)).Pairwise fun p q =>
    ¬ better s q p

/-- The first of them rests, and the others can follow. -/
theorem Quietly.head {os : List OrderData} (h : c.Quietly s (o :: os)) :
    c.Quiet o ∧ ∀ a, (c.submit a o).book.Quietly s os := by
  obtain ⟨⟨hplain, hfresh, hwanted, hinst⟩, hplains⟩ := List.forall_mem_cons.mp h.plain
  obtain ⟨hside, hsides⟩ := List.forall_mem_cons.mp h.side
  obtain ⟨hclear, hclears⟩ := List.forall_mem_cons.mp h.clear
  have hopp : opposite o.side = opposite s := by
    unfold opposite
    simp only [show o.side = .buy ↔ s = .buy from hside]
  have hsorted := h.sorted
  rw [List.map_cons] at hsorted
  have hquiet : c.Quiet o := by
    refine ⟨hplain, hfresh, hwanted, hinst, by rw [hopp]; exact hclear, fun x hx => ?_⟩
    rw [interests, c.side_congr hside] at hx
    rw [better_congr hside]
    exact (List.pairwise_append.mp hsorted).2.2 _ (List.mem_map_of_mem hx) _ (List.mem_cons_self ..)
  refine ⟨hquiet, fun a => ⟨fun o' ho' => ?_, hsides, fun o' ho' x hx => ?_, ?_⟩⟩
  · rw [instrument_submit]
    exact hplains o' ho'
  · have hne : ¬ SameSide o.side (opposite s) := by
      intro hs
      exact sameSide_opposite.mp (show SameSide (opposite s) s from (hs.symm.trans hside)) Iff.rfl
    rw [hquiet.interests_submit, if_neg hne] at hx
    exact hclears o' ho' x hx
  · rw [hquiet.interests_submit, if_pos hside, List.map_append, List.append_assoc]
    exact hsorted

/-- **They all rest**, one behind the other. -/
theorem Quietly.path {os : List OrderData} {R : List Played} {t : Option QueueBook}
    (h : c.Quietly s os) (hp : Guarded.Path Answers (some c) R t)
    (hR : R.map Played.call = os.map .submit) :
    ∃ c', t = some c' ∧ (∀ x ∈ R, x.trades = []) ∧ c'.instrument = c.instrument
      ∧ ∀ s', c'.interests s'
        = if SameSide s s' then c.interests s' ++ os.map (·.interest) else c.interests s' := by
  induction os generalizing c R with
  | nil =>
    obtain rfl := List.map_eq_nil_iff.mp hR
    cases hp
    exact ⟨c, rfl, by simp, rfl, fun s' => by simp⟩
  | cons o os ih =>
    obtain ⟨x, R, rfl, hx, hcalls⟩ := List.map_eq_cons_iff.mp hR
    obtain ⟨t₁, hans, hp⟩ := hp.uncons
    obtain ⟨hquiet, hnext⟩ := h.head
    cases hans with
    | @submit _ a o' _ _ _ =>
      obtain rfl : o' = o := BookCall.submit.inj hx
      obtain ⟨c', rfl, htrades, hinst, hint⟩ := ih (hnext a) hp hcalls
      refine ⟨c', rfl, List.forall_mem_cons.mpr ⟨(hquiet.submit_eq a).2, htrades⟩,
        hinst.trans (instrument_submit _ _ _), fun s' => ?_⟩
      have hside : SameSide o'.side s := h.side o' (List.mem_cons_self ..)
      have hiff : SameSide o'.side s' ↔ SameSide s s' := ⟨hside.symm.trans, hside.trans⟩
      rw [hint, hquiet.interests_submit]
      simp only [hiff]
      split_ifs
      · rw [List.map_cons, List.append_assoc]
        rfl
      · rfl
    | cancel => cases hx
    | expire => cases hx

/-! ## Both sides

The bids first: then every ask meets the bids of the book it came from, which it did not cross. -/

/-- What is left of the orders of a side, best first. -/
def leftovers (b : QueueBook) (s : Side) : List OrderData := (b.side s).map (·.order.restored)

/-- What remains of the orders is what the book was interested in. -/
theorem interest_leftovers (b : QueueBook) (s : Side) :
    (b.leftovers s).map (·.interest) = b.interests s := by
  unfold leftovers interests
  rw [List.map_map]
  exact List.map_congr_left fun e _ => e.order.interest_restored

/-- **A book restored**: nobody trades, and the interests are those of the book. -/
theorem restores (hw : b.WF) (hall : b.All Plain) {R : List Played} {t : Option QueueBook}
    (hp : Guarded.Path Answers (some ⟨b.instrument, [], [], ∅⟩) R t)
    (hR : R.map Played.call = (b.leftovers .buy ++ b.leftovers .sell).map .submit) :
    ∃ c, t = some c ∧ (∀ x ∈ R, x.trades = []) ∧ c.instrument = b.instrument
      ∧ ∀ s, c.interests s = b.interests s := by
  have hplain : ∀ s, ∀ o ∈ b.leftovers s, Plain o ∧ o.filledQty = 0 ∧ o.initialQty ≠ 0
      ∧ o.instrument = b.instrument := by
    intro s o ho
    obtain ⟨e, he, rfl⟩ := List.mem_map.mp ho
    have hp := hall.side he
    exact ⟨⟨hp.side, hp.type, hp.tif, hp.price⟩, rfl, (hw.open e he).remaining_ne_zero,
      hw.inst s e he⟩
  have hside : ∀ s, ∀ o ∈ b.leftovers s, SameSide o.side s := by
    intro s o ho
    obtain ⟨e, he, rfl⟩ := List.mem_map.mp ho
    exact hw.sided s e he
  have hprices : ∀ s, (b.leftovers s).map (·.limitPrice) = (b.side s).map (·.price) := fun s => by
    unfold leftovers
    rw [List.map_map]
    rfl
  have hsorted : ∀ s, ((b.leftovers s).map (·.limitPrice)).Pairwise fun p q =>
      ¬ better s q p := fun s => by
    rw [hprices]
    exact Priority.sorted_iff_map.mp (hw.sorted s)
  rw [List.map_append] at hR
  obtain ⟨R₁, R₂, rfl, hR₁, hR₂⟩ := List.map_eq_append_iff.mp hR
  obtain ⟨t₁, hp₁, hp₂⟩ := hp.split
  -- the bids rest: there are no asks
  have hbids : (QueueBook.mk b.instrument [] [] ∅).Quietly .buy (b.leftovers .buy) :=
    ⟨hplain .buy, hside .buy, fun _ _ x hx => (by cases hx), hsorted .buy⟩
  obtain ⟨c₁, rfl, htrades₁, hinst₁, hint₁⟩ := hbids.path hp₁ hR₁
  have hbuy : c₁.interests .buy = b.interests .buy := by
    rw [hint₁, if_pos (by decide), interest_leftovers]
    rfl
  have hsell : c₁.interests .sell = [] := by
    rw [hint₁, if_neg (by decide)]
    rfl
  -- the asks rest: they do not cross the bids
  have hasks : c₁.Quietly .sell (b.leftovers .sell) := by
    refine ⟨by rw [hinst₁]; exact hplain .sell, hside .sell, fun o ho x hx => ?_, ?_⟩
    · obtain ⟨e, he, rfl⟩ := List.mem_map.mp ho
      obtain ⟨f, hf, rfl⟩ := mem_interests.mp (hbuy ▸ hx)
      have hcross : f.price < e.price := hw.uncrossed f hf e he
      have hne : e.order.restored.side ≠ .buy := fun hs =>
        (by decide : ¬ SameSide .buy .sell) (hs ▸ hside .sell _ ho)
      have hnot : ¬ e.order.restored.limitPrice ≤ f.order.interest.price := not_le.mpr hcross
      rw [Matcher.blocked, (hplain .sell _ ho).1.type, pricesCross, if_neg hne,
        decide_eq_false hnot]
      rfl
    · rw [hsell]
      exact hsorted .sell
  obtain ⟨c, rfl, htrades, hinst, hint⟩ := hasks.path hp₂ hR₂
  refine ⟨c, rfl, fun x hx => ?_, hinst.trans hinst₁, fun s => ?_⟩
  · rcases List.mem_append.mp hx with hx | hx
    · exact htrades₁ x hx
    · exact htrades x hx
  · rw [hint, interest_leftovers]
    by_cases hs : s = .buy
    · rw [hs, if_neg (by decide), hbuy]
    · have hsame : SameSide .sell s := ⟨fun h => (by cases h), fun h => absurd h hs⟩
      have hcongr : ∀ q : QueueBook, q.interests s = q.interests .sell := fun q => by
        unfold interests
        rw [q.side_congr hsame]
      rw [if_pos hsame, hcongr, hcongr, hsell, List.nil_append]

end QueueBook

end Ordbk
