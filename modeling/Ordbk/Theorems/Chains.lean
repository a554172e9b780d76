import Ordbk.Refinement.Chain
import Ordbk.Lib.Prefix

/-!
# Theorems/Chains — an option chain answers like a one-to-one map

After any calls of `add` and `remove` the chain is a one-to-one map from expiry, strike and type to
ids: each further call does to that map what it says, and each query is answered from it, in key
order (`refines_of_reach`).
-/

namespace Ordbk

namespace OptionKey

/-- The order of the listings: by expiry, then by strike, the call before the put. -/
def Before (a b : OptionKey) : Prop :=
  a.expiry < b.expiry ∨ (a.expiry = b.expiry ∧ (a.strike < b.strike
    ∨ (a.strike = b.strike ∧ a.optionType = .call ∧ b.optionType = .put)))

theorem Before.ne {a b : OptionKey} (h : a.Before b) : a ≠ b := by
  rintro rfl
  rcases h with h | ⟨-, h | ⟨-, h, h'⟩⟩
  · exact lt_irrefl _ h
  · exact irrefl_of (· < ·) a.strike h
  · rw [h] at h'
    cases h'

end OptionKey

/-- **The ids under the keys that satisfy `P`**, in key order. -/
def Lists (M : OneToOne OptionKey InstrumentId) (P : OptionKey → Prop) (ids : List InstrumentId) :
    Prop :=
  ∃ l : List (OptionKey × InstrumentId), ids = l.map Prod.snd
    ∧ l.Pairwise (fun a b => a.1.Before b.1) ∧ ∀ k id, (k, id) ∈ l ↔ P k ∧ M.lookup k = some id

section Lists

variable {M : OneToOne OptionKey InstrumentId} {P : OptionKey → Prop} {ids : List InstrumentId}

theorem Lists.mem_iff (h : Lists M P ids) {id : InstrumentId} :
    id ∈ ids ↔ ∃ k, P k ∧ M.lookup k = some id := by
  obtain ⟨l, rfl, -, hmem⟩ := h
  simp only [List.mem_map, Prod.exists, ← hmem]
  exact ⟨fun ⟨k, _, hk, he⟩ => ⟨k, he ▸ hk⟩, fun ⟨k, hk⟩ => ⟨k, _, hk, rfl⟩⟩

/-- Each id is listed once. -/
theorem Lists.nodup (h : Lists M P ids) : ids.Nodup := by
  obtain ⟨l, rfl, hpair, hmem⟩ := h
  refine List.pairwise_map.mpr (hpair.imp_of_mem fun {a b} ha hb hab heq => ?_)
  have hka := ((hmem a.1 a.2).mp ha).2
  have hkb := ((hmem b.1 b.2).mp hb).2
  exact hab.ne (OneToOne.eq_of_lookup hka (heq ▸ hkb))

end Lists

namespace Chain

/-! ## What the loops push

The listings are nested loops over ordered maps; each pushes calls, puts, or both. -/

/-- The pairs of a slot, for the types in `ts`. -/
def slotPairs (ts : List OptionType) (e : ExpiryDate) (k : Int64) (slot : StrikeSlot) :
    List (OptionKey × InstrumentId) :=
  ts.flatMap fun t => (slot.get t).toList.map fun id => (⟨e, k, t⟩, id)

/-- The pairs of an expiry. -/
def strikePairs (ts : List OptionType) (e : ExpiryDate) (m : StrikeMap) :
    List (OptionKey × InstrumentId) :=
  m.entries.flatMap fun x => slotPairs ts e x.1 x.2

theorem mem_slotPairs {ts : List OptionType} {e : ExpiryDate} {s : Int64} {slot : StrikeSlot}
    {k : OptionKey} {id : InstrumentId} : (k, id) ∈ slotPairs ts e s slot
      ↔ k.expiry = e ∧ k.strike = s ∧ k.optionType ∈ ts ∧ slot.get k.optionType = some id := by
  obtain ⟨e', s', t'⟩ := k
  simp only [slotPairs, List.mem_flatMap, List.mem_map, Option.mem_toList, Prod.mk.injEq,
    OptionKey.mk.injEq]
  constructor
  · rintro ⟨t, ht, i, hi, ⟨rfl, rfl, rfl⟩, rfl⟩
    exact ⟨rfl, rfl, ht, hi⟩
  · rintro ⟨rfl, rfl, ht, hi⟩
    exact ⟨t', ht, id, hi, ⟨rfl, rfl, rfl⟩, rfl⟩

theorem mem_strikePairs {ts : List OptionType} {e : ExpiryDate} {m : StrikeMap} {k : OptionKey}
    {id : InstrumentId} : (k, id) ∈ strikePairs ts e m ↔ k.expiry = e ∧ k.optionType ∈ ts
      ∧ ∃ slot, m.find? k.strike = some slot ∧ slot.get k.optionType = some id := by
  simp only [strikePairs, List.mem_flatMap, Prod.exists, mem_slotPairs, OrdMap.mem_entries]
  constructor
  · rintro ⟨s, slot, hs, he, rfl, ht, hget⟩
    exact ⟨he, ht, slot, hs, hget⟩
  · rintro ⟨he, ht, slot, hs, hget⟩
    exact ⟨_, slot, hs, he, rfl, ht, hget⟩

/-- Calls come before puts. -/
def Ordered (ts : List OptionType) : Prop := ts.Pairwise fun a b => a = .call ∧ b = .put

theorem pairwise_strikePairs {ts : List OptionType} (hts : Ordered ts) (e : ExpiryDate)
    (m : StrikeMap) : (strikePairs ts e m).Pairwise fun a b => a.1.Before b.1 := by
  refine List.pairwise_flatMap.mpr ⟨fun x _ => ?_, m.sorted.imp fun {x y} hxy a ha b hb => ?_⟩
  · refine List.pairwise_flatMap.mpr ⟨fun t _ => ?_, hts.imp fun {t u} htu a ha b hb => ?_⟩
    · cases x.2.get t <;> simp
    · obtain ⟨_, -, rfl⟩ := List.mem_map.mp ha
      obtain ⟨_, -, rfl⟩ := List.mem_map.mp hb
      exact .inr ⟨rfl, .inr ⟨rfl, htu⟩⟩
  · obtain ⟨hea, hsa, -⟩ := mem_slotPairs.mp (show (a.1, a.2) ∈ _ from ha)
    obtain ⟨heb, hsb, -⟩ := mem_slotPairs.mp (show (b.1, b.2) ∈ _ from hb)
    exact .inr ⟨hea.trans heb.symm, .inl (by rw [hsa, hsb]; exact hxy)⟩

/-! ## The listings

Read against the map, a listing has the ids of the contracts that satisfy a condition, each once, in
order of strike. -/

variable {ch : Chain} {M : OneToOne OptionKey InstrumentId}

theorem mem_strikesAt (e : ExpiryDate) {k : OptionKey} {id : InstrumentId} (he : k.expiry = e) :
    (∃ slot, (ch.strikesAt e).find? k.strike = some slot ∧ slot.get k.optionType = some id)
      ↔ (ch.slotAt k.expiry k.strike).get k.optionType = some id := by
  subst he
  unfold slotAt
  cases (ch.strikesAt k.expiry).find? k.strike with
  | none => simp
  | some slot => simp

/-- The ids of one expiry, of the types in `ts`. -/
theorem Represents.lists (h : ch.Represents M) {ts : List OptionType} (hts : Ordered ts)
    (e : ExpiryDate) : Lists M (fun k => k.expiry = e ∧ k.optionType ∈ ts)
      ((strikePairs ts e (ch.strikesAt e)).map Prod.snd) := by
  refine ⟨_, rfl, pairwise_strikePairs hts e _, fun k id => ?_⟩
  rw [mem_strikePairs, and_assoc]
  refine and_congr_right fun he => and_congr_right fun _ => ?_
  rw [mem_strikesAt e he, h.get_slotAt]

theorem callsAt_eq (e : ExpiryDate) :
    ch.callsAt e = (strikePairs [.call] e (ch.strikesAt e)).map Prod.snd := by
  unfold callsAt strikesAt
  cases ch.levels.find? e with
  | none => rfl
  | some m => simp [strikePairs, slotPairs, List.map_flatMap, StrikeSlot.get]

theorem putsAt_eq (e : ExpiryDate) :
    ch.putsAt e = (strikePairs [.put] e (ch.strikesAt e)).map Prod.snd := by
  unfold putsAt strikesAt
  cases ch.levels.find? e with
  | none => rfl
  | some m => simp [strikePairs, slotPairs, List.map_flatMap, StrikeSlot.get]

theorem ids_eq (e : ExpiryDate) (m : StrikeMap) :
    (m.entries.flatMap fun x => x.2.ids) = (strikePairs [.call, .put] e m).map Prod.snd := by
  simp [strikePairs, slotPairs, List.map_flatMap, StrikeSlot.get, StrikeSlot.ids]

theorem atExpiry_eq (e : ExpiryDate) :
    ch.atExpiry e = (strikePairs [.call, .put] e (ch.strikesAt e)).map Prod.snd := by
  unfold atExpiry strikesAt
  cases ch.levels.find? e with
  | none => rfl
  | some m => exact ids_eq e m

/-- **At an expiry are its calls and its puts.** -/
theorem atExpiry_perm (e : ExpiryDate) : (ch.atExpiry e).Perm (ch.callsAt e ++ ch.putsAt e) := by
  unfold atExpiry callsAt putsAt
  cases ch.levels.find? e with
  | none => exact .refl _
  | some m => exact (List.flatMap_append_perm m.entries _ _).symm

theorem mem_both (t : OptionType) : t ∈ [OptionType.call, .put] := by cases t <;> simp

theorem ordered_call_put : Ordered [.call, .put] := by simp [Ordered]

theorem Represents.lists_atExpiry (h : ch.Represents M) (e : ExpiryDate) :
    Lists M (fun k => k.expiry = e) (ch.atExpiry e) := by
  rw [atExpiry_eq]
  simpa only [mem_both, and_true] using h.lists ordered_call_put e

/-- **A sweep of the chain** lists what expires by the date: the loop may break at the first later
expiry, for the levels are sorted. -/
theorem Represents.lists_expiring (h : ch.Represents M) (d : ExpiryDate) :
    Lists M (fun k => k.expiry ≤ d) (ch.expiringOnOrBefore d) := by
  have hdue : (ch.levels.entries.takeWhile fun x => !decide (d < x.1))
      = ch.levels.entries.filter fun x => !decide (d < x.1) :=
    Prefix.takeWhile_eq_filter (fun a b hab hb => by simpa using hab.le.trans (by simpa using hb))
      ch.levels.sorted
  refine ⟨(ch.levels.entries.takeWhile fun x => !decide (d < x.1)).flatMap
    fun x => strikePairs [.call, .put] x.1 x.2, ?_, ?_, fun k id => ?_⟩
  · rw [List.map_flatMap]
    exact List.flatMap_congr fun x _ => ids_eq x.1 x.2
  · have hsorted := ch.levels.sorted.sublist (List.takeWhile_sublist fun x => !decide (d < x.1))
    refine List.pairwise_flatMap.mpr ⟨fun x _ => pairwise_strikePairs ordered_call_put x.1 x.2,
      hsorted.imp fun {x y} hxy a ha b hb => .inl ?_⟩
    rw [(mem_strikePairs.mp (show (a.1, a.2) ∈ _ from ha)).1,
      (mem_strikePairs.mp (show (b.1, b.2) ∈ _ from hb)).1]
    exact hxy
  · rw [hdue, ← h.get_slotAt, ← mem_strikesAt k.expiry rfl]
    simp only [List.mem_flatMap, List.mem_filter, mem_strikePairs, Prod.exists, OrdMap.mem_entries,
      mem_both, true_and, Bool.not_eq_true', decide_eq_false_iff_not, not_lt]
    constructor
    · rintro ⟨e, m, ⟨hm, hle⟩, rfl, slot, hs, hget⟩
      exact ⟨hle, slot, find?_strikesAt.mpr ⟨m, hm, hs⟩, hget⟩
    · rintro ⟨hle, slot, hs, hget⟩
      obtain ⟨m, hm, hs⟩ := find?_strikesAt.mp hs
      exact ⟨k.expiry, m, ⟨hm, hle⟩, rfl, slot, hs, hget⟩

/-! ## The expiries

Removals erase a strike with its last contract and an expiry with its last strike, so what is listed
is never empty. -/

theorem expiries_sorted (ch : Chain) : ch.expiries.Pairwise (· < ·) :=
  List.pairwise_map.mpr ch.levels.sorted

/-- An expiry is there if something expires then: no expiry is kept without a strike, and no strike
without an id. -/
theorem Represents.mem_expiries (h : ch.Represents M) (e : ExpiryDate) :
    e ∈ ch.expiries ↔ ∃ k id, M.lookup k = some id ∧ k.expiry = e := by
  simp only [expiries, List.mem_map, Prod.exists, OrdMap.mem_entries, ← h.get_slotAt]
  constructor
  · rintro ⟨e, m, hm, rfl⟩
    obtain ⟨⟨s, slot⟩, hs⟩ := List.exists_mem_of_ne_nil _ (h.tidy.strikes e m hm)
    have hfind := (OrdMap.mem_entries m).mp hs
    have hne := h.tidy.slots e m hm s slot hfind
    rw [Ne, StrikeSlot.eq_empty_iff, not_forall] at hne
    obtain ⟨t, ht⟩ := hne
    obtain ⟨id, hid⟩ := Option.ne_none_iff_exists'.mp ht
    exact ⟨⟨e, s, t⟩, id, (mem_strikesAt e rfl).mp ⟨slot, find?_strikesAt.mpr ⟨m, hm, hfind⟩, hid⟩,
      rfl⟩
  · rintro ⟨k, id, hk, rfl⟩
    have hne : ch.slotAt k.expiry k.strike ≠ {} := fun hs => by
      rw [hs, StrikeSlot.get_empty] at hk
      cases hk
    obtain ⟨m, hm, -⟩ := exists_of_slotAt hne
    exact ⟨k.expiry, m, hm, rfl⟩

/-! ## Any calls

The queries, and what calls do to the map, in every state that calls lead to. -/

/-- A call that changes a chain. -/
inductive Call
  | add (id : InstrumentId) (contract : Contract)
  | remove (id : InstrumentId)

/-- One call, whatever it returns; `none` if it throws. -/
def step (ch : Chain) : Call → Option Chain
  | .add id contract => some (ch.add id contract).1
  | .remove id => (ch.remove id).map Prod.fst

/-- **The queries** are answered from the map. -/
structure Answers (ch : Chain) (M : OneToOne OptionKey InstrumentId) : Prop where
  /-- A contract is found by its terms. -/
  find : ∀ e s t, ch.find e s t = M.lookup ⟨e, s, t⟩
  /-- `size` counts the pairs. -/
  size : ch.size = M.card
  /-- The dates are in order, each once, and those of the pairs. -/
  expiries : ch.expiries.Pairwise (· < ·) ∧
    ∀ e, e ∈ ch.expiries ↔ ∃ k id, M.lookup k = some id ∧ k.expiry = e
  /-- The calls of a date, by strike, -/
  callsAt : ∀ e, Lists M (fun k => k.expiry = e ∧ k.optionType = .call) (ch.callsAt e)
  /-- its puts, -/
  putsAt : ∀ e, Lists M (fun k => k.expiry = e ∧ k.optionType = .put) (ch.putsAt e)
  /-- and all of them, which is the two together. -/
  atExpiry : ∀ e, Lists M (fun k => k.expiry = e) (ch.atExpiry e) ∧ (ch.atExpiry e).Nodup
    ∧ (ch.atExpiry e).Perm (ch.callsAt e ++ ch.putsAt e)
  /-- All that have expired by a day. -/
  expiring : ∀ d, Lists M (fun k => k.expiry ≤ d) (ch.expiringOnOrBefore d)
    ∧ (ch.expiringOnOrBefore d).Nodup

theorem Represents.answers (h : ch.Represents M) : ch.Answers M where
  find e s t := h.find ⟨e, s, t⟩
  size := h.byId.card_eq.symm
  expiries := ⟨ch.expiries_sorted, h.mem_expiries⟩
  callsAt e := by
    rw [callsAt_eq]
    simpa only [List.mem_singleton] using h.lists (List.pairwise_singleton _ _) e
  putsAt e := by
    rw [putsAt_eq]
    simpa only [List.mem_singleton] using h.lists (List.pairwise_singleton _ _) e
  atExpiry e := ⟨h.lists_atExpiry e, (h.lists_atExpiry e).nodup, atExpiry_perm e⟩
  expiring d := ⟨h.lists_expiring d, (h.lists_expiring d).nodup⟩

/-- **The calls** do to the map what they say: an `add` goes through exactly for a new id under a
new key, a `remove` takes out the pair of its id and never throws, and either changes nothing else.
-/
structure Obeys (ch : Chain) (M : OneToOne OptionKey InstrumentId) : Prop where
  /-- A new pair is put in. -/
  add : ∀ id c (hfresh : M.Fresh id), M.lookup c.key = none →
    (ch.add id c).2 = true ∧ (ch.add id c).1.Represents (M.insert c.key id hfresh)
  /-- Another is not, and the chain is as before. -/
  add_refused : ∀ id c, ¬ (M.Fresh id ∧ M.lookup c.key = none) → ch.add id c = (ch, false)
  /-- A listed id is taken out, with its pair and no other. -/
  remove : ∀ id k, M.lookup k = some id →
    ∃ ch', ch.remove id = some (ch', true) ∧ ch'.Represents (M.erase k)
  /-- An unlisted one is not found. -/
  remove_absent : ∀ id, M.Fresh id → ch.remove id = some (ch, false)

theorem Represents.obeys (h : ch.Represents M) : ch.Obeys M where
  add _ _ := h.add_accepted
  add_refused _ _ href := h.add_refused (Classical.not_and_iff_not_or_not.mp href)
  remove _ _ := h.remove_present
  remove_absent _ := h.remove_absent

/-- After any call the chain is still a one-to-one map. -/
theorem Represents.step (h : ch.Represents M) {call : Call} {ch' : Chain}
    (hstep : ch.step call = some ch') : ∃ M', ch'.Represents M' := by
  cases call with
  | add id c =>
    obtain rfl := Option.some.inj hstep
    by_cases hnew : M.Fresh id ∧ M.lookup c.key = none
    · exact ⟨_, (h.add_accepted hnew.1 hnew.2).2⟩
    · rw [h.obeys.add_refused id c hnew]
      exact ⟨M, h⟩
  | remove id =>
    rw [Chain.step, Option.map_eq_some_iff] at hstep
    obtain ⟨r, hr, rfl⟩ := hstep
    by_cases hfresh : M.Fresh id
    · obtain rfl := Option.some.inj ((h.remove_absent hfresh).symm.trans hr)
      exact ⟨M, h⟩
    · rw [OneToOne.Fresh, not_forall] at hfresh
      obtain ⟨k, hk⟩ := hfresh
      obtain ⟨ch', hch', hrep⟩ := h.remove_present (not_not.mp hk)
      obtain rfl := Option.some.inj (hch'.symm.trans hr)
      exact ⟨_, hrep⟩

/-- **A chain refines a finite one-to-one map**, after any calls of `add` and `remove`. -/
theorem refines_of_reach {u : Text} {ch : Chain}
    (h : Guarded.Reach step (fun _ _ => True) { underlying := u } ch) :
    ∃ M, ch.Represents M ∧ ch.Answers M ∧ ch.Obeys M := by
  obtain ⟨M, hM⟩ := h.invariant (I := fun ch => ∃ M, ch.Represents M) ⟨_, represents_new u⟩
    fun _ _ _ ⟨_, hM⟩ _ hs => hM.step hs
  exact ⟨M, hM, hM.answers, hM.obeys⟩

/-- A call and a put share a strike, two adds are refused, and the call is removed. -/
theorem refines_of_removal : ∃ ch : Chain,
    Guarded.Reach step (fun _ _ => True) { underlying := [65, 65, 80, 76] } ch
      ∧ ch.expiringOnOrBefore ⟨2026, 2, 20⟩ = [2, 3] ∧ ch.callsAt ⟨2026, 1, 17⟩ = []
      ∧ ∃ M, ch.Represents M ∧ ch.Answers M ∧ ch.Obeys M := by
  have hrun : (Guarded.run step (fun _ _ => True) { underlying := [65, 65, 80, 76] }
      [.add 1 ⟨[65, 65, 80, 76], 15000, ⟨2026, 1, 17⟩, .call, .american, 100, .physical⟩,
        .add 3 ⟨[65, 65, 80, 76], 15000, ⟨2026, 2, 20⟩, .call, .american, 100, .physical⟩,
        .add 2 ⟨[65, 65, 80, 76], 15000, ⟨2026, 1, 17⟩, .put, .american, 100, .physical⟩,
        .add 2 ⟨[65, 65, 80, 76], 16000, ⟨2026, 1, 17⟩, .put, .american, 100, .physical⟩,
        .add 4 ⟨[65, 65, 80, 76], 15000, ⟨2026, 1, 17⟩, .call, .american, 100, .physical⟩,
        .remove 1]).map (fun ch => decide (ch.expiringOnOrBefore ⟨2026, 2, 20⟩ = [2, 3]
          ∧ ch.callsAt ⟨2026, 1, 17⟩ = [])) = some true := by decide +kernel
  obtain ⟨ch, hch, hlists⟩ := Option.map_eq_some_iff.mp hrun
  have hreach := Guarded.Reach.of_run hch
  exact ⟨ch, hreach, (of_decide_eq_true hlists).1, (of_decide_eq_true hlists).2,
    refines_of_reach hreach⟩

end Chain

end Ordbk
