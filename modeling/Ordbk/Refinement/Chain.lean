import Ordbk.Instruments.Chain
import Ordbk.Lib.OneToOne
import Ordbk.Lib.Reach
import Ordbk.Abstract.QueueBook

/-!
# Refinement/Chain — the chain is a one-to-one map

An option chain is for one thing: to say which instrument trades a contract.  In the abstract it is
a finite map from expiry, strike and type to ids, no id under two keys; the nested levels and the
two indexes of the code are that map (`Represents`), with nothing empty in them.
-/

namespace Ordbk

/-- What tells the contracts of an underlying apart. -/
@[ext] structure OptionKey where
  expiry : ExpiryDate
  strike : Int64
  optionType : OptionType
  deriving DecidableEq, Repr

/-- What the chain distinguishes a contract by. -/
def Contract.key (c : Contract) : OptionKey := ⟨c.expiry, c.strike, c.optionType⟩

namespace StrikeSlot

variable (slot : StrikeSlot) (v : Option InstrumentId) (t t' : OptionType)

@[simp] theorem get_empty : ({} : StrikeSlot).get t = none := by cases t <;> rfl

/-- Reading a slot that was written. -/
theorem get_set : (slot.set v t).get t' = if t' = t then v else slot.get t' := by
  cases t <;> cases t' <;> rfl

/-- A slot is empty when there is neither a call nor a put, -/
theorem eq_empty_iff : slot = {} ↔ ∀ t, slot.get t = none := by
  refine ⟨fun h t => h ▸ get_empty t, fun h => ?_⟩
  obtain ⟨call, put⟩ := slot
  obtain rfl : call = none := h .call
  obtain rfl : put = none := h .put
  rfl

/-- as the code tests it. -/
theorem isNone_and_isNone : (slot.call.isNone && slot.put.isNone) = true ↔ slot = {} := by
  rw [eq_empty_iff, Bool.and_eq_true, Option.isNone_iff_eq_none, Option.isNone_iff_eq_none]
  refine ⟨fun ⟨hc, hp⟩ t => ?_, fun h => ⟨h .call, h .put⟩⟩
  cases t with
  | call => exact hc
  | put => exact hp

end StrikeSlot

namespace Chain

variable {ch : Chain}

/-- A look-up reads the slot of its expiry and strike. -/
theorem find_eq (e : ExpiryDate) (k : Int64) (t : OptionType) :
    ch.find e k t = (ch.slotAt e k).get t := by
  unfold find slotAt strikesAt
  cases ch.levels.find? e with
  | none => exact (StrikeSlot.get_empty t).symm
  | some strikes =>
    cases hk : strikes.find? k with
    | none => simp [hk]
    | some slot => simp [hk]

/-- Nothing in the levels is empty. -/
structure Tidy (levels : OrdMap (fun a b : ExpiryDate => a < b) StrikeMap) : Prop where
  /-- No expiry without a strike, -/
  strikes : ∀ e m, levels.find? e = some m → m.entries ≠ []
  /-- and no strike without an instrument. -/
  slots : ∀ e m, levels.find? e = some m → ∀ k slot, m.find? k = some slot → slot ≠ {}

/-- Nothing there, nothing empty. -/
theorem tidy_empty : Tidy .empty := ⟨nofun, nofun⟩

/-! ## Writing a slot

`add` and `remove` write one slot of the nested maps; every other slot reads as before. -/

/-- Reading the slots after a write. -/
theorem slotAt_store (e e' : ExpiryDate) (k k' : Int64) (slot : StrikeSlot) :
    ({ ch with levels := ch.store e k slot } : Chain).slotAt e' k'
      = if e' = e ∧ k' = k then slot else ch.slotAt e' k' := by
  unfold slotAt strikesAt store
  rw [OrdMap.find?_insertOrAssign]
  by_cases he : e' = e
  · rw [if_pos he, Option.getD_some, OrdMap.find?_insertOrAssign]
    by_cases hk : k' = k
    · rw [if_pos hk, if_pos ⟨he, hk⟩]
      rfl
    · rw [if_neg hk, if_neg fun h => hk h.2, he]
      rfl
  · rw [if_neg he, if_neg fun h => he h.1]

/-- A strike that is found is a strike of an expiry that is there. -/
theorem find?_strikesAt {e : ExpiryDate} {k : Int64} {slot : StrikeSlot} :
    (ch.strikesAt e).find? k = some slot ↔ ∃ m, ch.levels.find? e = some m
      ∧ m.find? k = some slot := by
  unfold strikesAt
  cases ch.levels.find? e with
  | none => simp
  | some m => simp

/-- A strike that is found has an instrument. -/
theorem Tidy.strikesAt (h : Tidy ch.levels) {e : ExpiryDate} {k : Int64} {slot : StrikeSlot}
    (hk : (ch.strikesAt e).find? k = some slot) : slot ≠ {} := by
  obtain ⟨m, he, hs⟩ := find?_strikesAt.mp hk
  exact h.slots e m he k slot hs

/-- Writing something leaves nothing empty. -/
theorem Tidy.store (h : Tidy ch.levels) (e : ExpiryDate) (k : Int64) {slot : StrikeSlot}
    (hne : slot ≠ {}) : Tidy (ch.store e k slot) := by
  unfold Chain.store
  refine ⟨fun e' m hm => ?_, fun e' m hm k' slot' hk' => ?_⟩
  · rw [OrdMap.find?_insertOrAssign] at hm
    split_ifs at hm with he
    · obtain rfl := Option.some.inj hm
      exact OrdMap.entries_ne_nil ((OrdMap.find?_insertOrAssign ..).trans (if_pos rfl))
    · exact h.strikes e' m hm
  · rw [OrdMap.find?_insertOrAssign] at hm
    split_ifs at hm with he
    · obtain rfl := Option.some.inj hm
      rw [OrdMap.find?_insertOrAssign] at hk'
      split_ifs at hk' with hk
      · exact Option.some.inj hk' ▸ hne
      · exact h.strikesAt hk'
    · exact h.slots e' m hm k' slot' hk'

/-- A slot with something in it is there. -/
theorem exists_of_slotAt {e : ExpiryDate} {k : Int64} (hne : ch.slotAt e k ≠ {}) :
    ∃ m, ch.levels.find? e = some m ∧ m.find? k = some (ch.slotAt e k) := by
  refine find?_strikesAt.mp ?_
  unfold slotAt at hne ⊢
  cases hk : (ch.strikesAt e).find? k with
  | none =>
    rw [hk] at hne
    exact absurd rfl hne
  | some slot => rfl

/-- Writing back what is there changes nothing. -/
theorem store_slotAt {e : ExpiryDate} {k : Int64} (hne : ch.slotAt e k ≠ {}) :
    ch.store e k (ch.slotAt e k) = ch.levels := by
  obtain ⟨m, he, hk⟩ := exists_of_slotAt hne
  have hstrikes : ch.strikesAt e = m := by rw [strikesAt, he, Option.getD_some]
  rw [store, hstrikes, OrdMap.insertOrAssign_of_find? hk, OrdMap.insertOrAssign_of_find? he]

/-! ## Clearing a slot

`remove` clears one field, then erases the strike if the slot is empty, and then the expiry if that
was its last strike. -/

/-- The strikes of an expiry after a slot is written, and the strike erased if it is empty. -/
def strikesCut (m : StrikeMap) (k : Int64) (slot : StrikeSlot) : StrikeMap :=
  if slot.call.isNone && slot.put.isNone then (m.insertOrAssign k slot).erase k
  else m.insertOrAssign k slot

/-- The levels after that, and the expiry erased if it has no strike left. -/
def cut (ch : Chain) (e : ExpiryDate) (m : StrikeMap) :
    OrdMap (fun a b : ExpiryDate => a < b) StrikeMap :=
  if m.entries.isEmpty then (ch.levels.insertOrAssign e m).erase e else ch.levels.insertOrAssign e m

/-- The strikes that are left, -/
theorem find?_strikesCut (m : StrikeMap) (k k' : Int64) (slot : StrikeSlot) :
    (strikesCut m k slot).find? k'
      = if k' = k then (if slot = {} then none else some slot) else m.find? k' := by
  unfold strikesCut
  by_cases hs : slot = {}
  · rw [if_pos (slot.isNone_and_isNone.mpr hs), OrdMap.find?_erase, OrdMap.find?_insertOrAssign,
      if_pos hs]
    split_ifs <;> rfl
  · rw [if_neg fun h => hs (slot.isNone_and_isNone.mp h), OrdMap.find?_insertOrAssign, if_neg hs]

/-- the expiries that are left, -/
theorem find?_cut (ch : Chain) (e e' : ExpiryDate) (m : StrikeMap) :
    (ch.cut e m).find? e'
      = if e' = e then (if m.entries = [] then none else some m) else ch.levels.find? e' := by
  unfold cut
  by_cases hm : m.entries = []
  · rw [if_pos (List.isEmpty_iff.mpr hm), OrdMap.find?_erase,
      OrdMap.find?_insertOrAssign, if_pos hm]
    split_ifs <;> rfl
  · rw [if_neg fun h => hm (List.isEmpty_iff.mp h), OrdMap.find?_insertOrAssign, if_neg hm]

/-- and what their slots hold. -/
theorem slotAt_cut {e e' : ExpiryDate} {k k' : Int64} {m : StrikeMap} {slot : StrikeSlot}
    (he : ch.levels.find? e = some m) :
    ({ ch with levels := ch.cut e (strikesCut m k slot) } : Chain).slotAt e' k'
      = if e' = e ∧ k' = k then slot else ch.slotAt e' k' := by
  have hslot : ((strikesCut m k slot).find? k').getD {}
      = if k' = k then slot else (m.find? k').getD {} := by
    rw [find?_strikesCut]
    split_ifs with hk hs
    · exact hs.symm
    · rfl
    · rfl
  unfold slotAt strikesAt
  rw [find?_cut]
  by_cases hee : e' = e
  · rw [if_pos hee, hee, he, Option.getD_some]
    simp only [true_and, ← hslot]
    split_ifs with hnil
    · rw [OrdMap.find?_of_entries_nil hnil]
      rfl
    · rfl
  · rw [if_neg hee, if_neg fun h => hee h.1]

/-- Nothing empty stays behind. -/
theorem Tidy.cut (h : Tidy ch.levels) {e : ExpiryDate} {k : Int64} {m : StrikeMap}
    {slot : StrikeSlot}
    (he : ch.levels.find? e = some m) : Tidy (ch.cut e (strikesCut m k slot)) := by
  refine ⟨fun e' m' hm => ?_, fun e' m' hm k' slot' hk' => ?_⟩
  · rw [find?_cut] at hm
    split_ifs at hm with hee hnil
    · exact Option.some.inj hm ▸ hnil
    · exact h.strikes e' m' hm
  · rw [find?_cut] at hm
    split_ifs at hm with hee hnil
    · obtain rfl := Option.some.inj hm
      rw [find?_strikesCut] at hk'
      split_ifs at hk' with hkk hs
      · exact Option.some.inj hk' ▸ hs
      · exact h.slots e m he k' slot' hk'
    · exact h.slots e' m' hm k' slot' hk'

/-- One field of one slot is written, and no other is read differently. -/
theorem get_written (k k' : OptionKey) (v : Option InstrumentId) :
    (if k'.expiry = k.expiry ∧ k'.strike = k.strike then
        (ch.slotAt k.expiry k.strike).set v k.optionType
      else ch.slotAt k'.expiry k'.strike).get k'.optionType
      = if k' = k then v else (ch.slotAt k'.expiry k'.strike).get k'.optionType := by
  by_cases hk : k'.expiry = k.expiry ∧ k'.strike = k.strike
  · rw [if_pos hk, StrikeSlot.get_set, hk.1, hk.2]
    by_cases ht : k'.optionType = k.optionType
    · rw [if_pos ht, if_pos (OptionKey.ext hk.1 hk.2 ht)]
    · rw [if_neg ht, if_neg fun h => ht (congrArg _ h)]
  · rw [if_neg hk, if_neg fun h => hk ⟨congrArg _ h, congrArg _ h⟩]

/-! ## The one-to-one map

The nested levels, `by_id_` and `id_to_type_` are three views of one map. -/

/-- **The three structures are one map.** -/
structure Represents (ch : Chain) (M : OneToOne OptionKey InstrumentId) : Prop where
  /-- The levels answer as the map does, -/
  find : ∀ k : OptionKey, ch.find k.expiry k.strike k.optionType = M.lookup k
  /-- the two indexes are its inverse, -/
  byId : M.Inverse (fun k => (k.expiry, k.strike)) ch.byId
  /-- split in two. -/
  idToType : M.Inverse OptionKey.optionType ch.idToType
  /-- Nothing empty is in the levels. -/
  tidy : Tidy ch.levels

/-- A new chain. -/
theorem represents_new (u : Text) : Represents { underlying := u } .empty where
  find k := by
    rw [OneToOne.lookup_empty]
    rfl
  byId := OneToOne.inverse_empty
  idToType := OneToOne.inverse_empty
  tidy := tidy_empty

variable {M : OneToOne OptionKey InstrumentId}

namespace Represents

/-- The field of a key is what the map has there. -/
theorem get_slotAt (h : ch.Represents M) (k : OptionKey) :
    (ch.slotAt k.expiry k.strike).get k.optionType = M.lookup k := by
  rw [← h.find, find_eq]

/-- **A refused `add` changes nothing.** -/
theorem add_refused (h : ch.Represents M) {id : InstrumentId} {c : Contract}
    (href : ¬ M.Fresh id ∨ M.lookup c.key ≠ none) : ch.add id c = (ch, false) := by
  unfold add
  by_cases hid : (ch.byId.lookup id).isSome
  · rw [if_pos hid]
  · rw [if_neg hid]
    have hkey : M.lookup c.key ≠ none := by
      refine href.resolve_left fun hfresh => hid ((h.byId.isSome_iff id).mpr ?_)
      rw [OneToOne.Fresh, not_forall] at hfresh
      obtain ⟨k, hk⟩ := hfresh
      exact ⟨k, not_not.mp hk⟩
    have hget := h.get_slotAt c.key
    have hslot : ch.slotAt c.expiry c.strike ≠ {} := fun hs => by
      refine hkey (hget.symm.trans ?_)
      change (ch.slotAt c.expiry c.strike).get c.optionType = none
      rw [hs, StrikeSlot.get_empty]
    have hsome : ((ch.slotAt c.expiry c.strike).get c.optionType).isSome :=
      Option.isSome_iff_ne_none.mpr fun hs => hkey (hget.symm.trans hs)
    simp only [hsome, if_true, store_slotAt hslot]

/-- **An `add` of a new id under a new key** adds the pair. -/
theorem add_accepted (h : ch.Represents M) {id : InstrumentId} {c : Contract} (hfresh : M.Fresh id)
    (hkey : M.lookup c.key = none) :
    (ch.add id c).2 = true ∧ (ch.add id c).1.Represents (M.insert c.key id hfresh) := by
  have hid := h.byId.lookup_eq_none hfresh
  have htype := h.idToType.lookup_eq_none hfresh
  have hslot : (ch.slotAt c.expiry c.strike).get c.optionType = none :=
    (h.get_slotAt c.key).trans hkey
  have hadd : ch.add id c = ({ ch with
      levels := ch.store c.expiry c.strike
        ((ch.slotAt c.expiry c.strike).set (some id) c.optionType)
      byId := ch.byId.insert id (c.expiry, c.strike)
      idToType := ch.idToType.insert id c.optionType }, true) := by
    simp [add, emplace, hid, htype, hslot]
  rw [hadd]
  refine ⟨rfl, ⟨fun k => ?_, h.byId.insert hfresh hkey, h.idToType.insert hfresh hkey,
    h.tidy.store _ _ fun hnil => ?_⟩⟩
  · change ({ ch with levels := ch.store c.expiry c.strike _ } : Chain).find _ _ _ = _
    rw [find_eq, slotAt_store, OneToOne.lookup_insert, ← h.find, find_eq]
    exact get_written c.key k (some id)
  · have hget := StrikeSlot.get_set (ch.slotAt c.expiry c.strike) (some id)
      c.optionType c.optionType
    rw [hnil, if_pos rfl, StrikeSlot.get_empty] at hget
    cases hget

/-- **A `remove` of an id that is nowhere** changes nothing. -/
theorem remove_absent (h : ch.Represents M) {id : InstrumentId} (hfresh : M.Fresh id) :
    ch.remove id = some (ch, false) := by
  simp only [remove, h.byId.lookup_eq_none hfresh]

/-- **A `remove` of an id that is there** takes its pair out; every `at` finds what it looks for. -/
theorem remove_present (h : ch.Represents M) {id : InstrumentId} {k : OptionKey}
    (hk : M.lookup k = some id) :
    ∃ ch', ch.remove id = some (ch', true) ∧ ch'.Represents (M.erase k) := by
  have hid := h.byId.lookup_eq hk
  have htype := h.idToType.lookup_eq hk
  have hget := (h.get_slotAt k).trans hk
  have hne : ch.slotAt k.expiry k.strike ≠ {} := fun hs => by
    rw [hs, StrikeSlot.get_empty] at hget
    cases hget
  obtain ⟨m, he, hs⟩ := exists_of_slotAt hne
  have hremove : ch.remove id = some ({ ch with
      levels := ch.cut k.expiry (strikesCut m k.strike
        ((ch.slotAt k.expiry k.strike).set none k.optionType))
      byId := ch.byId.erase id
      idToType := ch.idToType.erase id }, true) := by
    simp only [remove, hid, htype, he, hs, Option.bind_eq_bind, Option.bind_some]
    rfl
  refine ⟨_, hremove, ⟨fun k' => ?_, h.byId.erase hk, h.idToType.erase hk, h.tidy.cut he⟩⟩
  change ({ ch with levels := ch.cut k.expiry _ } : Chain).find _ _ _ = _
  rw [find_eq, slotAt_cut he, OneToOne.lookup_erase, ← h.find, find_eq]
  exact get_written k k' none

end Represents

end Chain

end Ordbk
