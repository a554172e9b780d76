import Ordbk.Instruments.Registry
import Ordbk.Refinement.Chain

/-!
# Refinement/Registry — the table of instruments is a list of specs

The two indexes say where in the list an id or a symbol stands; the chain of an underlying maps each
contract to the instrument that listed it first (`Kept`).
-/

namespace Ordbk.Instruments

/-- What an instrument lists on which underlying, if it is an option. -/
def InstrumentSpec.listing (spec : InstrumentSpec) : Option (Text × OptionKey) :=
  match spec.type, spec.option with
  | .option, some contract => some (contract.underlying, contract.key)
  | _, _ => none

theorem InstrumentSpec.listing_eq_some {spec : InstrumentSpec} {u : Text} {k : OptionKey} :
    spec.listing = some (u, k) ↔ spec.type = .option
      ∧ ∃ c, spec.option = some c ∧ c.underlying = u ∧ c.key = k := by
  obtain ⟨id, symbol, type, tickSize, lotSize, currency, option⟩ := spec
  cases type <;> cases option <;> simp [listing]

namespace InstrumentRegistry

variable {reg : InstrumentRegistry} {spec : InstrumentSpec}

/-- The first instrument to list a contract. -/
def firstListed (specs : List InstrumentSpec) (u : Text) (k : OptionKey) : Option InstrumentId :=
  (specs.find? fun spec => spec.listing = some (u, k)).map InstrumentSpec.id

theorem firstListed_append (specs : List InstrumentSpec) (spec : InstrumentSpec) (u : Text)
    (k : OptionKey) : firstListed (specs ++ [spec]) u k
      = (firstListed specs u k).or (if spec.listing = some (u, k) then some spec.id else none) := by
  unfold firstListed
  rw [List.find?_append, Option.map_or]
  congr 1
  split_ifs with h <;> simp [h]

theorem exists_of_firstListed {specs : List InstrumentSpec} {u : Text} {k : OptionKey}
    {id : InstrumentId} (h : firstListed specs u k = some id) :
    ∃ spec ∈ specs, spec.listing = some (u, k) ∧ spec.id = id := by
  obtain ⟨spec, hfind, hid⟩ := Option.map_eq_some_iff.mp h
  exact ⟨spec, List.mem_of_find?_eq_some hfind, by simpa using List.find?_some hfind, hid⟩

theorem firstListed_ne_none {specs : List InstrumentSpec} {u : Text} {k : OptionKey}
    (hmem : spec ∈ specs) (hl : spec.listing = some (u, k)) : firstListed specs u k ≠ none := by
  intro hnone
  rw [firstListed, Option.map_eq_none_iff, List.find?_eq_none] at hnone
  exact hnone spec hmem (by simpa using hl)

/-- An index says where the entry with a key stands. -/
def Indexes {K : Type} [DecidableEq K] (specs : List InstrumentSpec) (key : InstrumentSpec → K)
    (index : Finmap fun _ : K => ℕ) : Prop :=
  ∀ k i, index.lookup k = some i ↔ ∃ spec, specs[i]? = some spec ∧ key spec = k

section Indexes

variable {K : Type} [DecidableEq K] {specs : List InstrumentSpec} {key : InstrumentSpec → K}
  {index : Finmap fun _ : K => ℕ}

/-- A key is in the index if an entry has it. -/
theorem Indexes.isSome_iff (h : Indexes specs key index) (k : K) :
    (index.lookup k).isSome ↔ ∃ spec ∈ specs, key spec = k := by
  rw [Option.isSome_iff_exists]
  constructor
  · rintro ⟨i, hi⟩
    obtain ⟨spec, hspec, hk⟩ := (h k i).mp hi
    exact ⟨spec, List.mem_of_getElem? hspec, hk⟩
  · rintro ⟨spec, hspec, hk⟩
    obtain ⟨i, hi⟩ := List.getElem?_of_mem hspec
    exact ⟨i, (h k i).mpr ⟨spec, hi, hk⟩⟩

/-- No two entries have a key. -/
theorem Indexes.eq_of_key (h : Indexes specs key index) {s s' : InstrumentSpec} (hs : s ∈ specs)
    (hs' : s' ∈ specs) (hkey : key s = key s') : s = s' := by
  obtain ⟨i, hi⟩ := List.getElem?_of_mem hs
  obtain ⟨j, hj⟩ := List.getElem?_of_mem hs'
  have hki := (h _ i).mpr ⟨s, hi, hkey⟩
  have hkj := (h _ j).mpr ⟨s', hj, rfl⟩
  obtain rfl := Option.some.inj (hki.symm.trans hkj)
  exact Option.some.inj (hi.symm.trans hj)

/-- What a look-up finds. -/
theorem Indexes.get_eq_some (h : Indexes specs key index) {k : K} {spec : InstrumentSpec} :
    ((index.lookup k).bind fun i => specs[i]?) = some spec ↔ spec ∈ specs ∧ key spec = k := by
  rw [Option.bind_eq_some_iff]
  constructor
  · rintro ⟨i, hi, hget⟩
    obtain ⟨s, hs, hk⟩ := (h k i).mp hi
    obtain rfl := Option.some.inj (hs.symm.trans hget)
    exact ⟨List.mem_of_getElem? hget, hk⟩
  · rintro ⟨hmem, hk⟩
    obtain ⟨i, hi⟩ := List.getElem?_of_mem hmem
    exact ⟨i, (h k i).mpr ⟨spec, hi, hk⟩, hi⟩

theorem Indexes.lt (h : Indexes specs key index) {k : K} {i : ℕ} (hi : index.lookup k = some i) :
    i < specs.length := by
  obtain ⟨_, hget, -⟩ := (h k i).mp hi
  exact (List.getElem?_eq_some_iff.mp hget).1

/-- A new entry with a new key. -/
theorem Indexes.append (h : Indexes specs key index) {spec : InstrumentSpec}
    (hnone : index.lookup (key spec) = none) :
    Indexes (specs ++ [spec]) key (emplace index (key spec) specs.length) := by
  intro k i
  rw [lookup_emplace, List.getElem?_append]
  by_cases hi : i < specs.length
  · rw [if_pos hi, ← h k i]
    split_ifs with hk
    · rw [hk.1, hnone, Option.some_inj]
      exact iff_of_false hi.ne' nofun
    · rfl
  · have hlast : (∃ s, [spec][i - specs.length]? = some s ∧ key s = k)
        ↔ specs.length = i ∧ k = key spec := by
      rw [List.getElem?_singleton]
      split_ifs with h0
      · simp [eq_comm, show specs.length = i by omega]
      · simp [show specs.length ≠ i by omega]
    rw [if_neg hi, hlast]
    split_ifs with hk
    · rw [Option.some_inj, and_iff_left hk.1]
    · exact iff_of_false (fun hl => hi (h.lt hl)) fun heq => hk ⟨heq.2, hnone⟩

end Indexes

/-- **The four tables agree.** -/
structure Kept (reg : InstrumentRegistry) : Prop where
  /-- The one table finds the place of every id, -/
  ids : Indexes reg.instruments InstrumentSpec.id reg.idMap
  /-- the other that of every symbol. -/
  symbols : Indexes reg.instruments InstrumentSpec.symbol reg.symMap
  /-- Of two contracts with the same terms the chain has the first. -/
  chains : ∀ u, ∃ M, (reg.chainOf u).Represents M
    ∧ ∀ k, M.lookup k = firstListed reg.instruments u k

theorem kept_new : Kept {} where
  ids _ _ := by simp
  symbols _ _ := by simp
  chains u := ⟨_, Chain.represents_new u, fun k => OneToOne.lookup_empty k⟩

/-- **A call that throws changes nothing.** -/
theorem add_of_error {error : RegistryError} (h : (reg.add spec).2 = some error) :
    (reg.add spec).1 = reg := by
  unfold add at h ⊢
  split_ifs at h ⊢ <;> rfl

/-- The chains of an instrument that lists a contract. -/
theorem indexed_of_listing (reg : InstrumentRegistry) {u : Text} {k : OptionKey}
    (hl : spec.listing = some (u, k)) : ∃ c : Contract, c.key = k
      ∧ reg.indexed spec = reg.chains.insert u ((reg.chainOf u).add spec.id c).1 := by
  obtain ⟨htype, c, hc, rfl, rfl⟩ := InstrumentSpec.listing_eq_some.mp hl
  exact ⟨c, rfl, by simp only [indexed, htype, hc]⟩

theorem indexed_of_listing_none (hl : spec.listing = none) : reg.indexed spec = reg.chains := by
  obtain ⟨id, symbol, type, tickSize, lotSize, currency, option⟩ := spec
  cases type <;> cases option <;> first | rfl | cases hl

/-- The chains of the other underlyings stay. -/
theorem lookup_indexed (reg : InstrumentRegistry) {u : Text}
    (hu : ∀ k, spec.listing ≠ some (u, k)) : (reg.indexed spec).lookup u = reg.chains.lookup u := by
  cases hl : spec.listing with
  | none => rw [indexed_of_listing_none hl]
  | some l =>
    obtain ⟨c, -, hindexed⟩ := indexed_of_listing reg hl
    rw [hindexed, Finmap.lookup_insert_of_ne]
    exact fun heq => hu l.2 (heq ▸ hl)

/-- A chain with the contract of a new instrument: the first to list it keeps it. -/
theorem Kept.chain_add (h : reg.Kept) (hid : reg.idMap.lookup spec.id = none) {u : Text}
    {c : Contract} (hl : spec.listing = some (u, c.key)) :
    ∃ M, ((reg.chainOf u).add spec.id c).1.Represents M
      ∧ ∀ k, M.lookup k = firstListed (reg.instruments ++ [spec]) u k := by
  obtain ⟨M, hM, hfirst⟩ := h.chains u
  have hfresh : M.Fresh spec.id := fun k hk => by
    obtain ⟨s, hs, -, hsid⟩ := exists_of_firstListed ((hfirst k).symm.trans hk)
    have hsome := (h.ids.isSome_iff spec.id).mpr ⟨s, hs, hsid⟩
    rw [hid] at hsome
    cases hsome
  by_cases hkey : M.lookup c.key = none
  · refine ⟨_, (hM.add_accepted hfresh hkey).2, fun k => ?_⟩
    rw [OneToOne.lookup_insert, firstListed_append, ← hfirst, hl]
    split_ifs with hk hk' hk'
    · rw [hk, hkey]
      rfl
    · exact absurd (by rw [hk]) hk'
    · exact absurd (Prod.ext_iff.mp (Option.some.inj hk')).2.symm hk
    · rw [Option.or_none]
  · rw [hM.add_refused (.inr hkey)]
    refine ⟨M, hM, fun k => ?_⟩
    rw [firstListed_append, ← hfirst, hl]
    split_ifs with hk
    · obtain rfl : c.key = k := (Prod.ext_iff.mp (Option.some.inj hk)).2
      obtain ⟨id, hsome⟩ := Option.ne_none_iff_exists'.mp hkey
      rw [hsome, Option.some_or]
    · rw [Option.or_none]

/-- **An accepted instrument.** -/
theorem Kept.accept (h : reg.Kept) (hid : reg.idMap.lookup spec.id = none)
    (hsym : reg.symMap.lookup spec.symbol = none) :
    Kept { reg with
      chains := reg.indexed spec
      idMap := emplace reg.idMap spec.id reg.instruments.length
      symMap := emplace reg.symMap spec.symbol reg.instruments.length
      instruments := reg.instruments ++ [spec] } := by
  refine ⟨h.ids.append hid, h.symbols.append hsym, fun u => ?_⟩
  change ∃ M, (((reg.indexed spec).lookup u).getD _).Represents M ∧ _
  by_cases hu : ∃ k, spec.listing = some (u, k)
  · obtain ⟨k, hl⟩ := hu
    obtain ⟨c, rfl, hindexed⟩ := indexed_of_listing reg hl
    rw [hindexed, Finmap.lookup_insert, Option.getD_some]
    exact h.chain_add hid hl
  · rw [not_exists] at hu
    rw [lookup_indexed reg hu]
    obtain ⟨M, hM, hfirst⟩ := h.chains u
    refine ⟨M, hM, fun k => ?_⟩
    rw [firstListed_append, if_neg (hu k), Option.or_none]
    exact hfirst k

/-- What an `add` does. -/
theorem add_cases (reg : InstrumentRegistry) (spec : InstrumentSpec) :
    (reg.add spec).1 = reg ∨ (reg.idMap.lookup spec.id = none ∧ reg.symMap.lookup spec.symbol = none
      ∧ (reg.add spec).1 = { reg with
          chains := reg.indexed spec
          idMap := emplace reg.idMap spec.id reg.instruments.length
          symMap := emplace reg.symMap spec.symbol reg.instruments.length
          instruments := reg.instruments ++ [spec] }) := by
  unfold add
  split_ifs with hfrozen hid hsym
  · exact .inl rfl
  · exact .inl rfl
  · exact .inl rfl
  · exact .inr ⟨Option.not_isSome_iff_eq_none.mp hid, Option.not_isSome_iff_eq_none.mp hsym, rfl⟩

theorem Kept.add (h : reg.Kept) (spec : InstrumentSpec) : (reg.add spec).1.Kept := by
  rcases add_cases reg spec with heq | ⟨hid, hsym, heq⟩
  · rwa [heq]
  · rw [heq]
    exact h.accept hid hsym

theorem Kept.step (h : reg.Kept) {call : Call} {reg' : InstrumentRegistry}
    (hstep : reg.step call = some reg') : reg'.Kept := by
  cases call with
  | add spec => exact Option.some.inj hstep ▸ h.add spec
  | freeze => exact Option.some.inj hstep ▸ ⟨h.ids, h.symbols, h.chains⟩

/-- **Any calls**, whether they throw or not, keep the tables in agreement. -/
theorem kept_of_reach (h : Guarded.Reach step (fun _ _ => True) {} reg) : reg.Kept :=
  h.invariant kept_new fun _ _ _ hkept _ hs => hkept.step hs

/-- **Look-ups** find the instruments that are registered. -/
theorem find_eq_some (h : Guarded.Reach step (fun _ _ => True) {} reg) (id : InstrumentId)
    (symbol : Text) : (reg.find id = some spec ↔ spec ∈ reg.all ∧ spec.id = id)
      ∧ (reg.findSymbol symbol = some spec ↔ spec ∈ reg.all ∧ spec.symbol = symbol) :=
  ⟨(kept_of_reach h).ids.get_eq_some, (kept_of_reach h).symbols.get_eq_some⟩

end InstrumentRegistry

end Ordbk.Instruments
