import Ordbk.Refinement.Registry
import Ordbk.Theorems.Chains

/-!
# Theorems/Listing — which options are in their chain

`add` looks for the id and for the symbol of an instrument, not for its contract, and does not look
at what the chain answers.  An option whose contract another instrument has listed is registered and
is in no chain; the table is consistent exactly as long as that has not happened (`consistent_iff`).
-/

namespace Ordbk.Instruments

namespace InstrumentRegistry

variable {reg : InstrumentRegistry}

/-- **Every option is in its chain.** -/
def Listed (reg : InstrumentRegistry) : Prop :=
  ∀ spec ∈ reg.all, spec.type = .option → ∀ c, spec.option = some c →
    ∃ ch, reg.optionChain c.underlying = some ch
      ∧ ch.find c.expiry c.strike c.optionType = some spec.id

/-- A registered option on this underlying, with this id and this contract. -/
def Backs (reg : InstrumentRegistry) (u : Text) (k : OptionKey) (id : InstrumentId) : Prop :=
  ∃ spec ∈ reg.all, spec.id = id ∧ spec.type = .option
    ∧ ∃ c, spec.option = some c ∧ c.underlying = u ∧ c.key = k

/-- **Every id in a chain is a registered option's**, however it is asked for. -/
def Backed (reg : InstrumentRegistry) : Prop :=
  ∀ u ch, reg.optionChain u = some ch →
    (∀ e s t id, ch.find e s t = some id → reg.Backs u ⟨e, s, t⟩ id)
      ∧ (∀ e, ∀ id ∈ ch.atExpiry e, ∃ k, k.expiry = e ∧ reg.Backs u k id)
      ∧ ∀ d, ∀ id ∈ ch.expiringOnOrBefore d, ∃ k, k.expiry ≤ d ∧ reg.Backs u k id

/-- **No option is missed by a sweep** of the chain of its underlying. -/
def Swept (reg : InstrumentRegistry) : Prop :=
  ∀ spec ∈ reg.all, spec.type = .option → ∀ c, spec.option = some c → ∀ d, c.expiry ≤ d →
    ∃ ch, reg.optionChain c.underlying = some ch ∧ spec.id ∈ ch.expiringOnOrBefore d

/-- What the table is for. -/
structure Consistent (reg : InstrumentRegistry) : Prop where
  /-- Whoever is refused has changed nothing. -/
  thrown : ∀ spec error, (reg.add spec).2 = some error → (reg.add spec).1 = reg
  /-- Every option is in its chain, -/
  listed : reg.Listed
  /-- every entry of a chain is a registered option's, -/
  backed : reg.Backed
  /-- and no option is missed when it expires. -/
  swept : reg.Swept

/-- `add` accepts the spec. -/
def Admits (reg : InstrumentRegistry) (spec : InstrumentSpec) : Prop :=
  reg.frozen = false ∧ reg.idMap.lookup spec.id = none ∧ reg.symMap.lookup spec.symbol = none

/-- An accepted option lists a contract that no registered one lists. -/
def NewContract (reg : InstrumentRegistry) : Call → Prop
  | .add spec => reg.Admits spec → ∀ l, spec.listing = some l → ∀ s ∈ reg.all, s.listing ≠ some l
  | .freeze => True

/-! ## Chains as they are asked

Of several instruments with one contract, the chain knows the first. -/

theorem chainOf_eq {u : Text} {ch : Chain} (h : reg.optionChain u = some ch) :
    reg.chainOf u = ch := by
  rw [optionChain] at h
  rw [chainOf, h, Option.getD_some]

/-- A chain that finds something is there. -/
theorem optionChain_eq {u : Text} {e : ExpiryDate} {s : Int64} {t : OptionType} {id : InstrumentId}
    (h : (reg.chainOf u).find e s t = some id) : reg.optionChain u = some (reg.chainOf u) := by
  unfold optionChain chainOf at *
  cases hu : reg.chains.lookup u with
  | none =>
    rw [hu] at h
    cases h
  | some ch => rfl

/-- A chain answers with the first instrument that lists the contract. -/
theorem Kept.find_eq (h : reg.Kept) (u : Text) (k : OptionKey) :
    (reg.chainOf u).find k.expiry k.strike k.optionType = firstListed reg.all u k := by
  obtain ⟨M, hM, hfirst⟩ := h.chains u
  exact (hM.find k).trans (hfirst k)

theorem backs_of_firstListed {u : Text} {k : OptionKey} {id : InstrumentId}
    (h : firstListed reg.all u k = some id) : reg.Backs u k id := by
  obtain ⟨spec, hmem, hl, hid⟩ := exists_of_firstListed h
  exact ⟨spec, hmem, hid, InstrumentSpec.listing_eq_some.mp hl⟩

theorem Kept.backed (h : reg.Kept) : reg.Backed := by
  intro u ch hch
  obtain ⟨M, hM, hfirst⟩ := h.chains u
  rw [chainOf_eq hch] at hM
  have hbacks : ∀ k id, M.lookup k = some id → reg.Backs u k id := fun k id hk =>
    backs_of_firstListed ((hfirst k).symm.trans hk)
  refine ⟨fun e s t id hf => hbacks _ id ((hM.find ⟨e, s, t⟩).symm.trans hf), fun e id hid => ?_,
    fun d id hid => ?_⟩
  · obtain ⟨k, hk, hl⟩ := (hM.lists_atExpiry e).mem_iff.mp hid
    exact ⟨k, hk, hbacks k id hl⟩
  · obtain ⟨k, hk, hl⟩ := (hM.lists_expiring d).mem_iff.mp hid
    exact ⟨k, hk, hbacks k id hl⟩

/-! ## One instrument a contract

So the others are in no chain, and the table is consistent if there are no others. -/

/-- No two options have a contract. -/
def Distinct (reg : InstrumentRegistry) : Prop :=
  ∀ s ∈ reg.all, ∀ s' ∈ reg.all, ∀ l, s.listing = some l → s'.listing = some l → s = s'

theorem listing_of_option {spec : InstrumentSpec} {c : Contract} (ht : spec.type = .option)
    (hc : spec.option = some c) : spec.listing = some (c.underlying, c.key) :=
  InstrumentSpec.listing_eq_some.mpr ⟨ht, c, hc, rfl, rfl⟩

theorem Kept.listed (h : reg.Kept) (hd : reg.Distinct) : reg.Listed := by
  intro spec hmem ht c hc
  have hl := listing_of_option ht hc
  obtain ⟨id, hid⟩ := Option.ne_none_iff_exists'.mp (firstListed_ne_none hmem hl)
  obtain ⟨s, hs, hsl, hsid⟩ := exists_of_firstListed hid
  obtain rfl := hd s hs spec hmem _ hsl hl
  have hfind := (h.find_eq c.underlying c.key).trans (hid.trans (congrArg some hsid.symm))
  exact ⟨_, optionChain_eq hfind, hfind⟩

theorem Kept.swept (h : reg.Kept) (hlisted : reg.Listed) : reg.Swept := by
  intro spec hmem ht c hc d hd
  obtain ⟨ch, hch, hfind⟩ := hlisted spec hmem ht c hc
  obtain ⟨M, hM, -⟩ := h.chains c.underlying
  rw [chainOf_eq hch] at hM
  exact ⟨ch, hch, (hM.lists_expiring d).mem_iff.mpr ⟨c.key, hd, (hM.find c.key).symm.trans hfind⟩⟩

theorem Kept.distinct (h : reg.Kept) (hlisted : reg.Listed) : reg.Distinct := by
  rintro s hs s' hs' ⟨u, k⟩ hl hl'
  obtain ⟨ht, c, hc, rfl, rfl⟩ := InstrumentSpec.listing_eq_some.mp hl
  obtain ⟨ht', c', hc', hu, hk⟩ := InstrumentSpec.listing_eq_some.mp hl'
  obtain ⟨ch, hch, hfind⟩ := hlisted s hs ht c hc
  obtain ⟨ch', hch', hfind'⟩ := hlisted s' hs' ht' c' hc'
  rw [hu] at hch'
  obtain rfl := Option.some.inj (hch.symm.trans hch')
  have hkey : c'.expiry = c.expiry ∧ c'.strike = c.strike ∧ c'.optionType = c.optionType := by
    simpa only [Contract.key, OptionKey.mk.injEq] using hk
  rw [hkey.1, hkey.2.1, hkey.2.2] at hfind'
  exact h.ids.eq_of_key hs hs' (Option.some.inj (hfind.symm.trans hfind'))

theorem Kept.consistent_iff_distinct (h : reg.Kept) : reg.Consistent ↔ reg.Distinct :=
  ⟨fun hc => h.distinct hc.listed, fun hd => ⟨fun _ _ => add_of_error, h.listed hd, h.backed,
    h.swept (h.listed hd)⟩⟩

/-! ## Runs

Whether there are is decided by the calls: `add` does not look. -/

theorem all_add_of_admits {spec : InstrumentSpec} (h : reg.Admits spec) :
    (reg.add spec).1.all = reg.all ++ [spec] := by
  obtain ⟨hfrozen, hid, hsym⟩ := h
  simp [add, all, hfrozen, hid, hsym]

theorem add_of_not_admits {spec : InstrumentSpec} (h : ¬ reg.Admits spec) :
    (reg.add spec).1 = reg := by
  rcases add_cases reg spec with heq | ⟨hid, hsym, heq⟩
  · exact heq
  · have hfrozen : reg.frozen = true := by
      by_contra hf
      exact h ⟨Bool.not_eq_true _ ▸ hf, hid, hsym⟩
    simp [add, hfrozen]

/-- **A step keeps one instrument a contract** if it started so and brings no contract twice. -/
theorem Kept.distinct_step (h : reg.Kept) {call : Call} {reg' : InstrumentRegistry}
    (hstep : reg.step call = some reg') :
    reg'.Distinct ↔ reg.Distinct ∧ reg.NewContract call := by
  cases call with
  | freeze =>
    obtain rfl := Option.some.inj hstep
    exact (and_iff_left trivial).symm
  | add spec =>
    obtain rfl := Option.some.inj hstep
    by_cases hadm : reg.Admits spec
    · have hfresh : ∀ s ∈ reg.all, s ≠ spec := by
        rintro s hs rfl
        have hsome := (h.ids.isSome_iff s.id).mpr ⟨s, hs, rfl⟩
        rw [hadm.2.1] at hsome
        cases hsome
      simp only [Distinct, NewContract, all_add_of_admits hadm, List.mem_append, List.mem_singleton]
      constructor
      · intro hd
        refine ⟨fun s hs s' hs' => hd s (.inl hs) s' (.inl hs'), fun _ l hl s hs hsl => ?_⟩
        exact hfresh s hs (hd s (.inl hs) spec (.inr rfl) l hsl hl)
      · rintro ⟨hd, hnew⟩ s (hs | rfl) s' (hs' | rfl) l hl hl'
        · exact hd s hs s' hs' l hl hl'
        · exact absurd hl (hnew hadm l hl' s hs)
        · exact absurd hl' (hnew hadm l hl s' hs')
        · rfl
    · rw [add_of_not_admits hadm]
      exact (and_iff_left fun hadm' => absurd hadm' hadm).symm

theorem distinct_iff (h : Guarded.Reach step (fun _ _ => True) {} reg) :
    reg.Distinct ↔ Guarded.Reach step NewContract {} reg := by
  constructor
  · induction h with
    | init => exact fun _ => .init
    | step hreach _ hs ih =>
      intro hd
      obtain ⟨hd', hnew⟩ := ((kept_of_reach hreach).distinct_step hs).mp hd
      exact .step (ih hd') hnew hs
  · intro hreach
    refine (hreach.invariant (I := fun reg => reg.Kept ∧ reg.Distinct) ⟨kept_new, nofun⟩ ?_).2
    exact fun s a s' ⟨hkept, hd⟩ hok hs => ⟨hkept.step hs, (hkept.distinct_step hs).mpr ⟨hd, hok⟩⟩

/-- **The table is consistent exactly in the runs that bring no contract twice.** -/
theorem consistent_iff (h : Guarded.Reach step (fun _ _ => True) {} reg) :
    reg.Consistent ↔ Guarded.Reach step NewContract {} reg :=
  (kept_of_reach h).consistent_iff_distinct.trans (distinct_iff h)

/-- An option of the tests, under an id and a symbol. -/
def aaplCall (id : InstrumentId) (symbol : Text) : InstrumentSpec :=
  ⟨id, symbol, .option, 1, 1, literal "USD",
    some { underlying := literal "AAPL", strike := 15000, expiry := ⟨2026, 1, 17⟩ }⟩

theorem consistent_iff_of_oneOption : ∃ reg, Guarded.Reach step (fun _ _ => True) {} reg
    ∧ reg.all = [aaplCall 10 (literal "A")] ∧ reg.frozen = true
    ∧ (reg.Consistent ↔ Guarded.Reach step NewContract {} reg) := by
  have hrun : (Guarded.run step (fun _ _ => True) {} [.add (aaplCall 10 (literal "A")),
      .add (aaplCall 10 (literal "B")), .freeze, .add (aaplCall 11 (literal "B"))]).map
      (fun reg => decide (reg.all = [aaplCall 10 (literal "A")] ∧ reg.frozen = true))
        = some true := by decide +kernel
  obtain ⟨reg, hreg, hall⟩ := Option.map_eq_some_iff.mp hrun
  have hreach := Guarded.Reach.of_run hreg
  exact ⟨reg, hreach, (of_decide_eq_true hall).1, (of_decide_eq_true hall).2, consistent_iff hreach⟩

/-- **One contract under two ids and two symbols**: both are registered, and the second is in no
chain. -/
theorem not_consistent_of_twoSymbols :
    ∃ reg, Guarded.Reach step (fun _ _ => True) {} reg ∧ ¬ reg.Consistent := by
  have hrun : (Guarded.run step (fun _ _ => True) {} [.add (aaplCall 10 (literal "A")),
      .add (aaplCall 11 (literal "B"))]).map
      (fun reg => decide (aaplCall 11 (literal "B") ∈ reg.all
        ∧ (reg.chainOf (literal "AAPL")).find ⟨2026, 1, 17⟩ 15000 .call = some 10))
        = some true := by decide +kernel
  obtain ⟨reg, hreg, hboth⟩ := Option.map_eq_some_iff.mp hrun
  obtain ⟨hmem, hfind⟩ := of_decide_eq_true hboth
  refine ⟨reg, .of_run hreg, fun hc => ?_⟩
  obtain ⟨ch, hch, hfind'⟩ := hc.listed _ hmem rfl _ rfl
  rw [← chainOf_eq hch] at hfind'
  exact absurd (hfind.symm.trans hfind') (by decide)

end InstrumentRegistry

end Ordbk.Instruments
