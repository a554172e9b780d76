import Ordbk.Refinement.Registry
import Ordbk.Theorems.Symbols

/-!
# Theorems/Naming — what a symbol is the name of

A symbol names a contract that fits its fields.  Formatting checks nothing, so a contract that does
not fit is given the symbol of another one, and a table of instruments takes the two for duplicates
(`not_named_of_tenfold`).  Among contracts that fit, symbols are names (`names_occSymbol`).
-/

namespace Ordbk.Instruments

open Contract

/-- An option of this contract. -/
def InstrumentSpec.OptionOn (spec : InstrumentSpec) (c : Contract) : Prop :=
  spec.type = .option ∧ spec.option = some c

/-- Each instrument is an option that fits, under its OCC symbol, or has a symbol of another length.
-/
def InstrumentRegistry.Named (reg : InstrumentRegistry) : Prop :=
  ∀ s ∈ reg.all, (∃ d : Contract, s.OptionOn d ∧ d.Representable ∧ s.symbol = d.occSymbol)
    ∨ s.symbol.length ≠ 21

/-- The symbol speaks of the terms and of nothing else. -/
theorem occSymbol_of_sameTerms {c d : Contract} (h : c.SameTerms d) :
    c.occSymbol = d.occSymbol := by
  obtain ⟨hu, he, hs, ht⟩ := h
  unfold occSymbol root date strikeStr thousandths
  rw [hu, he, hs, ht]

theorem occSymbol_eq_iff {c d : Contract} (hc : c.Representable) (hd : d.Representable) :
    c.occSymbol = d.occSymbol ↔ c.SameTerms d :=
  ⟨sameTerms_of_occSymbol hc hd, occSymbol_of_sameTerms⟩

/-- **A table of named options** has the symbol of a contract that fits only if it has the contract.
-/
theorem exists_of_symMap {reg : InstrumentRegistry} (hkept : reg.Kept) (hnamed : reg.Named)
    {c : Contract} (hc : c.Representable) (h : (reg.symMap.lookup c.occSymbol).isSome) :
    ∃ s ∈ reg.all, ∃ d : Contract, s.OptionOn d ∧ d.SameTerms c := by
  obtain ⟨s, hs, hsym⟩ := (hkept.symbols.isSome_iff c.occSymbol).mp h
  rcases hnamed s hs with ⟨d, hoption, hd, hname⟩ | hlen
  · exact ⟨s, hs, d, hoption, sameTerms_of_occSymbol hd hc (hname.symm.trans hsym)⟩
  · exact absurd (hsym ▸ length_occSymbol hc) hlen

theorem symMap_of_refused {reg : InstrumentRegistry} {spec : InstrumentSpec} {symbol : Text}
    (h : (reg.add spec).2 = some (.duplicateSymbol symbol)) :
    (reg.symMap.lookup spec.symbol).isSome := by
  unfold InstrumentRegistry.add at h
  split_ifs at h with hfrozen hid hsym
  · cases Option.some.inj h
  · cases Option.some.inj h
  · exact hsym

/-- **What the symbol of a contract names**: a contract that fits, this one if it fits; and in a
table whose options fit and go by their symbols, an option that fits is refused for its symbol only
if its contract is there. -/
theorem names_occSymbol (c : Contract) :
    ((∃ d, fromOcc c.occSymbol = .ok d) ↔ 0 ≤ c.thousandths.toInt)
      ∧ (∀ d, fromOcc c.occSymbol = .ok d → (d.SameTerms c ↔ c.Representable))
      ∧ (c.Representable → ∀ d : Contract, d.Representable →
        (d.occSymbol = c.occSymbol ↔ d.SameTerms c))
      ∧ (c.Representable → ∀ reg, Guarded.Reach InstrumentRegistry.step (fun _ _ => True) {} reg →
        reg.Named → ∀ spec : InstrumentSpec, spec.symbol = c.occSymbol →
        (reg.add spec).2 = some (.duplicateSymbol c.occSymbol) →
        ∃ s ∈ reg.all, ∃ d : Contract, s.OptionOn d ∧ d.SameTerms c) := by
  refine ⟨exists_fromOcc c, fun d => sameTerms_iff, fun hc d hd => occSymbol_eq_iff hd hc, ?_⟩
  intro hc reg hreach hnamed spec hname hrefused
  refine exists_of_symMap (InstrumentRegistry.kept_of_reach hreach) hnamed hc ?_
  exact hname ▸ symMap_of_refused hrefused

/-- A call of this strike, in cents. -/
def bitcoinCall (strike : Int64) : Contract :=
  { underlying := literal "BTC", strike, expiry := ⟨2026, 1, 17⟩ }

def bitcoinSpec (id : InstrumentId) (strike : Int64) : InstrumentSpec :=
  ⟨id, (bitcoinCall strike).occSymbol, .option, 1, 1, literal "USD", some (bitcoinCall strike)⟩

/-- A registered call, and the same contract again. -/
theorem names_occSymbol_of_bitcoin : ∃ reg,
    Guarded.Reach InstrumentRegistry.step (fun _ _ => True) {} reg ∧ reg.Named
      ∧ (bitcoinCall 1000000).Representable
      ∧ (reg.add (bitcoinSpec 2 1000000)).2
        = some (.duplicateSymbol (bitcoinCall 1000000).occSymbol)
      ∧ ∃ s ∈ reg.all, ∃ d : Contract, s.OptionOn d ∧ d.SameTerms (bitcoinCall 1000000) := by
  have hfits : (bitcoinCall 1000000).Representable := ⟨by decide, by decide, by decide, by decide,
    by decide, by decide, by decide, by decide⟩
  have hrun : (Guarded.run InstrumentRegistry.step (fun _ _ => True) {}
      [.add (bitcoinSpec 1 1000000)]).map (fun reg => decide (reg.all = [bitcoinSpec 1 1000000]
        ∧ (reg.add (bitcoinSpec 2 1000000)).2
          = some (.duplicateSymbol (bitcoinCall 1000000).occSymbol))) = some true := by
    decide +kernel
  obtain ⟨reg, hreg, hout⟩ := Option.map_eq_some_iff.mp hrun
  obtain ⟨hall, hrefused⟩ := of_decide_eq_true hout
  have hreach := Guarded.Reach.of_run hreg
  have hnamed : reg.Named := fun s hs => by
    rw [hall, List.mem_singleton] at hs
    exact hs ▸ .inl ⟨_, ⟨rfl, rfl⟩, hfits, rfl⟩
  exact ⟨reg, hreach, hnamed, hfits, hrefused,
    (names_occSymbol (bitcoinCall 1000000)).2.2.2 hfits reg hreach hnamed _ rfl hrefused⟩

/-- **A strike of ten times as much**: the ninth digit is cut off.  The call is parsed to the other
one, and a table that has the other one takes it for a duplicate. -/
theorem not_named_of_tenfold :
    (∃ c d, fromOcc c.occSymbol = .ok d ∧ ¬ d.SameTerms c)
      ∧ ∃ reg spec, Guarded.Reach InstrumentRegistry.step (fun _ _ => True) {} reg
        ∧ (reg.add spec).2 = some (.duplicateSymbol spec.symbol)
        ∧ ∃ c : Contract, spec.OptionOn c ∧ spec.symbol = c.occSymbol
          ∧ ∀ s ∈ reg.all, ∀ d : Contract, s.OptionOn d → s.symbol = d.occSymbol
          ∧ ¬ d.SameTerms c := by
  have hparse : fromOcc (bitcoinCall 10000000).occSymbol = .ok (bitcoinCall 1000000) := by
    decide +kernel
  have hstrike : ¬ (bitcoinCall 1000000).SameTerms (bitcoinCall 10000000) := fun h =>
    absurd h.2.2.1 (by decide)
  have hrun : (Guarded.run InstrumentRegistry.step (fun _ _ => True) {}
      [.add (bitcoinSpec 1 1000000)]).map (fun reg => decide (reg.all = [bitcoinSpec 1 1000000]
        ∧ (reg.add (bitcoinSpec 2 10000000)).2
          = some (.duplicateSymbol (bitcoinSpec 2 10000000).symbol))) = some true := by
    decide +kernel
  obtain ⟨reg, hreg, hout⟩ := Option.map_eq_some_iff.mp hrun
  obtain ⟨hall, hrefused⟩ := of_decide_eq_true hout
  refine ⟨⟨_, _, hparse, hstrike⟩, reg, _, .of_run hreg, hrefused, _, ⟨rfl, rfl⟩, rfl, ?_⟩
  rintro s hs d ⟨-, hd⟩
  rw [hall, List.mem_singleton] at hs
  subst hs
  obtain rfl := Option.some.inj hd
  exact ⟨rfl, hstrike⟩

end Ordbk.Instruments
