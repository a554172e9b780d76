import Ordbk.Instruments.Chain
import Ordbk.Matching.Engine

/-!
# Instruments/Registry — the table of instruments

`instrument_spec.hpp`, `instrument_registry.hpp` and `instrument_registry.cpp`: the instruments in
the order they were added, an index by id, one by symbol, and a chain for each underlying of an
option. The engine reads ids only; `InstrumentRegistry.view` is what it is given.
-/

namespace Ordbk.Instruments

inductive InstrumentType
  | equity
  | future
  | option
  deriving DecidableEq, Repr

/-- What is known of an instrument. -/
structure InstrumentSpec where
  id : InstrumentId
  symbol : Text
  type : InstrumentType
  tickSize : Int64
  lotSize : UInt64
  currency : Text
  /-- The contract, if it is an option. -/
  option : Option Contract := none
  deriving DecidableEq, Repr

/-- The exceptions of `add`, `DuplicateError` with its text. -/
inductive RegistryError
  | frozen
  | duplicateId
  | duplicateSymbol (symbol : Text)
  deriving DecidableEq, Repr

/-- The bytes of a literal. -/
def literal (s : String) : Text := s.toList.map fun c => UInt8.ofNat c.toNat

def RegistryError.what : RegistryError → Text
  | frozen => literal "InstrumentRegistry is frozen"
  | duplicateId => literal "duplicate InstrumentId"
  | duplicateSymbol symbol => literal "duplicate symbol: " ++ symbol

/-- **The table**, and where things stand in it. -/
structure InstrumentRegistry where
  /-- In the order in which they were added. -/
  instruments : List InstrumentSpec := []
  /-- The places of the ids. -/
  idMap : Finmap fun _ : InstrumentId => ℕ := ∅
  /-- And of the symbols. -/
  symMap : Finmap fun _ : Text => ℕ := ∅
  /-- The chain of each underlying that has an option. -/
  chains : Finmap fun _ : Text => Chain := ∅
  /-- Once it is set nothing more is added. -/
  frozen : Bool := false

namespace InstrumentRegistry

/-- The chain of an underlying, made if there is none. -/
def chainOf (reg : InstrumentRegistry) (underlying : Text) : Chain :=
  (reg.chains.lookup underlying).getD { underlying }

/-- The chains once an option instrument is indexed; what `Chain::add` returns is not looked at. -/
def indexed (reg : InstrumentRegistry) (spec : InstrumentSpec) : Finmap fun _ : Text => Chain :=
  match spec.type, spec.option with
  | .option, some contract =>
    reg.chains.insert contract.underlying ((reg.chainOf contract.underlying).add spec.id contract).1
  | _, _ => reg.chains

/-- `add`: the registry it leaves, and what it throws. -/
def add (reg : InstrumentRegistry) (spec : InstrumentSpec) :
    InstrumentRegistry × Option RegistryError :=
  if reg.frozen then (reg, some .frozen)
  else if (reg.idMap.lookup spec.id).isSome then (reg, some .duplicateId)
  else if (reg.symMap.lookup spec.symbol).isSome then (reg, some (.duplicateSymbol spec.symbol))
  else
    let idx := reg.instruments.length
    ({ reg with
        chains := reg.indexed spec
        idMap := emplace reg.idMap spec.id idx
        symMap := emplace reg.symMap spec.symbol idx
        instruments := reg.instruments ++ [spec] }, none)

/-- From here on nothing is added. -/
def freeze (reg : InstrumentRegistry) : InstrumentRegistry := { reg with frozen := true }

/-! ## Lookups

The indexes give a place in the list, the chains are found by underlying. -/

/-- By id. -/
def find (reg : InstrumentRegistry) (id : InstrumentId) : Option InstrumentSpec :=
  (reg.idMap.lookup id).bind fun idx => reg.instruments[idx]?

/-- By symbol. -/
def findSymbol (reg : InstrumentRegistry) (symbol : Text) : Option InstrumentSpec :=
  (reg.symMap.lookup symbol).bind fun idx => reg.instruments[idx]?

def all (reg : InstrumentRegistry) : List InstrumentSpec := reg.instruments

def optionChain (reg : InstrumentRegistry) (underlying : Text) : Option Chain :=
  reg.chains.lookup underlying

/-- In no particular order. -/
def optionUnderlyings (reg : InstrumentRegistry) : Finset Text := reg.chains.keys

/-- What the engine reads. -/
def view (reg : InstrumentRegistry) : Ordbk.InstrumentRegistry :=
  ⟨reg.all.map fun spec => ⟨spec.id⟩, reg.frozen⟩

/-- A call while the table is built. -/
inductive Call
  | add (spec : InstrumentSpec)
  | freeze

/-- One call, whether it throws or not. -/
def step (reg : InstrumentRegistry) : Call → Option InstrumentRegistry
  | .add spec => some (reg.add spec).1
  | .freeze => some reg.freeze

end InstrumentRegistry

end Ordbk.Instruments
