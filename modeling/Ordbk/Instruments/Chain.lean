import Ordbk.Instruments.Contract
import Ordbk.Lib.OrdMap
import Ordbk.Orderbook.Book

/-!
# Instruments/Chain — the option chain of one underlying

`chain.hpp` and `chain.cpp`: all contracts of an underlying by expiry, strike and type, and the two
maps from an id to where it is.  `std::map` is `OrdMap`, iterated in key order.
-/

namespace Ordbk

instance int64StrictTotalOrder : IsStrictTotalOrder Int64 (· < ·) where
  trichotomous a b hab hba := by
    rw [Int64.lt_iff_toInt_lt] at hab hba
    exact Int64.toInt_inj.mp (by omega)
  irrefl a := by
    rw [Int64.lt_iff_toInt_lt]
    exact lt_irrefl _
  trans a b c hab hbc := by
    rw [Int64.lt_iff_toInt_lt] at hab hbc ⊢
    exact hab.trans hbc

/-- The call and the put of one strike. -/
structure StrikeSlot where
  /-- The right to buy at the strike, -/
  call : Option InstrumentId := none
  /-- and the right to sell. -/
  put : Option InstrumentId := none
  deriving DecidableEq, Repr

namespace StrikeSlot

/-- The field of a type: `Call`, or else. -/
def get (slot : StrikeSlot) : OptionType → Option InstrumentId
  | .call => slot.call
  | .put => slot.put

/-- Write the field of a type. -/
def set (slot : StrikeSlot) (v : Option InstrumentId) : OptionType → StrikeSlot
  | .call => { slot with call := v }
  | .put => { slot with put := v }

/-- What the loops push for a strike: the call, then the put. -/
def ids (slot : StrikeSlot) : List InstrumentId := slot.call.toList ++ slot.put.toList

end StrikeSlot

/-- The strikes of one expiry. -/
abbrev StrikeMap := OrdMap (fun a b : Int64 => a < b) StrikeSlot

/-- **The contracts of an underlying**, twice: by their terms and by their ids. -/
structure Chain where
  /-- What the options are on. -/
  underlying : Text
  /-- By expiry, and then by strike. -/
  levels : OrdMap (fun a b : ExpiryDate => a < b) StrikeMap := .empty
  /-- Where the contract of an id is. -/
  byId : Finmap fun _ : InstrumentId => ExpiryDate × Int64 := ∅
  /-- And which of the two it is there. -/
  idToType : Finmap fun _ : InstrumentId => OptionType := ∅

namespace Chain

/-- `levels_[expiry]`, made if it is not there. -/
def strikesAt (ch : Chain) (expiry : ExpiryDate) : StrikeMap := (ch.levels.find? expiry).getD .empty

/-- `levels_[expiry][strike]`, made if it is not there. -/
def slotAt (ch : Chain) (expiry : ExpiryDate) (strike : Int64) : StrikeSlot :=
  ((ch.strikesAt expiry).find? strike).getD {}

/-- The levels once a slot is written through the reference `levels_[expiry][strike]`. -/
def store (ch : Chain) (expiry : ExpiryDate) (strike : Int64) (slot : StrikeSlot) :
    OrdMap (fun a b : ExpiryDate => a < b) StrikeMap :=
  ch.levels.insertOrAssign expiry ((ch.strikesAt expiry).insertOrAssign strike slot)

/-- A slot that is taken stays as it is; the levels made on the way stay, too. -/
def add (ch : Chain) (id : InstrumentId) (contract : Contract) : Chain × Bool :=
  if (ch.byId.lookup id).isSome then (ch, false)
  else
    let slot := ch.slotAt contract.expiry contract.strike
    if (slot.get contract.optionType).isSome then
      ({ ch with levels := ch.store contract.expiry contract.strike slot }, false)
    else
      ({ ch with
          levels := ch.store contract.expiry contract.strike
            (slot.set (some id) contract.optionType)
          byId := emplace ch.byId id (contract.expiry, contract.strike)
          idToType := emplace ch.idToType id contract.optionType }, true)

/-- `remove`; `none` is the exception of an `at` that finds nothing. -/
def remove (ch : Chain) (id : InstrumentId) : Option (Chain × Bool) :=
  match ch.byId.lookup id with
  | none => some (ch, false)
  | some (expiry, strike) => do
    let type ← ch.idToType.lookup id
    let strikeMap ← ch.levels.find? expiry
    let slot ← strikeMap.find? strike
    let slot := slot.set none type
    let strikeMap := strikeMap.insertOrAssign strike slot
    let strikeMap :=
      if slot.call.isNone && slot.put.isNone then strikeMap.erase strike else strikeMap
    let levels := ch.levels.insertOrAssign expiry strikeMap
    let levels := if strikeMap.entries.isEmpty then levels.erase expiry else levels
    some ({ ch with levels, byId := ch.byId.erase id, idToType := ch.idToType.erase id }, true)

/-! ## Queries

Each of them looks up the expiry first; the lists come in the order of the strikes. -/

/-- The id of a contract. -/
def find (ch : Chain) (expiry : ExpiryDate) (strike : Int64) (type : OptionType) :
    Option InstrumentId :=
  match ch.levels.find? expiry with
  | none => none
  | some strikes =>
    match strikes.find? strike with
    | none => none
    | some slot => slot.get type

/-- All contracts of an expiry. -/
def atExpiry (ch : Chain) (expiry : ExpiryDate) : List InstrumentId :=
  match ch.levels.find? expiry with
  | none => []
  | some strikes => strikes.entries.flatMap fun x => x.2.ids

/-- Its calls alone. -/
def callsAt (ch : Chain) (expiry : ExpiryDate) : List InstrumentId :=
  match ch.levels.find? expiry with
  | none => []
  | some strikes => strikes.entries.flatMap fun x => x.2.call.toList

/-- Its puts alone. -/
def putsAt (ch : Chain) (expiry : ExpiryDate) : List InstrumentId :=
  match ch.levels.find? expiry with
  | none => []
  | some strikes => strikes.entries.flatMap fun x => x.2.put.toList

def expiries (ch : Chain) : List ExpiryDate := ch.levels.entries.map Prod.fst

/-- The loop breaks at the first expiry after the date. -/
def expiringOnOrBefore (ch : Chain) (date : ExpiryDate) : List InstrumentId :=
  (ch.levels.entries.takeWhile fun x => !decide (date < x.1)).flatMap fun x =>
    x.2.entries.flatMap fun y => y.2.ids

def size (ch : Chain) : ℕ := ch.byId.keys.card

end Chain

end Ordbk
