import Ordbk.Lib.Decimal
import Ordbk.Protocol.Codec
import Mathlib.Data.List.DropRight
import Mathlib.Data.Prod.Lex

/-!
# Instruments/Contract — option contracts and their OCC symbols

`contract.hpp` and `contract.cpp`.  A `std::string` is a list of bytes.  `snprintf` is what the C
standard makes of the two conversions in use, `%02d` and `%08lld`: the digits, zeros in front up to
the width, a minus sign counted with the width; of the result, one byte less than the buffer holds
is stored.  A strike is multiplied in 64 bits; the overflow, which C++ leaves undefined, wraps here.
-/

namespace Ordbk

/-- A `std::string`. -/
abbrev Text := List Byte

/-- `OptionType`. -/
inductive OptionType
  | call
  | put
  deriving DecidableEq, Repr

inductive OptionStyle
  | american
  | european
  deriving DecidableEq, Repr

inductive SettlementType
  | physical
  | cash
  deriving DecidableEq, Repr

/-- A calendar date; nothing checks that there is such a day. -/
structure ExpiryDate where
  year : UInt16 := 0
  month : UInt8 := 0
  day : UInt8 := 0
  deriving DecidableEq, Repr

namespace ExpiryDate

/-- What `operator<=>` compares, member by member. -/
def members (d : ExpiryDate) : ℕ ×ₗ ℕ ×ₗ ℕ :=
  toLex (d.year.toNat, toLex (d.month.toNat, d.day.toNat))

theorem members_injective : Function.Injective members := by
  rintro ⟨y, m, d⟩ ⟨y', m', d'⟩ h
  have h₁ := toLex_inj.mp h
  have h₂ := toLex_inj.mp (congrArg Prod.snd h₁)
  obtain rfl := UInt16.toNat_inj.mp (congrArg Prod.fst h₁)
  obtain rfl := UInt8.toNat_inj.mp (congrArg Prod.fst h₂)
  obtain rfl := UInt8.toNat_inj.mp (congrArg Prod.snd h₂)
  rfl

instance : LinearOrder ExpiryDate := LinearOrder.lift' members members_injective

end ExpiryDate

/-- A single-leg contract; the strike is in ticks of a cent. -/
structure Contract where
  underlying : Text := []
  strike : Int64 := 0
  expiry : ExpiryDate := {}
  optionType : OptionType := .call
  style : OptionStyle := .american
  multiplier : UInt32 := 100
  settlement : SettlementType := .physical
  deriving DecidableEq, Repr

/-! ## Characters

The characters a symbol is made of, and numbers as decimal digits. -/

def kSpace : Byte := 32

def kMinus : Byte := 45

def kZero : Byte := 48

def kNine : Byte := 57

def kCall : Byte := 67

def kPut : Byte := 80

/-- Digits as characters. -/
def digitText (ds : List ℕ) : Text := ds.map fun d => UInt8.ofNat (48 + d)

/-- `%0*lld`: the sign counts with the width. -/
def zeroPadded (width : ℕ) (v : ℤ) : Text :=
  if v < 0 then kMinus :: digitText (Decimal.padded (width - 1) v.natAbs)
  else digitText (Decimal.padded width v.toNat)

/-- What `snprintf` stores in front of the terminator. -/
def snprintf (size : ℕ) (text : Text) : Text := text.take (size - 1)

namespace Contract

/-! ## Formatting

`occ_symbol` writes each field into a buffer of its own and copies as much of it as its field has
room for. -/

/-- The root is written over six spaces. -/
def root (c : Contract) : Text := (c.underlying.take 6).rightpad 6 kSpace

/-- `date`, a buffer of 12. -/
def date (c : Contract) : Text :=
  snprintf 12 (zeroPadded 2 (c.expiry.year % 100).toNat ++ zeroPadded 2 c.expiry.month.toNat
    ++ zeroPadded 2 c.expiry.day.toNat)

/-- A tick is ten thousandths. -/
def thousandths (c : Contract) : Int64 := c.strike * 10

/-- `strike_str`, a buffer of 9. -/
def strikeStr (c : Contract) : Text := snprintf 9 (zeroPadded 8 c.thousandths.toInt)

/-- The fields, one after another. -/
def occSymbol (c : Contract) : Text :=
  c.root ++ c.date.take 6 ++ [if c.optionType = .call then kCall else kPut] ++ c.strikeStr.take 8

/-! ## Parsing

The exceptions carry their texts; the first field that does not parse decides which one is
thrown. -/

/-- The exceptions of `from_occ`. -/
inductive OccError
  | tooShort
  | nonDigit
  | badType
  deriving DecidableEq, Repr

/-- Their texts. -/
def OccError.what : OccError → String
  | tooShort => "OCC symbol too short: must be at least 21 chars"
  | nonDigit => "Non-digit in OCC symbol"
  | badType => "OCC symbol: expected 'C' or 'P' at position 12"

/-- The loop of `parse_int` from the value `v` on; the fields are too short for it to overflow. -/
def parseIntFrom (v : ℕ) : Text → Except OccError ℕ
  | [] => .ok v
  | ch :: sv =>
    if ch < kZero ∨ kNine < ch then .error .nonDigit
    else parseIntFrom (v * 10 + (ch.toNat - kZero.toNat)) sv

def parseInt (sv : Text) : Except OccError ℕ := parseIntFrom 0 sv

def substr (s : Text) (pos n : ℕ) : Text := (s.drop pos).take n

/-- `while (!s.empty() && s.back() == ' ') s.pop_back()`. -/
def trimEnd (s : Text) : Text := s.rdropWhile (· == kSpace)

def parseType (cp : Option Byte) : Except OccError OptionType :=
  if cp = some kCall then .ok .call
  else if cp = some kPut then .ok .put
  else .error .badType

def fromOcc (occ : Text) : Except OccError Contract :=
  if occ.length < 21 then .error .tooShort
  else do
    let yy ← parseInt (substr occ 6 2)
    let mm ← parseInt (substr occ 8 2)
    let dd ← parseInt (substr occ 10 2)
    let optionType ← parseType occ[12]?
    let thousandths ← parseInt (substr occ 13 8)
    return {
      underlying := trimEnd (substr occ 0 6)
      strike := Int64.ofNat (thousandths / 10)
      expiry := ⟨UInt16.ofNat (2000 + yy), UInt8.ofNat mm, UInt8.ofNat dd⟩
      optionType }

end Contract

end Ordbk
