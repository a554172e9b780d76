import Ordbk.Instruments.Symbol

/-!
# Theorems/Symbols — contracts and their symbols

A contract whose terms fit the fields of a symbol is formatted and parsed back
(`fromOcc_occSymbol`).  Nothing checks that they fit: what a symbol is parsed to is always a
contract that fits, so the terms of any other contract come back changed, if they come back
(`exists_fromOcc`, `sameTerms_iff`).  The other way round, a symbol that is accepted is written back
up to its twentieth character (`occSymbol_of_fromOcc`).
-/

namespace Ordbk

namespace Contract

/-- The terms a symbol speaks of. -/
def SameTerms (c d : Contract) : Prop :=
  c.underlying = d.underlying ∧ c.expiry = d.expiry ∧ c.strike = d.strike
    ∧ c.optionType = d.optionType

/-- **The terms fit the fields**: six characters, a year of this century, days and months of two
digits, a strike below a hundred thousand. -/
structure Representable (c : Contract) : Prop where
  /-- The root has room for the underlying. -/
  length : c.underlying.length ≤ 6
  /-- Blanks at its end would be lost among those of the root. -/
  trimmed : c.underlying.getLast? ≠ some kSpace
  /-- Of the year two digits are written, and read back as a year from 2000 on. -/
  year_ge : 2000 ≤ c.expiry.year.toNat
  /-- Of this century. -/
  year_le : c.expiry.year.toNat ≤ 2099
  /-- The month and the day have two digits each. -/
  month : c.expiry.month.toNat ≤ 99
  /-- No calendar is asked whether there is such a day. -/
  day : c.expiry.day.toNat ≤ 99
  /-- A strike has no sign. -/
  strike_ge : 0 ≤ c.strike.toInt
  /-- In thousandths it has eight digits; a tick is ten of them. -/
  strike_le : c.strike.toInt ≤ 9999999

/-- Terms fit or do not, whoever has them. -/
theorem SameTerms.representable {c d : Contract} (h : c.SameTerms d) (hc : c.Representable) :
    d.Representable := by
  obtain ⟨hu, he, hs, -⟩ := h
  exact ⟨hu ▸ hc.length, hu ▸ hc.trimmed, he ▸ hc.year_ge, he ▸ hc.year_le, he ▸ hc.month,
    he ▸ hc.day, hs ▸ hc.strike_ge, hs ▸ hc.strike_le⟩

/-! ## The root

The underlying is filled up with blanks to six characters, and the blanks are cut off again. -/

/-- Blanks at the end are cut off. -/
theorem trimEnd_append_spaces (s : Text) (n : ℕ) :
    trimEnd (s ++ List.replicate n kSpace) = trimEnd s := by
  induction n with
  | zero => rw [List.replicate_zero, List.append_nil]
  | succ n ih =>
    rw [List.replicate_succ', ← List.append_assoc, trimEnd, List.rdropWhile_concat_pos _ _ _ rfl]
    exact ih

/-- And nothing else is. -/
theorem trimEnd_of_trimmed {s : Text} (h : s.getLast? ≠ some kSpace) : trimEnd s = s := by
  refine List.rdropWhile_eq_self_iff.mpr fun hne hlast => h ?_
  rw [List.getLast?_eq_some_getLast hne, beq_iff_eq.mp hlast]

/-- The root has six characters, whatever the underlying. -/
theorem length_root (c : Contract) : c.root.length = 6 := by
  rw [root, List.length_rightpad]
  exact max_eq_left (List.length_take_le 6 _)

/-- Nothing is lost of a short root. -/
theorem trimEnd_root {c : Contract} (hlen : c.underlying.length ≤ 6)
    (htrim : c.underlying.getLast? ≠ some kSpace) : trimEnd c.root = c.underlying := by
  rw [root, List.take_of_length_le hlen, List.rightpad, trimEnd_append_spaces,
    trimEnd_of_trimmed htrim]

/-- The spaces a root loses it gets back. -/
theorem rightpad_trimEnd {s : Text} (h : s.length = 6) :
    ((trimEnd s).take 6).rightpad 6 kSpace = s := by
  have hle : (trimEnd s).length ≤ 6 := h ▸ (List.rdropWhile_prefix _ s).length_le
  have hsplit : trimEnd s ++ s.rtakeWhile (· == kSpace) = s := List.rdropWhile_append_rtakeWhile ..
  have hspaces : s.rtakeWhile (· == kSpace)
      = List.replicate (6 - (trimEnd s).length) kSpace := by
    refine List.eq_replicate_iff.mpr ⟨?_, fun ch hch => ?_⟩
    · have hlen := congrArg List.length hsplit
      rw [List.length_append] at hlen
      omega
    · exact beq_iff_eq.mp (@List.mem_rtakeWhile_imp _ (· == kSpace) s ch hch)
  rw [List.take_of_length_le hle, List.rightpad, ← hspaces, hsplit]

/-! ## The other fields

The date takes six digits, the type a letter, the strike eight digits. -/

/-- Two digits are enough for the year. -/
theorem year_lt (c : Contract) : (c.expiry.year % 100).toNat < 10 ^ 2 := by
  rw [UInt16.toNat_mod]
  exact Nat.mod_lt _ (by decide)

/-- The strike in thousandths does not overflow. -/
theorem toInt_thousandths {c : Contract} (h : c.Representable) :
    c.thousandths.toInt = ((c.strike.toInt * 10).toNat : ℤ) := by
  have hge := h.strike_ge
  have hle := h.strike_le
  rw [thousandths, Int64.toInt_mul, show (10 : Int64).toInt = 10 from rfl,
    Int.bmod_eq_of_le (by omega) (by omega), Int.toNat_of_nonneg (by omega)]

/-- The symbol of a contract that fits. -/
def symbol (c : Contract) (h : c.Representable) : Symbol where
  root := c.root
  yy := (c.expiry.year % 100).toNat
  mm := c.expiry.month.toNat
  dd := c.expiry.day.toNat
  optionType := c.optionType
  thousandths := (c.strike.toInt * 10).toNat
  root_length := c.length_root
  yy_lt := c.year_lt
  mm_lt := Nat.lt_of_le_of_lt h.month (by decide)
  dd_lt := Nat.lt_of_le_of_lt h.day (by decide)
  thousandths_lt := by
    have hle := h.strike_le
    omega

/-- **A contract that fits is formatted field by field.** -/
theorem occSymbol_eq {c : Contract} (h : c.Representable) : c.occSymbol = (c.symbol h).text := by
  have hyy := length_field (c.symbol h).yy_lt
  have hmm := length_field (c.symbol h).mm_lt
  have hdd := length_field (c.symbol h).dd_lt
  have hth := length_field (c.symbol h).thousandths_lt
  have hdate : c.date.take 6
      = field 2 (c.symbol h).yy ++ (field 2 (c.symbol h).mm ++ field 2 (c.symbol h).dd) := by
    have hlen : (field 2 (c.symbol h).yy ++ (field 2 (c.symbol h).mm
        ++ field 2 (c.symbol h).dd)).length = 6 := by
      rw [List.length_append, List.length_append, hyy, hmm, hdd]
    rw [date, snprintf, zeroPadded_natCast, zeroPadded_natCast, zeroPadded_natCast, List.take_take,
      List.append_assoc]
    exact List.take_of_length_le hlen.le
  have hstrike : c.strikeStr.take 8 = field 8 (c.symbol h).thousandths := by
    rw [strikeStr, snprintf, toInt_thousandths h, zeroPadded_natCast, List.take_take]
    exact List.take_of_length_le hth.le
  rw [occSymbol, hdate, hstrike, Symbol.text]
  simp [symbol, OptionType.letter]

/-- What the symbol of a contract that fits denotes. -/
theorem sameTerms_symbol {c : Contract} (h : c.Representable) :
    (c.symbol h).contract.SameTerms c := by
  have hyear : UInt16.ofNat (2000 + (c.expiry.year % 100).toNat) = c.expiry.year := by
    have hge := h.year_ge
    have hle := h.year_le
    have hmod : (c.expiry.year % 100).toNat = c.expiry.year.toNat % 100 := UInt16.toNat_mod ..
    rw [← UInt16.toNat_inj, hmod, UInt16.toNat_ofNat_of_lt' (by change _ < 2 ^ 16; omega)]
    omega
  have hstrike : Int64.ofNat ((c.strike.toInt * 10).toNat / 10) = c.strike := by
    have hge := h.strike_ge
    have hle := h.strike_le
    rw [← Int64.toInt_inj, Int64.toInt_ofNat_of_lt (by omega)]
    omega
  refine ⟨trimEnd_root h.length h.trimmed, ?_, hstrike, rfl⟩
  change ExpiryDate.mk _ (UInt8.ofNat c.expiry.month.toNat) (UInt8.ofNat c.expiry.day.toNat) = _
  rw [symbol, hyear, UInt8.ofNat_toNat, UInt8.ofNat_toNat]

end Contract

namespace Symbol

/-- What the fields of a symbol denote. -/
theorem toNat_year (x : Symbol) : x.contract.expiry.year.toNat = 2000 + x.yy := by
  have hlt := x.yy_lt
  exact UInt16.toNat_ofNat_of_lt' (by change _ < 2 ^ 16; omega)

theorem toNat_month (x : Symbol) : x.contract.expiry.month.toNat = x.mm := by
  have hlt := x.mm_lt
  exact UInt8.toNat_ofNat_of_lt' (by change _ < 2 ^ 8; omega)

theorem toNat_day (x : Symbol) : x.contract.expiry.day.toNat = x.dd := by
  have hlt := x.dd_lt
  exact UInt8.toNat_ofNat_of_lt' (by change _ < 2 ^ 8; omega)

theorem toInt_strike (x : Symbol) : x.contract.strike.toInt = (x.thousandths / 10 : ℕ) := by
  have hlt := x.thousandths_lt
  exact Int64.toInt_ofNat_of_lt (by omega)

/-- **What a symbol denotes fits.** -/
theorem representable (x : Symbol) : x.contract.Representable where
  length := x.root_length ▸ (List.rdropWhile_prefix _ x.root).length_le
  trimmed := by
    intro hlast
    change (Contract.trimEnd x.root).getLast? = some kSpace at hlast
    have hne : Contract.trimEnd x.root ≠ [] := fun hnil => by
      rw [hnil] at hlast
      cases hlast
    rw [List.getLast?_eq_some_getLast hne, Option.some_inj] at hlast
    exact List.rdropWhile_last_not _ x.root hne (beq_iff_eq.mpr hlast)
  year_ge := by
    rw [toNat_year]
    exact Nat.le_add_right _ _
  year_le := by
    have hlt := x.yy_lt
    rw [toNat_year]
    omega
  month := by
    have hlt := x.mm_lt
    rw [toNat_month]
    omega
  day := by
    have hlt := x.dd_lt
    rw [toNat_day]
    omega
  strike_ge := by
    rw [toInt_strike]
    exact Int.natCast_nonneg _
  strike_le := by
    have hlt := x.thousandths_lt
    rw [toInt_strike]
    omega

end Symbol

/-! ## There and back

A contract that fits the fields is written and parsed to the same terms. -/

namespace Contract

/-- Its symbol has twenty-one characters. -/
theorem length_occSymbol {c : Contract} (h : c.Representable) : c.occSymbol.length = 21 := by
  rw [occSymbol_eq h]
  exact Symbol.length_text _

/-- Its symbol is parsed to a contract of the same terms. -/
theorem exists_sameTerms {c : Contract} (h : c.Representable) :
    ∃ d, fromOcc c.occSymbol = .ok d ∧ d.SameTerms c := by
  have hparse := fromOcc_text (c.symbol h) []
  rw [List.append_nil] at hparse
  rw [occSymbol_eq h]
  exact ⟨_, hparse, sameTerms_symbol h⟩

/-- **The round trip** of a contract that fits. -/
theorem fromOcc_occSymbol {c : Contract} (h : c.Representable) :
    c.occSymbol.length = 21 ∧ ∃ d, fromOcc c.occSymbol = .ok d ∧ d.SameTerms c :=
  ⟨length_occSymbol h, exists_sameTerms h⟩

/-- A contract of every field. -/
theorem fromOcc_occSymbol_of_aapl :
    (Contract.mk [65, 65, 80, 76] 15000 ⟨2026, 1, 17⟩ .put .european 10 .cash).occSymbol.length = 21
      ∧ ∃ d,
        fromOcc (Contract.mk [65, 65, 80, 76] 15000 ⟨2026, 1, 17⟩ .put .european 10 .cash).occSymbol
          = .ok d
        ∧ d.SameTerms (Contract.mk [65, 65, 80, 76] 15000 ⟨2026, 1, 17⟩ .put .european 10 .cash) :=
  fromOcc_occSymbol ⟨by decide, by decide, by decide, by decide, by decide, by decide, by decide,
    by decide⟩

/-! ## Any contract

Fields that are too wide are cut, so a contract that does not fit is written all the same, with the
symbol of another contract. -/

/-- The date of any contract begins with six digits. -/
theorem exists_dateDigits (c : Contract) :
    ∃ ds, ds.length = 6 ∧ (∀ d ∈ ds, d < 10) ∧ c.date.take 6 = digitText ds := by
  have hyy := Decimal.le_length_padded 2 (c.expiry.year % 100).toNat
  have hmm := Decimal.le_length_padded 2 c.expiry.month.toNat
  have hdd := Decimal.le_length_padded 2 c.expiry.day.toNat
  refine ⟨(Decimal.padded 2 (c.expiry.year % 100).toNat ++ Decimal.padded 2 c.expiry.month.toNat
    ++ Decimal.padded 2 c.expiry.day.toNat).take 6, ?_, fun d hd => ?_, ?_⟩
  · rw [List.length_take_of_le]
    rw [List.length_append, List.length_append]
    omega
  · rcases List.mem_append.mp (List.mem_of_mem_take hd) with hd | hd
    · rcases List.mem_append.mp hd with hd | hd
      · exact Decimal.lt_of_mem_padded hd
      · exact Decimal.lt_of_mem_padded hd
    · exact Decimal.lt_of_mem_padded hd
  · rw [date, snprintf, zeroPadded_natCast, zeroPadded_natCast, zeroPadded_natCast, List.take_take,
      field, field, field, ← digitText_append, ← digitText_append, take_digitText]
    rfl

/-- The date of any contract has six characters. -/
theorem length_date (c : Contract) : (c.date.take 6).length = 6 := by
  obtain ⟨ds, hds, -, hdate⟩ := c.exists_dateDigits
  rw [hdate, length_digitText, hds]

/-- A strike that is not negative is eight digits, the first ones if it has more. -/
theorem exists_strikeDigits {c : Contract} (h : 0 ≤ c.thousandths.toInt) :
    ∃ ds, ds.length = 8 ∧ (∀ d ∈ ds, d < 10) ∧ c.strikeStr.take 8 = digitText ds := by
  have hlen := Decimal.le_length_padded 8 c.thousandths.toInt.toNat
  refine ⟨(Decimal.padded 8 c.thousandths.toInt.toNat).take 8, List.length_take_of_le hlen,
    fun d hd => Decimal.lt_of_mem_padded (List.mem_of_mem_take hd), ?_⟩
  rw [strikeStr, snprintf, ← Int.toNat_of_nonneg h, zeroPadded_natCast, List.take_take, field,
    take_digitText, Int.toNat_natCast]
  rfl

/-- A negative one begins with its sign. -/
theorem head_strikeStr {c : Contract} (h : c.thousandths.toInt < 0) :
    (c.strikeStr.take 8)[0]? = some kMinus := by
  rw [strikeStr, zeroPadded, if_pos h]
  rfl

/-- Digits are the field of the number they write. -/
theorem field_value {w : ℕ} {ds : List ℕ} (hlen : ds.length = w) (h : ∀ d ∈ ds, d < 10) :
    field w (Decimal.value ds) = digitText ds := by
  rw [field, Decimal.padded_value hlen h]

/-- The symbol of any contract is the text of one, if its strike is not negative. -/
theorem exists_symbol {c : Contract} (h : 0 ≤ c.thousandths.toInt) :
    ∃ x : Symbol, c.occSymbol = x.text := by
  obtain ⟨ds, hds, hdigits, hdate⟩ := c.exists_dateDigits
  obtain ⟨es, hes, hdigits', hstrike⟩ := exists_strikeDigits h
  have hyy : (ds.take 2).length = 2 := List.length_take_of_le (by omega)
  have hmm : ((ds.drop 2).take 2).length = 2 := List.length_take_of_le (by simp [hds])
  have hdd : (ds.drop 4).length = 2 := by simp [hds]
  have hyy' : ∀ d ∈ ds.take 2, d < 10 := fun d hd => hdigits d (List.mem_of_mem_take hd)
  have hmm' : ∀ d ∈ (ds.drop 2).take 2, d < 10 := fun d hd =>
    hdigits d (List.mem_of_mem_drop (List.mem_of_mem_take hd))
  have hdd' : ∀ d ∈ ds.drop 4, d < 10 := fun d hd => hdigits d (List.mem_of_mem_drop hd)
  refine ⟨⟨c.root, Decimal.value (ds.take 2), Decimal.value ((ds.drop 2).take 2),
    Decimal.value (ds.drop 4), c.optionType, Decimal.value es, c.length_root,
    (Decimal.value_lt hyy').trans_eq (by rw [hyy]), (Decimal.value_lt hmm').trans_eq (by rw [hmm]),
    (Decimal.value_lt hdd').trans_eq (by rw [hdd]),
    (Decimal.value_lt hdigits').trans_eq (by rw [hes])⟩, ?_⟩
  have hsplit : digitText ds
      = digitText (ds.take 2) ++ (digitText ((ds.drop 2).take 2) ++ digitText (ds.drop 4)) := by
    rw [← digitText_append, ← digitText_append, ← List.drop_drop (l := ds) (i := 2) (j := 2),
      List.take_append_drop, List.take_append_drop]
  rw [occSymbol, hdate, hstrike, hsplit, Symbol.text, field_value hyy hyy', field_value hmm hmm',
    field_value hdd hdd', field_value hes hdigits']
  simp [OptionType.letter]

/-- There is no sign in a field. -/
theorem ne_kMinus_of_mem_field {w n : ℕ} {ch : Byte} (h : ch ∈ field w n) : ch ≠ kMinus := by
  obtain ⟨d, hd, rfl⟩ := List.mem_map.mp h
  rw [ne_eq, ← UInt8.toNat_inj, toNat_digit (Decimal.lt_of_mem_padded hd)]
  change ¬ 48 + d = 45
  omega

/-- **A symbol is parsed unless its strike is negative**, as multiplied. -/
theorem exists_fromOcc (c : Contract) :
    (∃ d, fromOcc c.occSymbol = .ok d) ↔ 0 ≤ c.thousandths.toInt := by
  constructor
  · rintro ⟨d, hd⟩
    by_contra hneg
    obtain ⟨x, extra, htext, -⟩ := fromOcc_eq_ok hd
    have hminus : c.occSymbol[13]? = some kMinus := by
      rw [← head_strikeStr (Int.lt_of_not_ge hneg), occSymbol, List.getElem?_append_right]
      all_goals simp [c.length_root, c.length_date]
    have hdigit : c.occSymbol[13]? = (field 8 x.thousandths)[0]? := by
      have h0 : 0 < (field 8 x.thousandths).length := by
        rw [length_field x.thousandths_lt]
        decide
      rw [htext, Symbol.text]
      simp [List.getElem?_append_right, x.root_length, length_field x.yy_lt, length_field x.mm_lt,
        length_field x.dd_lt, List.getElem?_append_left h0]
    exact ne_kMinus_of_mem_field (List.mem_of_getElem? (hdigit.symm.trans hminus)) rfl
  · intro h
    obtain ⟨x, hx⟩ := exists_symbol h
    have hparse := fromOcc_text x []
    rw [List.append_nil, ← hx] at hparse
    exact ⟨_, hparse⟩

/-- What a contract is parsed to has its own terms exactly if they fit. -/
theorem sameTerms_iff {c d : Contract} (h : fromOcc c.occSymbol = .ok d) :
    d.SameTerms c ↔ c.Representable := by
  constructor
  · intro hsame
    obtain ⟨x, -, -, rfl⟩ := fromOcc_eq_ok h
    exact hsame.representable x.representable
  · intro hc
    obtain ⟨d', hd', hsame⟩ := exists_sameTerms hc
    obtain rfl := Except.ok.inj (h.symm.trans hd')
    exact hsame

/-! ## Any symbol

The strike is divided by ten when it is read and multiplied by ten when it is written, so its last
digit comes back as zero. -/

/-- The root comes back. -/
theorem root_contract (x : Symbol) : x.contract.root = x.root := rightpad_trimEnd x.root_length

/-- The strike comes back but for its last digit. -/
theorem field_div_mul {n : ℕ} (h : n < 10 ^ 8) :
    field 8 (n / 10 * 10) = (field 8 n).take 7 ++ [kZero] := by
  rw [field, Decimal.padded_div_mul h, digitText_append, ← take_digitText]
  rfl

/-- The text of a symbol without the last digit of its strike. -/
theorem take_text (x : Symbol) :
    x.text.take 20 = x.root ++ (field 2 x.yy ++ (field 2 x.mm ++ (field 2 x.dd
      ++ (x.optionType.letter :: (field 8 x.thousandths).take 7)))) := by
  simp [Symbol.text, List.take_append, x.root_length, length_field x.yy_lt, length_field x.mm_lt,
    length_field x.dd_lt, List.take_of_length_le]

/-- **The symbol a symbol comes back as**: the last digit of its strike is lost. -/
theorem occSymbol_contract (x : Symbol) :
    x.contract.occSymbol = x.text.take 20 ++ [kZero] := by
  have hyy : (x.contract.expiry.year % 100).toNat = x.yy := by
    have hlt := x.yy_lt
    have hmod : (x.contract.expiry.year % 100).toNat = x.contract.expiry.year.toNat % 100 :=
      UInt16.toNat_mod ..
    rw [hmod, x.toNat_year]
    omega
  have hth : (x.contract.strike.toInt * 10).toNat = x.thousandths / 10 * 10 := by
    rw [x.toInt_strike]
    omega
  rw [occSymbol_eq x.representable, take_text]
  simp only [symbol, Symbol.text, root_contract, hyy, hth, x.toNat_month, x.toNat_day,
    field_div_mul x.thousandths_lt, List.append_assoc, List.cons_append]
  rfl

/-- A text is its first twenty characters and one more exactly if it is that long and ends so. -/
theorem take_append_eq_iff {s : Text} {ch : Byte} (h : 21 ≤ s.length) :
    s.take 20 ++ [ch] = s ↔ s.length = 21 ∧ s[20]? = some ch := by
  have htake : (s.take 20).length = 20 := List.length_take_of_le (by omega)
  constructor
  · intro heq
    rw [← heq, List.length_append, htake, List.getElem?_append_right htake.le, htake]
    exact ⟨rfl, rfl⟩
  · rintro ⟨hlen, hch⟩
    obtain ⟨hlt, hget⟩ := List.getElem?_eq_some_iff.mp hch
    have hdrop : s.drop 20 = [ch] := by
      rw [List.drop_eq_getElem_cons hlt, hget, List.drop_of_length_le hlen.le]
    rw [← hdrop, List.take_append_drop]

/-- `AAPL  260117C00150000`. -/
def kAapl : Text :=
  [65, 65, 80, 76, 32, 32, 50, 54, 48, 49, 49, 55, 67, 48, 48, 49, 53, 48, 48, 48, 48]

/-- **What an accepted symbol is written back as**: its first twenty characters and a zero.  It
comes back whole exactly if there is nothing behind it and its strike is in whole ticks. -/
theorem occSymbol_of_fromOcc {s : Text} {c : Contract} (h : fromOcc s = .ok c) :
    c.occSymbol = s.take 20 ++ [kZero]
      ∧ (c.occSymbol = s ↔ s.length = 21 ∧ s[20]? = some kZero) := by
  obtain ⟨x, extra, rfl, rfl⟩ := fromOcc_eq_ok h
  have hlen := x.length_text
  have htake : x.contract.occSymbol = (x.text ++ extra).take 20 ++ [kZero] := by
    rw [occSymbol_contract, List.take_append_of_le_length (by omega)]
  rw [htake]
  refine ⟨rfl, take_append_eq_iff ?_⟩
  rw [List.length_append]
  omega

theorem occSymbol_of_fromOcc_aapl :
    (Contract.mk [65, 65, 80, 76] 15000 ⟨2026, 1, 17⟩ .call .american 100 .physical).occSymbol
        = kAapl.take 20 ++ [kZero]
      ∧ ((Contract.mk [65, 65, 80, 76] 15000 ⟨2026, 1, 17⟩ .call .american 100 .physical).occSymbol
        = kAapl ↔ kAapl.length = 21 ∧ kAapl[20]? = some kZero) :=
  occSymbol_of_fromOcc (by decide +kernel)

/-- **A strike of a tenth of a cent**, and a character too many: both symbols are accepted, and
neither comes back. -/
theorem not_occSymbol_of_fromOcc : ∃ s t c d, fromOcc s = .ok c ∧ s.length = 21 ∧ c.occSymbol ≠ s
    ∧ fromOcc t = .ok d ∧ t.length = 22 ∧ d.occSymbol ≠ t :=
  ⟨kAapl.take 20 ++ [kNine], kAapl ++ [kNine],
    ⟨[65, 65, 80, 76], 15000, ⟨2026, 1, 17⟩, .call, .american,
    100, .physical⟩, ⟨[65, 65, 80, 76], 15000, ⟨2026, 1, 17⟩, .call, .american, 100, .physical⟩,
    by decide +kernel⟩

/-- Contracts that fit are told apart by their symbols. -/
theorem sameTerms_of_occSymbol {c d : Contract} (hc : c.Representable) (hd : d.Representable)
    (h : c.occSymbol = d.occSymbol) : c.SameTerms d := by
  obtain ⟨c', hc', hu, he, hs, ht⟩ := exists_sameTerms hc
  obtain ⟨d', hd', hu', he', hs', ht'⟩ := exists_sameTerms hd
  rw [h] at hc'
  obtain rfl := Except.ok.inj (hc'.symm.trans hd')
  exact ⟨hu.symm.trans hu', he.symm.trans he', hs.symm.trans hs', ht.symm.trans ht'⟩

end Contract

end Ordbk
