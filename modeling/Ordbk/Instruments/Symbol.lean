import Ordbk.Instruments.Contract

/-!
# Instruments/Symbol — the symbols there are

An OCC symbol is six fields of fixed width.  `Symbol` holds what stands in them, within their
widths; `fromOcc` accepts the text of a symbol with anything behind it, and nothing else
(`fromOcc_eq_ok`).
-/

namespace Ordbk

/-! ## Numbers as text

`parse_int` reads what a field of digits says; on a field of fixed width that is the number below
the power of ten. -/

@[simp] theorem length_digitText (ds : List ℕ) : (digitText ds).length = ds.length :=
  List.length_map _

theorem digitText_append (ds es : List ℕ) : digitText (ds ++ es) = digitText ds ++ digitText es :=
  List.map_append

theorem take_digitText (n : ℕ) (ds : List ℕ) : (digitText ds).take n = digitText (ds.take n) :=
  List.map_take.symm

theorem toNat_digit {d : ℕ} (h : d < 10) : (UInt8.ofNat (48 + d)).toNat = 48 + d :=
  UInt8.toNat_ofNat_of_lt' (by change _ < 2 ^ 8; omega)

namespace Contract

/-- Digit by digit, from the left. -/
theorem parseIntFrom_digitText {ds : List ℕ} (h : ∀ d ∈ ds, d < 10) (v : ℕ) :
    parseIntFrom v (digitText ds) = .ok (ds.foldl (fun v d => v * 10 + d) v) := by
  induction ds generalizing v with
  | nil => rfl
  | cons d ds ih =>
    have hd := toNat_digit (h d (List.mem_cons_self ..))
    have hlt := h d (List.mem_cons_self ..)
    change (if UInt8.ofNat (48 + d) < kZero ∨ kNine < UInt8.ofNat (48 + d)
      then Except.error OccError.nonDigit
      else parseIntFrom (v * 10 + ((UInt8.ofNat (48 + d)).toNat - 48)) (digitText ds)) = _
    rw [if_neg, hd, Nat.add_sub_cancel_left]
    · exact ih (fun e he => h e (List.mem_cons_of_mem _ he)) _
    · rw [UInt8.lt_iff_toNat_lt, UInt8.lt_iff_toNat_lt, hd]
      change ¬ (48 + d < 48 ∨ 57 < 48 + d)
      omega

/-- Digits are read. -/
theorem parseInt_digitText {ds : List ℕ} (h : ∀ d ∈ ds, d < 10) :
    parseInt (digitText ds) = .ok (Decimal.value ds) := parseIntFrom_digitText h 0

/-- Nothing but digits is read. -/
theorem exists_digits {sv : Text} {v w : ℕ} (h : parseIntFrom v sv = .ok w) :
    ∃ ds, (∀ d ∈ ds, d < 10) ∧ sv = digitText ds := by
  induction sv generalizing v with
  | nil => exact ⟨[], nofun, rfl⟩
  | cons ch sv ih =>
    rw [parseIntFrom] at h
    split_ifs at h with hch
    obtain ⟨ds, hds, rfl⟩ := ih h
    rw [UInt8.lt_iff_toNat_lt, UInt8.lt_iff_toNat_lt] at hch
    change ¬ (ch.toNat < 48 ∨ 57 < ch.toNat) at hch
    refine ⟨(ch.toNat - 48) :: ds, List.forall_mem_cons.mpr ⟨by omega, hds⟩, ?_⟩
    have hval : UInt8.ofNat (48 + (ch.toNat - 48)) = ch := by
      rw [Nat.add_sub_cancel' (by omega), UInt8.ofNat_toNat]
    change ch :: digitText ds = UInt8.ofNat (48 + (ch.toNat - 48)) :: digitText ds
    rw [hval]

/-- What is read from a field of a given width is a number of that width, and is written back. -/
theorem parseInt_eq_ok {sv : Text} {v w : ℕ} (hlen : sv.length = w) (h : parseInt sv = .ok v) :
    v < 10 ^ w ∧ sv = digitText (Decimal.padded w v) := by
  obtain ⟨ds, hds, rfl⟩ := exists_digits h
  rw [parseInt_digitText hds] at h
  obtain rfl := Except.ok.inj h
  rw [length_digitText] at hlen
  rw [Decimal.padded_value hlen hds]
  exact ⟨hlen ▸ Decimal.value_lt hds, rfl⟩

end Contract

/-- The field of a number: zeros in front, up to the width. -/
def field (w n : ℕ) : Text := digitText (Decimal.padded w n)

/-- A number that fits fills its field. -/
theorem length_field {w n : ℕ} (h : n < 10 ^ w) : (field w n).length = w := by
  rw [field, length_digitText, Decimal.length_padded_of_lt h]

/-- A field is read back. -/
theorem parseInt_field (w n : ℕ) : Contract.parseInt (field w n) = .ok n := by
  rw [field, Contract.parseInt_digitText fun d => Decimal.lt_of_mem_padded, Decimal.value_padded]

/-- The formatting with zeros in front writes the same field. -/
theorem zeroPadded_natCast (w n : ℕ) : zeroPadded w n = field w n := by
  rw [zeroPadded, if_neg (by omega), Int.toNat_natCast]
  rfl

/-! ## Symbols

Between a contract and its text stands what the text says field by field, each field as wide as the
format has it. What `from_occ` makes of the fields, and what `occ_symbol` writes into them, are then
separate questions. -/

/-- The letter of the type in a symbol. -/
def OptionType.letter (t : OptionType) : Byte := if t = .call then kCall else kPut

/-- It is read back. -/
theorem Contract.parseType_letter (t : OptionType) : parseType (some t.letter) = .ok t := by
  cases t <;> decide

/-- And no other letter is. -/
theorem Contract.parseType_eq_ok {cp : Option Byte} {t : OptionType} (h : parseType cp = .ok t) :
    cp = some t.letter := by
  unfold parseType at h
  split_ifs at h with hc hp
  · obtain rfl := Except.ok.inj h
    exact hc
  · obtain rfl := Except.ok.inj h
    exact hp

/-- **What stands in the fields of a symbol.** -/
structure Symbol where
  /-- The underlying, filled up with blanks. -/
  root : Text
  /-- The year since 2000, then the month and the day of the expiry; no calendar is asked. -/
  yy : ℕ
  mm : ℕ
  dd : ℕ
  /-- One letter, `C` or `P`. -/
  optionType : OptionType
  /-- The strike, in thousandths. -/
  thousandths : ℕ
  /-- **The fields have the widths of the format.** Six characters for the root, -/
  root_length : root.length = 6
  /-- two digits for the year, -/
  yy_lt : yy < 10 ^ 2
  /-- for the month, -/
  mm_lt : mm < 10 ^ 2
  /-- and for the day, -/
  dd_lt : dd < 10 ^ 2
  /-- and eight for the strike. -/
  thousandths_lt : thousandths < 10 ^ 8

namespace Symbol

/-- How it is written. -/
def text (x : Symbol) : Text :=
  x.root ++ (field 2 x.yy ++ (field 2 x.mm ++ (field 2 x.dd
    ++ (x.optionType.letter :: field 8 x.thousandths))))

/-- The contract a symbol denotes. -/
def contract (x : Symbol) : Contract where
  underlying := Contract.trimEnd x.root
  strike := Int64.ofNat (x.thousandths / 10)
  expiry := ⟨UInt16.ofNat (2000 + x.yy), UInt8.ofNat x.mm, UInt8.ofNat x.dd⟩
  optionType := x.optionType

/-- A symbol has twenty-one characters. -/
@[simp] theorem length_text (x : Symbol) : x.text.length = 21 := by
  simp [text, x.root_length, length_field x.yy_lt, length_field x.mm_lt, length_field x.dd_lt,
    length_field x.thousandths_lt]

end Symbol

/-! ## The grammar

`from_occ` cuts the text at fixed places, so a field of the text is a field of the symbol. -/

namespace Contract

theorem drop_eq_substr (s : Text) (pos n : ℕ) :
    s.drop pos = substr s pos n ++ s.drop (pos + n) := by
  rw [← List.drop_drop]
  exact (List.take_append_drop n _).symm

theorem substr_append_of_le {a s : Text} {pos n : ℕ} (h : a.length ≤ pos) :
    substr (a ++ s) pos n = substr s (pos - a.length) n := by
  unfold substr
  rw [List.drop_append, List.drop_of_length_le h, List.nil_append]

theorem substr_append_self {a s : Text} {n : ℕ} (h : a.length = n) : substr (a ++ s) 0 n = a :=
  List.take_left' h

theorem substr_cons_succ (ch : Byte) (s : Text) (pos n : ℕ) :
    substr (ch :: s) (pos + 1) n = substr s pos n := rfl

theorem length_substr {s : Text} {pos n : ℕ} (h : pos + n ≤ s.length) :
    (substr s pos n).length = n := by
  unfold substr
  rw [List.length_take_of_le]
  rw [List.length_drop]
  exact Nat.le_sub_of_add_le' h

/-- **The text of a symbol is accepted**, whatever follows it. -/
theorem fromOcc_text (x : Symbol) (extra : Text) : fromOcc (x.text ++ extra) = .ok x.contract := by
  have hroot := x.root_length
  have hyy := length_field x.yy_lt
  have hmm := length_field x.mm_lt
  have hdd := length_field x.dd_lt
  have hth := length_field x.thousandths_lt
  have hletter : (x.text ++ extra)[12]? = some x.optionType.letter := by
    simp [Symbol.text, List.getElem?_append_right, hroot, hyy, hmm, hdd]
  have h0 : substr (x.text ++ extra) 0 6 = x.root := by
    simp [Symbol.text, substr_append_self hroot]
  have h6 : substr (x.text ++ extra) 6 2 = field 2 x.yy := by
    simp [Symbol.text, substr_append_of_le, hroot, substr_append_self hyy]
  have h8 : substr (x.text ++ extra) 8 2 = field 2 x.mm := by
    simp [Symbol.text, substr_append_of_le, hroot, hyy, substr_append_self hmm]
  have h10 : substr (x.text ++ extra) 10 2 = field 2 x.dd := by
    simp [Symbol.text, substr_append_of_le, hroot, hyy, hmm, substr_append_self hdd]
  have h13 : substr (x.text ++ extra) 13 8 = field 8 x.thousandths := by
    simp [Symbol.text, substr_append_of_le, hroot, hyy, hmm, hdd, substr_cons_succ,
      substr_append_self hth]
  unfold fromOcc
  rw [if_neg (by simp), h0, h6, h8, h10, h13, hletter]
  rw [parseInt_field, parseInt_field, parseInt_field, parseInt_field, parseType_letter]
  rfl

/-- What succeeds has succeeded in both steps. -/
theorem bind_eq_ok {α β : Type} {x : Except OccError α} {f : α → Except OccError β} {b : β}
    (h : (x >>= f) = .ok b) : ∃ a, x = .ok a ∧ f a = .ok b := by
  cases x with
  | error err => cases h
  | ok a => exact ⟨a, rfl, h⟩

/-- **Nothing else is accepted.** -/
theorem fromOcc_eq_ok {s : Text} {c : Contract} (h : fromOcc s = .ok c) :
    ∃ (x : Symbol) (extra : Text), s = x.text ++ extra ∧ c = x.contract := by
  unfold fromOcc at h
  split_ifs at h with hlen
  have hlen : 21 ≤ s.length := Nat.le_of_not_lt hlen
  obtain ⟨yy, hyy, h⟩ := bind_eq_ok h
  obtain ⟨mm, hmm, h⟩ := bind_eq_ok h
  obtain ⟨dd, hdd, h⟩ := bind_eq_ok h
  obtain ⟨t, ht, h⟩ := bind_eq_ok h
  obtain ⟨th, hth, h⟩ := bind_eq_ok h
  obtain rfl := Except.ok.inj h
  obtain ⟨hyy, h6⟩ := parseInt_eq_ok (length_substr (by omega)) hyy
  obtain ⟨hmm, h8⟩ := parseInt_eq_ok (length_substr (by omega)) hmm
  obtain ⟨hdd, h10⟩ := parseInt_eq_ok (length_substr (by omega)) hdd
  obtain ⟨hth, h13⟩ := parseInt_eq_ok (length_substr (by omega)) hth
  have h12 : s.drop 12 = t.letter :: s.drop 13 := by
    obtain ⟨hlt, hget⟩ := List.getElem?_eq_some_iff.mp (parseType_eq_ok ht)
    rw [List.drop_eq_getElem_cons hlt, hget]
  refine ⟨⟨substr s 0 6, yy, mm, dd, t, th, length_substr (by omega), hyy, hmm, hdd, hth⟩,
    s.drop 21, ?_, rfl⟩
  calc s = substr s 0 6 ++ s.drop 6 := drop_eq_substr s 0 6
    _ = substr s 0 6 ++ (field 2 yy ++ (field 2 mm ++ (field 2 dd ++ s.drop 12))) := by
      rw [drop_eq_substr s 6 2, drop_eq_substr s 8 2, drop_eq_substr s 10 2, h6, h8, h10]
      rfl
    _ = substr s 0 6 ++ (field 2 yy ++ (field 2 mm ++ (field 2 dd ++
        (t.letter :: (field 8 th ++ s.drop 21))))) := by
      rw [h12, drop_eq_substr s 13 8, h13]
      rfl
    _ = _ := by simp [Symbol.text]

end Contract

end Ordbk
