import Ordbk.Protocol.RoundTrip
import Mathlib.Data.Nat.Digits.Lemmas

/-!
# Protocol/Parsing — what is read is what was written

The converse of the round trip: the bytes a reader takes are the bytes of the value it returns, for
the words, for the header and for each of the bodies — up to the padding byte of a new order, which
`decode_body` reads and drops (`readBody_eq_some`).  A body is read whenever its fields are there
(`exists_readBody`).
-/

namespace Ordbk

/-! ## Words

A word of a given width is as many bytes, and any such bytes are a word's. -/

/-- A byte is a digit to the base 256. -/
theorem toNat_lt_of_mem (bs : List Byte) : ∀ x ∈ bs.map (·.toNat), x < 256 := by
  intro x hx
  obtain ⟨b, -, rfl⟩ := List.mem_map.mp hx
  exact b.toNat_lt

/-- The digits of a number are those it was put together from. -/
theorem digit_ofDigits {bs : List Byte} {i : ℕ} (hi : i < bs.length) :
    Nat.ofDigits 256 (bs.map (·.toNat)) / 2 ^ (8 * i) % 256 = (bs[i]).toNat := by
  have hb := (bs[i]).toNat_lt
  rw [Nat.pow_mul, Nat.ofDigits_div_pow_eq_ofDigits_drop i (by decide) _ (toNat_lt_of_mem bs),
    ← List.map_drop, List.drop_eq_getElem_cons hi, List.map_cons, Nat.ofDigits_cons]
  omega

/-- So many digits are a number below that power. -/
theorem ofDigits_lt (bs : List Byte) :
    Nat.ofDigits 256 (bs.map (·.toNat)) < 256 ^ bs.length := by
  simpa using Nat.ofDigits_lt_base_pow_length (by decide) (toNat_lt_of_mem bs)

theorem getElem_bytes32 {v : UInt32} {i : ℕ} (hi : i < (bytes32 v).length) :
    (bytes32 v)[i] = byte32 v i := by simp [bytes32]

theorem getElem_bytes64 {v : UInt64} {i : ℕ} (hi : i < (bytes64 v).length) :
    (bytes64 v)[i] = byte64 v i := by simp [bytes64]

/-- **Any two bytes are a word's.** -/
theorem exists_bytes16 (a b : Byte) : ∃ v, bytes16 v = [a, b] := by
  have ha := a.toNat_lt
  have hb := b.toNat_lt
  have hv : (UInt16.ofNat (a.toNat + 256 * b.toNat)).toNat = a.toNat + 256 * b.toNat :=
    UInt16.toNat_ofNat_of_lt' (by change _ < 2 ^ 16; omega)
  refine ⟨UInt16.ofNat (a.toNat + 256 * b.toNat), ?_⟩
  unfold bytes16
  rw [List.cons.injEq, List.cons.injEq, ← UInt8.toNat_inj, ← UInt8.toNat_inj, toNat_low16,
    toNat_high16, hv]
  exact ⟨by omega, by omega, rfl⟩

/-- Any four bytes are a word's. -/
theorem exists_bytes32 {bs : List Byte} (h : bs.length = 4) : ∃ v, bytes32 v = bs := by
  have hlt := ofDigits_lt bs
  rw [h] at hlt
  refine ⟨UInt32.ofNat (Nat.ofDigits 256 (bs.map (·.toNat))),
    List.ext_getElem ((length_bytes32 _).trans h.symm) fun i hi hi' => ?_⟩
  rw [getElem_bytes32, ← UInt8.toNat_inj, toNat_byte32 _ (h ▸ hi'), UInt32.toNat_ofNat_of_lt' hlt,
    digit_ofDigits hi']

/-- Any eight bytes are a word's. -/
theorem exists_bytes64 {bs : List Byte} (h : bs.length = 8) : ∃ v, bytes64 v = bs := by
  have hlt := ofDigits_lt bs
  rw [h] at hlt
  refine ⟨UInt64.ofNat (Nat.ofDigits 256 (bs.map (·.toNat))),
    List.ext_getElem ((length_bytes64 _).trans h.symm) fun i hi hi' => ?_⟩
  rw [getElem_bytes64, ← UInt8.toNat_inj, toNat_byte64 _ (h ▸ hi'), UInt64.toNat_ofNat_of_lt' hlt,
    digit_ofDigits hi']

/-! ## Reads

What was read was there, and what is returned beside the value is what comes after. -/

variable {bytes rest : List Byte}

/-- A read of one byte takes that byte. -/
theorem readU8_eq_some {v : UInt8} (h : readU8 bytes = some (v, rest)) : bytes = v :: rest := by
  match bytes, h with
  | _ :: _, h =>
    obtain ⟨rfl, rfl⟩ := Prod.mk.inj (Option.some.inj h)
    rfl

/-- A read of two bytes takes a word's bytes. -/
theorem readU16_eq_some {v : UInt16} (h : readU16 bytes = some (v, rest)) :
    bytes = bytes16 v ++ rest := by
  match bytes, h with
  | a :: b :: bytes, h =>
    obtain ⟨w, hw⟩ := exists_bytes16 a b
    have hbytes : a :: b :: bytes = bytes16 w ++ bytes := by rw [hw]; rfl
    rw [hbytes, readU16_bytes] at h
    obtain ⟨rfl, rfl⟩ := Prod.mk.inj (Option.some.inj h)
    exact hbytes

/-- What a read of four bytes takes. -/
theorem readU32_eq_some {v : UInt32} (h : readU32 bytes = some (v, rest)) :
    bytes = bytes32 v ++ rest := by
  have hlen : 4 ≤ bytes.length := by
    by_contra hlt
    rw [readU32, if_pos (Nat.lt_of_not_le hlt)] at h
    cases h
  obtain ⟨w, hw⟩ := exists_bytes32 (List.length_take_of_le hlen)
  have hbytes : bytes = bytes32 w ++ bytes.drop 4 := by rw [hw, List.take_append_drop]
  rw [hbytes, readU32_bytes] at h
  obtain ⟨rfl, rfl⟩ := Prod.mk.inj (Option.some.inj h)
  exact hbytes

/-- What a read of eight bytes takes. -/
theorem readU64_eq_some {v : UInt64} (h : readU64 bytes = some (v, rest)) :
    bytes = bytes64 v ++ rest := by
  have hlen : 8 ≤ bytes.length := by
    by_contra hlt
    rw [readU64, if_pos (Nat.lt_of_not_le hlt)] at h
    cases h
  obtain ⟨w, hw⟩ := exists_bytes64 (List.length_take_of_le hlen)
  have hbytes : bytes = bytes64 w ++ bytes.drop 8 := by rw [hw, List.take_append_drop]
  rw [hbytes, readU64_bytes] at h
  obtain ⟨rfl, rfl⟩ := Prod.mk.inj (Option.some.inj h)
  exact hbytes

/-- What a computation reads: first its one half, then its other. -/
theorem bind_read_eq_some {α β : Type} {x : Reader α} {f : α → Reader β} {v : β}
    (h : (x >>= f) bytes = some (v, rest)) :
    ∃ a mid, x bytes = some (a, mid) ∧ f a mid = some (v, rest) := by
  rw [bind_read, Option.bind_eq_some_iff] at h
  obtain ⟨⟨a, mid⟩, hx, hf⟩ := h
  exact ⟨a, mid, hx, hf⟩

/-- A signed word is read like an unsigned one. -/
theorem readI64_eq_some {v : Int64} (h : readI64 bytes = some (v, rest)) :
    bytes = bytes64 v.toUInt64 ++ rest := by
  obtain ⟨u, mid, hu, hv⟩ := bind_read_eq_some h
  obtain ⟨rfl, rfl⟩ := Prod.mk.inj (Option.some.inj hv)
  exact readU64_eq_some hu

/-- **A reader of `n` bytes** takes them whatever they are, and fails if there are fewer. -/
def Takes {α : Type} (x : Reader α) (n : ℕ) : Prop :=
  ∀ bytes, if n ≤ bytes.length then ∃ v, x bytes = some (v, bytes.drop n) else x bytes = none

/-- A reader that reads nothing. -/
theorem takes_pure {α : Type} (v : α) : Takes (pure v : Reader α) 0 := fun bytes => by
  rw [if_pos (Nat.zero_le _)]
  exact ⟨v, rfl⟩

/-- **Readers one after the other** take what they take together. -/
theorem Takes.bind {α β : Type} {x : Reader α} {f : α → Reader β} {n k : ℕ} (hx : Takes x n)
    (hf : ∀ v, Takes (f v) k) : Takes (x >>= f) (n + k) := by
  intro bytes
  have h := hx bytes
  split_ifs at h with hn
  · obtain ⟨v, hv⟩ := h
    have hrest := hf v (bytes.drop n)
    rw [List.length_drop, List.drop_drop] at hrest
    rw [bind_read, hv]
    by_cases hk : n + k ≤ bytes.length
    · rw [if_pos hk]
      rwa [if_pos (by omega)] at hrest
    · rw [if_neg hk]
      rwa [if_neg (by omega)] at hrest
  · rw [if_neg (by omega), bind_read, h]
    rfl

theorem takes_readU8 : Takes readU8 1
  | [] => rfl
  | b :: bytes => by
    rw [if_pos (show 1 ≤ (b :: bytes).length from Nat.succ_pos _)]
    exact ⟨b, rfl⟩

theorem takes_readU32 : Takes readU32 4 := fun bytes => by
  unfold readU32
  split_ifs
  all_goals first | omega | rfl | exact ⟨_, rfl⟩

theorem takes_readU64 : Takes readU64 8 := fun bytes => by
  unfold readU64
  split_ifs
  all_goals first | omega | rfl | exact ⟨_, rfl⟩

theorem takes_readI64 : Takes readI64 8 := takes_readU64.bind fun u => takes_pure u.toInt64

/-! ## Bodies and headers

A body may be longer than its fields: what is behind them is not read. -/

theorem MsgType.toByte_ofByte (b : Byte) : (MsgType.ofByte b).toByte = b := by
  unfold MsgType.ofByte
  split_ifs <;> simp_all [MsgType.toByte]

theorem RejectReason.toByte_ofByte (b : Byte) : (RejectReason.ofByte b).toByte = b := by
  unfold RejectReason.ofByte
  split_ifs with h7 h0 h1 h2 h3 h4 h5 h6
  case neg =>
    -- what is left below 8 is 7
    change (7 : UInt8) = b
    simp only [← UInt8.toNat_inj, UInt8.lt_iff_toNat_lt,
      UInt8.reduceToNat] at h7 h0 h1 h2 h3 h4 h5 h6 ⊢
    omega
  all_goals first | rfl | exact Eq.symm ‹_›

/-- The bytes of a body with any padding. -/
def paddedBytes (pad : Byte) : MessageBody → List Byte
  | .newOrder m => bytes64 m.clientOrderId ++ (bytes32 m.instrumentId ++ (m.side :: m.orderType ::
      m.tif :: pad :: (bytes64 m.price.toUInt64 ++ bytes64 m.quantity)))
  | b => bodyBytes b

/-- **What a read of a body takes**, padding included. -/
theorem readBody_eq_some {t : MsgType} {b : MessageBody} (h : readBody t bytes = some (b, rest)) :
    typeOf b = t ∧ ∃ pad, bytes = paddedBytes pad b ++ rest := by
  cases t with
  | logon =>
    obtain ⟨c, _, h1, hr⟩ := bind_read_eq_some h
    obtain ⟨rfl, rfl⟩ := Prod.mk.inj (Option.some.inj hr)
    exact ⟨rfl, 0, readU32_eq_some h1⟩
  | logout =>
    obtain ⟨rfl, rfl⟩ := Prod.mk.inj (Option.some.inj h)
    exact ⟨rfl, 0, rfl⟩
  | heartbeat =>
    obtain ⟨rfl, rfl⟩ := Prod.mk.inj (Option.some.inj h)
    exact ⟨rfl, 0, rfl⟩
  | newOrder =>
    obtain ⟨id, _, h1, h⟩ := bind_read_eq_some h
    obtain ⟨i, _, h2, h⟩ := bind_read_eq_some h
    obtain ⟨side, _, h3, h⟩ := bind_read_eq_some h
    obtain ⟨type, _, h4, h⟩ := bind_read_eq_some h
    obtain ⟨tif, _, h5, h⟩ := bind_read_eq_some h
    obtain ⟨pad, _, h6, h⟩ := bind_read_eq_some h
    obtain ⟨price, _, h7, h⟩ := bind_read_eq_some h
    obtain ⟨quantity, _, h8, hr⟩ := bind_read_eq_some h
    obtain ⟨rfl, rfl⟩ := Prod.mk.inj (Option.some.inj hr)
    refine ⟨rfl, pad, ?_⟩
    rw [readU64_eq_some h1, readU32_eq_some h2, readU8_eq_some h3, readU8_eq_some h4,
      readU8_eq_some h5, readU8_eq_some h6, readI64_eq_some h7, readU64_eq_some h8]
    simp [paddedBytes]
  | cancelOrder =>
    obtain ⟨id, _, h1, h⟩ := bind_read_eq_some h
    obtain ⟨i, _, h2, hr⟩ := bind_read_eq_some h
    obtain ⟨rfl, rfl⟩ := Prod.mk.inj (Option.some.inj hr)
    refine ⟨rfl, 0, ?_⟩
    rw [readU64_eq_some h1, readU32_eq_some h2]
    simp [paddedBytes, bodyBytes]
  | orderAck =>
    obtain ⟨id, _, h1, h⟩ := bind_read_eq_some h
    obtain ⟨sid, _, h2, hr⟩ := bind_read_eq_some h
    obtain ⟨rfl, rfl⟩ := Prod.mk.inj (Option.some.inj hr)
    refine ⟨rfl, 0, ?_⟩
    rw [readU64_eq_some h1, readU64_eq_some h2]
    simp [paddedBytes, bodyBytes]
  | orderReject =>
    obtain ⟨id, _, h1, h⟩ := bind_read_eq_some h
    obtain ⟨reason, _, h2, hr⟩ := bind_read_eq_some h
    obtain ⟨rfl, rfl⟩ := Prod.mk.inj (Option.some.inj hr)
    refine ⟨rfl, 0, ?_⟩
    rw [readU64_eq_some h1, readU8_eq_some h2]
    simp [paddedBytes, bodyBytes, RejectReason.toByte_ofByte]
  | fill =>
    obtain ⟨id, _, h1, h⟩ := bind_read_eq_some h
    obtain ⟨sid, _, h2, h⟩ := bind_read_eq_some h
    obtain ⟨price, _, h3, h⟩ := bind_read_eq_some h
    obtain ⟨quantity, _, h4, h⟩ := bind_read_eq_some h
    obtain ⟨status, _, h5, hr⟩ := bind_read_eq_some h
    obtain ⟨rfl, rfl⟩ := Prod.mk.inj (Option.some.inj hr)
    refine ⟨rfl, 0, ?_⟩
    rw [readU64_eq_some h1, readU64_eq_some h2, readI64_eq_some h3, readU64_eq_some h4,
      readU8_eq_some h5]
    simp [paddedBytes, bodyBytes]
  | cancelled =>
    obtain ⟨id, _, h1, hr⟩ := bind_read_eq_some h
    obtain ⟨rfl, rfl⟩ := Prod.mk.inj (Option.some.inj hr)
    exact ⟨rfl, 0, readU64_eq_some h1⟩
  | other _ => cases h

/-- The size of the body of each type. -/
def MsgType.bodySize : MsgType → Option ℕ
  | logon => some 4
  | logout => some 0
  | heartbeat => some 0
  | newOrder => some 32
  | cancelOrder => some 12
  | orderAck => some 16
  | orderReject => some 9
  | fill => some 33
  | cancelled => some 8
  | other _ => none

/-- The size a type has is the number of bytes written for it. -/
theorem bodySize_typeOf (b : MessageBody) (pad : Byte) :
    (typeOf b).bodySize = some (paddedBytes pad b).length := by
  cases b <;> simp [typeOf, MsgType.bodySize, paddedBytes, bodyBytes]

/-- **A body is read if it is not too short**, whatever its bytes. -/
theorem takes_readBody {t : MsgType} {n : ℕ} (h : t.bodySize = some n) : Takes (readBody t) n := by
  cases t with
  | other _ => cases h
  | logon =>
    obtain rfl := Option.some.inj h
    exact takes_readU32.bind fun _ => takes_pure _
  | logout =>
    obtain rfl := Option.some.inj h
    exact takes_pure _
  | heartbeat =>
    obtain rfl := Option.some.inj h
    exact takes_pure _
  | newOrder =>
    obtain rfl := Option.some.inj h
    exact takes_readU64.bind fun _ => takes_readU32.bind fun _ => takes_readU8.bind fun _ =>
      takes_readU8.bind fun _ => takes_readU8.bind fun _ => takes_readU8.bind fun _ =>
      takes_readI64.bind fun _ => takes_readU64.bind fun _ => takes_pure _
  | cancelOrder =>
    obtain rfl := Option.some.inj h
    exact takes_readU64.bind fun _ => takes_readU32.bind fun _ => takes_pure _
  | orderAck =>
    obtain rfl := Option.some.inj h
    exact takes_readU64.bind fun _ => takes_readU64.bind fun _ => takes_pure _
  | orderReject =>
    obtain rfl := Option.some.inj h
    exact takes_readU64.bind fun _ => takes_readU8.bind fun _ => takes_pure _
  | fill =>
    obtain rfl := Option.some.inj h
    exact takes_readU64.bind fun _ => takes_readU64.bind fun _ => takes_readI64.bind fun _ =>
      takes_readU64.bind fun _ => takes_readU8.bind fun _ => takes_pure _
  | cancelled =>
    obtain rfl := Option.some.inj h
    exact takes_readU64.bind fun _ => takes_pure _

/-- A body is what its bytes say, and what follows them is not looked at. -/
theorem decodeBody_eq_some {h : MessageHeader} {b : MessageBody}
    (hd : decodeBody h bytes = some b) :
    typeOf b = h.msgType ∧ ∃ pad extra, bytes = paddedBytes pad b ++ extra := by
  obtain ⟨⟨_, extra⟩, hread, rfl⟩ := Option.map_eq_some_iff.mp hd
  obtain ⟨htype, pad, hbytes⟩ := readBody_eq_some hread
  exact ⟨htype, pad, extra, hbytes⟩

/-- **Which bodies are decoded**: those of a declared type that are not too short. -/
theorem exists_decodeBody (h : MessageHeader) (bytes : List Byte) :
    (∃ b, decodeBody h bytes = some b) ↔ ∃ n ∈ h.msgType.bodySize, n ≤ bytes.length := by
  cases hsize : h.msgType.bodySize with
  | none =>
    refine iff_of_false (fun ⟨b, hb⟩ => ?_) fun ⟨n, hn, _⟩ => nomatch hn
    rw [← (decodeBody_eq_some hb).1, bodySize_typeOf b 0] at hsize
    cases hsize
  | some n =>
    have htakes := takes_readBody hsize bytes
    change (∃ b, (readBody h.msgType bytes).map Prod.fst = some b) ↔ _
    simp only [Option.mem_some_iff, exists_eq_left']
    split_ifs at htakes with hn
    · obtain ⟨b, hb⟩ := htakes
      rw [hb]
      exact iff_of_true ⟨b, rfl⟩ hn
    · rw [htakes]
      exact iff_of_false (fun ⟨_, hb⟩ => nomatch hb) hn

/-- What a read of a header takes. -/
theorem decodeHeader_eq_some {hd : MessageHeader} (h : decodeHeader bytes = some (hd, rest)) :
    bytes = headerBytes hd ++ rest := by
  obtain ⟨v, _, h1, h⟩ := bind_read_eq_some h
  obtain ⟨t, _, h2, h⟩ := bind_read_eq_some h
  obtain ⟨len, _, h3, h⟩ := bind_read_eq_some h
  obtain ⟨seq, _, h4, hr⟩ := bind_read_eq_some h
  obtain ⟨rfl, rfl⟩ := Prod.mk.inj (Option.some.inj hr)
  rw [readU8_eq_some h1, readU8_eq_some h2, readU16_eq_some h3, readU32_eq_some h4]
  simp [headerBytes, MsgType.toByte_ofByte]

end Ordbk
