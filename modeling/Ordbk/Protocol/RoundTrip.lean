import Ordbk.Protocol.Stream

/-!
# Protocol/RoundTrip — what is written is what is read

Reading undoes writing: for the words, one byte at a time (`or_byte`), for the header, for each of
the bodies, and so for a frame (`look_encode`).
-/

namespace Ordbk

/-! ## Words

The loops of the readers put a word together byte by byte, the low one first. After `i` bytes they
have it up to the bits above. -/

/-- **One more byte** of a `w`-bit number that is known up to byte `i`. -/
theorem or_byte {n w : ℕ} (hn : n < 2 ^ w) (i : ℕ) :
    n % 2 ^ (8 * i) ||| (n / 2 ^ (8 * i) % 256) <<< (8 * i) % 2 ^ w = n % 2 ^ (8 * (i + 1)) := by
  have hlt : n % 2 ^ (8 * i) < 2 ^ (8 * i) := Nat.mod_lt _ (Nat.two_pow_pos _)
  have hor : n % 2 ^ (8 * i) ||| (n / 2 ^ (8 * i) % 256) <<< (8 * i) = n % 2 ^ (8 * (i + 1)) := by
    rw [Nat.shiftLeft_eq, Nat.mul_comm (_ % 256), Nat.or_comm, ← Nat.two_pow_add_eq_or_of_lt hlt,
      Nat.mul_add, Nat.pow_add, Nat.mod_mul, Nat.add_comm]
  -- the byte stays within the number, so nothing is shifted out
  have hle : (n / 2 ^ (8 * i) % 256) <<< (8 * i) ≤ n % 2 ^ (8 * (i + 1)) := by
    rw [← hor]
    exact Nat.right_le_or
  rw [Nat.mod_eq_of_lt (hle.trans_lt ((Nat.mod_le _ _).trans_lt hn)), hor]

/-- Byte `i` of a word. -/
def byte32 (v : UInt32) (i : ℕ) : Byte := ((v >>> (8 * UInt32.ofNat i)) &&& 0xFF).toUInt8

theorem toNat_shift32 {i : ℕ} (hi : i < 4) : (8 * UInt32.ofNat i).toNat % 32 = 8 * i := by
  rw [UInt32.toNat_mul, UInt32.toNat_ofNat']
  change 8 * (i % 2 ^ 32) % 2 ^ 32 % 32 = 8 * i
  omega

theorem toNat_byte32 (v : UInt32) {i : ℕ} (hi : i < 4) :
    (byte32 v i).toNat = v.toNat / 2 ^ (8 * i) % 256 := by
  unfold byte32
  rw [UInt32.toNat_toUInt8, UInt32.toNat_and, UInt32.toNat_shiftRight, toNat_shift32 hi,
    Nat.shiftRight_eq_div_pow]
  change (v.toNat / 2 ^ (8 * i) &&& (2 ^ 8 - 1)) % 2 ^ 8 = _
  rw [Nat.and_two_pow_sub_one_eq_mod, Nat.mod_mod]

/-- **The loop of `read_u32` puts a word back together.** -/
theorem orBytes32_bytes (v : UInt32) : orBytes32 0 0 ((List.range 4).map (byte32 v)) = v := by
  have hloop : ∀ (n i : ℕ) (acc : UInt32), i + n = 4 → acc.toNat = v.toNat % 2 ^ (8 * i) →
      orBytes32 i acc ((List.range' i n).map (byte32 v)) = v := by
    intro n
    induction n with
    | zero =>
      intro i acc hi h
      obtain rfl : i = 4 := hi
      rw [Nat.mod_eq_of_lt v.toNat_lt] at h
      exact UInt32.toNat_inj.mp h
    | succ n ih =>
      intro i acc hi h
      refine ih (i + 1) _ (by omega) ?_
      rw [UInt32.toNat_or, UInt32.toNat_shiftLeft, toNat_shift32 (by omega), UInt8.toNat_toUInt32,
        toNat_byte32 v (by omega), h, or_byte v.toNat_lt]
  rw [List.range_eq_range']
  exact hloop 4 0 0 rfl (Nat.mod_one _).symm

/-- Byte `i` of a word. -/
def byte64 (v : UInt64) (i : ℕ) : Byte := ((v >>> (8 * UInt64.ofNat i)) &&& 0xFF).toUInt8

theorem toNat_shift64 {i : ℕ} (hi : i < 8) : (8 * UInt64.ofNat i).toNat % 64 = 8 * i := by
  rw [UInt64.toNat_mul, UInt64.toNat_ofNat']
  change 8 * (i % 2 ^ 64) % 2 ^ 64 % 64 = 8 * i
  omega

theorem toNat_byte64 (v : UInt64) {i : ℕ} (hi : i < 8) :
    (byte64 v i).toNat = v.toNat / 2 ^ (8 * i) % 256 := by
  unfold byte64
  rw [UInt64.toNat_toUInt8, UInt64.toNat_and, UInt64.toNat_shiftRight, toNat_shift64 hi,
    Nat.shiftRight_eq_div_pow]
  change (v.toNat / 2 ^ (8 * i) &&& (2 ^ 8 - 1)) % 2 ^ 8 = _
  rw [Nat.and_two_pow_sub_one_eq_mod, Nat.mod_mod]

/-- **The loop of `read_u64` puts a word back together.** -/
theorem orBytes64_bytes (v : UInt64) : orBytes64 0 0 ((List.range 8).map (byte64 v)) = v := by
  have hloop : ∀ (n i : ℕ) (acc : UInt64), i + n = 8 → acc.toNat = v.toNat % 2 ^ (8 * i) →
      orBytes64 i acc ((List.range' i n).map (byte64 v)) = v := by
    intro n
    induction n with
    | zero =>
      intro i acc hi h
      obtain rfl : i = 8 := hi
      rw [Nat.mod_eq_of_lt v.toNat_lt] at h
      exact UInt64.toNat_inj.mp h
    | succ n ih =>
      intro i acc hi h
      refine ih (i + 1) _ (by omega) ?_
      rw [UInt64.toNat_or, UInt64.toNat_shiftLeft, toNat_shift64 (by omega), UInt8.toNat_toUInt64,
        toNat_byte64 v (by omega), h, or_byte v.toNat_lt]
  rw [List.range_eq_range']
  exact hloop 8 0 0 rfl (Nat.mod_one _).symm

/-- The bytes of a word, least significant first. -/
def bytes16 (v : UInt16) : List Byte := [(v &&& 0xFF).toUInt8, ((v >>> 8) &&& 0xFF).toUInt8]

def bytes32 (v : UInt32) : List Byte := (List.range 4).map (byte32 v)

def bytes64 (v : UInt64) : List Byte := (List.range 8).map (byte64 v)

@[simp] theorem length_bytes16 (v : UInt16) : (bytes16 v).length = 2 := rfl

@[simp] theorem length_bytes32 (v : UInt32) : (bytes32 v).length = 4 := by simp [bytes32]

@[simp] theorem length_bytes64 (v : UInt64) : (bytes64 v).length = 8 := by simp [bytes64]

variable (rest : List Byte)

theorem bind_read {α β : Type} (x : Reader α) (f : α → Reader β) :
    (x >>= f) rest = (x rest).bind fun r => f r.1 r.2 := rfl

theorem map_read {α β : Type} (x : Reader α) (f : α → β) :
    (f <$> x) rest = (x rest).bind fun r => some (f r.1, r.2) := rfl

theorem pure_read {α : Type} (a : α) : (pure a : Reader α) rest = some (a, rest) := rfl

@[simp] theorem readU8_cons (v : UInt8) : readU8 (v :: rest) = some (v, rest) := rfl

theorem toNat_low16 (v : UInt16) : (v &&& 0xFF).toUInt8.toNat = v.toNat % 256 := by
  rw [UInt16.toNat_toUInt8, UInt16.toNat_and]
  change (v.toNat &&& (2 ^ 8 - 1)) % 2 ^ 8 = _
  rw [Nat.and_two_pow_sub_one_eq_mod, Nat.mod_mod]

theorem toNat_high16 (v : UInt16) : ((v >>> 8) &&& 0xFF).toUInt8.toNat = v.toNat / 256 % 256 := by
  rw [UInt16.toNat_toUInt8, UInt16.toNat_and, UInt16.toNat_shiftRight]
  change (v.toNat >>> 8 &&& (2 ^ 8 - 1)) % 2 ^ 8 = _
  rw [Nat.and_two_pow_sub_one_eq_mod, Nat.mod_mod, Nat.shiftRight_eq_div_pow]

@[simp] theorem readU16_bytes (v : UInt16) : readU16 (bytes16 v ++ rest) = some (v, rest) := by
  have hv : (v &&& 0xFF).toUInt8.toUInt16 ||| (((v >>> 8) &&& 0xFF).toUInt8.toUInt16 <<< 8)
      = v := by
    refine UInt16.toNat_inj.mp ?_
    rw [UInt16.toNat_or, UInt16.toNat_shiftLeft, UInt8.toNat_toUInt16, UInt8.toNat_toUInt16,
      toNat_low16, toNat_high16]
    exact (or_byte v.toNat_lt 1).trans (Nat.mod_eq_of_lt v.toNat_lt)
  change some (_, rest) = _
  rw [hv]

@[simp] theorem readU32_bytes (v : UInt32) : readU32 (bytes32 v ++ rest) = some (v, rest) := by
  unfold readU32
  rw [if_neg (by simp), List.take_left' (length_bytes32 v), List.drop_left' (length_bytes32 v),
    bytes32, orBytes32_bytes]

@[simp] theorem readU64_bytes (v : UInt64) : readU64 (bytes64 v ++ rest) = some (v, rest) := by
  unfold readU64
  rw [if_neg (by simp), List.take_left' (length_bytes64 v), List.drop_left' (length_bytes64 v),
    bytes64, orBytes64_bytes]

@[simp] theorem readI64_bytes (v : Int64) :
    readI64 (bytes64 v.toUInt64 ++ rest) = some (v, rest) := by
  simp [readI64, bind_read, pure_read]

/-! ## Bodies

Each body is written field by field and read field by field; the widths are those of the types, so
nothing is cut off. -/

/-- The bytes of a body. -/
def bodyBytes : MessageBody → List Byte
  | .logon m => bytes32 m.clientId
  | .logout => []
  | .heartbeat => []
  | .newOrder m => bytes64 m.clientOrderId ++ (bytes32 m.instrumentId ++ (m.side :: m.orderType ::
      m.tif :: 0 :: (bytes64 m.price.toUInt64 ++ bytes64 m.quantity)))
  | .cancelOrder m => bytes64 m.clientOrderId ++ bytes32 m.instrumentId
  | .orderAck m => bytes64 m.clientOrderId ++ bytes64 m.serverOrderId
  | .orderReject m => bytes64 m.clientOrderId ++ [m.reason.toByte]
  | .fill m => bytes64 m.clientOrderId ++ (bytes64 m.serverOrderId ++ (bytes64 m.price.toUInt64 ++
      (bytes64 m.quantity ++ [m.postStatus])))
  | .cancelled m => bytes64 m.clientOrderId

/-- A body is at most a fill's 33 bytes. -/
theorem length_bodyBytes (b : MessageBody) : (bodyBytes b).length ≤ 33 := by
  cases b <;> simp [bodyBytes]

section Writing

variable (w : BufferWriter)

theorem writeU8_eq (v : UInt8) : w.writeU8 v = w.write [v] := rfl

theorem writeU16_eq (v : UInt16) : w.writeU16 v = w.write (bytes16 v) := rfl

theorem writeU32_eq (v : UInt32) : w.writeU32 v = w.write (bytes32 v) := rfl

theorem writeU64_eq (v : UInt64) : w.writeU64 v = w.write (bytes64 v) := rfl

theorem writeI64_eq (v : Int64) : w.writeI64 v = w.write (bytes64 v.toUInt64) := rfl

/-- **No body is too long.** -/
theorem encodeBody_eq (b : MessageBody) :
    encodeBody ⟨kMaxBodySize, []⟩ b = some ⟨kMaxBodySize, bodyBytes b⟩ := by
  cases b <;> simp [encodeBody, writeU8_eq, writeU32_eq, writeU64_eq, writeI64_eq,
    BufferWriter.write, BufferWriter.pos, bodyBytes, kMaxBodySize]

end Writing

theorem ofByte_toByte (r : RejectReason) : RejectReason.ofByte r.toByte = r := by
  cases r with
  | other b => exact dif_pos b.2
  | _ => rfl

/-- **Every body is read as it was written.** -/
theorem readBody_bodyBytes (b : MessageBody) :
    readBody (typeOf b) (bodyBytes b ++ rest) = some (b, rest) := by
  cases b <;> simp [typeOf, readBody, bodyBytes, bind_read, map_read, pure_read, ofByte_toByte]

theorem decodeBody_bodyBytes {h : MessageHeader} {b : MessageBody} (ht : h.msgType = typeOf b) :
    decodeBody h (bodyBytes b) = some b := by
  have hread := readBody_bodyBytes [] b
  rw [List.append_nil] at hread
  unfold decodeBody
  rw [ht]
  change (readBody (typeOf b) (bodyBytes b)).map Prod.fst = some b
  rw [hread]
  rfl

/-! ## Frames

A frame is a header and a body, and fits the buffer `encode` provides for it. -/

/-- The header of a body, and the two together. -/
def headerOf (seq : UInt32) (b : MessageBody) : MessageHeader :=
  ⟨kProtocolVersion, typeOf b, UInt16.ofNat (bodyBytes b).length, seq⟩

def wire (seq : UInt32) (b : MessageBody) : DecodedMessage := ⟨headerOf seq b, b⟩

theorem toNat_bodyLength (seq : UInt32) (b : MessageBody) :
    (headerOf seq b).bodyLength.toNat = (bodyBytes b).length := by
  have hle := length_bodyBytes b
  exact UInt16.toNat_ofNat_of_lt' (by change _ < 2 ^ 16; omega)

def headerBytes (h : MessageHeader) : List Byte :=
  h.protocolVersion :: h.msgType.toByte :: (bytes16 h.bodyLength ++ bytes32 h.sequence)

@[simp] theorem length_headerBytes (h : MessageHeader) : (headerBytes h).length = kHeaderSize := by
  simp [headerBytes, kHeaderSize]

theorem encodeHeader_eq (h : MessageHeader) : encodeHeader ⟨kHeaderSize + kMaxBodySize, []⟩ h
    = some ⟨kHeaderSize + kMaxBodySize, headerBytes h⟩ := by
  simp [encodeHeader, writeU8_eq, writeU16_eq, writeU32_eq, BufferWriter.write, BufferWriter.pos,
    headerBytes, kHeaderSize, kMaxBodySize]

/-- **A message fits its buffer**: the header, then the body. -/
theorem encode_eq (seq : UInt32) (b : MessageBody) :
    encode seq b = headerBytes (headerOf seq b) ++ bodyBytes b := by
  have hbody : BufferWriter.pos ⟨kMaxBodySize, bodyBytes b⟩ ≤ kMaxBodySize :=
    (length_bodyBytes b).trans (by decide)
  unfold encode encodeInto
  rw [if_neg (Nat.not_lt_of_le (Nat.le_add_right _ _)), encodeBody_eq]
  dsimp only
  rw [if_neg (Nat.not_lt_of_le (Nat.add_le_add_left hbody kHeaderSize)),
    if_neg (Nat.not_lt_of_le hbody), encodeHeader_eq]
  rfl

theorem length_encode (seq : UInt32) (b : MessageBody) :
    (encode seq b).length = Framer.frameSize (wire seq b) := by
  rw [encode_eq, List.length_append, length_headerBytes, ← toNat_bodyLength seq b]
  rfl

theorem ofByte_typeOf (b : MessageBody) : MsgType.ofByte (typeOf b).toByte = typeOf b := by
  cases b <;> rfl

theorem header_encode (seq : UInt32) (b : MessageBody) :
    Framer.header (encode seq b) = some (headerOf seq b) := by
  have hseq := readU32_bytes [] seq
  rw [List.append_nil] at hseq
  unfold Framer.header
  rw [encode_eq, List.take_left' (length_headerBytes _)]
  change (decodeHeader (headerBytes (headerOf seq b))).map Prod.fst = _
  simp [decodeHeader, headerBytes, headerOf, bind_read, map_read, hseq, ofByte_typeOf]

/-- **A frame is taken for what it is.** -/
theorem look_encode (seq : UInt32) (b : MessageBody) :
    Framer.look (encode seq b) = .took (wire seq b) := by
  have hlen : kHeaderSize ≤ (encode seq b).length := by
    rw [length_encode]
    exact Nat.le_add_right _ _
  have hbody : (bodyBytes b).length ≤ kMaxBodySize := (length_bodyBytes b).trans (by decide)
  rw [Framer.look_eq hlen (header_encode seq b)]
  unfold Framer.lookBody
  have hver : (headerOf seq b).protocolVersion = kProtocolVersion := rfl
  rw [if_neg (not_not.mpr hver), toNat_bodyLength, if_neg (Nat.not_lt_of_le hbody), encode_eq,
    List.drop_left' (length_headerBytes _), List.take_length, decodeBody_bodyBytes rfl,
    if_neg (by simp)]
  rfl

/-- **Frames in a row** are taken one by one, and nothing is left. -/
theorem cuts_frames (l : List (MessageBody × ℕ)) :
    Framer.cutter.Cuts (l.map fun p => encode (UInt32.ofNat p.2) p.1).flatten
      (l.map fun p => wire (UInt32.ofNat p.2) p.1) [] none := by
  induction l with
  | nil => exact .wait rfl
  | cons p l ih =>
    have hdrop : (encode (UInt32.ofNat p.2) p.1).drop
        (Framer.cutter.size (wire (UInt32.ofNat p.2) p.1)) = [] :=
      List.drop_of_length_le (length_encode _ _).le
    refine Cutter.Cuts.took_append (look_encode _ _) ?_
    rw [hdrop]
    exact ih

/-! ## Conversations

What a session emits is numbered and queued, and taken in pieces whenever the socket is written to.
Put together again the pieces are the frames. -/

namespace Session

/-- What is done to the outbound queue. -/
inductive Out
  | emit (body : MessageBody)
  | take
  deriving DecidableEq, Repr

/-- The session, and the bytes taken from it so far. -/
def out (r : Session × List Byte) : Out → Session × List Byte
  | .emit body => (r.1.emit body, r.2)
  | .take => (r.1.takeOutbound.1, r.2 ++ r.1.takeOutbound.2)

/-- The bytes taken from a fresh session that is taken from once more at the end. -/
def taken (id : UInt64) (outs : List Out) : List Byte :=
  ((outs ++ [Out.take]).foldl out ({ sessionId := id }, [])).2

def Out.body : Out → Option MessageBody
  | .emit body => some body
  | .take => none

def emitted (outs : List Out) : List MessageBody := outs.filterMap Out.body

/-- The frames of a conversation, numbered from 1. -/
def frames (bodies : List MessageBody) : List (List Byte) :=
  (bodies.zipIdx 1).map fun p => encode (UInt32.ofNat p.2) p.1

theorem frames_concat (bodies : List MessageBody) (body : MessageBody) :
    frames (bodies ++ [body])
      = frames bodies ++ [encode (UInt32.ofNat bodies.length + 1) body] := by
  have hseq : UInt32.ofNat (1 + bodies.length) = UInt32.ofNat bodies.length + 1 := by
    rw [Nat.add_comm, UInt32.ofNat_add]
    rfl
  simp only [frames, List.zipIdx_append, List.map_append, List.zipIdx_singleton, List.map_cons,
    List.map_nil, hseq]

/-- The bodies so far are numbered, and their bytes taken or queued. -/
structure Queued (bodies : List MessageBody) (r : Session × List Byte) : Prop where
  /-- The counter has counted them, -/
  outSeq : r.1.outSeq = UInt32.ofNat bodies.length
  /-- and what was taken and what is queued are their frames. -/
  bytes : r.2 ++ r.1.outbound = (frames bodies).flatten

theorem Queued.out {bodies : List MessageBody} {r : Session × List Byte} (h : Queued bodies r)
    (o : Out) : Queued (bodies ++ o.body.toList) (Session.out r o) := by
  cases o with
  | emit body =>
    refine ⟨?_, ?_⟩
    · change r.1.outSeq + 1 = UInt32.ofNat (bodies ++ [body]).length
      rw [h.outSeq, List.length_append, UInt32.ofNat_add]
      rfl
    · change r.2 ++ (r.1.outbound ++ encode (r.1.outSeq + 1) body)
        = (frames (bodies ++ [body])).flatten
      rw [frames_concat, List.flatten_append, List.flatten_singleton, ← h.bytes, h.outSeq,
        List.append_assoc]
  | take =>
    refine ⟨?_, ?_⟩
    · change r.1.outSeq = UInt32.ofNat (bodies ++ []).length
      rw [List.append_nil, h.outSeq]
    · change r.2 ++ r.1.outbound ++ [] = (frames (bodies ++ [])).flatten
      rw [List.append_nil, List.append_nil, h.bytes]

theorem Queued.foldl {bodies : List MessageBody} {r : Session × List Byte} (h : Queued bodies r)
    (outs : List Out) : Queued (bodies ++ emitted outs) (outs.foldl Session.out r) := by
  induction outs generalizing bodies r with
  | nil => simpa [emitted] using h
  | cons o outs ih =>
    have hrest := ih (h.out o)
    cases o with
    | emit body => rwa [List.append_assoc] at hrest
    | take => rwa [List.append_assoc] at hrest

/-- **Whenever the queue is taken**, the bytes are those of the bodies emitted. -/
theorem taken_eq (id : UInt64) (outs : List Out) :
    taken id outs = (frames (emitted outs)).flatten := by
  have hnew : Queued [] ({ sessionId := id }, []) := ⟨rfl, rfl⟩
  have hbytes := (hnew.foldl outs).bytes
  unfold taken
  rw [List.foldl_append]
  exact hbytes

end Session

end Ordbk
