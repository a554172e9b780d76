import Ordbk.Protocol.Parsing

/-!
# Theorems/Documented — which frames are taken, and which of them are canonical

The documented size of a body is checked from below only, and the padding of a new order is not
checked at all: `frames_taken` says exactly which frames a framer takes, and that a frame it takes
is the encoding of the message it yields if and only if it has the documented form.
-/

namespace Ordbk

/-- **The documented form**: the body has the size of its type, and a new order is padded with 0. -/
def MessageHeader.Documented (h : MessageHeader) (frame : List Byte) : Prop :=
  h.msgType.bodySize = some h.bodyLength.toNat ∧ (h.msgType = .newOrder → frame[23]? = some 0)

instance (h : MessageHeader) (frame : List Byte) : Decidable (h.Documented frame) :=
  inferInstanceAs (Decidable (_ ∧ (_ → _)))

/-- A header whose frame is taken once it is there. -/
def MessageHeader.Taken (h : MessageHeader) : Prop :=
  h.protocolVersion = kProtocolVersion ∧ h.bodyLength.toNat ≤ kMaxBodySize
    ∧ ∃ n ∈ h.msgType.bodySize, n ≤ h.bodyLength.toNat

namespace Framer

variable {f f' : Framer} {msg : DecodedMessage} {buf : List Byte} {h : MessageHeader}

theorem header_eq_some (hh : header buf = some h) : buf.take kHeaderSize = headerBytes h := by
  obtain ⟨⟨_, rest⟩, hread, rfl⟩ := Option.map_eq_some_iff.mp hh
  have hbytes := decodeHeader_eq_some hread
  have hlen : (buf.take kHeaderSize).length ≤ kHeaderSize := List.length_take_le ..
  have hrest : rest = [] := by
    rw [hbytes, List.length_append, length_headerBytes] at hlen
    exact List.eq_nil_of_length_eq_zero (by omega)
  rw [hbytes, hrest, List.append_nil]

/-- Only a new order is padded. -/
theorem paddedBytes_eq {pad : Byte} {b : MessageBody} :
    paddedBytes pad b = bodyBytes b ↔ (typeOf b = .newOrder → pad = 0) := by
  cases b with
  | newOrder m => simp [paddedBytes, bodyBytes, typeOf]
  | _ => exact iff_of_true rfl fun ht => by cases ht

theorem getElem_pad {pad : Byte} {b : MessageBody} {extra : List Byte} (ht : typeOf b = .newOrder) :
    (headerBytes h ++ (paddedBytes pad b ++ extra))[23]? = some pad := by
  cases b with
  | newOrder m =>
    rw [List.getElem?_append_right (by simp [kHeaderSize]), length_headerBytes]
    simp [paddedBytes, kHeaderSize, List.getElem?_append_right]
  | _ => cases ht

theorem headerBytes_headerOf {b : MessageBody} (hv : h.protocolVersion = kProtocolVersion)
    (ht : typeOf b = h.msgType) (hlen : (bodyBytes b).length = h.bodyLength.toNat) :
    headerOf h.sequence b = h := by
  obtain ⟨version, type, bodyLength, sequence⟩ := h
  obtain rfl := hv
  obtain rfl := ht
  unfold headerOf
  rw [hlen, UInt16.ofNat_toNat]

/-- **A frame is the encoding of its message** exactly if it has the documented form. -/
theorem encode_eq_iff {pad : Byte} {b : MessageBody} {extra : List Byte}
    (hv : h.protocolVersion = kProtocolVersion) (ht : typeOf b = h.msgType)
    (hlen : (paddedBytes pad b ++ extra).length = h.bodyLength.toNat) :
    encode h.sequence b = headerBytes h ++ (paddedBytes pad b ++ extra)
      ↔ h.Documented (headerBytes h ++ (paddedBytes pad b ++ extra)) := by
  have hsize : (paddedBytes pad b).length = (bodyBytes b).length := by
    have h0 := bodySize_typeOf b 0
    rw [paddedBytes_eq.mpr fun _ => rfl] at h0
    exact Option.some.inj ((bodySize_typeOf b pad).symm.trans h0)
  rw [List.length_append] at hlen
  have hextra : extra = [] ↔ h.msgType.bodySize = some h.bodyLength.toNat := by
    rw [← ht, bodySize_typeOf b pad, Option.some_inj, ← hlen, Nat.left_eq_add,
      List.length_eq_zero_iff]
  have hpad : (typeOf b = .newOrder → pad = 0) ↔ (h.msgType = .newOrder →
      (headerBytes h ++ (paddedBytes pad b ++ extra))[23]? = some 0) := by
    rw [ht]
    refine imp_congr_right fun htype => ?_
    rw [getElem_pad (ht.trans htype), Option.some_inj]
  rw [encode_eq, MessageHeader.Documented, ← hextra, ← hpad, ← paddedBytes_eq]
  constructor
  · intro heq
    obtain ⟨-, hbody⟩ := List.append_inj heq (by simp)
    obtain ⟨hbody, hnil⟩ := List.append_inj ((List.append_nil _).trans hbody) hsize.symm
    exact ⟨hnil.symm, hbody.symm⟩
  · rintro ⟨rfl, hbody⟩
    rw [List.length_nil, hsize] at hlen
    rw [hbody, List.append_nil, headerBytes_headerOf hv ht hlen]

/-- What the bytes of a message are. -/
theorem took_spec (hl : look buf = .took msg) :
    frameSize msg ≤ buf.length
      ∧ (∃ pad extra, typeOf msg.body = msg.header.msgType
        ∧ buf.take (frameSize msg) = headerBytes msg.header ++ (paddedBytes pad msg.body ++ extra))
      ∧ (encode msg.header.sequence msg.body = buf.take (frameSize msg)
        ↔ msg.header.Documented (buf.take (frameSize msg))) := by
  obtain ⟨h, hlen, hh, hl⟩ := look_took hl
  obtain ⟨rfl, hsize, hbody, hv, -⟩ := lookBody_took hl
  obtain ⟨htype, pad, extra, hbytes⟩ := decodeBody_eq_some hbody
  have hframe : buf.take (frameSize msg)
      = headerBytes msg.header ++ (paddedBytes pad msg.body ++ extra) := by
    rw [frameSize, List.take_add, header_eq_some hh, hbytes]
  refine ⟨hsize, ⟨pad, extra, htype, hframe⟩, ?_⟩
  rw [hframe]
  refine encode_eq_iff hv htype ?_
  rw [← hbytes, List.length_take_of_le]
  rw [List.length_drop]
  exact Nat.le_sub_of_add_le' hsize

/-- A frame that is there is taken, or refused for good. -/
theorem look_complete (hh : header buf = some h)
    (hlen : kHeaderSize + h.bodyLength.toNat ≤ buf.length) :
    (h.Taken ∧ ∃ body, look buf = .took ⟨h, body⟩) ∨ (¬ h.Taken ∧ ∃ err, look buf = .bad err) := by
  have hbody : ((buf.drop kHeaderSize).take h.bodyLength.toNat).length = h.bodyLength.toNat := by
    rw [List.length_take_of_le]
    rw [List.length_drop]
    exact Nat.le_sub_of_add_le' hlen
  have hdecode := exists_decodeBody h ((buf.drop kHeaderSize).take h.bodyLength.toNat)
  rw [hbody] at hdecode
  rw [look_eq ((Nat.le_add_right _ _).trans hlen) hh]
  unfold lookBody MessageHeader.Taken
  split_ifs with hv hsize hshort
  · exact .inr ⟨fun ht => hv ht.1, _, rfl⟩
  · exact .inr ⟨fun ht => absurd ht.2.1 (Nat.not_le_of_lt hsize), _, rfl⟩
  · omega
  cases hd : decodeBody h ((buf.drop kHeaderSize).take h.bodyLength.toNat) with
  | none =>
    refine .inr ⟨fun ht => ?_, _, rfl⟩
    obtain ⟨b, hb⟩ := hdecode.mpr ht.2.2
    rw [hd] at hb
    cases hb
  | some body =>
    exact .inl ⟨⟨not_not.mp hv, Nat.le_of_not_lt hsize, hdecode.mp ⟨body, hd⟩⟩, body, rfl⟩

/-- **Which frames are taken, and as what.**  A framer takes a frame whose header is in order and
whose body is not too short for its type, and refuses any other; what it takes is the header, the
fields of the message, and bytes that are not looked at.  The message is encoded back to its frame
if and only if the frame has the documented form. -/
theorem frames_taken (f : Framer) :
    (∀ f' msg, f.next = (f', some msg) →
      f'.buf = f.buf.drop (frameSize msg) ∧ frameSize msg ≤ f.buf.length
        ∧ (∃ pad extra, typeOf msg.body = msg.header.msgType ∧ f.buf.take (frameSize msg)
            = headerBytes msg.header ++ (paddedBytes pad msg.body ++ extra))
        ∧ (encode msg.header.sequence msg.body = f.buf.take (frameSize msg)
          ↔ msg.header.Documented (f.buf.take (frameSize msg))))
    ∧ ∀ h, f.error = none → header f.buf = some h →
        kHeaderSize + h.bodyLength.toNat ≤ f.buf.length →
        (h.Taken ∧ ∃ f' body, f.next = (f', some ⟨h, body⟩))
          ∨ (¬ h.Taken ∧ ∃ err, f.next = ({ f with error := some err }, none)) := by
  refine ⟨fun f' msg hnext => ?_, fun h hf hh hlen => ?_⟩
  · have hf : f.error = none := by
      by_contra hne
      rw [next, if_pos (Option.isSome_iff_ne_none.mpr hne)] at hnext
      cases hnext
    rw [next_eq hf] at hnext
    cases hl : look f.buf with
    | wait => simp [hl] at hnext
    | bad err => simp [hl] at hnext
    | took msg' =>
      obtain ⟨rfl, rfl⟩ : _ = f' ∧ msg' = msg := by simpa [hl] using hnext
      exact ⟨rfl, took_spec hl⟩
  · rw [next_eq hf]
    rcases look_complete hh hlen with ⟨ht, body, hl⟩ | ⟨ht, err, hl⟩
    · exact .inl ⟨ht, _, body, by rw [hl]⟩
    · exact .inr ⟨ht, err, by rw [hl]⟩

/-- A frame of the documented form is the encoding of its message. -/
theorem frames_taken_of_logon :
    ∃ f' msg, next ⟨[1, 1, 4, 0, 9, 0, 0, 0, 7, 0, 0, 0], none⟩ = (f', some msg)
      ∧ msg.header.Documented [1, 1, 4, 0, 9, 0, 0, 0, 7, 0, 0, 0]
      ∧ encode msg.header.sequence msg.body = [1, 1, 4, 0, 9, 0, 0, 0, 7, 0, 0, 0] := by
  have hnext : next ⟨[1, 1, 4, 0, 9, 0, 0, 0, 7, 0, 0, 0], none⟩
      = (⟨[], none⟩, some ⟨⟨1, .logon, 4, 9⟩, .logon ⟨7⟩⟩) := by decide +kernel
  have hdoc : (MessageHeader.mk 1 .logon 4 9).Documented [1, 1, 4, 0, 9, 0, 0, 0, 7, 0, 0, 0] := by
    decide
  exact ⟨_, _, hnext, hdoc, ((frames_taken _).1 _ _ hnext).2.2.2.mpr hdoc⟩

/-- **A log-on of five bytes and a new order padded with 1 are taken**, and encoded otherwise. -/
theorem not_canonical_of_trailing :
    (∃ f' msg, next ⟨[1, 1, 5, 0, 9, 0, 0, 0, 7, 0, 0, 0, 255], none⟩ = (f', some msg)
      ∧ f'.buf = []
      ∧ encode msg.header.sequence msg.body ≠ [1, 1, 5, 0, 9, 0, 0, 0, 7, 0, 0, 0, 255])
    ∧ ∃ f' msg, next ⟨[1, 16, 32, 0, 9, 0, 0, 0, 5, 0, 0, 0, 0, 0, 0, 0, 1, 0, 0, 0, 0, 0, 0, 1,
          100, 0, 0, 0, 0, 0, 0, 0, 4, 0, 0, 0, 0, 0, 0, 0], none⟩ = (f', some msg)
      ∧ f'.buf = []
      ∧ encode msg.header.sequence msg.body ≠ [1, 16, 32, 0, 9, 0, 0, 0, 5, 0, 0, 0, 0, 0, 0, 0,
          1, 0, 0, 0, 0, 0, 0, 1, 100, 0, 0, 0, 0, 0, 0, 0, 4, 0, 0, 0, 0, 0, 0, 0] := by
  refine ⟨⟨⟨[], none⟩, ⟨⟨1, .logon, 5, 9⟩, .logon ⟨7⟩⟩, by decide +kernel, rfl, by decide +kernel⟩,
    ⟨⟨[], none⟩, ⟨⟨1, .newOrder, 32, 9⟩, .newOrder ⟨5, 1, 0, 0, 0, 100, 4⟩⟩, by decide +kernel, rfl,
      by decide +kernel⟩⟩

end Framer

end Ordbk
