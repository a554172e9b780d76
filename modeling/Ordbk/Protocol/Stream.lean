import Ordbk.Protocol.Session
import Ordbk.Lib.Cutter

/-!
# Protocol/Stream — what a framer makes of a stream

A reader feeds each piece that arrives to its `Framer` and calls `next` until there is nothing:
`receive`.  What `next` does depends only on the bytes buffered, and it does not change its mind
about them: a framer is a `Cutter`, so what it delivers depends only on the bytes received
(`cuts_receive`).
-/

namespace Ordbk

namespace Framer

variable {f f' : Framer} {ms : List DecodedMessage} {stream rest : List Byte}

/-- The loop `while (auto msg = next())`. -/
def drainLoop : ℕ → Framer → Framer × List DecodedMessage
  | 0, f => (f, [])
  | fuel + 1, f =>
    match f.next with
    | (f, none) => (f, [])
    | (f, some msg) => ((drainLoop fuel f).1, msg :: (drainLoop fuel f).2)

/-- Every message takes a header's worth of bytes, so there are fewer passes than bytes
(`cuts_drain`). -/
def drain (f : Framer) : Framer × List DecodedMessage := drainLoop (f.buf.length + 1) f

/-- Each piece is fed, and the framer drained after it. -/
def receive : Framer → List (List Byte) → Framer × List DecodedMessage
  | f, [] => (f, [])
  | f, data :: pieces =>
    (((f.feed data).drain.1.receive pieces).1,
      (f.feed data).drain.2 ++ ((f.feed data).drain.1.receive pieces).2)

/-- The messages of a stream. -/
def messages (stream : List Byte) : List DecodedMessage := (feed {} stream).drain.2

/-! ## The framer is a cutter

Whether there is a message at the front of the buffer, and how long it is, is decided by the front;
what comes behind does not matter. -/

/-- The bytes a message came in. -/
def frameSize (msg : DecodedMessage) : ℕ := kHeaderSize + msg.header.bodyLength.toNat

/-- The header at the front of the buffer. -/
def header (buf : List Byte) : Option MessageHeader := decodeHeader.run' (buf.take kHeaderSize)

/-- What is made of a buffer whose header is read. -/
def lookBody (buf : List Byte) (header : MessageHeader) : Verdict DecodedMessage FramerError :=
  if header.protocolVersion ≠ kProtocolVersion then .bad .badVersion
  else if header.bodyLength.toNat > kMaxBodySize then .bad .oversizeBody
  else if buf.length < kHeaderSize + header.bodyLength.toNat then .wait
  else match decodeBody header ((buf.drop kHeaderSize).take header.bodyLength.toNat) with
    | none => .bad .badBody
    | some body => .took ⟨header, body⟩

/-- `next`, of the bytes alone. -/
def look (buf : List Byte) : Verdict DecodedMessage FramerError :=
  if buf.length < kHeaderSize then .wait
  else match header buf with
    | none => .wait
    | some h => lookBody buf h

/-- **`next` is what is made of the buffer.** -/
theorem next_eq (hf : f.error = none) :
    f.next = match look f.buf with
      | .wait => (f, none)
      | .bad err => ({ f with error := some err }, none)
      | .took msg => ({ f with buf := f.buf.drop (frameSize msg) }, some msg) := by
  unfold next look header
  rw [hf, Option.isSome_none, if_neg Bool.false_ne_true]
  split_ifs with hlen
  · rfl
  cases decodeHeader.run' (f.buf.take kHeaderSize) with
  | none => rfl
  | some h =>
    simp only [lookBody]
    split_ifs
    · rfl
    · rfl
    · rfl
    · cases decodeBody h ((f.buf.drop kHeaderSize).take h.bodyLength.toNat) with
      | none => rfl
      | some body => rfl

theorem next_of_bad {buf : List Byte} {err : FramerError} (hl : look buf = .bad err) :
    next ⟨buf, none⟩ = (⟨buf, some err⟩, none) := by
  have hnext := next_eq (f := ⟨buf, none⟩) rfl
  simp only [hl] at hnext
  exact hnext

theorem header_append {buf : List Byte} (h : kHeaderSize ≤ buf.length) (ys : List Byte) :
    header (buf ++ ys) = header buf := by
  unfold header
  rw [List.take_append_of_le_length h]

/-- A header's worth of bytes is a header. -/
theorem exists_header {buf : List Byte} (h : kHeaderSize ≤ buf.length) :
    ∃ hd, header buf = some hd := by
  have hlen : (buf.take kHeaderSize).length = 8 := List.length_take_of_le h
  unfold header
  generalize buf.take kHeaderSize = bytes at hlen
  match bytes, hlen with
  | [_, _, _, _, _, _, _, _], _ => exact ⟨_, rfl⟩

theorem lookBody_append {buf : List Byte} {h : MessageHeader} (hne : lookBody buf h ≠ .wait)
    (ys : List Byte) : lookBody (buf ++ ys) h = lookBody buf h := by
  unfold lookBody at hne ⊢
  split_ifs at hne ⊢ with _ _ hlong hlen
  · rfl
  · rfl
  · rfl
  · rw [List.length_append] at hlong
    omega
  · exact absurd rfl hne
  · rw [List.drop_append_of_le_length (by omega), List.take_append_of_le_length ?_]
    rw [List.length_drop]
    omega

/-- A message is taken out of the bytes of its frame. -/
theorem lookBody_took {buf : List Byte} {h : MessageHeader} {msg : DecodedMessage}
    (hl : lookBody buf h = .took msg) :
    msg.header = h ∧ frameSize msg ≤ buf.length
      ∧ decodeBody h ((buf.drop kHeaderSize).take h.bodyLength.toNat) = some msg.body
      ∧ h.protocolVersion = kProtocolVersion ∧ h.bodyLength.toNat ≤ kMaxBodySize := by
  unfold lookBody at hl
  split_ifs at hl with hv hsize hlen
  cases hd : decodeBody h ((buf.drop kHeaderSize).take h.bodyLength.toNat) with
  | none => simp [hd] at hl
  | some body =>
    obtain rfl : ⟨h, body⟩ = msg := by simpa [hd] using hl
    exact ⟨rfl, Nat.le_of_not_lt hlen, rfl, not_not.mp hv, Nat.le_of_not_lt hsize⟩

theorem look_eq {buf : List Byte} {h : MessageHeader} (hlen : kHeaderSize ≤ buf.length)
    (hh : header buf = some h) : look buf = lookBody buf h := by
  unfold look
  rw [if_neg (Nat.not_lt_of_le hlen), hh]

/-- With less than a header there is nothing to look at. -/
theorem look_of_lt {buf : List Byte} (hlen : buf.length < kHeaderSize) : look buf = .wait := by
  unfold look
  rw [if_pos hlen]

theorem look_took {buf : List Byte} {msg : DecodedMessage} (hl : look buf = .took msg) :
    ∃ h, kHeaderSize ≤ buf.length ∧ header buf = some h ∧ lookBody buf h = .took msg := by
  have hlen : kHeaderSize ≤ buf.length := by
    by_contra hlt
    simp [look_of_lt (Nat.lt_of_not_le hlt)] at hl
  obtain ⟨h, hh⟩ := exists_header hlen
  exact ⟨h, hlen, hh, by rwa [look_eq hlen hh] at hl⟩

/-- **The framer as a cutter of byte streams.** -/
def cutter : Cutter Byte DecodedMessage FramerError where
  look := look
  size := frameSize
  size_pos m := Nat.lt_of_lt_of_le (by decide) (Nat.le_add_right kHeaderSize _)
  size_le {buf msg} hl := by
    obtain ⟨h, hlen, hh, hl⟩ := look_took hl
    exact (lookBody_took hl).2.1
  stable {buf} ys hne := by
    have hlen : kHeaderSize ≤ buf.length := by
      by_contra hlt
      exact hne (look_of_lt (Nat.lt_of_not_le hlt))
    obtain ⟨h, hh⟩ := exists_header hlen
    rw [look_eq hlen hh] at hne ⊢
    rw [look_eq (hlen.trans (by simp)) ((header_append hlen ys).trans hh), lookBody_append hne]
  suffices_size {buf msg} hl := by
    obtain ⟨h, hlen, hh, hl⟩ := look_took hl
    obtain ⟨rfl, hsize, hbody, hv, hmax⟩ := lookBody_took hl
    have htake : kHeaderSize + msg.header.bodyLength.toNat ≤ (buf.take (frameSize msg)).length :=
      (List.length_take_of_le hsize).ge
    have hle : kHeaderSize ≤ frameSize msg := Nat.le_add_right _ _
    have hh' : header (buf.take (frameSize msg)) = some msg.header := by
      rw [← hh, header, header, List.take_take, Nat.min_eq_left hle]
    rw [look_eq ((Nat.le_add_right _ _).trans htake) hh']
    unfold lookBody
    rw [if_neg (not_not.mpr hv), if_neg (Nat.not_lt_of_le hmax),
      if_neg (Nat.not_lt_of_le htake), List.drop_take, List.take_take]
    have hmin : min msg.header.bodyLength.toNat (frameSize msg - kHeaderSize)
        = msg.header.bodyLength.toNat := by
      simp [frameSize]
    rw [hmin, hbody]

/-- What a framer that waits holds is less than the longest frame. -/
theorem length_of_wait {buf : List Byte} (hl : look buf = .wait) :
    buf.length < kHeaderSize + kMaxBodySize := by
  by_cases hlen : buf.length < kHeaderSize
  · exact Nat.lt_of_lt_of_le hlen (Nat.le_add_right _ _)
  · obtain ⟨h, hh⟩ := exists_header (Nat.le_of_not_lt hlen)
    rw [look_eq (Nat.le_of_not_lt hlen) hh] at hl
    unfold lookBody at hl
    split_ifs at hl with hv hsize hshort
    · omega
    · split at hl <;> simp at hl

/-! ## Draining

`next` is called until it has nothing more to give. Feeding a stream in pieces and draining in
between comes to the same as feeding it whole. -/

/-- **Draining cuts the buffer**; the fuel lasts. -/
theorem cuts_drain (hf : f.error = none) :
    cutter.Cuts f.buf f.drain.2 f.drain.1.buf f.drain.1.error := by
  have hloop : ∀ (fuel : ℕ) (f : Framer), f.error = none → f.buf.length < fuel →
      cutter.Cuts f.buf (drainLoop fuel f).2 (drainLoop fuel f).1.buf
        (drainLoop fuel f).1.error := by
    intro fuel
    induction fuel with
    | zero => exact fun f _ h => absurd h (Nat.not_lt_zero _)
    | succ fuel ih =>
      intro f hf hfuel
      have hnext := next_eq hf
      cases hl : look f.buf with
      | wait =>
        rw [hl] at hnext
        simp only [drainLoop, hnext, hf]
        exact .wait hl
      | bad err =>
        rw [hl] at hnext
        simp only [drainLoop, hnext]
        exact .bad hl
      | took msg =>
        rw [hl] at hnext
        simp only [drainLoop, hnext]
        have hlen := length_next hnext
        simp only [kHeaderSize] at hlen
        have hless : (f.buf.drop (frameSize msg)).length < fuel := by omega
        exact .took hl (ih { f with buf := f.buf.drop (frameSize msg) } hf hless)
  exact hloop _ f hf (Nat.lt_succ_self _)

/-- After an error there are no more messages. -/
theorem drain_of_error (hf : f.error.isSome) : f.drain = (f, []) := by
  simp only [drain, drainLoop, next, hf, if_true]

theorem feed_feed (f : Framer) (x y : List Byte) : (f.feed x).feed y = f.feed (x ++ y) := by
  simp only [feed]
  split_ifs
  · rfl
  · rw [List.append_assoc]

theorem feed_nil (f : Framer) : f.feed [] = f := by
  simp only [feed, List.append_nil, ite_self]

theorem feed_of_error (hf : f.error.isSome) (data : List Byte) : f.feed data = f := if_pos hf

/-- **What a framer has made of a stream**: the messages, and what it holds or why it gave up. -/
def Made (stream : List Byte) (ms : List DecodedMessage) (f : Framer) : Prop :=
  ∃ rest, cutter.Cuts stream ms rest f.error ∧ (f.error = none → rest = f.buf)

theorem made_new : Made [] [] {} := ⟨[], .wait rfl, fun _ => rfl⟩

/-- One more piece. -/
theorem Made.feed (h : Made stream ms f) (data : List Byte) :
    Made (stream ++ data) (ms ++ (f.feed data).drain.2) (f.feed data).drain.1 := by
  obtain ⟨rest, hcuts, hrest⟩ := h
  cases hf : f.error with
  | none =>
    rw [hf] at hcuts
    obtain rfl := hrest hf
    have hfeed : f.feed data = { f with buf := f.buf ++ data } := by
      simp only [Framer.feed, hf, Option.isSome_none, Bool.false_eq_true, if_false]
    have hfed : (f.feed data).error = none := by rw [hfeed, hf]
    refine ⟨_, hcuts.append ?_, fun _ => rfl⟩
    have hdrain := cuts_drain hfed
    rwa [hfeed] at hdrain ⊢
  | some err =>
    have hsome : f.error.isSome := by rw [hf]; rfl
    rw [hf] at hcuts
    rw [feed_of_error hsome, drain_of_error hsome, List.append_nil]
    exact ⟨_, by rw [hf]; exact hcuts.append_refused data, fun h => by simp [hf] at h⟩

/-- **Any number of pieces**: what is made depends on their concatenation. -/
theorem Made.receive (h : Made stream ms f) (pieces : List (List Byte)) :
    Made (stream ++ pieces.flatten) (ms ++ (f.receive pieces).2) (f.receive pieces).1 := by
  induction pieces generalizing stream ms f with
  | nil => simpa [Framer.receive] using h
  | cons data pieces ih =>
    rw [List.flatten_cons, ← List.append_assoc, Framer.receive, ← List.append_assoc]
    exact ih (h.feed data)

/-- **A stream leaves one mark**: the messages, the error, and without an error the framer. -/
theorem Made.unique (h : Made stream ms f) {ms' : List DecodedMessage} (h' : Made stream ms' f') :
    ms = ms' ∧ f.error = f'.error ∧ (f.error = none → f = f') := by
  obtain ⟨rest, hcuts, hrest⟩ := h
  obtain ⟨rest', hcuts', hrest'⟩ := h'
  obtain ⟨rfl, rfl, herr⟩ := hcuts.unique hcuts'
  refine ⟨rfl, herr, fun hf => ?_⟩
  have hbuf : f.buf = f'.buf := (hrest hf).symm.trans (hrest' (herr ▸ hf))
  calc f = ⟨f.buf, f.error⟩ := rfl
    _ = ⟨f'.buf, f'.error⟩ := by rw [hbuf, herr]
    _ = f' := rfl

theorem Made.eq_messages (h : Made stream ms f) : ms = messages stream :=
  (h.unique (made_new.feed stream)).1

theorem made_receive (pieces : List (List Byte)) :
    Made pieces.flatten (receive {} pieces).2 (receive {} pieces).1 := made_new.receive pieces

/-- After an error nothing more is delivered, and nothing changes. -/
theorem receive_of_error (hf : f.error.isSome) (pieces : List (List Byte)) :
    f.receive pieces = (f, []) := by
  induction pieces with
  | nil => rfl
  | cons data pieces ih =>
    rw [receive, feed_of_error hf, drain_of_error hf]
    exact ih

end Framer

end Ordbk
