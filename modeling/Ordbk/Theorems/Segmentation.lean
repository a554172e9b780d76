import Ordbk.Refinement.Link

/-!
# Theorems/Segmentation — where a stream is cut does not matter

TCP delivers a stream in pieces of its own choosing.  The messages, the error and what stays
buffered depend on the stream alone, and with them all that `pump` does.
-/

namespace Ordbk

open Framer (messages frameSize)

/-- **Two connections nobody can tell apart** but by the bytes a framer that gave up still holds. -/
structure Link.Alike (l l' : Link) : Prop where
  /-- The engine and the pool are the same, -/
  dispatcher : l.dispatcher = l'.dispatcher
  /-- the session is in the same state, -/
  state : l.session.state = l'.session.state
  /-- for the same client, -/
  clientId : l.session.clientId = l'.session.clientId
  /-- with as many frames behind it. -/
  outSeq : l.session.outSeq = l'.session.outSeq
  /-- The same was said, -/
  sent : l.session.sent = l'.session.sent
  /-- the same error was met, if any, -/
  error : l.session.framer.error = l'.session.framer.error
  /-- and the same bytes are to go out. -/
  outbound : l.outbound = l'.outbound

/-- Connections that have heard the same and have nothing unheard. -/
theorem Link.Follows.alike {d : Dispatcher} {s : Session} {heard : List Byte} {l l' : Link}
    {f f' : Framer} (h : Follows d s heard [] l f) (h' : Follows d s heard [] l' f') :
    l.Alike l' := by
  have hs : l.session.rebase {} l.taken = l'.session.rebase {} l'.taken :=
    h.session.trans h'.session.symm
  have herr : f.error = f'.error := (h.made.unique h'.made).2.1
  refine ⟨h.dispatcher.trans h'.dispatcher.symm, congrArg (·.state) hs, congrArg (·.clientId) hs,
    congrArg (·.outSeq) hs, congrArg (·.sent) hs, ?_, congrArg (·.outbound) hs⟩
  rw [h.framer, h'.framer, Framer.feed_nil, Framer.feed_nil, herr]

/-- **Segmentation is invisible.**  However a stream is cut, the framer delivers the same messages
and ends with the same error; past a malformed frame it delivers nothing; without an error it holds
just the bytes after its messages, less than a longest frame.  A session pumped after every piece
ends up the same, with the same books and the same bytes out. -/
theorem receive_flatten {pieces pieces' : List (List Byte)}
    (h : pieces.flatten = pieces'.flatten) :
    (Framer.receive {} pieces).2 = (Framer.receive {} pieces').2
      ∧ (Framer.receive {} pieces).1.error = (Framer.receive {} pieces').1.error
      ∧ (∀ err, (Framer.receive {} pieces).1.error = some err →
          (Framer.next ⟨pieces.flatten.drop
              (((Framer.receive {} pieces).2.map frameSize).sum), none⟩).1.error = some err
            ∧ ∀ more, (Framer.receive {} pieces).1.receive more
              = ((Framer.receive {} pieces).1, []))
      ∧ ((Framer.receive {} pieces).1.error = none →
          (Framer.receive {} pieces).1.buf
              = pieces.flatten.drop (((Framer.receive {} pieces).2.map frameSize).sum)
            ∧ ((Framer.receive {} pieces).2.map frameSize).sum ≤ pieces.flatten.length
            ∧ (Framer.receive {} pieces).1.buf.length < kHeaderSize + kMaxBodySize)
      ∧ ∀ (d : Dispatcher) (s : Session), s.framer = {} →
          (Link.run ⟨d, s, []⟩ (Link.turns pieces)).Alike
            (Link.run ⟨d, s, []⟩ (Link.turns pieces')) := by
  have hmade := Framer.made_receive pieces
  have hmade' := Framer.made_receive pieces'
  rw [← h] at hmade'
  obtain ⟨hms, herr, -⟩ := hmade.unique hmade'
  obtain ⟨rest, hcuts, hrest⟩ := hmade
  refine ⟨hms, herr, fun err he => ⟨?_, ?_⟩, fun he => ⟨?_, hcuts.total_le, ?_⟩, ?_⟩
  · rw [he] at hcuts
    have hbad := hcuts.look_refused
    rw [hcuts.rest_eq] at hbad
    exact congrArg (·.1.error) (Framer.next_of_bad hbad)
  · exact Framer.receive_of_error (by rw [he]; rfl)
  · rw [← hrest he]
    exact hcuts.rest_eq
  · rw [he] at hcuts
    rw [← hrest he]
    exact Framer.length_of_wait hcuts.look_rest
  · intro d s hs
    obtain ⟨f, hf⟩ := Link.follows_run (d := d) hs (Link.turns pieces)
    obtain ⟨f', hf'⟩ := Link.follows_run (d := d) hs (Link.turns pieces')
    rw [Link.hear_turns, List.nil_append] at hf hf'
    rw [← h] at hf'
    exact hf.alike hf'

/-- A heartbeat, and a frame of another version: byte by byte, or all at once. -/
theorem receive_flatten_heartbeat :
    let bytes : List Byte := [1, 3, 0, 0, 1, 0, 0, 0, 9, 3, 0, 0, 2, 0, 0, 0, 1]
    (bytes.map ([·])).flatten = [bytes].flatten
      ∧ (Framer.receive {} (bytes.map ([·]))).2 = (Framer.receive {} [bytes]).2
      ∧ (Framer.receive {} [bytes]).2.map (·.body) = [.heartbeat]
      ∧ (Framer.receive {} (bytes.map ([·]))).1.error = some .badVersion := by
  intro bytes
  have hcut : (bytes.map ([·])).flatten = [bytes].flatten := by decide
  refine ⟨hcut, (receive_flatten hcut).1, by decide +kernel, by decide +kernel⟩

end Ordbk
