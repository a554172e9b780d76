import Ordbk.Protocol.RoundTrip

/-!
# Theorems/Conversation — the wire round trip of a whole conversation

What one end emits, the other end receives: the same bodies in the same order under the headers they
were sent with, however the bytes are taken from the queue and however they arrive.
-/

namespace Ordbk

namespace Session

/-- The messages of a conversation, as they are received. -/
def received (bodies : List MessageBody) : List DecodedMessage :=
  (bodies.zipIdx 1).map fun p => wire (UInt32.ofNat p.2) p.1

theorem map_body_received (bodies : List MessageBody) :
    (received bodies).map (·.body) = bodies := by
  unfold received
  rw [List.map_map]
  exact List.zipIdx_map_fst 1 bodies

theorem map_sequence_received (bodies : List MessageBody) :
    (received bodies).map (·.header.sequence) = (List.range' 1 bodies.length).map UInt32.ofNat := by
  unfold received
  rw [← List.zipIdx_map_snd 1 bodies, List.map_map, List.map_map]
  rfl

/-- The letters a message takes up are those of its frame. -/
theorem map_length_frames (bodies : List MessageBody) :
    (received bodies).map Framer.cutter.size = (frames bodies).map List.length := by
  unfold received frames
  rw [List.map_map, List.map_map]
  exact List.map_congr_left fun p _ => (length_encode _ _).symm

theorem total_received (bodies : List MessageBody) :
    Framer.cutter.total (received bodies) = (frames bodies).flatten.length := by
  unfold Cutter.total
  rw [map_length_frames, List.length_flatten]

theorem total_take_received (bodies : List MessageBody) (j : ℕ) :
    Framer.cutter.total ((received bodies).take j) = ((frames bodies).take j).flatten.length := by
  unfold Cutter.total
  rw [List.map_take, map_length_frames, ← List.map_take, List.length_flatten]

end Session

/-- **The wire round trip.**  The bytes taken from a session, in whatever pieces they arrive, are
received as the bodies emitted, in order, each under the header that belongs to it and numbered from
1; nothing is left over and nothing is refused.  Bytes that stop short give the messages whose last
byte is among them, and no error. -/
theorem receive_taken (id : UInt64) (outs : List Session.Out) :
    ∃ msgs : List DecodedMessage,
      msgs.map (·.body) = Session.emitted outs
      ∧ msgs.map (·.header.sequence)
          = (List.range' 1 (Session.emitted outs).length).map UInt32.ofNat
      ∧ (∀ msg ∈ msgs, msg.header.protocolVersion = kProtocolVersion
          ∧ msg.header.msgType = typeOf msg.body
          ∧ ∃ w, encodeBody ⟨kMaxBodySize, []⟩ msg.body = some w
            ∧ msg.header.bodyLength.toNat = w.pos)
      ∧ (∀ pieces : List (List Byte), pieces.flatten = Session.taken id outs →
          Framer.receive {} pieces = ({}, msgs))
      ∧ ∀ pieces : List (List Byte), pieces.flatten <+: Session.taken id outs →
          pieces.flatten ≠ Session.taken id outs →
          (Framer.receive {} pieces).1.error = none
          ∧ ∃ j, (Framer.receive {} pieces).2 = msgs.take j
            ∧ ((Session.frames (Session.emitted outs)).take j).flatten.length
                ≤ pieces.flatten.length
            ∧ pieces.flatten.length
                < ((Session.frames (Session.emitted outs)).take (j + 1)).flatten.length := by
  have hcuts := cuts_frames ((Session.emitted outs).zipIdx 1)
  rw [Session.taken_eq]
  refine ⟨Session.received (Session.emitted outs), Session.map_body_received _,
    Session.map_sequence_received _, fun msg hmsg => ?_, fun pieces hp => ?_,
    fun pieces hpre hne => ?_⟩
  · obtain ⟨p, -, rfl⟩ := List.mem_map.mp hmsg
    exact ⟨rfl, rfl, _, encodeBody_eq _, toNat_bodyLength _ _⟩
  · obtain ⟨rest, hmade, hrest⟩ := Framer.made_receive pieces
    rw [hp] at hmade
    obtain ⟨hms, rfl, herr⟩ := hmade.unique hcuts
    refine Prod.ext ?_ hms
    change (⟨_, _⟩ : Framer) = ⟨_, _⟩
    rw [← hrest herr, herr]
  · -- a proper prefix is what the first bytes are, and there are fewer of them
    have htake := List.prefix_iff_eq_take.mp hpre
    have hlt : pieces.flatten.length < (Session.frames (Session.emitted outs)).flatten.length :=
      lt_of_le_of_ne hpre.length_le fun h => hne (hpre.eq_of_length h)
    rw [← Session.total_received] at hlt
    obtain ⟨j, rest', hshort, hj, hj'⟩ := hcuts.take hlt
    obtain ⟨rest, hmade, -⟩ := Framer.made_receive pieces
    rw [htake] at hmade
    obtain ⟨hms, -, herr⟩ := hmade.unique hshort
    refine ⟨herr, j, hms, ?_, ?_⟩
    · rw [← Session.total_take_received]
      exact hj
    · rw [← Session.total_take_received]
      exact hj'

end Ordbk
