import MoshTcp.ClientReceive

/-! `read_packet` of the Rust client on a stream that is all there, next to the server's
`PacketCodec` on the same bytes. -/

set_option autoImplicit false

namespace MoshTcp.Client
open ByteOrder Protocol StreamDecoder

/-- What `read_exact` reports when the stream ends first. -/
def endOfInput : IoError := ⟨.unexpectedEof, "failed to fill whole buffer"⟩

def readStream (n : Nat) (s : Bytes) : Except IoError Bytes × Bytes :=
  if n ≤ s.length then (.ok (s.take n), s.drop n) else (.error endOfInput, [])

/-- Where the two readers stand on the same bytes: both lack bytes, or both hand the same
payload to `deserialize` and go on with the same rest. -/
theorem readPacket_decode (s : Bytes) :
    (readPacket readStream s = (.error endOfInput, []) ∧
        PacketCodec.decode s = (.ok none, s)) ∨
      ∃ payload rest, rest.length < s.length ∧
        readPacket readStream s = (Packet.deserialize payload, rest) ∧
        PacketCodec.decode s = ((Packet.deserialize payload).map some, rest) := by
  by_cases h4 : s.length < 4
  · refine .inl ⟨?_, by simp [PacketCodec.decode, h4]⟩
    simp [readPacket, readStream, Nat.not_le.mpr h4]
  · by_cases hlen : s.length < 4 + readLength s
    · refine .inl ⟨?_, by simp [PacketCodec.decode, hlen]⟩
      have hshort : ¬ beNat (s.take 4) ≤ (s.drop 4).length := by
        rw [List.length_drop]
        unfold readLength at hlen
        omega
      simp only [readPacket, readStream, if_pos (Nat.not_lt.mp h4), if_neg hshort]
    · have hlong : beNat (s.take 4) ≤ (s.drop 4).length := by
        rw [List.length_drop]
        unfold readLength at hlen
        omega
      refine .inr ⟨(s.drop 4).take (readLength s), (s.drop 4).drop (readLength s), ?_, ?_, ?_⟩
      · simp only [List.length_drop]
        omega
      · simp only [readPacket, readStream, if_pos (Nat.not_lt.mp h4), if_pos hlong, readLength]
      · simp only [PacketCodec.decode, if_neg h4, if_neg hlen]

theorem readPacket_shrinks {s rest : Bytes} {p : Packet}
    (h : readPacket readStream s = (.ok p, rest)) : rest.length < s.length := by
  rcases readPacket_decode s with ⟨hr, -⟩ | ⟨payload, rest', hlt, hr, -⟩
  · simp [h] at hr
  · rw [h, Prod.mk.injEq] at hr
    rw [hr.2]
    exact hlt

/-- The packets `read_packet` returns until its first error, and that error. -/
def readPackets (s : Bytes) : List Packet × IoError :=
  match _h : readPacket readStream s with
  | (.ok packet, rest) =>
    let (packets, e) := readPackets rest
    (packet :: packets, e)
  | (.error e, _) => ([], e)
termination_by s.length
decreasing_by exact readPacket_shrinks ‹_›

/-- An error of `Packet::deserialize`. -/
def InvalidPayload (e : IoError) : Prop := ∃ payload, Packet.deserialize payload = .error e

theorem deserialize_ne_endOfInput (payload : Bytes) :
    Packet.deserialize payload ≠ .error endOfInput := by
  cases payload with
  | nil => simp [Packet.deserialize, unexpectedEof, endOfInput]
  | cons tag src =>
    simp only [Packet.deserialize, unexpectedEof, endOfInput]
    (repeat' split) <;> simp

theorem readPackets_ok {s rest : Bytes} {p : Packet}
    (h : readPacket readStream s = (.ok p, rest)) :
    readPackets s = (p :: (readPackets rest).1, (readPackets rest).2) := by
  rw [readPackets]
  split <;> simp_all

theorem readPackets_error {s rest : Bytes} {e : IoError}
    (h : readPacket readStream s = (.error e, rest)) : readPackets s = ([], e) := by
  rw [readPackets]
  split <;> simp_all

theorem readPackets_drain (s : Bytes) :
    (readPackets s).1 = (codec.drain s).items ∧
      ((codec.drain s).error = none ∧ (readPackets s).2 = endOfInput ∨
        ∃ e, (codec.drain s).error = some e ∧ (readPackets s).2 = e ∧ InvalidPayload e) := by
  induction hn : s.length using Nat.strongRecOn generalizing s with
  | ind n ih =>
    rcases readPacket_decode s with ⟨hr, hd⟩ | ⟨payload, rest, hlt, hr, hd⟩
    · rw [readPackets_error hr, codec.drain_none hd]
      exact ⟨rfl, .inl ⟨rfl, rfl⟩⟩
    · cases hp : Packet.deserialize payload with
      | error e =>
        rw [hp] at hr hd
        rw [readPackets_error hr, codec.drain_error hd]
        exact ⟨rfl, .inr ⟨e, rfl, rfl, payload, hp⟩⟩
      | ok p =>
        rw [hp] at hr hd
        obtain ⟨hi, he⟩ := ih rest.length (hn ▸ hlt) rest rfl
        rw [readPackets_ok hr, codec.drain_some hd]
        exact ⟨by simp [Drained.after, hi], he⟩

/-- The blocking reader and the incremental one return the same packets of every stream. The
client's error comes from the payload exactly when the codec fails, and is then the same
error; it is the end of input exactly when the codec asks for more. -/
theorem readers_agree (s : Bytes) :
    (readPackets s).1 = (codec.drain s).items ∧
      (InvalidPayload (readPackets s).2 ↔ ∃ e, (codec.drain s).error = some e) ∧
      (∀ e, (codec.drain s).error = some e → (readPackets s).2 = e) ∧
      ((readPackets s).2 = endOfInput ↔ (codec.drain s).error = none) := by
  obtain ⟨hi, ⟨hnone, heof⟩ | ⟨e, herr, he, hinv⟩⟩ := readPackets_drain s
  · refine ⟨hi, ⟨?_, by simp [hnone]⟩, by simp [hnone], by simp [heof, hnone]⟩
    intro h
    obtain ⟨payload, hp⟩ := h
    exact absurd (heof ▸ hp) (deserialize_ne_endOfInput payload)
  · refine ⟨hi, ⟨fun _ => ⟨e, herr⟩, fun _ => he ▸ hinv⟩, ?_, ?_⟩
    · intro e' he'
      rw [he]
      exact Option.some.inj (herr.symm.trans he')
    · refine ⟨fun heof => ?_, by simp [herr]⟩
      obtain ⟨payload, hp⟩ := hinv
      rw [← he, heof] at hp
      exact absurd hp (deserialize_ne_endOfInput payload)

end MoshTcp.Client
