import MoshTcp.PacketLayout
import MoshTcp.Lib.StreamDecoder

/-! `PacketCodec`, the length-prefixed framing of src/protocol.rs: the decoder laws, and the
round trip of whole streams under any segmentation. -/

set_option autoImplicit false

namespace MoshTcp.Protocol
open ByteOrder Utf8Lossy StreamDecoder

/-- `PacketCodec::decode` on the contents of its buffer. Reserving capacity for a
packet that has not arrived in full changes no contents. -/
def PacketCodec.decode (src : Bytes) : Except IoError (Option Packet) × Bytes :=
  if src.length < 4 then (.ok none, src)
  else
    let length := readLength src
    if src.length < 4 + length then (.ok none, src)
    else
      let src := src.drop 4
      let payload := src.take length
      ((Packet.deserialize payload).map some, src.drop length)

def PacketCodec.encode (item : Packet) : Bytes :=
  let serialized := item.serialize
  beBytes 4 serialized.length ++ serialized

def encodeAll (ps : List Packet) : Bytes := ps.flatMap PacketCodec.encode

theorem encode_append_length (p : Packet) (tail : Bytes) :
    (PacketCodec.encode p ++ tail).length = 4 + p.serialize.length + tail.length := by
  simp [PacketCodec.encode, Nat.add_assoc]

theorem decode_encode (p : Packet) (hp : p.Fits) (hs : p.serialize.length < 2 ^ 32)
    (tail : Bytes) :
    PacketCodec.decode (PacketCodec.encode p ++ tail) = (.ok (some p), tail) := by
  have hlen := encode_append_length p tail
  have hread : readLength (PacketCodec.encode p ++ tail) = p.serialize.length := by
    rw [PacketCodec.encode, List.append_assoc, readLength_beBytes hs]
  have hdrop : (PacketCodec.encode p ++ tail).drop 4 = p.serialize ++ tail := by
    rw [PacketCodec.encode, List.append_assoc, drop_beBytes]
  have hpay := deserialize_serialize p hp []
  rw [List.append_nil] at hpay
  simp only [PacketCodec.decode, hread, hdrop, List.take_left, List.drop_left, hpay]
  rw [if_neg (by omega), if_neg (by omega)]
  rfl

theorem decode_cases (src : Bytes) :
    PacketCodec.decode src = (.ok none, src) ∨
      (4 + readLength src ≤ src.length ∧ 4 ≤ src.length ∧
        PacketCodec.decode src =
          ((Packet.deserialize ((src.drop 4).take (readLength src))).map some,
            (src.drop 4).drop (readLength src))) := by
  by_cases h4 : src.length < 4
  · exact .inl (by simp [PacketCodec.decode, h4])
  · by_cases hlen : src.length < 4 + readLength src
    · exact .inl (by simp [PacketCodec.decode, hlen])
    · exact .inr ⟨by omega, by omega, by simp only [PacketCodec.decode, h4, hlen, if_false]⟩

/-- A complete packet is decoded the same way whatever has arrived after it. -/
theorem decode_append {src : Bytes} (more : Bytes) (h4 : 4 ≤ src.length)
    (hlen : 4 + readLength src ≤ src.length) :
    PacketCodec.decode (src ++ more) =
      ((Packet.deserialize ((src.drop 4).take (readLength src))).map some,
        (src.drop 4).drop (readLength src) ++ more) := by
  have hread : readLength (src ++ more) = readLength src := by
    simp [readLength, List.take_append_of_le_length h4]
  have hdrop : (src ++ more).drop 4 = src.drop 4 ++ more := List.drop_append_of_le_length h4
  have hle : readLength src ≤ (src.drop 4).length := by simp only [List.length_drop]; omega
  simp only [PacketCodec.decode, hread, hdrop, List.length_append,
    List.take_append_of_le_length hle, List.drop_append_of_le_length hle]
  rw [if_neg (by omega), if_neg (by omega)]

theorem decode_none_keeps {src rest : Bytes}
    (h : PacketCodec.decode src = (.ok none, rest)) : rest = src := by
  rcases decode_cases src with hc | ⟨-, -, hc⟩
  · rw [h] at hc
    exact congrArg Prod.snd hc
  · rw [h] at hc
    cases hp : Packet.deserialize ((src.drop 4).take (readLength src)) with
    | error e => simp [hp, Except.map] at hc
    | ok p => simp [hp, Except.map] at hc

theorem decode_some_shrinks {src rest : Bytes} {p : Packet}
    (h : PacketCodec.decode src = (.ok (some p), rest)) : rest.length < src.length := by
  rcases decode_cases src with hc | ⟨-, h4, hc⟩
  · simp [hc] at h
  · rw [h] at hc
    have hr := congrArg Prod.snd hc
    simp only at hr
    simp only [hr, List.length_drop]
    omega

theorem decode_stable {src rest : Bytes} {r : Except IoError (Option Packet)}
    (hr : r ≠ .ok none) (more : Bytes) (h : PacketCodec.decode src = (r, rest)) :
    PacketCodec.decode (src ++ more) = (r, rest ++ more) := by
  rcases decode_cases src with hc | ⟨hlen, h4, hc⟩
  · rw [hc] at h
    exact absurd (congrArg Prod.fst h).symm hr
  · rw [decode_append more h4 hlen]
    rw [hc] at h
    have h₁ := congrArg Prod.fst h
    have h₂ := congrArg Prod.snd h
    simp only at h₁ h₂
    rw [h₁, h₂]

def codec : Decoder UInt8 Packet IoError where
  decode := PacketCodec.decode
  none_keeps := decode_none_keeps
  some_shrinks := decode_some_shrinks
  some_append := fun more h => decode_stable (by simp) more h
  error_append := fun more h => decode_stable (by simp) more h

theorem codec_drain_encodeAll (ps : List Packet) (hf : ∀ p ∈ ps, p.Fits)
    (hs : ∀ p ∈ ps, p.serialize.length < 2 ^ 32) :
    codec.drain (encodeAll ps) = ⟨ps, [], none⟩ := by
  induction ps with
  | nil => exact codec.drain_none rfl
  | cons p ps ih =>
    have hd : codec.decode (PacketCodec.encode p ++ encodeAll ps) =
        (.ok (some p), encodeAll ps) :=
      decode_encode p (hf p (by simp)) (hs p (by simp)) (encodeAll ps)
    have ht := ih (fun q hq => hf q (by simp [hq])) (fun q hq => hs q (by simp [hq]))
    have he : encodeAll (p :: ps) = PacketCodec.encode p ++ encodeAll ps := by simp [encodeAll]
    rw [he, codec.drain_some hd, ht]
    rfl

/-- A key bound and the bound on the whole payload leave every length field exact. -/
theorem fits_of_serialize_lt (p : Packet) (hs : p.serialize.length < 2 ^ 32)
    (hk : ∀ key rows cols, p = .clientHandshake key rows cols →
      (asBytes key).length < 2 ^ 16) : p.Fits := by
  cases p with
  | clientInput data => simp [Packet.serialize, Packet.Fits] at *; omega
  | serverFrame seq data compressed => simp [Packet.serialize, Packet.Fits] at *; omega
  | clientHandshake key rows cols => exact hk key rows cols rfl
  | clientResize rows cols => trivial
  | ping timestamp => trivial
  | pong timestamp => trivial

/-- Whatever the segmentation, feeding the encoded stream chunk by chunk yields the
packets in order, no error and an empty buffer; and `Ok(None)` never changes the buffer. -/
theorem framing_roundtrip (ps : List Packet) (chunks : List Bytes)
    (hs : ∀ p ∈ ps, p.serialize.length < 2 ^ 32)
    (hk : ∀ p ∈ ps, ∀ key rows cols, p = .clientHandshake key rows cols →
      (asBytes key).length < 2 ^ 16)
    (hcut : chunks.flatten = encodeAll ps) :
    codec.feed [] chunks = ⟨ps, [], none⟩ ∧
      ∀ src rest, PacketCodec.decode src = (.ok none, rest) → rest = src := by
  have hf : ∀ p ∈ ps, p.Fits := fun p hp => fits_of_serialize_lt p (hs p hp) (hk p hp)
  obtain ⟨hi, he, hr⟩ := codec.feed_eq_drain [] chunks rfl
  rw [List.nil_append, hcut, codec_drain_encodeAll ps hf hs] at hi he hr
  refine ⟨?_, fun src rest h => decode_none_keeps h⟩
  cases hd : codec.feed [] chunks with
  | mk items rest error =>
    rw [hd] at hi he hr
    obtain rfl : items = ps := hi
    obtain rfl : error = none := he
    obtain rfl : rest = [] := hr rfl
    rfl

theorem framing_roundtrip_cut_inside_length :
    codec.feed [] [(encodeAll [.clientHandshake "key" 24 80, .clientInput [104, 105]]).take 3,
        (encodeAll [.clientHandshake "key" 24 80, .clientInput [104, 105]]).drop 3] =
      ⟨[.clientHandshake "key" 24 80, .clientInput [104, 105]], [], none⟩ ∧
    ∀ src rest, PacketCodec.decode src = (.ok none, rest) → rest = src :=
  framing_roundtrip [.clientHandshake "key" 24 80, .clientInput [104, 105]]
    [(encodeAll [.clientHandshake "key" 24 80, .clientInput [104, 105]]).take 3,
      (encodeAll [.clientHandshake "key" 24 80, .clientInput [104, 105]]).drop 3]
    (by decide +kernel)
    (by
      intro p hp key rows cols he
      subst he
      simp only [List.mem_cons, Packet.clientHandshake.injEq, reduceCtorEq, List.not_mem_nil,
        or_false] at hp
      rw [hp.1]
      decide +kernel)
    (by simp)

end MoshTcp.Protocol
