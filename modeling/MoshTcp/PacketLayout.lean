import MoshTcp.Protocol

/-! The payloads that `Packet::deserialize` accepts, as a grammar of their own. A payload is
more than the packet it stands for: any nonzero flag byte means compressed, and a key may be
any bytes. -/

set_option autoImplicit false

namespace MoshTcp.Protocol
open ByteOrder Utf8Lossy

@[simp] theorem readU16_beBytes (x : UInt16) (tail : Bytes) :
    readU16 (beBytes 2 x.toNat ++ tail) = x := by
  have hx : x.toNat < 256 ^ 2 := x.toNat_lt
  rw [readU16, List.take_left' (beBytes_length 2 _), beNat_beBytes_of_lt hx]
  exact UInt16.ofNat_toNat

@[simp] theorem readU64_beBytes (x : UInt64) (tail : Bytes) :
    readU64 (beBytes 8 x.toNat ++ tail) = x := by
  have hx : x.toNat < 256 ^ 8 := x.toNat_lt
  rw [readU64, List.take_left' (beBytes_length 8 _), beNat_beBytes_of_lt hx]
  exact UInt64.ofNat_toNat

theorem readLength_beBytes {n : Nat} (h : n < 2 ^ 32) (tail : Bytes) :
    readLength (beBytes 4 n ++ tail) = n := by
  rw [readLength, List.take_left' (beBytes_length 4 _), beNat_beBytes_of_lt h]

theorem drop_beBytes (w n : Nat) (tail : Bytes) : (beBytes w n ++ tail).drop w = tail :=
  List.drop_left' (beBytes_length w n)

/-- A big-endian field read back from the front of a stream. -/
theorem beBytes_take {w : Nat} {src : Bytes} (h : w ≤ src.length) :
    beBytes w (beNat (src.take w)) ++ src.drop w = src := by
  have htake := beBytes_beNat (src.take w)
  rw [List.length_take, Nat.min_eq_left h] at htake
  rw [htake, List.take_append_drop]

theorem beNat_take_lt {w : Nat} {src : Bytes} (h : w ≤ src.length) :
    beNat (src.take w) < 256 ^ w := by
  have hlt := beNat_lt (src.take w)
  rwa [List.length_take, Nat.min_eq_left h] at hlt

theorem beBytes_readU16 {src : Bytes} (h : 2 ≤ src.length) :
    beBytes 2 (readU16 src).toNat ++ src.drop 2 = src := by
  have hval : (readU16 src).toNat = beNat (src.take 2) :=
    UInt16.toNat_ofNat_of_lt (beNat_take_lt h)
  rw [hval, beBytes_take h]

theorem beBytes_readU64 {src : Bytes} (h : 8 ≤ src.length) :
    beBytes 8 (readU64 src).toNat ++ src.drop 8 = src := by
  have hval : (readU64 src).toNat = beNat (src.take 8) :=
    UInt64.toNat_ofNat_of_lt (beNat_take_lt h)
  rw [hval, beBytes_take h]

theorem delimited {w : Nat} {src : Bytes} (hw : w ≤ src.length)
    (hlen : beNat (src.take w) ≤ (src.drop w).length) :
    ((src.drop w).take (beNat (src.take w))).length < 256 ^ w ∧
      beBytes w ((src.drop w).take (beNat (src.take w))).length ++
        ((src.drop w).take (beNat (src.take w)) ++ (src.drop w).drop (beNat (src.take w))) =
          src := by
  rw [List.length_take, Nat.min_eq_left hlen, List.take_append_drop]
  exact ⟨beNat_take_lt hw, beBytes_take hw⟩

inductive Payload where
  | clientInput (data : Bytes) (h : data.length < 2 ^ 32)
  | clientResize (rows cols : UInt16)
  | ping (timestamp : UInt64)
  | pong (timestamp : UInt64)
  | serverFrame (seq : UInt64) (flag : UInt8) (data : Bytes) (h : data.length < 2 ^ 32)
  | clientHandshake (key : Bytes) (h : key.length < 2 ^ 16) (rows cols : UInt16)

def Payload.bytes : Payload → Bytes
  | .clientInput data _ => [1] ++ beBytes 4 data.length ++ data
  | .clientResize rows cols => [2] ++ beBytes 2 rows.toNat ++ beBytes 2 cols.toNat
  | .ping timestamp => [3] ++ beBytes 8 timestamp.toNat
  | .pong timestamp => [4] ++ beBytes 8 timestamp.toNat
  | .serverFrame seq flag data _ =>
    [5] ++ beBytes 8 seq.toNat ++ [flag] ++ beBytes 4 data.length ++ data
  | .clientHandshake key _ rows cols =>
    [6] ++ beBytes 2 key.length ++ key ++ beBytes 2 rows.toNat ++ beBytes 2 cols.toNat

def Payload.packet : Payload → Packet
  | .clientInput data _ => .clientInput data
  | .clientResize rows cols => .clientResize rows cols
  | .ping timestamp => .ping timestamp
  | .pong timestamp => .pong timestamp
  | .serverFrame seq flag data _ => .serverFrame seq data (flag ≠ 0)
  | .clientHandshake key _ rows cols => .clientHandshake (fromUtf8LossyString key) rows cols

/-- The flag byte is 0 or 1, and the key is valid UTF-8. -/
def Payload.Canonical : Payload → Prop
  | .serverFrame _ flag _ _ => flag = 0 ∨ flag = 1
  | .clientHandshake key _ _ _ => ∃ sessionKey, key = asBytes sessionKey
  | _ => True

theorem Payload.serialize_packet {e : Payload} (h : e.Canonical) :
    e.packet.serialize = e.bytes := by
  cases e with
  | clientInput data hlen => rfl
  | clientResize rows cols => rfl
  | ping timestamp => rfl
  | pong timestamp => rfl
  | serverFrame seq flag data hlen =>
    obtain rfl | rfl := h
    · rfl
    · rfl
  | clientHandshake key hlen rows cols =>
    obtain ⟨sessionKey, rfl⟩ := h
    simp only [packet, Packet.serialize, bytes, fromUtf8LossyString_asBytes]

theorem deserialize_payload (e : Payload) (tail : Bytes) :
    Packet.deserialize (e.bytes ++ tail) = .ok e.packet := by
  cases e with
  | clientInput data hlen =>
    simp [Payload.bytes, Payload.packet, Packet.deserialize, readLength_beBytes hlen]
  | clientResize rows cols =>
    simp [Payload.bytes, Payload.packet, Packet.deserialize]
    omega
  | ping timestamp => simp [Payload.bytes, Payload.packet, Packet.deserialize]
  | pong timestamp => simp [Payload.bytes, Payload.packet, Packet.deserialize]
  | serverFrame seq flag data hlen =>
    have h9 : (beBytes 8 seq.toNat ++ (flag :: (beBytes 4 data.length ++ (data ++ tail)))).drop 9 =
        beBytes 4 data.length ++ (data ++ tail) := by
      rw [show (9 : Nat) = 8 + 1 from rfl, ← List.drop_drop, drop_beBytes, List.drop_one,
        List.tail_cons]
    have h13 : (beBytes 8 seq.toNat ++
        (flag :: (beBytes 4 data.length ++ (data ++ tail)))).drop 13 = data ++ tail := by
      rw [show (13 : Nat) = 9 + 4 from rfl, ← List.drop_drop, h9, drop_beBytes]
    simp only [Payload.bytes, Payload.packet, Packet.deserialize, List.append_assoc,
      List.cons_append, List.nil_append, h9, h13, drop_beBytes, readLength_beBytes hlen,
      readU64_beBytes]
    simp
    omega
  | clientHandshake key hlen rows cols =>
    have hk : beNat ((beBytes 2 key.length ++ (key ++ (beBytes 2 rows.toNat ++
        (beBytes 2 cols.toNat ++ tail)))).take 2) = key.length := by
      rw [List.take_left' (beBytes_length 2 _), beNat_beBytes_of_lt hlen]
    have h2 : ¬ (beBytes 2 key.length ++ (key ++ (beBytes 2 rows.toNat ++
        (beBytes 2 cols.toNat ++ tail)))).length < 2 := by
      simp only [List.length_append, beBytes_length]
      omega
    have hkey : ¬ (key ++ (beBytes 2 rows.toNat ++ (beBytes 2 cols.toNat ++ tail))).length <
        key.length + 4 := by
      simp only [List.length_append, beBytes_length]
      omega
    simp only [Payload.bytes, Payload.packet, Packet.deserialize, List.append_assoc,
      List.cons_append, List.nil_append, hk, drop_beBytes, List.drop_left, List.take_left,
      readU16_beBytes, if_neg h2, if_neg hkey]
    rfl

theorem flag_of_length {src : Bytes} (h : 13 ≤ src.length) :
    ∃ flag rest, src.drop 8 = flag :: rest := by
  refine List.exists_cons_of_ne_nil fun hnil => ?_
  have := List.drop_eq_nil_iff.1 hnil
  omega

/-- The bytes start with a payload of the packet. -/
def StartsWith (b : Bytes) (p : Packet) : Prop :=
  ∃ (e : Payload) (tail : Bytes), b = e.bytes ++ tail ∧ e.packet = p

@[elab_as_elim]
theorem tag_cases {motive : UInt8 → Prop} (clientInput : motive 1) (clientResize : motive 2)
    (ping : motive 3) (pong : motive 4) (serverFrame : motive 5) (clientHandshake : motive 6)
    (other : ∀ tag, tag ≠ 1 → tag ≠ 2 → tag ≠ 3 → tag ≠ 4 → tag ≠ 5 → tag ≠ 6 → motive tag)
    (tag : UInt8) : motive tag := by
  by_cases h1 : tag = 1
  · exact h1 ▸ clientInput
  · by_cases h2 : tag = 2
    · exact h2 ▸ clientResize
    · by_cases h3 : tag = 3
      · exact h3 ▸ ping
      · by_cases h4 : tag = 4
        · exact h4 ▸ pong
        · by_cases h5 : tag = 5
          · exact h5 ▸ serverFrame
          · by_cases h6 : tag = 6
            · exact h6 ▸ clientHandshake
            · exact other tag h1 h2 h3 h4 h5 h6

section Sound
variable {src : Bytes} {p : Packet}

theorem clientInput_sound (h : Packet.deserialize (1 :: src) = .ok p) :
    StartsWith (1 :: src) p := by
  simp only [Packet.deserialize, unexpectedEof, if_true] at h
  split at h
  · simp at h
  · rename_i h4
    split at h
    · simp at h
    · rename_i hlen
      obtain ⟨hfits, hsrc⟩ := delimited (Nat.le_of_not_lt h4) (Nat.le_of_not_lt hlen)
      refine ⟨.clientInput _ hfits, (src.drop 4).drop (readLength src), ?_, Except.ok.inj h⟩
      simp only [Payload.bytes, List.append_assoc, List.singleton_append]
      exact congrArg (List.cons 1) hsrc.symm

theorem clientResize_sound (h : Packet.deserialize (2 :: src) = .ok p) :
    StartsWith (2 :: src) p := by
  simp only [Packet.deserialize, unexpectedEof, if_true] at h
  rw [if_neg (by decide)] at h
  split at h
  · simp at h
  · rename_i h4
    have h2 : 2 ≤ (src.drop 2).length := by
      rw [List.length_drop]
      omega
    refine ⟨.clientResize (readU16 src) (readU16 (src.drop 2)), (src.drop 2).drop 2, ?_,
      Except.ok.inj h⟩
    simp only [Payload.bytes, List.append_assoc, List.cons_append, List.nil_append,
      beBytes_readU16 h2, beBytes_readU16 (show 2 ≤ src.length by omega)]

theorem ping_sound (h : Packet.deserialize (3 :: src) = .ok p) : StartsWith (3 :: src) p := by
  simp only [Packet.deserialize, unexpectedEof, if_true] at h
  rw [if_neg (by decide), if_neg (by decide)] at h
  split at h
  · simp at h
  · rename_i h8
    refine ⟨.ping (readU64 src), src.drop 8, ?_, Except.ok.inj h⟩
    simp only [Payload.bytes, List.cons_append, List.nil_append,
      beBytes_readU64 (Nat.le_of_not_lt h8)]

theorem pong_sound (h : Packet.deserialize (4 :: src) = .ok p) : StartsWith (4 :: src) p := by
  simp only [Packet.deserialize, unexpectedEof, if_true] at h
  rw [if_neg (by decide), if_neg (by decide), if_neg (by decide)] at h
  split at h
  · simp at h
  · rename_i h8
    refine ⟨.pong (readU64 src), src.drop 8, ?_, Except.ok.inj h⟩
    simp only [Payload.bytes, List.cons_append, List.nil_append,
      beBytes_readU64 (Nat.le_of_not_lt h8)]

theorem serverFrame_sound (h : Packet.deserialize (5 :: src) = .ok p) :
    StartsWith (5 :: src) p := by
  simp only [Packet.deserialize, unexpectedEof, if_true] at h
  rw [if_neg (by decide), if_neg (by decide), if_neg (by decide), if_neg (by decide)] at h
  split at h
  · simp at h
  · rename_i h13
    obtain ⟨flag, rest, hflag⟩ := flag_of_length (Nat.le_of_not_lt h13)
    have h9 : src.drop 9 = rest := by
      rw [show (9 : Nat) = 8 + 1 from rfl, ← List.drop_drop, hflag]
      rfl
    have hd13 : src.drop 13 = rest.drop 4 := by
      rw [show (13 : Nat) = 9 + 4 from rfl, ← List.drop_drop, h9]
    rw [hflag, h9, hd13] at h
    split at h
    · simp at h
    · rename_i hlen
      have h4 : 4 ≤ rest.length := by
        rw [← h9, List.length_drop]
        omega
      obtain ⟨hfits, hrest⟩ := delimited h4 (Nat.le_of_not_lt hlen)
      refine ⟨.serverFrame (readU64 src) flag _ hfits, (rest.drop 4).drop (readLength rest), ?_,
        ?_⟩
      · simp only [Payload.bytes, List.append_assoc, List.cons_append, List.nil_append]
        rw [readLength, hrest, ← hflag, beBytes_readU64 (by omega)]
      · rw [← Except.ok.inj h]
        simp [Payload.packet, readLength]

theorem clientHandshake_sound (h : Packet.deserialize (6 :: src) = .ok p) :
    StartsWith (6 :: src) p := by
  simp only [Packet.deserialize, unexpectedEof, if_true] at h
  rw [if_neg (by decide), if_neg (by decide), if_neg (by decide), if_neg (by decide),
    if_neg (by decide)] at h
  split at h
  · simp at h
  · rename_i h2
    split at h
    · simp at h
    · rename_i hlen
      obtain ⟨hfits, hsrc⟩ := delimited (Nat.le_of_not_lt h2)
        (show beNat (src.take 2) ≤ (src.drop 2).length by omega)
      have hafter : 4 ≤ ((src.drop 2).drop (beNat (src.take 2))).length := by
        rw [List.length_drop]
        omega
      have hcols : 2 ≤ (((src.drop 2).drop (beNat (src.take 2))).drop 2).length := by
        rw [List.length_drop]
        omega
      refine ⟨.clientHandshake _ hfits _ _,
        (((src.drop 2).drop (beNat (src.take 2))).drop 2).drop 2, ?_, Except.ok.inj h⟩
      simp only [Payload.bytes, List.append_assoc, List.cons_append, List.nil_append]
      rw [beBytes_readU16 hcols, beBytes_readU16 (by omega), hsrc]

theorem deserialize_sound {b : Bytes} (h : Packet.deserialize b = .ok p) : StartsWith b p := by
  cases b with
  | nil => simp [Packet.deserialize, unexpectedEof] at h
  | cons tag src =>
    cases tag using tag_cases with
    | clientInput => exact clientInput_sound h
    | clientResize => exact clientResize_sound h
    | ping => exact ping_sound h
    | pong => exact pong_sound h
    | serverFrame => exact serverFrame_sound h
    | clientHandshake => exact clientHandshake_sound h
    | other tag h1 h2 h3 h4 h5 h6 => simp [Packet.deserialize, h1, h2, h3, h4, h5, h6] at h

end Sound

/-! ### Slices

The same function with the slices that Rust checks: `none` is a panic. -/

def index (src : Bytes) (i : Nat) : Option UInt8 := src[i]?

def sliceTo (src : Bytes) (n : Nat) : Option Bytes :=
  if n ≤ src.length then some (src.take n) else none

def sliceFrom (src : Bytes) (n : Nat) : Option Bytes :=
  if n ≤ src.length then some (src.drop n) else none

/-- The bytes `src[i..j]` converted to an array of `w` bytes, read as a big-endian value. -/
def fromBeBytes (w : Nat) (src : Bytes) (i j : Nat) : Option Nat :=
  if i ≤ j ∧ j ≤ src.length ∧ j - i = w then some (beNat ((src.drop i).take w)) else none

def Packet.deserializeChecked (src : Bytes) : Option (Except IoError Packet) :=
  if src.isEmpty then some (unexpectedEof "Empty payload for Packet deserialization")
  else do
    let tag ← index src 0
    let src ← sliceFrom src 1
    if tag = 1 then
      if src.length < 4 then return unexpectedEof "ClientInput len missing"
      else
        let len ← fromBeBytes 4 src 0 4
        let src ← sliceFrom src 4
        if src.length < len then return unexpectedEof "ClientInput data missing"
        else
          let data ← sliceTo src len
          return .ok (.clientInput data)
    else if tag = 2 then
      if src.length < 4 then return unexpectedEof "ClientResize dimensions missing"
      else
        let rows ← fromBeBytes 2 src 0 2
        let cols ← fromBeBytes 2 src 2 4
        return .ok (.clientResize (UInt16.ofNat rows) (UInt16.ofNat cols))
    else if tag = 3 then
      if src.length < 8 then return unexpectedEof "Ping timestamp missing"
      else
        let timestamp ← fromBeBytes 8 src 0 8
        return .ok (.ping (UInt64.ofNat timestamp))
    else if tag = 4 then
      if src.length < 8 then return unexpectedEof "Pong timestamp missing"
      else
        let timestamp ← fromBeBytes 8 src 0 8
        return .ok (.pong (UInt64.ofNat timestamp))
    else if tag = 5 then
      if src.length < 13 then return unexpectedEof "ServerFrame header missing"
      else
        let seq ← fromBeBytes 8 src 0 8
        let flag ← index src 8
        let len ← fromBeBytes 4 src 9 13
        let src ← sliceFrom src 13
        if src.length < len then return unexpectedEof "ServerFrame data missing"
        else
          let data ← sliceTo src len
          return .ok (.serverFrame (UInt64.ofNat seq) data (flag ≠ 0))
    else if tag = 6 then
      if src.length < 2 then return unexpectedEof "ClientHandshake key len missing"
      else
        let keyLen ← fromBeBytes 2 src 0 2
        let src ← sliceFrom src 2
        if src.length < keyLen + 4 then
          return unexpectedEof "ClientHandshake payload truncated"
        else
          let key ← sliceTo src keyLen
          let src ← sliceFrom src keyLen
          let rows ← fromBeBytes 2 src 0 2
          let cols ← fromBeBytes 2 src 2 4
          return .ok (.clientHandshake (fromUtf8LossyString key) (UInt16.ofNat rows)
            (UInt16.ofNat cols))
    else return .error ⟨.invalidData, "Unknown packet tag: " ++ toString tag.toNat⟩

section Checked
variable {src : Bytes} {n w i j : Nat}

theorem index_tag (tag : UInt8) : index (tag :: src) 0 = some tag := rfl

theorem sliceFrom_tag (tag : UInt8) : sliceFrom (tag :: src) 1 = some src := by
  simp [sliceFrom]

theorem sliceTo_eq (h : n ≤ src.length) : sliceTo src n = some (src.take n) := if_pos h

theorem sliceFrom_eq (h : n ≤ src.length) : sliceFrom src n = some (src.drop n) := if_pos h

theorem fromBeBytes_eq (hw : i + w = j) (hj : j ≤ src.length) :
    fromBeBytes w src i j = some (beNat ((src.drop i).take w)) :=
  if_pos ⟨by omega, hj, by omega⟩

end Checked

theorem clientInput_checked (src : Bytes) :
    Packet.deserializeChecked (1 :: src) = some (Packet.deserialize (1 :: src)) := by
  simp +decide only [Packet.deserializeChecked, Packet.deserialize, List.isEmpty_cons, index_tag,
    sliceFrom_tag, Option.bind_eq_bind, Option.bind_some, if_true, if_false]
  by_cases h4 : src.length < 4
  · simp only [if_pos h4]
    rfl
  · have hread : fromBeBytes 4 src 0 4 = some (readLength src) := fromBeBytes_eq rfl (by omega)
    simp (disch := omega) only [if_neg h4, hread, sliceFrom_eq, Option.bind_some]
    by_cases hlen : (src.drop 4).length < readLength src
    · simp only [if_pos hlen]
      rfl
    · simp (disch := omega) only [if_neg hlen, sliceTo_eq, Option.bind_some]
      rfl

theorem clientResize_checked (src : Bytes) :
    Packet.deserializeChecked (2 :: src) = some (Packet.deserialize (2 :: src)) := by
  simp +decide only [Packet.deserializeChecked, Packet.deserialize, List.isEmpty_cons, index_tag,
    sliceFrom_tag, Option.bind_eq_bind, Option.bind_some, readU16, if_true, if_false]
  by_cases h4 : src.length < 4
  · simp only [if_pos h4]
    rfl
  · simp (disch := omega) only [if_neg h4, fromBeBytes_eq, Option.bind_some, List.drop_zero]
    rfl

theorem ping_checked (src : Bytes) :
    Packet.deserializeChecked (3 :: src) = some (Packet.deserialize (3 :: src)) := by
  simp +decide only [Packet.deserializeChecked, Packet.deserialize, List.isEmpty_cons, index_tag,
    sliceFrom_tag, Option.bind_eq_bind, Option.bind_some, readU64, if_true, if_false]
  by_cases h8 : src.length < 8
  · simp only [if_pos h8]
    rfl
  · simp (disch := omega) only [if_neg h8, fromBeBytes_eq, Option.bind_some, List.drop_zero]
    rfl

theorem pong_checked (src : Bytes) :
    Packet.deserializeChecked (4 :: src) = some (Packet.deserialize (4 :: src)) := by
  simp +decide only [Packet.deserializeChecked, Packet.deserialize, List.isEmpty_cons, index_tag,
    sliceFrom_tag, Option.bind_eq_bind, Option.bind_some, readU64, if_true, if_false]
  by_cases h8 : src.length < 8
  · simp only [if_pos h8]
    rfl
  · simp (disch := omega) only [if_neg h8, fromBeBytes_eq, Option.bind_some, List.drop_zero]
    rfl

theorem serverFrame_checked (src : Bytes) :
    Packet.deserializeChecked (5 :: src) = some (Packet.deserialize (5 :: src)) := by
  simp +decide only [Packet.deserializeChecked, Packet.deserialize, List.isEmpty_cons, index_tag,
    sliceFrom_tag, Option.bind_eq_bind, Option.bind_some, readU64, readLength, if_true, if_false]
  by_cases h13 : src.length < 13
  · simp only [if_pos h13]
    rfl
  · obtain ⟨flag, rest, hflag⟩ := flag_of_length (Nat.le_of_not_lt h13)
    have hindex : index src 8 = some flag := by
      rw [index, ← List.head?_drop, hflag]
      rfl
    simp (disch := omega) only [if_neg h13, fromBeBytes_eq, sliceFrom_eq, hindex, hflag,
      Option.bind_some, List.drop_zero, List.head?_cons]
    by_cases hlen : (src.drop 13).length < beNat ((src.drop 9).take 4)
    · simp only [if_pos hlen]
      rfl
    · simp (disch := omega) only [if_neg hlen, sliceTo_eq, Option.bind_some]
      simp

theorem clientHandshake_checked (src : Bytes) :
    Packet.deserializeChecked (6 :: src) = some (Packet.deserialize (6 :: src)) := by
  simp +decide only [Packet.deserializeChecked, Packet.deserialize, List.isEmpty_cons, index_tag,
    sliceFrom_tag, Option.bind_eq_bind, Option.bind_some, readU16, if_true, if_false]
  by_cases h2 : src.length < 2
  · simp only [if_pos h2]
    rfl
  · simp (disch := omega) only [if_neg h2, fromBeBytes_eq, sliceFrom_eq, Option.bind_some,
      List.drop_zero]
    by_cases hlen : (src.drop 2).length < beNat (src.take 2) + 4
    · simp only [if_pos hlen]
      rfl
    · have h4 : 4 ≤ ((src.drop 2).drop (beNat (src.take 2))).length := by
        rw [List.length_drop]
        omega
      simp (disch := omega) only [if_neg hlen, sliceTo_eq, fromBeBytes_eq, Option.bind_some,
        List.drop_zero]
      rfl

theorem deserializeChecked_eq (b : Bytes) :
    Packet.deserializeChecked b = some (Packet.deserialize b) := by
  cases b with
  | nil => rfl
  | cons tag src =>
    cases tag using tag_cases with
    | clientInput => exact clientInput_checked src
    | clientResize => exact clientResize_checked src
    | ping => exact ping_checked src
    | pong => exact pong_checked src
    | serverFrame => exact serverFrame_checked src
    | clientHandshake => exact clientHandshake_checked src
    | other tag h1 h2 h3 h4 h5 h6 =>
      simp [Packet.deserializeChecked, Packet.deserialize, index_tag, sliceFrom_tag,
        h1, h2, h3, h4, h5, h6]

/-- What the parser does with `b`, in terms of the grammar. -/
structure FollowsGrammar (b : Bytes) : Prop where
  in_bounds : Packet.deserializeChecked b = some (Packet.deserialize b)
  accepts : ∀ p, Packet.deserialize b = .ok p ↔ StartsWith b p
  canonical : ∀ (p : Packet) (e : Payload) (tail : Bytes), b = e.bytes ++ tail → e.packet = p →
    e.Canonical → p.serialize = e.bytes
  distinct : ∀ (e e' : Payload) (tail tail' : Bytes), b = e.bytes ++ tail →
    e.Canonical → e'.Canonical →
    Packet.deserialize (e'.bytes ++ tail') = Packet.deserialize b → e'.bytes = e.bytes

theorem deserialize_follows_grammar (b : Bytes) : FollowsGrammar b where
  in_bounds := deserializeChecked_eq b
  accepts p := by
    refine ⟨deserialize_sound, fun h => ?_⟩
    obtain ⟨e, tail, rfl, rfl⟩ := h
    exact deserialize_payload e tail
  canonical p e tail hb hp hc := by
    rw [← hp]
    exact e.serialize_packet hc
  distinct e e' tail tail' hb hc hc' h := by
    rw [hb, deserialize_payload, deserialize_payload] at h
    rw [← e.serialize_packet hc, ← e'.serialize_packet hc', Except.ok.inj h]

/-! ### Packets that do not fit -/

/-- The values whose length fields are wide enough for them. -/
def Packet.Fits : Packet → Prop
  | .clientInput data => data.length < 2 ^ 32
  | .serverFrame _ data _ => data.length < 2 ^ 32
  | .clientHandshake sessionKey _ _ => (asBytes sessionKey).length < 2 ^ 16
  | _ => True

/-- The part of the data that a length field of `w` bytes announces. -/
def announced (w : Nat) (data : Bytes) : Bytes := data.take (data.length % 256 ^ w)

theorem announced_length (w : Nat) (data : Bytes) :
    (announced w data).length = data.length % 256 ^ w := by
  rw [announced, List.length_take]
  exact Nat.min_eq_left (Nat.mod_le _ _)

theorem announced_length_lt (w : Nat) (data : Bytes) : (announced w data).length < 256 ^ w := by
  rw [announced_length]
  exact Nat.mod_lt _ (by positivity)

theorem announced_append (w : Nat) (data : Bytes) :
    beBytes w (announced w data).length ++
      (announced w data ++ data.drop (data.length % 256 ^ w)) =
        beBytes w data.length ++ data := by
  rw [announced_length, beBytes_mod, announced, List.take_append_drop]

theorem announced_eq_iff (w : Nat) (data : Bytes) :
    announced w data = data ↔ data.length < 256 ^ w := by
  constructor
  · intro h
    have hlt := announced_length_lt w data
    rwa [h] at hlt
  · intro h
    rw [announced, Nat.mod_eq_of_lt h, List.take_length]

/-- Of a key that is too long the reader takes the announced part, and the bytes after it as
the window size. -/
theorem handshake_announced (key : Bytes) (rows cols : UInt16) :
    ∃ (r c : UInt16) (tail : Bytes),
      [6] ++ beBytes 2 key.length ++ key ++ beBytes 2 rows.toNat ++ beBytes 2 cols.toNat =
        (Payload.clientHandshake (announced 2 key) (announced_length_lt 2 key) r c).bytes ++ tail ∧
      (key.length < 256 ^ 2 → r = rows ∧ c = cols) := by
  obtain ⟨rest, hrest⟩ : ∃ rest, rest = key.drop (key.length % 256 ^ 2) ++
    (beBytes 2 rows.toNat ++ beBytes 2 cols.toNat) := ⟨_, rfl⟩
  have h4 : 4 ≤ rest.length := by
    rw [hrest, List.length_append, List.length_append, beBytes_length, beBytes_length]
    omega
  have h2 : 2 ≤ (rest.drop 2).length := by
    rw [List.length_drop]
    omega
  refine ⟨readU16 rest, readU16 (rest.drop 2), (rest.drop 2).drop 2, ?_, fun hlt => ?_⟩
  · have hkey := announced_append 2 key
    simp only [Payload.bytes, List.append_assoc]
    rw [beBytes_readU16 h2, beBytes_readU16 (by omega), hrest,
      ← List.append_assoc (beBytes 2 _) key, ← hkey]
    simp only [List.append_assoc]
  · have hnil : key.drop (key.length % 256 ^ 2) = [] := by
      rw [Nat.mod_eq_of_lt hlt, List.drop_length]
    rw [hrest, hnil, List.nil_append, readU16_beBytes, drop_beBytes]
    exact ⟨rfl, by simpa using readU16_beBytes cols []⟩

/-- The announced part of a key that is too long reads as another key. -/
theorem announced_key_ne {sessionKey : String} (h : ¬ (asBytes sessionKey).length < 2 ^ 16) :
    fromUtf8LossyString (announced 2 (asBytes sessionKey)) ≠ sessionKey := by
  intro heq
  have hchars := congrArg String.toList heq
  rw [fromUtf8LossyString, String.toList_ofList] at hchars
  refine fromUtf8Lossy_take_ne ?_ hchars
  have hlen : (encode sessionKey.toList).length = (asBytes sessionKey).length := rfl
  rw [hlen]
  omega

/-- A serialized packet starts with a payload, and this stands for the packet exactly when the
packet fits. -/
theorem serialize_payload (p : Packet) : ∃ (e : Payload) (tail : Bytes),
    p.serialize = e.bytes ++ tail ∧ (e.packet = p ↔ p.Fits) := by
  cases p with
  | clientInput data =>
    refine ⟨.clientInput (announced 4 data) (announced_length_lt 4 data),
      data.drop (data.length % 256 ^ 4), ?_, ?_⟩
    · simp only [Packet.serialize, Payload.bytes, List.append_assoc, announced_append]
    · rw [Payload.packet, Packet.clientInput.injEq]
      exact announced_eq_iff 4 data
  | clientResize rows cols =>
    exact ⟨.clientResize rows cols, [], (List.append_nil _).symm, iff_of_true rfl trivial⟩
  | ping timestamp =>
    exact ⟨.ping timestamp, [], (List.append_nil _).symm, iff_of_true rfl trivial⟩
  | pong timestamp =>
    exact ⟨.pong timestamp, [], (List.append_nil _).symm, iff_of_true rfl trivial⟩
  | serverFrame seq data compressed =>
    refine ⟨.serverFrame seq (if compressed then 1 else 0) (announced 4 data)
      (announced_length_lt 4 data), data.drop (data.length % 256 ^ 4), ?_, ?_⟩
    · simp only [Packet.serialize, Payload.bytes, List.append_assoc, announced_append]
    · have hflag : decide ((if compressed then (1 : UInt8) else 0) ≠ 0) = compressed := by
        cases compressed <;> rfl
      rw [Payload.packet, Packet.serverFrame.injEq, hflag]
      simp only [true_and, and_true]
      exact announced_eq_iff 4 data
  | clientHandshake sessionKey rows cols =>
    obtain ⟨r, c, tail, hbytes, hsize⟩ := handshake_announced (asBytes sessionKey) rows cols
    refine ⟨_, tail, hbytes, ?_⟩
    rw [Payload.packet, Packet.clientHandshake.injEq]
    constructor
    · intro h
      by_contra hlong
      exact announced_key_ne hlong h.1
    · intro h
      rw [(announced_eq_iff 2 _).2 h, fromUtf8LossyString_asBytes]
      exact ⟨rfl, hsize h⟩

/-- Every serialized packet is read, whatever comes after it, and it is read back as itself
exactly when it fits. -/
theorem serialize_fidelity (p : Packet) : ∃ q, Packet.deserialize p.serialize = .ok q ∧
    (∀ tail, Packet.deserialize (p.serialize ++ tail) = .ok q) ∧ (q = p ↔ p.Fits) := by
  obtain ⟨e, rest, hbytes, hfits⟩ := serialize_payload p
  refine ⟨e.packet, ?_, fun tail => ?_, hfits⟩
  · rw [hbytes]
    exact deserialize_payload e rest
  · rw [hbytes, List.append_assoc]
    exact deserialize_payload e (rest ++ tail)

theorem deserialize_serialize (p : Packet) (hp : p.Fits) (tail : Bytes) :
    Packet.deserialize (p.serialize ++ tail) = .ok p := by
  obtain ⟨e, rest, hbytes, hfits⟩ := serialize_payload p
  rw [hbytes, List.append_assoc, deserialize_payload, hfits.2 hp]

end MoshTcp.Protocol
