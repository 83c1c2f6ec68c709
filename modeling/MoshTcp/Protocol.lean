import MoshTcp.Lib.ByteOrder
import MoshTcp.Lib.Utf8Lossy

/-! The packets of src/protocol.rs, their payload layout and the compression wrapper.
A Rust `usize` is an unbounded `Nat` here; the casts to `u16` and `u32` in the length
fields are the truncations done by `beBytes`. -/

set_option autoImplicit false

namespace MoshTcp.Protocol
open ByteOrder Utf8Lossy

inductive ErrorKind where
  | unexpectedEof | invalidData | wouldBlock | timedOut
  deriving DecidableEq, Repr

structure IoError where
  kind : ErrorKind
  message : String
  deriving DecidableEq, Repr

inductive Packet where
  | clientInput (data : Bytes)
  | clientResize (rows cols : UInt16)
  | ping (timestamp : UInt64)
  | pong (timestamp : UInt64)
  | serverFrame (seq : UInt64) (data : Bytes) (compressed : Bool)
  | clientHandshake (sessionKey : String) (rows cols : UInt16)
  deriving DecidableEq, Repr

/-- The flate2 encoder and decoder, both of which may fail. -/
structure Gzip where
  encode : Bytes → Option Bytes
  decode : Bytes → Option Bytes

/-- What the code relies on: decoding gives back what was encoded. -/
def Gzip.Inverts (gz : Gzip) : Prop :=
  ∀ data compressed, gz.encode data = some compressed → gz.decode compressed = some data

/-- An encoder that always fails; the encoder is never asked about short data. -/
def Gzip.failing : Gzip := ⟨fun _ => none, fun _ => none⟩

theorem Gzip.failing_inverts : Gzip.failing.Inverts := by
  intro data compressed h
  simp [failing] at h

def compressData (gz : Gzip) (data : Bytes) : Bytes × Bool :=
  if data.length > 128 then
    match gz.encode data with
    | some compressed =>
      if compressed.length < data.length then (compressed, true) else (data, false)
    | none => (data, false)
  else (data, false)

def decompressData (gz : Gzip) (data : Bytes) (compressed : Bool) : Option Bytes :=
  if !compressed then some data else gz.decode data

theorem compressData_cases (gz : Gzip) (data : Bytes) :
    compressData gz data = (data, false) ∨
      ∃ c, gz.encode data = some c ∧ c.length < data.length ∧
        compressData gz data = (c, true) := by
  unfold compressData
  split
  · split
    · rename_i c hc
      split
      · rename_i hlt
        exact .inr ⟨c, hc, hlt, rfl⟩
      · exact .inl rfl
    · exact .inl rfl
  · exact .inl rfl

theorem compressData_length_le (gz : Gzip) (data : Bytes) :
    (compressData gz data).1.length ≤ data.length := by
  rcases compressData_cases gz data with h | ⟨c, -, hlt, h⟩
  · rw [h]
  · rw [h]
    exact Nat.le_of_lt hlt

theorem decompress_compress {gz : Gzip} (hgz : gz.Inverts) (data : Bytes) :
    decompressData gz (compressData gz data).1 (compressData gz data).2 = some data := by
  rcases compressData_cases gz data with h | ⟨c, hc, -, h⟩
  · simp [h, decompressData]
  · simpa [h, decompressData] using hgz data c hc

theorem compressData_short (gz : Gzip) {data : Bytes} (h : data.length ≤ 128) :
    compressData gz data = (data, false) := by
  simp [compressData, Nat.not_lt.mpr h]

def asBytes (s : String) : Bytes := encode s.toList

def fromUtf8LossyString (bs : Bytes) : String := String.ofList (fromUtf8Lossy bs)

theorem fromUtf8LossyString_asBytes (s : String) : fromUtf8LossyString (asBytes s) = s := by
  simp [fromUtf8LossyString, asBytes, fromUtf8Lossy_encode]

def Packet.serialize : Packet → Bytes
  | .clientInput data => [1] ++ beBytes 4 data.length ++ data
  | .clientResize rows cols => [2] ++ beBytes 2 rows.toNat ++ beBytes 2 cols.toNat
  | .ping timestamp => [3] ++ beBytes 8 timestamp.toNat
  | .pong timestamp => [4] ++ beBytes 8 timestamp.toNat
  | .serverFrame seq data compressed =>
    [5] ++ beBytes 8 seq.toNat ++ [if compressed then 1 else 0] ++
      beBytes 4 data.length ++ data
  | .clientHandshake sessionKey rows cols =>
    [6] ++ beBytes 2 (asBytes sessionKey).length ++ asBytes sessionKey ++
      beBytes 2 rows.toNat ++ beBytes 2 cols.toNat

def unexpectedEof {α : Type} (message : String) : Except IoError α :=
  .error ⟨.unexpectedEof, message⟩

/-- The `u16`, `u32` and `u64` readers all take a slice of exactly their width, so the
value fits its type and the conversion loses nothing. -/
def readU16 (bs : Bytes) : UInt16 := UInt16.ofNat (beNat (bs.take 2))

def readU64 (bs : Bytes) : UInt64 := UInt64.ofNat (beNat (bs.take 8))

def readLength (bs : Bytes) : Nat := beNat (bs.take 4)

def Packet.deserialize : Bytes → Except IoError Packet
  | [] => unexpectedEof "Empty payload for Packet deserialization"
  | tag :: src =>
    if tag = 1 then
      if src.length < 4 then unexpectedEof "ClientInput len missing"
      else
        let len := readLength src
        let src := src.drop 4
        if src.length < len then unexpectedEof "ClientInput data missing"
        else .ok (.clientInput (src.take len))
    else if tag = 2 then
      if src.length < 4 then unexpectedEof "ClientResize dimensions missing"
      else .ok (.clientResize (readU16 src) (readU16 (src.drop 2)))
    else if tag = 3 then
      if src.length < 8 then unexpectedEof "Ping timestamp missing"
      else .ok (.ping (readU64 src))
    else if tag = 4 then
      if src.length < 8 then unexpectedEof "Pong timestamp missing"
      else .ok (.pong (readU64 src))
    else if tag = 5 then
      if src.length < 13 then unexpectedEof "ServerFrame header missing"
      else
        let seq := readU64 src
        let compressed := decide ((src.drop 8).head? ≠ some 0)
        let len := readLength (src.drop 9)
        let src := src.drop 13
        if src.length < len then unexpectedEof "ServerFrame data missing"
        else .ok (.serverFrame seq (src.take len) compressed)
    else if tag = 6 then
      if src.length < 2 then unexpectedEof "ClientHandshake key len missing"
      else
        let keyLen := beNat (src.take 2)
        let src := src.drop 2
        if src.length < keyLen + 4 then unexpectedEof "ClientHandshake payload truncated"
        else
          let sessionKey := fromUtf8LossyString (src.take keyLen)
          let src := src.drop keyLen
          .ok (.clientHandshake sessionKey (readU16 src) (readU16 (src.drop 2)))
    else .error ⟨.invalidData, "Unknown packet tag: " ++ toString tag.toNat⟩

end MoshTcp.Protocol
