import MoshTcp.Protocol

/-! The members of RFC 1952 that flate2 writes and reads: a header, a deflate stream and a
trailer. A small compressor that writes such members stands in for flate2 on concrete runs. -/

set_option autoImplicit false

namespace MoshTcp.Native
open ByteOrder Protocol

def crcBit (c : UInt32) : UInt32 :=
  if c &&& 1 = 1 then c >>> 1 ^^^ 0xEDB88320 else c >>> 1

def crcByte (c : UInt32) (b : UInt8) : UInt32 := crcBit^[8] (c ^^^ b.toUInt32)

def crc32 (bs : Bytes) : UInt32 := bs.foldl crcByte 0xFFFFFFFF ^^^ 0xFFFFFFFF

def extraField (extra : Bytes) : Bytes := Endian.little.store 2 extra.length ++ extra

def stringField (text : Bytes) : Bytes := text ++ [0]

def optional (field : Bytes → Bytes) : Option Bytes → Bytes
  | none => []
  | some x => field x

/-- A member header of RFC 1952. The bits of `flags` without a field are free. -/
structure Header where
  flags : UInt8
  /-- MTIME, XFL and OS. -/
  info : Bytes
  extra : Option Bytes
  name : Option Bytes
  comment : Option Bytes
  crc16 : Option Bytes
  info_length : info.length = 6
  extra_flag : flags &&& 4 ≠ 0 ↔ extra.isSome
  name_flag : flags &&& 8 ≠ 0 ↔ name.isSome
  comment_flag : flags &&& 16 ≠ 0 ↔ comment.isSome
  crc16_flag : flags &&& 2 ≠ 0 ↔ crc16.isSome
  extra_length : ∀ x ∈ extra, x.length < 2 ^ 16
  name_text : ∀ x ∈ name, 0 ∉ x
  comment_text : ∀ x ∈ comment, 0 ∉ x
  crc16_length : ∀ x ∈ crc16, x.length = 2

def Header.fields (h : Header) : Bytes :=
  optional extraField h.extra ++ (optional stringField h.name ++
    (optional stringField h.comment ++ optional id h.crc16))

def Header.bytes (h : Header) : Bytes := [0x1f, 0x8b, 8, h.flags] ++ (h.info ++ h.fields)

def trailer (out : Bytes) : Bytes :=
  Endian.little.store 4 (crc32 out).toNat ++ Endian.little.store 4 out.length

/-- The input starts with a member of `out`; `inflate` decodes exactly one deflate stream. -/
def Member (inflate : Bytes → Option Bytes) (data out : Bytes) : Prop :=
  ∃ (h : Header) (body tail : Bytes),
    data = h.bytes ++ (body ++ (trailer out ++ tail)) ∧ inflate body = some out

/-- The decoder accepts nothing but such inputs. -/
def ReadsMembers (gz : Gzip) (inflate : Bytes → Option Bytes) : Prop :=
  ∀ data out, gz.decode data = some out → Member inflate data out

theorem trailer_length (out : Bytes) : (trailer out).length = 8 := by
  simp [trailer, Endian.store]

example : trailer [0x68, 0x69] = [0xAC, 0x2A, 0x93, 0xD8, 2, 0, 0, 0] := by decide +kernel

def plainHeader : Header where
  flags := 0
  info := [0, 0, 0, 0, 0, 0xFF]
  extra := none
  name := none
  comment := none
  crc16 := none
  info_length := rfl
  extra_flag := by decide
  name_flag := by decide
  comment_flag := by decide
  crc16_flag := by decide
  extra_length := by simp
  name_text := by simp
  comment_text := by simp
  crc16_length := by simp

def plainMember (body out : Bytes) : Bytes := plainHeader.bytes ++ (body ++ trailer out)

theorem plainMember_length (body out : Bytes) :
    (plainMember body out).length = body.length + 18 := by
  have hheader : plainHeader.bytes.length = 10 := rfl
  rw [plainMember, List.length_append, List.length_append, hheader, trailer_length]
  omega

theorem plainMember_body (body out : Bytes) :
    ((plainMember body out).drop 10).take ((plainMember body out).length - 18) = body := by
  rw [plainMember_length, Nat.add_sub_cancel]
  exact List.take_left

/-- The data as one stored block, which is the last. -/
def storedBlock (data : Bytes) : Bytes :=
  1 :: (Endian.little.store 2 data.length ++
    (Endian.little.store 2 (2 ^ 16 - 1 - data.length) ++ data))

def letterRun : Bytes := List.replicate 259 0x61

/-- The run as a letter and a copy of 258 bytes from one place back, in the fixed codes. -/
def runBlock : Bytes := [0x4B, 0x1C, 0x05, 0x00]

/-- Stores everything below 64 KiB and compresses one run of letters. -/
def storedEncode (data : Bytes) : Option Bytes :=
  if data = letterRun then some (plainMember runBlock data)
  else if data.length < 2 ^ 16 then some (plainMember (storedBlock data) data)
  else none

def storedDecode (data : Bytes) : Option Bytes :=
  let body := (data.drop 10).take (data.length - 18)
  let out := if body = runBlock then letterRun else body.drop 5
  if storedEncode out = some data then some out else none

def storing : Gzip := ⟨storedEncode, storedDecode⟩

theorem storedEncode_cases {data compressed : Bytes} (h : storedEncode data = some compressed) :
    (data = letterRun ∧ compressed = plainMember runBlock data) ∨
      (data.length < 2 ^ 16 ∧ compressed = plainMember (storedBlock data) data) := by
  rw [storedEncode] at h
  split at h
  · rename_i hrun
    exact .inl ⟨hrun, (Option.some.inj h).symm⟩
  · split at h
    · rename_i hlen
      exact .inr ⟨hlen, (Option.some.inj h).symm⟩
    · cases h

theorem storing_inverts : storing.Inverts := by
  intro data compressed h
  have hdecode : ∀ out, out = data →
      (if storedEncode out = some compressed then some out else none) = some data := by
    rintro out rfl
    exact if_pos h
  refine hdecode _ ?_
  rcases storedEncode_cases h with ⟨hdata, rfl⟩ | ⟨-, rfl⟩
  · rw [plainMember_body, if_pos rfl, hdata]
  · have hne : storedBlock data ≠ runBlock := by
      rw [storedBlock, runBlock]
      exact fun h => absurd (List.head_eq_of_cons_eq h) (by decide)
    rw [plainMember_body, if_neg hne]
    rfl

theorem compressData_letterRun :
    compressData storing letterRun = (plainMember runBlock letterRun, true) := by
  have hencode : storing.encode letterRun = some (plainMember runBlock letterRun) := by
    simp only [storing, storedEncode, if_true]
  have hlong : letterRun.length = 259 := List.length_replicate
  have hshort : (plainMember runBlock letterRun).length = 22 := plainMember_length _ _
  simp [compressData, hencode, hlong, hshort]

end MoshTcp.Native
