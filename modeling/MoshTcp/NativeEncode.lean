import MoshTcp.Codec
import MoshTcp.Lib.Buffers

/-! What the three clients put on the wire for a packet. The C++ client shifts bytes out of
its integers, the C client copies network-order words into uninitialised memory at computed
offsets, and the Rust client uses `to_be_bytes`; all of them write a length and a payload. -/

set_option autoImplicit false

namespace MoshTcp.Native
open ByteOrder Protocol Buffers

/-- What one `write` does: it accepts `n + 1` bytes (or what is left, when that is less), stops
with EINTR or EAGAIN, or fails in another way. -/
inductive WriteResult where
  | accepted (n : Nat)
  | interrupted
  | wouldBlock
  | failed
  deriving DecidableEq, Repr

/-- `write_all`: the bytes that reached the socket and, when these are all, the results of the
writes still to come. After a write that accepts nothing it gives up or tries again. -/
def writeAll (givesUp : WriteResult → Bool) :
    List WriteResult → Bytes → Bytes × Option (List WriteResult)
  | results, [] => ([], some results)
  | [], _ :: _ => ([], none)
  | .accepted n :: results, b :: buf =>
    let rest := writeAll givesUp results ((b :: buf).drop (n + 1))
    ((b :: buf).take (n + 1) ++ rest.1, rest.2)
  | r :: results, b :: buf =>
    if givesUp r then ([], none) else writeAll givesUp results (b :: buf)

def writeBoth (givesUp : WriteResult → Bool) (results : List WriteResult)
    (header payload : Bytes) : Bytes × Bool :=
  match writeAll givesUp results header with
  | (out, none) => (out, false)
  | (out, some results) =>
    let rest := writeAll givesUp results payload
    (out ++ rest.1, rest.2.isSome)

def acceptedCount (results : List WriteResult) : Nat :=
  results.countP fun r => r matches .accepted _

/-- The standard library tries again after an interruption only. -/
def rustGivesUp : WriteResult → Bool
  | .wouldBlock | .failed => true
  | _ => false

/-- `write_packet` of src/client.rs over one or the other `write_all`. -/
def writePacketWith (givesUp : WriteResult → Bool) (results : List WriteResult)
    (packet : Packet) : Bytes × Bool :=
  let serialized := packet.serialize
  writeBoth givesUp results (beBytes 4 serialized.length) serialized

def writePacket (results : List WriteResult) (packet : Packet) : Bytes × Bool :=
  writePacketWith rustGivesUp results packet

/-! ### C++ -/

def pushWord (x : UInt32) : Bytes :=
  [((x >>> 24) &&& 0xFF).toUInt8, ((x >>> 16) &&& 0xFF).toUInt8, ((x >>> 8) &&& 0xFF).toUInt8,
    (x &&& 0xFF).toUInt8]

/-- A `uint16_t` is promoted before it is shifted. -/
def pushHalf (x : UInt16) : Bytes :=
  [((x.toUInt32 >>> 8) &&& 0xFF).toUInt8, (x.toUInt32 &&& 0xFF).toUInt8]

def pushLong (x : UInt64) : Bytes :=
  ([7, 6, 5, 4, 3, 2, 1, 0] : List UInt64).map fun i => ((x >>> (i * 8)) &&& 0xFF).toUInt8

/-- `serialize_packet`; a `session_key` holds the UTF-8 bytes of the key. -/
def serializePacket : Packet → Bytes
  | .clientInput data => [1] ++ pushWord (UInt32.ofNat data.length) ++ data
  | .clientResize rows cols => [2] ++ pushHalf rows ++ pushHalf cols
  | .ping timestamp => [3] ++ pushLong timestamp
  | .pong timestamp => [4] ++ pushLong timestamp
  | .serverFrame seq data compressed =>
    [5] ++ pushLong seq ++ [if compressed then 1 else 0] ++
      pushWord (UInt32.ofNat data.length) ++ data
  | .clientHandshake sessionKey rows cols =>
    [6] ++ pushHalf (UInt16.ofNat (asBytes sessionKey).length) ++ asBytes sessionKey ++
      pushHalf rows ++ pushHalf cols

def htons (host : Endian) (x : UInt16) : UInt16 := UInt16.ofNat (host.hton 2 x.toNat)

def htonl (host : Endian) (x : UInt32) : UInt32 := UInt32.ofNat (host.hton 4 x.toNat)

def storeHalf (host : Endian) (x : UInt16) : Bytes := host.store 2 x.toNat

def storeWord (host : Endian) (x : UInt32) : Bytes := host.store 4 x.toNat

def nativeGivesUp : WriteResult → Bool
  | .failed => true
  | _ => false

def sendFramedPacket (host : Endian) (results : List WriteResult) (pkt : Packet) : Bytes × Bool :=
  let payload := serializePacket pkt
  let len := UInt32.ofNat payload.length
  writeBoth nativeGivesUp results (storeWord host (htonl host len)) payload

/-! ### C -/

/-- Where fresh memory comes from. Its contents are arbitrary, and `malloc` may fail. -/
structure Memory where
  malloc : Nat → Option Bytes
  stack : Nat → Bytes
  malloc_length : ∀ n buf, malloc n = some buf → buf.length = n
  stack_length : ∀ n, (stack n).length = n

/-- `strlen` of the string that starts at a pointer: `memory` is what lies there. -/
def strlen (memory : Bytes) : Nat := (memory.takeWhile (· ≠ 0)).length

def sendPacket (host : Endian) (results : List WriteResult) (payload : Bytes) (len : UInt32) :
    Bytes × Bool :=
  writeBoth nativeGivesUp results (storeWord host (htonl host len)) (payload.take len.toNat)

def sendResize (host : Endian) (mem : Memory) (results : List WriteResult) (rows cols : UInt16) :
    Bytes × Bool :=
  let payload := overwrite (mem.stack 5) 0 [2]
  let payload := overwrite payload 1 (storeHalf host (htons host rows))
  let payload := overwrite payload 3 (storeHalf host (htons host cols))
  sendPacket host results payload 5

/-- `key` is what lies at the pointer, or `none` for a null pointer. -/
def sendHandshake (host : Endian) (mem : Memory) (results : List WriteResult)
    (key : Option Bytes) (rows cols : UInt16) : Bytes × Bool :=
  let keyLen : UInt16 := match key with
    | some memory => UInt16.ofNat (strlen memory)
    | none => 0
  let payloadLen : UInt32 := 1 + 2 + keyLen.toUInt32 + 2 + 2
  match mem.malloc payloadLen.toNat with
  | none => ([], false)
  | some payload =>
    let payload := overwrite payload 0 [6]
    let payload := overwrite payload 1 (storeHalf host (htons host keyLen))
    let payload := if keyLen > 0 then overwrite payload 3 ((key.getD []).take keyLen.toNat)
      else payload
    let payload := overwrite payload (3 + keyLen.toNat) (storeHalf host (htons host rows))
    let payload := overwrite payload (5 + keyLen.toNat) (storeHalf host (htons host cols))
    sendPacket host results payload payloadLen

/-- The callers pass the length of `data` as `len`, cast to 32 bits. -/
def sendInput (host : Endian) (mem : Memory) (results : List WriteResult) (data : Bytes) :
    Bytes × Bool :=
  let len := UInt32.ofNat data.length
  match mem.malloc (1 + 4 + len).toNat with
  | none => ([], false)
  | some payload =>
    let payload := overwrite payload 0 [1]
    let payload := overwrite payload 1 (storeWord host (htonl host len))
    let payload := overwrite payload 5 (data.take len.toNat)
    sendPacket host results payload (5 + len)

theorem mask_byte (n : Nat) : n &&& 255 = n % 256 := Nat.and_two_pow_sub_one_eq_mod n 8

theorem shiftByte32 (x k : UInt32) (hk : k.toNat < 32) :
    ((x >>> k) &&& 0xFF).toUInt8 = UInt8.ofNat (x.toNat / 2 ^ k.toNat) := by
  apply UInt8.toNat_inj.1
  simp [UInt32.toNat_shiftRight, Nat.shiftRight_eq_div_pow, Nat.mod_eq_of_lt hk, mask_byte]

theorem shiftByte64 (x k : UInt64) (hk : k.toNat < 64) :
    ((x >>> k) &&& 0xFF).toUInt8 = UInt8.ofNat (x.toNat / 2 ^ k.toNat) := by
  apply UInt8.toNat_inj.1
  simp [UInt64.toNat_shiftRight, Nat.shiftRight_eq_div_pow, Nat.mod_eq_of_lt hk, mask_byte]

theorem lowByte32 (x : UInt32) : (x &&& 0xFF).toUInt8 = UInt8.ofNat x.toNat := by
  apply UInt8.toNat_inj.1
  simp [mask_byte]

theorem pushWord_eq (x : UInt32) : pushWord x = beBytes 4 x.toNat := by
  rw [pushWord, shiftByte32 x 24 (by decide), shiftByte32 x 16 (by decide),
    shiftByte32 x 8 (by decide), lowByte32]
  simp [beBytes]

theorem pushHalf_eq (x : UInt16) : pushHalf x = beBytes 2 x.toNat := by
  rw [pushHalf, shiftByte32 _ 8 (by decide), lowByte32]
  simp [beBytes]

theorem pushLong_eq (x : UInt64) : pushLong x = beBytes 8 x.toNat := by
  simp only [pushLong, List.map_cons, List.map_nil]
  rw [shiftByte64 x (7 * 8) (by decide), shiftByte64 x (6 * 8) (by decide),
    shiftByte64 x (5 * 8) (by decide), shiftByte64 x (4 * 8) (by decide),
    shiftByte64 x (3 * 8) (by decide), shiftByte64 x (2 * 8) (by decide),
    shiftByte64 x (1 * 8) (by decide), shiftByte64 x (0 * 8) (by decide)]
  simp [beBytes]

theorem beBytes_ofNat32 (n : Nat) : beBytes 4 (UInt32.ofNat n).toNat = beBytes 4 n := by
  rw [UInt32.toNat_ofNat']
  exact beBytes_mod 4 n

theorem beBytes_ofNat16 (n : Nat) : beBytes 2 (UInt16.ofNat n).toNat = beBytes 2 n := by
  rw [UInt16.toNat_ofNat']
  exact beBytes_mod 2 n

theorem storeWord_htonl (host : Endian) (x : UInt32) :
    storeWord host (htonl host x) = beBytes 4 x.toNat := by
  rw [storeWord, htonl, UInt32.toNat_ofNat']
  exact (host.store_mod 4 _).trans (host.store_hton 4 _)

theorem storeHalf_htons (host : Endian) (x : UInt16) :
    storeHalf host (htons host x) = beBytes 2 x.toNat := by
  rw [storeHalf, htons, UInt16.toNat_ofNat']
  exact (host.store_mod 2 _).trans (host.store_hton 2 _)

theorem serializePacket_eq (p : Packet) : serializePacket p = p.serialize := by
  cases p with
  | clientInput data => rw [serializePacket, Packet.serialize, pushWord_eq, beBytes_ofNat32]
  | clientResize rows cols => simp only [serializePacket, Packet.serialize, pushHalf_eq]
  | ping timestamp => rw [serializePacket, Packet.serialize, pushLong_eq]
  | pong timestamp => rw [serializePacket, Packet.serialize, pushLong_eq]
  | serverFrame seq data compressed =>
    rw [serializePacket, Packet.serialize, pushLong_eq, pushWord_eq, beBytes_ofNat32]
  | clientHandshake sessionKey rows cols =>
    simp only [serializePacket, Packet.serialize, pushHalf_eq, beBytes_ofNat16]

/-! ### What reaches the socket -/

/-- What reaches the socket is a first part of `bytes`, all of them when the call succeeds, and
it succeeds unless it has to give up or too few writes are made. -/
structure Sends (givesUp : WriteResult → Bool) (send : List WriteResult → Bytes × Bool)
    (bytes : Bytes) : Prop where
  first : ∀ results, (send results).1 <+: bytes
  whole : ∀ results, (send results).2 = true → (send results).1 = bytes
  succeeds : ∀ results, (∀ r ∈ results, givesUp r = false) →
    bytes.length ≤ acceptedCount results → (send results).2 = true

section Writes
variable {givesUp : WriteResult → Bool}

theorem writeAll_first (results : List WriteResult) (buf : Bytes) :
    (writeAll givesUp results buf).1 <+: buf := by
  fun_induction writeAll givesUp results buf with
  | case1 => exact List.nil_prefix
  | case2 => exact List.nil_prefix
  | case3 n results b buf rest ih =>
    have h := (List.prefix_append_right_inj ((b :: buf).take (n + 1))).2 ih
    rw [List.take_append_drop] at h
    exact h
  | case4 => exact List.nil_prefix
  | case5 r results b buf hr hg ih => exact ih

theorem writeAll_whole (results : List WriteResult) (buf : Bytes) {rest : List WriteResult}
    (h : (writeAll givesUp results buf).2 = some rest) :
    (writeAll givesUp results buf).1 = buf := by
  fun_induction writeAll givesUp results buf with
  | case1 => rfl
  | case2 => simp at h
  | case3 n results b buf tail ih => rw [ih h, List.take_append_drop]
  | case4 => simp at h
  | case5 r results b buf hr hg ih => exact ih h

/-- `k` is what the writes that follow still need. -/
theorem writeAll_succeeds (results : List WriteResult) (buf : Bytes)
    (hg : ∀ r ∈ results, givesUp r = false) (k : Nat)
    (hk : buf.length + k ≤ acceptedCount results) :
    ∃ rest, (writeAll givesUp results buf).2 = some rest ∧ (∀ r ∈ rest, givesUp r = false) ∧
      k ≤ acceptedCount rest := by
  fun_induction writeAll givesUp results buf with
  | case1 results => exact ⟨results, rfl, hg, by simpa using hk⟩
  | case2 => simp [acceptedCount] at hk
  | case3 n results b buf tail ih =>
    refine ih (fun r hr => hg r (by simp [hr])) ?_
    simp [acceptedCount] at hk ⊢
    omega
  | case4 r results b buf hr hgr => simp [hg r (by simp)] at hgr
  | case5 r results b buf hr hgr ih =>
    refine ih (fun r hr => hg r (by simp [hr])) ?_
    cases r with
    | accepted n => exact absurd rfl (hr n)
    | _ => simpa [acceptedCount] using hk

/-- The payload is written only when the whole header has been. -/
theorem writeBoth_cases (givesUp : WriteResult → Bool) (results : List WriteResult)
    (header payload : Bytes) :
    ((writeAll givesUp results header).2 = none ∧
        writeBoth givesUp results header payload =
          ((writeAll givesUp results header).1, false)) ∨
      ∃ rest, (writeAll givesUp results header).2 = some rest ∧
        writeBoth givesUp results header payload =
          (header ++ (writeAll givesUp rest payload).1,
            (writeAll givesUp rest payload).2.isSome) := by
  have hwhole := @writeAll_whole givesUp results header
  unfold writeBoth
  cases hw : writeAll givesUp results header with
  | mk out rest =>
    rw [hw] at hwhole
    cases rest with
    | none => exact .inl ⟨rfl, rfl⟩
    | some rest =>
      have hout : out = header := hwhole rfl
      exact .inr ⟨rest, rfl, by rw [hout]⟩

theorem writeBoth_sends (header payload : Bytes) :
    Sends givesUp (fun results => writeBoth givesUp results header payload)
      (header ++ payload) where
  first := by
    intro results
    cases writeBoth_cases givesUp results header payload with
    | inl h =>
      rw [h.2]
      exact (writeAll_first results header).trans (List.prefix_append _ _)
    | inr h =>
      obtain ⟨rest, -, h⟩ := h
      rw [h]
      exact (List.prefix_append_right_inj header).2 (writeAll_first rest payload)
  whole := by
    intro results hok
    cases writeBoth_cases givesUp results header payload with
    | inl h => simp [h.2] at hok
    | inr h =>
      obtain ⟨rest, -, h⟩ := h
      simp only [h] at hok ⊢
      obtain ⟨last, hlast⟩ := Option.isSome_iff_exists.1 hok
      rw [writeAll_whole rest payload hlast]
  succeeds := by
    intro results hg hk
    rw [List.length_append] at hk
    obtain ⟨rest, hrest, hg', hk'⟩ := writeAll_succeeds results header hg payload.length hk
    obtain ⟨last, hlast, -⟩ := writeAll_succeeds rest payload hg' 0 hk'
    cases writeBoth_cases givesUp results header payload with
    | inl h => simp [h.1] at hrest
    | inr h =>
      obtain ⟨rest', hrest', h⟩ := h
      obtain rfl : rest = rest' := Option.some.inj (hrest.symm.trans hrest')
      simp [h, hlast]

theorem sends_of_eq {send : List WriteResult → Bytes × Bool} {p : Packet}
    (h : ∀ results, send results = writePacketWith givesUp results p) :
    Sends givesUp send (PacketCodec.encode p) := by
  obtain rfl : send = fun results => writePacketWith givesUp results p := funext h
  exact writeBoth_sends _ _

/-- `Sends` for a call that needs `memory` before its first write. -/
theorem sends_of_malloc {send : List WriteResult → Bytes × Bool} {p : Packet}
    {memory : Option Bytes}
    (h : ∀ results, send results =
      if memory.isSome then writePacketWith givesUp results p else ([], false)) :
    memory = none ∧ (∀ results, send results = ([], false)) ∨
      Sends givesUp send (PacketCodec.encode p) := by
  cases memory with
  | none => exact .inl ⟨rfl, h⟩
  | some payload => exact .inr (sends_of_eq h)

end Writes

theorem sendPacket_eq (host : Endian) (results : List WriteResult) {payload : Bytes} {len : UInt32}
    (h : payload.length = len.toNat) :
    sendPacket host results payload len =
      writeBoth nativeGivesUp results (beBytes 4 payload.length) payload := by
  rw [sendPacket, storeWord_htonl, ← h, List.take_length]

theorem sendResize_eq (host : Endian) (mem : Memory) (results : List WriteResult)
    (rows cols : UInt16) :
    sendResize host mem results rows cols =
      writePacketWith nativeGivesUp results (.clientResize rows cols) := by
  have htag := Filled.first (mem.stack_length 5) [2] (by simp)
  have hrows := htag.write (beBytes 2 rows.toNat) (i := 1) (by simp) (by simp)
  have hcols := hrows.write (beBytes 2 cols.toNat) (i := 3) (by simp) (by simp)
  unfold sendResize
  simp only [storeHalf_htons]
  rw [hcols.eq (by simp), sendPacket_eq host results (by simp)]
  rfl

theorem sendInput_eq (host : Endian) (mem : Memory) (results : List WriteResult) {data : Bytes}
    (hdata : data.length < 2 ^ 32 - 5) :
    sendInput host mem results data =
      if (mem.malloc (5 + data.length)).isSome then
        writePacketWith nativeGivesUp results (.clientInput data)
      else ([], false) := by
  have hlen : (UInt32.ofNat data.length).toNat = data.length := by
    rw [UInt32.toNat_ofNat', Nat.mod_eq_of_lt (by omega)]
  have hsize : (1 + 4 + UInt32.ofNat data.length).toNat = 5 + data.length := by
    have hheader : (1 + 4 : UInt32).toNat = 5 := rfl
    rw [UInt32.toNat_add, hlen, hheader, Nat.mod_eq_of_lt (by omega)]
  have hsize' : (5 + UInt32.ofNat data.length).toNat = 5 + data.length := hsize
  unfold sendInput
  simp only [storeWord_htonl, hlen, hsize, List.take_length]
  cases hm : mem.malloc (5 + data.length) with
  | none => rfl
  | some payload =>
    have htag := Filled.first (mem.malloc_length _ _ hm) [1] (by simp; omega)
    have hword := htag.write (beBytes 4 data.length) (i := 1) (by simp) (by simp)
    have hall := hword.write data (i := 5) (by simp) (Nat.le_refl _)
    simp only
    rw [hall.eq (by simp; omega), sendPacket_eq host results (by rw [hsize']; simp; omega)]
    rfl

theorem strlen_key {key : Bytes} (hkey : 0 ∉ key) (junk : Bytes) :
    strlen (key ++ 0 :: junk) = key.length := by
  have hall : ∀ b ∈ key, decide (b ≠ 0) = true := by
    intro b hb
    simp only [decide_eq_true_eq]
    intro h
    exact hkey (h ▸ hb)
  rw [strlen, List.takeWhile_append_of_pos hall]
  simp

theorem sendHandshake_eq (host : Endian) (mem : Memory) (results : List WriteResult)
    {key : String} (hnul : 0 ∉ asBytes key) (hkey : (asBytes key).length < 2 ^ 16)
    (junk : Bytes) (rows cols : UInt16) :
    sendHandshake host mem results (some (asBytes key ++ 0 :: junk)) rows cols =
      if (mem.malloc (7 + (asBytes key).length)).isSome then
        writePacketWith nativeGivesUp results (.clientHandshake key rows cols)
      else ([], false) := by
  have hlen : (UInt16.ofNat (asBytes key).length).toNat = (asBytes key).length := by
    rw [UInt16.toNat_ofNat', Nat.mod_eq_of_lt hkey]
  have hsize : (1 + 2 + (UInt16.ofNat (asBytes key).length).toUInt32 + 2 + 2).toNat =
      7 + (asBytes key).length := by
    simp only [UInt32.toNat_add, UInt16.toNat_toUInt32, hlen]
    simp
    omega
  unfold sendHandshake
  simp only [strlen_key hnul, storeHalf_htons, hlen, hsize, Option.getD_some, List.take_left]
  cases hm : mem.malloc (7 + (asBytes key).length) with
  | none => rfl
  | some payload =>
    have htag := Filled.first (mem.malloc_length _ _ hm) [6] (by simp; omega)
    have hword := htag.write (beBytes 2 (asBytes key).length) (i := 1) (by simp) (by simp; omega)
    have htext := hword.write (asBytes key) (i := 3) (by simp) (by omega)
    have hrows := htext.write (beBytes 2 rows.toNat) (i := 3 + (asBytes key).length)
      (by simp; omega) (by simp; omega)
    have hcols := hrows.write (beBytes 2 cols.toNat) (i := 5 + (asBytes key).length)
      (by simp; omega) (by simp; omega)
    -- without a key nothing is copied, which is what writing an empty string does
    have hcopy : ∀ buf : Bytes, (if UInt16.ofNat (asBytes key).length > 0
        then overwrite buf 3 (asBytes key) else buf) = overwrite buf 3 (asBytes key) := by
      intro buf
      by_cases hpos : UInt16.ofNat (asBytes key).length > 0
      · rw [if_pos hpos]
      · rw [gt_iff_lt, UInt16.lt_iff_toNat_lt, hlen] at hpos
        have hnil : asBytes key = [] := List.length_eq_zero_iff.1 (by simpa using hpos)
        rw [hnil]
        simp [overwrite]
    simp only [hcopy]
    rw [hcols.eq (by simp; omega), sendPacket_eq host results (by rw [hsize]; simp; omega)]
    simp [writePacketWith, Packet.serialize]

theorem sendFramedPacket_eq (host : Endian) (results : List WriteResult) (p : Packet) :
    sendFramedPacket host results p = writePacketWith nativeGivesUp results p := by
  unfold sendFramedPacket
  simp only [serializePacket_eq, storeWord_htonl, beBytes_ofNat32]
  rfl

/-- The bytes that the clients put on the wire for a packet are those of its encoding, on
machines of either byte order and whatever fresh memory holds; without memory for a packet
the C client writes nothing. -/
theorem encoders_agree (host : Endian) (mem : Memory) :
    (∀ p, Sends rustGivesUp (fun results => writePacket results p) (PacketCodec.encode p) ∧
      Sends nativeGivesUp (fun results => sendFramedPacket host results p)
        (PacketCodec.encode p)) ∧
    (∀ data : Bytes, data.length < 2 ^ 32 - 5 →
      mem.malloc (5 + data.length) = none ∧
          (∀ results, sendInput host mem results data = ([], false)) ∨
        Sends nativeGivesUp (fun results => sendInput host mem results data)
          (PacketCodec.encode (.clientInput data))) ∧
    (∀ rows cols, Sends nativeGivesUp (fun results => sendResize host mem results rows cols)
      (PacketCodec.encode (.clientResize rows cols))) ∧
    (∀ (key : String) (junk : Bytes) (rows cols : UInt16), 0 ∉ asBytes key →
      (asBytes key).length < 2 ^ 16 →
        mem.malloc (7 + (asBytes key).length) = none ∧
            (∀ results, sendHandshake host mem results (some (asBytes key ++ 0 :: junk))
              rows cols = ([], false)) ∨
          Sends nativeGivesUp
            (fun results => sendHandshake host mem results (some (asBytes key ++ 0 :: junk))
              rows cols)
            (PacketCodec.encode (.clientHandshake key rows cols))) := by
  refine ⟨fun p => ⟨sends_of_eq fun _ => rfl, sends_of_eq fun results => ?_⟩, ?_, ?_, ?_⟩
  · exact sendFramedPacket_eq host results p
  · intro data hdata
    exact sends_of_malloc fun results => sendInput_eq host mem results hdata
  · intro rows cols
    exact sends_of_eq fun results => sendResize_eq host mem results rows cols
  · intro key junk rows cols hnul hkey
    exact sends_of_malloc fun results => sendHandshake_eq host mem results hnul hkey junk rows cols

def staleMemory : Memory where
  malloc := fun n => some (List.replicate n 0xAA)
  stack := fun n => List.replicate n 0xAA
  malloc_length := by
    intro n buf h
    rw [← Option.some.inj h, List.length_replicate]
  stack_length := fun n => List.length_replicate

/-- On a little-endian machine, with writes of at most two bytes and an interruption. -/
theorem encoders_agree_little_endian :
    (sendInput .little staleMemory (.interrupted :: List.replicate 11 (.accepted 1))
        [0x6C, 0x73]).1 = [0, 0, 0, 7, 1, 0, 0, 0, 2, 0x6C, 0x73] ∧
      (writePacket (.interrupted :: List.replicate 11 (.accepted 1))
        (.clientInput [0x6C, 0x73])).1 = [0, 0, 0, 7, 1, 0, 0, 0, 2, 0x6C, 0x73] := by
  have h := encoders_agree .little staleMemory
  have hinput := (h.2.1 [0x6C, 0x73] (by decide)).resolve_left (by simp [staleMemory])
  have hrust := (h.1 (.clientInput [0x6C, 0x73])).1
  constructor
  · exact (hinput.whole _ (hinput.succeeds _ (by decide) (by decide))).trans (by decide)
  · exact (hrust.whole _ (hrust.succeeds _ (by decide) (by decide))).trans (by decide)

end MoshTcp.Native
