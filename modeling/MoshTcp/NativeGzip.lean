import MoshTcp.GzipMember
import MoshTcp.NativeFrame

/-! The gzip unwrapping that the C and the C++ client do by hand: they walk over the header
of the member and leave the deflate stream to `puff`. Every read and every subtraction is
checked here; a client that fails one of these checks would read past its input. -/

set_option autoImplicit false

namespace MoshTcp.Native
open ByteOrder Protocol

inductive Stop where
  | outOfBounds | underflow | failed
  deriving DecidableEq, Repr

def readByte (data : Bytes) (i : Nat) : Except Stop UInt8 :=
  match data[i]? with
  | some b => .ok b
  | none => .error .outOfBounds

def subtract (n m : Nat) : Except Stop Nat :=
  if m ≤ n then .ok (n - m) else .error .underflow

/-- The `len` bytes at `offset` that are handed to `puff`. -/
def sourceAt (data : Bytes) (offset len : Nat) : Except Stop Bytes :=
  if offset + len ≤ data.length then .ok ((data.drop offset).take len) else .error .outOfBounds

/-- `data[offset] | (data[offset + 1] << 8)` as a `uint16_t`. -/
def littleWord (lo hi : UInt8) : UInt16 := lo.toUInt16 ||| hi.toUInt16 <<< 8

def skipExtra (data : Bytes) (offset : Nat) : Except Stop Nat :=
  if offset + 2 > data.length then .error .failed
  else do
    let lo ← readByte data offset
    let hi ← readByte data (offset + 1)
    return offset + (2 + (littleWord lo hi).toNat)

/-- `while (offset < len && data[offset] != 0) offset++; offset++;` -/
def skipString (data : Bytes) (offset : Nat) : Except Stop Nat :=
  if offset < data.length then do
    let b ← readByte data offset
    if b ≠ 0 then skipString data (offset + 1) else return offset + 1
  else return offset + 1
termination_by data.length - offset

/-- `if (flg & bit)`: the step over an optional field. -/
def ifSet (flg bit : UInt8) (skip : Nat → Except Stop Nat) (offset : Nat) : Except Stop Nat :=
  if flg &&& bit ≠ 0 then skip offset else .ok offset

/-- The optional fields of the header: FEXTRA, FNAME, FCOMMENT and FHCRC. -/
def skipFields (flg : UInt8) (data : Bytes) (offset : Nat) : Except Stop Nat := do
  let offset ← ifSet flg 4 (skipExtra data) offset
  let offset ← ifSet flg 8 (skipString data) offset
  let offset ← ifSet flg 16 (skipString data) offset
  ifSet flg 2 (fun offset => .ok (offset + 2)) offset

/-- `puff` with room for `outlen` bytes; `none` is a nonzero return value. -/
abbrev Puff := Nat → Bytes → Option Bytes

def Puff.run (puff : Puff) (outlen : Nat) (source : Bytes) : Except Stop Bytes :=
  match puff outlen source with
  | some out => .ok out
  | none => .error .failed

def hasMagic (data : Bytes) : Except Stop Bool := do
  let first ← readByte data 0
  if first = 0x1f then
    let second ← readByte data 1
    return second = 0x8b
  else return false

def unwrapFrame (puff : Puff) (outlen : Nat) (data : Bytes) : Except Stop Bytes :=
  if data.length < 10 then .error .failed
  else do
    if ← hasMagic data then
      let cm ← readByte data 2
      let flg ← readByte data 3
      if cm ≠ 8 then .error .failed
      else
        let offset ← skipFields flg data 10
        if offset + 8 > data.length then .error .failed
        else
          let behind ← subtract data.length offset
          let sourcelen ← subtract behind 8
          puff.run outlen (← sourceAt data offset sourcelen)
    else puff.run outlen data

def decompressBufferSize : Nat := 256 * 1024

/-- C `decompress_frame`, as `process_packet` calls it. -/
def C.decompressFrame (puff : Puff) (data : Bytes) : Except Stop Bytes :=
  unwrapFrame puff decompressBufferSize data

def Cpp.decompressFrame (puff : Puff) (data : Bytes) : Except Stop Bytes :=
  unwrapFrame puff (256 * 1024) data

/-- A result that is no failed check. -/
def Safe {α : Type} (r : Except Stop α) : Prop :=
  r ≠ .error .outOfBounds ∧ r ≠ .error .underflow

section Safe
variable {α β : Type}

theorem safe_ok (a : α) : Safe (.ok a : Except Stop α) := by
  simp [Safe]

theorem safe_failed : Safe (.error .failed : Except Stop α) := by
  simp [Safe]

theorem Safe.bind {x : Except Stop α} {f : α → Except Stop β} (hx : Safe x)
    (hf : ∀ a, x = .ok a → Safe (f a)) : Safe (x >>= f) := by
  cases x with
  | error e => simpa [Safe, Bind.bind, Except.bind] using hx
  | ok a => exact hf a rfl

end Safe

theorem readByte_eq {data : Bytes} {i : Nat} {b : UInt8} (h : data[i]? = some b) :
    readByte data i = .ok b := by
  rw [readByte, h]

theorem safe_readByte {data : Bytes} {i : Nat} (h : i < data.length) :
    Safe (readByte data i) := by
  rw [readByte_eq (List.getElem?_eq_getElem h)]
  exact safe_ok _

theorem safe_skipExtra (data : Bytes) (offset : Nat) : Safe (skipExtra data offset) := by
  unfold skipExtra
  split
  · exact safe_failed
  · refine (safe_readByte (by omega)).bind fun lo _ => ?_
    refine (safe_readByte (by omega)).bind fun hi _ => ?_
    exact safe_ok _

theorem safe_skipString (data : Bytes) (offset : Nat) : Safe (skipString data offset) := by
  fun_induction skipString data offset with
  | case1 offset h ih =>
    refine (safe_readByte h).bind fun b _ => ?_
    split
    · exact ih
    · exact safe_ok _
  | case2 offset h => exact safe_ok _

theorem safe_ifSet {skip : Nat → Except Stop Nat} (h : ∀ offset, Safe (skip offset))
    (flg bit : UInt8) (offset : Nat) : Safe (ifSet flg bit skip offset) := by
  unfold ifSet
  split
  · exact h offset
  · exact safe_ok _

theorem safe_skipFields (flg : UInt8) (data : Bytes) (offset : Nat) :
    Safe (skipFields flg data offset) := by
  refine (safe_ifSet (safe_skipExtra data) flg 4 offset).bind fun named _ => ?_
  refine (safe_ifSet (safe_skipString data) flg 8 named).bind fun commented _ => ?_
  refine (safe_ifSet (safe_skipString data) flg 16 commented).bind fun last _ => ?_
  exact safe_ifSet (fun offset => safe_ok (offset + 2)) flg 2 last

theorem safe_run (puff : Puff) (outlen : Nat) (source : Bytes) :
    Safe (puff.run outlen source) := by
  unfold Puff.run
  split
  · exact safe_ok _
  · exact safe_failed

theorem safe_hasMagic {data : Bytes} (h : 2 ≤ data.length) : Safe (hasMagic data) := by
  refine (safe_readByte (by omega)).bind fun first _ => ?_
  split
  · exact (safe_readByte (by omega)).bind fun second _ => safe_ok _
  · exact safe_ok _

theorem subtract_eq {n m : Nat} (h : m ≤ n) : subtract n m = .ok (n - m) := if_pos h

theorem sourceAt_eq {data : Bytes} {offset len : Nat} (h : offset + len ≤ data.length) :
    sourceAt data offset len = .ok ((data.drop offset).take len) := if_pos h

theorem safe_unwrapFrame (puff : Puff) (outlen : Nat) (data : Bytes) :
    Safe (unwrapFrame puff outlen data) := by
  unfold unwrapFrame
  split
  · exact safe_failed
  · refine (safe_hasMagic (by omega)).bind fun magic _ => ?_
    split
    · refine (safe_readByte (by omega)).bind fun cm _ => ?_
      refine (safe_readByte (by omega)).bind fun flg _ => ?_
      split
      · exact safe_failed
      · refine (safe_skipFields flg data 10).bind fun offset _ => ?_
        split
        · exact safe_failed
        · rw [subtract_eq (show offset ≤ data.length by omega)]
          refine (safe_ok _).bind fun behind hbehind => ?_
          obtain rfl := Except.ok.inj hbehind
          rw [subtract_eq (by omega)]
          refine (safe_ok _).bind fun sourcelen hsource => ?_
          obtain rfl := Except.ok.inj hsource
          rw [sourceAt_eq (by omega)]
          exact (safe_ok _).bind fun source _ => safe_run puff outlen source
    · exact safe_run puff outlen data

/-! ### Members -/

/-- `puff` decodes a deflate stream that has room, whatever follows it. -/
def Puff.Inflates (puff : Puff) (inflate : Bytes → Option Bytes) : Prop :=
  ∀ outlen body rest out, inflate body = some out → out.length ≤ outlen →
    puff outlen (body ++ rest) = some out

section Walk
variable {data rest : Bytes} {offset : Nat}

theorem littleWord_toNat (lo hi : UInt8) :
    (littleWord lo hi).toNat = lo.toNat + 256 * hi.toNat := by
  have hlo := lo.toNat_lt
  have hhi := hi.toNat_lt
  have hshift : hi.toNat <<< 8 % 2 ^ 16 = 2 ^ 8 * hi.toNat := by
    rw [Nat.shiftLeft_eq]
    omega
  simp only [littleWord, UInt16.toNat_or, UInt16.toNat_shiftLeft, UInt8.toNat_toUInt16]
  change lo.toNat ||| hi.toNat <<< 8 % 2 ^ 16 = _
  rw [hshift, Nat.lor_comm, ← Nat.two_pow_add_eq_or_of_lt (by omega)]
  omega

theorem littleWord_store {n : Nat} (h : n < 2 ^ 16) : ∃ lo hi,
    Endian.little.store 2 n = [lo, hi] ∧ (littleWord lo hi).toNat = n := by
  refine ⟨UInt8.ofNat (n / 256 ^ 0), UInt8.ofNat (n / 256 ^ 1), rfl, ?_⟩
  rw [littleWord_toNat, UInt8.toNat_ofNat', UInt8.toNat_ofNat']
  omega

theorem readByte_drop {b : UInt8} (h : data.drop offset = b :: rest) :
    readByte data offset = .ok b := by
  refine readByte_eq ?_
  rw [← List.head?_drop, h]
  rfl

theorem drop_next {b : UInt8} (h : data.drop offset = b :: rest) :
    data.drop (offset + 1) = rest ∧ offset < data.length := by
  have hlength := congrArg List.length h
  rw [List.length_drop, List.length_cons] at hlength
  refine ⟨?_, by omega⟩
  rw [← List.drop_drop, h]
  rfl

theorem skipExtra_field {extra : Bytes} (hlen : extra.length < 2 ^ 16)
    (h : data.drop offset = extraField extra ++ rest) :
    skipExtra data offset = .ok (offset + (extraField extra).length) := by
  obtain ⟨lo, hi, hstore, hword⟩ := littleWord_store hlen
  have hfirst : data.drop offset = lo :: hi :: (extra ++ rest) := by
    rw [h, extraField, hstore]
    rfl
  obtain ⟨hsecond, -⟩ := drop_next hfirst
  have hroom := (drop_next hsecond).2
  have hsize : (extraField extra).length = 2 + extra.length := by
    rw [extraField, hstore, List.length_append]
    rfl
  rw [skipExtra, if_neg (by omega), readByte_drop hfirst, readByte_drop hsecond, hsize, ← hword]
  rfl

theorem skipString_field {text : Bytes} (htext : 0 ∉ text)
    (h : data.drop offset = stringField text ++ rest) :
    skipString data offset = .ok (offset + (stringField text).length) := by
  induction text generalizing offset with
  | nil =>
    have hzero : data.drop offset = 0 :: rest := h
    rw [skipString, if_pos (drop_next hzero).2, readByte_drop hzero]
    rfl
  | cons b text ih =>
    have hb : b ≠ 0 := fun hb => htext (hb ▸ List.mem_cons_self)
    have hfirst : data.drop offset = b :: (stringField text ++ rest) := h
    obtain ⟨hnext, hroom⟩ := drop_next hfirst
    have hrest := ih (fun hmem => htext (List.mem_cons_of_mem b hmem)) hnext
    rw [skipString, if_pos hroom, readByte_drop hfirst]
    have hsize : (stringField (b :: text)).length = 1 + (stringField text).length := by
      rw [stringField, stringField, List.cons_append, List.length_cons, Nat.add_comm]
    rw [hsize, ← Nat.add_assoc, ← hrest]
    exact if_pos hb

/-- Over an optional field, whether it is there or not. -/
theorem ifSet_field {flg bit : UInt8} {skip : Nat → Except Stop Nat} {enc : Bytes → Bytes}
    {field : Option Bytes} (hset : flg &&& bit ≠ 0 ↔ field.isSome)
    (hskip : ∀ x ∈ field, skip offset = .ok (offset + (enc x).length)) :
    ifSet flg bit skip offset = .ok (offset + (optional enc field).length) := by
  cases field with
  | none =>
    rw [ifSet, if_neg (by simpa using hset)]
    rfl
  | some x =>
    rw [ifSet, if_pos (hset.2 rfl)]
    exact hskip x rfl

theorem drop_field {field : Bytes} (h : data.drop offset = field ++ rest) :
    data.drop (offset + field.length) = rest := by
  rw [← List.drop_drop, h, List.drop_left]

theorem skipExtra_optional {flg : UInt8} {extra : Option Bytes}
    (hset : flg &&& 4 ≠ 0 ↔ extra.isSome) (hlen : ∀ x ∈ extra, x.length < 2 ^ 16)
    (h : data.drop offset = optional extraField extra ++ rest) :
    ifSet flg 4 (skipExtra data) offset =
      .ok (offset + (optional extraField extra).length) := by
  refine ifSet_field hset fun x hx => ?_
  rw [hx] at h
  exact skipExtra_field (hlen x hx) h

theorem skipString_optional {flg bit : UInt8} {text : Option Bytes}
    (hset : flg &&& bit ≠ 0 ↔ text.isSome) (htext : ∀ x ∈ text, 0 ∉ x)
    (h : data.drop offset = optional stringField text ++ rest) :
    ifSet flg bit (skipString data) offset =
      .ok (offset + (optional stringField text).length) := by
  refine ifSet_field hset fun x hx => ?_
  rw [hx] at h
  exact skipString_field (htext x hx) h

theorem skipCrc16_optional {flg : UInt8} {crc16 : Option Bytes}
    (hset : flg &&& 2 ≠ 0 ↔ crc16.isSome) (hlen : ∀ x ∈ crc16, x.length = 2) (offset : Nat) :
    ifSet flg 2 (fun offset => .ok (offset + 2)) offset =
      .ok (offset + (optional id crc16).length) := by
  refine ifSet_field hset fun x hx => ?_
  rw [id, hlen x hx]

theorem skipFields_header (header : Header) (h : data.drop offset = header.fields ++ rest) :
    skipFields header.flags data offset = .ok (offset + header.fields.length) := by
  simp only [Header.fields, List.append_assoc] at h
  have hextra := skipExtra_optional header.extra_flag header.extra_length h
  have hname := skipString_optional header.name_flag header.name_text (drop_field h)
  have hcomment := skipString_optional header.comment_flag header.comment_text
    (drop_field (drop_field h))
  simp only [skipFields, hextra, hname, hcomment, Bind.bind, Except.bind]
  rw [skipCrc16_optional header.crc16_flag header.crc16_length]
  simp only [Header.fields, List.length_append, Nat.add_assoc]

end Walk

/-- The source handed to `puff` is the deflate stream and what follows it, less eight bytes. -/
theorem take_source {body after : Bytes} (h : 8 ≤ after.length) :
    (body ++ after).take ((body ++ after).length - 8) =
      body ++ after.take (after.length - 8) := by
  rw [List.length_append, Nat.add_sub_assoc h, List.take_length_add_append]

theorem unwrapFrame_eq (puff : Puff) (outlen : Nat) {data : Bytes} {flg : UInt8} {offset : Nat}
    (hmagic : hasMagic data = .ok true) (hcm : readByte data 2 = .ok 8)
    (hflg : readByte data 3 = .ok flg) (hten : 10 ≤ offset)
    (hskip : skipFields flg data 10 = .ok offset) (hroom : offset + 8 ≤ data.length) :
    unwrapFrame puff outlen data =
      puff.run outlen ((data.drop offset).take (data.length - offset - 8)) := by
  rw [unwrapFrame, if_neg (by omega)]
  simp only [hmagic, hcm, hflg, hskip, Bind.bind, Except.bind, if_true]
  rw [if_neg (by decide), if_neg (by omega), subtract_eq (by omega)]
  simp only
  rw [subtract_eq (by omega)]
  simp only
  rw [sourceAt_eq (by omega)]

/-- A member is unwrapped to what its stream decodes to. -/
theorem unwrapFrame_member {puff : Puff} {inflate : Bytes → Option Bytes}
    (hpuff : puff.Inflates inflate) {outlen : Nat} {data out : Bytes}
    (hlen : out.length ≤ outlen) (hmember : Member inflate data out) :
    unwrapFrame puff outlen data = .ok out := by
  obtain ⟨header, body, tail, hdata, hbody⟩ := hmember
  have hstart : data = 0x1f :: 0x8b :: 8 :: header.flags :: (header.info ++
      (header.fields ++ (body ++ (trailer out ++ tail)))) := by
    rw [hdata, Header.bytes]
    simp
  have hfields : data.drop 10 = header.fields ++ (body ++ (trailer out ++ tail)) := by
    rw [hstart]
    exact List.drop_left' header.info_length
  have hskip := skipFields_header header hfields
  have hroom : 8 ≤ (trailer out ++ tail).length := by
    rw [List.length_append, trailer_length]
    omega
  obtain ⟨offset, hoffset⟩ : ∃ offset, offset = 10 + header.fields.length := ⟨_, rfl⟩
  rw [← hoffset] at hskip
  have hrest : data.drop offset = body ++ (trailer out ++ tail) := hoffset ▸ drop_field hfields
  have hlength := congrArg List.length hrest
  rw [List.length_drop, List.length_append] at hlength
  have hsource : (data.drop offset).take (data.length - offset - 8) =
      body ++ (trailer out ++ tail).take ((trailer out ++ tail).length - 8) := by
    rw [← take_source hroom, ← hrest, List.length_drop]
  have hmagic : hasMagic data = .ok true := by
    rw [hstart]
    rfl
  have hcm : readByte data 2 = .ok 8 := by
    rw [hstart]
    rfl
  have hflg : readByte data 3 = .ok header.flags := by
    rw [hstart]
    rfl
  rw [unwrapFrame_eq puff outlen hmagic hcm hflg (by omega) hskip (by omega), hsource, Puff.run,
    hpuff outlen body _ out hbody hlen]

/-- The clients unwrap what the Rust decoder accepts and their buffer holds to the same bytes,
and no input at all makes them read outside of it or wrap a length around. -/
theorem decompressFrame_agrees (puff : Puff) :
    (∀ data, Safe (C.decompressFrame puff data) ∧ Safe (Cpp.decompressFrame puff data)) ∧
    ∀ (gz : Gzip) (inflate : Bytes → Option Bytes), ReadsMembers gz inflate →
      puff.Inflates inflate → ∀ data out, decompressData gz data true = some out →
        out.length ≤ 262144 →
        C.decompressFrame puff data = .ok out ∧ Cpp.decompressFrame puff data = .ok out := by
  constructor
  · intro data
    exact ⟨safe_unwrapFrame puff _ data, safe_unwrapFrame puff _ data⟩
  · intro gz inflate hgz hpuff data out hdecode hlen
    have hmember := hgz data out hdecode
    exact ⟨unwrapFrame_member hpuff hlen hmember, unwrapFrame_member hpuff hlen hmember⟩

/-! A member with every optional field, whose stream is one stored block. -/

/-- `n` stored bytes as the last block, in front of `rest`. -/
def storedLength : Bytes → Option (Nat × Bytes)
  | 1 :: lo :: hi :: nlo :: nhi :: rest =>
    if nlo = ~~~lo ∧ nhi = ~~~hi then some ((littleWord lo hi).toNat, rest) else none
  | _ => none

def inflateStored (body : Bytes) : Option Bytes :=
  match storedLength body with
  | some (n, rest) => if rest.length = n then some rest else none
  | none => none

def puffStored : Puff := fun outlen source =>
  match storedLength source with
  | some (n, rest) => if n ≤ rest.length ∧ n ≤ outlen then some (rest.take n) else none
  | none => none

theorem storedLength_append {body rest : Bytes} {n : Nat} (h : storedLength body = some (n, rest))
    (more : Bytes) : storedLength (body ++ more) = some (n, rest ++ more) := by
  unfold storedLength at h
  split at h
  · rename_i lo hi nlo nhi tail
    split at h
    · rename_i hcheck
      simp only [Option.some.injEq, Prod.mk.injEq] at h
      simp [storedLength, hcheck, h]
    · simp at h
  · simp at h

theorem puffStored_inflates : puffStored.Inflates inflateStored := by
  intro outlen body rest out hbody hlen
  unfold inflateStored at hbody
  split at hbody
  · rename_i n stored hstored
    split at hbody
    · rename_i hn
      obtain rfl := Option.some.inj hbody
      simp only [puffStored, storedLength_append hstored]
      rw [if_pos, ← hn, List.take_left]
      rw [List.length_append]
      omega
    · simp at hbody
  · simp at hbody

def fullHeader : Header where
  flags := 0x1f
  info := [0, 0, 0, 0, 0, 3]
  extra := some [0xAB, 0xCD]
  name := some [0x61]
  comment := some [0x62]
  crc16 := some [0xEE, 0x44]
  info_length := rfl
  extra_flag := by decide
  name_flag := by decide
  comment_flag := by decide
  crc16_flag := by decide
  extra_length := by simp
  name_text := by simp
  comment_text := by simp
  crc16_length := by simp

def storedMember : Bytes := fullHeader.bytes ++
  ([1, 2, 0, 0xFD, 0xFF, 0x68, 0x69] ++ (trailer [0x68, 0x69] ++ [0x21, 0x21]))

def storedGzip : Gzip where
  encode := fun _ => none
  decode := fun data => if data = storedMember then some [0x68, 0x69] else none

theorem storedGzip_readsMembers : ReadsMembers storedGzip inflateStored := by
  intro data out h
  simp only [storedGzip, Option.ite_none_right_eq_some, Option.some.injEq] at h
  obtain ⟨rfl, rfl⟩ := h
  exact ⟨fullHeader, _, _, rfl, by decide⟩

theorem decompressFrame_agrees_stored :
    C.decompressFrame puffStored storedMember = .ok [0x68, 0x69] ∧
      Cpp.decompressFrame puffStored storedMember = .ok [0x68, 0x69] :=
  (decompressFrame_agrees puffStored).2 storedGzip inflateStored storedGzip_readsMembers
    puffStored_inflates storedMember [0x68, 0x69] (by simp [decompressData, storedGzip]) (by decide)

end MoshTcp.Native
