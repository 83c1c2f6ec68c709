import MoshTcp.NativeGzip
import MoshTcp.PuffBlocks

/-! The frame decompression of the C and the C++ client with the `puff` they are linked with:
which members they accept, and what they make of them. -/

set_option autoImplicit false

namespace MoshTcp.Native
open ByteOrder BitStreams Deflate

/-- `puff` as `decompress_frame` calls it: any nonzero value is a failure, and what it wrote
before is dropped. -/
def linkedPuff : Puff := fun outlen source =>
  match Puff.puff outlen source with
  | some r => if r.err = 0 then some r.dest else none
  | none => none

theorem linkedPuff_eq_some {outlen : Nat} {source out : Bytes} :
    linkedPuff outlen source = some out ↔
      out.length ≤ outlen ∧ ∃ size, Nonempty (Stream (bitsOf source) size out) := by
  constructor
  · intro h
    rw [linkedPuff] at h
    split at h
    · rename_i r hpuff
      obtain ⟨herr, hdest⟩ := Option.ite_none_right_eq_some.1 h
      obtain ⟨err, dest, n⟩ := r
      obtain rfl : err = 0 := herr
      obtain rfl : dest = out := Option.some.inj hdest
      obtain ⟨size, hstream, hroom, -⟩ := Puff.stream_of_puff hpuff
      exact ⟨hroom, size, hstream⟩
    · cases h
  · rintro ⟨hroom, size, ⟨stream⟩⟩
    rw [linkedPuff, Puff.puff_of_stream stream hroom]
    rfl

theorem run_ok {puff : Puff} {outlen : Nat} {source out : Bytes} :
    puff.run outlen source = .ok out ↔ puff outlen source = some out := by
  rw [Puff.run]
  split <;> simp_all

/-- Behind a header that is walked to its end. -/
theorem unwrapFrame_header (puff : Puff) (outlen : Nat) (header : Header) (after : Bytes) :
    unwrapFrame puff outlen (header.bytes ++ after) =
      if after.length < 8 then .error .failed
      else puff.run outlen (after.take (after.length - 8)) := by
  obtain ⟨data, hdata⟩ : ∃ data, data = header.bytes ++ after := ⟨_, rfl⟩
  have hstart : data = 0x1f :: 0x8b :: 8 :: header.flags ::
      (header.info ++ (header.fields ++ after)) := by
    rw [hdata, Header.bytes]
    simp
  have hfields : data.drop 10 = header.fields ++ after := by
    rw [hstart]
    exact List.drop_left' header.info_length
  have hskip := skipFields_header header hfields
  have hrest := drop_field hfields
  have hlength := congrArg List.length hrest
  rw [List.length_drop] at hlength
  have hten : 10 + header.fields.length ≤ data.length := by
    rw [hstart]
    simp only [List.length_cons, List.length_append, header.info_length]
    omega
  have hmagic : hasMagic data = .ok true := by
    rw [hstart]
    rfl
  have hcm : readByte data 2 = .ok 8 := by
    rw [hstart]
    rfl
  have hflg : readByte data 3 = .ok header.flags := by
    rw [hstart]
    rfl
  rw [← hdata]
  by_cases hshort : after.length < 8
  · rw [if_pos hshort, unwrapFrame, if_neg (by omega)]
    simp only [hmagic, hcm, hflg, hskip, Bind.bind, Except.bind, if_true]
    rw [if_neg (by decide), if_pos (by omega)]
  · rw [if_neg hshort, unwrapFrame_eq puff outlen hmagic hcm hflg (by omega) hskip (by omega),
      hrest, ← hlength]

theorem unwrapFrame_ok_iff (outlen : Nat) (header : Header) (after out : Bytes) :
    unwrapFrame linkedPuff outlen (header.bytes ++ after) = .ok out ↔
      8 ≤ after.length ∧ out.length ≤ outlen ∧
        ∃ size, Nonempty (Stream (bitsOf (after.take (after.length - 8))) size out) := by
  rw [unwrapFrame_header]
  split
  · rename_i hshort
    refine iff_of_false (by simp) fun h => ?_
    omega
  · rename_i hlong
    rw [run_ok, linkedPuff_eq_some]
    exact ⟨fun h => ⟨Nat.le_of_not_lt hlong, h⟩, fun h => h.2⟩

/-- Behind any member header both clients accept the streams that stand for at most 256 KiB,
and nothing else; the eight bytes at the end are skipped without a look at them. -/
theorem decompressFrame_iff_stream (header : Header) (after out : Bytes) :
    (C.decompressFrame linkedPuff (header.bytes ++ after) = .ok out ↔
      8 ≤ after.length ∧ out.length ≤ 262144 ∧
        ∃ size, Nonempty (Stream (bitsOf (after.take (after.length - 8))) size out)) ∧
    (Cpp.decompressFrame linkedPuff (header.bytes ++ after) = .ok out ↔
      8 ≤ after.length ∧ out.length ≤ 262144 ∧
        ∃ size, Nonempty (Stream (bitsOf (after.take (after.length - 8))) size out)) :=
  ⟨unwrapFrame_ok_iff _ header after out, unwrapFrame_ok_iff _ header after out⟩

end MoshTcp.Native
