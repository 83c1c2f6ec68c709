import MoshTcp.Codec

/-! The packet-extraction loop that clients/c/mosh_tcp_client.c and
clients/cpp/mosh_tcp_client.cpp share, with the widths of their code: the length and
`4 + pkt_len` are 32-bit, `offset` and `net_buf_len` are 64-bit, and all of it wraps. -/

set_option autoImplicit false

namespace MoshTcp.Native
open ByteOrder Protocol

def bufferSize : Nat := 65536

def lengthAt (buf : Bytes) (i : Nat) : UInt32 :=
  shiftWord (buf.getD i 0) (buf.getD (i + 1) 0) (buf.getD (i + 2) 0) (buf.getD (i + 3) 0)

/-- One round of the loop: `none` leaves it, otherwise a packet of the given length at
`offset + 4` is handed on and the loop goes on at the new offset. -/
def extractStep (netBuf : Bytes) (netBufLen offset : UInt64) : Option (UInt32 × UInt64) :=
  if netBufLen - offset ≥ 4 then
    let pktLen := lengthAt netBuf offset.toNat
    if netBufLen - offset < (4 + pktLen).toUInt64 then none
    else some (pktLen, offset + (4 + pktLen).toUInt64)
  else none

structure Extracted where
  handedOn : List (UInt64 × UInt32)
  finished : Option UInt64
  deriving DecidableEq, Repr

/-- The first `fuel` rounds. `finished` is the offset at which the loop was left. -/
def extractLoop (netBuf : Bytes) (netBufLen : UInt64) : Nat → UInt64 → Extracted
  | 0, _ => ⟨[], none⟩
  | fuel + 1, offset =>
    match extractStep netBuf netBufLen offset with
    | none => ⟨[], some offset⟩
    | some (pktLen, next) =>
      let e := extractLoop netBuf netBufLen fuel next
      ⟨(offset, pktLen) :: e.handedOn, e.finished⟩

/-- The loop ends, and every packet it hands on at any time lies inside the bytes
received, as does every offset it reaches. -/
structure LoopSafe (netBuf : Bytes) (netBufLen : UInt64) : Prop where
  terminates : ∃ fuel, (extractLoop netBuf netBufLen fuel 0).finished.isSome
  inside : ∀ fuel, ∀ h ∈ (extractLoop netBuf netBufLen fuel 0).handedOn,
    h.1.toNat + 4 + h.2.toNat ≤ netBufLen.toNat
  offsets : ∀ fuel, (∀ h ∈ (extractLoop netBuf netBufLen fuel 0).handedOn,
      h.1.toNat ≤ netBufLen.toNat) ∧
    ∀ offset ∈ (extractLoop netBuf netBufLen fuel 0).finished, offset.toNat ≤ netBufLen.toNat

def frame (payload : Bytes) : Bytes := beBytes 4 payload.length ++ payload

theorem frame_length (payload : Bytes) : (frame payload).length = 4 + payload.length := by
  simp [frame]

theorem frame_word {payload : Bytes} (hp : payload.length < 2 ^ 32) (tail : Bytes) :
    beNat ((frame payload ++ tail).take 4) = payload.length := by
  rw [frame, List.append_assoc, List.take_left' (beBytes_length 4 _), beNat_beBytes_word hp]

/-- After whole frames, no length word within four of the 32-bit bound follows. -/
def LengthsBelowWrap (received : Bytes) : Prop :=
  ∀ (payloads : List Bytes) (rest : Bytes), received = payloads.flatMap frame ++ rest →
    4 ≤ rest.length → beNat (rest.take 4) < 2 ^ 32 - 4

theorem lengthAt_toNat {buf : Bytes} {i : Nat} (h : i + 4 ≤ buf.length) :
    (lengthAt buf i).toNat = beNat ((buf.drop i).take 4) := by
  rw [lengthAt, shiftWord_toNat]
  congr 1
  apply List.ext_getElem
  · simp only [List.length_cons, List.length_nil, List.length_take, List.length_drop]; omega
  · intro j hj _
    simp only [List.length_cons, List.length_nil] at hj
    have hj' : j = 0 ∨ j = 1 ∨ j = 2 ∨ j = 3 := by omega
    rcases hj' with rfl | rfl | rfl | rfl <;> simp [List.getD_eq_getElem?_getD] <;>
      rw [List.getElem?_eq_getElem (by omega)] <;> rfl

theorem four_add_toNat (l : UInt32) :
    (4 + l).toUInt64.toNat = (4 + l.toNat) % 2 ^ 32 := by simp

def pending (netBuf : Bytes) (netBufLen offset : UInt64) : Bytes :=
  (netBuf.take netBufLen.toNat).drop offset.toNat

section Step

variable {netBuf : Bytes} {netBufLen offset : UInt64}
  (hbuf : netBuf.length = bufferSize) (hlen : netBufLen.toNat ≤ bufferSize)
  (hoff : offset.toNat ≤ netBufLen.toNat)

include hbuf hlen in
theorem pending_length (offset : UInt64) :
    (pending netBuf netBufLen offset).length = netBufLen.toNat - offset.toNat := by
  rw [pending, List.length_drop, List.length_take]
  omega

include hbuf hlen in
theorem lengthAt_pending (h4 : 4 ≤ (pending netBuf netBufLen offset).length) :
    (lengthAt netBuf offset.toNat).toNat =
      beNat ((pending netBuf netBufLen offset).take 4) := by
  have hp := pending_length hbuf hlen offset
  rw [lengthAt_toNat (by omega), pending, List.drop_take, List.take_take,
    Nat.min_eq_left (by omega)]

include hoff in
theorem remaining_toNat : (netBufLen - offset).toNat = netBufLen.toNat - offset.toNat :=
  UInt64.toNat_sub_of_le _ _ (UInt64.le_iff_toNat_le.mpr hoff)

include hbuf hlen hoff

theorem extractStep_short (h4 : (pending netBuf netBufLen offset).length < 4) :
    extractStep netBuf netBufLen offset = none := by
  have hp := pending_length hbuf hlen offset
  have hr := remaining_toNat hoff
  have hlt : ¬ netBufLen - offset ≥ 4 := by
    rw [ge_iff_le, UInt64.le_iff_toNat_le, hr]
    simp only [UInt64.reduceToNat]
    omega
  rw [extractStep, if_neg hlt]

theorem extractStep_long (h4 : 4 ≤ (pending netBuf netBufLen offset).length) (n : Nat)
    (hn : n = beNat ((pending netBuf netBufLen offset).take 4)) :
    ((pending netBuf netBufLen offset).length < (4 + n) % 2 ^ 32 ∧
        extractStep netBuf netBufLen offset = none) ∨
      (((4 + n) % 2 ^ 32 ≤ (pending netBuf netBufLen offset).length) ∧
        ∃ pktLen next, extractStep netBuf netBufLen offset = some (pktLen, next) ∧
          pktLen.toNat = n ∧ next.toNat = offset.toNat + (4 + n) % 2 ^ 32) := by
  have hp := pending_length hbuf hlen offset
  have hr := remaining_toNat hoff
  have hl := lengthAt_pending hbuf hlen h4
  rw [← hn] at hl
  have hadd := four_add_toNat (lengthAt netBuf offset.toNat)
  rw [hl] at hadd
  have hge : netBufLen - offset ≥ 4 := by
    rw [ge_iff_le, UInt64.le_iff_toNat_le, hr]
    simp only [UInt64.reduceToNat]
    omega
  simp only [extractStep, if_pos hge]
  by_cases hlt : netBufLen.toNat - offset.toNat < (4 + n) % 2 ^ 32
  · refine .inl ⟨by omega, if_pos ?_⟩
    rw [UInt64.lt_iff_toNat_lt, hr, hadd]
    exact hlt
  · refine .inr ⟨by omega, lengthAt netBuf offset.toNat, _, if_neg ?_, hl, ?_⟩
    · rw [UInt64.lt_iff_toNat_lt, hr, hadd]
      exact hlt
    · have hsize : bufferSize = 65536 := rfl
      rw [UInt64.toNat_add, hadd, Nat.mod_eq_of_lt]
      omega

end Step

theorem pending_next {netBuf : Bytes} {netBufLen offset next : UInt64} {k : Nat}
    (h : next.toNat = offset.toNat + k) :
    pending netBuf netBufLen next = (pending netBuf netBufLen offset).drop k := by
  rw [pending, pending, List.drop_drop, h]

theorem frame_of_length {bs : Bytes} {n : Nat} (hn : n = beNat (bs.take 4)) (h4 : 4 ≤ bs.length)
    (hl : 4 + n ≤ bs.length) :
    bs = frame ((bs.drop 4).take n) ++ bs.drop (4 + n) := by
  have hp : ((bs.drop 4).take n).length = n := by
    rw [List.length_take, List.length_drop]; omega
  have hw := beBytes_beNat (bs.take 4)
  rw [List.length_take, Nat.min_eq_left h4, ← hn] at hw
  rw [frame, hp, hw, List.append_assoc, ← List.drop_drop, List.take_append_drop,
    List.take_append_drop]

theorem LengthsBelowWrap.tail {payload rest : Bytes}
    (h : LengthsBelowWrap (frame payload ++ rest)) : LengthsBelowWrap rest := by
  intro payloads rest' hr
  exact h (payload :: payloads) rest' (by rw [hr, List.flatMap_cons, List.append_assoc])

theorem extractLoop_none {netBuf : Bytes} {netBufLen offset : UInt64} (fuel : Nat)
    (h : extractStep netBuf netBufLen offset = none) :
    extractLoop netBuf netBufLen (fuel + 1) offset = ⟨[], some offset⟩ := by
  rw [extractLoop, h]

theorem extractLoop_some {netBuf : Bytes} {netBufLen offset next : UInt64} {pktLen : UInt32}
    (fuel : Nat) (h : extractStep netBuf netBufLen offset = some (pktLen, next)) :
    extractLoop netBuf netBufLen (fuel + 1) offset =
      ⟨(offset, pktLen) :: (extractLoop netBuf netBufLen fuel next).handedOn,
        (extractLoop netBuf netBufLen fuel next).finished⟩ := by
  rw [extractLoop, h]

/-- What a round does when no length can wrap: the loop is left, or the next whole
frame is handed on. -/
theorem extractStep_sane {netBuf : Bytes} {netBufLen offset : UInt64}
    (hbuf : netBuf.length = bufferSize) (hlen : netBufLen.toNat ≤ bufferSize)
    (hoff : offset.toNat ≤ netBufLen.toNat)
    (hsane : LengthsBelowWrap (pending netBuf netBufLen offset)) :
    extractStep netBuf netBufLen offset = none ∨
      ∃ pktLen next, extractStep netBuf netBufLen offset = some (pktLen, next) ∧
        next.toNat = offset.toNat + (4 + pktLen.toNat) ∧
        next.toNat ≤ netBufLen.toNat ∧
        LengthsBelowWrap (pending netBuf netBufLen next) := by
  have hp := pending_length hbuf hlen offset
  by_cases h4 : (pending netBuf netBufLen offset).length < 4
  · exact .inl (extractStep_short hbuf hlen hoff h4)
  · have hlt := hsane [] (pending netBuf netBufLen offset) (by simp) (Nat.not_lt.mp h4)
    rcases extractStep_long hbuf hlen hoff (Nat.not_lt.mp h4) _ rfl with
      ⟨-, hnone⟩ | ⟨hle, pktLen, next, hsome, hpkt, hnext⟩
    · exact .inl hnone
    · rw [Nat.mod_eq_of_lt (by omega)] at hle hnext
      have hframe := frame_of_length rfl (Nat.not_lt.mp h4) hle
      refine .inr ⟨pktLen, next, hsome, by rw [hpkt]; exact hnext, by omega, ?_⟩
      rw [pending_next hnext]
      rw [hframe] at hsane
      exact hsane.tail

theorem extractLoop_sane {netBuf : Bytes} {netBufLen : UInt64}
    (hbuf : netBuf.length = bufferSize) (hlen : netBufLen.toNat ≤ bufferSize)
    (fuel : Nat) (offset : UInt64) (hoff : offset.toNat ≤ netBufLen.toNat)
    (hsane : LengthsBelowWrap (pending netBuf netBufLen offset)) :
    (∀ h ∈ (extractLoop netBuf netBufLen fuel offset).handedOn,
        h.1.toNat + 4 + h.2.toNat ≤ netBufLen.toNat) ∧
      (∀ o ∈ (extractLoop netBuf netBufLen fuel offset).finished,
        o.toNat ≤ netBufLen.toNat) ∧
      (netBufLen.toNat - offset.toNat < fuel →
        (extractLoop netBuf netBufLen fuel offset).finished.isSome) := by
  induction fuel generalizing offset with
  | zero => simp [extractLoop]
  | succ fuel ih =>
    rcases extractStep_sane hbuf hlen hoff hsane with h | ⟨pktLen, next, h, hnext, hle, hs⟩
    · rw [extractLoop_none fuel h]
      refine ⟨by simp, fun o ho => ?_, by simp⟩
      rw [← Option.some.inj ho]
      exact hoff
    · obtain ⟨hin, hfin, hend⟩ := ih next hle hs
      rw [extractLoop_some fuel h]
      refine ⟨fun x hx => ?_, hfin, fun hf => hend (by omega)⟩
      rcases List.mem_cons.mp hx with rfl | hx
      · simp only; omega
      · exact hin x hx

theorem extractLoop_wraps {netBuf : Bytes} {netBufLen : UInt64}
    (hbuf : netBuf.length = bufferSize) (hlen : netBufLen.toNat ≤ bufferSize)
    (payloads : List Bytes) (rest : Bytes) (offset : UInt64)
    (hoff : offset.toNat ≤ netBufLen.toNat)
    (hr : pending netBuf netBufLen offset = payloads.flatMap frame ++ rest)
    (h4 : 4 ≤ rest.length) (hwrap : 2 ^ 32 - 4 ≤ beNat (rest.take 4)) :
    ∃ fuel, ∃ h ∈ (extractLoop netBuf netBufLen fuel offset).handedOn,
      2 ^ 32 - 4 ≤ h.2.toNat := by
  have hp := pending_length hbuf hlen offset
  have hsize : bufferSize = 65536 := rfl
  induction payloads generalizing offset with
  | nil =>
    rw [List.flatMap_nil, List.nil_append] at hr
    have hlt : beNat (rest.take 4) < 2 ^ 32 := beNat_lt_word (by rw [List.length_take]; omega)
    rcases extractStep_long hbuf hlen hoff (by rw [hr]; exact h4) _ rfl with
      ⟨hle, -⟩ | ⟨-, pktLen, next, hsome, hpkt, -⟩
    · rw [hr] at hle
      omega
    · refine ⟨1, (offset, pktLen), ?_, by simp only [hpkt, hr]; exact hwrap⟩
      rw [extractLoop_some 0 hsome]
      exact List.mem_cons_self
  | cons payload payloads ih =>
    rw [List.flatMap_cons, List.append_assoc] at hr
    have hpl := congrArg List.length hr
    simp only [frame_length, List.length_append] at hpl
    have hword : beNat ((pending netBuf netBufLen offset).take 4) = payload.length := by
      rw [hr, frame_word (by omega)]
    rcases extractStep_long hbuf hlen hoff (by omega) _ rfl with
      ⟨hle, -⟩ | ⟨-, pktLen, next, hsome, -, hnext⟩
    · rw [hword] at hle
      omega
    · rw [hword, Nat.mod_eq_of_lt (by omega)] at hnext
      have hdrop : pending netBuf netBufLen next = payloads.flatMap frame ++ rest := by
        rw [pending_next hnext, hr]
        exact List.drop_left' (frame_length payload)
      obtain ⟨fuel, h, hmem, hbig⟩ := ih next (by omega) hdrop
        (pending_length hbuf hlen next)
      refine ⟨fuel + 1, h, ?_, hbig⟩
      rw [extractLoop_some fuel hsome]
      exact List.mem_cons_of_mem _ hmem

/-- The receive loop is safe exactly on the buffers in which no length word after whole
frames comes within four of the 32-bit bound. -/
theorem loop_safe_iff (netBuf : Bytes) (netBufLen : UInt64)
    (hbuf : netBuf.length = bufferSize) (hlen : netBufLen.toNat ≤ bufferSize) :
    LoopSafe netBuf netBufLen ↔ LengthsBelowWrap (netBuf.take netBufLen.toNat) := by
  have hsize : bufferSize = 65536 := rfl
  have hzero : (0 : UInt64).toNat ≤ netBufLen.toNat := Nat.zero_le _
  have hstart : pending netBuf netBufLen 0 = netBuf.take netBufLen.toNat := rfl
  constructor
  · intro hsafe payloads rest hr h4
    by_contra hbig
    obtain ⟨fuel, h, hmem, hwrap⟩ := extractLoop_wraps hbuf hlen payloads rest 0 hzero
      (by rw [hstart, hr]) h4 (by omega)
    have hin := hsafe.inside fuel h hmem
    omega
  · intro hsane
    rw [← hstart] at hsane
    refine ⟨⟨netBufLen.toNat + 1, ?_⟩, fun fuel => ?_, fun fuel => ⟨fun h hm => ?_, ?_⟩⟩
    · exact (extractLoop_sane hbuf hlen _ 0 hzero hsane).2.2 (by simp)
    · exact (extractLoop_sane hbuf hlen fuel 0 hzero hsane).1
    · have := (extractLoop_sane hbuf hlen fuel 0 hzero hsane).1 h hm
      omega
    · exact (extractLoop_sane hbuf hlen fuel 0 hzero hsane).2.1

def paddedBuffer (received : Bytes) : Bytes :=
  received ++ List.replicate (bufferSize - received.length) 0

theorem loop_safe_iff_one_packet :
    LoopSafe (paddedBuffer [0, 0, 0, 1, 65]) 5 ↔
      LengthsBelowWrap ((paddedBuffer [0, 0, 0, 1, 65]).take (5 : UInt64).toNat) :=
  loop_safe_iff (paddedBuffer [0, 0, 0, 1, 65]) 5
    (by rw [paddedBuffer, List.length_append, List.length_replicate]; rfl) (by decide)

/-- The length 2^32 - 4 makes the frame size zero: the loop hands the same packet on
forever, with a payload range far outside the four bytes received. -/
theorem loop_never_ends :
    (∀ fuel, (extractLoop (paddedBuffer [255, 255, 255, 252]) 4 fuel 0).finished =
        none) ∧
      ¬ LoopSafe (paddedBuffer [255, 255, 255, 252]) 4 := by
  have hword : lengthAt (paddedBuffer [255, 255, 255, 252]) (0 : UInt64).toNat =
      4294967292 := by
    decide +kernel
  have hstep : extractStep (paddedBuffer [255, 255, 255, 252]) 4 0 =
      some (4294967292, 0) := by
    simp only [extractStep, hword]
    decide
  have hrun : ∀ fuel,
      (extractLoop (paddedBuffer [255, 255, 255, 252]) 4 fuel 0).finished =
        none := by
    intro fuel
    induction fuel with
    | zero => rfl
    | succ fuel ih =>
      rw [extractLoop_some fuel hstep]
      exact ih
  refine ⟨hrun, fun hsafe => ?_⟩
  obtain ⟨fuel, hend⟩ := hsafe.terminates
  rw [hrun fuel] at hend
  exact Bool.noConfusion hend

end MoshTcp.Native
