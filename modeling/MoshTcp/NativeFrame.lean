import MoshTcp.NativeReceive

/-! How the C and the C++ client take a server frame out of a payload, next to the Rust
parser. Their length tests are done in 32 bits, so an accepted range may lie outside
the payload; `outOfBounds` is the outcome where the client would read past its end. -/

set_option autoImplicit false

namespace MoshTcp.Native
open ByteOrder Protocol

inductive FrameView where
  | notFrame
  | frame (compressed : Bool) (data : Bytes)
  | outOfBounds
  deriving DecidableEq, Repr

/-- The `len` bytes from `start` on, when the payload has them. -/
def viewRange (payload : Bytes) (compressed : Bool) (start len : Nat) : FrameView :=
  if start + len ≤ payload.length then .frame compressed ((payload.drop start).take len)
  else .outOfBounds

/-- The part of C `process_packet` that finds the frame: `len` is the `uint32_t`
argument, and `14 + frame_len` is a 32-bit sum. -/
def processPacket (payload : Bytes) (len : UInt32) : FrameView :=
  if len = 0 then .notFrame
  else if payload.getD 0 0 = 5 then
    if len < 1 + 8 + 1 + 4 then .notFrame
    else
      let compressed := payload.getD 9 0
      let frameLen := lengthAt payload 10
      if 1 + 8 + 1 + 4 + frameLen > len then .notFrame
      else viewRange payload (compressed != 0) 14 frameLen.toNat
  else .notFrame

/-- What C `process_packet` writes to standard output, given its gzip unwrapping. -/
def processPacketOutput (decompressFrame : Bytes → Option Bytes) : FrameView → Option Bytes
  | .frame true data => decompressFrame data
  | .frame false data => some data
  | _ => none

inductive CppResult where
  | nullopt
  | packet (p : Packet)
  | outOfBounds
  deriving DecidableEq, Repr

/-- `body.subspan(start, len)`, whose precondition is that the range is inside. -/
def subspan (body : Bytes) (start len : Nat) (k : Bytes → Packet) : CppResult :=
  if start + len ≤ body.length then .packet (k ((body.drop start).take len)) else .outOfBounds

def shiftIn (acc : UInt64) (b : UInt8) : UInt64 := acc <<< 8 ||| b.toUInt64

def cppU64 (body : Bytes) : UInt64 := (body.take 8).foldl shiftIn 0

def cppU16 (body : Bytes) (i : Nat) : UInt16 :=
  (body.getD i 0).toUInt16 <<< 8 ||| (body.getD (i + 1) 0).toUInt16

/-- C++ `deserialize_packet`; the sums `4 + len` and `13 + len` are 32-bit, and there is
no case for the handshake. -/
def deserializePacket : Bytes → CppResult
  | [] => .nullopt
  | tag :: body =>
    if tag = 1 then
      if body.length < 4 then .nullopt
      else
        let len := lengthAt body 0
        if body.length < (4 + len).toNat then .nullopt
        else subspan body 4 len.toNat .clientInput
    else if tag = 2 then
      if body.length < 4 then .nullopt
      else .packet (.clientResize (cppU16 body 0) (cppU16 body 2))
    else if tag = 3 then
      if body.length < 8 then .nullopt else .packet (.ping (cppU64 body))
    else if tag = 4 then
      if body.length < 8 then .nullopt else .packet (.pong (cppU64 body))
    else if tag = 5 then
      if body.length < 13 then .nullopt
      else
        let seq := cppU64 body
        let compressed := body.getD 8 0 != 0
        let len := lengthAt body 9
        if body.length < (13 + len).toNat then .nullopt
        else subspan body 13 len.toNat fun data => .serverFrame seq data compressed
    else .nullopt

def CppResult.view : CppResult → FrameView
  | .packet (.serverFrame _ data compressed) => .frame compressed data
  | .outOfBounds => .outOfBounds
  | _ => .notFrame

def rustView : Except IoError Packet → FrameView
  | .ok (.serverFrame _ data compressed) => .frame compressed data
  | _ => .notFrame

def statedLength (payload : Bytes) : Nat := beNat ((payload.drop 10).take 4)

/-- The three clients see the same frame in a payload, or none, and whichever accepts
it has the stated number of data bytes there, without wrapping. -/
structure ViewsAgree (payload : Bytes) : Prop where
  c_rust : processPacket payload (UInt32.ofNat payload.length) =
    rustView (Packet.deserialize payload)
  cpp_rust : (deserializePacket payload).view = rustView (Packet.deserialize payload)
  accepted : processPacket payload (UInt32.ofNat payload.length) ≠ .notFrame ∨
      (deserializePacket payload).view ≠ .notFrame ∨
      rustView (Packet.deserialize payload) ≠ .notFrame →
    14 + statedLength payload ≤ payload.length

/-- A server frame header whose length word comes within fourteen of the 32-bit bound. -/
def WrappingFrame (payload : Bytes) : Prop :=
  payload.head? = some 5 ∧ 14 ≤ payload.length ∧ 2 ^ 32 - 14 ≤ statedLength payload

/-- A client's input packet, sent by the peer, whose length word comes within four of the 32-bit
bound. Only the C++ client looks at it. -/
def WrappingInput (payload : Bytes) : Prop :=
  payload.head? = some 1 ∧ 5 ≤ payload.length ∧ 2 ^ 32 - 4 ≤ beNat ((payload.drop 1).take 4)

theorem other_tag_notFrame {tag : UInt8} (h : tag ≠ 5) (src : Bytes) :
    processPacket (tag :: src) (UInt32.ofNat (tag :: src).length) = .notFrame ∧
      rustView (Packet.deserialize (tag :: src)) = .notFrame := by
  constructor
  · simp [processPacket, h]
  · simp only [Packet.deserialize, unexpectedEof]
    (repeat' split) <;> simp_all [rustView]

theorem deserializePacket_other {tag : UInt8} {src : Bytes} (h : tag ≠ 5) (h1 : tag ≠ 1) :
    (deserializePacket (tag :: src)).view = .notFrame := by
  simp only [deserializePacket]
  (repeat' split) <;> simp_all [CppResult.view]

theorem deserializePacket_input {body : Bytes} (hmax : body.length < 2 ^ 32 - 4) :
    (deserializePacket (1 :: body)).view =
      if 4 ≤ body.length ∧ 2 ^ 32 - 4 ≤ beNat (body.take 4) then .outOfBounds else .notFrame := by
  have hinput : deserializePacket (1 :: body) =
      if body.length < 4 then .nullopt
      else if body.length < (4 + lengthAt body 0).toNat then .nullopt
      else subspan body 4 (lengthAt body 0).toNat .clientInput := rfl
  rw [hinput]
  by_cases h4 : body.length < 4
  · rw [if_pos h4, if_neg fun h => Nat.not_le.2 h4 h.1]
    rfl
  have hword : (lengthAt body 0).toNat = beNat (body.take 4) := by
    rw [lengthAt_toNat (by omega), List.drop_zero]
  have hsum : (4 + lengthAt body 0).toNat = (4 + beNat (body.take 4)) % 2 ^ 32 := by
    rw [UInt32.toNat_add, hword]
    rfl
  have hbound := beNat_lt_word (show (body.take 4).length = 4 by rw [List.length_take]; omega)
  rw [if_neg h4, hsum, hword, subspan]
  by_cases hwrap : 2 ^ 32 - 4 ≤ beNat (body.take 4)
  · rw [if_neg (by omega), if_neg (by omega), if_pos ⟨by omega, hwrap⟩]
    rfl
  · have hnarrow : ¬ (4 ≤ body.length ∧ 2 ^ 32 - 4 ≤ beNat (body.take 4)) := fun h => hwrap h.2
    rw [Nat.mod_eq_of_lt (by omega), if_neg hnarrow]
    by_cases hlen : body.length < 4 + beNat (body.take 4)
    · rw [if_pos hlen]
      rfl
    · rw [if_neg hlen, if_pos (by omega)]
      rfl

theorem deserialize_frame (src : Bytes) : Packet.deserialize (5 :: src) =
    if src.length < 13 then unexpectedEof "ServerFrame header missing"
    else if (src.drop 13).length < readLength (src.drop 9) then
      unexpectedEof "ServerFrame data missing"
    else .ok (.serverFrame (readU64 src) ((src.drop 13).take (readLength (src.drop 9)))
      (decide ((src.drop 8).head? ≠ some 0))) := rfl

theorem deserializePacket_frame (body : Bytes) : deserializePacket (5 :: body) =
    if body.length < 13 then .nullopt
    else if body.length < (13 + lengthAt body 9).toNat then .nullopt
    else subspan body 13 (lengthAt body 9).toNat
      fun data => .serverFrame (cppU64 body) data (body.getD 8 0 != 0) := rfl

theorem processPacket_frame (src : Bytes) (len : UInt32) : processPacket (5 :: src) len =
    if len = 0 then .notFrame
    else if len < 1 + 8 + 1 + 4 then .notFrame
    else if 1 + 8 + 1 + 4 + lengthAt (5 :: src) 10 > len then .notFrame
    else viewRange (5 :: src) (src.getD 8 0 != 0) 14 (lengthAt (5 :: src) 10).toNat := rfl

theorem short_header_notFrame {src : Bytes} (h : src.length < 13) :
    processPacket (5 :: src) (UInt32.ofNat (5 :: src).length) = .notFrame ∧
      (deserializePacket (5 :: src)).view = .notFrame ∧
      rustView (Packet.deserialize (5 :: src)) = .notFrame := by
  have hlt : UInt32.ofNat (5 :: src).length < 1 + 8 + 1 + 4 := by
    rw [UInt32.lt_iff_toNat_lt, UInt32.toNat_ofNat_of_lt'
      (show (5 :: src : Bytes).length < 2 ^ 32 by rw [List.length_cons]; omega), List.length_cons]
    change src.length + 1 < 14
    omega
  refine ⟨?_, ?_, ?_⟩
  · rw [processPacket_frame, if_pos hlt]
    split <;> rfl
  · rw [deserializePacket_frame, if_pos h]
    rfl
  · rw [deserialize_frame, if_pos h]
    rfl

section Header

variable {src : Bytes} (h13 : 13 ≤ src.length)

def frameOf (src : Bytes) : FrameView :=
  .frame (src.getD 8 0 != 0) ((src.drop 13).take (statedLength (5 :: src)))

theorem statedLength_cons (tag : UInt8) (src : Bytes) :
    statedLength (tag :: src) = readLength (src.drop 9) := by
  simp [statedLength, readLength]

include h13

theorem statedLength_lt : statedLength (5 :: src) < 2 ^ 32 := by
  apply beNat_lt_word
  simp only [List.length_take, List.length_drop, List.length_cons]
  omega

theorem rustView_header : rustView (Packet.deserialize (5 :: src)) =
    if 13 + statedLength (5 :: src) ≤ src.length then frameOf src else .notFrame := by
  have hc : decide ((src.drop 8).head? ≠ some 0) = (src.getD 8 0 != 0) := by
    rw [List.head?_drop, List.getD_eq_getElem?_getD, List.getElem?_eq_getElem (by omega)]
    simp [bne, BEq.beq]
  rw [deserialize_frame, if_neg (Nat.not_lt.mpr h13), statedLength_cons, List.length_drop, hc,
    frameOf, statedLength_cons]
  by_cases hl : 13 + readLength (src.drop 9) ≤ src.length
  · rw [if_pos hl, if_neg (by omega)]
    rfl
  · rw [if_neg hl, if_pos (by omega)]
    rfl

theorem processPacket_header (hmax : (5 :: src : Bytes).length ≤ 65532) :
    processPacket (5 :: src) (UInt32.ofNat (5 :: src).length) =
      if (14 + statedLength (5 :: src)) % 2 ^ 32 ≤ 1 + src.length then
        viewRange (5 :: src) (src.getD 8 0 != 0) 14 (statedLength (5 :: src))
      else .notFrame := by
  have hlen : (UInt32.ofNat (5 :: src).length).toNat = 1 + src.length := by
    rw [UInt32.toNat_ofNat_of_lt' (show (5 :: src : Bytes).length < 2 ^ 32 by omega),
      List.length_cons, Nat.add_comm]
  have hstated : (lengthAt (5 :: src) 10).toNat = statedLength (5 :: src) := by
    rw [lengthAt_toNat (by simp only [List.length_cons]; omega), statedLength]
  have hne : UInt32.ofNat (5 :: src).length ≠ 0 := by
    intro h0
    rw [h0] at hlen
    simp at hlen
    omega
  have hge : ¬ UInt32.ofNat (5 :: src).length < 1 + 8 + 1 + 4 := by
    rw [UInt32.lt_iff_toNat_lt, hlen]
    change ¬ 1 + src.length < 14
    omega
  have hsum : (1 + 8 + 1 + 4 + lengthAt (5 :: src) 10).toNat =
      (14 + statedLength (5 :: src)) % 2 ^ 32 := by
    rw [UInt32.toNat_add, hstated]
    rfl
  have hgt : (1 + 8 + 1 + 4 + lengthAt (5 :: src) 10 > UInt32.ofNat (5 :: src).length) ↔
      ¬ (14 + statedLength (5 :: src)) % 2 ^ 32 ≤ 1 + src.length := by
    rw [gt_iff_lt, UInt32.lt_iff_toNat_lt, hlen, hsum, Nat.not_le]
  rw [processPacket_frame, if_neg hne, if_neg hge, hstated]
  by_cases hc : (14 + statedLength (5 :: src)) % 2 ^ 32 ≤ 1 + src.length
  · rw [if_neg (fun hg => hgt.mp hg hc), if_pos hc]
  · rw [if_pos (hgt.mpr hc), if_neg hc]

theorem deserializePacket_header : (deserializePacket (5 :: src)).view =
    if (13 + statedLength (5 :: src)) % 2 ^ 32 ≤ src.length then
      if 13 + statedLength (5 :: src) ≤ src.length then frameOf src else .outOfBounds
    else .notFrame := by
  have hstated : (lengthAt src 9).toNat = statedLength (5 :: src) := by
    rw [lengthAt_toNat (by omega), statedLength, List.drop_succ_cons]
  have hsum : (13 + lengthAt src 9).toNat = (13 + statedLength (5 :: src)) % 2 ^ 32 := by
    rw [UInt32.toNat_add, hstated]
    rfl
  rw [deserializePacket_frame, if_neg (Nat.not_lt.mpr h13), hsum, hstated, subspan, frameOf]
  by_cases hc : (13 + statedLength (5 :: src)) % 2 ^ 32 ≤ src.length
  · rw [if_neg (Nat.not_lt.mpr hc), if_pos hc]
    by_cases hi : 13 + statedLength (5 :: src) ≤ src.length
    · rw [if_pos hi, if_pos hi]
      rfl
    · rw [if_neg hi, if_neg hi]
      rfl
  · rw [if_pos (Nat.not_le.mp hc), if_neg hc]
    rfl

end Header

theorem viewsAgree_of_notFrame {payload : Bytes}
    (h : processPacket payload (UInt32.ofNat payload.length) = .notFrame ∧
      (deserializePacket payload).view = .notFrame ∧
      rustView (Packet.deserialize payload) = .notFrame) : ViewsAgree payload := by
  obtain ⟨hc, hcpp, hr⟩ := h
  refine ⟨by rw [hc, hr], by rw [hcpp, hr], fun hacc => ?_⟩
  simp [hc, hcpp, hr] at hacc

theorem viewsAgree_header {src : Bytes} (h13 : 13 ≤ src.length)
    (hmax : (5 :: src : Bytes).length ≤ 65532)
    (hsmall : statedLength (5 :: src) < 2 ^ 32 - 14) : ViewsAgree (5 :: src) := by
  have hc := processPacket_header h13 hmax
  have hcpp := deserializePacket_header h13
  have hr := rustView_header h13
  rw [Nat.mod_eq_of_lt (by omega)] at hc hcpp
  by_cases hl : 13 + statedLength (5 :: src) ≤ src.length
  · have hview : viewRange (5 :: src) (src.getD 8 0 != 0) 14 (statedLength (5 :: src)) =
        frameOf src := by
      rw [viewRange, if_pos (by rw [List.length_cons]; omega), frameOf, List.drop_succ_cons]
    rw [if_pos (by omega), hview] at hc
    rw [if_pos hl, if_pos hl] at hcpp
    rw [if_pos hl] at hr
    exact ⟨by rw [hc, hr], by rw [hcpp, hr], fun _ => by rw [List.length_cons]; omega⟩
  · rw [if_neg (by omega)] at hc
    rw [if_neg hl] at hcpp hr
    exact viewsAgree_of_notFrame ⟨hc, hcpp, hr⟩

theorem c_accepts_wrapping {src : Bytes} (h13 : 13 ≤ src.length)
    (hmax : (5 :: src : Bytes).length ≤ 65532)
    (hwrap : 2 ^ 32 - 14 ≤ statedLength (5 :: src)) :
    processPacket (5 :: src) (UInt32.ofNat (5 :: src).length) = .outOfBounds ∧
      rustView (Packet.deserialize (5 :: src)) = .notFrame := by
  have hlt := statedLength_lt h13
  have hc := processPacket_header h13 hmax
  have hr := rustView_header h13
  rw [List.length_cons] at hmax
  rw [if_pos (by omega), viewRange, if_neg (by rw [List.length_cons]; omega)] at hc
  rw [if_neg (by omega)] at hr
  exact ⟨hc, hr⟩

theorem wrappingInput_cons (body : Bytes) :
    WrappingInput (1 :: body) ↔ 4 ≤ body.length ∧ 2 ^ 32 - 4 ≤ beNat (body.take 4) := by
  simp only [WrappingInput, List.head?_cons, List.length_cons, List.drop_succ_cons, List.drop_zero,
    true_and]
  omega

theorem viewsAgree_input_iff {body : Bytes} (hmax : body.length < 2 ^ 32 - 4) :
    ViewsAgree (1 :: body) ↔ ¬ WrappingInput (1 :: body) := by
  have hcpp := deserializePacket_input hmax
  obtain ⟨hc, hr⟩ := other_tag_notFrame (show (1 : UInt8) ≠ 5 by decide) body
  rw [wrappingInput_cons]
  constructor
  · intro hagree hwrap
    rw [if_pos hwrap] at hcpp
    exact FrameView.noConfusion (hcpp.symm.trans (hagree.cpp_rust.trans hr))
  · intro hwrap
    rw [if_neg hwrap] at hcpp
    exact viewsAgree_of_notFrame ⟨hc, hcpp, hr⟩

theorem viewsAgree_frame_iff {src : Bytes} (hmax : (5 :: src : Bytes).length ≤ 65532) :
    ViewsAgree (5 :: src) ↔ ¬ WrappingFrame (5 :: src) := by
  by_cases h13 : 13 ≤ src.length
  · constructor
    · rintro hagree ⟨-, -, hwrap⟩
      obtain ⟨hc, hr⟩ := c_accepts_wrapping h13 hmax hwrap
      exact FrameView.noConfusion (hc.symm.trans (hagree.c_rust.trans hr))
    · intro hw
      apply viewsAgree_header h13 hmax
      by_contra hbig
      exact hw ⟨rfl, by rw [List.length_cons]; omega, by omega⟩
  · refine ⟨fun _ hw => ?_, fun _ => ?_⟩
    · have hlen := hw.2.1
      rw [List.length_cons] at hlen
      omega
    · exact viewsAgree_of_notFrame (short_header_notFrame (Nat.not_le.mp h13))

theorem viewsAgree_of_not_wrapping {payload : Bytes} (hmax : payload.length ≤ 65532)
    (hframe : ¬ WrappingFrame payload) (hinput : ¬ WrappingInput payload) :
    ViewsAgree payload := by
  cases payload with
  | nil => exact viewsAgree_of_notFrame ⟨rfl, rfl, rfl⟩
  | cons tag src =>
    by_cases htag : tag = 5
    · subst htag
      exact (viewsAgree_frame_iff hmax).2 hframe
    by_cases htag' : tag = 1
    · subst htag'
      rw [List.length_cons] at hmax
      exact (viewsAgree_input_iff (by omega)).2 hinput
    · obtain ⟨hc, hr⟩ := other_tag_notFrame htag src
      exact viewsAgree_of_notFrame ⟨hc, deserializePacket_other htag htag', hr⟩

/-- The three clients agree on a payload exactly when its header does not make a 32-bit sum wrap:
a frame of the server, or an input packet that only C++ would take from a server. -/
theorem views_agree_iff (payload : Bytes) (hmax : payload.length ≤ 65532) :
    ViewsAgree payload ↔ ¬ WrappingFrame payload ∧ ¬ WrappingInput payload := by
  constructor
  · intro hagree
    constructor
    · intro hwrap
      obtain ⟨src, rfl⟩ := List.head?_eq_some_iff.1 hwrap.1
      exact (viewsAgree_frame_iff hmax).1 hagree hwrap
    · intro hwrap
      obtain ⟨body, rfl⟩ := List.head?_eq_some_iff.1 hwrap.1
      rw [List.length_cons] at hmax
      exact (viewsAgree_input_iff (by omega)).1 hagree hwrap
  · rintro ⟨hframe, hinput⟩
    exact viewsAgree_of_not_wrapping hmax hframe hinput

theorem views_agree_iff_short_frame :
    ViewsAgree [5, 0, 0, 0, 0, 0, 0, 0, 1, 0, 0, 0, 0, 1, 65] ∧
      ¬ ViewsAgree [1, 255, 255, 255, 255] := by
  constructor
  · exact (views_agree_iff [5, 0, 0, 0, 0, 0, 0, 0, 1, 0, 0, 0, 0, 1, 65] (by decide)).2
      ⟨fun h => absurd h.2.2 (by decide), fun h => absurd h.1 (by decide)⟩
  · rw [views_agree_iff [1, 255, 255, 255, 255] (by decide)]
    exact fun h => h.2 ⟨rfl, by decide, by decide⟩

/-- A bare header that states 2^32 - 1 data bytes: C and C++ go on to read them, Rust
reports that they are missing. -/
theorem views_differ_on_wrapping_header :
    processPacket [5, 0, 0, 0, 0, 0, 0, 0, 1, 0, 255, 255, 255, 255] 14 = .outOfBounds ∧
      (deserializePacket [5, 0, 0, 0, 0, 0, 0, 0, 1, 0, 255, 255, 255, 255]).view =
        .outOfBounds ∧
      rustView (Packet.deserialize [5, 0, 0, 0, 0, 0, 0, 0, 1, 0, 255, 255, 255, 255]) =
        .notFrame ∧
      ¬ ViewsAgree [5, 0, 0, 0, 0, 0, 0, 0, 1, 0, 255, 255, 255, 255] := by
  have hc : processPacket [5, 0, 0, 0, 0, 0, 0, 0, 1, 0, 255, 255, 255, 255] 14 =
      .outOfBounds := by decide +kernel
  have hr : rustView (Packet.deserialize [5, 0, 0, 0, 0, 0, 0, 0, 1, 0, 255, 255, 255, 255]) =
      .notFrame := by decide +kernel
  refine ⟨hc, by decide +kernel, hr, fun hagree => ?_⟩
  have h : processPacket [5, 0, 0, 0, 0, 0, 0, 0, 1, 0, 255, 255, 255, 255] 14 =
      rustView (Packet.deserialize [5, 0, 0, 0, 0, 0, 0, 0, 1, 0, 255, 255, 255, 255]) :=
    hagree.c_rust
  rw [hc, hr] at h
  exact FrameView.noConfusion h

end MoshTcp.Native
