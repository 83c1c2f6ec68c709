import MoshTcp.NativeReceive
import MoshTcp.Lib.Buffers

/-! The receive loop of the C and C++ clients over a whole connection: read behind the bytes
kept from the last pass, hand on the packets that are complete, move the rest to the front. -/

set_option autoImplicit false

namespace MoshTcp.Native
open ByteOrder Protocol Buffers

/-- `handedOn` is a history variable: the payloads given to `process_packet` (C) or
`deserialize_packet` (C++). -/
structure Receiver where
  netBuf : Bytes
  netBufLen : UInt64
  handedOn : List Bytes

def Receiver.start (netBuf : Bytes) : Receiver := ⟨netBuf, 0, []⟩

/-- `net_buf[0..net_buf_len)`. -/
def Receiver.held (r : Receiver) : Bytes := r.netBuf.take r.netBufLen.toNat

def Receiver.free (r : Receiver) : Nat := bufferSize - r.netBufLen.toNat

def payloadAt (netBuf : Bytes) (h : UInt64 × UInt32) : Bytes :=
  (netBuf.drop (h.1.toNat + 4)).take h.2.toNat

/-- A pass in which `read` has returned `data`. The result is `none` when the extraction loop
has not ended after more rounds than the buffer has bytes. -/
def Receiver.pass (r : Receiver) (data : Bytes) : Option Receiver :=
  let netBuf := overwrite r.netBuf r.netBufLen.toNat data
  let netBufLen := r.netBufLen + UInt64.ofNat data.length
  let extracted := extractLoop netBuf netBufLen (bufferSize + 1) 0
  match extracted.finished with
  | none => none
  | some offset =>
    let handedOn := r.handedOn ++ extracted.handedOn.map (payloadAt netBuf)
    if offset > 0 then
      some {
        netBuf := overwrite netBuf 0
          ((netBuf.drop offset.toNat).take (netBufLen - offset).toNat)
        netBufLen := netBufLen - offset
        handedOn := handedOn }
    else some ⟨netBuf, netBufLen, handedOn⟩

def Receiver.receive (r : Receiver) (reads : List Bytes) : Option Receiver :=
  reads.foldlM Receiver.pass r

/-- Every read returns at least one byte and at most what was asked for. -/
def Offered : Receiver → List Bytes → Prop
  | _, [] => True
  | r, data :: reads =>
    data ≠ [] ∧ data.length ≤ r.free ∧ ∀ r', r.pass data = some r' → Offered r' reads

/-- `held` is the beginning of the first frame that is still due, but not all of it. -/
def Incomplete (held : Bytes) : List Bytes → Prop
  | [] => held = []
  | payload :: _ => held <+: frame payload ∧ held.length < (frame payload).length

section Loop
variable {netBuf : Bytes} {netBufLen : UInt64}
  (hbuf : netBuf.length = bufferSize) (hlen : netBufLen.toNat ≤ bufferSize)

theorem prefix_word {payload bs : Bytes} (hp : payload.length < 2 ^ 32) (h4 : 4 ≤ bs.length)
    (hpre : bs <+: frame payload) : beNat (bs.take 4) = payload.length := by
  obtain ⟨more, hmore⟩ := hpre
  have hword := frame_word hp []
  rw [List.append_nil, ← hmore, List.take_append_of_le_length h4] at hword
  exact hword

include hbuf hlen

theorem extractStep_incomplete {offset : UInt64} (hoff : offset.toNat ≤ netBufLen.toNat)
    {payload : Bytes} (hp : payload.length ≤ 65532)
    (hpre : pending netBuf netBufLen offset <+: frame payload)
    (hlt : (pending netBuf netBufLen offset).length < (frame payload).length) :
    extractStep netBuf netBufLen offset = none := by
  by_cases h4 : (pending netBuf netBufLen offset).length < 4
  · exact extractStep_short hbuf hlen hoff h4
  · rw [frame_length] at hlt
    have hword := prefix_word (by omega) (Nat.not_lt.mp h4) hpre
    cases extractStep_long hbuf hlen hoff (Nat.not_lt.mp h4) _ hword.symm with
    | inl h => exact h.2
    | inr h =>
      obtain ⟨hle, -⟩ := h
      omega

theorem extractStep_frame {offset : UInt64} (hoff : offset.toNat ≤ netBufLen.toNat)
    {payload tail : Bytes} (hp : payload.length ≤ 65532)
    (hpend : pending netBuf netBufLen offset = frame payload ++ tail) :
    ∃ pktLen next, extractStep netBuf netBufLen offset = some (pktLen, next) ∧
      next.toNat ≤ netBufLen.toNat ∧ pending netBuf netBufLen next = tail ∧
      payloadAt netBuf (offset, pktLen) = payload := by
  have hplen := pending_length hbuf hlen offset
  have hall := congrArg List.length hpend
  rw [List.length_append, frame_length] at hall
  have hword : beNat ((pending netBuf netBufLen offset).take 4) = payload.length := by
    rw [hpend, frame_word (by omega)]
  cases extractStep_long hbuf hlen hoff (by omega) _ hword.symm with
  | inl h => omega
  | inr h =>
    obtain ⟨-, pktLen, next, hstep, hpkt, hnext⟩ := h
    rw [Nat.mod_eq_of_lt (by omega)] at hnext
    refine ⟨pktLen, next, hstep, by omega, ?_, ?_⟩
    · rw [pending_next hnext, hpend]
      exact List.drop_left' (frame_length payload)
    · -- the slice of the whole buffer is the slice of its received part
      have hslice : payloadAt netBuf (offset, pktLen) =
          ((pending netBuf netBufLen offset).drop 4).take payload.length := by
        rw [payloadAt, pending, hpkt, List.drop_drop, List.drop_take, List.take_take]
        congr 1
        omega
      rw [hslice, hpend, frame, List.append_assoc, List.drop_left' (beBytes_length 4 _),
        List.take_left]

theorem extractLoop_frames (payloads : List Bytes) (hsmall : ∀ p ∈ payloads, p.length ≤ 65532)
    (fuel : Nat) (offset : UInt64) (hoff : offset.toNat ≤ netBufLen.toNat)
    (hpre : pending netBuf netBufLen offset <+: payloads.flatMap frame)
    (hfuel : (pending netBuf netBufLen offset).length < fuel) :
    ∃ k finish, (extractLoop netBuf netBufLen fuel offset).finished = some finish ∧
      finish.toNat ≤ netBufLen.toNat ∧
      (extractLoop netBuf netBufLen fuel offset).handedOn.map (payloadAt netBuf) =
        payloads.take k ∧
      pending netBuf netBufLen offset =
        (payloads.take k).flatMap frame ++ pending netBuf netBufLen finish ∧
      Incomplete (pending netBuf netBufLen finish) (payloads.drop k) := by
  induction payloads generalizing fuel offset with
  | nil =>
    obtain ⟨fuel, rfl⟩ : ∃ n, fuel = n + 1 := ⟨fuel - 1, by omega⟩
    have hnil : pending netBuf netBufLen offset = [] := List.prefix_nil.1 hpre
    have hstep := extractStep_short hbuf hlen hoff (by simp [hnil])
    rw [extractLoop_none fuel hstep]
    exact ⟨0, offset, rfl, hoff, rfl, rfl, hnil⟩
  | cons payload payloads ih =>
    obtain ⟨fuel, rfl⟩ : ∃ n, fuel = n + 1 := ⟨fuel - 1, by omega⟩
    have hp := hsmall payload (by simp)
    rw [List.flatMap_cons] at hpre
    by_cases hlt : (pending netBuf netBufLen offset).length < (frame payload).length
    · have hone : pending netBuf netBufLen offset <+: frame payload :=
        List.prefix_of_prefix_length_le hpre (List.prefix_append _ _) (Nat.le_of_lt hlt)
      rw [extractLoop_none fuel (extractStep_incomplete hbuf hlen hoff hp hone hlt)]
      exact ⟨0, offset, rfl, hoff, rfl, rfl, hone, hlt⟩
    · obtain ⟨tail, htail⟩ : frame payload <+: pending netBuf netBufLen offset :=
        List.prefix_of_prefix_length_le (List.prefix_append _ _) hpre (Nat.not_lt.mp hlt)
      obtain ⟨pktLen, next, hstep, hnext, hrest, hpay⟩ :=
        extractStep_frame hbuf hlen hoff hp htail.symm
      have hshort : tail.length < fuel := by
        rw [← htail, List.length_append, frame_length] at hfuel
        omega
      rw [← htail, List.prefix_append_right_inj] at hpre
      rw [← hrest] at hpre hshort
      obtain ⟨k, finish, hfin, hle, hhand, hsplit, hinc⟩ :=
        ih (fun p h => hsmall p (by simp [h])) fuel next hnext hpre hshort
      rw [extractLoop_some fuel hstep]
      refine ⟨k + 1, finish, hfin, hle, ?_, ?_, hinc⟩
      · rw [List.map_cons, hpay, hhand, List.take_succ_cons]
      · rw [← htail, ← hrest, hsplit, List.take_succ_cons, List.flatMap_cons, List.append_assoc]

end Loop

theorem incomplete_length {held : Bytes} {payloads : List Bytes} (h : Incomplete held payloads)
    (hsmall : ∀ p ∈ payloads, p.length ≤ 65532) : held.length < bufferSize := by
  have hsize : bufferSize = 65536 := rfl
  cases payloads with
  | nil =>
    unfold Incomplete at h
    simp [h, hsize]
  | cons payload payloads =>
    have hp := hsmall payload (by simp)
    have hlt := h.2
    rw [frame_length] at hlt
    omega

/-- What has been received is the frames handed on and a part of the next one, which is what
the buffer keeps. -/
structure Reassembled (payloads : List Bytes) (received : Bytes) (r : Receiver) : Prop where
  sized : r.netBuf.length = bufferSize
  fits : r.netBufLen.toNat ≤ bufferSize
  split : ∃ k, r.handedOn = payloads.take k ∧
    received = (payloads.take k).flatMap frame ++ r.held ∧ Incomplete r.held (payloads.drop k)

theorem start_reassembled {netBuf : Bytes} (hbuf : netBuf.length = bufferSize)
    (payloads : List Bytes) : Reassembled payloads [] (Receiver.start netBuf) := by
  refine ⟨hbuf, Nat.zero_le _, 0, rfl, rfl, ?_⟩
  cases payloads with
  | nil => rfl
  | cons payload payloads =>
    exact ⟨List.nil_prefix, by rw [frame_length]; simp [Receiver.held, Receiver.start]⟩

theorem Reassembled.room {payloads : List Bytes} {received : Bytes} {r : Receiver}
    (h : Reassembled payloads received r) (hsmall : ∀ p ∈ payloads, p.length ≤ 65532) :
    r.held.length = r.netBufLen.toNat ∧ 1 ≤ r.free := by
  obtain ⟨k, -, -, hinc⟩ := h.split
  have hsized := h.sized
  have hfits := h.fits
  have hheld : r.held.length = r.netBufLen.toNat := by
    rw [Receiver.held, List.length_take]
    omega
  have hroom := incomplete_length hinc fun p hp => hsmall p (List.mem_of_mem_drop hp)
  refine ⟨hheld, ?_⟩
  unfold Receiver.free
  omega

/-- Moving the rest to the front keeps exactly the bytes that were not handed on. -/
theorem compacted {netBuf : Bytes} {netBufLen finish : UInt64}
    (hbuf : netBuf.length = bufferSize) (hlen : netBufLen.toNat ≤ bufferSize)
    (hfin : finish.toNat ≤ netBufLen.toNat) :
    (overwrite netBuf 0 ((netBuf.drop finish.toNat).take (netBufLen - finish).toNat)).length =
        bufferSize ∧
      (overwrite netBuf 0 ((netBuf.drop finish.toNat).take (netBufLen - finish).toNat)).take
        (netBufLen - finish).toNat = pending netBuf netBufLen finish := by
  have hr := remaining_toNat hfin
  have hslice : (netBuf.drop finish.toNat).take (netBufLen - finish).toNat =
      pending netBuf netBufLen finish := by
    rw [hr, pending, List.drop_take]
  have hplen := pending_length hbuf hlen finish
  rw [hslice]
  constructor
  · rw [overwrite_length (by omega), hbuf]
  · have htake := take_overwrite (pending netBuf netBufLen finish) (Nat.zero_le netBuf.length)
    rw [Nat.zero_add, hplen, ← hr] at htake
    exact htake

/-- A read of at most the free bytes lands behind what is held. -/
theorem Receiver.read_behind {r : Receiver} {data : Bytes} (hsized : r.netBuf.length = bufferSize)
    (hfits : r.netBufLen.toNat ≤ bufferSize) (hdata : data.length ≤ r.free) :
    (r.netBufLen + UInt64.ofNat data.length).toNat = r.netBufLen.toNat + data.length ∧
      (overwrite r.netBuf r.netBufLen.toNat data).length = bufferSize ∧
      pending (overwrite r.netBuf r.netBufLen.toNat data)
        (r.netBufLen + UInt64.ofNat data.length) 0 = r.held ++ data := by
  have hsize : bufferSize = 65536 := rfl
  unfold Receiver.free at hdata
  have hlen : (r.netBufLen + UInt64.ofNat data.length).toNat = r.netBufLen.toNat + data.length := by
    rw [UInt64.toNat_add, UInt64.toNat_ofNat', Nat.mod_eq_of_lt (by omega),
      Nat.mod_eq_of_lt (by omega)]
  refine ⟨hlen, ?_, ?_⟩
  · rw [overwrite_length (by omega), hsized]
  · rw [pending, hlen, take_overwrite data (by omega)]
    rfl

theorem pass_reassembles {payloads : List Bytes} (hsmall : ∀ p ∈ payloads, p.length ≤ 65532)
    {received data : Bytes} {r : Receiver} (h : Reassembled payloads received r)
    (hdata : data.length ≤ r.free) (hpre : received ++ data <+: payloads.flatMap frame) :
    ∃ r', r.pass data = some r' ∧ Reassembled payloads (received ++ data) r' := by
  obtain ⟨k, hhanded, hreceived, -⟩ := h.split
  have hfits := h.fits
  obtain ⟨hlen, hbuf, hheld⟩ := Receiver.read_behind h.sized hfits hdata
  unfold Receiver.free at hdata
  have hdue : r.held ++ data <+: (payloads.drop k).flatMap frame := by
    rw [hreceived, ← List.take_append_drop k payloads, List.flatMap_append, List.take_append_drop,
      List.append_assoc, List.prefix_append_right_inj] at hpre
    exact hpre
  generalize hnb : overwrite r.netBuf r.netBufLen.toNat data = netBuf at hbuf hheld
  generalize hnl : r.netBufLen + UInt64.ofNat data.length = netBufLen at hlen hheld
  have hle : netBufLen.toNat ≤ bufferSize := by omega
  have hpend := pending_length hbuf hle 0
  rw [← hheld] at hdue
  obtain ⟨j, finish, hfin, hfle, hnew, hsplit, hinc⟩ := extractLoop_frames hbuf hle
    (payloads.drop k) (fun p hp => hsmall p (List.mem_of_mem_drop hp)) (bufferSize + 1) 0
    (Nat.zero_le _) hdue (by omega)
  have hhanded' : r.handedOn ++ (extractLoop netBuf netBufLen (bufferSize + 1) 0).handedOn.map
      (payloadAt netBuf) = payloads.take (k + j) := by
    rw [hhanded, hnew, ← List.take_add]
  have hreceived' : received ++ data =
      (payloads.take (k + j)).flatMap frame ++ pending netBuf netBufLen finish := by
    rw [hreceived, List.append_assoc, ← hheld, hsplit, List.take_add, List.flatMap_append,
      List.append_assoc]
  rw [List.drop_drop] at hinc
  simp only [Receiver.pass, hnb, hnl, hfin]
  by_cases hpos : finish > 0
  · rw [if_pos hpos]
    obtain ⟨hsized', hkept⟩ := compacted hbuf hle hfle
    have hr := remaining_toNat hfle
    refine ⟨_, rfl, hsized', by simp only; omega, k + j, hhanded', ?_, ?_⟩
    · rw [hreceived']
      exact congrArg _ hkept.symm
    · unfold Receiver.held
      simp only
      rw [hkept]
      exact hinc
  · rw [if_neg hpos]
    obtain rfl : finish = 0 := by
      rw [gt_iff_lt, UInt64.lt_iff_toNat_lt] at hpos
      exact UInt64.toNat_inj.1 (by simpa using hpos)
    exact ⟨_, rfl, hbuf, hle, k + j, hhanded', hreceived', hinc⟩

/-! ### A whole connection -/

theorem receive_reassembles {payloads : List Bytes} (hsmall : ∀ p ∈ payloads, p.length ≤ 65532)
    (reads : List Bytes) {received : Bytes} {r : Receiver} (h : Reassembled payloads received r)
    (hreads : Offered r reads) (hpre : received ++ reads.flatten <+: payloads.flatMap frame) :
    ∃ r', r.receive reads = some r' ∧ Reassembled payloads (received ++ reads.flatten) r' := by
  induction reads generalizing received r with
  | nil => exact ⟨r, rfl, by simpa using h⟩
  | cons data reads ih =>
    obtain ⟨-, hdata, hrest⟩ := hreads
    rw [List.flatten_cons, ← List.append_assoc] at hpre ⊢
    obtain ⟨r', hpass, hr'⟩ := pass_reassembles hsmall h hdata
      ((List.prefix_append _ _).trans hpre)
    obtain ⟨final, hfinal, hf⟩ := ih hr' (hrest r' hpass) hpre
    refine ⟨final, ?_, hf⟩
    rw [Receiver.receive, List.foldlM_cons, hpass]
    exact hfinal

theorem Offered.take {r : Receiver} {pre post : List Bytes} (h : Offered r (pre ++ post)) :
    Offered r pre := by
  induction pre generalizing r with
  | nil => trivial
  | cons data pre ih =>
    obtain ⟨hne, hdata, hrest⟩ := h
    exact ⟨hne, hdata, fun r' hr' => ih (hrest r' hr')⟩

theorem incomplete_of_all {payloads : List Bytes} {k : Nat} {held : Bytes}
    (hinc : Incomplete held (payloads.drop k))
    (hall : (payloads.take k).flatMap frame ++ held = payloads.flatMap frame) :
    payloads.take k = payloads ∧ held = [] := by
  have hrest : held = (payloads.drop k).flatMap frame := by
    conv_rhs at hall => rw [← List.take_append_drop k payloads, List.flatMap_append]
    exact List.append_cancel_left hall
  cases hdue : payloads.drop k with
  | nil =>
    rw [hdue] at hinc
    exact ⟨List.take_of_length_le (List.drop_eq_nil_iff.1 hdue), hinc⟩
  | cons payload rest =>
    rw [hdue] at hinc hrest
    have hlt := hinc.2
    rw [hrest, List.flatMap_cons, List.length_append] at hlt
    omega

/-- However the stream of frames is cut into reads, after every pass the loop has ended, has
handed on the payloads received so far in order, and keeps the unconsumed part of one frame,
with room for the next read. -/
theorem stream_reassembled (netBuf : Bytes) (hbuf : netBuf.length = bufferSize)
    (payloads : List Bytes) (hsmall : ∀ p ∈ payloads, p.length ≤ 65532) (reads : List Bytes)
    (hreads : Offered (Receiver.start netBuf) reads)
    (hpre : reads.flatten <+: payloads.flatMap frame) :
    ∀ pre, pre <+: reads → ∃ r, (Receiver.start netBuf).receive pre = some r ∧
      (∃ k, r.handedOn = payloads.take k ∧
        pre.flatten = (payloads.take k).flatMap frame ++ r.held ∧
        Incomplete r.held (payloads.drop k)) ∧
      r.held.length = r.netBufLen.toNat ∧ 1 ≤ r.free ∧
      (pre.flatten = payloads.flatMap frame → r.handedOn = payloads ∧ r.held = []) := by
  intro pre hcut
  obtain ⟨post, rfl⟩ := hcut
  rw [List.flatten_append] at hpre
  obtain ⟨r, hr, h⟩ := receive_reassembles hsmall pre (start_reassembled hbuf payloads)
    hreads.take ((List.prefix_append _ _).trans hpre)
  obtain ⟨hheld, hfree⟩ := h.room hsmall
  obtain ⟨k, hhanded, hsplit, hinc⟩ := h.split
  rw [List.nil_append] at hsplit
  refine ⟨r, hr, ⟨k, hhanded, hsplit, hinc⟩, hheld, hfree, fun hall => ?_⟩
  rw [hsplit] at hall
  obtain ⟨hk, hnil⟩ := incomplete_of_all hinc hall
  exact ⟨hhanded.trans hk, hnil⟩

def twoPayloads : List Bytes := [[65], [66]]

/-- One read ends inside the second frame, the next one brings its last byte. -/
theorem stream_reassembled_two_reads :
    Offered (Receiver.start (List.replicate bufferSize 0)) [[0, 0, 0, 1, 65, 0, 0, 0, 1], [66]] ∧
      ∃ r, (Receiver.start (List.replicate bufferSize 0)).receive
          [[0, 0, 0, 1, 65, 0, 0, 0, 1], [66]] = some r ∧
        r.handedOn = twoPayloads ∧ r.held = [] := by
  have hbuf : (List.replicate bufferSize (0 : UInt8)).length = bufferSize :=
    List.length_replicate
  have hsmall : ∀ p ∈ twoPayloads, p.length ≤ 65532 := by decide
  have hreads : Offered (Receiver.start (List.replicate bufferSize 0))
      [[0, 0, 0, 1, 65, 0, 0, 0, 1], [66]] := by
    refine ⟨by simp, by decide, fun r hr => ⟨by simp, ?_, fun _ _ => trivial⟩⟩
    have hpass : ∃ r', (Receiver.start (List.replicate bufferSize 0)).pass
        [0, 0, 0, 1, 65, 0, 0, 0, 1] = some r' ∧
          Reassembled twoPayloads ([] ++ [0, 0, 0, 1, 65, 0, 0, 0, 1]) r' :=
      pass_reassembles hsmall (start_reassembled hbuf twoPayloads) (by decide) (by decide)
    obtain ⟨r', hr', h⟩ := hpass
    obtain rfl : r' = r := Option.some.inj (hr'.symm.trans hr)
    exact (h.room hsmall).2
  obtain ⟨r, hr, -, -, -, hall⟩ := stream_reassembled _ hbuf twoPayloads hsmall _ hreads
    (by decide) _ List.prefix_rfl
  exact ⟨hreads, r, hr, hall (by decide)⟩

end MoshTcp.Native
