import MoshTcp.NativeLoop

/-! The C and the C++ client step for step: with memory for every call they do the same, against
any peer whose payloads do not wrap around the 32-bit sums. -/

set_option autoImplicit false

namespace MoshTcp.Native
open ByteOrder Protocol Client Runs Buffers

theorem process_agree {mem : Memory} (hmem : ∀ n, (mem.malloc n).isSome) {payload : Bytes}
    (hlen : payload.length ≤ 65532) (hframe : ¬ WrappingFrame payload)
    (hinput : ¬ WrappingInput payload) : C.process mem payload = Cpp.process payload := by
  have hagree := viewsAgree_of_not_wrapping hlen hframe hinput
  have hview := hagree.c_rust.trans hagree.cpp_rust.symm
  rw [C.process, Cpp.process, hview]
  cases hpacket : deserializePacket payload with
  | nullopt => rfl
  | outOfBounds => rfl
  | packet p =>
    cases p with
    | serverFrame seq data compressed =>
      cases compressed with
      | true =>
        simp only [CppResult.view, processPacketOutput, hmem, if_true, Cpp.handleServerPacket]
        rfl
      | false => rfl
    | _ => rfl

structure Receiver.Bounded (r : Receiver) : Prop where
  sized : r.netBuf.length = bufferSize
  fits : r.netBufLen.toNat ≤ bufferSize

/-- The loop ends inside of what was received, also when lengths wrap. -/
theorem extractLoop_finish {netBuf : Bytes} {netBufLen : UInt64}
    (hbuf : netBuf.length = bufferSize) (hlen : netBufLen.toNat ≤ bufferSize) (fuel : Nat)
    {offset : UInt64} (hoff : offset.toNat ≤ netBufLen.toNat) {finish : UInt64}
    (h : (extractLoop netBuf netBufLen fuel offset).finished = some finish) :
    finish.toNat ≤ netBufLen.toNat := by
  induction fuel generalizing offset with
  | zero => cases h
  | succ fuel ih =>
    have hpending := pending_length hbuf hlen offset
    cases hstep : extractStep netBuf netBufLen offset with
    | none =>
      rw [extractLoop_none fuel hstep] at h
      rwa [← Option.some.inj h]
    | some found =>
      obtain ⟨pktLen, next⟩ := found
      rw [extractLoop_some fuel hstep] at h
      refine ih ?_ h
      by_cases h4 : (pending netBuf netBufLen offset).length < 4
      · rw [extractStep_short hbuf hlen hoff h4] at hstep
        cases hstep
      · rcases extractStep_long hbuf hlen hoff (Nat.not_lt.mp h4) _ rfl with
          ⟨-, hnone⟩ | ⟨hle, pktLen', next', hsome, -, hnext⟩
        · rw [hnone] at hstep
          cases hstep
        · rw [hsome] at hstep
          obtain ⟨-, rfl⟩ := Prod.mk.inj (Option.some.inj hstep)
          omega

theorem Receiver.Bounded.pass {r r' : Receiver} {data : Bytes} (h : r.Bounded)
    (hdata : data.length ≤ r.free) (hpass : r.pass data = some r') : r'.Bounded := by
  have hfits := h.fits
  obtain ⟨hlen, hbuf, -⟩ := Receiver.read_behind h.sized hfits hdata
  unfold Receiver.free at hdata
  unfold Receiver.pass at hpass
  dsimp only at hpass
  generalize overwrite r.netBuf r.netBufLen.toNat data = netBuf at hbuf hpass
  generalize r.netBufLen + UInt64.ofNat data.length = netBufLen at hlen hpass
  have hle : netBufLen.toNat ≤ bufferSize := by omega
  split at hpass
  · cases hpass
  · rename_i finish hfinish
    have hfin := extractLoop_finish hbuf hle _ (Nat.zero_le _) hfinish
    split at hpass
    · obtain rfl := Option.some.inj hpass
      refine ⟨(compacted hbuf hle hfin).1, ?_⟩
      have hr := remaining_toNat hfin
      simp only
      omega
    · obtain rfl := Option.some.inj hpass
      exact ⟨hbuf, hle⟩

theorem pass_new {r r' : Receiver} {data : Bytes} (hpass : r.pass data = some r') :
    r'.handedOn.drop r.handedOn.length =
      (extractLoop (overwrite r.netBuf r.netBufLen.toNat data)
        (r.netBufLen + UInt64.ofNat data.length) (bufferSize + 1) 0).handedOn.map
          (payloadAt (overwrite r.netBuf r.netBufLen.toNat data)) := by
  unfold Receiver.pass at hpass
  dsimp only at hpass
  split at hpass
  · cases hpass
  · split at hpass
    · obtain rfl := Option.some.inj hpass
      exact List.drop_left
    · obtain rfl := Option.some.inj hpass
      exact List.drop_left

theorem Receiver.Bounded.payloads {r r' : Receiver} {data : Bytes} {ps : List Bytes}
    (h : r.Bounded) (hdata : data.length ≤ r.free) (hps : r.payloads data = some (r', ps)) :
    r'.Bounded ∧ ∀ p ∈ ps, p.length ≤ 65532 := by
  unfold Receiver.payloads at hps
  split at hps
  · rename_i next hpass
    obtain ⟨hinside, hpair⟩ := Option.ite_none_right_eq_some.1 hps
    obtain ⟨rfl, rfl⟩ := Prod.mk.inj (Option.some.inj hpair)
    refine ⟨h.pass hdata hpass, fun p hp => ?_⟩
    have hfits := h.fits
    obtain ⟨hlen, -, -⟩ := Receiver.read_behind h.sized hfits hdata
    unfold Receiver.free at hdata
    have hsize : bufferSize = 65536 := rfl
    rw [pass_new hpass] at hp
    obtain ⟨found, hfound, rfl⟩ := List.mem_map.1 hp
    simp only [Receiver.inside, List.all_eq_true, decide_eq_true_eq] at hinside
    have hle := hinside found hfound
    have htake := List.length_take_le found.2.toNat
      ((overwrite r.netBuf r.netBufLen.toNat data).drop (found.1.toNat + 4))
    rw [payloadAt]
    omega
  · cases hps

/-! ### The loops -/

inductive LoopEvent where
  | signal (sig : Signal)
  | pass (p : Pass) (stream : Bytes)

def loopStep (kind : Kind) (host : Endian) (l : Loop) : LoopEvent → Loop
  | .signal sig => l.handleSignal sig
  | .pass p stream => l.pass (kind.calls host p.mem) p stream

/-- A pass with memory for every call, in which a read brings no payload that wraps. -/
def Plain (l : Loop) : LoopEvent → Prop
  | .signal _ => True
  | .pass p stream => (∀ n, (p.mem.malloc n).isSome) ∧
    ∀ n receiver payloads,
      l.receiver.payloads (stream.take (min n l.receiver.free)) = some (receiver, payloads) →
      ∀ payload ∈ payloads, ¬ WrappingFrame payload ∧ ¬ WrappingInput payload

section Agree
variable {host : Endian} {mem : Memory} (hmem : ∀ n, (mem.malloc n).isSome) {l : Loop}
include hmem

theorem send_agree {key : String} {p : Packet} (hp : Outgoing key p)
    (results : List WriteResult) :
    l.send (C.calls host mem) results p = l.send (Cpp.calls host) results p := by
  have hc : (C.calls host mem).hasMemory p = true := by
    cases p <;> first | rfl | exact hmem _
  have hcpp : (Cpp.calls host).hasMemory p = true := rfl
  have hsend : ∀ results, (C.calls host mem).send results p =
      (Cpp.calls host).send results p := fun results =>
    ((Kind.c.encodes host mem).writes hp hc results).trans
      ((Kind.cpp.encodes host mem).writes hp hcpp results).symm
  simp only [Loop.send, hsend, hc, hcpp]

theorem resize_agree (size : Option (UInt16 × UInt16)) (results : List WriteResult) :
    l.resize (C.calls host mem) size results = l.resize (Cpp.calls host) size results := by
  unfold Loop.resize
  split
  · rcases size with _ | ⟨rows, cols⟩
    · rfl
    · have hp : Outgoing "" (.clientResize rows cols) := trivial
      simp only [send_agree hmem hp]
  · rfl

theorem readStdin_agree {read : Option ReadResult} (hread : ∀ r ∈ read, r.bytes.length ≤ 4096)
    (results : List WriteResult) :
    l.readStdin (C.calls host mem) read results = l.readStdin (Cpp.calls host) read results := by
  have hsend : ∀ {data : Bytes}, data.length ≤ 4096 → ∀ l : Loop,
      l.send (C.calls host mem) results (.clientInput data) =
        l.send (Cpp.calls host) results (.clientInput data) := by
    intro data hdata l
    have hp : Outgoing "" (.clientInput data) := hdata
    exact send_agree hmem hp results
  unfold Loop.readStdin
  split
  · split
    · rw [hsend (by decide)]
    · exact hsend (hread _ rfl) _
    · rfl
  · rfl

theorem mapM_agree {ps : List Bytes}
    (h : ∀ p ∈ ps, p.length ≤ 65532 ∧ ¬ WrappingFrame p ∧ ¬ WrappingInput p) :
    ps.mapM (C.process mem) = ps.mapM Cpp.process := by
  induction ps with
  | nil => rfl
  | cons p ps ih =>
    obtain ⟨hlen, hframe, hinput⟩ := h p (by simp)
    rw [List.mapM_cons, List.mapM_cons, process_agree hmem hlen hframe hinput,
      ih fun q hq => h q (by simp [hq])]

variable (hb : l.receiver.Bounded) {stream : Bytes}
  (hplain : ∀ n receiver payloads,
    l.receiver.payloads (stream.take (min n l.receiver.free)) = some (receiver, payloads) →
    ∀ payload ∈ payloads, ¬ WrappingFrame payload ∧ ¬ WrappingInput payload)
include hb hplain

theorem readSocket_agree (host : Endian) (read : Option SocketRead) :
    l.readSocket (C.calls host mem) read stream = l.readSocket (Cpp.calls host) read stream ∧
      (l.readSocket (Cpp.calls host) read stream).1.receiver.Bounded := by
  rcases read with _ | ⟨n | _⟩
  · exact ⟨rfl, hb⟩
  · have hlen : (stream.take (min n l.receiver.free)).length ≤ l.receiver.free := by
      rw [List.length_take]
      omega
    have hps := hplain n
    simp only [Loop.readSocket]
    generalize stream.take (min n l.receiver.free) = data at hlen hps
    split
    · exact ⟨rfl, hb⟩
    · cases hpayloads : l.receiver.payloads data with
      | none => exact ⟨rfl, hb⟩
      | some found =>
        obtain ⟨receiver, payloads⟩ := found
        obtain ⟨hbounded, hsmall⟩ := hb.payloads hlen hpayloads
        have hsame : payloads.mapM (C.calls host mem).process =
            payloads.mapM (Cpp.calls host).process :=
          mapM_agree hmem fun p hp => ⟨hsmall p hp, hps _ _ hpayloads p hp⟩
        simp only [hsame, true_and]
        split
        · exact hbounded
        · exact hb
  · exact ⟨rfl, hb⟩

end Agree

theorem resize_receiver (calls : Calls) (l : Loop) (size : Option (UInt16 × UInt16))
    (results : List WriteResult) : (l.resize calls size results).receiver = l.receiver := by
  unfold Loop.resize
  split
  · rcases size with _ | ⟨rows, cols⟩ <;> rfl
  · rfl

theorem readStdin_receiver (calls : Calls) (l : Loop) (read : Option ReadResult)
    (results : List WriteResult) :
    (l.readStdin calls read results).1.receiver = l.receiver := by
  unfold Loop.readStdin
  split
  · split <;> rfl
  · rfl

theorem loopStep_agree (host : Endian) {l : Loop} (hb : l.receiver.Bounded) {e : LoopEvent}
    (he : Plain l e) : loopStep .c host l e = loopStep .cpp host l e ∧
      (loopStep .cpp host l e).receiver.Bounded := by
  cases e with
  | signal sig => cases sig <;> exact ⟨rfl, hb⟩
  | pass p stream =>
    obtain ⟨hmem, hplain⟩ := he
    simp only [loopStep, Kind.calls, Loop.pass]
    split
    · exact ⟨rfl, hb⟩
    split
    · rw [resize_agree hmem]
      have hsame := resize_receiver (Cpp.calls host) l p.size p.resizeWrites
      rw [← hsame] at hb hplain
      generalize l.resize (Cpp.calls host) p.size p.resizeWrites = l at hb hplain
      have hread := p.typed_le
      unfold Loop.polled
      cases hpoll : p.poll with
      | interrupted => exact ⟨rfl, hb⟩
      | failed => exact ⟨rfl, hb⟩
      | ready stdin socket hangup =>
        rw [hpoll] at hread
        have hstdin : ∀ r ∈ stdin, r.bytes.length ≤ 4096 := by
          rintro r rfl
          exact hread
        dsimp only
        rw [readStdin_agree hmem hstdin]
        have hsame := readStdin_receiver (Cpp.calls host) l stdin p.inputWrites
        rw [← hsame] at hb hplain
        generalize l.readStdin (Cpp.calls host) stdin p.inputWrites = input at hb hplain
        obtain ⟨hagree, hbounded⟩ := readSocket_agree hmem hb hplain host socket
        split
        · rw [hagree]
          exact ⟨rfl, hbounded⟩
        · exact ⟨rfl, hb⟩
    · exact ⟨rfl, hb⟩

/-- Step for step the two clients are in the same state: what they have written, printed and kept
is the same. -/
theorem clients_agree (host : Endian) (l : Loop) (hb : l.receiver.Bounded) (es : List LoopEvent)
    (h : Along (loopStep .c host) Plain l es) :
    run (loopStep .c host) l es = run (loopStep .cpp host) l es := by
  induction es generalizing l with
  | nil => rfl
  | cons e es ih =>
    obtain ⟨hagree, hbounded⟩ := loopStep_agree host hb h.1
    rw [run_cons, run_cons, hagree]
    have hrest := h.2
    rw [hagree] at hrest
    exact ih _ hbounded hrest

/-- The window has changed, the user has closed standard input, and nothing is to be read. -/
def closingPass : Pass where
  mem := staleMemory
  size := some (30, 90)
  resizeWrites := [.accepted 100, .accepted 100]
  poll := .ready (some (.data [])) none false
  inputWrites := [.accepted 100, .accepted 100]
  typed_le := by decide

def quietLoop : Loop := .start (List.replicate bufferSize 0)

theorem clients_agree_closing :
    (run (loopStep .cpp .little) quietLoop [.signal .sigwinch, .pass closingPass []]).written =
      [0, 0, 0, 5, 2, 0, 30, 0, 90, 0, 0, 0, 6, 1, 0, 0, 0, 1, 4] ∧
    run (loopStep .c .little) quietLoop [.signal .sigwinch, .pass closingPass []] =
      run (loopStep .cpp .little) quietLoop [.signal .sigwinch, .pass closingPass []] := by
  refine ⟨by decide +kernel, clients_agree .little quietLoop ⟨List.length_replicate, ?_⟩ _ ?_⟩
  · exact Nat.zero_le _
  · refine ⟨trivial, ⟨fun _ => rfl, fun n receiver payloads h => ?_⟩, trivial⟩
    rw [List.take_nil] at h
    have hempty : (quietLoop.receiver.payloads []).map Prod.snd = some [] := by decide +kernel
    have hpayloads := congrArg (Option.map Prod.snd) h
    obtain rfl : payloads = [] := Option.some.inj (hpayloads.symm.trans hempty)
    simp

end MoshTcp.Native
