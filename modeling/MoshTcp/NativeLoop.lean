import MoshTcp.NativeEncode
import MoshTcp.NativeStream
import MoshTcp.NativeInflate
import MoshTcp.ClientReceive
import MoshTcp.ClientInput

/-! The main loop of clients/c/mosh_tcp_client.c and clients/cpp/mosh_tcp_client.cpp, which is the
same statement by statement; the two clients differ in the calls that it makes. -/

set_option autoImplicit false

namespace MoshTcp.Native
open ByteOrder Protocol Client Runs

inductive ReadResult where
  | data (bytes : Bytes)
  | failed
  deriving DecidableEq, Repr

def ReadResult.bytes : ReadResult → Bytes
  | .data bytes => bytes
  | .failed => []

/-- A `read` of the socket: the bytes that are there, `n` at most, or -1. None is the end of the
stream. -/
inductive SocketRead where
  | upTo (n : Nat)
  | failed
  deriving DecidableEq, Repr

inductive Poll where
  | interrupted
  | failed
  | ready (stdin : Option ReadResult) (socket : Option SocketRead) (hangup : Bool)
  deriving DecidableEq, Repr

def Poll.typed : Poll → Bytes
  | .ready (some read) _ _ => read.bytes
  | _ => []

/-- What one pass of the loop meets. `size` holds rows and columns, when `ioctl` succeeds. -/
structure Pass where
  mem : Memory
  size : Option (UInt16 × UInt16)
  resizeWrites : List WriteResult
  poll : Poll
  inputWrites : List WriteResult
  typed_le : poll.typed.length ≤ 4096

inductive Signal where
  | sigwinch | sigint | sigterm
  deriving DecidableEq, Repr

/-- What the loop calls. `hasMemory` says whether the call for a packet gets the memory that it
asks for, and `process` is what becomes of a payload: the bytes for standard output, or `none`
when it is read past its end. -/
structure Calls where
  send : List WriteResult → Packet → Bytes × Bool
  hasMemory : Packet → Bool
  process : Bytes → Option Bytes

/-- `process_packet`. Without memory for the decompressed data the frame is dropped. -/
def C.process (mem : Memory) (payload : Bytes) : Option Bytes :=
  match processPacket payload (UInt32.ofNat payload.length) with
  | .outOfBounds => none
  | view => some ((processPacketOutput (fun data =>
      if (mem.malloc decompressBufferSize).isSome then
        (C.decompressFrame linkedPuff data).toOption
      else none) view).getD [])

/-- C has a function for each packet that it sends; behind the key there are zeros, up to the
end of `session_key`. -/
def C.calls (host : Endian) (mem : Memory) : Calls where
  send := fun results packet =>
    match packet with
    | .clientResize rows cols => sendResize host mem results rows cols
    | .clientInput data => sendInput host mem results data
    | .clientHandshake key rows cols =>
      sendHandshake host mem results
        (some (asBytes key ++ List.replicate (128 - (asBytes key).length) 0)) rows cols
    | _ => ([], false)
  hasMemory := fun packet =>
    match packet with
    | .clientInput data => (mem.malloc (5 + data.length)).isSome
    | .clientHandshake key _ _ => (mem.malloc (7 + (asBytes key).length)).isSome
    | _ => true
  process := C.process mem

def Cpp.handleServerPacket : Packet → Bytes
  | .serverFrame _ data compressed =>
    if compressed then ((Cpp.decompressFrame linkedPuff data).toOption).getD [] else data
  | _ => []

def Cpp.process (payload : Bytes) : Option Bytes :=
  match deserializePacket payload with
  | .outOfBounds => none
  | .packet p => some (Cpp.handleServerPacket p)
  | .nullopt => some []

/-- A C++ client without memory ends with an exception. -/
def Cpp.calls (host : Endian) : Calls where
  send := fun results packet => sendFramedPacket host results packet
  hasMemory := fun _ => true
  process := Cpp.process

inductive Kind where
  | c | cpp
  deriving DecidableEq, Repr

def Kind.calls (host : Endian) (mem : Memory) : Kind → Calls
  | .c => C.calls host mem
  | .cpp => Cpp.calls host

/-- `written` is what the socket has taken, and `printed` what `write_all` was given for standard
output. `typed` (what was read from standard input, with the byte that stands for its end),
`sent` (the packets that there was memory for) and `received` are history variables. -/
structure Loop where
  running : Bool
  sigwinchPending : Bool
  stdinOpen : Bool
  left : Bool
  /-- The loop has read past the end of its data, or runs on for ever. -/
  undefined : Bool
  writable : Bool
  receiver : Receiver
  written : Bytes
  printed : Bytes
  typed : Bytes
  sent : List Packet
  received : Bytes

def Loop.start (netBuf : Bytes) : Loop where
  running := true
  sigwinchPending := false
  stdinOpen := true
  left := false
  undefined := false
  writable := true
  receiver := .start netBuf
  written := []
  printed := []
  typed := []
  sent := []
  received := []

/-- A socket that has failed once takes nothing more. -/
def Loop.send (calls : Calls) (l : Loop) (results : List WriteResult) (packet : Packet) :
    Loop × Bool :=
  let r := calls.send (if l.writable then results else [.failed]) packet
  ({ l with
      written := l.written ++ r.1
      writable := l.writable && (r.2 || !calls.hasMemory packet)
      sent := if calls.hasMemory packet then l.sent ++ [packet] else l.sent }, r.2)

def Loop.handleSignal (l : Loop) : Signal → Loop
  | .sigwinch => { l with sigwinchPending := true }
  | .sigint | .sigterm => { l with running := false }

def Loop.resize (calls : Calls) (l : Loop) (size : Option (UInt16 × UInt16))
    (results : List WriteResult) : Loop :=
  if l.sigwinchPending then
    match size with
    | some (rows, cols) =>
      ({ l with sigwinchPending := false }.send calls results (.clientResize rows cols)).1
    | none => { l with sigwinchPending := false }
  else l

/-- `false` leaves the loop. At the end of its input the client sends a 0x04, ignores the
result, and looks at standard input no more. -/
def Loop.readStdin (calls : Calls) (l : Loop) (read : Option ReadResult)
    (results : List WriteResult) : Loop × Bool :=
  if l.stdinOpen then
    match read with
    | some (.data []) =>
      let l := ({ l with typed := l.typed ++ [4] }.send calls results (.clientInput [4])).1
      ({ l with stdinOpen := false }, true)
    | some (.data data) =>
      { l with typed := l.typed ++ data }.send calls results (.clientInput data)
    | _ => (l, true)
  else (l, true)

def Receiver.inside (r : Receiver) (data : Bytes) : Bool :=
  let netBufLen := r.netBufLen + UInt64.ofNat data.length
  (extractLoop (Buffers.overwrite r.netBuf r.netBufLen.toNat data) netBufLen (bufferSize + 1)
    0).handedOn.all fun h => h.1.toNat + 4 + h.2.toNat ≤ netBufLen.toNat

def Receiver.payloads (r : Receiver) (data : Bytes) : Option (Receiver × List Bytes) :=
  match r.pass data with
  | some next =>
    if r.inside data then some (next, next.handedOn.drop r.handedOn.length) else none
  | none => none

def Loop.readSocket (calls : Calls) (l : Loop) (read : Option SocketRead) (stream : Bytes) :
    Loop × Bool :=
  match read with
  | some (.upTo n) =>
    let data := stream.take (min n l.receiver.free)
    if data.isEmpty then (l, false)
    else
      match l.receiver.payloads data with
      | some (receiver, payloads) =>
        match payloads.mapM calls.process with
        | some outs =>
          ({ l with
              receiver := receiver
              received := l.received ++ data
              printed := l.printed ++ outs.flatten }, true)
        | none => ({ l with undefined := true }, false)
      | none => ({ l with undefined := true }, false)
  | _ => (l, true)

def Loop.polled (calls : Calls) (l : Loop) (p : Pass) (stream : Bytes) : Loop :=
  match p.poll with
  | .interrupted => l
  | .failed => { l with left := true }
  | .ready stdin socket hangup =>
    let input := l.readStdin calls stdin p.inputWrites
    if input.2 then
      let output := input.1.readSocket calls socket stream
      { output.1 with left := !output.2 || hangup }
    else { input.1 with left := true }

def Loop.pass (calls : Calls) (l : Loop) (p : Pass) (stream : Bytes) : Loop :=
  if l.left then l
  else if l.running then (l.resize calls p.size p.resizeWrites).polled calls p stream
  else { l with left := true }

/-! ### What is sent -/

/-- The packets that a client with this key sends, as large as they can be. -/
def Outgoing (sessionKey : String) : Packet → Prop
  | .clientResize _ _ => True
  | .clientInput data => data.length ≤ 4096
  | .clientHandshake key _ _ => key = sessionKey ∧ 0 ∉ asBytes key ∧ (asBytes key).length ≤ 127
  | _ => False

variable {sessionKey : String}

theorem Outgoing.sendable {p : Packet} (h : Outgoing sessionKey p) :
    p.Fits ∧ p.serialize.length < 2 ^ 32 := by
  cases p with
  | clientResize rows cols => exact ⟨trivial, by simp [Packet.serialize]⟩
  | clientInput data =>
    have hlen : data.length ≤ 4096 := h
    refine ⟨show data.length < 2 ^ 32 by omega, ?_⟩
    simp [Packet.serialize]
    omega
  | clientHandshake key rows cols =>
    have hlen := h.2.2
    refine ⟨show (asBytes key).length < 2 ^ 16 by omega, ?_⟩
    simp [Packet.serialize]
    omega
  | _ => exact h.elim

structure Calls.Encodes (calls : Calls) : Prop where
  writes : ∀ {key p}, Outgoing key p → calls.hasMemory p = true →
    ∀ results, calls.send results p = writePacketWith nativeGivesUp results p
  lacks : ∀ {key p}, Outgoing key p → calls.hasMemory p = false →
    ∀ results, calls.send results p = ([], false)

theorem replicate_zero_eq {n : Nat} (h : n ≤ 127) :
    List.replicate (128 - n) (0 : UInt8) = 0 :: List.replicate (127 - n) 0 := by
  rw [← List.replicate_succ]
  congr 1
  omega

theorem C.send_eq (host : Endian) (mem : Memory) (results : List WriteResult) {p : Packet}
    (h : Outgoing sessionKey p) :
    (C.calls host mem).send results p =
      if (C.calls host mem).hasMemory p then writePacketWith nativeGivesUp results p
      else ([], false) := by
  cases p with
  | clientResize rows cols => exact sendResize_eq host mem results rows cols
  | clientInput data =>
    have hlen : data.length ≤ 4096 := h
    exact sendInput_eq host mem results (by omega)
  | clientHandshake key rows cols =>
    obtain ⟨-, hnul, hlen⟩ := h
    simp only [C.calls, replicate_zero_eq hlen]
    exact sendHandshake_eq host mem results hnul (by omega) _ rows cols
  | _ => exact h.elim

theorem Kind.encodes (kind : Kind) (host : Endian) (mem : Memory) :
    (kind.calls host mem).Encodes := by
  cases kind with
  | c =>
    refine ⟨fun hp hmem results => ?_, fun hp hmem results => ?_⟩
    · exact (C.send_eq host mem results hp).trans (if_pos hmem)
    · exact (C.send_eq host mem results hp).trans (if_neg (by rw [Bool.not_eq_true]; exact hmem))
  | cpp =>
    refine ⟨fun _ _ results => sendFramedPacket_eq host results _, fun _ hmem => ?_⟩
    exact Bool.noConfusion hmem

/-- What the socket has taken is a first part of the packets, and all of them as long as no
write has failed. -/
structure Loop.Wrote (sessionKey : String) (l : Loop) : Prop where
  first : l.written <+: encodeAll l.sent
  whole : l.writable = true → l.written = encodeAll l.sent
  outgoing : ∀ p ∈ l.sent, Outgoing sessionKey p

theorem writePacketWith_failed (p : Packet) :
    writePacketWith nativeGivesUp [.failed] p = ([], false) := rfl

theorem encodeAll_snoc (ps : List Packet) (p : Packet) :
    encodeAll (ps ++ [p]) = encodeAll ps ++ PacketCodec.encode p := by
  rw [encodeAll_append, encodeAll_cons, encodeAll_nil, List.append_nil]

section Sending
variable {calls : Calls} {l : Loop}

theorem send_wrote (hc : calls.Encodes) (h : l.Wrote sessionKey) (results : List WriteResult)
    {p : Packet} (hp : Outgoing sessionKey p) : (l.send calls results p).1.Wrote sessionKey := by
  have houtgoing : ∀ q ∈ l.sent ++ [p], Outgoing sessionKey q := by
    intro q hq
    cases List.mem_append.1 hq with
    | inl hq => exact h.outgoing q hq
    | inr hq => rwa [List.mem_singleton.1 hq]
  rw [Loop.send]
  cases hmem : calls.hasMemory p with
  | false =>
    rw [hc.lacks hp hmem]
    refine ⟨?_, ?_, h.outgoing⟩
    · simpa using h.first
    · simpa using h.whole
  | true =>
    rw [hc.writes hp hmem]
    have hsends : Sends nativeGivesUp (fun results => writePacketWith nativeGivesUp results p)
        (PacketCodec.encode p) := sends_of_eq fun _ => rfl
    cases hw : l.writable with
    | false =>
      refine ⟨?_, fun h => Bool.noConfusion h, houtgoing⟩
      simp only [if_neg (Bool.noConfusion : ¬ false = true), writePacketWith_failed,
        List.append_nil, if_true, encodeAll_snoc]
      exact h.first.trans (List.prefix_append _ _)
    | true =>
      refine ⟨?_, fun hok => ?_, houtgoing⟩
      · simp only [if_true, encodeAll_snoc, h.whole hw]
        exact (List.prefix_append_right_inj _).2 (hsends.first results)
      · simp only [Bool.true_and, Bool.not_true, Bool.or_false, if_true] at hok
        simp only [if_true, encodeAll_snoc, h.whole hw, hsends.whole results hok]

/-- The bytes for the shell among the packets sent are a first part of what was typed, and all of
it as long as standard input is read. -/
structure Loop.Inputs (sessionKey : String) (l : Loop) : Prop where
  wrote : l.Wrote sessionKey
  first : inputData l.sent <+: l.typed
  live : l.left = false → l.stdinOpen = true → inputData l.sent = l.typed

theorem inputData_send (calls : Calls) (l : Loop) (results : List WriteResult) (p : Packet) :
    inputData (l.send calls results p).1.sent =
      inputData l.sent ++ if calls.hasMemory p then inputData [p] else [] := by
  simp only [Loop.send]
  split
  · exact List.flatMap_append
  · exact (List.append_nil _).symm

theorem resize_inputs (hc : calls.Encodes) (h : l.Inputs sessionKey)
    (size : Option (UInt16 × UInt16)) (results : List WriteResult) :
    (l.resize calls size results).Inputs sessionKey := by
  unfold Loop.resize
  split
  · rcases size with _ | ⟨rows, cols⟩
    · exact ⟨⟨h.wrote.first, h.wrote.whole, h.wrote.outgoing⟩, h.first, h.live⟩
    · have hwrote : Loop.Wrote sessionKey { l with sigwinchPending := false } :=
        ⟨h.wrote.first, h.wrote.whole, h.wrote.outgoing⟩
      have hdata := inputData_send calls { l with sigwinchPending := false } results
        (.clientResize rows cols)
      have hnone : inputData [.clientResize rows cols] = [] := rfl
      rw [hnone, ite_self, List.append_nil] at hdata
      refine ⟨send_wrote hc hwrote results trivial, ?_, fun hleft hopen => ?_⟩
      · rw [hdata]
        exact h.first
      · rw [hdata]
        exact h.live hleft hopen
  · exact h

theorem resize_left (size : Option (UInt16 × UInt16)) (results : List WriteResult) :
    (l.resize calls size results).left = l.left := by
  unfold Loop.resize
  split
  · rcases size with _ | ⟨rows, cols⟩ <;> rfl
  · rfl

theorem typed_inputs (hc : calls.Encodes) (h : l.Inputs sessionKey) (hleft : l.left = false)
    (hopen : l.stdinOpen = true) {data : Bytes} (hdata : data.length ≤ 4096)
    (results : List WriteResult) :
    ({ l with typed := l.typed ++ data }.send calls results (.clientInput data)).1.Wrote
        sessionKey ∧
      inputData ({ l with typed := l.typed ++ data }.send calls results (.clientInput data)).1.sent
        <+: l.typed ++ data ∧
      (({ l with typed := l.typed ++ data }.send calls results (.clientInput data)).2 = true →
        inputData ({ l with typed := l.typed ++ data }.send calls results
          (.clientInput data)).1.sent = l.typed ++ data) := by
  have hwrote : Loop.Wrote sessionKey { l with typed := l.typed ++ data } :=
    ⟨h.wrote.first, h.wrote.whole, h.wrote.outgoing⟩
  have hsent := inputData_send calls { l with typed := l.typed ++ data } results
    (.clientInput data)
  have hone : inputData [.clientInput data] = data := List.append_nil data
  have hlive : inputData l.sent = l.typed := h.live hleft hopen
  rw [hone] at hsent
  refine ⟨send_wrote hc hwrote results hdata, ?_, fun hok => ?_⟩
  · rw [hsent, hlive]
    split
    · exact List.prefix_rfl
    · exact (List.prefix_append_right_inj _).2 List.nil_prefix
  · have hmem : calls.hasMemory (.clientInput data) = true := by
      by_contra hno
      rw [Bool.not_eq_true] at hno
      have hout : Outgoing sessionKey (.clientInput data) := hdata
      have hlacks := hc.lacks hout hno
      rw [Loop.send, hlacks] at hok
      exact Bool.noConfusion hok
    rw [hsent, hlive, if_pos hmem]

theorem readStdin_inputs (hc : calls.Encodes) (h : l.Inputs sessionKey) (hleft : l.left = false)
    {read : Option ReadResult} (hread : ∀ r ∈ read, r.bytes.length ≤ 4096)
    (results : List WriteResult) :
    (l.readStdin calls read results).1.Wrote sessionKey ∧
      inputData (l.readStdin calls read results).1.sent <+:
        (l.readStdin calls read results).1.typed ∧
      ((l.readStdin calls read results).2 = true →
        (l.readStdin calls read results).1.stdinOpen = true →
        inputData (l.readStdin calls read results).1.sent =
          (l.readStdin calls read results).1.typed) := by
  unfold Loop.readStdin
  split
  · rename_i hopen
    split
    · have hone : ([4] : Bytes).length ≤ 4096 := by decide
      obtain ⟨hwrote, hfirst, -⟩ := typed_inputs hc h hleft hopen hone results
      exact ⟨⟨hwrote.first, hwrote.whole, hwrote.outgoing⟩, hfirst,
        fun _ hclosed => Bool.noConfusion hclosed⟩
    · rename_i data _
      obtain ⟨hwrote, hfirst, hwhole⟩ := typed_inputs hc h hleft hopen (hread _ rfl) results
      exact ⟨hwrote, hfirst, fun hok _ => hwhole hok⟩
    · exact ⟨h.wrote, h.first, fun _ => h.live hleft⟩
  · exact ⟨h.wrote, h.first, fun _ => h.live hleft⟩

structure SameInput (l l' : Loop) : Prop where
  written : l'.written = l.written
  writable : l'.writable = l.writable
  sent : l'.sent = l.sent
  typed : l'.typed = l.typed
  stdinOpen : l'.stdinOpen = l.stdinOpen

theorem readSocket_sameInput (calls : Calls) (l : Loop) (read : Option SocketRead)
    (stream : Bytes) : SameInput l (l.readSocket calls read stream).1 := by
  unfold Loop.readSocket
  split
  · dsimp only
    split
    · exact ⟨rfl, rfl, rfl, rfl, rfl⟩
    · split
      · split <;> exact ⟨rfl, rfl, rfl, rfl, rfl⟩
      · exact ⟨rfl, rfl, rfl, rfl, rfl⟩
  · exact ⟨rfl, rfl, rfl, rfl, rfl⟩

theorem left_inputs (hwrote : l.Wrote sessionKey) (hfirst : inputData l.sent <+: l.typed) :
    Loop.Inputs sessionKey { l with left := true } :=
  ⟨⟨hwrote.first, hwrote.whole, hwrote.outgoing⟩, hfirst, fun h => Bool.noConfusion h⟩

theorem polled_inputs (hc : calls.Encodes) (h : l.Inputs sessionKey) (hleft : l.left = false)
    (p : Pass) (stream : Bytes) : (l.polled calls p stream).Inputs sessionKey := by
  have hread := p.typed_le
  unfold Loop.polled
  split
  · exact h
  · exact left_inputs h.wrote h.first
  · rename_i stdin socket hangup hpoll
    rw [hpoll] at hread
    have hstdin : ∀ r ∈ stdin, r.bytes.length ≤ 4096 := by
      rintro r rfl
      exact hread
    obtain ⟨hwrote, hfirst, hwhole⟩ := readStdin_inputs hc h hleft hstdin p.inputWrites
    dsimp only
    split
    · rename_i hok
      have hsame := readSocket_sameInput calls (l.readStdin calls stdin p.inputWrites).1 socket
        stream
      refine ⟨⟨?_, ?_, ?_⟩, ?_, fun _ hopen => ?_⟩
      · rw [hsame.written, hsame.sent]
        exact hwrote.first
      · rw [hsame.writable, hsame.written, hsame.sent]
        exact hwrote.whole
      · rw [hsame.sent]
        exact hwrote.outgoing
      · rw [hsame.sent, hsame.typed]
        exact hfirst
      · rw [hsame.sent, hsame.typed]
        exact hwhole hok (hsame.stdinOpen.symm.trans hopen)
    · exact left_inputs hwrote hfirst

theorem pass_inputs (hc : calls.Encodes) (h : l.Inputs sessionKey) (p : Pass) (stream : Bytes) :
    (l.pass calls p stream).Inputs sessionKey := by
  unfold Loop.pass
  split
  · exact h
  · rename_i hin
    split
    · refine polled_inputs hc (resize_inputs hc h p.size p.resizeWrites) ?_ p stream
      rw [resize_left]
      exact Bool.eq_false_iff.2 hin
    · exact left_inputs h.wrote h.first

section Memory
variable (hmem : ∀ p, calls.hasMemory p = true) (h : inputData l.sent = l.typed)
include hmem h

theorem typed_complete (data : Bytes) (results : List WriteResult) :
    inputData ({ l with typed := l.typed ++ data }.send calls results (.clientInput data)).1.sent =
      l.typed ++ data := by
  have hone : inputData [.clientInput data] = data := List.append_nil data
  rw [inputData_send, hone, if_pos (hmem _)]
  exact congrArg (· ++ data) h

omit hmem in
theorem resize_complete (size : Option (UInt16 × UInt16)) (results : List WriteResult) :
    inputData (l.resize calls size results).sent = (l.resize calls size results).typed := by
  unfold Loop.resize
  split
  · rcases size with _ | ⟨rows, cols⟩
    · exact h
    · have hnone : inputData [.clientResize rows cols] = [] := rfl
      dsimp only
      rw [inputData_send, hnone, ite_self, List.append_nil]
      exact h
  · exact h

theorem readStdin_complete (read : Option ReadResult) (results : List WriteResult) :
    inputData (l.readStdin calls read results).1.sent =
      (l.readStdin calls read results).1.typed := by
  unfold Loop.readStdin
  split
  · split
    · exact typed_complete hmem h [4] results
    · exact typed_complete hmem h _ results
    · exact h
  · exact h

theorem polled_complete (p : Pass) (stream : Bytes) :
    inputData (l.polled calls p stream).sent = (l.polled calls p stream).typed := by
  unfold Loop.polled
  split
  · exact h
  · exact h
  · rename_i stdin socket hangup _
    have hinput := readStdin_complete hmem h stdin p.inputWrites
    dsimp only
    split
    · have hsame := readSocket_sameInput calls (l.readStdin calls stdin p.inputWrites).1 socket
        stream
      rw [hsame.sent, hsame.typed]
      exact hinput
    · exact hinput

theorem pass_complete (p : Pass) (stream : Bytes) :
    inputData (l.pass calls p stream).sent = (l.pass calls p stream).typed := by
  unfold Loop.pass
  split
  · exact h
  · split
    · exact polled_complete hmem (resize_complete h p.size p.resizeWrites) p stream
    · exact h

end Memory

end Sending

end MoshTcp.Native
