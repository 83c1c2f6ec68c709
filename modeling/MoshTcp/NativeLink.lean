import MoshTcp.NativeLoop
import MoshTcp.LinkInput

/-! The C or the C++ client and a server, joined by a TCP connection. Passes of the client's main
loop, signals, the server's threads and the arrival of bytes take turns in any order. -/

set_option autoImplicit false

namespace MoshTcp.NativeLink
open ByteOrder Protocol Client Native Runs StreamDecoder

/-- A client, with the memory and the window that it starts with, and a server. The key was read
by `sscanf` into 128 bytes. -/
structure Setup (ρ τ ε : Type) where
  kind : Kind
  host : Endian
  mem : Memory
  sessionKey : String
  size : Option (UInt16 × UInt16)
  netBuf : Bytes
  server : Server.Config ρ τ ε
  key_plain : 0 ∉ asBytes sessionKey
  key_length : (asBytes sessionKey).length ≤ 127
  netBuf_length : netBuf.length = bufferSize

structure State (ρ τ : Type) where
  client : Loop
  server : Server.Connection ρ τ

/-- `killed` is the end of the process, as by the SIGPIPE that a write may raise, and
`sendTaskDone` that of the server's connection once its send loop is over. -/
inductive Event (ε : Type) where
  | signal (sig : Signal)
  | pass (p : Pass)
  | killed
  | toServer (n : Nat)
  | hangup
  | next
  | server (e : Server.Event ε) (h : Server.ServerSide e)
  | sendTaskDone

variable {ρ τ ε : Type}

def Setup.handshake (setup : Setup ρ τ ε) : Packet :=
  .clientHandshake setup.sessionKey (setup.size.getD (24, 80)).1 (setup.size.getD (24, 80)).2

def Setup.calls (setup : Setup ρ τ ε) (mem : Memory) : Calls := setup.kind.calls setup.host mem

/-- The result of sending the handshake is ignored. -/
def State.start (setup : Setup ρ τ ε) (results : List WriteResult) : State ρ τ where
  client := ((Loop.start setup.netBuf).send (setup.calls setup.mem) results setup.handshake).1
  server := .start setup.server

/-- Written by the client, not yet at the server. -/
def State.uplink (s : State ρ τ) : Bytes := s.client.written.drop s.server.received.length

def State.downlink (s : State ρ τ) : Bytes :=
  encodeAll (s.server.session.sent.map Server.Sent.packet)

/-- Sent by the server, not yet read by the client. -/
def State.unread (s : State ρ τ) : Bytes := s.downlink.drop s.client.received.length

def step (setup : Setup ρ τ ε) (s : State ρ τ) : Event ε → State ρ τ
  | .signal sig => { s with client := s.client.handleSignal sig }
  | .pass p => { s with client := s.client.pass (setup.calls p.mem) p s.unread }
  | .killed => { s with client := { s.client with left := true } }
  | .toServer n =>
    { s with server := Server.socketStep setup.server s.server (.arrive (s.uplink.take n)) }
  | .hangup => { s with server := Server.socketStep setup.server s.server .hangup }
  | .next => { s with server := Server.socketStep setup.server s.server .next }
  | .server e h => { s with server := Server.socketStep setup.server s.server (.server e h) }
  | .sendTaskDone => { s with server := s.server.sendTaskDone setup.server }

/-- The state after a run, when the writes of the handshake went as `results` says. -/
def link (setup : Setup ρ τ ε) (results : List WriteResult) (es : List (Event ε)) : State ρ τ :=
  run (step setup) (.start setup results) es

theorem link_append (setup : Setup ρ τ ε) (results : List WriteResult) (es fs : List (Event ε)) :
    link setup results (es ++ fs) = run (step setup) (link setup results es) fs :=
  run_append _ _ es fs

variable {setup : Setup ρ τ ε} {s : State ρ τ}

structure Uplink (setup : Setup ρ τ ε) (s : State ρ τ) : Prop where
  inputs : s.client.Inputs setup.sessionKey
  received : s.server.received <+: s.client.written
  served : Server.Served setup.server s.server

theorem outgoing_handshake (setup : Setup ρ τ ε) :
    Outgoing setup.sessionKey setup.handshake := ⟨rfl, setup.key_plain, setup.key_length⟩

theorem start_wrote (key : String) (netBuf : Bytes) : (Loop.start netBuf).Wrote key :=
  ⟨List.prefix_rfl, fun _ => rfl, by simp [Loop.start]⟩

theorem start_uplink (setup : Setup ρ τ ε) (results : List WriteResult) :
    Uplink setup (.start setup results) := by
  have hdata := inputData_send (setup.calls setup.mem) (Loop.start setup.netBuf) results
    setup.handshake
  have hnone : inputData [setup.handshake] = [] := rfl
  rw [hnone, ite_self, List.append_nil] at hdata
  refine ⟨⟨?_, ?_, fun _ _ => hdata⟩, List.nil_prefix, .handled [] (Server.start_handled _)⟩
  · exact send_wrote (setup.kind.encodes _ _) (start_wrote _ _) results
      (outgoing_handshake setup)
  · exact hdata ▸ List.nil_prefix

theorem handleSignal_inputs {key : String} {l : Loop} (h : l.Inputs key) (sig : Signal) :
    (l.handleSignal sig).Inputs key := by
  cases sig <;> exact ⟨⟨h.wrote.first, h.wrote.whole, h.wrote.outgoing⟩, h.first, h.live⟩

theorem send_written (calls : Calls) (l : Loop) (results : List WriteResult) (p : Packet) :
    l.written <+: (l.send calls results p).1.written := List.prefix_append _ _

theorem resize_written (calls : Calls) (l : Loop) (size : Option (UInt16 × UInt16))
    (results : List WriteResult) : l.written <+: (l.resize calls size results).written := by
  unfold Loop.resize
  split
  · rcases size with _ | ⟨rows, cols⟩
    · exact List.prefix_rfl
    · exact send_written _ _ _ _
  · exact List.prefix_rfl

theorem readStdin_written (calls : Calls) (l : Loop) (read : Option ReadResult)
    (results : List WriteResult) :
    l.written <+: (l.readStdin calls read results).1.written := by
  unfold Loop.readStdin
  split
  · split
    · exact send_written calls { l with typed := l.typed ++ [4] } results _
    · exact send_written calls { l with typed := _ } results _
    · exact List.prefix_rfl
  · exact List.prefix_rfl

theorem pass_written (calls : Calls) (l : Loop) (p : Pass) (stream : Bytes) :
    l.written <+: (l.pass calls p stream).written := by
  unfold Loop.pass
  split
  · exact List.prefix_rfl
  split
  · refine (resize_written calls l p.size p.resizeWrites).trans ?_
    generalize l.resize calls p.size p.resizeWrites = l
    unfold Loop.polled
    split
    · exact List.prefix_rfl
    · exact List.prefix_rfl
    · rename_i stdin socket hangup _
      have hinput := readStdin_written calls l stdin p.inputWrites
      dsimp only
      split
      · rw [(readSocket_sameInput calls _ socket stream).written]
        exact hinput
      · exact hinput
  · exact List.prefix_rfl

theorem server_uplink (h : Uplink setup s) {e : Server.SocketEvent ε}
    (he : (Server.socketStep setup.server s.server e).received = s.server.received) :
    Uplink setup { s with server := Server.socketStep setup.server s.server e } := by
  refine ⟨h.inputs, ?_, Server.socketStep_served h.served e⟩
  rw [he]
  exact h.received

theorem received_append (h : Uplink setup s) (n : Nat) :
    s.server.received ++ s.uplink.take n <+: s.client.written := by
  obtain ⟨more, hmore⟩ := h.received
  have huplink : s.uplink = more := by rw [State.uplink, ← hmore, List.drop_left]
  rw [huplink, ← hmore]
  exact (List.prefix_append_right_inj _).2 (List.take_prefix _ _)

theorem step_uplink (h : Uplink setup s) (e : Event ε) : Uplink setup (step setup s e) := by
  cases e with
  | signal sig =>
    refine ⟨handleSignal_inputs h.inputs sig, ?_, h.served⟩
    cases sig <;> exact h.received
  | pass p =>
    refine ⟨pass_inputs (setup.kind.encodes _ _) h.inputs p s.unread, ?_, h.served⟩
    exact h.received.trans (pass_written _ _ p s.unread)
  | killed => exact ⟨left_inputs h.inputs.wrote h.inputs.first, h.received, h.served⟩
  | toServer n =>
    refine ⟨h.inputs, ?_, Server.socketStep_served h.served (.arrive (s.uplink.take n))⟩
    simp only [step, Server.socketStep]
    split
    · exact h.received
    · exact received_append h n
  | hangup => exact server_uplink h rfl
  | next => exact server_uplink h (Link.nextPacket_received _ _)
  | server e he => exact server_uplink h rfl
  | sendTaskDone => exact ⟨h.inputs, h.received, Server.sendTaskDone_served h.served⟩

theorem link_uplink (setup : Setup ρ τ ε) (results : List WriteResult) (es : List (Event ε)) :
    Uplink setup (link setup results es) :=
  run_preserves (start_uplink setup results) (fun _ e h => step_uplink h e) es

theorem Uplink.sendable (h : Uplink setup s) : Sendable s.client.sent :=
  fun p hp => (h.inputs.wrote.outgoing p hp).sendable

/-- What the shell has read is the input of the first packets that the client sent. -/
theorem Uplink.reads (h : Uplink setup s) : ∃ done,
    s.server.session.ptyInput = done.flatMap Server.inputData ∧ done <+: s.client.sent := by
  obtain ⟨done, hinput, hfirst⟩ := h.served.reads
  have hreceived := codec.drain_prefix (h.received.trans h.inputs.wrote.first)
  rw [Link.drain_sendable h.sendable] at hreceived
  exact ⟨done, hinput, hfirst.trans hreceived⟩

/-- Whatever the loop meets and wherever the connection fails, the shell has read a first part of
what was typed. -/
theorem shell_reads_input (setup : Setup ρ τ ε) (results : List WriteResult)
    (es : List (Event ε)) :
    (link setup results es).server.session.ptyInput <+: (link setup results es).client.typed := by
  have h := link_uplink setup results es
  obtain ⟨done, hinput, hfirst⟩ := h.reads
  rw [hinput]
  exact (Link.flatMap_prefix Server.inputData hfirst).trans h.inputs.first

/-! ### Nothing gets stuck -/

/-- There is memory for all that the step asks for. -/
def Event.Memory : Event ε → Prop
  | .pass p => ∀ n, (p.mem.malloc n).isSome
  | _ => True

theorem hasMemory_calls (kind : Kind) (host : Endian) {mem : Memory}
    (h : ∀ n, (mem.malloc n).isSome) (p : Packet) : (kind.calls host mem).hasMemory p = true := by
  cases kind with
  | c => cases p <;> first | rfl | exact h _
  | cpp => rfl

theorem step_complete (h : inputData s.client.sent = s.client.typed) (e : Event ε)
    (he : e.Memory) :
    inputData (step setup s e).client.sent = (step setup s e).client.typed := by
  cases e with
  | signal sig => cases sig <;> exact h
  | pass p => exact pass_complete (hasMemory_calls setup.kind setup.host he) h p s.unread
  | _ => exact h

theorem link_complete (setup : Setup ρ τ ε) (results : List WriteResult) {es : List (Event ε)}
    (hes : ∀ e ∈ es, e.Memory) : inputData (link setup results es).client.sent =
      (link setup results es).client.typed := by
  have hnone : inputData [setup.handshake] = [] := rfl
  refine run_invariant (I := fun s : State ρ τ => inputData s.client.sent = s.client.typed)
    (P := fun _ e => Event.Memory e) ?_ (fun _ e h he => step_complete h e he)
    (along_of_forall fun _ e he => hes e he)
  simp only [State.start, inputData_send, hnone, ite_self]
  rfl

theorem run_next (setup : Setup ρ τ ε) (s : State ρ τ) (n : Nat) :
    run (step setup) s (List.replicate n .next) =
      { s with
        server := run (Server.socketStep setup.server) s.server (List.replicate n .next) } := by
  induction n generalizing s with
  | zero => rfl
  | succ n ih =>
    rw [List.replicate_succ, run_cons, ih]
    rfl

theorem Uplink.settled (h : Uplink setup s)
    (hok : setup.sessionKey = "" ∨ setup.sessionKey = setup.server.expectedKey)
    (hserving : s.server.session.sendLoopEnded = false)
    (hreceived : s.server.received = encodeAll s.client.sent) (hs : Server.Settled s.server) :
    s.server.session.ptyInput = inputData s.client.sent ∧
      s.server.session.ptySize = Server.lastSize s.client.sent := by
  obtain ⟨done, hdone⟩ := h.served.running hserving
  have hclean : ∀ p ∈ s.client.sent, Server.stops setup.server.expectedKey p = false := by
    intro p hp
    have hout := h.inputs.wrote.outgoing p hp
    cases p with
    | clientHandshake key rows cols =>
      obtain rfl : key = setup.sessionKey := hout.1
      rw [Server.stops, decide_eq_false_iff_not]
      tauto
    | _ => rfl
  have haccepted : Server.accepted setup.server.expectedKey s.client.sent = s.client.sent := by
    rw [Server.accepted, List.takeWhile_eq_self_iff]
    intro p hp
    rw [hclean p hp]
    rfl
  have hall := hdone.all hs
  rw [hreceived, Link.drain_sendable h.sendable, haccepted] at hall
  constructor
  · rw [hdone.input, ← hall]
    rfl
  · rw [hdone.size, ← hall]

/-- As long as the socket takes bytes and the server reads on and still sends, all that was typed
gets to the shell: it is already on its way. -/
theorem input_reaches_shell (setup : Setup ρ τ ε)
    (hok : setup.sessionKey = "" ∨ setup.sessionKey = setup.server.expectedKey)
    (results : List WriteResult) (es : List (Event ε)) (hes : ∀ e ∈ es, e.Memory)
    (hwritable : (link setup results es).client.writable = true)
    (hopen : (link setup results es).server.closed = false)
    (hserving : (link setup results es).server.session.sendLoopEnded = false) :
    ∃ n k,
      (link setup results (es ++ .toServer n :: List.replicate k .next)).client =
        (link setup results es).client ∧
      (link setup results (es ++ .toServer n :: List.replicate k .next)).server.session.ptyInput =
        (link setup results es).client.typed ∧
      (link setup results (es ++ .toServer n :: List.replicate k .next)).server.session.ptySize =
        Server.lastSize (link setup results es).client.sent := by
  have hlink := link_uplink setup results es
  have hcomplete := link_complete setup results hes
  obtain ⟨s, hs⟩ : ∃ s, s = link setup results es := ⟨_, rfl⟩
  rw [← hs] at hlink hcomplete hwritable hopen hserving ⊢
  obtain ⟨t, ht⟩ : ∃ t, t = step setup s (.toServer s.uplink.length : Event ε) := ⟨_, rfl⟩
  have hclient : t.client = s.client := ht ▸ rfl
  have hreceived : t.server.received = encodeAll s.client.sent := by
    rw [ht]
    simp only [step, Server.socketStep, hopen, Bool.false_eq_true, if_false, List.take_length]
    obtain ⟨more, hmore⟩ := hlink.received
    rw [State.uplink, ← hmore, List.drop_left, hmore, hlink.inputs.wrote.whole hwritable]
  obtain ⟨k, hk⟩ : ∃ k, t.server.readBuf.length < k := ⟨_, Nat.lt_succ_self _⟩
  obtain ⟨u, hu⟩ : ∃ u, u = run (step setup) t (List.replicate k (.next : Event ε)) := ⟨_, rfl⟩
  have hrun : link setup results (es ++ .toServer s.uplink.length :: List.replicate k .next) =
      u := by
    rw [link_append, ← hs, run_cons, ← ht, ← hu]
  have hulink : Uplink setup u := by
    rw [← hrun]
    exact link_uplink setup results _
  have hnext := hu.trans (run_next setup t k)
  have huclient : u.client = s.client := by rw [hnext, ← hclient]
  have hureceived : u.server.received = encodeAll u.client.sent := by
    rw [huclient, ← hreceived, hnext]
    exact Link.run_next_received setup.server t.server k
  have hsettled : Server.Settled u.server := by
    rw [hnext]
    exact Server.run_next_settled k t.server (.inr hk)
  have huserving : u.server.session.sendLoopEnded = false := by
    rw [hnext]
    refine (Link.run_next_sendLoopEnded setup.server t.server k).trans ?_
    rw [ht]
    exact (congrArg Server.Session.sendLoopEnded
      (Server.arrive_session setup.server s.server _)).trans hserving
  obtain ⟨hinput, hsize⟩ := hulink.settled hok huserving hureceived hsettled
  refine ⟨s.uplink.length, k, ?_, ?_, ?_⟩
  · rw [hrun, huclient]
  · rw [hrun, hinput, huclient, hcomplete]
  · rw [hrun, hsize, huclient]

/-- A C client on a little-endian machine and a server over the recording emulator. -/
def recordingSetup : Setup (UInt16 × UInt16 × Bytes) ℚ ℚ where
  kind := .c
  host := .little
  mem := staleMemory
  sessionKey := "k"
  size := some (24, 80)
  netBuf := List.replicate bufferSize 0xAA
  server := Server.recordingServer 6
  key_plain := by decide +kernel
  key_length := by decide +kernel
  netBuf_length := List.length_replicate

def typingPass : Pass where
  mem := staleMemory
  size := none
  resizeWrites := []
  poll := .ready (some (.data [0x6C, 0x73])) none false
  inputWrites := [.accepted 100, .interrupted, .accepted 2, .accepted 100]
  typed_le := by decide

theorem input_reaches_shell_typing_pass :
    (link recordingSetup [.accepted 100, .accepted 100] [.pass typingPass]).uplink ≠ [] ∧
      ∃ n k, (link recordingSetup [.accepted 100, .accepted 100]
        ([.pass typingPass] ++ .toServer n :: List.replicate k .next)).server.session.ptyInput =
          [0x6C, 0x73] := by
  have hmem : ∀ e ∈ [(.pass typingPass : Event ℚ)], e.Memory := by
    intro e he
    rw [List.mem_singleton.1 he]
    exact fun _ => rfl
  obtain ⟨n, k, -, hinput, -⟩ := input_reaches_shell recordingSetup (.inr rfl)
    [.accepted 100, .accepted 100] [.pass typingPass] hmem (by decide +kernel) (by decide +kernel)
    (by decide +kernel)
  have htyped : (link recordingSetup [.accepted 100, .accepted 100]
      [.pass typingPass]).client.typed = [0x6C, 0x73] := by decide +kernel
  exact ⟨by decide +kernel, n, k, hinput.trans htyped⟩

end MoshTcp.NativeLink
