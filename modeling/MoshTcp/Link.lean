import MoshTcp.ClientInput
import MoshTcp.ClientReceive
import MoshTcp.ServerInput

/-! A client and a server, joined by a TCP connection. The three threads of the client
(src/client.rs), the two bytestreams and the server's connection take their steps in any
order; a bytestream hands over any number of its bytes at a time, in order. -/

set_option autoImplicit false

namespace MoshTcp.Link
open ByteOrder Protocol Client Runs

/-- Where a thread stands: before its test of `running`, in the call that blocks, or out of
its loop. The process ends when the receiver is out of its loop. -/
inductive Stage where
  | test | blocked | left
  deriving DecidableEq, Repr

/-- `typed` (all bytes that `stdin().read` returned) and `shown` (all packets that
`read_packet` returned) are history variables. -/
structure State (σ ρ τ : Type) where
  client : InputLoop σ
  typed : Bytes
  taken : Nat
  sender : Stage
  receiver : Stage
  writable : Bool
  uplink : Bytes
  server : Server.Connection ρ τ
  arrived : Nat
  unread : Bytes
  shown : List Packet

/-- A write takes `accepted` bytes or all that there are, and fails in the first case.
`sendTaskDone` ends the server's connection once its send loop is over. -/
inductive Event (ε : Type) where
  | stdin (size : Option (UInt16 × UInt16)) (read : StdinRead)
  | sender (accepted : Nat)
  | receiver
  | connectionError
  | toServer (n : Nat)
  | hangup
  | toClient (n : Nat)
  | next
  | server (e : Server.Event ε) (h : Server.ServerSide e)
  | sendTaskDone

structure Setup (σ ρ τ ε : Type) where
  vt : Vt100 σ
  server : Server.Config ρ τ ε
  os : Platform
  enablePredictive : Bool
  sessionKey : String
  size : Option (UInt16 × UInt16)
  threadSize : Option (UInt16 × UInt16)

variable {σ ρ τ ε : Type} (setup : Setup σ ρ τ ε)

def Setup.handshake : Packet :=
  .clientHandshake setup.sessionKey (setup.size.getD (80, 24)).2 (setup.size.getD (80, 24)).1

/-- The result of `write_packet` is ignored for the handshake. -/
def State.start (accepted : Nat) : State σ ρ τ where
  client := .start setup.vt setup.enablePredictive setup.size setup.threadSize
  typed := []
  taken := 0
  sender := .test
  receiver := .test
  writable := (PacketCodec.encode setup.handshake).length ≤ accepted
  uplink := (PacketCodec.encode setup.handshake).take accepted
  server := .start setup.server
  arrived := 0
  unread := []
  shown := []

def readData : StdinRead → Bytes
  | .ok data => data
  | _ => []

def State.stdin (s : State σ ρ τ) (size : Option (UInt16 × UInt16)) (read : StdinRead) :
    State σ ρ τ :=
  if s.receiver = .left then s
  else
    { s with
      client := s.client.step setup.vt (.pass size read)
      typed := if s.client.left || !s.client.running then s.typed else s.typed ++ readData read }

/-- `write_packet`. A socket that has failed once takes nothing more. -/
def State.write (s : State σ ρ τ) (packet : Packet) (accepted : Nat) : State σ ρ τ :=
  if s.writable then
    if (PacketCodec.encode packet).length ≤ accepted then
      { s with uplink := s.uplink ++ PacketCodec.encode packet, sender := .test }
    else
      { s with
        uplink := s.uplink ++ (PacketCodec.encode packet).take accepted
        writable := false
        sender := .left }
  else { s with sender := .left }

/-- The sender thread. `recv` fails when the channel is empty and the stdin thread is gone. -/
def State.send (s : State σ ρ τ) (accepted : Nat) : State σ ρ τ :=
  if s.receiver = .left then s
  else match s.sender with
    | .test => { s with sender := if s.client.running then .blocked else .left }
    | .blocked =>
      match s.client.queued[s.taken]? with
      | some packet => { s with taken := s.taken + 1 }.write packet accepted
      | none => { s with sender := if s.client.left then .left else .blocked }
    | .left => s

def render (gz : Gzip) (client : InputLoop σ) : Packet → InputLoop σ
  | .serverFrame _ data compressed =>
    match decompressData gz data compressed with
    | some raw => client.step setup.vt (.frame raw)
    | none => client
  | _ => client

/-- The receive loop. A read that finds less than a packet has timed out, and the bytes that
it took are gone. -/
def State.receive (s : State σ ρ τ) : State σ ρ τ :=
  match s.receiver with
  | .test => { s with receiver := if s.client.running then .blocked else .left }
  | .blocked =>
    match readPacket (Bursts.readExact setup.os) ⟨s.unread, []⟩ with
    | (.ok packet, rest) =>
      { s with
        client := render setup setup.server.gzip s.client packet
        receiver := .test
        unread := rest.now
        shown := s.shown ++ [packet] }
    | (.error e, rest) =>
      if e.kind = .wouldBlock ∨ e.kind = .timedOut then
        { s with receiver := .test, unread := rest.now }
      else
        { s with
          client := s.client.step setup.vt .stop
          receiver := .left
          unread := rest.now }
  | .left => s

def State.downlink (s : State σ ρ τ) : Bytes :=
  encodeAll (s.server.session.sent.map Server.Sent.packet)

def step (s : State σ ρ τ) : Event ε → State σ ρ τ
  | .stdin size read => s.stdin setup size read
  | .sender accepted => s.send accepted
  | .receiver => s.receive setup
  | .connectionError =>
    if s.receiver = .blocked then
      { s with client := s.client.step setup.vt .stop, receiver := .left }
    else s
  | .toServer n =>
    if s.server.closed then s
    else
      { s with
        server := Server.socketStep setup.server s.server (.arrive (s.uplink.take n))
        uplink := s.uplink.drop n }
  | .hangup => { s with server := Server.socketStep setup.server s.server .hangup }
  | .toClient n =>
    { s with
      arrived := min (s.arrived + n) s.downlink.length
      unread := s.unread ++ (s.downlink.drop s.arrived).take n }
  | .next => { s with server := Server.socketStep setup.server s.server .next }
  | .server e h => { s with server := Server.socketStep setup.server s.server (.server e h) }
  | .sendTaskDone => { s with server := s.server.sendTaskDone setup.server }

def link (accepted : Nat) (es : List (Event ε)) : State σ ρ τ :=
  run (step setup) (.start setup accepted) es

theorem link_append (accepted : Nat) (es fs : List (Event ε)) :
    link setup accepted (es ++ fs) = run (step setup) (link setup accepted es) fs :=
  run_append _ _ es fs

def recordingSetup : Setup (UInt16 × UInt16 × Bytes) (UInt16 × UInt16 × Bytes) ℚ ℚ where
  vt := recorder
  server := Server.recordingServer 6
  os := .unix
  enablePredictive := false
  sessionKey := "k"
  size := some (80, 24)
  threadSize := some (80, 24)

end MoshTcp.Link
