import MoshTcp.Emulator
import MoshTcp.Ansi
import MoshTcp.Lib.Runs
import Mathlib.Data.Rat.Floor

/-! The session of `handle_client` (src/server.rs) as a step system. The reader thread,
the send loop and the packet loop share one locked state, so a run is any interleaving
of their critical sections. The token arithmetic is a parameter: what does not depend
on it is proved for every reading of the code's floating point. The send loop is a
spawned task: it may still run for a while after the packet loop has been left. -/

set_option autoImplicit false

namespace MoshTcp.Server
open ByteOrder Protocol Ansi

structure TokenArith (τ ε : Type) where
  burstCapacity : τ
  refill : τ → ε → τ
  exhausted : τ → Bool
  asUsize : τ → Nat
  spend : τ → Nat → τ

def maxBytesPerSec (maxKbps : UInt64) : ℚ := ((maxKbps * 1024).toNat : ℚ)

def rationalTokens (maxKbps : UInt64) : TokenArith ℚ ℚ where
  burstCapacity := max (maxBytesPerSec maxKbps * (1 / 2)) 2048
  refill := fun tokens elapsed =>
    min (tokens + maxBytesPerSec maxKbps * elapsed) (max (maxBytesPerSec maxKbps * (1 / 2)) 2048)
  exhausted := fun tokens => decide (tokens ≤ 0)
  asUsize := fun tokens => ⌊tokens⌋.toNat
  spend := fun tokens n => tokens - n

theorem rationalTokens_exhausted (maxKbps : UInt64) (tokens : ℚ) :
    (rationalTokens maxKbps).exhausted tokens = true ↔ tokens ≤ 0 := by
  simp [rationalTokens]

theorem rationalTokens_asUsize (maxKbps : UInt64) (n : Nat) :
    (rationalTokens maxKbps).asUsize n = n := by
  simp [rationalTokens]

structure Config (σ τ ε : Type) where
  vt : Vt100 σ
  gzip : Gzip
  arith : TokenArith τ ε
  expectedKey : String

def rationalServer {σ : Type} (vt : Vt100 σ) (gzip : Gzip) (expectedKey : String)
    (maxKbps : UInt64) : Config σ ℚ ℚ where
  vt := vt
  gzip := gzip
  arith := rationalTokens maxKbps
  expectedKey := expectedKey

/-- A server over the recording emulator, without compression. -/
def recordingServer (maxKbps : UInt64) : Config (UInt16 × UInt16 × Bytes) ℚ ℚ :=
  rationalServer recorder .failing "k" maxKbps

/-- Where the bytes of a frame come from, by their position in the PTY output. -/
inductive Origin where
  | passThrough (start : Nat)
  | flush (start : Nat)
  | refresh (processed : Nat)
  deriving DecidableEq, Repr

/-- A frame the writer accepted: `raw` is what was handed to `compress_data`. -/
structure Sent where
  origin : Origin
  raw : Bytes
  packet : Packet
  deriving DecidableEq, Repr

def Sent.payload (f : Sent) : Nat :=
  match f.packet with
  | .serverFrame _ data _ => data.length
  | _ => 0

/-- `ptyOutput` (all bytes read from the PTY) and `fed` (those of them given to the
current emulator) are history variables that no branch reads. -/
structure Session (σ τ : Type) where
  vtParser : σ
  ptyBuffer : Bytes
  tokens : τ
  seq : UInt64
  pendingAtomicRefresh : Bool
  ptyBytesIn : Nat
  netBytesOut : Nat
  bytesDropped : Nat
  framesSent : Nat
  framesSkipped : Nat
  ptyInput : Bytes
  ptySize : UInt16 × UInt16
  ptyClosed : Bool
  sendLoopEnded : Bool
  packetLoopEnded : Bool
  ptyOutput : Bytes
  fed : Bytes
  sent : List Sent

/-- An empty read is the end of the PTY's output; a read error has the same effect.
`clientEnd` is the end of the client's stream or a packet that does not decode, and
`sendTaskDone` is `select!` noticing that the send loop has been left. -/
inductive Event (ε : Type) where
  | ptyRead (chunk : Bytes)
  | tick (elapsed : ε) (sendOk : Bool)
  | closeFlush (sendOk : Bool)
  | clientPacket (packet : Packet)
  | clientEnd
  | sendTaskDone

def maxPtyBufferCap : Nat := 16384

variable {σ τ ε : Type} (cfg : Config σ τ ε)

def Session.start : Session σ τ where
  vtParser := cfg.vt.new 24 80 1000
  ptyBuffer := []
  tokens := cfg.arith.burstCapacity
  seq := 0
  pendingAtomicRefresh := false
  ptyBytesIn := 0
  netBytesOut := 0
  bytesDropped := 0
  framesSent := 0
  framesSkipped := 0
  ptyInput := []
  ptySize := (24, 80)
  ptyClosed := false
  sendLoopEnded := false
  packetLoopEnded := false
  ptyOutput := []
  fed := []
  sent := []

def readPty (s : Session σ τ) (chunk : Bytes) : Session σ τ :=
  if chunk.isEmpty then { s with ptyClosed := true }
  else { s with
    ptyBytesIn := s.ptyBytesIn + chunk.length
    vtParser := cfg.vt.processSafely s.vtParser chunk
    ptyBuffer := s.ptyBuffer ++ chunk
    ptyOutput := s.ptyOutput ++ chunk
    fed := s.fed ++ chunk }

def refillTokens (s : Session σ τ) (elapsed : ε) : Session σ τ :=
  { s with tokens := cfg.arith.refill s.tokens elapsed }

def discardOverflow (s : Session σ τ) : Session σ τ :=
  if s.ptyBuffer.length > maxPtyBufferCap then
    { s with
      ptyBuffer := []
      bytesDropped := s.bytesDropped + s.ptyBuffer.length
      pendingAtomicRefresh := true }
  else s

def skipFrame (s : Session σ τ) : Session σ τ := { s with framesSkipped := s.framesSkipped + 1 }

/-- The locked section of a tick after the overflow check: `raw_data_opt`. -/
def produce (s : Session σ τ) : Option (Origin × Bytes) × Session σ τ :=
  if cfg.arith.exhausted s.tokens then (none, skipFrame s)
  else if s.pendingAtomicRefresh then
    let s := { s with ptyBuffer := [], pendingAtomicRefresh := false }
    match generateAtomicScreenFrame cfg.vt s.vtParser with
    | some atomicFrame => (some (.refresh s.ptyOutput.length, atomicFrame), s)
    | none => (none, skipFrame s)
  else if s.ptyBuffer.isEmpty then (none, s)
  else
    let rawBuf := s.ptyBuffer
    let splitPoint := findSafeSplitPoint rawBuf (cfg.arith.asUsize s.tokens)
    if splitPoint > 0 then
      (some (.passThrough (s.ptyOutput.length - rawBuf.length), rawBuf.take splitPoint),
        { s with ptyBuffer := rawBuf.drop splitPoint })
    else (none, skipFrame s)

def framePacket (seq : UInt64) (raw : Bytes) : Packet :=
  .serverFrame seq (compressData cfg.gzip raw).1 (compressData cfg.gzip raw).2

/-- Building and sending the frame of a tick; a failed send leaves the loop. -/
def transmit (s : Session σ τ) (origin : Origin) (raw : Bytes) (sendOk : Bool) : Session σ τ :=
  let payloadLen := (compressData cfg.gzip raw).1.length
  if sendOk then
    { s with
      seq := s.seq + 1
      tokens := cfg.arith.spend s.tokens payloadLen
      netBytesOut := s.netBytesOut + payloadLen
      framesSent := s.framesSent + 1
      sent := s.sent ++ [⟨origin, raw, framePacket cfg (s.seq + 1) raw⟩] }
  else { s with seq := s.seq + 1, sendLoopEnded := true }

def tick (s : Session σ τ) (elapsed : ε) (sendOk : Bool) : Session σ τ :=
  match produce cfg (discardOverflow (refillTokens cfg s elapsed)) with
  | (some (origin, rawData), s) => transmit cfg s origin rawData sendOk
  | (none, s) => s

/-- The pass of the send loop that sees the PTY closed. Its send result is ignored. -/
def closeFlush (s : Session σ τ) (sendOk : Bool) : Session σ τ :=
  if s.ptyBuffer.isEmpty then { s with sendLoopEnded := true }
  else
    let remaining := s.ptyBuffer
    { s with
      ptyBuffer := []
      seq := s.seq + 1
      sendLoopEnded := true
      sent := if sendOk then
          s.sent ++ [⟨.flush (s.ptyOutput.length - remaining.length), remaining,
            framePacket cfg (s.seq + 1) remaining⟩]
        else s.sent }

def resize (s : Session σ τ) (rows cols : UInt16) : Session σ τ :=
  { s with
    ptySize := (atLeastOne rows, atLeastOne cols)
    vtParser := cfg.vt.new (atLeastOne rows) (atLeastOne cols) 1000
    fed := [] }

/-- One packet of the packet loop. The round-trip time stored for a ping is only read by
the statistics printer. -/
def handlePacket (s : Session σ τ) : Packet → Session σ τ
  | .clientHandshake sessionKey rows cols =>
    if sessionKey ≠ "" ∧ sessionKey ≠ cfg.expectedKey then { s with packetLoopEnded := true }
    else resize cfg s rows cols
  | .clientInput data => { s with ptyInput := s.ptyInput ++ data }
  | .clientResize rows cols => resize cfg s rows cols
  | _ => s

def step (s : Session σ τ) : Event ε → Session σ τ
  | .ptyRead chunk => if s.ptyClosed then s else readPty cfg s chunk
  | .tick elapsed sendOk => if s.sendLoopEnded then s else tick cfg s elapsed sendOk
  | .closeFlush sendOk =>
    if s.ptyClosed && !s.sendLoopEnded then closeFlush cfg s sendOk else s
  | .clientPacket packet => if s.packetLoopEnded then s else handlePacket cfg s packet
  | .clientEnd => { s with packetLoopEnded := true }
  | .sendTaskDone => if s.sendLoopEnded then { s with packetLoopEnded := true } else s

def session (es : List (Event ε)) : Session σ τ := Runs.run (step cfg) (Session.start cfg) es

theorem session_append (es fs : List (Event ε)) :
    session cfg (es ++ fs) = Runs.run (step cfg) (session cfg es) fs :=
  Runs.run_append _ _ es fs

theorem session_snoc (es : List (Event ε)) (e : Event ε) :
    session cfg (es ++ [e]) = step cfg (session cfg es) e := by
  simp [session, Runs.run_append]

/-- The chunks the PTY produced in a run: nothing is read after an empty read. -/
def ptyChunks : List (Event ε) → List Bytes
  | [] => []
  | .ptyRead [] :: _ => []
  | .ptyRead (b :: bs) :: es => (b :: bs) :: ptyChunks es
  | _ :: es => ptyChunks es

end MoshTcp.Server
