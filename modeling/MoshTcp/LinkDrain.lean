import MoshTcp.LinkInput
import MoshTcp.LinkOutput
import MoshTcp.ServerDrain

/-! What the shell wrote gets to the terminal. When it exits, the server flushes its buffer; when
it falls silent, the send loop goes on with what it has; and the client reads on until nothing
is left. -/

set_option autoImplicit false

namespace MoshTcp.Link
open ByteOrder Protocol Client Runs

variable {σ ρ τ ε : Type} {setup : Setup σ ρ τ ε} {s : State σ ρ τ}

structure Receiving (s : State σ ρ τ) : Prop where
  receiver : s.receiver ≠ .left
  running : s.client.running = true

theorem receive_test (h : Receiving s) (htest : s.receiver = .test) :
    s.receive setup = { s with receiver := .blocked } := by
  simp only [State.receive, htest, h.running, if_true]

theorem smooth_whole {p : Packet} {ps : List Packet} (hp : p.serialize.length < 2 ^ 32)
    (h : s.unread = encodeAll (p :: ps)) : Smooth s (.receiver : Event ε) := by
  intro _
  rw [h, encodeAll_cons, PacketCodec.encode, List.append_assoc,
    List.take_left' (beBytes_length 4 _), beNat_beBytes_word hp]
  refine .inr ?_
  simp only [List.length_append, beBytes_length]
  omega

theorem receive_packet (hblocked : s.receiver = .blocked) {p : Packet} {ps : List Packet}
    (hp : p.Fits ∧ p.serialize.length < 2 ^ 32)
    (hunread : s.unread = encodeAll (p :: ps)) :
    s.receive setup = { s with
      client := render setup setup.server.gzip s.client p
      receiver := .test
      unread := encodeAll ps
      shown := s.shown ++ [p] } := by
  have hread := readPacket_encode setup.os p hp.1 hp.2 (encodeAll ps) []
  rw [encodeAll_cons] at hunread
  simp only [State.receive, hblocked, hunread, hread]

structure Emptied (s t : State σ ρ τ) : Prop where
  receiving : Receiving t
  unread : t.unread = []
  server : t.server = s.server
  arrived : t.arrived = s.arrived

theorem read_blocked (setup : Setup σ ρ τ ε) (h : Receiving s) (hblocked : s.receiver = .blocked)
    {p : Packet} {ps : List Packet} (hp : p.Fits ∧ p.serialize.length < 2 ^ 32)
    (hunread : s.unread = encodeAll (p :: ps)) :
    Smooth s (.receiver : Event ε) ∧ Receiving (s.receive setup) ∧
      (s.receive setup).unread = encodeAll ps ∧ (s.receive setup).server = s.server ∧
      (s.receive setup).arrived = s.arrived := by
  refine ⟨smooth_whole hp.2 hunread, ?_⟩
  rw [receive_packet hblocked hp hunread]
  obtain ⟨-, -, hrunning⟩ := render_queued setup setup.server.gzip s.client p
  exact ⟨⟨by simp, hrunning.trans h.running⟩, rfl, rfl, rfl⟩

theorem read_all (setup : Setup σ ρ τ ε) (ps : List Packet) (h : Receiving s)
    (hsendable : Sendable ps) (hunread : s.unread = encodeAll ps) :
    ∃ k, Along (step setup) Smooth s (List.replicate k (.receiver : Event ε)) ∧
      Emptied s (run (step setup) s (List.replicate k (.receiver : Event ε))) := by
  induction ps generalizing s with
  | nil => exact ⟨0, trivial, h, hunread, rfl, rfl⟩
  | cons p ps ih =>
    have hp := hsendable p (by simp)
    have hps : Sendable ps := fun q hq => hsendable q (by simp [hq])
    cases hstage : s.receiver with
    | left => exact absurd hstage h.receiver
    | blocked =>
      obtain ⟨hsmooth, hrest, hunread', hserver, harrived⟩ :=
        read_blocked setup h hstage hp hunread
      obtain ⟨k, hk, hemptied⟩ := ih hrest hps hunread'
      refine ⟨k + 1, ⟨hsmooth, hk⟩, hemptied.receiving, hemptied.unread, ?_, ?_⟩
      · exact hemptied.server.trans hserver
      · exact hemptied.arrived.trans harrived
    | test =>
      -- one more turn, for the test of `running` in front of the read
      have hblocked : Receiving { s with receiver := Stage.blocked } := ⟨by simp, h.running⟩
      obtain ⟨hsmooth, hrest, hunread', hserver, harrived⟩ :=
        read_blocked setup hblocked rfl hp hunread
      have htest : Smooth s (.receiver : Event ε) := fun hb => by
        rw [hstage] at hb
        cases hb
      have hfirst : step setup s (.receiver : Event ε) = { s with receiver := .blocked } :=
        receive_test h hstage
      obtain ⟨k, hk, hemptied⟩ := ih hrest hps hunread'
      refine ⟨k + 2, ⟨htest, ?_⟩, ?_⟩
      · rw [hfirst]
        exact ⟨hsmooth, hk⟩
      · rw [List.replicate_succ, List.replicate_succ, run_cons, hfirst, run_cons]
        exact ⟨hemptied.receiving, hemptied.unread, hemptied.server.trans hserver,
          hemptied.arrived.trans harrived⟩

def shut (cfg : Server.Config ρ τ ε) (session : Server.Session ρ τ) : Server.Session ρ τ :=
  Server.step cfg (Server.step cfg session (.ptyRead [])) (.closeFlush true)

theorem run_shut (setup : Setup σ ρ τ ε) (s : State σ ρ τ) :
    run (step setup) s [.server (.ptyRead []) trivial, .server (.closeFlush true) trivial] =
      { s with server := { s.server with
        session := shut setup.server s.server.session } } := rfl

theorem shut_sent (cfg : Server.Config ρ τ ε) {session : Server.Session ρ τ}
    (h : Server.Delivering session) :
    (shut cfg session).ptyBuffer = [] ∧ (shut cfg session).ptyOutput = session.ptyOutput ∧
      ∃ more, (shut cfg session).sent = session.sent ++ more ∧
        ∀ f ∈ more, ∃ seq, f.packet = Server.framePacket cfg seq session.ptyBuffer := by
  obtain ⟨closed, hclosed⟩ : ∃ closed, closed = Server.step cfg session (.ptyRead []) := ⟨_, rfl⟩
  have hpty : closed = { session with ptyClosed := true } := by
    rw [hclosed, Server.step]
    split
    · rename_i hc
      rw [← hc]
    · rfl
  rw [shut, ← hclosed, hpty, Server.step]
  by_cases hl : session.sendLoopEnded = true
  · rw [if_neg (by simp [hl])]
    exact ⟨(h.flushed hl).2, rfl, [], (List.append_nil _).symm, by simp⟩
  · rw [if_pos (by simp [hl]), Server.closeFlush]
    split
    · rename_i hempty
      exact ⟨List.isEmpty_iff.1 hempty, rfl, [], (List.append_nil _).symm, by simp⟩
    · refine ⟨rfl, rfl, _, rfl, fun f hf => ?_⟩
      rw [List.mem_singleton.1 hf]
      exact ⟨_, rfl⟩

theorem framePacket_sendable (cfg : Server.Config ρ τ ε) (seq : UInt64) {raw : Bytes}
    (h : raw.length + 14 < 2 ^ 32) :
    (Server.framePacket cfg seq raw).Fits ∧
      (Server.framePacket cfg seq raw).serialize.length < 2 ^ 32 := by
  have hle := compressData_length_le cfg.gzip raw
  rw [Server.framePacket]
  refine ⟨?_, ?_⟩
  · simp only [Packet.Fits]
    omega
  · simp only [Packet.serialize, List.length_append, beBytes_length, List.length_cons,
      List.length_nil]
    omega

theorem packets_sendable {t : State σ ρ τ} (cfg : Server.Config ρ τ ε)
    (h : Sendable (packets s)) {more : List Server.Sent}
    (hsent : t.server.session.sent = s.server.session.sent ++ more)
    (hmore : ∀ f ∈ more, ∃ seq raw, f.packet = Server.framePacket cfg seq raw ∧
      raw.length + 14 < 2 ^ 32) : Sendable (packets t) := by
  intro p hp
  rw [packets, hsent, List.map_append, List.mem_append] at hp
  cases hp with
  | inl hp => exact h p hp
  | inr hp =>
    obtain ⟨f, hf, rfl⟩ := List.mem_map.1 hp
    obtain ⟨seq, raw, hframe, hshort⟩ := hmore f hf
    exact hframe ▸ framePacket_sendable cfg seq hshort

/-- The end of a session: the shell exits, its last bytes are sent, `n` bytes arrive and the
client's receive loop makes `k` turns. -/
def exitRun (n k : Nat) : List (Event ε) :=
  .server (.ptyRead []) trivial :: .server (.closeFlush true) trivial :: .toClient n ::
    List.replicate k .receiver

theorem Downlink.arrived_all (h : Downlink s) (harrived : s.arrived = s.downlink.length) :
    ∃ ps, packets s = s.shown ++ ps ∧ s.unread = encodeAll ps := by
  obtain ⟨ps, hps⟩ := h.shown
  refine ⟨ps, hps.symm, ?_⟩
  have hall := h.unread
  rw [harrived, List.take_length, State.downlink, ← packets, ← hps, encodeAll_append] at hall
  exact List.append_cancel_left hall

/-- All that the server has sent has arrived and is read. -/
structure ReadOut (s : State σ ρ τ) : Prop where
  arrived : s.arrived = s.downlink.length
  unread : s.unread = []

theorem Delivered.read_out (h : Delivered setup s) (hsendable : Sendable (packets s))
    (hreceiving : Receiving s) :
    ∃ n k, Along (step setup) Smooth s (.toClient n :: List.replicate k .receiver) ∧
      ReadOut (run (step setup) s (.toClient n :: List.replicate k .receiver)) := by
  obtain ⟨t, ht⟩ : ∃ t, t = step setup s (.toClient s.downlink.length : Event ε) := ⟨_, rfl⟩
  have hdelivered : Delivered setup t := ht ▸ step_delivered h _ trivial
  have hserver : t.server = s.server := by rw [ht]; rfl
  have htsendable : Sendable (packets t) := by rwa [packets, hserver]
  have harrived : t.arrived = t.downlink.length := by
    rw [State.downlink, hserver, ht]
    exact Nat.min_eq_right (Nat.le_add_left _ _)
  have htreceiving : Receiving t := by
    rw [ht]
    exact ⟨hreceiving.receiver, hreceiving.running⟩
  obtain ⟨ps, hps, hunread⟩ := (hdelivered.downlink htsendable).arrived_all harrived
  obtain ⟨k, hk, hemptied⟩ := read_all setup ps htreceiving
    (fun p hp => htsendable p (by rw [hps]; simp [hp])) hunread
  refine ⟨s.downlink.length, k, ⟨trivial, ht ▸ hk⟩, ?_⟩
  rw [run_cons, ← ht]
  refine ⟨?_, hemptied.unread⟩
  rw [hemptied.arrived, harrived, State.downlink, State.downlink, hemptied.server]

theorem run_reading_server (setup : Setup σ ρ τ ε) (s : State σ ρ τ) (n k : Nat) :
    (run (step setup) s (.toClient n :: List.replicate k .receiver)).server = s.server := by
  have hreads : ∀ t : State σ ρ τ,
      (run (step setup) t (List.replicate k .receiver)).server = t.server := by
    induction k with
    | zero => exact fun _ => rfl
    | succ k ih => exact fun t => (ih _).trans (receive_server setup t)
  exact hreads _

section ReadAfter
variable (h : Delivered setup s) (hsendable : Sendable (packets s)) {first : List (Event ε)}
  {session : Server.Session ρ τ}
  (hrun : run (step setup) s first = { s with server := { s.server with session := session } })
  {more : List Server.Sent} (hsent : session.sent = s.server.session.sent ++ more)
  (hmore : ∀ f ∈ more, ∃ seq raw, f.packet = Server.framePacket setup.server seq raw ∧
    raw.length + 14 < 2 ^ 32)
include h hsendable hrun hsent hmore

/-- The server has come to `session` by steps of its own, and what it has sent then can be read. -/
theorem Delivered.read_after (hfirst : Along (step setup) Smooth s first)
    (hreceiving : Receiving s) :
    ∃ n k, Along (step setup) Smooth s (first ++ .toClient n :: List.replicate k .receiver) ∧
      ReadOut (run (step setup) s (first ++ .toClient n :: List.replicate k .receiver)) := by
  have hdelivered := run_invariant h (fun _ e hs he => step_delivered hs e he) hfirst
  obtain ⟨t, ht⟩ : ∃ t, t = run (step setup) s first := ⟨_, rfl⟩
  rw [← ht] at hdelivered hrun
  have htsendable : Sendable (packets t) :=
    packets_sendable setup.server hsendable (by rw [hrun]; exact hsent) hmore
  have htreceiving : Receiving t := by
    rw [hrun]
    exact ⟨hreceiving.receiver, hreceiving.running⟩
  obtain ⟨n, k, halong, hread⟩ := hdelivered.read_out htsendable htreceiving
  refine ⟨n, k, along_append.2 ⟨hfirst, ht ▸ halong⟩, ?_⟩
  rwa [run_append, ← ht]

theorem Delivered.after_reading (hgz : setup.server.gzip.Inverts) {n k : Nat}
    (halong : Along (step setup) Smooth s (first ++ .toClient n :: List.replicate k .receiver))
    (hread : ReadOut (run (step setup) s (first ++ .toClient n :: List.replicate k .receiver))) :
    (run (step setup) s (first ++ .toClient n :: List.replicate k .receiver)).server.session =
        session ∧
      (run (step setup) s (first ++ .toClient n :: List.replicate k .receiver)).client.printed ++
        session.ptyBuffer = session.ptyOutput := by
  have hend := run_invariant h (fun _ e hs he => step_delivered hs e he) halong
  have hsession : (run (step setup) s
      (first ++ .toClient n :: List.replicate k .receiver)).server.session = session := by
    rw [run_append, run_reading_server, hrun]
  generalize run (step setup) s (first ++ .toClient n :: List.replicate k .receiver) = u
    at hread hend hsession ⊢
  refine ⟨hsession, ?_⟩
  have hall := hend.printed_rest hgz
    (packets_sendable setup.server hsendable (hsession ▸ hsent) hmore) hread.arrived hread.unread
  rwa [hsession] at hall

end ReadAfter

/-- From any state of a smooth run: when the shell exits now, nothing that it wrote is lost on
the way to the terminal. -/
theorem exit_shows_output (setup : Setup σ ρ τ ε) (hplain : setup.enablePredictive = false)
    (hgz : setup.server.gzip.Inverts) (accepted : Nat) (es : List (Event ε))
    (hsmooth : Along (step setup) Smooth (.start setup accepted) es)
    (hsendable : Sendable (packets (link setup accepted es)))
    (hbuffer : (link setup accepted es).server.session.ptyBuffer.length + 14 < 2 ^ 32)
    (hreceiving : Receiving (link setup accepted es)) :
    ∃ n k, Along (step setup) Smooth (.start setup accepted) (es ++ exitRun n k) ∧
      (link setup accepted (es ++ exitRun n k)).server.session.ptyOutput =
        (link setup accepted es).server.session.ptyOutput ∧
      (link setup accepted (es ++ exitRun n k)).client.printed =
        (link setup accepted es).server.session.ptyOutput := by
  have hs := link_delivered setup hplain accepted hsmooth
  obtain ⟨hempty, houtput, more, hsent, hframes⟩ := shut_sent setup.server hs.delivering
  have hfirst : Along (step setup) Smooth (link setup accepted es)
      [.server (.ptyRead []) trivial, .server (.closeFlush true) trivial] :=
    ⟨trivial, rfl, trivial⟩
  have hmore : ∀ f ∈ more, ∃ seq raw, f.packet = Server.framePacket setup.server seq raw ∧
      raw.length + 14 < 2 ^ 32 := by
    intro f hf
    obtain ⟨seq, hseq⟩ := hframes f hf
    exact ⟨seq, _, hseq, hbuffer⟩
  obtain ⟨n, k, halong, hread⟩ := hs.read_after hsendable (run_shut setup _) hsent hmore hfirst
    hreceiving
  obtain ⟨hsession, hprinted⟩ := hs.after_reading hsendable (run_shut setup _) hsent hmore hgz
    halong hread
  rw [hempty, List.append_nil, houtput] at hprinted
  refine ⟨n, k, along_append.2 ⟨hsmooth, halong⟩, ?_⟩
  rw [link_append]
  exact ⟨(congrArg Server.Session.ptyOutput hsession).trans houtput, hprinted⟩

theorem exit_shows_output_letter_run :
    ∃ n k, (link storingSetup 100
      ([.server (.ptyRead Native.letterRun) trivial] ++ exitRun n k)).client.printed =
        Native.letterRun := by
  have hnone : packets (link storingSetup 100
      [.server (.ptyRead Native.letterRun) trivial]) = [] := by decide +kernel
  obtain ⟨n, k, -, -, hprinted⟩ := exit_shows_output storingSetup rfl Native.storing_inverts 100
    [.server (.ptyRead Native.letterRun) trivial] (by decide +kernel)
    (by rw [hnone]; exact fun p hp => absurd hp List.not_mem_nil) (by decide +kernel)
    ⟨by decide +kernel, by decide +kernel⟩
  exact ⟨n, k, hprinted⟩

/-! ### The shell is silent -/

def quietRun (elapsed : List ε) (n k : Nat) : List (Event ε) :=
  elapsed.map (fun t => .server (.tick t true) trivial) ++ .toClient n ::
    List.replicate k .receiver

theorem run_ticks (setup : Setup σ ρ τ ε) (s : State σ ρ τ) (elapsed : List ε) :
    run (step setup) s (elapsed.map fun t => .server (.tick t true) trivial) =
      { s with server := { s.server with
        session := run (Server.step setup.server) s.server.session
          (elapsed.map fun t => .tick t true) } } := by
  induction elapsed generalizing s with
  | nil => rfl
  | cons t ts ih =>
    rw [List.map_cons, run_cons, ih]
    rfl

theorem ticks_smooth (h : Server.Passing s.server.session)
    (hburst : setup.server.arith.exhausted setup.server.arith.burstCapacity = false)
    {elapsed : List ε} (hfull : Along (Server.step setup.server) (Server.FullTick setup.server)
      s.server.session (elapsed.map fun t => .tick t true)) :
    Along (step setup) Smooth s (elapsed.map fun t => .server (.tick t true) trivial) := by
  induction elapsed generalizing s with
  | nil => trivial
  | cons t ts ih =>
    have hpushed := Server.fullTick_pushed h hburst hfull.1
    exact ⟨Server.fullTick_uncongested h hfull.1, ih hpushed.passing hfull.2⟩

/-- From any state of a smooth run: when the shell writes nothing more, then after as many ticks as
there are bytes in the buffer, and whenever all that was sent is read, the terminal shows all
exactly when no piece of the buffer is longer than what a full bucket holds; and all can be read. -/
theorem quiet_shows_output_iff (setup : Setup σ ρ τ ε) (hplain : setup.enablePredictive = false)
    (hgz : setup.server.gzip.Inverts)
    (hburst : setup.server.arith.exhausted setup.server.arith.burstCapacity = false)
    (accepted : Nat) (es : List (Event ε))
    (hsmooth : Along (step setup) Smooth (.start setup accepted) es)
    (hsendable : Sendable (packets (link setup accepted es)))
    (hreceiving : Receiving (link setup accepted es))
    (hrunning : (link setup accepted es).server.session.sendLoopEnded = false)
    (hcap : (link setup accepted es).server.session.ptyBuffer.length ≤ Server.maxPtyBufferCap)
    (elapsed : List ε)
    (hfull : Along (Server.step setup.server) (Server.FullTick setup.server)
      (link setup accepted es).server.session (elapsed.map fun t => .tick t true))
    (hlen : (link setup accepted es).server.session.ptyBuffer.length ≤ elapsed.length) :
    (∀ n k, Along (step setup) Smooth (.start setup accepted) (es ++ quietRun elapsed n k) →
      ReadOut (link setup accepted (es ++ quietRun elapsed n k)) →
      (link setup accepted (es ++ quietRun elapsed n k)).server.session.ptyOutput =
        (link setup accepted es).server.session.ptyOutput ∧
      ((link setup accepted (es ++ quietRun elapsed n k)).client.printed =
          (link setup accepted es).server.session.ptyOutput ↔
        Ansi.Flows (Server.burst setup.server)
          (link setup accepted es).server.session.ptyBuffer)) ∧
    ∃ n k, Along (step setup) Smooth (.start setup accepted) (es ++ quietRun elapsed n k) ∧
      ReadOut (link setup accepted (es ++ quietRun elapsed n k)) := by
  have hs := link_delivered setup hplain accepted hsmooth
  have hpassing : Server.Passing (link setup accepted es).server.session :=
    ⟨hrunning, hcap, hs.delivering.noRefresh⟩
  have hpushed := Server.ticks_pushed hpassing hburst hfull
  have hfirst := ticks_smooth hpassing hburst hfull
  have hrun := run_ticks setup (link setup accepted es) elapsed
  obtain ⟨more, hsent, hframes⟩ := hpushed.sent
  have hmore : ∀ f ∈ more, ∃ seq raw, f.packet = Server.framePacket setup.server seq raw ∧
      raw.length + 14 < 2 ^ 32 := by
    intro f hf
    obtain ⟨seq, hseq, hshort⟩ := hframes f hf
    rw [Server.maxPtyBufferCap] at hshort
    exact ⟨seq, f.raw, hseq, by omega⟩
  constructor
  · intro n k halong hread
    rw [link_append] at hread ⊢
    obtain ⟨hsession, hprinted⟩ := hs.after_reading hsendable hrun hsent hmore hgz
      (along_append.1 halong).2 hread
    rw [hpushed.ptyOutput] at hprinted
    refine ⟨(congrArg Server.Session.ptyOutput hsession).trans hpushed.ptyOutput, ?_⟩
    -- the terminal lacks the rest of the buffer, which is what the splits have left
    have hlong : (link setup accepted es).server.session.ptyBuffer.length ≤
        (elapsed.map fun t => (.tick t true : Server.Event ε)).length := by
      rwa [List.length_map]
    rw [← Ansi.iterate_splitOff_iff hlong, ← hpushed.ptyBuffer, ← hprinted]
    exact List.self_eq_append_right
  · obtain ⟨n, k, halong, hread⟩ := hs.read_after hsendable hrun hsent hmore hfirst hreceiving
    refine ⟨n, k, along_append.2 ⟨hsmooth, halong⟩, ?_⟩
    rwa [link_append]

theorem quiet_shows_output_iff_two_letters :
    ∃ n k, ReadOut (link storingSetup 100
        ([.server (.ptyRead [0x68, 0x69]) trivial] ++ quietRun [1, 1] n k)) ∧
      (link storingSetup 100
        ([.server (.ptyRead [0x68, 0x69]) trivial] ++ quietRun [1, 1] n k)).client.printed =
          [0x68, 0x69] := by
  have hnone : packets (link storingSetup 100
      [.server (.ptyRead [0x68, 0x69]) trivial]) = [] := by decide +kernel
  obtain ⟨hall, n, k, halong, hread⟩ := quiet_shows_output_iff storingSetup rfl
    Native.storing_inverts (by decide +kernel) 100 [.server (.ptyRead [0x68, 0x69]) trivial]
    (by decide +kernel) (by rw [hnone]; exact fun p hp => absurd hp List.not_mem_nil)
    ⟨by decide +kernel, by decide +kernel⟩ (by decide +kernel) (by decide +kernel) [1, 1]
    (by decide +kernel) (by decide +kernel)
  exact ⟨n, k, hread, (hall n k halong hread).2.2 (Ansi.flows_of_length_le (by decide +kernel))⟩

end MoshTcp.Link
