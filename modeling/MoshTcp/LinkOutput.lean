import MoshTcp.Link
import MoshTcp.ServerDelivery
import MoshTcp.ServerResume

/-! From the shell to the terminal: what a client without prediction has printed is a first
part of what the shell wrote, while the server's buffer holds it all and no read of the client
times out inside of a frame. -/

set_option autoImplicit false

namespace MoshTcp.Link
open ByteOrder Protocol Client Runs

variable {σ ρ τ ε : Type} {setup : Setup σ ρ τ ε} {s : State σ ρ τ}

/-- The session of the connection is one of the step system in its own right. -/
def Tracks (cfg : Server.Config ρ τ ε) (session : Server.Session ρ τ) : Prop :=
  ∃ fs, session = Server.session cfg fs ∧
    Along (Server.step cfg) Server.Uncongested (.start cfg) fs

theorem Tracks.snoc {cfg : Server.Config ρ τ ε} {session : Server.Session ρ τ}
    (h : Tracks cfg session) (f : Server.Event ε) (hf : Server.Uncongested session f) :
    Tracks cfg (Server.step cfg session f) ∧
      session.sent <+: (Server.step cfg session f).sent := by
  obtain ⟨fs, rfl, halong⟩ := h
  have hsnoc := Server.session_snoc cfg fs f
  rw [← hsnoc]
  refine ⟨⟨fs ++ [f], rfl, ?_⟩, Server.sent_prefix cfg fs [f]⟩
  exact along_append.2 ⟨halong, hf, trivial⟩

theorem nextPacket_tracks {cfg : Server.Config ρ τ ε} {c : Server.Connection ρ τ}
    (h : Tracks cfg c.session) :
    Tracks cfg (Server.nextPacket cfg c).session ∧
      c.session.sent <+: (Server.nextPacket cfg c).session.sent := by
  have hstill : Tracks cfg c.session ∧ c.session.sent <+: c.session.sent := ⟨h, List.prefix_rfl⟩
  unfold Server.nextPacket
  split
  · exact hstill
  · split
    · rename_i packet _ _
      exact h.snoc (.clientPacket packet) trivial
    · exact h.snoc .clientEnd trivial
    · split
      · exact h.snoc .clientEnd trivial
      · exact hstill

def packets (s : State σ ρ τ) : List Packet := s.server.session.sent.map Server.Sent.packet

/-- The packets read so far are the first of those that were sent, and the bytes behind them
that have arrived are waiting. -/
structure Downlink (s : State σ ρ τ) : Prop where
  arrived_le : s.arrived ≤ s.downlink.length
  shown : s.shown <+: packets s
  unread : encodeAll s.shown ++ s.unread = s.downlink.take s.arrived

theorem encodeAll_prefix {ps qs : List Packet} (h : ps <+: qs) : encodeAll ps <+: encodeAll qs := by
  obtain ⟨more, rfl⟩ := h
  rw [encodeAll_append]
  exact List.prefix_append _ _

theorem packets_prefix {s' : State σ ρ τ}
    (h : s.server.session.sent <+: s'.server.session.sent) : packets s <+: packets s' :=
  h.map Server.Sent.packet

theorem Downlink.grow {s' : State σ ρ τ} (h : Downlink s)
    (hsent : s.server.session.sent <+: s'.server.session.sent) (harrived : s'.arrived = s.arrived)
    (hunread : s'.unread = s.unread) (hshown : s'.shown = s.shown) : Downlink s' := by
  have hpackets := packets_prefix hsent
  have hdown : s.downlink <+: s'.downlink := encodeAll_prefix hpackets
  refine ⟨?_, ?_, ?_⟩
  · rw [harrived]
    exact h.arrived_le.trans hdown.length_le
  · rw [hshown]
    exact h.shown.trans hpackets
  · obtain ⟨more, hmore⟩ := hdown
    rw [hshown, hunread, harrived, h.unread, ← hmore, List.take_append_of_le_length h.arrived_le]

theorem toClient_downlink (h : Downlink s) (n : Nat) :
    Downlink (step setup s (.toClient n)) := by
  refine ⟨Nat.min_le_right _ _, h.shown, ?_⟩
  have htake : s.downlink.take (min (s.arrived + n) s.downlink.length) =
      s.downlink.take s.arrived ++ (s.downlink.drop s.arrived).take n := by
    rw [← List.take_add, ← List.take_eq_take_min]
  change encodeAll s.shown ++ (s.unread ++ (s.downlink.drop s.arrived).take n) =
    s.downlink.take (min (s.arrived + n) s.downlink.length)
  rw [htake, ← List.append_assoc, h.unread]

/-- What is unread starts with the next packet, or is less than one. -/
theorem Downlink.next (h : Downlink s) :
    ∃ ps, packets s = s.shown ++ ps ∧ s.unread <+: encodeAll ps := by
  obtain ⟨ps, hps⟩ := h.shown
  refine ⟨ps, hps.symm, ?_⟩
  have hall : encodeAll s.shown ++ s.unread <+: encodeAll s.shown ++ encodeAll ps := by
    rw [h.unread, ← encodeAll_append, hps]
    exact List.take_prefix _ _
  exact (List.prefix_append_right_inj _).1 hall

/-- The steps of a run in which the client's reads find whole packets and the server sends
all that the shell writes. -/
def Smooth (s : State σ ρ τ) : Event ε → Prop
  | .receiver => s.receiver = .blocked →
      s.unread = [] ∨ (4 ≤ s.unread.length ∧ 4 + beNat (s.unread.take 4) ≤ s.unread.length)
  | .server e _ => Server.Uncongested s.server.session e
  | _ => True

instance (s : State σ ρ τ) (e : Event ε) : Decidable (Smooth s e) :=
  match e with
  | .receiver => inferInstanceAs (Decidable (_ → _))
  | .server _ _ => inferInstanceAs (Decidable (Server.Uncongested _ _))
  | .stdin _ _ | .sender _ | .connectionError | .toServer _ | .hangup | .toClient _ | .next
  | .sendTaskDone => .isTrue trivial

theorem Downlink.read (h : Downlink s) (hsendable : Sendable (packets s))
    (hwhole : s.unread = [] ∨
      (4 ≤ s.unread.length ∧ 4 + beNat (s.unread.take 4) ≤ s.unread.length)) (os : Platform) :
    (s.unread = [] ∧ readPacket (Bursts.readExact os) ⟨s.unread, []⟩ =
      (.error os.timeoutError, ⟨[], []⟩)) ∨
    ∃ p ps tail, packets s = s.shown ++ p :: ps ∧ s.unread = PacketCodec.encode p ++ tail ∧
      readPacket (Bursts.readExact os) ⟨s.unread, []⟩ = (.ok p, ⟨tail, []⟩) := by
  by_cases hempty : s.unread = []
  · refine .inl ⟨hempty, ?_⟩
    have hshort := Bursts.readExact_of_lt os 4 [] [] (by simp)
    rw [hempty]
    simp only [readPacket, hshort]
    rfl
  obtain ⟨hfour, hlen⟩ := hwhole.resolve_left hempty
  obtain ⟨ps, hps, hprefix⟩ := h.next
  cases ps with
  | nil => exact absurd (List.prefix_nil.1 hprefix) hempty
  | cons p ps =>
    have hp := hsendable p (by rw [hps]; simp)
    rw [encodeAll_cons] at hprefix
    have hword : s.unread.take 4 = beBytes 4 p.serialize.length := by
      obtain ⟨rest, hrest⟩ := hprefix
      have htake := congrArg (List.take 4) hrest
      rwa [List.take_append_of_le_length hfour, PacketCodec.encode, List.append_assoc,
        List.take_left' (beBytes_length 4 _)] at htake
    rw [hword, beNat_beBytes_word hp.2, ← encode_length] at hlen
    obtain ⟨tail, htail⟩ :=
      List.prefix_of_prefix_length_le (List.prefix_append _ _) hprefix hlen
    refine .inr ⟨p, ps, tail, hps, htail.symm, ?_⟩
    rw [← htail]
    exact readPacket_encode os p hp.1 hp.2 tail []

theorem receive_downlink (h : Downlink s) (hsendable : Sendable (packets s))
    (hsmooth : Smooth s (.receiver : Event ε)) : Downlink (s.receive setup) := by
  rw [State.receive]
  split
  · exact ⟨h.arrived_le, h.shown, h.unread⟩
  · rename_i hblocked
    rcases h.read hsendable (hsmooth hblocked) setup.os with
      ⟨hempty, hread⟩ | ⟨p, ps, tail, hps, hunread, hread⟩
    · have hkind : setup.os.timeoutError.kind = .wouldBlock ∨
          setup.os.timeoutError.kind = .timedOut := by
        cases setup.os with
        | unix => exact .inl rfl
        | windows => exact .inr rfl
      simp only [hread]
      rw [if_pos hkind]
      refine ⟨h.arrived_le, h.shown, ?_⟩
      have hall := h.unread
      rwa [hempty] at hall
    · simp only [hread]
      refine ⟨h.arrived_le, ?_, ?_⟩
      · exact ⟨ps, by rw [List.append_assoc]; exact hps.symm⟩
      · have hall := h.unread
        rw [hunread, ← List.append_assoc] at hall
        rw [encodeAll_append, encodeAll_cons, encodeAll_nil, List.append_nil]
        exact hall
  · exact h

/-! ### What is printed -/

structure Printed (setup : Setup σ ρ τ ε) (s : State σ ρ τ) : Prop where
  disabled : s.client.predictor.enabled = false
  printed : s.client.printed = (s.shown.filterMap (Server.rendered setup.server.gzip)).flatten

theorem renderFrame_disabled (vt : Vt100 σ) {p : Predictive.LocalPredictor σ}
    (h : p.enabled = false) (raw : Bytes) : p.renderFrame vt raw = (p, raw) := by
  simp [Predictive.LocalPredictor.renderFrame, Predictive.LocalPredictor.inspectServerFrame,
    Predictive.LocalPredictor.clearPredictions, h]

theorem pass_disabled (vt : Vt100 σ) {c : InputLoop σ} (h : c.predictor.enabled = false)
    (size : Option (UInt16 × UInt16)) (read : StdinRead) :
    (c.step vt (.pass size read)).predictor.enabled = false ∧
      (c.step vt (.pass size read)).printed = c.printed := by
  have hpoll : (c.pollSize vt size).predictor.enabled = false ∧
      (c.pollSize vt size).printed = c.printed := by
    rcases size with _ | ⟨cols, rows⟩
    · exact ⟨h, rfl⟩
    · simp only [InputLoop.pollSize]
      split
      · exact ⟨h, rfl⟩
      · exact ⟨h, rfl⟩
  simp only [InputLoop.step]
  split
  · exact ⟨h, rfl⟩
  · split
    · generalize c.pollSize vt size = r at hpoll
      cases read with
      | wouldBlock => exact hpoll
      | failed => exact hpoll
      | ok data =>
        simp only [InputLoop.readStdin]
        split
        · exact hpoll
        · split
          · exact hpoll
          · simp only [InputLoop.typed, Predictive.LocalPredictor.handleKeystroke, hpoll.1,
              Bool.not_false, Bool.true_or, if_true, List.append_nil, hpoll.2, and_self]
    · exact ⟨h, rfl⟩

theorem render_disabled (setup : Setup σ ρ τ ε) (h : s.client.predictor.enabled = false)
    (packet : Packet) :
    (render setup setup.server.gzip s.client packet).predictor.enabled = false ∧
      (render setup setup.server.gzip s.client packet).printed =
        s.client.printed ++ ((Server.rendered setup.server.gzip packet).toList).flatten := by
  cases packet with
  | serverFrame seq data compressed =>
    simp only [render, Server.rendered]
    split
    · rename_i raw hraw
      simp only [InputLoop.step, renderFrame_disabled setup.vt h, hraw, Option.toList_some,
        List.flatten_cons, List.flatten_nil, List.append_nil, and_true]
      exact h
    · rename_i hraw
      rw [hraw]
      exact ⟨h, by simp⟩
  | _ => exact ⟨h, by simp [render, Server.rendered]⟩

theorem receive_printed (h : Printed setup s) : Printed setup (s.receive setup) := by
  rw [State.receive]
  split
  · exact ⟨h.disabled, h.printed⟩
  · split
    · rename_i packet rest _
      obtain ⟨hdisabled, hprinted⟩ := render_disabled setup h.disabled packet
      refine ⟨hdisabled, ?_⟩
      rw [hprinted, h.printed, List.filterMap_append, List.flatten_append]
      rfl
    · split
      · exact ⟨h.disabled, h.printed⟩
      · exact ⟨h.disabled, h.printed⟩
  · exact h

theorem step_printed (h : Printed setup s) (e : Event ε) : Printed setup (step setup s e) := by
  cases e with
  | stdin size read =>
    rw [step, State.stdin]
    split
    · exact h
    · obtain ⟨hdisabled, hprinted⟩ := pass_disabled setup.vt h.disabled size read
      exact ⟨hdisabled, hprinted.trans h.printed⟩
  | sender accepted =>
    rw [step, State.send]
    split
    · exact h
    · split
      · exact ⟨h.disabled, h.printed⟩
      · split
        · rw [State.write]
          split
          · split <;> exact ⟨h.disabled, h.printed⟩
          · exact ⟨h.disabled, h.printed⟩
        · exact ⟨h.disabled, h.printed⟩
      · exact h
  | receiver => exact receive_printed h
  | connectionError =>
    rw [step]
    split
    · exact ⟨h.disabled, h.printed⟩
    · exact h
  | toServer n =>
    rw [step]
    split
    · exact h
    · exact ⟨h.disabled, h.printed⟩
  | hangup => exact ⟨h.disabled, h.printed⟩
  | toClient n => exact ⟨h.disabled, h.printed⟩
  | next => exact ⟨h.disabled, h.printed⟩
  | server e he => exact ⟨h.disabled, h.printed⟩
  | sendTaskDone => exact ⟨h.disabled, h.printed⟩

/-- What holds in a smooth run. The bound on the frames is asked for once, of those sent up to
the last state; earlier states have fewer. -/
structure Delivered (setup : Setup σ ρ τ ε) (s : State σ ρ τ) : Prop where
  tracks : Tracks setup.server s.server.session
  downlink : Sendable (packets s) → Downlink s
  printed : Printed setup s

theorem Delivered.server (h : Delivered setup s) {server : Server.Connection ρ τ}
    (htracks : Tracks setup.server server.session ∧
      s.server.session.sent <+: server.session.sent) :
    Delivered setup { s with server := server } := by
  refine ⟨htracks.1, fun hsendable => ?_, ⟨h.printed.disabled, h.printed.printed⟩⟩
  have hfewer : Sendable (packets s) := fun p hp =>
    hsendable p ((htracks.2.map Server.Sent.packet).subset hp)
  exact (h.downlink hfewer).grow htracks.2 rfl rfl rfl

/-- A step that leaves the server and what has arrived from it alone. -/
structure SameArrivals (s s' : State σ ρ τ) : Prop where
  server : s'.server = s.server
  arrived : s'.arrived = s.arrived
  unread : s'.unread = s.unread
  shown : s'.shown = s.shown

theorem stdin_sameArrivals (setup : Setup σ ρ τ ε) (s : State σ ρ τ)
    (size : Option (UInt16 × UInt16)) (read : StdinRead) :
    SameArrivals s (s.stdin setup size read) := by
  rw [State.stdin]
  split <;> exact ⟨rfl, rfl, rfl, rfl⟩

theorem send_sameArrivals (s : State σ ρ τ) (accepted : Nat) :
    SameArrivals s (s.send accepted) := by
  rw [State.send]
  split
  · exact ⟨rfl, rfl, rfl, rfl⟩
  · split
    · exact ⟨rfl, rfl, rfl, rfl⟩
    · split
      · rw [State.write]
        split
        · split <;> exact ⟨rfl, rfl, rfl, rfl⟩
        · exact ⟨rfl, rfl, rfl, rfl⟩
      · exact ⟨rfl, rfl, rfl, rfl⟩
    · exact ⟨rfl, rfl, rfl, rfl⟩

theorem Delivered.client {s' : State σ ρ τ} (h : Delivered setup s) (hprinted : Printed setup s')
    (hsame : SameArrivals s s') : Delivered setup s' := by
  refine ⟨hsame.server ▸ h.tracks, fun hsendable => ?_, hprinted⟩
  rw [packets, hsame.server] at hsendable
  exact (h.downlink hsendable).grow (by rw [hsame.server]) hsame.arrived hsame.unread hsame.shown

theorem receive_server (setup : Setup σ ρ τ ε) (s : State σ ρ τ) :
    (s.receive setup).server = s.server := by
  rw [State.receive]
  split
  · rfl
  · split
    · rfl
    · split <;> rfl
  · rfl

theorem step_delivered (h : Delivered setup s) (e : Event ε) (he : Smooth s e) :
    Delivered setup (step setup s e) := by
  have hprinted := step_printed h.printed e
  cases e with
  | stdin size read => exact h.client hprinted (stdin_sameArrivals setup s size read)
  | sender accepted => exact h.client hprinted (send_sameArrivals s accepted)
  | receiver =>
    have hserver := receive_server setup s
    refine ⟨hserver.symm ▸ h.tracks, fun hsendable => ?_, hprinted⟩
    have hsame : packets (step setup s (.receiver : Event ε)) = packets s :=
      congrArg (fun c => c.session.sent.map Server.Sent.packet) hserver
    rw [hsame] at hsendable
    exact receive_downlink (h.downlink hsendable) hsendable he
  | connectionError =>
    refine h.client hprinted ?_
    rw [step]
    split <;> exact ⟨rfl, rfl, rfl, rfl⟩
  | toServer n =>
    have hserver : ∀ segment, Delivered setup
        { s with server := Server.socketStep setup.server s.server (.arrive segment) } := by
      intro segment
      have hsession := Server.arrive_session setup.server s.server segment
      exact h.server ⟨hsession.symm ▸ h.tracks, by rw [hsession]⟩
    rw [step] at hprinted ⊢
    split at hprinted
    · rename_i hclosed
      rw [if_pos hclosed]
      exact h
    · rename_i hopen
      rw [if_neg hopen]
      exact (hserver (s.uplink.take n)).client hprinted ⟨rfl, rfl, rfl, rfl⟩
  | hangup => exact h.server ⟨h.tracks, List.prefix_rfl⟩
  | toClient n => exact ⟨h.tracks, fun hsendable => toClient_downlink (h.downlink hsendable) n,
      hprinted⟩
  | next => exact h.server (nextPacket_tracks h.tracks)
  | server e hside => exact h.server (h.tracks.snoc e he)
  | sendTaskDone => exact h.server (h.tracks.snoc .sendTaskDone trivial)

theorem start_delivered (setup : Setup σ ρ τ ε) (hplain : setup.enablePredictive = false)
    (accepted : Nat) : Delivered setup (.start setup accepted) where
  tracks := ⟨[], rfl, trivial⟩
  downlink := fun _ => ⟨Nat.zero_le _, List.nil_prefix, rfl⟩
  printed := ⟨hplain, rfl⟩

theorem Tracks.rendered {cfg : Server.Config ρ τ ε} {session : Server.Session ρ τ}
    (h : Tracks cfg session) (hgz : cfg.gzip.Inverts) :
    (session.sent.map Server.Sent.packet).filterMap (Server.rendered cfg.gzip) =
      session.sent.map Server.Sent.raw := by
  obtain ⟨fs, rfl, -⟩ := h
  have hall := Server.session_rendered cfg hgz fs
  rw [List.filterMap_map]
  have hmap := congrArg (List.filterMap id) hall
  rw [List.filterMap_map, List.filterMap_map] at hmap
  simpa using hmap

theorem link_delivered (setup : Setup σ ρ τ ε) (hplain : setup.enablePredictive = false)
    (accepted : Nat) {es : List (Event ε)}
    (hsmooth : Along (step setup) Smooth (.start setup accepted) es) :
    Delivered setup (link setup accepted es) :=
  run_invariant (start_delivered setup hplain accepted) (fun _ e hs he => step_delivered hs e he)
    hsmooth

theorem Delivered.delivering (h : Delivered setup s) : Server.Delivering s.server.session := by
  obtain ⟨fs, hsession, halong⟩ := h.tracks
  rw [hsession]
  exact Server.session_delivering halong

theorem Delivered.content (h : Delivered setup s) (hgz : setup.server.gzip.Inverts) :
    ((packets s).filterMap (Server.rendered setup.server.gzip)).flatten ++
      s.server.session.ptyBuffer = s.server.session.ptyOutput := by
  rw [packets, h.tracks.rendered hgz]
  exact h.delivering.content

theorem Delivered.printed_prefix (h : Delivered setup s) (hgz : setup.server.gzip.Inverts)
    (hsendable : Sendable (packets s)) : s.client.printed <+: s.server.session.ptyOutput := by
  obtain ⟨more, hmore⟩ := (h.downlink hsendable).shown
  rw [h.printed.printed, ← h.content hgz, ← hmore, List.filterMap_append, List.flatten_append,
    List.append_assoc]
  exact List.prefix_append _ _

/-- Nothing is on its way, so only the server's buffer is missing on the terminal. -/
theorem Delivered.printed_rest (h : Delivered setup s) (hgz : setup.server.gzip.Inverts)
    (hsendable : Sendable (packets s)) (harrived : s.arrived = s.downlink.length)
    (hunread : s.unread = []) :
    s.client.printed ++ s.server.session.ptyBuffer = s.server.session.ptyOutput := by
  have hdown := h.downlink hsendable
  have hall := hdown.unread
  rw [harrived, hunread, List.append_nil, List.take_length] at hall
  obtain ⟨more, hmore⟩ := hdown.shown
  rw [State.downlink, ← packets, ← hmore, encodeAll_append] at hall
  have hnone : more = [] := by
    cases more with
    | nil => rfl
    | cons p ps =>
      have hlen := congrArg List.length hall
      rw [encodeAll_cons, List.length_append, List.length_append, encode_length] at hlen
      omega
  rw [hnone, List.append_nil] at hmore
  rw [h.printed.printed, ← h.content hgz, hmore]

/-- The terminal of a client without prediction shows a first part of what the shell wrote,
and all of it once the buffers are empty. -/
theorem terminal_shows_output (setup : Setup σ ρ τ ε) (hplain : setup.enablePredictive = false)
    (hgz : setup.server.gzip.Inverts) (accepted : Nat) (es : List (Event ε))
    (hsmooth : Along (step setup) Smooth (.start setup accepted) es)
    (hsendable : Sendable (packets (link setup accepted es))) :
    (link setup accepted es).client.printed <+:
        (link setup accepted es).server.session.ptyOutput ∧
      ((link setup accepted es).arrived = (link setup accepted es).downlink.length →
        (link setup accepted es).unread = [] →
        (link setup accepted es).server.session.ptyBuffer = [] →
        (link setup accepted es).client.printed =
          (link setup accepted es).server.session.ptyOutput) := by
  have h := link_delivered setup hplain accepted hsmooth
  refine ⟨h.printed_prefix hgz hsendable, fun harrived hunread hbuffer => ?_⟩
  have hrest := h.printed_rest hgz hsendable harrived hunread
  rwa [hbuffer, List.append_nil] at hrest

def storingSetup : Setup (UInt16 × UInt16 × Bytes) (UInt16 × UInt16 × Bytes) ℚ ℚ :=
  { recordingSetup with server := Server.storingServer }

/-- A compressed frame reaches the client in two pieces, and is read when both are there. -/
def outputRun : List (Event ℚ) :=
  [.server (.ptyRead Native.letterRun) trivial, .receiver, .receiver,
    .server (.tick (1 / 50) true) trivial, .toClient 7, .receiver, .toClient 100, .receiver]

theorem outputRun_smooth :
    Along (step storingSetup) Smooth (.start storingSetup 100) outputRun := by
  decide +kernel

theorem outputRun_packets : packets (link storingSetup 100 outputRun) =
    [.serverFrame 1 (Native.plainMember Native.runBlock Native.letterRun) true] := by
  obtain ⟨fs, hsession, -⟩ := (link_delivered storingSetup rfl 100 outputRun_smooth).tracks
  have hnumbered := Server.session_numbered storingSetup.server fs
  have hraws : (link storingSetup 100 outputRun).server.session.sent.map Server.Sent.raw =
      [Native.letterRun] := by decide +kernel
  have hone := congrArg List.length hraws
  rw [← hsession] at hnumbered
  rw [List.length_map] at hone
  have hframe := hnumbered.letterRun (i := 0) (by rw [hraws]; rfl)
  refine List.ext_getElem? fun i => ?_
  cases i with
  | zero => exact hframe
  | succ i => rw [packets, List.getElem?_eq_none (by simp [hone]), List.getElem?_eq_none (by simp)]

theorem terminal_shows_output_output_run :
    packets (link storingSetup 100 outputRun) =
        [.serverFrame 1 (Native.plainMember Native.runBlock Native.letterRun) true] ∧
      (link storingSetup 100 outputRun).client.printed = Native.letterRun := by
  have hlen : (Native.plainMember Native.runBlock Native.letterRun).length = 22 :=
    Native.plainMember_length _ _
  have hsendable : Sendable (packets (link storingSetup 100 outputRun)) := by
    rw [outputRun_packets]
    intro p hp
    rw [List.mem_singleton.1 hp]
    simp [Packet.Fits, Packet.serialize, hlen]
  have hall := (terminal_shows_output storingSetup rfl Native.storing_inverts 100 outputRun
    outputRun_smooth hsendable).2 (by decide +kernel) (by decide +kernel) (by decide +kernel)
  exact ⟨outputRun_packets, hall.trans (by decide +kernel)⟩

end MoshTcp.Link
