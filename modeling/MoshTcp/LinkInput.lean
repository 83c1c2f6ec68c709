import MoshTcp.Link
import Mathlib.Data.List.TakeWhile

/-! From the keyboard to the shell: what the shell has read is at any time a first part of what
was typed, and everything typed can still get there while the connection holds. -/

set_option autoImplicit false

namespace MoshTcp.Link
open ByteOrder Protocol Client Runs StreamDecoder

variable {σ ρ τ ε : Type} {setup : Setup σ ρ τ ε} {s : State σ ρ τ}

/-- What a pass of the stdin loop queues. -/
structure Passed (client client' : InputLoop σ) (read : StdinRead) (more : List Packet) :
    Prop where
  queued : client'.queued = client.queued ++ more
  packets : ∀ p ∈ more, (∃ rows cols, p = .clientResize rows cols) ∨
    p = .clientInput (readData read)
  idle : client.left = true ∨ client.running = false → more = [] ∧ client'.left = true
  busy : client.left = false → client.running = true →
    (client'.left = true ∧ Client.inputData more = []) ∨
      (client'.left = false ∧ Client.inputData more = readData read)

theorem pollSize_queued (vt : Vt100 σ) (c : InputLoop σ) (size : Option (UInt16 × UInt16)) :
    ∃ more, (c.pollSize vt size).queued = c.queued ++ more ∧
      (∀ p ∈ more, ∃ rows cols, p = .clientResize rows cols) ∧ Client.inputData more = [] := by
  rcases size with _ | ⟨cols, rows⟩
  · exact ⟨[], (List.append_nil _).symm, by simp, rfl⟩
  · simp only [InputLoop.pollSize]
    split
    · exact ⟨[.clientResize rows cols], rfl, by simp, rfl⟩
    · exact ⟨[], (List.append_nil _).symm, by simp, rfl⟩

theorem inputData_append (ps qs : List Packet) :
    Client.inputData (ps ++ qs) = Client.inputData ps ++ Client.inputData qs :=
  List.flatMap_append

theorem pass_passed (vt : Vt100 σ) (c : InputLoop σ) (size : Option (UInt16 × UInt16))
    (read : StdinRead) : ∃ more, Passed c (c.step vt (.pass size read)) read more := by
  by_cases hidle : c.left = true ∨ c.running = false
  · refine ⟨[], ?_, by simp, fun _ => ⟨rfl, ?_⟩, fun hl hr => ?_⟩
    · cases hleft : c.left with
      | true => simp [InputLoop.step, hleft]
      | false =>
        have hr : c.running = false := hidle.resolve_left (by simp [hleft])
        simp [InputLoop.step, hleft, hr]
    · cases hleft : c.left with
      | true => simp [InputLoop.step, hleft]
      | false =>
        have hr : c.running = false := hidle.resolve_left (by simp [hleft])
        simp [InputLoop.step, hleft, hr]
    · rw [hl, hr] at hidle
      simp at hidle
  · have hl : c.left = false := by simpa using fun h => hidle (.inl h)
    have hr : c.running = true := by simpa using fun h => hidle (.inr h)
    have hstep : c.step vt (.pass size read) = (c.pollSize vt size).readStdin vt read := by
      simp [InputLoop.step, hl, hr]
    obtain ⟨resize, hqueued, hresize, hdata⟩ := pollSize_queued vt c size
    obtain ⟨-, -, hleft⟩ := pollSize_frame vt c size
    rw [hl] at hleft
    rw [hstep]
    generalize c.pollSize vt size = r at hqueued hleft
    have hstay : ∀ {c' : InputLoop σ}, c'.queued = r.queued →
        (c'.left = true ∨ c'.left = false ∧ readData read = []) →
        Passed c c' read resize := by
      intro c' hq hc
      refine ⟨hq.trans hqueued, fun p hp => .inl (hresize p hp), fun h => absurd h hidle, ?_⟩
      intro _ _
      exact hc.imp (fun h => ⟨h, hdata⟩) fun h => ⟨h.1, hdata.trans h.2.symm⟩
    cases read with
    | wouldBlock => exact ⟨resize, hstay rfl (.inr ⟨hleft, rfl⟩)⟩
    | failed => exact ⟨resize, hstay rfl (.inl rfl)⟩
    | ok data =>
      simp only [InputLoop.readStdin]
      split
      · exact ⟨resize, hstay rfl (.inl rfl)⟩
      · split
        · exact ⟨resize, hstay rfl (.inl rfl)⟩
        · refine ⟨resize ++ [.clientInput data], ?_, ?_, fun h => absurd h hidle, ?_⟩
          · simp only [InputLoop.typed, hqueued, List.append_assoc]
          · intro p hp
            rw [List.mem_append, List.mem_singleton] at hp
            exact hp.imp (hresize p) id
          · intro _ _
            refine .inr ⟨hleft, ?_⟩
            rw [inputData_append, hdata]
            exact List.append_nil data

/-! ### The bytes on their way -/

def FromStdin (p : Packet) : Prop :=
  (∃ rows cols, p = .clientResize rows cols) ∨ ∃ data, data.length ≤ 4096 ∧ p = .clientInput data

/-- What is at the server and on the way to it is a first part of the packets in order, and all
that were taken from the channel while the socket takes bytes. -/
structure Uplink (setup : Setup σ ρ τ ε) (s : State σ ρ τ) : Prop where
  taken_le : s.taken ≤ s.client.queued.length
  written : s.server.received ++ s.uplink <+:
    encodeAll (setup.handshake :: s.client.queued.take s.taken)
  whole : s.writable = true → s.server.received ++ s.uplink =
    encodeAll (setup.handshake :: s.client.queued.take s.taken)
  served : Server.Served setup.server s.server
  input : Client.inputData s.client.queued <+: s.typed
  live : s.client.left = false → Client.inputData s.client.queued = s.typed
  packets : ∀ p ∈ s.client.queued, FromStdin p

theorem Uplink.congr {s' : State σ ρ τ} (h : Uplink setup s)
    (hqueued : s'.client.queued = s.client.queued) (hleft : s'.client.left = s.client.left)
    (htyped : s'.typed = s.typed) (htaken : s'.taken = s.taken)
    (hwritable : s'.writable = s.writable) (huplink : s'.uplink = s.uplink)
    (hserver : s'.server = s.server) : Uplink setup s' := by
  refine ⟨?_, ?_, ?_, ?_, ?_, ?_, ?_⟩
  · rw [htaken, hqueued]
    exact h.taken_le
  · rw [hserver, huplink, hqueued, htaken]
    exact h.written
  · rw [hwritable, hserver, huplink, hqueued, htaken]
    exact h.whole
  · rw [hserver]
    exact h.served
  · rw [hqueued, htyped]
    exact h.input
  · rw [hleft, hqueued, htyped]
    exact h.live
  · rw [hqueued]
    exact h.packets

theorem start_uplink (setup : Setup σ ρ τ ε) (accepted : Nat) :
    Uplink setup (.start setup accepted) := by
  have hone : encodeAll [setup.handshake] = PacketCodec.encode setup.handshake := by
    rw [encodeAll_cons, encodeAll_nil, List.append_nil]
  refine ⟨Nat.le_refl _, ?_, fun hw => ?_, .handled [] (Server.start_handled _),
    List.prefix_rfl, fun _ => rfl, by simp [State.start, InputLoop.start]⟩
  · change (PacketCodec.encode setup.handshake).take accepted <+: encodeAll [setup.handshake]
    rw [hone]
    exact List.take_prefix _ _
  · change (PacketCodec.encode setup.handshake).take accepted = encodeAll [setup.handshake]
    rw [hone]
    exact List.take_of_length_le (of_decide_eq_true hw)

/-- A read of the stdin thread fits the buffer that it is given. -/
def Event.ReadSize : Event ε → Prop
  | .stdin _ (.ok data) => data.length ≤ 4096
  | _ => True

theorem readData_length {size : Option (UInt16 × UInt16)} {read : StdinRead}
    (h : Event.ReadSize (.stdin size read : Event ε)) : (readData read).length ≤ 4096 := by
  cases read with
  | ok data => exact h
  | wouldBlock => exact Nat.zero_le _
  | failed => exact Nat.zero_le _

theorem stdin_uplink (h : Uplink setup s) {size : Option (UInt16 × UInt16)} {read : StdinRead}
    (hread : (readData read).length ≤ 4096) : Uplink setup (s.stdin setup size read) := by
  rw [State.stdin]
  split
  · exact h
  obtain ⟨more, hpass⟩ := pass_passed setup.vt s.client size read
  have htake : (s.client.queued ++ more).take s.taken = s.client.queued.take s.taken :=
    List.take_append_of_le_length h.taken_le
  refine ⟨?_, ?_, ?_, h.served, ?_, ?_, ?_⟩
  · rw [hpass.queued, List.length_append]
    exact h.taken_le.trans (Nat.le_add_right _ _)
  · rw [hpass.queued, htake]
    exact h.written
  · rw [hpass.queued, htake]
    exact h.whole
  · rw [hpass.queued, inputData_append]
    by_cases hidle : s.client.left = true ∨ s.client.running = false
    · rw [(hpass.idle hidle).1, if_pos (by simpa using hidle)]
      exact (List.append_nil _).symm ▸ h.input
    · have hl : s.client.left = false := by simpa using fun h => hidle (.inl h)
      have hr : s.client.running = true := by simpa using fun h => hidle (.inr h)
      rw [if_neg (by simp [hl, hr]), h.live hl]
      cases hpass.busy hl hr with
      | inl hb =>
        rw [hb.2, List.append_nil]
        exact List.prefix_append _ _
      | inr hb => rw [hb.2]
  · intro hleft
    rw [hpass.queued, inputData_append]
    by_cases hidle : s.client.left = true ∨ s.client.running = false
    · exact absurd ((hpass.idle hidle).2.symm.trans hleft) (by decide)
    · have hl : s.client.left = false := by simpa using fun h => hidle (.inl h)
      have hr : s.client.running = true := by simpa using fun h => hidle (.inr h)
      rw [if_neg (by simp [hl, hr]), h.live hl]
      cases hpass.busy hl hr with
      | inl hb => exact absurd (hb.1.symm.trans hleft) (by decide)
      | inr hb => rw [hb.2]
  · rw [hpass.queued]
    intro p hp
    cases List.mem_append.1 hp with
    | inl hp => exact h.packets p hp
    | inr hp => exact (hpass.packets p hp).imp id fun hp => ⟨_, hread, hp⟩

/-- The packet is on its way as far as it was written. -/
theorem write_uplink (h : Uplink setup s) {packet : Packet}
    (hp : s.client.queued[s.taken]? = some packet) (accepted : Nat) :
    Uplink setup ({ s with taken := s.taken + 1 }.write packet accepted) := by
  obtain ⟨hlt, -⟩ := List.getElem?_eq_some_iff.1 hp
  have htake : s.client.queued.take (s.taken + 1) = s.client.queued.take s.taken ++ [packet] := by
    rw [List.take_add_one, hp]
    rfl
  have hall : encodeAll (setup.handshake :: s.client.queued.take (s.taken + 1)) =
      encodeAll (setup.handshake :: s.client.queued.take s.taken) ++
        PacketCodec.encode packet := by
    rw [htake, ← List.cons_append, encodeAll_append, encodeAll_cons packet, encodeAll_nil,
      List.append_nil]
  rw [State.write]
  split
  · rename_i hw
    have hwhole := h.whole hw
    split
    · refine ⟨hlt, ?_, fun _ => ?_, h.served, h.input, h.live, h.packets⟩
      · rw [hall, ← hwhole, List.append_assoc]
      · rw [hall, ← hwhole, List.append_assoc]
    · refine ⟨hlt, ?_, fun hw => Bool.noConfusion hw, h.served, h.input, h.live, h.packets⟩
      rw [hall, ← hwhole, ← List.append_assoc]
      exact (List.prefix_append_right_inj _).2 (List.take_prefix _ _)
  · rename_i hw
    refine ⟨hlt, ?_, fun hw' => absurd hw' hw, h.served, h.input, h.live, h.packets⟩
    rw [hall]
    exact h.written.trans (List.prefix_append _ _)

theorem send_uplink (h : Uplink setup s) (accepted : Nat) :
    Uplink setup (s.send accepted) := by
  rw [State.send]
  split
  · exact h
  · split
    · exact h.congr rfl rfl rfl rfl rfl rfl rfl
    · split
      · rename_i hp
        exact write_uplink h hp accepted
      · exact h.congr rfl rfl rfl rfl rfl rfl rfl
    · exact h

theorem render_queued (setup : Setup σ ρ τ ε) (gz : Gzip) (client : InputLoop σ)
    (packet : Packet) :
    (render setup gz client packet).queued = client.queued ∧
      (render setup gz client packet).left = client.left ∧
      (render setup gz client packet).running = client.running := by
  cases packet with
  | serverFrame seq data compressed =>
    simp only [render]
    split <;> exact ⟨rfl, rfl, rfl⟩
  | _ => exact ⟨rfl, rfl, rfl⟩

theorem receive_uplink (h : Uplink setup s) : Uplink setup (s.receive setup) := by
  rw [State.receive]
  split
  · exact h.congr rfl rfl rfl rfl rfl rfl rfl
  · split
    · rename_i packet rest _
      obtain ⟨hqueued, hleft, -⟩ := render_queued setup setup.server.gzip s.client packet
      exact h.congr hqueued hleft rfl rfl rfl rfl rfl
    · split
      · exact h.congr rfl rfl rfl rfl rfl rfl rfl
      · exact h.congr rfl rfl rfl rfl rfl rfl rfl
  · exact h

theorem server_uplink (h : Uplink setup s) {e : Server.SocketEvent ε}
    (he : (Server.socketStep setup.server s.server e).received = s.server.received) :
    Uplink setup { s with server := Server.socketStep setup.server s.server e } := by
  refine ⟨h.taken_le, ?_, ?_, Server.socketStep_served h.served e, h.input, h.live, h.packets⟩
  · rw [he]
    exact h.written
  · rw [he]
    exact h.whole

theorem nextPacket_received (cfg : Server.Config ρ τ ε) (c : Server.Connection ρ τ) :
    (Server.nextPacket cfg c).received = c.received := by
  unfold Server.nextPacket
  split
  · rfl
  · split
    · rfl
    · rfl
    · split <;> rfl

theorem step_uplink (h : Uplink setup s) (e : Event ε) (he : e.ReadSize) :
    Uplink setup (step setup s e) := by
  cases e with
  | stdin size read => exact stdin_uplink h (readData_length he)
  | sender accepted => exact send_uplink h accepted
  | receiver => exact receive_uplink h
  | connectionError =>
    rw [step]
    split
    · exact h.congr rfl rfl rfl rfl rfl rfl rfl
    · exact h
  | toServer n =>
    rw [step]
    split
    · exact h
    · rename_i hopen
      have hserved := Server.socketStep_served h.served (.arrive (s.uplink.take n))
      have hreceived : (Server.socketStep setup.server s.server
          (.arrive (s.uplink.take n))).received ++ s.uplink.drop n =
          s.server.received ++ s.uplink := by
        rw [Server.socketStep, if_neg hopen, List.append_assoc, List.take_append_drop]
      refine ⟨h.taken_le, ?_, ?_, hserved, h.input, h.live, h.packets⟩
      · rw [hreceived]
        exact h.written
      · rw [hreceived]
        exact h.whole
  | hangup => exact server_uplink h rfl
  | toClient n => exact h.congr rfl rfl rfl rfl rfl rfl rfl
  | next => exact server_uplink h (nextPacket_received _ _)
  | server e he => exact server_uplink h rfl
  | sendTaskDone =>
    exact ⟨h.taken_le, h.written, h.whole, Server.sendTaskDone_served h.served, h.input, h.live,
      h.packets⟩

theorem link_uplink (setup : Setup σ ρ τ ε) (accepted : Nat) (es : List (Event ε))
    (hes : ∀ e ∈ es, e.ReadSize) : Uplink setup (link setup accepted es) :=
  run_invariant (P := fun _ e => Event.ReadSize e) (start_uplink setup accepted)
    (fun _ e h he => step_uplink h e he) (along_of_forall fun _ e he => hes e he)

/-- The handshake that the client writes is as long as its length field says. -/
def Setup.KeyFits (setup : Setup σ ρ τ ε) : Prop := (asBytes setup.sessionKey).length < 2 ^ 16

theorem sendable_handshake (hkey : setup.KeyFits) :
    setup.handshake.Fits ∧ setup.handshake.serialize.length < 2 ^ 32 := by
  rw [Setup.KeyFits] at hkey
  refine ⟨hkey, ?_⟩
  simp [Setup.handshake, Packet.serialize]
  omega

theorem FromStdin.sendable {p : Packet} (h : FromStdin p) :
    p.Fits ∧ p.serialize.length < 2 ^ 32 := by
  rcases h with ⟨rows, cols, rfl⟩ | ⟨data, hlen, rfl⟩
  · exact ⟨trivial, by simp [Packet.serialize]⟩
  · simp only [Packet.Fits, Packet.serialize, List.length_append, List.length_cons,
      List.length_nil, beBytes_length]
    omega

theorem FromStdin.not_stops {p : Packet} (h : FromStdin p) (key : String) :
    Server.stops key p = false := by
  rcases h with ⟨rows, cols, rfl⟩ | ⟨data, hlen, rfl⟩ <;> rfl

theorem Uplink.sendable (h : Uplink setup s) (hkey : setup.KeyFits) (n : Nat) :
    Sendable (setup.handshake :: s.client.queued.take n) := by
  intro p hp
  cases List.mem_cons.1 hp with
  | inl hp => exact hp ▸ sendable_handshake hkey
  | inr hp => exact (h.packets p (List.mem_of_mem_take hp)).sendable

theorem drain_sendable {ps : List Packet} (h : Sendable ps) :
    codec.drain (encodeAll ps) = ⟨ps, [], none⟩ :=
  codec_drain_encodeAll ps (fun p hp => (h p hp).1) fun p hp => (h p hp).2

/-- What the shell has read is the input of the first packets that were queued. -/
theorem Uplink.reads (h : Uplink setup s) (hkey : setup.KeyFits) : ∃ done,
    s.server.session.ptyInput = done.flatMap Server.inputData ∧
      done <+: setup.handshake :: s.client.queued := by
  obtain ⟨done, hinput, hfirst⟩ := h.served.reads
  have hreceived := codec.drain_prefix ((List.prefix_append _ _).trans h.written)
  rw [drain_sendable (h.sendable hkey s.taken)] at hreceived
  refine ⟨done, hinput, ?_⟩
  calc done
    _ <+: (codec.drain s.server.received).items := hfirst
    _ <+: setup.handshake :: s.client.queued.take s.taken := hreceived
    _ <+: setup.handshake :: s.client.queued :=
      List.cons_prefix_cons.2 ⟨rfl, List.take_prefix _ _⟩

theorem inputData_queued (ps : List Packet) :
    Client.inputData ps = ps.flatMap Server.inputData := rfl

theorem flatMap_prefix {α β : Type} (f : α → List β) {xs ys : List α} (h : xs <+: ys) :
    xs.flatMap f <+: ys.flatMap f := by
  obtain ⟨more, rfl⟩ := h
  rw [List.flatMap_append]
  exact List.prefix_append _ _

/-- However the threads, the network and the server take turns, and wherever the connection
fails, the shell has read a first part of what was typed: no byte is lost before a later one,
none comes twice and none is made up. -/
theorem shell_reads_typed (setup : Setup σ ρ τ ε) (hkey : setup.KeyFits) (accepted : Nat)
    (es : List (Event ε)) (hes : ∀ e ∈ es, e.ReadSize) :
    (link setup accepted es).server.session.ptyInput <+: (link setup accepted es).typed := by
  have h := link_uplink setup accepted es hes
  obtain ⟨done, hinput, hfirst⟩ := h.reads hkey
  have hqueued := flatMap_prefix Server.inputData hfirst
  rw [List.flatMap_cons] at hqueued
  rw [hinput]
  refine hqueued.trans ?_
  rw [← inputData_queued]
  exact h.input

theorem recordingSetup_keyFits : recordingSetup.KeyFits :=
  show (asBytes "k").length < 2 ^ 16 by decide +kernel

/-- Two keys are typed, and the second segment from the client ends inside of a packet. -/
def typingRun : List (Event ℚ) :=
  [.stdin none (.ok [0x6C, 0x73]), .sender 0, .toServer 9, .next, .sender 100, .toServer 8, .next,
    .toServer 100, .next, .next]

theorem shell_reads_typed_typing_run :
    (link recordingSetup 100 typingRun).server.session.ptyInput = [0x6C, 0x73] ∧
      (link recordingSetup 100 typingRun).server.session.ptyInput <+:
        (link recordingSetup 100 typingRun).typed :=
  ⟨by decide +kernel, shell_reads_typed recordingSetup recordingSetup_keyFits 100 typingRun
    (by simp [typingRun, Event.ReadSize])⟩

/-! ### Nothing gets stuck -/

/-- The connection holds, the threads of the client are in their loops, and so is the send loop
of the server. -/
structure Connected (s : State σ ρ τ) : Prop where
  sender : s.sender ≠ .left
  receiver : s.receiver ≠ .left
  running : s.client.running = true
  left : s.client.left = false
  writable : s.writable = true
  closed : s.server.closed = false
  serving : s.server.session.sendLoopEnded = false

/-- The steps that only carry bytes on: of the sender thread, of the network towards the
server, and of the packet loop. -/
def Event.Carries : Event ε → Prop
  | .sender _ => True
  | .toServer _ => True
  | .next => True
  | _ => False

theorem Event.Carries.readSize {e : Event ε} (h : e.Carries) : e.ReadSize := by
  cases e <;> first | exact h.elim | trivial

theorem send_test (h : Connected s) (htest : s.sender = .test) (accepted : Nat) :
    s.send accepted = { s with sender := .blocked } := by
  simp only [State.send, if_neg h.receiver, htest, h.running, if_true]

theorem send_blocked (h : Connected s) (hblocked : s.sender = .blocked) {packet : Packet}
    (hp : s.client.queued[s.taken]? = some packet) :
    s.send (PacketCodec.encode packet).length = { s with
      taken := s.taken + 1
      uplink := s.uplink ++ PacketCodec.encode packet
      sender := .test } := by
  simp only [State.send, if_neg h.receiver, hblocked, hp, State.write, h.writable, if_true,
    Nat.le_refl]

/-- From `s` to `t` only the sender thread has moved. -/
structure Sends (s t : State σ ρ τ) : Prop where
  connected : Connected t
  client : t.client = s.client
  typed : t.typed = s.typed

theorem send_one (setup : Setup σ ρ τ ε) (h : Connected s)
    (hlt : s.taken < s.client.queued.length) :
    ∃ es : List (Event ε), (∀ e ∈ es, e.Carries) ∧ Sends s (run (step setup) s es) ∧
      (run (step setup) s es).taken = s.taken + 1 := by
  have hp := List.getElem?_eq_getElem hlt
  have hsent : ∀ t : State σ ρ τ, Connected t → t.sender = .blocked → Sends s t →
      t.taken = s.taken →
      Sends s (t.send (PacketCodec.encode s.client.queued[s.taken]).length) ∧
        (t.send (PacketCodec.encode s.client.queued[s.taken]).length).taken = s.taken + 1 := by
    intro t ht hblocked hsends htaken
    rw [send_blocked ht hblocked (by rw [hsends.client, htaken, hp])]
    refine ⟨⟨⟨by simp, ht.receiver, ht.running, ht.left, ht.writable, ht.closed,
      ht.serving⟩, hsends.client, hsends.typed⟩, ?_⟩
    rw [htaken]
  have hself : Sends s s := ⟨h, rfl, rfl⟩
  cases hstage : s.sender with
  | left => exact absurd hstage h.sender
  | blocked =>
    refine ⟨[.sender (PacketCodec.encode s.client.queued[s.taken]).length], by simp [Event.Carries],
      hsent s h hstage hself rfl⟩
  | test =>
    refine ⟨[.sender 0, .sender (PacketCodec.encode s.client.queued[s.taken]).length],
      by simp [Event.Carries], ?_⟩
    have hblocked : Connected { s with sender := Stage.blocked } :=
      ⟨by simp, h.receiver, h.running, h.left, h.writable, h.closed, h.serving⟩
    simp only [run_cons, run_nil, step, send_test h hstage]
    exact hsent _ hblocked rfl ⟨hblocked, rfl, rfl⟩ rfl

theorem send_all (setup : Setup σ ρ τ ε) (n : Nat) (h : Connected s)
    (hn : s.taken + n = s.client.queued.length) :
    ∃ es : List (Event ε), (∀ e ∈ es, e.Carries) ∧ Sends s (run (step setup) s es) ∧
      (run (step setup) s es).taken = s.client.queued.length := by
  induction n generalizing s with
  | zero => exact ⟨[], by simp, ⟨h, rfl, rfl⟩, hn⟩
  | succ n ih =>
    obtain ⟨es, hes, hsends, htaken⟩ := send_one setup h (by omega)
    obtain ⟨fs, hfs, hrest, hall⟩ := ih hsends.connected (by rw [htaken, hsends.client]; omega)
    refine ⟨es ++ fs, ?_, ?_, ?_⟩
    · intro e he
      cases List.mem_append.1 he with
      | inl he => exact hes e he
      | inr he => exact hfs e he
    · rw [run_append]
      exact ⟨hrest.connected, hrest.client.trans hsends.client, hrest.typed.trans hsends.typed⟩
    · rw [run_append, hall, hsends.client]

theorem run_next (setup : Setup σ ρ τ ε) (s : State σ ρ τ) (n : Nat) :
    run (step setup) s (List.replicate n .next) =
      { s with
        server := run (Server.socketStep setup.server) s.server (List.replicate n .next) } := by
  induction n generalizing s with
  | zero => rfl
  | succ n ih =>
    rw [List.replicate_succ, run_cons, ih]
    rfl

theorem run_next_received (cfg : Server.Config ρ τ ε) (c : Server.Connection ρ τ) (n : Nat) :
    (run (Server.socketStep cfg) c (List.replicate n .next)).received = c.received := by
  induction n generalizing c with
  | zero => rfl
  | succ n ih =>
    rw [List.replicate_succ, run_cons, ih]
    exact nextPacket_received cfg c

theorem run_next_sendLoopEnded (cfg : Server.Config ρ τ ε) (c : Server.Connection ρ τ) (n : Nat) :
    (run (Server.socketStep cfg) c (List.replicate n .next)).session.sendLoopEnded =
      c.session.sendLoopEnded := by
  induction n generalizing c with
  | zero => rfl
  | succ n ih =>
    rw [List.replicate_succ, run_cons, ih]
    exact Server.nextPacket_sendLoopEnded cfg c

/-- What the server has done once all packets have arrived and it waits for more. -/
theorem Uplink.settled (h : Uplink setup s) (hkey : setup.KeyFits)
    (hok : Server.stops setup.server.expectedKey setup.handshake = false)
    (hserving : s.server.session.sendLoopEnded = false)
    (hreceived : s.server.received = encodeAll (setup.handshake :: s.client.queued))
    (hsettled : Server.Settled s.server) :
    s.server.session.ptyInput = Client.inputData s.client.queued ∧
      s.server.session.ptySize = Server.lastSize (setup.handshake :: s.client.queued) := by
  obtain ⟨done, hdone⟩ := h.served.running hserving
  have hsendable := h.sendable hkey s.client.queued.length
  rw [List.take_length] at hsendable
  have hclean : ∀ p ∈ setup.handshake :: s.client.queued,
      Server.stops setup.server.expectedKey p = false := by
    intro p hp
    cases List.mem_cons.1 hp with
    | inl hp => rw [hp, hok]
    | inr hp => exact (h.packets p hp).not_stops _
  have hall := hdone.all hsettled
  have haccepted : Server.accepted setup.server.expectedKey (setup.handshake :: s.client.queued) =
      setup.handshake :: s.client.queued := by
    rw [Server.accepted, List.takeWhile_eq_self_iff]
    intro p hp
    rw [hclean p hp]
    rfl
  rw [hreceived, drain_sendable hsendable, haccepted] at hall
  constructor
  · rw [hdone.input, ← hall, inputData_queued, List.flatMap_cons]
    rfl
  · rw [hdone.size, ← hall]

theorem run_uplink (h : Uplink setup s) {es : List (Event ε)} (hes : ∀ e ∈ es, e.Carries) :
    Uplink setup (run (step setup) s es) :=
  run_invariant (P := fun _ e => Event.ReadSize e) h (fun _ e h he => step_uplink h e he)
    (along_of_forall fun _ e he => (hes e he).readSize)

/-- As long as the connection holds and the server sends, the bytes typed so far reach the shell
by steps that only carry them on, and then its window has the size that the terminal last had. -/
theorem typed_reaches_shell (setup : Setup σ ρ τ ε) (hkey : setup.KeyFits)
    (hok : setup.sessionKey = "" ∨ setup.sessionKey = setup.server.expectedKey) (accepted : Nat)
    (es : List (Event ε)) (hes : ∀ e ∈ es, e.ReadSize)
    (hup : Connected (link setup accepted es)) :
    ∃ more : List (Event ε), (∀ e ∈ more, e.Carries) ∧
      (link setup accepted (es ++ more)).typed = (link setup accepted es).typed ∧
      (link setup accepted (es ++ more)).server.session.ptyInput =
        (link setup accepted es).typed ∧
      (link setup accepted (es ++ more)).server.session.ptySize =
        Server.lastSize (setup.handshake :: (link setup accepted es).client.queued) := by
  have hlink := link_uplink setup accepted es hes
  obtain ⟨s, hs⟩ : ∃ s, s = link setup accepted es := ⟨_, rfl⟩
  rw [← hs] at hlink hup ⊢
  have hstops : Server.stops setup.server.expectedKey setup.handshake = false := by
    rw [Setup.handshake, Server.stops, decide_eq_false_iff_not]
    tauto
  -- Empty the channel, hand everything over, and let the packet loop run dry.
  obtain ⟨send, hsend, hsends, htaken⟩ := send_all setup (s.client.queued.length - s.taken) hup
    (by have := hlink.taken_le; omega)
  obtain ⟨t, ht⟩ : ∃ t, t = run (step setup) s send := ⟨_, rfl⟩
  rw [← ht] at hsends htaken
  have htlink : Uplink setup t := ht ▸ run_uplink hlink hsend
  have hwhole := htlink.whole hsends.connected.writable
  rw [htaken, hsends.client, List.take_length] at hwhole
  obtain ⟨u, hu⟩ : ∃ u, u = step setup t (.toServer t.uplink.length : Event ε) := ⟨_, rfl⟩
  have hulink : Uplink setup u := hu ▸ step_uplink htlink _ trivial
  have hstep : u = { t with
      server := Server.socketStep setup.server t.server (.arrive t.uplink)
      uplink := [] } := by
    rw [hu, step, if_neg (by rw [hsends.connected.closed]; decide), List.take_length,
      List.drop_length]
  have hreceived : u.server.received = encodeAll (setup.handshake :: u.client.queued) := by
    rw [hstep]
    simp only [Server.socketStep, hsends.connected.closed, Bool.false_eq_true, if_false]
    rw [hwhole, hsends.client]
  obtain ⟨n, hn⟩ : ∃ n, u.server.readBuf.length < n := ⟨_, Nat.lt_succ_self _⟩
  obtain ⟨v, hv⟩ : ∃ v, v = run (step setup) u (List.replicate n (.next : Event ε)) := ⟨_, rfl⟩
  have hvlink : Uplink setup v := by
    rw [hv]
    exact run_uplink hulink fun e he => by rw [List.eq_of_mem_replicate he]; trivial
  have hvstep := hv.trans (run_next setup u n)
  have hvreceived : v.server.received = encodeAll (setup.handshake :: v.client.queued) := by
    rw [hvstep]
    exact (run_next_received setup.server u.server n).trans hreceived
  have hvsettled : Server.Settled v.server := by
    rw [hvstep]
    exact Server.run_next_settled n u.server (.inr hn)
  have hvserving : v.server.session.sendLoopEnded = false := by
    rw [hvstep]
    refine (run_next_sendLoopEnded setup.server u.server n).trans ?_
    rw [hstep]
    exact (congrArg Server.Session.sendLoopEnded
      (Server.arrive_session setup.server t.server t.uplink)).trans hsends.connected.serving
  have hclient : v.client = s.client := by
    rw [hvstep, hstep]
    exact hsends.client
  obtain ⟨hinput, hsize⟩ := hvlink.settled hkey hstops hvserving hvreceived hvsettled
  rw [hclient] at hinput hsize
  have hrun : link setup accepted (es ++ (send ++ .toServer t.uplink.length ::
      List.replicate n .next)) = v := by
    rw [link_append, ← hs, run_append, ← ht, run_cons, ← hu, ← hv]
  refine ⟨send ++ .toServer t.uplink.length :: List.replicate n .next, ?_, ?_, ?_, ?_⟩
  · intro e he
    simp only [List.mem_append, List.mem_cons, List.mem_replicate] at he
    rcases he with he | rfl | ⟨-, rfl⟩
    · exact hsend e he
    · trivial
    · trivial
  · rw [hrun, hvstep, hstep]
    exact hsends.typed
  · rw [hrun, hinput, hlink.live hup.left]
  · rw [hrun, hsize]

/-- The keys are queued, and nothing of them is on its way yet. -/
theorem typed_reaches_shell_queued :
    (link recordingSetup 100 [.stdin (some (90, 30)) (.ok [0x6C, 0x73])]).uplink ≠ [] ∧
      ∃ more : List (Event ℚ), (∀ e ∈ more, e.Carries) ∧
        (link recordingSetup 100
          ([.stdin (some (90, 30)) (.ok [0x6C, 0x73])] ++ more)).server.session.ptyInput =
            (link recordingSetup 100 [.stdin (some (90, 30)) (.ok [0x6C, 0x73])]).typed := by
  obtain ⟨more, hmore, -, hinput, -⟩ := typed_reaches_shell recordingSetup recordingSetup_keyFits
    (.inr rfl) 100 [.stdin (some (90, 30)) (.ok [0x6C, 0x73])] (by simp [Event.ReadSize])
    ⟨by decide +kernel, by decide +kernel, by decide +kernel, by decide +kernel,
      by decide +kernel, by decide +kernel, by decide +kernel⟩
  exact ⟨by decide +kernel, more, hmore, hinput⟩

end MoshTcp.Link
