import MoshTcp.ServerSteps
import MoshTcp.Codec

/-! The packet loop of a connection on the bytes that a client sends. The socket delivers them
in segments of any size, the codec takes packets off the front of what has arrived, and the
other threads of the session run in between. -/

set_option autoImplicit false

namespace MoshTcp.Server
open ByteOrder Protocol Ansi Runs StreamDecoder

variable {σ τ ε : Type} {cfg : Config σ τ ε} {s : Session σ τ}

/-- `received` is a history variable: all bytes that have arrived. -/
structure Connection (σ τ : Type) where
  session : Session σ τ
  readBuf : Bytes
  closed : Bool
  received : Bytes

def ServerSide : Event ε → Prop
  | .ptyRead _ | .tick _ _ | .closeFlush _ => True
  | _ => False

/-- `next` is one call of `decode` by the packet loop, `hangup` the end of the client's
stream. The send task does not end first, so `select!` never cuts the packet loop short. -/
inductive SocketEvent (ε : Type) where
  | arrive (segment : Bytes)
  | hangup
  | next
  | server (e : Event ε) (h : ServerSide e)

def Connection.start (cfg : Config σ τ ε) : Connection σ τ := ⟨Session.start cfg, [], false, []⟩

/-- A packet is handled and an error leaves the loop; so does the end of the stream, but only
after the packets that are still in the buffer. -/
def nextPacket (cfg : Config σ τ ε) (c : Connection σ τ) : Connection σ τ :=
  if c.session.packetLoopEnded then c
  else match PacketCodec.decode c.readBuf with
    | (.ok (some packet), rest) =>
      { c with session := step cfg c.session (.clientPacket packet), readBuf := rest }
    | (.error _, rest) => { c with session := step cfg c.session .clientEnd, readBuf := rest }
    | (.ok none, rest) =>
      if c.closed then { c with session := step cfg c.session .clientEnd, readBuf := rest }
      else { c with readBuf := rest }

def socketStep (cfg : Config σ τ ε) (c : Connection σ τ) : SocketEvent ε → Connection σ τ
  | .arrive segment =>
    if c.closed then c
    else { c with readBuf := c.readBuf ++ segment, received := c.received ++ segment }
  | .hangup => { c with closed := true }
  | .next => nextPacket cfg c
  | .server e _ => { c with session := step cfg c.session e }

def connection (cfg : Config σ τ ε) (es : List (SocketEvent ε)) : Connection σ τ :=
  run (socketStep cfg) (.start cfg) es

/-- A handshake that is not accepted. -/
def stops (expectedKey : String) : Packet → Bool
  | .clientHandshake sessionKey _ _ => decide (sessionKey ≠ "" ∧ sessionKey ≠ expectedKey)
  | _ => false

def accepted (expectedKey : String) (packets : List Packet) : List Packet :=
  packets.takeWhile fun p => !stops expectedKey p

def inputData : Packet → Bytes
  | .clientInput data => data
  | _ => []

def windowSize : Packet → Option (UInt16 × UInt16)
  | .clientHandshake _ rows cols => some (atLeastOne rows, atLeastOne cols)
  | .clientResize rows cols => some (atLeastOne rows, atLeastOne cols)
  | _ => none

def lastSize (packets : List Packet) : UInt16 × UInt16 :=
  (packets.filterMap windowSize).getLast?.getD (24, 80)

theorem lastSize_snoc (packets : List Packet) (p : Packet) :
    lastSize (packets ++ [p]) = (windowSize p).getD (lastSize packets) := by
  unfold lastSize
  cases h : windowSize p with
  | none => simp [List.filterMap_append, h]
  | some size => simp [List.filterMap_append, h]

theorem accepted_append {key : String} {done more : List Packet}
    (h : ∀ p ∈ done, stops key p = false) :
    accepted key (done ++ more) = done ++ accepted key more := by
  unfold accepted
  exact List.takeWhile_append_of_pos (by simpa using h)

/-- The emulator was created with this size and has since been fed exactly `history`. -/
def CreatedWith (vt : Vt100 σ) (size : UInt16 × UInt16) (parser : σ) (history : Bytes) : Prop :=
  ∃ chunks : List Bytes, chunks.flatten = history ∧
    chunks.foldl vt.processSafely (vt.new size.1 size.2 1000) = parser

/-- The part of a session that only packets change. -/
def packetSide (s : Session σ τ) : Bytes × (UInt16 × UInt16) × Bool :=
  (s.ptyInput, s.ptySize, s.packetLoopEnded)

theorem packetSide_eq {input : Bytes} {size : UInt16 × UInt16} {ended : Bool} :
    packetSide s = (input, size, ended) ↔
      s.ptyInput = input ∧ s.ptySize = size ∧ s.packetLoopEnded = ended := by
  simp [packetSide]

theorem checked_packetSide (cfg : Config σ τ ε) (s : Session σ τ) (elapsed : ε) :
    packetSide (checked cfg s elapsed) = packetSide s := by
  simp only [checked, discardOverflow]
  split <;> rfl

theorem transmit_packetSide (cfg : Config σ τ ε) (s : Session σ τ) (origin : Origin) (raw : Bytes)
    (sendOk : Bool) : packetSide (transmit cfg s origin raw sendOk) = packetSide s := by
  cases sendOk <;> rfl

theorem server_packetSide (cfg : Config σ τ ε) (s : Session σ τ) {e : Event ε}
    (he : ServerSide e) : packetSide (step cfg s e) = packetSide s := by
  cases e with
  | ptyRead chunk =>
    simp only [step, readPty]
    split
    · rfl
    · split <;> rfl
  | tick elapsed sendOk =>
    have ht := tick_ticked cfg s elapsed sendOk
    simp only [step]
    generalize tick cfg s elapsed sendOk = s' at ht
    have hc := checked_packetSide cfg s elapsed
    split
    · rfl
    · cases ht with
      | exhausted => exact hc
      | refreshed => exact (transmit_packetSide ..).trans hc
      | refreshFailed => exact hc
      | idle => exact hc
      | passed => exact (transmit_packetSide ..).trans hc
      | withheld => exact hc
  | closeFlush sendOk =>
    simp only [step, closeFlush]
    split
    · split <;> rfl
    · rfl
  | clientPacket packet => exact he.elim
  | clientEnd => exact he.elim
  | sendTaskDone => exact he.elim

theorem step_createdWith (h : CreatedWith cfg.vt s.ptySize s.vtParser s.fed) (e : Event ε) :
    CreatedWith cfg.vt (step cfg s e).ptySize (step cfg s e).vtParser (step cfg s e).fed := by
  have hs := step_transition cfg s e
  generalize step cfg s e = s' at hs
  cases hs with
  | still => exact h
  | read chunk =>
    obtain ⟨chunks, hhist, hparser⟩ := h
    exact ⟨chunks ++ [chunk], by simp [received, hhist], by simp [received, hparser]⟩
  | closed => exact h
  | ticked elapsed sendOk _ _ ht =>
    have hsize : (checked cfg s elapsed).ptySize = s.ptySize :=
      (packetSide_eq.1 (checked_packetSide cfg s elapsed)).2.1
    have hsent : ∀ r : Session σ τ, ∀ origin raw,
        (transmit cfg r origin raw sendOk).ptySize = r.ptySize :=
      fun r origin raw => (packetSide_eq.1 (transmit_packetSide cfg r origin raw sendOk)).2.1
    cases ht <;> simpa [skipFrame, clearPending, hsize, hsent] using h
  | flushed => simp only [closeFlush]; split <;> exact h
  | resized => exact ⟨[], rfl, rfl⟩
  | input => exact h
  | left => exact h

theorem packet_accepted (hl : s.packetLoopEnded = false) {p : Packet}
    (hp : stops cfg.expectedKey p = false) :
    packetSide (step cfg s (.clientPacket p)) =
      (s.ptyInput ++ inputData p, (windowSize p).getD s.ptySize, false) := by
  have hstep : step cfg s (.clientPacket p) = handlePacket cfg s p := by simp [step, hl]
  rw [hstep]
  cases p with
  | clientHandshake sessionKey rows cols =>
    have hk : ¬ (sessionKey ≠ "" ∧ sessionKey ≠ cfg.expectedKey) := of_decide_eq_false hp
    simp only [handlePacket, if_neg hk]
    simp [packetSide, resize, inputData, windowSize, hl]
  | clientResize rows cols => simp [packetSide, handlePacket, resize, inputData, windowSize, hl]
  | clientInput data => simp [packetSide, handlePacket, inputData, windowSize, hl]
  | ping timestamp => simp [packetSide, handlePacket, inputData, windowSize, hl]
  | pong timestamp => simp [packetSide, handlePacket, inputData, windowSize, hl]
  | serverFrame seq data compressed =>
    simp [packetSide, handlePacket, inputData, windowSize, hl]

theorem packet_stops (hl : s.packetLoopEnded = false) {p : Packet}
    (hp : stops cfg.expectedKey p = true) :
    step cfg s (.clientPacket p) = { s with packetLoopEnded := true } := by
  cases p with
  | clientHandshake sessionKey rows cols =>
    have hk : sessionKey ≠ "" ∧ sessionKey ≠ cfg.expectedKey := of_decide_eq_true hp
    simp only [step, hl, handlePacket, if_pos hk]
    rfl
  | _ => simp [stops] at hp

/-! ### The connection -/

/-- `done` are the packets handled so far: those before what is left in the buffer while the
loop runs, and all that are accepted once it has been left. -/
structure Handled (cfg : Config σ τ ε) (c : Connection σ τ) (done : List Packet) : Prop where
  input : c.session.ptyInput = done.flatMap inputData
  size : c.session.ptySize = lastSize done
  clean : ∀ p ∈ done, stops cfg.expectedKey p = false
  running : c.session.packetLoopEnded = false → ∀ more,
    codec.drain (c.received ++ more) = (codec.drain (c.readBuf ++ more)).after done
  ended : c.session.packetLoopEnded = true → ∀ more, (c.closed = true → more = []) →
    accepted cfg.expectedKey (codec.drain (c.received ++ more)).items = done

section Handled
variable {c : Connection σ τ} {done : List Packet}

theorem start_handled (cfg : Config σ τ ε) : Handled cfg (.start cfg) [] where
  input := rfl
  size := rfl
  clean := by simp
  running := fun _ _ => rfl
  ended := by simp [Connection.start, Session.start]

theorem arrive_handled (h : Handled cfg c done) (segment : Bytes) :
    Handled cfg (socketStep cfg c (.arrive segment)) done := by
  cases hc : c.closed with
  | true =>
    simp only [socketStep, hc, if_true]
    exact h
  | false =>
    simp only [socketStep, hc, Bool.false_eq_true, if_false]
    refine ⟨h.input, h.size, h.clean, fun hl more => ?_, fun hl more _ => ?_⟩
    · rw [List.append_assoc, List.append_assoc]
      exact h.running hl (segment ++ more)
    · rw [List.append_assoc]
      exact h.ended hl (segment ++ more) (by simp [hc])

theorem server_handled (h : Handled cfg c done) {e : Event ε} (he : ServerSide e) :
    Handled cfg (socketStep cfg c (.server e he)) done := by
  obtain ⟨hinput, hsize, hloop⟩ := packetSide_eq.1 (server_packetSide cfg c.session he)
  refine ⟨hinput.trans h.input, hsize.trans h.size, h.clean, ?_, ?_⟩
  · simp only [socketStep, hloop]
    exact h.running
  · simp only [socketStep, hloop]
    exact h.ended

theorem left_handled (h : Handled cfg c done) {s : Session σ τ} {rest : Bytes}
    (hside : packetSide s = (c.session.ptyInput, c.session.ptySize, true))
    (hnone : ∀ more, (c.closed = true → more = []) →
      accepted cfg.expectedKey (codec.drain (c.readBuf ++ more)).items = [])
    (hl : c.session.packetLoopEnded = false) :
    Handled cfg { c with session := s, readBuf := rest } done := by
  obtain ⟨hinput, hsize, hloop⟩ := packetSide_eq.1 hside
  refine ⟨hinput.trans h.input, hsize.trans h.size, h.clean, by simp [hloop],
    fun _ more hmore => ?_⟩
  rw [h.running hl more, Drained.after, accepted_append h.clean, hnone more hmore,
      List.append_nil]

theorem accepted_handled (h : Handled cfg c done) (hl : c.session.packetLoopEnded = false)
    {p : Packet} {rest : Bytes} (hd : PacketCodec.decode c.readBuf = (.ok (some p), rest))
    (hp : stops cfg.expectedKey p = false) :
    Handled cfg { c with session := step cfg c.session (.clientPacket p), readBuf := rest }
      (done ++ [p]) := by
  obtain ⟨hinput, hsize, hloop⟩ := packetSide_eq.1 (packet_accepted hl hp)
  refine ⟨?_, ?_, ?_, fun _ more => ?_, by simp [hloop]⟩
  · rw [hinput]
    simp [h.input]
  · rw [hsize]
    simp [lastSize_snoc, h.size]
  · intro q hq
    rw [List.mem_append, List.mem_singleton] at hq
    cases hq with
    | inl hq => exact h.clean q hq
    | inr hq => rw [hq, hp]
  · rw [h.running hl more, codec.drain_some (codec.some_append more hd)]
    simp [Drained.after]

theorem next_handled (h : Handled cfg c done) :
    ∃ more, Handled cfg (nextPacket cfg c) (done ++ more) := by
  unfold nextPacket
  cases hl : c.session.packetLoopEnded with
  | true => exact ⟨[], by simpa using h⟩
  | false =>
    simp only [Bool.false_eq_true, if_false]
    have hend : packetSide (step cfg c.session .clientEnd) =
        (c.session.ptyInput, c.session.ptySize, true) := rfl
    rcases hd : PacketCodec.decode c.readBuf with ⟨e | _ | p, rest⟩
    · refine ⟨[], ?_⟩
      rw [List.append_nil]
      refine left_handled h hend (fun more _ => ?_) hl
      rw [codec.drain_error (codec.error_append more hd)]
      rfl
    · obtain rfl := decode_none_keeps hd
      refine ⟨[], ?_⟩
      rw [List.append_nil]
      dsimp only
      by_cases hc : c.closed = true
      · rw [if_pos hc]
        refine left_handled h hend (fun more hmore => ?_) hl
        rw [hmore hc, List.append_nil, codec.drain_none hd]
        rfl
      · rw [if_neg hc]
        exact h
    · cases hp : stops cfg.expectedKey p with
      | true =>
        refine ⟨[], ?_⟩
        rw [List.append_nil]
        refine left_handled h (by rw [packet_stops hl hp]; rfl) (fun more _ => ?_) hl
        rw [codec.drain_some (codec.some_append more hd)]
        simp [Drained.after, accepted, hp]
      | false =>
        exact ⟨[p], accepted_handled h hl hd hp⟩

/-- The state of the PTY side is what the accepted packets ask for, up to those that are still
in the buffer. -/
theorem socketStep_handled (h : Handled cfg c done) (e : SocketEvent ε) :
    ∃ more, Handled cfg (socketStep cfg c e) (done ++ more) := by
  cases e with
  | arrive segment => exact ⟨[], by rw [List.append_nil]; exact arrive_handled h segment⟩
  | hangup =>
    refine ⟨[], ?_⟩
    rw [List.append_nil]
    refine ⟨h.input, h.size, h.clean, h.running, fun hl more hmore => ?_⟩
    exact h.ended hl more fun _ => hmore rfl
  | next => exact next_handled h
  | server e he => exact ⟨[], by rw [List.append_nil]; exact server_handled h he⟩

end Handled

theorem connection_handled (cfg : Config σ τ ε) (es : List (SocketEvent ε)) :
    ∃ done, Handled cfg (connection cfg es) done := by
  refine run_preserves (I := fun c : Connection σ τ => ∃ done, Handled cfg c done)
    ⟨[], start_handled cfg⟩ (fun c e h => ?_) es
  obtain ⟨done, h⟩ := h
  obtain ⟨more, hmore⟩ := socketStep_handled h e
  exact ⟨done ++ more, hmore⟩

/-- Everything that has arrived has been dealt with: the loop has been left, or it waits. -/
def Settled (c : Connection σ τ) : Prop :=
  c.session.packetLoopEnded = true ∨ PacketCodec.decode c.readBuf = (.ok none, c.readBuf)

theorem Handled.all {c : Connection σ τ} {done : List Packet} (h : Handled cfg c done)
    (hs : Settled c) : accepted cfg.expectedKey (codec.drain c.received).items = done := by
  cases hl : c.session.packetLoopEnded with
  | true => simpa using h.ended hl [] (fun _ => rfl)
  | false =>
    have hd : codec.decode c.readBuf = (.ok none, c.readBuf) := hs.resolve_left (by simp [hl])
    have hdrain := h.running hl []
    rw [List.append_nil, List.append_nil, codec.drain_none hd] at hdrain
    rw [hdrain, Drained.after, accepted_append h.clean]
    simp [accepted]

theorem Handled.first {c : Connection σ τ} {done : List Packet} (h : Handled cfg c done) :
    done <+: accepted cfg.expectedKey (codec.drain c.received).items := by
  cases hl : c.session.packetLoopEnded with
  | true => rw [h.all (.inl hl)]
  | false =>
    have hdrain := h.running hl []
    rw [List.append_nil, List.append_nil] at hdrain
    rw [hdrain, Drained.after, accepted_append h.clean]
    exact List.prefix_append _ _

/-- A call of `decode` leaves the loop, finds it has to wait, or takes a packet off. -/
theorem next_progress (cfg : Config σ τ ε) (c : Connection σ τ) :
    Settled (nextPacket cfg c) ∨ (nextPacket cfg c).readBuf.length < c.readBuf.length := by
  unfold nextPacket
  cases hl : c.session.packetLoopEnded with
  | true => exact .inl (.inl hl)
  | false =>
    simp only [Bool.false_eq_true, if_false]
    rcases hd : PacketCodec.decode c.readBuf with ⟨e | _ | p, rest⟩
    · exact .inl (.inl rfl)
    · obtain rfl := decode_none_keeps hd
      dsimp only
      split
      · exact .inl (.inl rfl)
      · exact .inl (.inr hd)
    · exact .inr (decode_some_shrinks hd)

theorem next_settled {c : Connection σ τ} (h : Settled c) : Settled (nextPacket cfg c) := by
  unfold nextPacket
  cases hl : c.session.packetLoopEnded with
  | true => exact .inl hl
  | false =>
    have hd : PacketCodec.decode c.readBuf = (.ok none, c.readBuf) :=
      h.resolve_left (by simp [hl])
    simp only [Bool.false_eq_true, if_false, hd]
    split
    · exact .inl rfl
    · exact .inr hd

theorem run_next_settled (n : Nat) (c : Connection σ τ)
    (h : Settled c ∨ c.readBuf.length < n) :
    Settled (run (socketStep cfg) c (List.replicate n .next)) := by
  induction n generalizing c with
  | zero => exact h.resolve_right (by omega)
  | succ n ih =>
    rw [List.replicate_succ, run_cons]
    refine ih (nextPacket cfg c) ?_
    cases h with
    | inl h => exact .inl (next_settled h)
    | inr h =>
      cases next_progress cfg c with
      | inl hs => exact .inl hs
      | inr hlt => exact .inr (by omega)

theorem connection_createdWith (cfg : Config σ τ ε) (es : List (SocketEvent ε)) :
    CreatedWith cfg.vt (connection cfg es).session.ptySize (connection cfg es).session.vtParser
      (connection cfg es).session.fed := by
  refine run_preserves (I := fun c : Connection σ τ =>
    CreatedWith cfg.vt c.session.ptySize c.session.vtParser c.session.fed)
    ⟨[], rfl, rfl⟩ (fun c e h => ?_) es
  cases e with
  | arrive segment =>
    simp only [socketStep]
    split <;> exact h
  | hangup => exact h
  | next =>
    simp only [socketStep, nextPacket]
    split
    · exact h
    · split
      · exact step_createdWith h _
      · exact step_createdWith h _
      · split
        · exact step_createdWith h _
        · exact h
  | server e _ => exact step_createdWith h e

/-- However the bytes of a client are cut and whatever else the session does, the shell is
given the input of the packets before the first bad one, and the size is the last one asked
for by then; when the loop has been left nothing of the client has an effect. -/
theorem server_input_path (cfg : Config σ τ ε) (es : List (SocketEvent ε)) :
    (∃ handled, handled <+: accepted cfg.expectedKey
        (codec.drain (connection cfg es).received).items ∧
      (connection cfg es).session.ptyInput = handled.flatMap inputData ∧
      (connection cfg es).session.ptySize = lastSize handled ∧
      CreatedWith cfg.vt (lastSize handled) (connection cfg es).session.vtParser
        (connection cfg es).session.fed ∧
      (Settled (connection cfg es) → handled = accepted cfg.expectedKey
        (codec.drain (connection cfg es).received).items)) ∧
    ((connection cfg es).session.packetLoopEnded = true → ∀ e,
      (∀ d hd, e ≠ .server d hd) →
        (socketStep cfg (connection cfg es) e).session = (connection cfg es).session) ∧
    ∀ n, (connection cfg es).readBuf.length < n →
      Settled (connection cfg (es ++ List.replicate n .next)) := by
  obtain ⟨done, h⟩ := connection_handled cfg es
  refine ⟨⟨done, h.first, h.input, h.size, ?_, fun hs => (h.all hs).symm⟩, fun hl e he => ?_,
    fun n hn => ?_⟩
  · rw [← h.size]
    exact connection_createdWith cfg es
  · cases e with
    | arrive segment =>
      simp only [socketStep]
      split <;> rfl
    | hangup => rfl
    | next => simp [socketStep, nextPacket, hl]
    | server d hd => exact absurd rfl (he d hd)
  · rw [connection, run_append]
    exact run_next_settled n _ (.inr hn)

/-- `select!` notices that the send loop is over, and drops the packet loop wherever it is. -/
def Connection.sendTaskDone (cfg : Config σ τ ε) (c : Connection σ τ) : Connection σ τ :=
  { c with session := step cfg c.session .sendTaskDone }

theorem step_sendLoopEnded (h : s.sendLoopEnded = true) (e : Event ε) :
    (step cfg s e).sendLoopEnded = true := by
  have hs := step_transition cfg s e
  generalize step cfg s e = s' at hs
  cases hs with
  | ticked elapsed sendOk _ hl => exact absurd (h.symm.trans hl) (by decide)
  | flushed sendOk hc hl => exact absurd (h.symm.trans hl) (by decide)
  | _ => exact h

/-- What a packet loop that may be dropped has made of the packets. -/
inductive Served (cfg : Config σ τ ε) (c : Connection σ τ) : Prop
  | handled (done : List Packet) (h : Handled cfg c done)
  | dropped (done : List Packet) (stopped : c.session.packetLoopEnded = true)
      (ended : c.session.sendLoopEnded = true)
      (input : c.session.ptyInput = done.flatMap inputData)
      (first : done <+: (codec.drain c.received).items)

section Served
variable {c : Connection σ τ}

theorem Served.reads (h : Served cfg c) : ∃ done, c.session.ptyInput = done.flatMap inputData ∧
    done <+: (codec.drain c.received).items := by
  cases h with
  | handled done h => exact ⟨done, h.input, h.first.trans (List.takeWhile_prefix _)⟩
  | dropped done _ _ input first => exact ⟨done, input, first⟩

theorem Served.running (h : Served cfg c) (hl : c.session.sendLoopEnded = false) :
    ∃ done, Handled cfg c done := by
  cases h with
  | handled done h => exact ⟨done, h⟩
  | dropped done _ ended => exact absurd (ended.symm.trans hl) (by decide)

theorem sendTaskDone_served (h : Served cfg c) : Served cfg (c.sendTaskDone cfg) := by
  cases hl : c.session.sendLoopEnded with
  | true =>
    have hstep : c.sendTaskDone cfg =
        { c with session := { c.session with packetLoopEnded := true } } := by
      simp only [Connection.sendTaskDone, step, hl, if_true]
    obtain ⟨done, hinput, hfirst⟩ := h.reads
    rw [hstep]
    exact .dropped done rfl hl hinput hfirst
  | false =>
    have hstep : c.sendTaskDone cfg = c := by
      simp [Connection.sendTaskDone, step, hl]
    rw [hstep]
    exact h

theorem socketStep_served (h : Served cfg c) (e : SocketEvent ε) :
    Served cfg (socketStep cfg c e) := by
  cases h with
  | handled done h =>
    obtain ⟨more, hmore⟩ := socketStep_handled h e
    exact .handled _ hmore
  | dropped done stopped ended input first =>
    cases e with
    | arrive segment =>
      simp only [socketStep]
      split
      · exact .dropped done stopped ended input first
      · exact .dropped done stopped ended input
          (first.trans (codec.drain_prefix (List.prefix_append _ _)))
    | hangup => exact .dropped done stopped ended input first
    | next =>
      rw [socketStep, nextPacket, if_pos stopped]
      exact .dropped done stopped ended input first
    | server e he =>
      obtain ⟨hinput, -, hloop⟩ := packetSide_eq.1 (server_packetSide cfg c.session he)
      exact .dropped done (hloop.trans stopped) (step_sendLoopEnded ended e)
        (hinput.trans input) first

end Served

theorem arrive_session (cfg : Config σ τ ε) (c : Connection σ τ) (segment : Bytes) :
    (socketStep cfg c (.arrive segment)).session = c.session := by
  simp only [socketStep]
  split <;> rfl

theorem nextPacket_sendLoopEnded (cfg : Config σ τ ε) (c : Connection σ τ) :
    (nextPacket cfg c).session.sendLoopEnded = c.session.sendLoopEnded := by
  have hpacket : ∀ p, (step cfg c.session (.clientPacket p)).sendLoopEnded =
      c.session.sendLoopEnded := by
    intro p
    have hs := step_transition cfg c.session (.clientPacket p)
    generalize step cfg c.session (.clientPacket p) = s' at hs
    cases hs <;> rfl
  unfold nextPacket
  split
  · rfl
  · split
    · exact hpacket _
    · rfl
    · split <;> rfl

/-! ### The session key -/

def clientPackets (es : List (Event ε)) : List Packet :=
  es.filterMap fun
    | .clientPacket p => some p
    | _ => none

theorem step_packetLoopEnded (h : s.packetLoopEnded = true) (e : Event ε) :
    (step cfg s e).packetLoopEnded = true := by
  have hside : ServerSide e → (step cfg s e).packetLoopEnded = true := by
    intro he
    obtain ⟨-, -, hloop⟩ := packetSide_eq.1 (server_packetSide cfg s he)
    exact hloop.trans h
  cases e with
  | ptyRead chunk => exact hside trivial
  | tick elapsed sendOk => exact hside trivial
  | closeFlush sendOk => exact hside trivial
  | clientPacket packet => simp [step, h]
  | clientEnd => rfl
  | sendTaskDone =>
    simp only [step]
    split
    · rfl
    · exact h

theorem packet_of_ended (h : s.packetLoopEnded = true) (p : Packet) :
    step cfg s (.clientPacket p) = { s with packetLoopEnded := true } := by
  rw [step, if_pos h, ← h]

theorem ended_of_stops (cfg : Config σ τ ε) (es : List (Event ε)) {q : Packet}
    (hq : q ∈ clientPackets es) (hs : stops cfg.expectedKey q = true) :
    (session cfg es).packetLoopEnded = true := by
  induction es using List.reverseRecOn with
  | nil => simp [clientPackets] at hq
  | append_singleton es e ih =>
    rw [session_snoc]
    rw [clientPackets, List.filterMap_append, List.mem_append] at hq
    cases hq with
    | inl hq => exact step_packetLoopEnded (ih hq) e
    | inr hq =>
      cases e with
      | clientPacket p =>
        obtain rfl : q = p := by simpa using hq
        cases hl : (session cfg es).packetLoopEnded with
        | true => exact step_packetLoopEnded hl _
        | false => rw [packet_stops hl hs]
      | _ => simp at hq

/-- From a handshake with a wrong key on, itself included, no packet reaches the shell. -/
theorem wrong_key_shuts_out (cfg : Config σ τ ε) (es : List (Event ε)) (p : Packet)
    (h : ∃ q ∈ clientPackets es ++ [p], stops cfg.expectedKey q = true) :
    step cfg (session cfg es) (.clientPacket p) =
      { session cfg es with packetLoopEnded := true } := by
  obtain ⟨q, hq, hs⟩ := h
  cases hl : (session cfg es).packetLoopEnded with
  | true => exact packet_of_ended hl p
  | false =>
    rw [List.mem_append, List.mem_singleton] at hq
    cases hq with
    | inl hq => simp [ended_of_stops cfg es hq hs] at hl
    | inr hq => exact packet_stops hl (hq ▸ hs)

theorem wrong_key_shuts_out_input :
    (step (recordingServer 6) (session (recordingServer 6)
      [.clientPacket (.clientHandshake "guess" 24 80)])
      (.clientPacket (.clientInput [0x6C]))).ptyInput = [] := by
  rw [wrong_key_shuts_out (recordingServer 6) [.clientPacket (.clientHandshake "guess" 24 80)]
    (.clientInput [0x6C]) ⟨.clientHandshake "guess" 24 80, by simp [clientPackets], by decide⟩]
  decide

/-- Input is written although no handshake has come at all. -/
theorem input_needs_no_handshake :
    ¬ ∀ (es : List (Event ℚ)) (p : Packet),
      (step (recordingServer 6) (session (recordingServer 6) es) (.clientPacket p)).ptyInput ≠
          (session (recordingServer 6) es).ptyInput →
        ∃ rows cols, .clientHandshake (recordingServer 6).expectedKey rows cols ∈
          clientPackets es := by
  intro h
  obtain ⟨rows, cols, hmem⟩ := h [] (.clientInput [0x6C]) (by decide)
  simp [clientPackets] at hmem

end MoshTcp.Server
