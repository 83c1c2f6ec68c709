import MoshTcp.ServerResume
import MoshTcp.ServerDelivery
import MoshTcp.AltScreen
import MoshTcp.Lib.Numerals

/-! The alternate screen on both sides of a session. A refresh frame draws the screen but
never switches it, so a switch reaches the client only among raw bytes: it is lost when a
discard takes it, or takes one end of it. -/

set_option autoImplicit false

namespace MoshTcp.Server
open ByteOrder Protocol Utf8Lossy Numerals Ansi AltScreen MarkedWords Runs

variable {σ τ ε : Type} {cfg : Config σ τ ε} {s : Session σ τ}

/-- Whatever an emulator of 24 by 80 was fed, it renders its screen without switching it, and
its cursor is at neither row nor column 65535. -/
def SwitchFree (vt : Vt100 σ) : Prop :=
  ∀ chunks : List Bytes, let parser := chunks.foldl vt.processSafely (vt.new 24 80 1000)
    (∃ contents, vt.contentsFormatted parser = some contents ∧ lastSwitch contents = none) ∧
      (vt.cursorPosition parser).1 ≠ 65535 ∧ (vt.cursorPosition parser).2 ≠ 65535

/-- An emulator of 24 by 80 and what it was fed since. -/
def FromStart (vt : Vt100 σ) (parser : σ) : Prop :=
  ∃ chunks : List Bytes, chunks.foldl vt.processSafely (vt.new 24 80 1000) = parser

theorem FromStart.process {vt : Vt100 σ} {parser : σ} (h : FromStart vt parser) (chunk : Bytes) :
    FromStart vt (vt.processSafely parser chunk) := by
  obtain ⟨chunks, rfl⟩ := h
  exact ⟨chunks ++ [chunk], by simp⟩

theorem SwitchFree.renders {vt : Vt100 σ} (hvt : SwitchFree vt) {parser : σ}
    (hp : FromStart vt parser) : ∃ frame, generateAtomicScreenFrame vt parser = some frame := by
  obtain ⟨chunks, rfl⟩ := hp
  obtain ⟨⟨contents, hc, -⟩, hrow, hcol⟩ := hvt chunks
  exact ⟨_, generateAtomicScreenFrame_eq_some.2
    ⟨contents, _, _, hc, checkedSucc_of_ne hrow, checkedSucc_of_ne hcol, rfl⟩⟩

theorem question_not_mem_decimal (n : Nat) : 0x3F ∉ decimal n := by
  intro h
  rw [decimal, asBytes, encode_toString] at h
  exact absurd (List.all_eq_true.1 (decimalDigits_all n) _ h) (by decide)

def cursorMode (hide : Bool) : Bytes := [0x5B, 0x3F, 0x32, 0x35, if hide then 0x6C else 0x68]

theorem refresh_parts {vt : Vt100 σ} (hvt : SwitchFree vt) {parser : σ} {frame : Bytes}
    (hp : FromStart vt parser) (h : generateAtomicScreenFrame vt parser = some frame) :
    ∃ contents move, lastSwitch contents = none ∧ 0x3F ∉ move ∧
      frame = (([0x1b, 0x5B, 0x48] ++ 0x1b :: [0x5B, 0x32, 0x4A]) ++ contents ++ 0x1b :: move) ++
        0x1b :: cursorMode (vt.hideCursor parser) := by
  obtain ⟨contents, row, col, hc, -, -, rfl⟩ := generateAtomicScreenFrame_eq_some.1 h
  have hfree : lastSwitch contents = none := by
    obtain ⟨chunks, rfl⟩ := hp
    obtain ⟨⟨contents', hc', hfree⟩, -⟩ := hvt chunks
    obtain rfl : contents = contents' := Option.some.inj (hc.symm.trans hc')
    exact hfree
  refine ⟨contents, [0x5B] ++ decimal row.toNat ++ [0x3B] ++ decimal col.toNat ++ [0x48],
    hfree, ?_, ?_⟩
  · simp [question_not_mem_decimal]
  · simp [cursorMode]

/-- A refresh does not switch the screen and completes nothing, before it or after it. -/
theorem refresh_neutral {vt : Vt100 σ} (hvt : SwitchFree vt) {parser : σ} {frame : Bytes}
    (hp : FromStart vt parser) (h : generateAtomicScreenFrame vt parser = some frame)
    (shown : Bytes) :
    lastSwitch (shown ++ frame) = lastSwitch shown ∧ altCode.Closed (shown ++ frame) := by
  obtain ⟨contents, move, hfree, hmove, rfl⟩ := refresh_parts hvt hp h
  have hclear : lastSwitch (([0x1b, 0x5B, 0x48] ++ 0x1b :: [0x5B, 0x32, 0x4A]) ++ contents) =
      none := by
    have hcut : ∀ b, ¬ altCode.Cut ([0x1b, 0x5B, 0x48] ++ 0x1b :: [0x5B, 0x32, 0x4A])
        contents b := by
      intro b
      obtain ⟨m, e⟩ := b
      refine Code.not_cut_of_last_mark (by decide) ?_
      cases m <;> cases e <;> decide
    have hhead : altCode.lastWord ([0x1b, 0x5B, 0x48] ++ 0x1b :: [0x5B, 0x32, 0x4A]) = none := by
      decide
    unfold lastSwitch at hfree ⊢
    rw [Code.lastWord_append hcut, hfree, hhead]
    rfl
  have hcursor : lastSwitch (0x1b :: cursorMode (vt.hideCursor parser)) = none := by
    cases vt.hideCursor parser <;> decide
  have hgoto : lastSwitch (0x1b :: move) = none :=
    lastSwitch_of_no_question (by simpa using hmove)
  constructor
  -- each part starts with an ESC, so nothing is completed across a seam
  · have hseam : ∀ xs ys, lastSwitch (0x1b :: ys) = none →
        lastSwitch (xs ++ 0x1b :: ys) = lastSwitch xs :=
      fun xs ys hys => Code.lastWord_append_mark (C := altCode) hys
    rw [← List.append_assoc, hseam _ _ hcursor, ← List.append_assoc, hseam _ _ hgoto]
    exact hseam shown _ hclear
  · intro ys b
    rw [← List.append_assoc]
    refine Code.not_cut_of_last_mark (C := altCode) ?_ ?_
    · cases vt.hideCursor parser <;> decide
    · obtain ⟨m, e⟩ := b
      cases vt.hideCursor parser <;> cases m <;> cases e <;> decide

/-- The bytes in the buffer do not change the last switch, and no switch of the stream is cut
where they end. -/
structure DiscardSafe (stream : Bytes) (s : Session σ τ) : Prop where
  unchanged : lastSwitch s.ptyOutput = lastSwitch (s.ptyOutput.take (bufferStart s))
  notCut : ∀ b, ¬ altCode.Cut s.ptyOutput (stream.drop s.ptyOutput.length) b

def shownBytes (s : Session σ τ) : Bytes := (s.sent.map Sent.raw).flatten

/-- What was shown ends as the first `p` bytes of the stream do, and the parts before agree
on the last switch and cut no switch. -/
def Aligned (stream shown : Bytes) (p : Nat) : Prop :=
  ∃ front start, start ≤ p ∧ shown = front ++ (stream.take p).drop start ∧
    lastSwitch front = lastSwitch (stream.take start) ∧ altCode.Closed front ∧
    ∀ b, ¬ altCode.Cut (stream.take start) (stream.drop start) b

section Aligned
variable {stream shown : Bytes} {p : Nat}

theorem Aligned.lastSwitch_eq (h : Aligned stream shown p) :
    lastSwitch shown = lastSwitch (stream.take p) := by
  obtain ⟨front, start, hle, rfl, hlast, hclosed, hcut⟩ := h
  have htail : (stream.take p).drop start <+: stream.drop start :=
    (List.take_prefix p stream).drop start
  have hwhole : stream.take start ++ (stream.take p).drop start = stream.take p := by
    conv_rhs => rw [← List.take_append_drop start (stream.take p), List.take_take,
      Nat.min_eq_left hle]
  conv_rhs => rw [← hwhole]
  unfold lastSwitch at hlast ⊢
  rw [Code.lastWord_append (hclosed _), Code.lastWord_append fun b hb => hcut b (hb.mono htail),
    hlast]

theorem Aligned.pass (h : Aligned stream shown p) (hp : p ≤ stream.length) (n : Nat) :
    Aligned stream (shown ++ (stream.drop p).take n) (p + n) := by
  obtain ⟨front, start, hle, rfl, hrest⟩ := h
  refine ⟨front, start, by omega, ?_, hrest⟩
  rw [List.append_assoc, List.take_add,
    List.drop_append_of_le_length (by simpa [List.length_take, hp] using hle)]

theorem aligned_of_closed (hclosed : altCode.Closed shown)
    (hlast : lastSwitch shown = lastSwitch (stream.take p))
    (hcut : ∀ b, ¬ altCode.Cut (stream.take p) (stream.drop p) b) : Aligned stream shown p :=
  ⟨shown, p, Nat.le_refl p, by simp, hlast, hclosed, hcut⟩

end Aligned

/-! ### Runs -/

structure Tracked (stream : Bytes) (s : Session σ τ) : Prop where
  running : s.sendLoopEnded = false
  output : s.ptyOutput <+: stream
  buffer : s.ptyBuffer <:+ s.ptyOutput
  passing : s.pendingAtomicRefresh = false → Aligned stream (shownBytes s) (bufferStart s)
  pending : s.pendingAtomicRefresh = true →
    lastSwitch (shownBytes s) = lastSwitch (stream.take (bufferStart s))

section Tracked
variable {stream : Bytes}

theorem Tracked.lastSwitch_eq (h : Tracked stream s) :
    lastSwitch (shownBytes s) = lastSwitch (stream.take (bufferStart s)) := by
  cases hp : s.pendingAtomicRefresh with
  | false => exact (h.passing hp).lastSwitch_eq
  | true => exact h.pending hp

theorem Tracked.take_output (h : Tracked stream s) {p : Nat} (hp : p ≤ s.ptyOutput.length) :
    stream.take p = s.ptyOutput.take p := by
  obtain ⟨more, rfl⟩ := h.output
  rw [List.take_append_of_le_length hp]

theorem Tracked.discarded (h : Tracked stream s) (hsafe : DiscardSafe stream s) :
    lastSwitch (shownBytes s) = lastSwitch (stream.take s.ptyOutput.length) := by
  have hle : bufferStart s ≤ s.ptyOutput.length := Nat.sub_le _ _
  rw [h.lastSwitch_eq, h.take_output hle, h.take_output (Nat.le_refl _), List.take_length,
    hsafe.unchanged]

theorem received_tracked (h : Tracked stream s) {chunk : Bytes}
    (hout : s.ptyOutput ++ chunk <+: stream) : Tracked stream (received cfg s chunk) := by
  refine ⟨h.running, hout, ?_, ?_, ?_⟩
  · obtain ⟨front, hfront⟩ := h.buffer
    exact ⟨front, by simp [received, ← hfront]⟩
  · rw [bufferStart_received]
    exact h.passing
  · rw [bufferStart_received]
    exact h.pending

theorem overflowed_tracked (h : Tracked stream s) (hsafe : DiscardSafe stream s) {elapsed : ε}
    (hcap : maxPtyBufferCap < s.ptyBuffer.length) :
    Tracked stream (skipFrame (checked cfg s elapsed)) := by
  obtain ⟨hbuf, hpend⟩ := checked_of_gt cfg elapsed hcap
  refine ⟨by simpa [skipFrame] using h.running, by simpa [skipFrame] using h.output, ?_, ?_, ?_⟩
  · simp [skipFrame, hbuf]
  · simp [skipFrame, hpend]
  · intro _
    have hstart : bufferStart (skipFrame (checked cfg s elapsed)) = s.ptyOutput.length :=
      bufferStart_overflowed cfg elapsed hcap
    rw [hstart, ← h.discarded hsafe]
    simp [shownBytes, skipFrame]

theorem refreshed_tracked (hvt : SwitchFree cfg.vt) (hp : FromStart cfg.vt s.vtParser)
    (h : Tracked stream s) (hsafe : DiscardSafe stream s) {elapsed : ε} {frame : Bytes}
    (hf : generateAtomicScreenFrame cfg.vt s.vtParser = some frame) (origin : Origin) :
    Tracked stream (transmit cfg (clearPending (checked cfg s elapsed)) origin frame true) := by
  have hstart : bufferStart (transmit cfg (clearPending (checked cfg s elapsed)) origin frame
      true) = s.ptyOutput.length := by
    rw [bufferStart_cleared, checked_ptyOutput]
  have hshown : shownBytes (transmit cfg (clearPending (checked cfg s elapsed)) origin frame
      true) = shownBytes s ++ frame := by
    simp [shownBytes, transmit, clearPending]
  have hwhole : stream.take s.ptyOutput.length = s.ptyOutput := by
    rw [h.take_output (Nat.le_refl _), List.take_length]
  obtain ⟨hlast, hclosed⟩ := refresh_neutral hvt hp hf (shownBytes s)
  refine ⟨?_, ?_, ?_, ?_, ?_⟩
  · simpa [transmit, clearPending] using h.running
  · simpa [clearPending] using h.output
  · simp [clearPending]
  · intro _
    rw [hstart, hshown]
    refine aligned_of_closed hclosed (hlast.trans (h.discarded hsafe)) ?_
    rw [hwhole]
    exact hsafe.notCut
  · simp [clearPending]

theorem passed_tracked (h : Tracked stream s) (hp : s.pendingAtomicRefresh = false) {n : Nat}
    (hn : n ≤ s.ptyBuffer.length) (origin : Origin) :
    Tracked stream (transmit cfg { s with ptyBuffer := s.ptyBuffer.drop n } origin
      (s.ptyBuffer.take n) true) := by
  have hstart := bufferStart_passed cfg origin (s.ptyBuffer.take n) true h.buffer.length_le hn
  have hbuf : (stream.drop (bufferStart s)).take n = s.ptyBuffer.take n := by
    obtain ⟨more, rfl⟩ := h.output
    rw [bufferStart, List.drop_append_of_le_length (Nat.sub_le _ _),
      ← List.suffix_iff_eq_drop.1 h.buffer, List.take_append_of_le_length hn]
  have hlen : bufferStart s ≤ stream.length := (Nat.sub_le _ _).trans h.output.length_le
  refine ⟨h.running, h.output, ?_, ?_, ?_⟩
  · rw [transmit_ptyBuffer, transmit_ptyOutput]
    exact (List.drop_suffix n _).trans h.buffer
  · intro _
    have hshown := (h.passing hp).pass hlen n
    rw [hbuf] at hshown
    rw [hstart]
    simpa [shownBytes, transmit] using hshown
  · simp [hp]

theorem step_fromStart (h : FromStart cfg.vt s.vtParser) (e : Event ε) (he : ReadOrTick e) :
    FromStart cfg.vt (step cfg s e).vtParser := by
  have hs := step_transition cfg s e
  generalize step cfg s e = s' at hs
  cases hs with
  | still => exact h
  | read chunk => exact h.process chunk
  | closed => exact h
  | ticked elapsed sendOk _ _ ht => cases ht <;> simpa [skipFrame, clearPending] using h
  | flushed => exact absurd he (by simp [ReadOrTick])
  | resized => exact absurd he (by simp [ReadOrTick])
  | input => exact h
  | left => exact h

theorem step_tracked (hvt : SwitchFree cfg.vt) (hfrom : FromStart cfg.vt s.vtParser)
    (h : Tracked stream s) (e : Event ε) (he : ReadOrTick e)
    (hout : (step cfg s e).ptyOutput <+: stream)
    (hsafe : Discards cfg s e → DiscardSafe stream s) : Tracked stream (step cfg s e) := by
  have hs := step_transition cfg s e
  generalize step cfg s e = s' at hs hout
  cases hs with
  | still => exact h
  | read chunk => exact received_tracked h hout
  | closed => exact ⟨h.running, h.output, h.buffer, h.passing, h.pending⟩
  | ticked elapsed sendOk _ hl ht =>
    obtain rfl : sendOk = true := he
    have hr : Tracked stream (refillTokens cfg s elapsed) :=
      ⟨h.running, h.output, h.buffer, h.passing, h.pending⟩
    have hquiet : (checked cfg s elapsed).pendingAtomicRefresh = false →
        checked cfg s elapsed = refillTokens cfg s elapsed := by
      intro hp
      refine checked_of_not_due fun hdue => ?_
      simp [(checked_pending_iff cfg s elapsed).2 hdue] at hp
    cases ht with
    | exhausted =>
      by_cases hcap : maxPtyBufferCap < s.ptyBuffer.length
      · exact overflowed_tracked h (hsafe ⟨hl, .inl hcap⟩) hcap
      · rw [checked_of_le (Nat.le_of_not_lt hcap)]
        exact ⟨hr.running, hr.output, hr.buffer, hr.passing, hr.pending⟩
    | refreshed frame hne hp hf =>
      rw [checked_tokens] at hne
      rw [checked_vtParser] at hf
      have hdue := (checked_pending_iff cfg s elapsed).1 hp
      exact refreshed_tracked hvt hfrom h (hsafe (discards_of_due hl hdue hne)) hf _
    | refreshFailed _ _ hf =>
      obtain ⟨frame, hframe⟩ := hvt.renders hfrom
      rw [checked_vtParser, hframe] at hf
      exact absurd hf (by simp)
    | idle _ hp =>
      rw [hquiet hp]
      exact hr
    | passed n _ hp hn =>
      have hc := hquiet hp
      rw [hc] at hp hn ⊢
      exact passed_tracked hr hp (hn ▸ (findSafeSplitPoint_le _ _).2) _
    | withheld _ hp =>
      rw [hquiet hp]
      exact ⟨hr.running, hr.output, hr.buffer, hr.passing, hr.pending⟩
  | flushed => exact absurd he (by simp [ReadOrTick])
  | resized => exact absurd he (by simp [ReadOrTick])
  | input => exact absurd he (by simp [ReadOrTick])
  | left => exact ⟨h.running, h.output, h.buffer, h.passing, h.pending⟩

end Tracked

theorem session_fromStart (cfg : Config σ τ ε) {es : List (Event ε)}
    (hes : ∀ e ∈ es, ReadOrTick e) : FromStart cfg.vt (session cfg es).vtParser := by
  induction es using List.reverseRecOn with
  | nil => exact ⟨[], rfl⟩
  | append_singleton es e ih =>
    rw [session_snoc]
    exact step_fromStart (ih fun f hf => hes f (by simp [hf])) e (hes e (by simp))

theorem session_tracked (hvt : SwitchFree cfg.vt) {es : List (Event ε)}
    (hes : ∀ e ∈ es, ReadOrTick e) {stream : Bytes} (hout : (session cfg es).ptyOutput <+: stream)
    (h : Along (step cfg) (fun s e => Discards cfg s e → DiscardSafe stream s)
      (Session.start cfg) es) : Tracked stream (session cfg es) := by
  induction es using List.reverseRecOn with
  | nil =>
    refine ⟨rfl, List.nil_prefix, List.suffix_rfl, fun _ => ?_, by simp [session, Session.start]⟩
    exact aligned_of_closed Code.closed_nil rfl (Code.closed_nil _)
  | append_singleton es e ih =>
    obtain ⟨hbefore, hsafe, -⟩ := along_append.1 h
    have hgrow := step_ptyOutput_grows cfg (session cfg es) e
    rw [session_snoc] at hout ⊢
    have hbefore' : ∀ f ∈ es, ReadOrTick f := fun f hf => hes f (by simp [hf])
    have hs := ih hbefore' (hgrow.trans hout) hbefore
    exact step_tracked hvt (session_fromStart cfg hbefore') hs e (hes e (by simp)) hout hsafe

/-- Whenever nothing is buffered and no refresh is due, the client has last been told to
switch the screen as the PTY has. -/
def ScreensAgree (cfg : Config σ τ ε) (es : List (Event ε)) : Prop :=
  ∀ pre, pre <+: es → (session cfg pre).ptyBuffer = [] →
    (session cfg pre).pendingAtomicRefresh = false →
      ∃ shown : List Bytes,
        (session cfg pre).sent.map (fun f => rendered cfg.gzip f.packet) = shown.map some ∧
        lastSwitch shown.flatten = lastSwitch (ptyChunks pre).flatten

theorem screens_agree (cfg : Config σ τ ε) (hgz : cfg.gzip.Inverts) (hvt : SwitchFree cfg.vt)
    (es : List (Event ε)) (hes : ∀ e ∈ es, ReadOrTick e)
    (h : Along (step cfg)
      (fun s e => Discards cfg s e → DiscardSafe (ptyChunks es).flatten s)
      (Session.start cfg) es) : ScreensAgree cfg es := by
  intro pre hpre hbuf hpend
  obtain ⟨post, rfl⟩ := hpre
  have hout : (session cfg pre).ptyOutput <+: (ptyChunks (pre ++ post)).flatten := by
    rw [← session_ptyOutput cfg (pre ++ post)]
    exact session_ptyOutput_grows cfg pre post
  have htr := session_tracked hvt (fun e he => hes e (by simp [he])) hout (along_append.1 h).1
  refine ⟨(session cfg pre).sent.map Sent.raw, session_rendered cfg hgz pre, ?_⟩
  have hstart : bufferStart (session cfg pre) = (session cfg pre).ptyOutput.length := by
    simp [bufferStart, hbuf]
  have hlast := htr.lastSwitch_eq
  rw [hstart, htr.take_output (Nat.le_refl _), List.take_length] at hlast
  rw [← session_ptyOutput cfg pre]
  exact hlast

/-! ### Runs that flood after or over a switch -/

/-- An emulator for output that prints nothing: its screen stays blank. -/
def blankScreen : Vt100 Unit where
  new := fun _ _ _ => ()
  process := fun _ _ => .ok ()
  size := fun _ => (24, 80)
  contentsFormatted := fun _ => some [0x1b, 0x5B, 0x6D, 0x1b, 0x5B, 0x48, 0x1b, 0x5B, 0x4A]
  cursorPosition := fun _ => (0, 0)
  hideCursor := fun _ => false
  cell := fun _ _ _ => none

def enterAlt : Bytes := Switch.bytes ⟨.m1049, true⟩

theorem lastSwitch_bells {bells : Bytes} (hb : ∀ b ∈ bells, b = 0x07) (stream : Bytes) :
    lastSwitch (stream ++ bells) = lastSwitch stream := by
  have hnone : lastSwitch bells = none :=
    lastSwitch_of_no_question fun h => absurd (hb _ h) (by decide)
  have hcut : ∀ s, ¬ altCode.Cut stream bells s := by
    intro s h
    obtain ⟨u, v, -, hv, -, hvb, huv⟩ := h
    obtain ⟨x, hx⟩ := List.exists_mem_of_ne_nil v hv
    have hbell : 0x07 ∈ altCode.word s := by
      rw [← huv, ← hb x (hvb.subset hx)]
      simp [hx]
    obtain ⟨m, e⟩ := s
    cases m <;> cases e <;> revert hbell <;> decide
  unfold lastSwitch at hnone ⊢
  rw [Code.lastWord_append hcut, hnone, Option.none_or]

/-- A flood over an idle session is the only discard, and it takes exactly the flood. -/
theorem flood_discardSafe (cfg : Config σ τ ε) (h : Idle s) {chunks : List Bytes}
    (hc : ∀ chunk ∈ chunks, chunk ≠ [])
    (hlast : lastSwitch (s.ptyOutput ++ chunks.flatten) = lastSwitch s.ptyOutput) (elapsed : ε) :
    Along (step cfg)
      (fun r e => Discards cfg r e → DiscardSafe (s.ptyOutput ++ chunks.flatten) r) s
      (flood chunks elapsed) := by
  refine along_append.2 ⟨along_of_forall fun r e he hd => ?_, ?_, trivial⟩
  · obtain ⟨chunk, -, rfl⟩ := List.mem_map.1 he
    exact hd.elim
  · intro _
    rw [run_reads cfg chunks hc h.isOpen]
    refine ⟨?_, fun b hb => ?_⟩
    · simp [bufferStart, h.empty, hlast]
    · obtain ⟨u, v, -, hv, -, hvb, -⟩ := hb
      rw [List.drop_length, List.prefix_nil] at hvb
      exact hv hvb

def floodAfterSwitch : List (Event ℚ) :=
  [.ptyRead enterAlt, .tick 0 true] ++ flood (fullReads 0x07 5) 0

def blankServer : Config Unit ℚ ℚ := rationalServer blankScreen .failing "k" 6

theorem screens_agree_flood_after_switch :
    SwitchFree blankScreen ∧ ScreensAgree blankServer floodAfterSwitch := by
  have hzero : (0 : UInt16) ≠ 65535 := by decide
  have hvt : SwitchFree blankScreen := fun _ => ⟨⟨_, rfl, by decide⟩, hzero, hzero⟩
  have hc := fullReads_ne_nil 0x07 5
  have hchunks : (ptyChunks floodAfterSwitch).flatten = enterAlt ++ (fullReads 0x07 5).flatten := by
    have hflood : ptyChunks (flood (fullReads 0x07 5) (0 : ℚ)) = fullReads 0x07 5 := by
      simpa [ptyChunks] using ptyChunks_flood _ hc (0 : ℚ) []
    exact congrArg (enterAlt ++ ·) (congrArg List.flatten hflood)
  have hidle : Idle (run (step blankServer) (Session.start blankServer)
      [.ptyRead enterAlt, .tick 0 true]) :=
    (line_sent blankServer (s := Session.start blankServer) ⟨rfl, rfl, rfl, rfl⟩ (by decide)
      (by decide) (by decide +kernel) (by decide +kernel)).1
  have hout : (run (step blankServer) (Session.start blankServer)
      [.ptyRead enterAlt, .tick 0 true]).ptyOutput = enterAlt :=
    session_ptyOutput blankServer [.ptyRead enterAlt, .tick 0 true]
  have hlast : lastSwitch (enterAlt ++ (fullReads 0x07 5).flatten) = lastSwitch enterAlt :=
    lastSwitch_bells (fun b hb => fullReads_mem hb) enterAlt
  refine ⟨hvt, screens_agree blankServer Gzip.failing_inverts hvt floodAfterSwitch ?_ ?_⟩
  · intro e he
    simp only [floodAfterSwitch, List.mem_append, List.mem_cons, List.not_mem_nil,
      or_false] at he
    rcases he with (rfl | rfl) | he
    · trivial
    · rfl
    · exact flood_readOrTick _ _ e he
  · rw [hchunks]
    refine along_append.2 ⟨⟨fun hd => hd.elim, fun hd => ?_, trivial⟩, ?_⟩
    · obtain ⟨-, hcap | hpend⟩ := hd
      · exact absurd hcap (by decide)
      · exact absurd hpend.1 (by decide)
    · have hrest := flood_discardSafe blankServer hidle hc (by rw [hout]; exact hlast) 0
      rwa [hout] at hrest

/-- A switch that comes in a flood is discarded with it. -/
theorem flood_loses_switch {vt : Vt100 σ} {gz : Gzip} (hgz : gz.Inverts) (hvt : SwitchFree vt)
    {chunks : List Bytes} (hc : ∀ chunk ∈ chunks, chunk ≠ [])
    (hcap : maxPtyBufferCap < chunks.flatten.length) {b : Switch}
    (hb : b.bytes <:+: chunks.flatten) :
    ¬ ScreensAgree (rationalServer vt gz "k" 6) (flood chunks 0) := by
  intro h
  have hfrom : FromStart vt (chunks.foldl vt.processSafely (vt.new 24 80 1000)) := ⟨chunks, rfl⟩
  obtain ⟨frame, hframe⟩ := hvt.renders hfrom
  have hpaid : (rationalTokens 6).exhausted
      ((rationalTokens 6).refill (rationalTokens 6).burstCapacity 0) = false := by decide +kernel
  obtain ⟨hidle, -, hout, hsent⟩ := flood_idle (rationalServer vt gz "k" 6) 0
    (s := Session.start (rationalServer vt gz "k" 6)) hc hcap rfl rfl hpaid hframe
  obtain ⟨shown, hshown, hlast⟩ := h (flood chunks 0) List.prefix_rfl hidle.empty hidle.noRefresh
  rw [session_rendered (rationalServer vt gz "k" 6) hgz] at hshown
  have hraw : shown = [frame] := by
    rw [← List.map_injective_iff.2 (Option.some_injective _) hshown, session, hsent]
    simp [Session.start]
  have hnone : lastSwitch frame = none := (refresh_neutral hvt hfrom hframe []).1
  rw [hraw, List.flatten_singleton, hnone, ← session_ptyOutput (rationalServer vt gz "k" 6),
    session, hout] at hlast
  refine Code.lastWord_eq_none.1 hlast.symm b ?_
  exact hb.trans (List.suffix_append _ _).isInfix

def floodOverSwitch : List (Event ℚ) := flood (enterAlt :: fullReads 0x07 5) 0

/-- Whatever the emulator and the compressor, the client never learns of the switch. -/
theorem switch_lost_in_flood :
    ¬ ∃ (σ : Type) (vt : Vt100 σ) (gz : Gzip), gz.Inverts ∧ SwitchFree vt ∧
      ScreensAgree (rationalServer vt gz "k" 6) floodOverSwitch := by
  intro h
  obtain ⟨σ, vt, gz, hgz, hvt, h⟩ := h
  have hc : ∀ chunk ∈ enterAlt :: fullReads 0x07 5, chunk ≠ [] := by
    intro chunk hchunk
    rw [List.mem_cons] at hchunk
    cases hchunk with
    | inl hchunk => simp [hchunk, enterAlt, Switch.bytes, Code.word]
    | inr hchunk => exact fullReads_ne_nil 0x07 5 chunk hchunk
  have hcap : maxPtyBufferCap < (enterAlt :: fullReads 0x07 5).flatten.length := by
    rw [List.flatten_cons, List.length_append, fullReads_length]
    decide
  refine flood_loses_switch hgz hvt hc hcap (b := ⟨.m1049, true⟩) ?_ h
  exact (List.prefix_append enterAlt _).isInfix

end MoshTcp.Server
