import MoshTcp.Server

/-! What one step of a session can do. Every invariant of the session is proved from
`step_transition` and `tick_ticked`, so no other proof unfolds the step function. -/

set_option autoImplicit false

namespace MoshTcp.Server
open ByteOrder Protocol Ansi

variable {σ τ ε : Type} {cfg : Config σ τ ε} {s : Session σ τ}

def clearPending (s : Session σ τ) : Session σ τ :=
  { s with ptyBuffer := [], pendingAtomicRefresh := false }

/-- The state a tick works on: tokens refilled, an overfull buffer discarded. -/
def checked (cfg : Config σ τ ε) (s : Session σ τ) (elapsed : ε) : Session σ τ :=
  discardOverflow (refillTokens cfg s elapsed)

/-- The six ways through a tick whose checked state is `r`. -/
inductive Ticked (cfg : Config σ τ ε) (r : Session σ τ) (sendOk : Bool) :
    Session σ τ → Prop where
  | exhausted (ht : cfg.arith.exhausted r.tokens = true) : Ticked cfg r sendOk (skipFrame r)
  | refreshed (frame : Bytes) (ht : cfg.arith.exhausted r.tokens = false)
      (hp : r.pendingAtomicRefresh = true)
      (hf : generateAtomicScreenFrame cfg.vt r.vtParser = some frame) :
      Ticked cfg r sendOk
        (transmit cfg (clearPending r) (.refresh r.ptyOutput.length) frame sendOk)
  | refreshFailed (ht : cfg.arith.exhausted r.tokens = false)
      (hp : r.pendingAtomicRefresh = true)
      (hf : generateAtomicScreenFrame cfg.vt r.vtParser = none) :
      Ticked cfg r sendOk (skipFrame (clearPending r))
  | idle (ht : cfg.arith.exhausted r.tokens = false) (hp : r.pendingAtomicRefresh = false)
      (hb : r.ptyBuffer = []) : Ticked cfg r sendOk r
  | passed (n : Nat) (ht : cfg.arith.exhausted r.tokens = false)
      (hp : r.pendingAtomicRefresh = false)
      (hn : n = findSafeSplitPoint r.ptyBuffer (cfg.arith.asUsize r.tokens)) (hpos : 0 < n) :
      Ticked cfg r sendOk
        (transmit cfg { r with ptyBuffer := r.ptyBuffer.drop n }
          (.passThrough (r.ptyOutput.length - r.ptyBuffer.length)) (r.ptyBuffer.take n) sendOk)
  | withheld (ht : cfg.arith.exhausted r.tokens = false)
      (hp : r.pendingAtomicRefresh = false) (hb : r.ptyBuffer ≠ [])
      (hn : findSafeSplitPoint r.ptyBuffer (cfg.arith.asUsize r.tokens) = 0) :
      Ticked cfg r sendOk (skipFrame r)

theorem tick_ticked (cfg : Config σ τ ε) (s : Session σ τ) (elapsed : ε) (sendOk : Bool) :
    Ticked cfg (checked cfg s elapsed) sendOk (tick cfg s elapsed sendOk) := by
  unfold tick checked
  generalize discardOverflow (refillTokens cfg s elapsed) = r
  unfold produce
  by_cases ht : cfg.arith.exhausted r.tokens = true
  · simp only [ht, if_true]
    exact .exhausted ht
  · have ht' : cfg.arith.exhausted r.tokens = false := by simpa using ht
    by_cases hp : r.pendingAtomicRefresh = true
    · cases hf : generateAtomicScreenFrame cfg.vt r.vtParser with
      | none =>
        simp only [ht', hp, hf, if_true, Bool.false_eq_true, if_false]
        exact .refreshFailed ht' hp hf
      | some frame =>
        simp only [ht', hp, hf, if_true, Bool.false_eq_true, if_false]
        exact .refreshed frame ht' hp hf
    · have hp' : r.pendingAtomicRefresh = false := by simpa using hp
      by_cases hb : r.ptyBuffer = []
      · simp only [ht', hp', hb, List.isEmpty_nil, if_true, Bool.false_eq_true, if_false]
        exact .idle ht' hp' hb
      · have hb' : r.ptyBuffer.isEmpty = false := by simpa using hb
        by_cases hn : 0 < findSafeSplitPoint r.ptyBuffer (cfg.arith.asUsize r.tokens)
        · rw [if_neg ht, if_neg hp, if_neg (by simp [hb']), if_pos hn]
          exact .passed _ ht' hp' rfl hn
        · simp only [ht', hp', hb', gt_iff_lt, hn, Bool.false_eq_true, if_false]
          exact .withheld ht' hp' hb (by omega)

def received (cfg : Config σ τ ε) (s : Session σ τ) (chunk : Bytes) : Session σ τ :=
  { s with
    ptyBytesIn := s.ptyBytesIn + chunk.length
    vtParser := cfg.vt.processSafely s.vtParser chunk
    ptyBuffer := s.ptyBuffer ++ chunk
    ptyOutput := s.ptyOutput ++ chunk
    fed := s.fed ++ chunk }

/-- A packet that replaces the emulator: a resize, or a handshake whose key is accepted. -/
def resizes (cfg : Config σ τ ε) : Packet → Option (UInt16 × UInt16)
  | .clientHandshake sessionKey rows cols =>
    if sessionKey ≠ "" ∧ sessionKey ≠ cfg.expectedKey then none else some (rows, cols)
  | .clientResize rows cols => some (rows, cols)
  | _ => none

/-- Every way a step can change the session. `still` also covers a step of a thread that
has ended; `input` and `left` are the packets that reach neither buffer nor emulator. -/
inductive Transition (cfg : Config σ τ ε) (s : Session σ τ) : Event ε → Session σ τ → Prop where
  | still (e : Event ε) : Transition cfg s e s
  | read (chunk : Bytes) (hc : chunk ≠ []) (ho : s.ptyClosed = false) :
      Transition cfg s (.ptyRead chunk) (received cfg s chunk)
  | closed : Transition cfg s (.ptyRead []) { s with ptyClosed := true }
  | ticked (elapsed : ε) (sendOk : Bool) (s' : Session σ τ) (hl : s.sendLoopEnded = false)
      (ht : Ticked cfg (checked cfg s elapsed) sendOk s') :
      Transition cfg s (.tick elapsed sendOk) s'
  | flushed (sendOk : Bool) (hc : s.ptyClosed = true) (hl : s.sendLoopEnded = false) :
      Transition cfg s (.closeFlush sendOk) (closeFlush cfg s sendOk)
  | resized (packet : Packet) (rows cols : UInt16) (hr : resizes cfg packet = some (rows, cols)) :
      Transition cfg s (.clientPacket packet) (resize cfg s rows cols)
  | input (data : Bytes) :
      Transition cfg s (.clientPacket (.clientInput data)) { s with ptyInput := s.ptyInput ++ data }
  | left (e : Event ε) : Transition cfg s e { s with packetLoopEnded := true }

theorem handlePacket_transition (packet : Packet) :
    Transition cfg s (.clientPacket packet) (handlePacket cfg s packet) := by
  cases packet with
  | clientHandshake sessionKey rows cols =>
    by_cases hk : sessionKey ≠ "" ∧ sessionKey ≠ cfg.expectedKey
    · simp only [handlePacket, if_pos hk]
      exact .left _
    · simp only [handlePacket, if_neg hk]
      exact .resized _ rows cols (by simp only [resizes, if_neg hk])
  | clientResize rows cols => exact .resized _ rows cols rfl
  | clientInput data => exact .input data
  | ping timestamp => exact .still _
  | pong timestamp => exact .still _
  | serverFrame seq data compressed => exact .still _

theorem step_transition (cfg : Config σ τ ε) (s : Session σ τ) (e : Event ε) :
    Transition cfg s e (step cfg s e) := by
  cases e with
  | ptyRead chunk =>
    by_cases ho : s.ptyClosed = true
    · simp only [step, ho, if_true]
      exact .still _
    · cases chunk with
      | nil =>
        simp only [step, ho, readPty, List.isEmpty_nil, if_true]
        exact .closed
      | cons b bs =>
        rw [step, if_neg ho, readPty, if_neg (by simp)]
        exact .read (b :: bs) (by simp) (by simpa using ho)
  | tick elapsed sendOk =>
    by_cases hl : s.sendLoopEnded = true
    · simp only [step, hl, if_true]
      exact .still _
    · simp only [step, hl]
      exact .ticked elapsed sendOk _ (by simpa using hl) (tick_ticked cfg s elapsed sendOk)
  | closeFlush sendOk =>
    by_cases hc : s.ptyClosed = true ∧ s.sendLoopEnded = false
    · simp only [step, hc, Bool.not_false, Bool.and_self, if_true]
      exact .flushed sendOk hc.1 hc.2
    · have hc' : (s.ptyClosed && !s.sendLoopEnded) = false := by simpa using hc
      simp only [step, hc', Bool.false_eq_true, if_false]
      exact .still _
  | clientPacket packet =>
    by_cases hl : s.packetLoopEnded = true
    · simp only [step, hl, if_true]
      exact .still _
    · simp only [step, hl]
      exact handlePacket_transition packet
  | clientEnd => exact .left _
  | sendTaskDone =>
    by_cases hl : s.sendLoopEnded = true
    · rw [step, if_pos hl]
      exact .left _
    · rw [step, if_neg hl]
      exact .still _

/-! The checked state differs from the one before the tick in its tokens and, after an
overflow, in the buffer, the drop counter and the pending flag. -/

section Checked
variable {elapsed : ε}

@[simp] theorem checked_ptyOutput : (checked cfg s elapsed).ptyOutput = s.ptyOutput := by
  simp only [checked, discardOverflow]
  split <;> rfl

@[simp] theorem checked_sent : (checked cfg s elapsed).sent = s.sent := by
  simp only [checked, discardOverflow]
  split <;> rfl

@[simp] theorem checked_seq : (checked cfg s elapsed).seq = s.seq := by
  simp only [checked, discardOverflow]
  split <;> rfl

@[simp] theorem checked_fed : (checked cfg s elapsed).fed = s.fed := by
  simp only [checked, discardOverflow]
  split <;> rfl

@[simp] theorem checked_vtParser : (checked cfg s elapsed).vtParser = s.vtParser := by
  simp only [checked, discardOverflow]
  split <;> rfl

@[simp] theorem checked_tokens :
    (checked cfg s elapsed).tokens = cfg.arith.refill s.tokens elapsed := by
  simp only [checked, discardOverflow]
  split <;> rfl

@[simp] theorem checked_ptyClosed : (checked cfg s elapsed).ptyClosed = s.ptyClosed := by
  simp only [checked, discardOverflow]
  split <;> rfl

@[simp] theorem checked_sendLoopEnded :
    (checked cfg s elapsed).sendLoopEnded = s.sendLoopEnded := by
  simp only [checked, discardOverflow]
  split <;> rfl

theorem checked_of_le (h : s.ptyBuffer.length ≤ maxPtyBufferCap) :
    checked cfg s elapsed = refillTokens cfg s elapsed := by
  simp [checked, discardOverflow, refillTokens, Nat.not_lt.mpr h]

theorem checked_of_gt (cfg : Config σ τ ε) (elapsed : ε)
    (h : maxPtyBufferCap < s.ptyBuffer.length) :
    (checked cfg s elapsed).ptyBuffer = [] ∧
      (checked cfg s elapsed).pendingAtomicRefresh = true := by
  simp [checked, discardOverflow, refillTokens, h]

/-- At its next tick with tokens the send loop takes the refresh branch. -/
def RefreshDue (s : Session σ τ) : Prop :=
  s.pendingAtomicRefresh = true ∨ maxPtyBufferCap < s.ptyBuffer.length

theorem checked_pending_iff (cfg : Config σ τ ε) (s : Session σ τ) (elapsed : ε) :
    (checked cfg s elapsed).pendingAtomicRefresh = true ↔ RefreshDue s := by
  by_cases h : maxPtyBufferCap < s.ptyBuffer.length
  · simp [RefreshDue, h, checked_of_gt cfg elapsed h]
  · simp [RefreshDue, h, checked_of_le (Nat.le_of_not_lt h), refillTokens]

theorem checked_of_not_due (h : ¬ RefreshDue s) :
    checked cfg s elapsed = refillTokens cfg s elapsed :=
  checked_of_le (Nat.le_of_not_lt fun hb => h (.inr hb))

end Checked

/-! A tick touches neither the reader's side nor the emulator. -/

section Transmit
variable {origin : Origin} {raw : Bytes} {sendOk : Bool}

@[simp] theorem transmit_ptyOutput :
    (transmit cfg s origin raw sendOk).ptyOutput = s.ptyOutput := by
  cases sendOk <;> rfl

@[simp] theorem transmit_ptyClosed :
    (transmit cfg s origin raw sendOk).ptyClosed = s.ptyClosed := by
  cases sendOk <;> rfl

@[simp] theorem transmit_ptyBuffer :
    (transmit cfg s origin raw sendOk).ptyBuffer = s.ptyBuffer := by
  cases sendOk <;> rfl

@[simp] theorem transmit_pendingAtomicRefresh :
    (transmit cfg s origin raw sendOk).pendingAtomicRefresh = s.pendingAtomicRefresh := by
  cases sendOk <;> rfl

@[simp] theorem transmit_vtParser :
    (transmit cfg s origin raw sendOk).vtParser = s.vtParser := by
  cases sendOk <;> rfl

@[simp] theorem transmit_fed : (transmit cfg s origin raw sendOk).fed = s.fed := by
  cases sendOk <;> rfl

end Transmit

theorem step_readerFrame (cfg : Config σ τ ε) (s : Session σ τ) {e : Event ε}
    (he : ∀ chunk, e ≠ .ptyRead chunk) :
    (step cfg s e).ptyOutput = s.ptyOutput ∧ (step cfg s e).ptyClosed = s.ptyClosed := by
  have hs := step_transition cfg s e
  generalize step cfg s e = s' at hs
  cases hs with
  | still => exact ⟨rfl, rfl⟩
  | read chunk => exact absurd rfl (he chunk)
  | closed => exact absurd rfl (he [])
  | ticked elapsed sendOk _ _ ht => cases ht <;> simp [skipFrame, clearPending]
  | flushed => simp only [closeFlush]; split <;> exact ⟨rfl, rfl⟩
  | resized => exact ⟨rfl, rfl⟩
  | input => exact ⟨rfl, rfl⟩
  | left => exact ⟨rfl, rfl⟩

theorem ptyChunks_cons {e : Event ε} (he : ∀ chunk, e ≠ .ptyRead chunk) (es : List (Event ε)) :
    ptyChunks (e :: es) = ptyChunks es := by
  cases e with
  | ptyRead chunk => exact absurd rfl (he chunk)
  | _ => simp [ptyChunks]

theorem run_ptyOutput (es : List (Event ε)) (s : Session σ τ) :
    (Runs.run (step cfg) s es).ptyOutput =
      s.ptyOutput ++ if s.ptyClosed then [] else (ptyChunks es).flatten := by
  induction es generalizing s with
  | nil => simp [ptyChunks]
  | cons e es ih =>
    rw [Runs.run_cons, ih]
    by_cases he : ∃ chunk, e = .ptyRead chunk
    · obtain ⟨chunk, rfl⟩ := he
      by_cases ho : s.ptyClosed = true
      · simp [step, ho]
      · cases chunk <;> simp [step, readPty, ho, ptyChunks]
    · have he' : ∀ chunk, e ≠ .ptyRead chunk := by simpa using he
      simp [step_readerFrame cfg s he', ptyChunks_cons he']

theorem session_ptyOutput (cfg : Config σ τ ε) (es : List (Event ε)) :
    (session cfg es).ptyOutput = (ptyChunks es).flatten := by
  simp [session, run_ptyOutput, Session.start]

/-- What a step sends: the frame, and the branch of the source that built it. -/
inductive Emission (cfg : Config σ τ ε) (s : Session σ τ) : Event ε → Sent → Prop where
  | refresh (elapsed : ε) (frame : Bytes) (hl : s.sendLoopEnded = false)
      (ht : cfg.arith.exhausted (cfg.arith.refill s.tokens elapsed) = false)
      (hp : RefreshDue s) (hf : generateAtomicScreenFrame cfg.vt s.vtParser = some frame) :
      Emission cfg s (.tick elapsed true)
        ⟨.refresh s.ptyOutput.length, frame, framePacket cfg (s.seq + 1) frame⟩
  | passThrough (elapsed : ε) (n : Nat) (hl : s.sendLoopEnded = false)
      (ht : cfg.arith.exhausted (cfg.arith.refill s.tokens elapsed) = false)
      (hp : ¬ RefreshDue s)
      (hn : n = findSafeSplitPoint s.ptyBuffer
        (cfg.arith.asUsize (cfg.arith.refill s.tokens elapsed))) (hpos : 0 < n) :
      Emission cfg s (.tick elapsed true)
        ⟨.passThrough (s.ptyOutput.length - s.ptyBuffer.length), s.ptyBuffer.take n,
          framePacket cfg (s.seq + 1) (s.ptyBuffer.take n)⟩
  | flush (hc : s.ptyClosed = true) (hl : s.sendLoopEnded = false) (hb : s.ptyBuffer ≠ []) :
      Emission cfg s (.closeFlush true)
        ⟨.flush (s.ptyOutput.length - s.ptyBuffer.length), s.ptyBuffer,
          framePacket cfg (s.seq + 1) s.ptyBuffer⟩

theorem ticked_sent {elapsed : ε} {sendOk : Bool} {s' : Session σ τ}
    (hl : s.sendLoopEnded = false) (ht : Ticked cfg (checked cfg s elapsed) sendOk s') :
    (s'.sent = s.sent ∧ s'.tokens = cfg.arith.refill s.tokens elapsed) ∨
      ∃ f, Emission cfg s (.tick elapsed sendOk) f ∧ s'.sent = s.sent ++ [f] ∧
        s'.tokens = cfg.arith.spend (cfg.arith.refill s.tokens elapsed) f.payload := by
  cases ht with
  | exhausted => exact .inl ⟨checked_sent, checked_tokens⟩
  | refreshFailed => exact .inl ⟨checked_sent, checked_tokens⟩
  | idle => exact .inl ⟨checked_sent, checked_tokens⟩
  | withheld => exact .inl ⟨checked_sent, checked_tokens⟩
  | refreshed frame ht hp hf =>
    cases sendOk with
    | false => exact .inl ⟨checked_sent, checked_tokens⟩
    | true =>
      rw [checked_tokens] at ht
      rw [checked_vtParser] at hf
      refine .inr ⟨_, .refresh elapsed frame hl ht ((checked_pending_iff cfg s elapsed).1 hp) hf,
        ?_, ?_⟩
      · simp [transmit, clearPending]
      · simp [transmit, clearPending, Sent.payload, framePacket]
  | passed n ht hp hn hpos =>
    have hdue : ¬ RefreshDue s := fun h => by
      simp [(checked_pending_iff cfg s elapsed).2 h] at hp
    cases sendOk with
    | false => exact .inl ⟨checked_sent, checked_tokens⟩
    | true =>
      rw [checked_tokens] at ht hn
      rw [checked_of_not_due hdue] at hn
      refine .inr ⟨_, .passThrough elapsed n hl ht hdue hn hpos, ?_, ?_⟩
      · simp [transmit, checked_of_not_due hdue, refillTokens]
      · simp [transmit, checked_of_not_due hdue, refillTokens, Sent.payload, framePacket]

theorem step_sent (cfg : Config σ τ ε) (s : Session σ τ) (e : Event ε) :
    (step cfg s e).sent = s.sent ∨
      ∃ f, Emission cfg s e f ∧ (step cfg s e).sent = s.sent ++ [f] := by
  have hs := step_transition cfg s e
  generalize step cfg s e = s' at hs
  cases hs with
  | ticked elapsed sendOk _ hl ht =>
    cases ticked_sent hl ht with
    | inl h => exact .inl h.1
    | inr h =>
      obtain ⟨f, hf, hs, -⟩ := h
      exact .inr ⟨f, hf, hs⟩
  | flushed sendOk hc hl =>
    by_cases hb : s.ptyBuffer = []
    · exact .inl (by simp [closeFlush, hb])
    · cases sendOk with
      | false => exact .inl (by simp [closeFlush, hb])
      | true => exact .inr ⟨_, .flush hc hl hb, by simp [closeFlush, hb]⟩
  | _ => exact .inl rfl

/-! A tick of a running send loop, with a refresh due and without. -/

section Tick
variable {elapsed : ε}

theorem step_tick (hl : s.sendLoopEnded = false) (sendOk : Bool) :
    step cfg s (.tick elapsed sendOk) = tick cfg s elapsed sendOk := by
  rw [step, if_neg (by simp [hl])]

theorem step_exhausted (hl : s.sendLoopEnded = false)
    (ht : cfg.arith.exhausted (cfg.arith.refill s.tokens elapsed) = true) (sendOk : Bool) :
    step cfg s (.tick elapsed sendOk) = skipFrame (checked cfg s elapsed) := by
  have hk := tick_ticked cfg s elapsed sendOk
  rw [step_tick hl]
  generalize tick cfg s elapsed sendOk = s' at hk
  cases hk <;> simp_all

theorem step_due (hl : s.sendLoopEnded = false)
    (ht : cfg.arith.exhausted (cfg.arith.refill s.tokens elapsed) = false) (hp : RefreshDue s)
    (sendOk : Bool) :
    (∃ frame, generateAtomicScreenFrame cfg.vt s.vtParser = some frame ∧
      step cfg s (.tick elapsed sendOk) = transmit cfg (clearPending (checked cfg s elapsed))
        (.refresh s.ptyOutput.length) frame sendOk) ∨
    (generateAtomicScreenFrame cfg.vt s.vtParser = none ∧
      step cfg s (.tick elapsed sendOk) = skipFrame (clearPending (checked cfg s elapsed))) := by
  have hpending := (checked_pending_iff cfg s elapsed).2 hp
  have hk := tick_ticked cfg s elapsed sendOk
  rw [step_tick hl]
  generalize tick cfg s elapsed sendOk = s' at hk
  cases hk with
  | exhausted ht' => simp [ht] at ht'
  | refreshed frame _ _ hf =>
    rw [checked_vtParser] at hf
    exact .inl ⟨frame, hf, by rw [checked_ptyOutput]⟩
  | refreshFailed _ _ hf =>
    rw [checked_vtParser] at hf
    exact .inr ⟨hf, rfl⟩
  | idle _ hp' => simp [hpending] at hp'
  | passed n _ hp' => simp [hpending] at hp'
  | withheld _ hp' => simp [hpending] at hp'

theorem step_not_due (hl : s.sendLoopEnded = false)
    (ht : cfg.arith.exhausted (cfg.arith.refill s.tokens elapsed) = false) (hp : ¬ RefreshDue s)
    {n : Nat} (hn : n = findSafeSplitPoint s.ptyBuffer
      (cfg.arith.asUsize (cfg.arith.refill s.tokens elapsed))) (sendOk : Bool) :
    (s.ptyBuffer = [] ∧ step cfg s (.tick elapsed sendOk) = refillTokens cfg s elapsed) ∨
    (0 < n ∧ step cfg s (.tick elapsed sendOk) =
      transmit cfg { refillTokens cfg s elapsed with ptyBuffer := s.ptyBuffer.drop n }
        (.passThrough (s.ptyOutput.length - s.ptyBuffer.length)) (s.ptyBuffer.take n) sendOk) ∨
    (s.ptyBuffer ≠ [] ∧ n = 0 ∧
      step cfg s (.tick elapsed sendOk) = skipFrame (refillTokens cfg s elapsed)) := by
  have hk := tick_ticked cfg s elapsed sendOk
  rw [step_tick hl]
  generalize tick cfg s elapsed sendOk = s' at hk
  rw [checked_of_not_due hp] at hk
  cases hk with
  | exhausted ht' => exact absurd ht' (by simp [refillTokens, ht])
  | refreshed frame _ hp' => exact absurd (.inl hp') hp
  | refreshFailed _ hp' => exact absurd (.inl hp') hp
  | idle _ _ hb => exact .inl ⟨hb, rfl⟩
  | passed m _ _ hm hpos =>
    obtain rfl : n = m := hn.trans hm.symm
    exact .inr (.inl ⟨hpos, rfl⟩)
  | withheld _ _ hb hz => exact .inr (.inr ⟨hb, hn.trans hz, rfl⟩)

theorem step_refresh {frame : Bytes} (hl : s.sendLoopEnded = false)
    (ht : cfg.arith.exhausted (cfg.arith.refill s.tokens elapsed) = false) (hp : RefreshDue s)
    (hf : generateAtomicScreenFrame cfg.vt s.vtParser = some frame) (sendOk : Bool) :
    step cfg s (.tick elapsed sendOk) = transmit cfg (clearPending (checked cfg s elapsed))
      (.refresh s.ptyOutput.length) frame sendOk := by
  rcases step_due hl ht hp sendOk with ⟨frame', hf', h⟩ | ⟨hf', -⟩
  · obtain rfl : frame = frame' := by simpa [hf] using hf'
    exact h
  · simp [hf] at hf'

theorem step_refreshFailed (hl : s.sendLoopEnded = false)
    (ht : cfg.arith.exhausted (cfg.arith.refill s.tokens elapsed) = false) (hp : RefreshDue s)
    (hf : generateAtomicScreenFrame cfg.vt s.vtParser = none) (sendOk : Bool) :
    step cfg s (.tick elapsed sendOk) = skipFrame (clearPending (checked cfg s elapsed)) := by
  rcases step_due hl ht hp sendOk with ⟨frame, hf', -⟩ | ⟨-, h⟩
  · simp [hf] at hf'
  · exact h

theorem step_withheld (hl : s.sendLoopEnded = false)
    (ht : cfg.arith.exhausted (cfg.arith.refill s.tokens elapsed) = false) (hp : ¬ RefreshDue s)
    (hb : s.ptyBuffer ≠ []) (hn : findSafeSplitPoint s.ptyBuffer
      (cfg.arith.asUsize (cfg.arith.refill s.tokens elapsed)) = 0) (sendOk : Bool) :
    step cfg s (.tick elapsed sendOk) = skipFrame (refillTokens cfg s elapsed) := by
  rcases step_not_due hl ht hp hn.symm sendOk with ⟨hb', -⟩ | ⟨hpos, -⟩ | ⟨-, -, h⟩
  · exact absurd hb' hb
  · exact absurd hpos (Nat.lt_irrefl 0)
  · exact h

theorem step_passThrough {n : Nat} (hl : s.sendLoopEnded = false)
    (ht : cfg.arith.exhausted (cfg.arith.refill s.tokens elapsed) = false) (hp : ¬ RefreshDue s)
    (hn : n = findSafeSplitPoint s.ptyBuffer
      (cfg.arith.asUsize (cfg.arith.refill s.tokens elapsed))) (hpos : 0 < n) (sendOk : Bool) :
    step cfg s (.tick elapsed sendOk) =
      transmit cfg { refillTokens cfg s elapsed with ptyBuffer := s.ptyBuffer.drop n }
        (.passThrough (s.ptyOutput.length - s.ptyBuffer.length)) (s.ptyBuffer.take n) sendOk := by
  rcases step_not_due hl ht hp hn sendOk with ⟨hb, -⟩ | ⟨-, h⟩ | ⟨-, hz, -⟩
  · rw [hb, findSafeSplitPoint_nil] at hn
    omega
  · exact h
  · omega

end Tick

theorem emission_sent {e : Event ε} {f : Sent} (h : Emission cfg s e f) :
    (step cfg s e).sent = s.sent ++ [f] := by
  cases h with
  | refresh elapsed frame hl ht hp hf =>
    simp [step_refresh hl ht hp hf, transmit, clearPending]
  | passThrough elapsed n hl ht hp hn hpos =>
    simp [step_passThrough hl ht hp hn hpos, transmit, refillTokens]
  | flush hc hl hb => simp [step, hc, hl, closeFlush, hb]

theorem mem_step_sent {e : Event ε} {f : Sent} :
    f ∈ (step cfg s e).sent ↔ f ∈ s.sent ∨ Emission cfg s e f := by
  constructor
  · intro hf
    cases step_sent cfg s e with
    | inl h => exact .inl (h ▸ hf)
    | inr h =>
      obtain ⟨g, hg, hs⟩ := h
      rw [hs, List.mem_append, List.mem_singleton] at hf
      cases hf with
      | inl hf => exact .inl hf
      | inr hf => exact .inr (hf ▸ hg)
  · intro h
    cases h with
    | inl hf =>
      cases step_sent cfg s e with
      | inl h => rw [h]; exact hf
      | inr h =>
        obtain ⟨g, -, hs⟩ := h
        simp [hs, hf]
    | inr h => simp [emission_sent h]

/-- A property of all frames of a run is a property of what each step sends. -/
theorem forall_sent_iff (cfg : Config σ τ ε) (Q : Sent → Prop) (es : List (Event ε)) :
    (∀ f ∈ (session cfg es).sent, Q f) ↔
      Runs.Along (step cfg) (fun s e => ∀ f, Emission cfg s e f → Q f) (Session.start cfg) es := by
  induction es using List.reverseRecOn with
  | nil => simp [session, Session.start, Runs.Along]
  | append_singleton es e ih =>
    rw [session_snoc, Runs.along_append, ← ih]
    simp only [mem_step_sent, Runs.Along, and_true]
    constructor
    · intro h
      exact ⟨fun f hf => h f (.inl hf), fun f hf => h f (.inr hf)⟩
    · rintro ⟨h, he⟩ f (hf | hf)
      · exact h f hf
      · exact he f hf

theorem step_read {chunk : Bytes} (hc : chunk ≠ []) (ho : s.ptyClosed = false) :
    step cfg s (.ptyRead chunk) = received cfg s chunk := by
  simp [step, ho, readPty, hc, received]

theorem run_reads (cfg : Config σ τ ε) (chunks : List Bytes)
    (hc : ∀ chunk ∈ chunks, chunk ≠ []) (ho : s.ptyClosed = false) :
    Runs.run (step cfg) s (chunks.map .ptyRead) = { s with
      ptyBytesIn := s.ptyBytesIn + chunks.flatten.length
      vtParser := chunks.foldl cfg.vt.processSafely s.vtParser
      ptyBuffer := s.ptyBuffer ++ chunks.flatten
      ptyOutput := s.ptyOutput ++ chunks.flatten
      fed := s.fed ++ chunks.flatten } := by
  induction chunks generalizing s with
  | nil => simp
  | cons chunk chunks ih =>
    rw [List.map_cons, Runs.run_cons, step_read (hc chunk (by simp)) ho,
      ih (fun c h => hc c (by simp [h])) (by simpa [received] using ho)]
    simp [received, Nat.add_assoc]

/-- What `n` reads return that each fill the reader's 4096-byte buffer. -/
def fullReads (b : UInt8) (n : Nat) : List Bytes := List.replicate n (List.replicate 4096 b)

theorem fullReads_ne_nil (b : UInt8) (n : Nat) : ∀ chunk ∈ fullReads b n, chunk ≠ [] := by
  intro chunk h
  rw [List.eq_of_mem_replicate h, ne_eq, ← List.length_eq_zero_iff, List.length_replicate]
  decide

theorem fullReads_length (b : UInt8) (n : Nat) : (fullReads b n).flatten.length = n * 4096 := by
  induction n with
  | zero => rfl
  | succ n ih =>
    rw [fullReads, List.replicate_succ, List.flatten_cons, List.length_append,
      List.length_replicate, ← fullReads, ih]
    omega

end MoshTcp.Server
