import MoshTcp.ServerResume

/-! A refresh that fails. The refresh branch clears the buffer and the flag before it draws
the screen, and the arm of the caught panic restores neither: the bytes that the refresh
stood for are owed to nobody any more. -/

set_option autoImplicit false

namespace MoshTcp.Server
open ByteOrder Protocol Ansi Runs

variable {σ τ ε : Type} {cfg : Config σ τ ε} {s : Session σ τ}

/-- The tick takes the refresh branch and `generate_atomic_screen_frame` panics. -/
def FailsRefresh (cfg : Config σ τ ε) (s : Session σ τ) (elapsed : ε) : Prop :=
  BuildsRefresh cfg s elapsed ∧ generateAtomicScreenFrame cfg.vt s.vtParser = none

/-- Every byte not yet delivered is in the buffer or owed through a pending refresh. -/
def StillOwed (s : Session σ τ) : Prop :=
  ∀ i < s.ptyOutput.length, ¬ Shown s.sent i →
    bufferStart s ≤ i ∨ s.pendingAtomicRefresh = true

/-- Nothing in the buffer has been delivered, and while a refresh is pending something in
front of the buffer has not. -/
structure Undelivered (s : Session σ τ) : Prop where
  buffered : s.ptyBuffer.length ≤ s.ptyOutput.length
  shown : ∀ i, Shown s.sent i → i < bufferStart s
  pending : s.pendingAtomicRefresh = true → ∃ i < bufferStart s, ¬ Shown s.sent i

theorem received_undelivered (h : Undelivered s) (chunk : Bytes) :
    Undelivered (received cfg s chunk) := by
  refine ⟨?_, ?_, ?_⟩
  · simp only [received, List.length_append]
    exact Nat.add_le_add_right h.buffered _
  · rw [bufferStart_received]
    exact h.shown
  · rw [bufferStart_received]
    exact h.pending

theorem checked_undelivered (cfg : Config σ τ ε) (h : Undelivered s) (elapsed : ε) :
    Undelivered (checked cfg s elapsed) := by
  by_cases hb : s.ptyBuffer.length ≤ maxPtyBufferCap
  · rw [checked_of_le hb]
    exact ⟨h.buffered, h.shown, h.pending⟩
  · have hle := h.buffered
    obtain ⟨hbuf, -⟩ := checked_of_gt cfg elapsed (Nat.lt_of_not_le hb)
    have hstart := bufferStart_overflowed cfg elapsed (Nat.lt_of_not_le hb)
    have hold : bufferStart s < s.ptyOutput.length := by
      unfold bufferStart
      omega
    refine ⟨by simp [hbuf], ?_, fun _ => ⟨bufferStart s, by rwa [hstart], ?_⟩⟩
    · intro i hi
      rw [checked_sent] at hi
      exact hstart ▸ (h.shown i hi).trans hold
    · rw [checked_sent]
      exact fun hi => Nat.lt_irrefl _ (h.shown _ hi)

theorem refreshed_undelivered {r : Session σ τ} (h : Undelivered r) (frame : Bytes)
    (sendOk : Bool) :
    Undelivered (transmit cfg (clearPending r) (.refresh r.ptyOutput.length) frame sendOk) := by
  refine ⟨by simp [clearPending], ?_, by simp [clearPending]⟩
  rw [bufferStart_cleared]
  intro i hi
  cases sendOk with
  | false => exact (h.shown i hi).trans_le (Nat.sub_le _ _)
  | true =>
    rcases shown_snoc_iff.1 hi with hi | ⟨a, b, hr, -⟩ | ⟨n, hn, hi⟩
    · exact (h.shown i hi).trans_le (Nat.sub_le _ _)
    · simp [Sent.range] at hr
    · obtain rfl : r.ptyOutput.length = n := by simpa using hn
      exact hi

theorem failed_undelivered {r : Session σ τ} (h : Undelivered r) :
    Undelivered (skipFrame (clearPending r)) where
  buffered := Nat.zero_le _
  shown := fun i hi => (h.shown i hi).trans_le (Nat.sub_le _ _)
  pending := by simp [skipFrame, clearPending]

theorem passed_undelivered {r : Session σ τ} (h : Undelivered r)
    (hp : r.pendingAtomicRefresh = false) {n : Nat} (hn : n ≤ r.ptyBuffer.length)
    (sendOk : Bool) :
    Undelivered (transmit cfg { r with ptyBuffer := r.ptyBuffer.drop n }
      (.passThrough (bufferStart r)) (r.ptyBuffer.take n) sendOk) := by
  refine ⟨?_, ?_, by simp [hp]⟩
  · simp only [transmit_ptyOutput, transmit_ptyBuffer, List.length_drop]
    exact (Nat.sub_le _ _).trans h.buffered
  · rw [bufferStart_passed _ _ _ _ h.buffered hn]
    intro i hi
    cases sendOk with
    | false => exact (h.shown i hi).trans_le (Nat.le_add_right _ _)
    | true =>
      rcases shown_snoc_iff.1 hi with hi | ⟨a, b, hr, -, hi⟩ | ⟨m, hm, -⟩
      · exact (h.shown i hi).trans_le (Nat.le_add_right _ _)
      · simp only [Sent.range, List.length_take, Option.some.injEq, Prod.mk.injEq] at hr
        omega
      · simp at hm

theorem flushed_undelivered (h : Undelivered s) (sendOk : Bool) :
    Undelivered (closeFlush cfg s sendOk) := by
  have hle := h.buffered
  by_cases hb : s.ptyBuffer = []
  · rw [closeFlush, if_pos (by simp [hb])]
    exact ⟨h.buffered, h.shown, h.pending⟩
  · have hstart : bufferStart (closeFlush cfg s sendOk) = s.ptyOutput.length := by
      simp [closeFlush, hb, bufferStart_of_empty]
    -- the flush carries the positions of the buffer and no others
    have hshown : ∀ i, Shown (closeFlush cfg s sendOk).sent i → Shown s.sent i ∨
        (bufferStart s ≤ i ∧ i < s.ptyOutput.length) := by
      intro i hi
      cases sendOk with
      | false => exact .inl (by simpa [closeFlush, hb] using hi)
      | true =>
        simp only [closeFlush, List.isEmpty_iff, hb, if_false, if_true] at hi
        rcases shown_snoc_iff.1 hi with hi | ⟨a, b, hr, ha, hi⟩ | ⟨m, hm, -⟩
        · exact .inl hi
        · simp only [Sent.range, Option.some.injEq, Prod.mk.injEq] at hr
          unfold bufferStart
          omega
        · simp at hm
    refine ⟨by simp [closeFlush, hb], ?_, ?_⟩
    · rw [hstart]
      intro i hi
      cases hshown i hi with
      | inl hi => exact (h.shown i hi).trans_le (Nat.sub_le _ _)
      | inr hi => exact hi.2
    · intro hp
      obtain ⟨i, hi, hn⟩ := h.pending (by simpa [closeFlush, hb] using hp)
      refine ⟨i, hstart ▸ hi.trans_le (Nat.sub_le _ _), fun hi' => ?_⟩
      cases hshown i hi' with
      | inl hi' => exact hn hi'
      | inr hi' => omega

theorem step_undelivered (h : Undelivered s) (e : Event ε) : Undelivered (step cfg s e) := by
  have hs := step_transition cfg s e
  generalize step cfg s e = s' at hs
  cases hs with
  | still => exact h
  | read chunk => exact received_undelivered h chunk
  | closed => exact ⟨h.buffered, h.shown, h.pending⟩
  | ticked elapsed sendOk _ _ ht =>
    have hr := checked_undelivered cfg h elapsed
    cases ht with
    | exhausted => exact ⟨hr.buffered, hr.shown, hr.pending⟩
    | refreshed frame => exact refreshed_undelivered hr frame sendOk
    | refreshFailed => exact failed_undelivered hr
    | idle => exact hr
    | passed n _ hp hn =>
      exact passed_undelivered hr hp (hn ▸ (findSafeSplitPoint_le _ _).2) sendOk
    | withheld => exact ⟨hr.buffered, hr.shown, hr.pending⟩
  | flushed sendOk => exact flushed_undelivered h sendOk
  | resized => exact ⟨h.buffered, h.shown, h.pending⟩
  | input => exact ⟨h.buffered, h.shown, h.pending⟩
  | left => exact ⟨h.buffered, h.shown, h.pending⟩

theorem session_undelivered (cfg : Config σ τ ε) (es : List (Event ε)) :
    Undelivered (session cfg es) :=
  run_preserves (I := Undelivered) (s := Session.start cfg)
    ⟨Nat.le_refl 0, by simp [Shown, Session.start], by simp [Session.start]⟩
    (fun _ e h => step_undelivered h e) es

theorem step_failsRefresh {elapsed : ε} (h : FailsRefresh cfg s elapsed) (sendOk : Bool) :
    step cfg s (.tick elapsed sendOk) = skipFrame (clearPending (checked cfg s elapsed)) := by
  obtain ⟨⟨hl, ht, hdue⟩, hf⟩ := h
  exact step_refreshFailed hl ht hdue hf sendOk

theorem failed_not_pending {elapsed : ε} (h : FailsRefresh cfg s elapsed) (sendOk : Bool) :
    (step cfg s (.tick elapsed sendOk)).pendingAtomicRefresh = false := by
  rw [step_failsRefresh h]
  rfl

/-- Nothing to send and nothing owed. -/
structure Silent (s : Session σ τ) : Prop where
  empty : s.ptyBuffer = []
  noRefresh : s.pendingAtomicRefresh = false

theorem tick_silent (cfg : Config σ τ ε) (h : Silent s) (elapsed : ε) (sendOk : Bool) :
    Silent (step cfg s (.tick elapsed sendOk)) ∧
      (step cfg s (.tick elapsed sendOk)).sent = s.sent := by
  have hdue : ¬ RefreshDue s := by
    rintro (hp | hcap)
    · simp [h.noRefresh] at hp
    · simp [h.empty] at hcap
  cases hl : s.sendLoopEnded with
  | true => simp [step, hl, h]
  | false =>
    cases ht : cfg.arith.exhausted (cfg.arith.refill s.tokens elapsed) with
    | true =>
      rw [step_exhausted hl ht, checked_of_not_due hdue]
      exact ⟨⟨h.empty, h.noRefresh⟩, rfl⟩
    | false =>
      have hzero : findSafeSplitPoint s.ptyBuffer
          (cfg.arith.asUsize (cfg.arith.refill s.tokens elapsed)) = 0 := by
        rw [h.empty, findSafeSplitPoint_nil]
      rcases step_not_due hl ht hdue hzero.symm sendOk with ⟨-, hs⟩ | ⟨hpos, -⟩ | ⟨hb, -⟩
      · rw [hs]
        exact ⟨⟨h.empty, h.noRefresh⟩, rfl⟩
      · exact absurd hpos (Nat.lt_irrefl 0)
      · exact absurd h.empty hb

theorem ticks_silent {s : Session σ τ} (h : Silent s) {ticks : List (Event ε)}
    (ht : ∀ e ∈ ticks, ∃ elapsed sendOk, e = .tick elapsed sendOk) :
    (run (step cfg) s ticks).sent = s.sent := by
  induction ticks generalizing s with
  | nil => rfl
  | cons e ticks ih =>
    obtain ⟨elapsed, sendOk, rfl⟩ := ht e (by simp)
    obtain ⟨hs, hsent⟩ := tick_silent cfg h elapsed sendOk
    rw [run_cons, ih hs fun f hf => ht f (by simp [hf]), hsent]

/-- A failed refresh is forgotten: the flag is down, bytes that no frame has carried are
neither buffered nor owed, and no later tick sends anything for them. -/
theorem failed_refresh_never_retried (cfg : Config σ τ ε) (es : List (Event ε)) (elapsed : ε)
    (sendOk : Bool) (h : FailsRefresh cfg (session cfg es) elapsed) :
    (session cfg (es ++ [.tick elapsed sendOk])).pendingAtomicRefresh = false ∧
      ¬ StillOwed (session cfg (es ++ [.tick elapsed sendOk])) ∧
      ∀ ticks : List (Event ε), (∀ e ∈ ticks, ∃ elapsed sendOk, e = .tick elapsed sendOk) →
        (session cfg (es ++ .tick elapsed sendOk :: ticks)).sent = (session cfg es).sent := by
  have hu := checked_undelivered cfg (session_undelivered cfg es) elapsed
  have hstep := step_failsRefresh h sendOk
  rw [session_snoc]
  refine ⟨failed_not_pending h sendOk, ?_, ?_⟩
  · rw [hstep]
    intro howed
    obtain ⟨i, hi, hn⟩ := hu.pending ((checked_pending_iff cfg _ elapsed).2 h.1.2.2)
    have hlen : i < (checked cfg (session cfg es) elapsed).ptyOutput.length :=
      hi.trans_le (Nat.sub_le _ _)
    cases howed i hlen hn with
    | inl hstart => exact Nat.not_le.2 hlen hstart
    | inr hp => simp [skipFrame, clearPending] at hp
  · intro ticks ht
    rw [session_append, run_cons, hstep, ticks_silent ⟨rfl, rfl⟩ ht]
    exact checked_sent

/-! ### A row of 65535 columns -/

/-- vt100 on letters that fit the screen: each takes the next column, and behind the last
column the cursor waits until another letter wraps it. -/
def letterScreen : Vt100 (UInt16 × UInt16 × Bytes) :=
  { recorder with
    contentsFormatted := fun (_, _, letters) =>
      some ([0x1b, 0x5B, 0x3F, 0x32, 0x35, 0x68, 0x1b, 0x5B, 0x6D, 0x1b, 0x5B, 0x48,
        0x1b, 0x5B, 0x4A] ++ letters)
    cursorPosition := fun (_, cols, letters) =>
      if letters = [] then (0, 0)
      else (UInt16.ofNat ((letters.length - 1) / cols.toNat),
        UInt16.ofNat ((letters.length - 1) % cols.toNat + 1))
    cell := fun (rows, cols, letters) row col =>
      if row < rows ∧ col < cols then
        some (String.ofList (letters[row.toNat * cols.toNat + col.toNat]?.toList.map
          fun b => Char.ofNat b.toNat))
      else none }

theorem letterScreen_foldl (chunks : List Bytes) (rows cols : UInt16) (letters : Bytes) :
    chunks.foldl letterScreen.processSafely (rows, cols, letters) =
      (rows, cols, letters ++ chunks.flatten) :=
  recorder_foldl chunks rows cols letters

theorem letterScreen_cursor {cols : UInt16} {letters : Bytes} (hc : 0 < cols.toNat)
    (hl : letters.length = cols.toNat) (rows : UInt16) :
    letterScreen.cursorPosition (rows, cols, letters) = (0, cols) := by
  have hne : letters ≠ [] := List.length_pos_iff.1 (hl ▸ hc)
  have hlt : cols.toNat - 1 < cols.toNat := Nat.sub_lt hc Nat.one_pos
  simp only [letterScreen, hne, if_false, hl]
  rw [Nat.div_eq_of_lt hlt, Nat.mod_eq_of_lt hlt, Nat.sub_add_cancel hc, UInt16.ofNat_toNat]
  rfl

/-- With 65535 columns the `col + 1` behind a full row overflows. -/
theorem letterScreen_panics {letters : Bytes} (hl : letters.length = 65535) (rows : UInt16) :
    generateAtomicScreenFrame letterScreen (rows, 65535, letters) = none := by
  have hcursor : letterScreen.cursorPosition (rows, 65535, letters) = (0, 65535) :=
    letterScreen_cursor (by decide) hl rows
  have hcol : checkedSucc 65535 = none := rfl
  simp [generateAtomicScreenFrame, hcursor, hcol]

def wideServer : Config (UInt16 × UInt16 × Bytes) ℚ ℚ := rationalServer letterScreen .failing "k" 6

/-- The client opens a very wide window and the PTY fills its first row. -/
def fullRow (chunks : List Bytes) : List (Event ℚ) :=
  .clientPacket (.clientResize 24 65535) :: chunks.map .ptyRead

theorem fullRow_fails {chunks : List Bytes} (hc : ∀ chunk ∈ chunks, chunk ≠ [])
    (hlen : chunks.flatten.length = 65535) :
    FailsRefresh wideServer (session wideServer (fullRow chunks)) (1 / 50) := by
  have hpaid : (rationalTokens 6).exhausted
      ((rationalTokens 6).refill (rationalTokens 6).burstCapacity (1 / 50)) = false := by
    decide +kernel
  rw [session, fullRow, run_cons, run_reads wideServer chunks hc rfl]
  refine ⟨⟨rfl, hpaid, .inr ?_⟩, ?_⟩
  · rw [List.length_append, hlen]
    exact Nat.lt_add_left _ (by decide)
  · have hparser : chunks.foldl letterScreen.processSafely (24, 65535, []) =
        (24, 65535, chunks.flatten) := letterScreen_foldl chunks 24 65535 []
    change generateAtomicScreenFrame letterScreen
      (chunks.foldl letterScreen.processSafely (24, 65535, [])) = none
    rw [hparser]
    exact letterScreen_panics hlen 24

/-- 65535 letters, as the reader's 4096-byte buffer cuts them. -/
def rowOfLetters : List Bytes := fullReads 0x61 15 ++ [List.replicate 4095 0x61]

theorem rowOfLetters_ne_nil : ∀ chunk ∈ rowOfLetters, chunk ≠ [] := by
  intro chunk hchunk
  rw [rowOfLetters, List.mem_append, List.mem_singleton] at hchunk
  cases hchunk with
  | inl hchunk => exact fullReads_ne_nil 0x61 15 chunk hchunk
  | inr hchunk =>
    rw [hchunk, ne_eq, ← List.length_eq_zero_iff, List.length_replicate]
    decide

theorem rowOfLetters_length : rowOfLetters.flatten.length = 65535 := by
  rw [rowOfLetters, List.flatten_append, List.length_append, fullReads_length,
    List.flatten_cons, List.flatten_nil, List.append_nil, List.length_replicate]

theorem failed_refresh_never_retried_full_row :
    FailsRefresh wideServer (session wideServer (fullRow rowOfLetters)) (1 / 50) ∧
      ¬ StillOwed (session wideServer (fullRow rowOfLetters ++ [.tick (1 / 50) true])) :=
  have hfails := fullRow_fails rowOfLetters_ne_nil rowOfLetters_length
  have hlost := failed_refresh_never_retried wideServer (fullRow rowOfLetters) (1 / 50) true hfails
  ⟨hfails, hlost.2.1⟩

theorem full_row_refresh_forgotten :
    FailsRefresh wideServer (session wideServer (fullRow rowOfLetters)) (1 / 50) ∧
      ¬ ((session wideServer (fullRow rowOfLetters ++ [.tick (1 / 50) true])).pendingAtomicRefresh =
          true ∧
        StillOwed (session wideServer (fullRow rowOfLetters ++ [.tick (1 / 50) true]))) := by
  have hfails := fullRow_fails rowOfLetters_ne_nil rowOfLetters_length
  refine ⟨hfails, fun h => ?_⟩
  have hp := h.1
  rw [session_snoc, failed_not_pending hfails] at hp
  exact Bool.false_ne_true hp

end MoshTcp.Server
