import MoshTcp.ServerSteps
import MoshTcp.AnsiSplit

/-! When a full bucket moves the output on. The bucket never holds more than its capacity, so a
first piece that is longer than this is not sent however long the send loop waits. -/

set_option autoImplicit false

namespace MoshTcp.Server
open ByteOrder Protocol Ansi Runs

variable {σ τ ε : Type} {cfg : Config σ τ ε} {s : Session σ τ}

/-- A tick that finds output to pass through and a full bucket. -/
structure FullBucket (cfg : Config σ τ ε) (s : Session σ τ) (elapsed : ε) : Prop where
  running : s.sendLoopEnded = false
  output : s.ptyBuffer ≠ []
  capped : s.ptyBuffer.length ≤ maxPtyBufferCap
  noRefresh : s.pendingAtomicRefresh = false
  full : cfg.arith.refill s.tokens elapsed = cfg.arith.burstCapacity

structure Progress (s s' : Session σ τ) : Prop where
  frame : ∃ f start, s'.sent = s.sent ++ [f] ∧ f.origin = .passThrough start ∧ f.raw ≠ []
  shorter : s'.ptyBuffer.length < s.ptyBuffer.length

theorem FullBucket.not_due {elapsed : ε} (h : FullBucket cfg s elapsed) : ¬ RefreshDue s := by
  intro hdue
  cases hdue with
  | inl hpending => simp [h.noRefresh] at hpending
  | inr hlong => exact absurd h.capped (Nat.not_le.2 hlong)

/-- A tick with a full bucket sends something, exactly when the first piece of the output fits
into the bucket. -/
theorem progress_iff {elapsed : ε} (h : FullBucket cfg s elapsed)
    (ht : cfg.arith.exhausted cfg.arith.burstCapacity = false) :
    Progress s (step cfg s (.tick elapsed true)) ↔
      firstCut s.ptyBuffer ≤ cfg.arith.asUsize cfg.arith.burstCapacity := by
  rw [← findSafeSplitPoint_pos_iff h.output]
  rw [← h.full] at ht ⊢
  constructor
  · intro hprogress
    by_contra hzero
    have hshort := hprogress.shorter
    rw [step_withheld h.running ht h.not_due h.output (by omega) true] at hshort
    exact absurd hshort (Nat.lt_irrefl _)
  · intro hpos
    have hle := (findSafeSplitPoint_le s.ptyBuffer
      (cfg.arith.asUsize (cfg.arith.refill s.tokens elapsed))).2
    rw [step_passThrough h.running ht h.not_due rfl hpos true]
    refine ⟨⟨_, _, rfl, rfl, ?_⟩, ?_⟩
    · intro hnil
      have hlength := congrArg List.length hnil
      rw [List.length_take, List.length_nil] at hlength
      omega
    · rw [transmit_ptyBuffer]
      simp only [List.length_drop]
      omega

theorem burst_ge (maxKbps : UInt64) : 2048 ≤ (rationalTokens maxKbps).burstCapacity :=
  le_max_right _ _

theorem burst_not_exhausted (maxKbps : UInt64) :
    (rationalTokens maxKbps).exhausted (rationalTokens maxKbps).burstCapacity = false := by
  have hburst := burst_ge maxKbps
  rw [← Bool.not_eq_true, rationalTokens_exhausted]
  linarith

/-- At every state a session reaches, and for every bandwidth. -/
theorem full_bucket_progress_iff (vt : Vt100 σ) (gz : Gzip) (key : String) (maxKbps : UInt64)
    (es : List (Event ℚ)) (elapsed : ℚ)
    (h : FullBucket (rationalServer vt gz key maxKbps)
      (session (rationalServer vt gz key maxKbps) es) elapsed) :
    Progress (session (rationalServer vt gz key maxKbps) es)
        (session (rationalServer vt gz key maxKbps) (es ++ [.tick elapsed true])) ↔
      firstCut (session (rationalServer vt gz key maxKbps) es).ptyBuffer ≤
        ⌊(rationalTokens maxKbps).burstCapacity⌋.toNat := by
  rw [session_snoc]
  exact progress_iff h (burst_not_exhausted maxKbps)

theorem first_read_full (maxKbps : UInt64) {chunk : Bytes} (hne : chunk ≠ [])
    (hlen : chunk.length ≤ maxPtyBufferCap) :
    FullBucket (recordingServer maxKbps) (session (recordingServer maxKbps) [.ptyRead chunk]) 0 ∧
      (session (recordingServer maxKbps) [.ptyRead chunk]).ptyBuffer = chunk := by
  have hread : session (recordingServer maxKbps) [.ptyRead chunk] =
      received (recordingServer maxKbps) (Session.start (recordingServer maxKbps)) chunk := by
    rw [session, run_cons, run_nil, step_read hne rfl]
  rw [hread]
  refine ⟨⟨rfl, hne, hlen, rfl, ?_⟩, rfl⟩
  simp [received, Session.start, recordingServer, rationalServer, rationalTokens]

/-- The sequence that sets a window title of `n` letters. -/
def windowTitle (n : Nat) : Bytes := 0x1b :: 0x5D :: (List.replicate n 0x61 ++ [0x07])

theorem oscLength_letters (n : Nat) (rest : Bytes) :
    oscLength (List.replicate n 0x61 ++ 0x07 :: rest) = n + 1 := by
  induction n with
  | zero => rfl
  | succ n ih =>
    rw [List.replicate_succ, List.cons_append, oscLength, if_neg (by decide), if_neg (by simp), ih]
    omega

theorem windowTitle_ne_nil (n : Nat) : windowTitle n ≠ [] := List.cons_ne_nil _ _

theorem windowTitle_length (n : Nat) : (windowTitle n).length = n + 3 := by
  simp [windowTitle]

theorem firstCut_windowTitle (n : Nat) (rest : Bytes) :
    firstCut (windowTitle n ++ rest) = n + 3 := by
  have hsequence : firstCut (windowTitle n ++ rest) =
      2 + oscLength (List.replicate n 0x61 ++ [0x07] ++ rest) := rfl
  rw [hsequence, List.append_assoc, List.singleton_append, oscLength_letters]
  omega

theorem full_bucket_progress_title_and_text :
    2048 < (windowTitle 40 ++ List.replicate 3000 0x61).length ∧
      Progress (session (recordingServer 1) [.ptyRead (windowTitle 40 ++ List.replicate 3000 0x61)])
        (session (recordingServer 1)
          ([.ptyRead (windowTitle 40 ++ List.replicate 3000 0x61)] ++ [.tick 0 true])) := by
  have hlen : (windowTitle 40 ++ List.replicate 3000 0x61).length = 3043 := by
    rw [List.length_append, windowTitle_length, List.length_replicate]
  have hne : windowTitle 40 ++ List.replicate 3000 0x61 ≠ [] :=
    List.append_ne_nil_of_left_ne_nil (windowTitle_ne_nil 40) _
  have hcap : (windowTitle 40 ++ List.replicate 3000 0x61).length ≤ maxPtyBufferCap := by
    rw [hlen]
    decide
  obtain ⟨hfull, hbuf⟩ := first_read_full 1 hne hcap
  have hburst : ⌊(rationalTokens 1).burstCapacity⌋.toNat = 2048 := by decide +kernel
  refine ⟨by rw [hlen]; decide, (full_bucket_progress_iff recorder .failing "k" 1 _ 0 hfull).2 ?_⟩
  have hcut : firstCut (session (recordingServer 1)
      [.ptyRead (windowTitle 40 ++ List.replicate 3000 0x61)]).ptyBuffer = 43 := by
    rw [hbuf, firstCut_windowTitle]
  exact hcut.le.trans (by rw [hburst]; decide)

/-- With a limit of one kilobyte a second a title of 2100 letters stays in the buffer. -/
theorem long_title_stalls :
    FullBucket (recordingServer 1) (session (recordingServer 1) [.ptyRead (windowTitle 2100)]) 0 ∧
      ¬ Progress (session (recordingServer 1) [.ptyRead (windowTitle 2100)])
        (session (recordingServer 1) ([.ptyRead (windowTitle 2100)] ++ [.tick 0 true])) := by
  have hcap : (windowTitle 2100).length ≤ maxPtyBufferCap := by
    rw [windowTitle_length]
    decide
  obtain ⟨hfull, hbuf⟩ := first_read_full 1 (windowTitle_ne_nil 2100) hcap
  have hburst : (recordingServer 1).arith.asUsize (recordingServer 1).arith.burstCapacity =
      2048 := by
    decide +kernel
  refine ⟨hfull, fun hprogress => ?_⟩
  rw [session_snoc] at hprogress
  have hfits := (progress_iff hfull (burst_not_exhausted 1)).1 hprogress
  rw [hbuf, ← List.append_nil (windowTitle 2100), firstCut_windowTitle, hburst] at hfits
  omega

end MoshTcp.Server
