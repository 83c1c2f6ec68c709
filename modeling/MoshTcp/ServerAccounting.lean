import MoshTcp.ServerFlood

/-! Output accounting. Every byte the reader counts is to be found in a pass-through frame,
in `bytes_dropped` or in the buffer. The overflow check records what it discards; the
refresh branch clears the buffer again, and what came in since the overflow is recorded
nowhere. -/

set_option autoImplicit false

namespace MoshTcp.Server
open ByteOrder Protocol Ansi Runs

variable {σ τ ε : Type} {cfg : Config σ τ ε} {s : Session σ τ}

def passedThrough (sent : List Sent) : Nat :=
  (sent.map fun f => match f.origin with
    | .passThrough _ => f.raw.length
    | _ => 0).sum

def accountedBytes (s : Session σ τ) : Nat :=
  passedThrough s.sent + s.bytesDropped + s.ptyBuffer.length

def Balanced (s : Session σ τ) : Prop := s.ptyBytesIn = accountedBytes s

instance : DecidablePred (Balanced (σ := σ) (τ := τ)) := fun _ => instDecidableEqNat _ _

/-- The steps before the PTY closes, with sends that succeed. -/
def BeforeClose : Event ε → Prop
  | .ptyRead chunk => chunk ≠ []
  | .tick _ sendOk => sendOk = true
  | .closeFlush _ => False
  | _ => True

/-- A tick that has tokens, finds a refresh pending from an earlier tick, and finds bytes in
a buffer that is not overfull. -/
def ClearsUncounted (cfg : Config σ τ ε) (s : Session σ τ) : Event ε → Prop
  | .tick elapsed _ =>
    s.sendLoopEnded = false ∧
      cfg.arith.exhausted (cfg.arith.refill s.tokens elapsed) = false ∧
      s.pendingAtomicRefresh = true ∧ s.ptyBuffer ≠ [] ∧ s.ptyBuffer.length ≤ maxPtyBufferCap
  | _ => False

theorem passedThrough_snoc (sent : List Sent) (f : Sent) :
    passedThrough (sent ++ [f]) = passedThrough sent + match f.origin with
      | .passThrough _ => f.raw.length
      | _ => 0 := by
  simp [passedThrough]

theorem checked_ptyBytesIn (cfg : Config σ τ ε) (s : Session σ τ) (elapsed : ε) :
    (checked cfg s elapsed).ptyBytesIn = s.ptyBytesIn := by
  simp only [checked, discardOverflow]
  split <;> rfl

theorem checked_accountedBytes (cfg : Config σ τ ε) (s : Session σ τ) (elapsed : ε) :
    accountedBytes (checked cfg s elapsed) = accountedBytes s := by
  simp only [checked, discardOverflow]
  split
  · simp [accountedBytes, refillTokens, Nat.add_assoc]
  · rfl

theorem refreshed_accountedBytes (r : Session σ τ) (frame : Bytes) :
    accountedBytes (transmit cfg (clearPending r) (.refresh r.ptyOutput.length) frame true) +
      r.ptyBuffer.length = accountedBytes r := by
  simp [accountedBytes, transmit, clearPending, passedThrough_snoc]

theorem passed_accountedBytes (r : Session σ τ) {n : Nat} (hn : n ≤ r.ptyBuffer.length)
    (start : Nat) :
    accountedBytes (transmit cfg { r with ptyBuffer := r.ptyBuffer.drop n }
      (.passThrough start) (r.ptyBuffer.take n) true) = accountedBytes r := by
  simp only [accountedBytes, transmit, if_true, passedThrough_snoc, List.length_take,
    List.length_drop]
  omega

/-- What a tick takes out of the account: the checked buffer, when it takes the refresh
branch. -/
theorem tick_accounting (cfg : Config σ τ ε) (s : Session σ τ) (elapsed : ε) :
    (tick cfg s elapsed true).ptyBytesIn = s.ptyBytesIn ∧
      accountedBytes s = accountedBytes (tick cfg s elapsed true) +
        if cfg.arith.exhausted (checked cfg s elapsed).tokens = false ∧
            (checked cfg s elapsed).pendingAtomicRefresh = true
          then (checked cfg s elapsed).ptyBuffer.length else 0 := by
  have ht := tick_ticked cfg s elapsed true
  have hin := checked_ptyBytesIn cfg s elapsed
  rw [← checked_accountedBytes cfg s elapsed]
  generalize checked cfg s elapsed = r at ht hin ⊢
  generalize tick cfg s elapsed true = s' at ht ⊢
  cases ht with
  | exhausted ht => exact ⟨hin, by simp [ht]; rfl⟩
  | refreshed frame ht hp =>
    exact ⟨hin, by rw [if_pos ⟨ht, hp⟩, refreshed_accountedBytes]⟩
  | refreshFailed ht hp =>
    exact ⟨hin, by rw [if_pos ⟨ht, hp⟩]; simp [accountedBytes, skipFrame, clearPending]⟩
  | idle ht hp => exact ⟨hin, by simp [hp]⟩
  | passed n ht hp hn =>
    refine ⟨hin, ?_⟩
    rw [passed_accountedBytes r (hn ▸ (findSafeSplitPoint_le _ _).2)]
    simp [hp]
  | withheld ht hp => exact ⟨hin, by simp [hp]; rfl⟩

/-- A step brings in what it adds to the account, and takes `k` bytes out of it; only a
step that clears uncounted bytes takes any. -/
theorem step_accounting (cfg : Config σ τ ε) (s : Session σ τ) (e : Event ε)
    (he : BeforeClose e) :
    ∃ k, (step cfg s e).ptyBytesIn + accountedBytes s =
        s.ptyBytesIn + accountedBytes (step cfg s e) + k ∧
      (k = 0 ↔ ¬ ClearsUncounted cfg s e) := by
  cases e with
  | tick elapsed sendOk =>
    obtain rfl : sendOk = true := he
    by_cases hl : s.sendLoopEnded = true
    · exact ⟨0, by simp [step, hl], by simp [ClearsUncounted, hl]⟩
    · have hl' : s.sendLoopEnded = false := by simpa using hl
      obtain ⟨hin, hacc⟩ := tick_accounting cfg s elapsed
      rw [step, if_neg hl]
      refine ⟨_, by rw [hin, hacc, ← Nat.add_assoc], ?_⟩
      -- an overfull buffer has just been recorded as dropped
      by_cases hcap : maxPtyBufferCap < s.ptyBuffer.length
      · simp [ClearsUncounted, checked_of_gt cfg elapsed hcap, Nat.not_le.2 hcap]
      · have hcap' := Nat.le_of_not_lt hcap
        simp [ClearsUncounted, hl', hcap', checked_of_le hcap', refillTokens]
  | ptyRead chunk =>
    refine ⟨0, ?_, by simp [ClearsUncounted]⟩
    by_cases ho : s.ptyClosed = true
    · simp [step, ho]
    · rw [step_read he (by simpa using ho)]
      simp only [received, accountedBytes, List.length_append]
      omega
  | closeFlush sendOk => exact absurd he id
  | clientPacket packet =>
    refine ⟨0, ?_, by simp [ClearsUncounted]⟩
    have hs := step_transition cfg s (.clientPacket packet)
    generalize step cfg s (.clientPacket packet) = s' at hs
    cases hs <;> rfl
  | clientEnd => exact ⟨0, rfl, by simp [ClearsUncounted]⟩
  | sendTaskDone =>
    refine ⟨0, ?_, by simp [ClearsUncounted]⟩
    have hs := step_transition cfg s (.sendTaskDone)
    generalize step cfg s (.sendTaskDone) = s' at hs
    cases hs <;> rfl

theorem session_accountedBytes_le (cfg : Config σ τ ε) (es : List (Event ε))
    (hes : ∀ e ∈ es, BeforeClose e) :
    accountedBytes (session cfg es) ≤ (session cfg es).ptyBytesIn := by
  refine run_invariant (I := fun s => accountedBytes s ≤ s.ptyBytesIn) (Nat.le_refl 0) ?_
    (along_of_forall (P := fun _ e => BeforeClose e) fun _ e he => hes e he)
  intro s e hs he
  obtain ⟨k, hk, -⟩ := step_accounting cfg s e he
  omega

theorem session_balanced_iff (cfg : Config σ τ ε) (es : List (Event ε))
    (hes : ∀ e ∈ es, BeforeClose e) :
    Balanced (session cfg es) ↔
      Along (step cfg) (fun s e => ¬ ClearsUncounted cfg s e) (Session.start cfg) es := by
  induction es using List.reverseRecOn with
  | nil => exact ⟨fun _ => trivial, fun _ => rfl⟩
  | append_singleton es e ih =>
    have hpre : ∀ f ∈ es, BeforeClose f := fun f hf => hes f (by simp [hf])
    have hle := session_accountedBytes_le cfg es hpre
    obtain ⟨k, hk, hiff⟩ := step_accounting cfg (session cfg es) e (hes e (by simp))
    rw [along_append, ← ih hpre, session_snoc]
    simp only [Along, and_true]
    change _ ↔ _ ∧ ¬ ClearsUncounted cfg (session cfg es) e
    rw [← hiff]
    simp only [Balanced]
    omega

/-- The account balances in every state of a run exactly if no tick of it clears a buffer
for a refresh that an earlier tick left pending. -/
theorem output_accounting_balances_iff (cfg : Config σ τ ε) (es : List (Event ε))
    (hes : ∀ e ∈ es, BeforeClose e) :
    (∀ pre, pre <+: es → Balanced (session cfg pre)) ↔
      Along (step cfg) (fun s e => ¬ ClearsUncounted cfg s e) (Session.start cfg) es := by
  constructor
  · intro h
    exact (session_balanced_iff cfg es hes).1 (h es List.prefix_rfl)
  · intro h pre hpre
    obtain ⟨post, rfl⟩ := hpre
    refine (session_balanced_iff cfg pre fun e he => hes e (by simp [he])).2 ?_
    exact (along_append.1 h).1

theorem flood_beforeClose {chunks : List Bytes} (hc : ∀ chunk ∈ chunks, chunk ≠ [])
    (elapsed : ε) : ∀ e ∈ flood chunks elapsed, BeforeClose e := by
  intro e he
  rw [flood, List.mem_append, List.mem_map, List.mem_singleton] at he
  cases he with
  | inl he =>
    obtain ⟨chunk, hchunk, rfl⟩ := he
    exact hc chunk hchunk
  | inr he =>
    subst he
    rfl

theorem flood_clears_counted (cfg : Config σ τ ε) {chunks : List Bytes}
    (hc : ∀ chunk ∈ chunks, chunk ≠ []) (elapsed : ε) :
    Along (step cfg) (fun s e => ¬ ClearsUncounted cfg s e) (Session.start cfg)
      (flood chunks elapsed) := by
  rw [flood, along_append, run_reads cfg chunks hc rfl]
  refine ⟨along_of_forall fun s e he => ?_, ?_⟩
  · obtain ⟨chunk, -, rfl⟩ := List.mem_map.1 he
    exact id
  · simp [Along, ClearsUncounted, Session.start]

theorem output_accounting_balances_iff_flood :
    (∀ e ∈ flood (fullReads 0x61 5) (0 : ℚ), BeforeClose e) ∧
      ∀ pre, pre <+: flood (fullReads 0x61 5) 0 →
        Balanced (session (recordingServer 6) pre) := by
  have hes := flood_beforeClose (fullReads_ne_nil 0x61 5) (0 : ℚ)
  refine ⟨hes, (output_accounting_balances_iff (recordingServer 6) _ hes).2 ?_⟩
  exact flood_clears_counted _ (fullReads_ne_nil 0x61 5) 0

/-- The burst is spent, a flood comes, and one more byte before the bucket refills. -/
def promptAfterFlood (line : Bytes) (chunks : List Bytes) : List (Event ℚ) :=
  linesEvery 0 line 24 ++ flood chunks 0 ++ [.ptyRead [0x24], .tick 1 true]

theorem defaultRate_refill_zero (n : Nat) (hn : n ≤ 128 * 24) :
    (rationalTokens 6).refill (n : ℚ) 0 = n := by
  have hrate : maxBytesPerSec 6 = 6144 := by decide +kernel
  have hn' : (n : ℚ) ≤ 3072 := by exact_mod_cast hn
  simp only [rationalTokens, hrate, mul_zero, add_zero]
  exact min_eq_left (hn'.trans (by norm_num))

theorem promptAfterFlood_clears (vt : Vt100 σ) (gz : Gzip) {line : Bytes} {chunks : List Bytes}
    (hline : line.length = 128) (hc : ∀ chunk ∈ chunks, chunk ≠ [])
    (hcap : maxPtyBufferCap < chunks.flatten.length) :
    ClearsUncounted (rationalServer vt gz "k" 6)
      (session (rationalServer vt gz "k" 6)
        (linesEvery 0 line 24 ++ flood chunks 0 ++ [.ptyRead [0x24]])) (.tick 1 true) := by
  obtain ⟨hidle, htok⟩ := linesEvery_drain vt gz defaultRate_refill_zero hline 24 (Nat.le_refl _)
    (s := Session.start (rationalServer vt gz "k" 6)) ⟨rfl, rfl, rfl, rfl⟩
    (by decide +kernel : (rationalTokens 6).burstCapacity = ((128 * 24 : Nat) : ℚ))
  rw [session, run_append, run_append]
  generalize run (step (rationalServer vt gz "k" 6)) (Session.start (rationalServer vt gz "k" 6))
    (linesEvery 0 line 24) = r at hidle htok
  have hexhausted : (rationalTokens 6).exhausted ((rationalTokens 6).refill 0 0) = true := by
    decide +kernel
  obtain ⟨howing, htok'⟩ := flood_exhausted (rationalServer vt gz "k" 6) 0 hc hcap hidle.isOpen
    hidle.running (by rw [htok]; exact hexhausted)
  generalize run (step (rationalServer vt gz "k" 6)) r (flood chunks 0) = u at howing htok' ⊢
  have hpaid : (rationalTokens 6).exhausted
      ((rationalTokens 6).refill ((rationalTokens 6).refill 0 0) 1) = false := by
    decide +kernel
  rw [run_cons, run_nil, step_read (by simp) howing.isOpen]
  refine ⟨howing.running, ?_, howing.pending, by simp [received], ?_⟩
  · simp only [received, htok', htok]
    exact hpaid
  · simp [received, howing.empty, maxPtyBufferCap]

theorem linesEvery_beforeClose (elapsed : ℚ) {line : Bytes} (hline : line ≠ []) (k : Nat) :
    ∀ e ∈ linesEvery elapsed line k, BeforeClose e := by
  induction k with
  | zero => simp [linesEvery]
  | succ k ih => simpa [linesEvery, BeforeClose, hline] using ih

theorem promptAfterFlood_beforeClose {line : Bytes} {chunks : List Bytes} (hline : line ≠ [])
    (hc : ∀ chunk ∈ chunks, chunk ≠ []) : ∀ e ∈ promptAfterFlood line chunks, BeforeClose e := by
  intro e he
  rw [promptAfterFlood, List.mem_append, List.mem_append] at he
  rcases he with (he | he) | he
  · exact linesEvery_beforeClose 0 hline 24 e he
  · exact flood_beforeClose hc 0 e he
  · revert e
    simp [BeforeClose]

theorem promptAfterFlood_not_balanced (vt : Vt100 σ) (gz : Gzip) {line : Bytes}
    {chunks : List Bytes} (hline : line.length = 128) (hc : ∀ chunk ∈ chunks, chunk ≠ [])
    (hcap : maxPtyBufferCap < chunks.flatten.length) :
    ¬ Balanced (session (rationalServer vt gz "k" 6) (promptAfterFlood line chunks)) := by
  intro h
  have hne : line ≠ [] := List.length_pos_iff.1 (by omega)
  have hes := promptAfterFlood_beforeClose hne hc
  have hcut : promptAfterFlood line chunks =
      (linesEvery 0 line 24 ++ flood chunks 0 ++ [.ptyRead [0x24]]) ++ .tick 1 true :: [] := by
    simp [promptAfterFlood]
  have halong := along_iff_cut.1 ((session_balanced_iff _ _ hes).1 h)
  exact halong _ _ _ hcut (promptAfterFlood_clears vt gz hline hc hcap)

/-- Whatever the emulator and the compressor, the byte after the flood is in no count. -/
theorem prompt_after_flood_uncounted :
    (∀ e ∈ promptAfterFlood (List.replicate 128 0x61) (fullReads 0x61 5), BeforeClose e) ∧
      ¬ ∃ (σ : Type) (vt : Vt100 σ) (gz : Gzip), Balanced (session (rationalServer vt gz "k" 6)
        (promptAfterFlood (List.replicate 128 0x61) (fullReads 0x61 5))) := by
  have hline : (List.replicate 128 (0x61 : UInt8)).length = 128 := List.length_replicate
  have hne : List.replicate 128 (0x61 : UInt8) ≠ [] := List.length_pos_iff.1 (by omega)
  have hcap : maxPtyBufferCap < (fullReads 0x61 5).flatten.length := by
    rw [fullReads_length]
    decide
  refine ⟨promptAfterFlood_beforeClose hne (fullReads_ne_nil 0x61 5), ?_⟩
  rintro ⟨σ, vt, gz, h⟩
  exact promptAfterFlood_not_balanced vt gz hline (fullReads_ne_nil 0x61 5) hcap h

end MoshTcp.Server
