import MoshTcp.ServerFlood
import MoshTcp.Lib.Tokens

/-! Where raw output resumes after a refresh. A refresh discards whatever has been read, so
the next raw byte is the one after the last read before the discard, whatever sequence it is
part of; only the pass-through branch looks for a safe split point. -/

set_option autoImplicit false

namespace MoshTcp.Server
open ByteOrder Protocol Ansi Runs Tokens

variable {σ τ ε : Type} {cfg : Config σ τ ε} {s : Session σ τ}

/-- The length of the first token of a stream: a CSI or an OSC sequence or a plain byte. -/
def tokenLength : Bytes → Nat
  | [] => 0
  | [_] => 1
  | b :: c :: tail =>
    if b = 0x1b ∧ c = 0x5B then 2 + csiLength tail
    else if b = 0x1b ∧ c = 0x5D then 2 + oscLength tail
    else 1

theorem tokenLength_pos {stream : Bytes} (hne : stream ≠ []) : 0 < tokenLength stream := by
  cases stream with
  | nil => exact absurd rfl hne
  | cons b rest =>
    cases rest with
    | nil => exact Nat.one_pos
    | cons c tail =>
      simp only [tokenLength]
      (repeat' split) <;> omega

theorem tokenLength_le (stream : Bytes) : tokenLength stream ≤ stream.length := by
  cases stream with
  | nil => exact Nat.le_refl 0
  | cons b rest =>
    cases rest with
    | nil => exact Nat.le_refl 1
    | cons c tail =>
      have hcsi := csiLength_le tail
      have hosc := oscLength_le tail
      simp only [tokenLength, List.length_cons]
      (repeat' split) <;> omega

def streamTokens : Tokenizer UInt8 where
  length := tokenLength
  length_pos := tokenLength_pos
  length_le := tokenLength_le

theorem boundary_plain {plain : Bytes} (hp : ∀ b ∈ plain, b ≠ 0x1b) (stream : Bytes) :
    streamTokens.Boundary (plain ++ stream) plain.length := by
  induction plain with
  | nil => exact .start _
  | cons b plain ih =>
    have hlen : tokenLength (b :: (plain ++ stream)) = 1 := by
      cases plain ++ stream with
      | nil => rfl
      | cons c tail => simp [tokenLength, hp b (by simp)]
    have hfirst : streamTokens.Boundary (b :: (plain ++ stream)) 1 :=
      hlen ▸ Tokenizer.boundary_first (List.cons_ne_nil b _)
    rw [List.length_cons, Nat.add_comm]
    exact hfirst.trans (ih fun c hc => hp c (by simp [hc]))

theorem sent_prefix (cfg : Config σ τ ε) (es fs : List (Event ε)) :
    (session cfg es).sent <+: (session cfg (es ++ fs)).sent := by
  rw [session_append]
  refine run_grows (fun s e => ?_) (session cfg es) fs
  cases step_sent cfg s e with
  | inl h => rw [h]
  | inr h =>
    obtain ⟨f, -, hs⟩ := h
    exact hs ▸ List.prefix_append _ _

/-- Every frame was sent by some step, after the frames before it. -/
theorem sent_cut (cfg : Config σ τ ε) {es : List (Event ε)} {before after : List Sent} {f : Sent}
    (h : (session cfg es).sent = before ++ f :: after) :
    ∃ pre e post, es = pre ++ e :: post ∧ (session cfg pre).sent = before ∧
      Emission cfg (session cfg pre) e f := by
  induction es using List.reverseRecOn generalizing after with
  | nil => simp [session, Session.start] at h
  | append_singleton es e ih =>
    rw [session_snoc] at h
    have earlier : ∀ after', (session cfg es).sent = before ++ f :: after' →
        ∃ pre d post, es ++ [e] = pre ++ d :: post ∧ (session cfg pre).sent = before ∧
          Emission cfg (session cfg pre) d f := by
      intro after' h'
      obtain ⟨pre, d, post, rfl, hpre⟩ := ih h'
      exact ⟨pre, d, post ++ [e], by simp, hpre⟩
    cases step_sent cfg (session cfg es) e with
    | inl hs => exact earlier after (hs ▸ h)
    | inr hs =>
      obtain ⟨g, hg, hs⟩ := hs
      rw [hs] at h
      -- the step's own frame is the last one
      rcases List.eq_nil_or_concat after with rfl | ⟨after', x, rfl⟩
      · obtain ⟨hbefore, hfg⟩ := List.append_inj' h rfl
        obtain rfl : g = f := by simpa using hfg
        exact ⟨es, e, [], rfl, hbefore, hg⟩
      · rw [List.concat_eq_append, ← List.cons_append, ← List.append_assoc] at h
        exact earlier after' (List.append_inj' h rfl).1

theorem emission_sent_cut {pre : List (Event ε)} {e : Event ε} {f : Sent}
    (h : Emission cfg (session cfg pre) e f) (post : List (Event ε)) :
    ∃ after, (session cfg (pre ++ e :: post)).sent = (session cfg pre).sent ++ f :: after := by
  obtain ⟨after, hafter⟩ := sent_prefix cfg (pre ++ [e]) post
  rw [session_snoc, emission_sent h] at hafter
  exact ⟨after, by simpa using hafter.symm⟩

theorem emission_start {e : Event ε} {f : Sent} (h : Emission cfg s e f) {a b : Nat}
    (hr : f.range = some (a, b)) : a = bufferStart s := by
  cases h with
  | refresh => simp [Sent.range] at hr
  | passThrough =>
    simp [Sent.range] at hr
    exact hr.1.symm
  | flush =>
    simp [Sent.range] at hr
    exact hr.1.symm

/-! ### Raw frames carry the stream -/

theorem step_buffer_suffix (h : s.ptyBuffer <:+ s.ptyOutput) (e : Event ε) :
    (step cfg s e).ptyBuffer <:+ (step cfg s e).ptyOutput := by
  have hs := step_transition cfg s e
  generalize step cfg s e = s' at hs
  cases hs with
  | still => exact h
  | read chunk =>
    obtain ⟨front, hfront⟩ := h
    exact ⟨front, by simp [received, ← hfront]⟩
  | closed => exact h
  | ticked elapsed sendOk _ _ ht =>
    have hr : (checked cfg s elapsed).ptyBuffer <:+ (checked cfg s elapsed).ptyOutput := by
      by_cases hb : s.ptyBuffer.length ≤ maxPtyBufferCap
      · rw [checked_of_le hb]
        exact h
      · rw [(checked_of_gt cfg elapsed (Nat.lt_of_not_le hb)).1]
        exact List.nil_suffix
    cases ht with
    | exhausted => exact hr
    | refreshed => simp [clearPending]
    | refreshFailed => exact List.nil_suffix
    | idle => exact hr
    | passed n =>
      rw [transmit_ptyBuffer, transmit_ptyOutput]
      exact (List.drop_suffix n _).trans hr
    | withheld => exact hr
  | flushed =>
    simp only [closeFlush]
    split
    · exact h
    · exact List.nil_suffix
  | resized => exact h
  | input => exact h
  | left => exact h

theorem session_buffer_suffix (cfg : Config σ τ ε) (es : List (Event ε)) :
    (session cfg es).ptyBuffer <:+ (session cfg es).ptyOutput :=
  run_preserves (I := fun s : Session σ τ => s.ptyBuffer <:+ s.ptyOutput) List.suffix_rfl
    (fun _ e h => step_buffer_suffix h e) es

theorem emission_carries (h : s.ptyBuffer <:+ s.ptyOutput) {e : Event ε} {f : Sent}
    (hf : Emission cfg s e f) {a b : Nat} (hr : f.range = some (a, b)) :
    f.raw ≠ [] ∧ f.raw <+: s.ptyOutput.drop a := by
  have hbuf : s.ptyOutput.drop (bufferStart s) = s.ptyBuffer := by
    rw [bufferStart, ← List.suffix_iff_eq_drop.1 h]
  obtain rfl := emission_start hf hr
  rw [hbuf]
  cases hf with
  | refresh => simp [Sent.range] at hr
  | passThrough elapsed n _ _ _ hn hpos =>
    have hle := (findSafeSplitPoint_le s.ptyBuffer
      (cfg.arith.asUsize (cfg.arith.refill s.tokens elapsed))).2
    refine ⟨fun hnil => ?_, List.take_prefix n _⟩
    have hlen := congrArg List.length hnil
    simp only [List.length_take, List.length_nil] at hlen
    omega
  | flush _ _ hb => exact ⟨hb, List.prefix_rfl⟩

theorem session_ptyOutput_grows (cfg : Config σ τ ε) (es fs : List (Event ε)) :
    (session cfg es).ptyOutput <+: (session cfg (es ++ fs)).ptyOutput := by
  rw [session_append]
  exact run_grows (step_ptyOutput_grows cfg) (session cfg es) fs

theorem raw_frames_carry (cfg : Config σ τ ε) (es : List (Event ε)) {f : Sent}
    (hf : f ∈ (session cfg es).sent) {a b : Nat} (hr : f.range = some (a, b)) :
    f.raw ≠ [] ∧ f.raw <+: (session cfg es).ptyOutput.drop a := by
  obtain ⟨before, after, hsent⟩ := List.append_of_mem hf
  obtain ⟨pre, e, post, rfl, -, hemit⟩ := sent_cut cfg hsent
  obtain ⟨hne, hcarry⟩ := emission_carries (session_buffer_suffix cfg pre) hemit hr
  exact ⟨hne, hcarry.trans ((session_ptyOutput_grows cfg pre (e :: post)).drop a)⟩

/-- A tick that clears the buffer: it is overfull, or a refresh is pending and can be paid. -/
def Discards (cfg : Config σ τ ε) (s : Session σ τ) : Event ε → Prop
  | .tick elapsed _ => s.sendLoopEnded = false ∧ (maxPtyBufferCap < s.ptyBuffer.length ∨
      s.pendingAtomicRefresh = true ∧
        cfg.arith.exhausted (cfg.arith.refill s.tokens elapsed) = false)
  | _ => False

/-- The last frame sent is a refresh. -/
def AfterRefresh (s : Session σ τ) : Prop := ∃ f, s.sent.getLast? = some f ∧ f.range = none

theorem discards_of_due {elapsed : ε} {sendOk : Bool} (hl : s.sendLoopEnded = false)
    (hdue : RefreshDue s)
    (ht : cfg.arith.exhausted (cfg.arith.refill s.tokens elapsed) = false) :
    Discards cfg s (.tick elapsed sendOk) := by
  cases hdue with
  | inl hp => exact ⟨hl, .inr ⟨hp, ht⟩⟩
  | inr hb => exact ⟨hl, .inl hb⟩

theorem discard_bufferStart {e : Event ε} (h : Discards cfg s e) :
    bufferStart (step cfg s e) = s.ptyOutput.length := by
  cases e with
  | tick elapsed sendOk =>
    obtain ⟨hl, hwhy⟩ := h
    have hdue : RefreshDue s := hwhy.elim .inr fun h => .inl h.1
    cases ht : cfg.arith.exhausted (cfg.arith.refill s.tokens elapsed) with
    | true =>
      have hcap : maxPtyBufferCap < s.ptyBuffer.length :=
        hwhy.resolve_right fun h => by simp [h.2] at ht
      rw [step_exhausted hl ht]
      exact bufferStart_overflowed cfg elapsed hcap
    | false =>
      rcases step_due hl ht hdue sendOk with ⟨frame, -, hs⟩ | ⟨-, hs⟩
      · rw [hs, bufferStart_cleared, checked_ptyOutput]
      · rw [hs]
        simp [bufferStart, clearPending, skipFrame]
  | _ => exact h.elim

/-- Between a discard and the next raw frame the start of the buffer stays where it is. -/
theorem quiet_step {e : Event ε} (hquiet : ¬ Discards cfg s e)
    (hl : (step cfg s e).sendLoopEnded = false) (ha : AfterRefresh (step cfg s e)) :
    s.sendLoopEnded = false ∧ AfterRefresh s ∧
      bufferStart (step cfg s e) = bufferStart s := by
  have hs := step_transition cfg s e
  generalize step cfg s e = s' at hs hl ha
  cases hs with
  | still => exact ⟨hl, ha, rfl⟩
  | read chunk => exact ⟨hl, ha, bufferStart_received cfg s chunk⟩
  | closed => exact ⟨hl, ha, rfl⟩
  | ticked elapsed sendOk _ hrun ht =>
    have hcap : s.ptyBuffer.length ≤ maxPtyBufferCap :=
      Nat.le_of_not_lt fun hb => hquiet ⟨hrun, .inl hb⟩
    have hdue : RefreshDue s →
        cfg.arith.exhausted (cfg.arith.refill s.tokens elapsed) = true := by
      intro hdue
      by_contra hne
      exact hquiet (discards_of_due hrun hdue (by simpa using hne))
    have hpend : (checked cfg s elapsed).pendingAtomicRefresh = true →
        cfg.arith.exhausted (checked cfg s elapsed).tokens = true := by
      rw [checked_pending_iff, checked_tokens]
      exact hdue
    rw [checked_of_le hcap] at ht hpend
    cases ht with
    | exhausted => exact ⟨hl, ha, rfl⟩
    | refreshed frame hne hp => simp [hpend hp] at hne
    | refreshFailed hne hp => simp [hpend hp] at hne
    | idle => exact ⟨hl, ha, rfl⟩
    | passed n =>
      cases sendOk with
      | false => simp [transmit] at hl
      | true =>
        obtain ⟨f, hf, hr⟩ := ha
        obtain rfl : _ = f := by simpa [transmit] using hf
        simp [Sent.range] at hr
    | withheld => exact ⟨hl, ha, rfl⟩
  | flushed sendOk =>
    simp only [closeFlush] at hl
    split at hl <;> simp at hl
  | resized => exact ⟨hl, ha, rfl⟩
  | input => exact ⟨hl, ha, rfl⟩
  | left => exact ⟨hl, ha, rfl⟩

theorem quiet_run {s : Session σ τ} {es : List (Event ε)}
    (hquiet : Along (step cfg) (fun s e => ¬ Discards cfg s e) s es)
    (hl : (run (step cfg) s es).sendLoopEnded = false)
    (ha : AfterRefresh (run (step cfg) s es)) :
    bufferStart (run (step cfg) s es) = bufferStart s := by
  induction es using List.reverseRecOn with
  | nil => rfl
  | append_singleton es e ih =>
    obtain ⟨hes, hstep, -⟩ := along_append.1 hquiet
    rw [run_append, run_cons, run_nil] at hl ha ⊢
    obtain ⟨hl', ha', hstart⟩ := quiet_step hstep hl ha
    rw [hstart, ih hes hl' ha']

theorem session_append_cons (cfg : Config σ τ ε) (pre : List (Event ε)) (e : Event ε)
    (mid : List (Event ε)) :
    session cfg (pre ++ e :: mid) = run (step cfg) (session cfg (pre ++ [e])) mid := by
  rw [← session_append, List.append_assoc, List.singleton_append]

/-- A refresh goes back to a discard, the last one before it included. -/
theorem exists_last_discard (es : List (Event ε)) (hl : (session cfg es).sendLoopEnded = false)
    (ha : AfterRefresh (session cfg es)) :
    ∃ pre e mid, es = pre ++ e :: mid ∧ Discards cfg (session cfg pre) e ∧
      Along (step cfg) (fun s e => ¬ Discards cfg s e) (session cfg (pre ++ [e])) mid := by
  induction es using List.reverseRecOn with
  | nil =>
    obtain ⟨f, hf, -⟩ := ha
    simp [session, Session.start] at hf
  | append_singleton es e ih =>
    by_cases hd : Discards cfg (session cfg es) e
    · exact ⟨es, e, [], rfl, hd, trivial⟩
    · rw [session_snoc] at hl ha
      obtain ⟨hl', ha', -⟩ := quiet_step hd hl ha
      obtain ⟨pre, d, mid, rfl, hdis, hmid⟩ := ih hl' ha'
      refine ⟨pre, d, mid ++ [e], by simp, hdis, along_append.2 ⟨hmid, ?_, trivial⟩⟩
      rw [session_append_cons] at hd
      exact hd

/-! ### Resuming -/

/-- After every refresh among `sent`, the first raw byte is at a boundary of `stream`. -/
def ResumesAtBoundary (stream : Bytes) (sent : List Sent) : Prop :=
  ∀ before f between g after, sent = before ++ f :: (between ++ g :: after) →
    f.range = none → (∀ h ∈ between, h.range = none) →
      ∀ a b, g.range = some (a, b) → streamTokens.Boundary stream a

/-- The step sends a raw frame right after a refresh. -/
def Resumes (cfg : Config σ τ ε) (s : Session σ τ) (e : Event ε) : Prop :=
  AfterRefresh s ∧ ∃ g a b, Emission cfg s e g ∧ g.range = some (a, b)

theorem resumesAtBoundary_iff (cfg : Config σ τ ε) (es : List (Event ε)) (stream : Bytes) :
    ResumesAtBoundary stream (session cfg es).sent ↔
      ∀ pre e post, es = pre ++ e :: post → Resumes cfg (session cfg pre) e →
        streamTokens.Boundary stream (bufferStart (session cfg pre)) := by
  constructor
  · intro h pre e post hes hres
    obtain ⟨⟨f, hlast, hf⟩, g, a, b, hemit, hg⟩ := hres
    obtain ⟨after, hsent⟩ := emission_sent_cut hemit post
    obtain ⟨before, hbefore⟩ := List.getLast?_eq_some_iff.1 hlast
    rw [← hes, hbefore] at hsent
    rw [← emission_start hemit hg]
    exact h before f [] g after (by simpa using hsent) hf (by simp) a b hg
  · intro h before f between g after hsent hf hbetween a b hg
    rw [← List.cons_append, ← List.append_assoc] at hsent
    obtain ⟨pre, e, post, rfl, hpre, hemit⟩ := sent_cut cfg hsent
    rw [emission_start hemit hg]
    refine h pre e post rfl ⟨?_, g, a, b, hemit, hg⟩
    rw [AfterRefresh, hpre]
    rcases List.eq_nil_or_concat between with rfl | ⟨front, x, rfl⟩
    · exact ⟨f, by simp, hf⟩
    · refine ⟨x, ?_, hbetween x (by simp)⟩
      exact List.getLast?_eq_some_iff.2 ⟨before ++ f :: front, by simp⟩

theorem emission_running {e : Event ε} {f : Sent} (h : Emission cfg s e f) :
    s.sendLoopEnded = false := by
  cases h with
  | refresh _ _ hl => exact hl
  | passThrough _ _ hl => exact hl
  | flush _ hl => exact hl

/-- Output resumes at sequence boundaries if and only if, each time it resumes, the reads
before the last discarding tick ended at one. -/
theorem raw_resumes_at_boundary_iff (cfg : Config σ τ ε) (es : List (Event ε)) :
    (∀ f ∈ (session cfg es).sent, ∀ a b, f.range = some (a, b) →
      f.raw ≠ [] ∧ f.raw <+: (ptyChunks es).flatten.drop a) ∧
    (ResumesAtBoundary (ptyChunks es).flatten (session cfg es).sent ↔
      ∀ pre e mid e' post, es = pre ++ e :: (mid ++ e' :: post) →
        Discards cfg (session cfg pre) e →
        Along (step cfg) (fun s e => ¬ Discards cfg s e) (session cfg (pre ++ [e])) mid →
        Resumes cfg (session cfg (pre ++ e :: mid)) e' →
          streamTokens.Boundary (ptyChunks es).flatten (ptyChunks pre).flatten.length) := by
  have hend : ∀ pre (e : Event ε) mid, Discards cfg (session cfg pre) e →
      Along (step cfg) (fun s e => ¬ Discards cfg s e) (session cfg (pre ++ [e])) mid →
      (session cfg (pre ++ e :: mid)).sendLoopEnded = false →
      AfterRefresh (session cfg (pre ++ e :: mid)) →
        bufferStart (session cfg (pre ++ e :: mid)) = (ptyChunks pre).flatten.length := by
    intro pre e mid hdis hmid hl ha
    rw [session_append_cons] at hl ha ⊢
    rw [quiet_run hmid hl ha, session_snoc, discard_bufferStart hdis, session_ptyOutput]
  refine ⟨fun f hf a b hr => ?_, ?_⟩
  · rw [← session_ptyOutput cfg es]
    exact raw_frames_carry cfg es hf hr
  rw [resumesAtBoundary_iff]
  constructor
  · intro h pre e mid e' post hes hdis hmid hres
    obtain ⟨ha, g, a, b, hemit, hg⟩ := hres
    rw [← hend pre e mid hdis hmid (emission_running hemit) ha]
    exact h (pre ++ e :: mid) e' post (by simpa using hes) ⟨ha, g, a, b, hemit, hg⟩
  · intro h pre0 e' post hes hres
    obtain ⟨ha, g, a, b, hemit, hg⟩ := hres
    obtain ⟨pre, e, mid, rfl, hdis, hmid⟩ :=
      exists_last_discard pre0 (emission_running hemit) ha
    rw [hend pre e mid hdis hmid (emission_running hemit) ha]
    exact h pre e mid e' post (by simpa using hes) hdis hmid ⟨ha, g, a, b, hemit, hg⟩

theorem rationalTokens_refilled {n : Nat} (hn : n ≤ 600000) :
    (rationalTokens 6).refill ((rationalTokens 6).spend
      ((rationalTokens 6).refill (rationalTokens 6).burstCapacity 0) n) 100 =
        ((3072 : Nat) : ℚ) := by
  have hfull : (rationalTokens 6).refill (rationalTokens 6).burstCapacity 0 = 3072 := by
    decide +kernel
  have hrate : maxBytesPerSec 6 = 6144 := by decide +kernel
  have hn' : (n : ℚ) ≤ 600000 := by exact_mod_cast hn
  rw [hfull]
  simp only [rationalTokens, hrate]
  norm_num
  linarith

/-- After a flood of at most 512 KiB nothing comes for 100 seconds, then one line. -/
theorem line_after_flood {chunks : List Bytes} (line : Bytes)
    (hc : ∀ chunk ∈ chunks, chunk ≠ []) (hcap : maxPtyBufferCap < chunks.flatten.length)
    (hmost : chunks.flatten.length ≤ 524288) (hne : line ≠ []) (hshort : line.length ≤ 128) :
    ∃ f g, (session (recordingServer 6)
        (flood chunks 0 ++ [.ptyRead line, .tick 100 true])).sent = [f, g] ∧
      f.range = none ∧
      g.range = some (chunks.flatten.length, chunks.flatten.length + line.length) := by
  obtain ⟨frame, hframe⟩ : ∃ frame, generateAtomicScreenFrame recorder
      (24, 80, chunks.flatten) = some frame := ⟨_, recorder_frame _⟩
  have hlen : frame.length ≤ 600000 := by
    rw [recorder_frame, Option.some.injEq] at hframe
    have hone : (decimal 1).length = 1 := by decide
    simp only [← hframe, List.length_append, hone, List.length_cons, List.length_nil]
    omega
  have hf := hframe
  rw [← List.nil_append chunks.flatten, ← recorder_foldl] at hf
  obtain ⟨hidle, htok, hout, hsent⟩ := flood_idle (recordingServer 6) 0
    (s := Session.start (recordingServer 6)) hc hcap rfl rfl (by decide +kernel) hf
  rw [session_append, session]
  generalize run (step (recordingServer 6)) (Session.start (recordingServer 6))
    (flood chunks 0) = r at hidle htok hout hsent ⊢
  have hpay := (compressData_length_le (recordingServer 6).gzip frame).trans hlen
  have hfull : (recordingServer 6).arith.refill r.tokens 100 = ((3072 : Nat) : ℚ) := by
    rw [htok]
    exact rationalTokens_refilled hpay
  have hpaid : (recordingServer 6).arith.exhausted
      ((recordingServer 6).arith.refill r.tokens 100) = false := by
    rw [hfull]
    decide +kernel
  have hfits : line.length ≤ (recordingServer 6).arith.asUsize
      ((recordingServer 6).arith.refill r.tokens 100) := by
    have huse : (recordingServer 6).arith.asUsize ((3072 : Nat) : ℚ) = 3072 :=
      rationalTokens_asUsize 6 3072
    rw [hfull, huse]
    omega
  obtain ⟨-, -, hline⟩ := line_sent (recordingServer 6) hidle hne hshort hpaid hfits
  refine ⟨_, _, by rw [hline, hsent]; rfl, rfl, ?_⟩
  simp [Sent.range, hout, Session.start]

/-- Text up to the cap, then the first two bytes of a colour sequence and, after the refresh,
the rest of it. -/
def cutColour : List (Event ℚ) :=
  flood (fullReads 0x61 4 ++ [[0x1b, 0x5B]]) 0 ++ [.ptyRead [0x31, 0x6D, 0x58], .tick 100 true]

theorem fullReads_mem {b c : UInt8} {n : Nat} (h : c ∈ (fullReads b n).flatten) : c = b := by
  obtain ⟨chunk, hchunk, hc⟩ := List.mem_flatten.1 h
  rw [List.eq_of_mem_replicate hchunk] at hc
  exact List.eq_of_mem_replicate hc

theorem cutColour_not_boundary (plain : Bytes) (hp : ∀ b ∈ plain, b ≠ 0x1b) :
    ¬ streamTokens.Boundary (plain ++ [0x1b, 0x5B, 0x31, 0x6D, 0x58]) (plain.length + 2) := by
  intro h
  have hcut := h.sub (boundary_plain hp _) (Nat.le_add_right _ _)
  rw [List.drop_left, Nat.add_sub_cancel_left] at hcut
  have hnext := (Tokenizer.Boundary.start _).next_le hcut (by decide)
  exact absurd hnext (by decide)

theorem raw_resumes_inside_sequence :
    ¬ ResumesAtBoundary (ptyChunks cutColour).flatten
      (session (recordingServer 6) cutColour).sent := by
  intro h
  have hlen : (fullReads 0x61 4 ++ [[0x1b, 0x5B]]).flatten.length = 16386 := by
    rw [List.flatten_append, List.length_append, fullReads_length]
    rfl
  have hc : ∀ chunk ∈ fullReads 0x61 4 ++ [[0x1b, 0x5B]], chunk ≠ [] := by
    intro chunk hchunk
    rw [List.mem_append, List.mem_singleton] at hchunk
    cases hchunk with
    | inl hchunk => exact fullReads_ne_nil 0x61 4 chunk hchunk
    | inr hchunk => simp [hchunk]
  obtain ⟨f, g, hsent, hf, hg⟩ := line_after_flood [0x31, 0x6D, 0x58] hc
    (by rw [hlen]; decide) (by rw [hlen]; decide) (by simp) (by simp)
  have hb := h [] f [] g [] hsent hf (by simp) _ _ hg
  rw [hlen, cutColour, ptyChunks_flood _ hc, List.flatten_append, List.flatten_append,
    List.append_assoc] at hb
  have hplain : ∀ b ∈ (fullReads 0x61 4).flatten, b ≠ 0x1b := by
    intro b hb
    rw [fullReads_mem hb]
    decide
  refine cutColour_not_boundary _ hplain ?_
  rw [fullReads_length]
  exact hb

end MoshTcp.Server
