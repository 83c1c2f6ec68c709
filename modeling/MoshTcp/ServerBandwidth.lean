import MoshTcp.ServerSteps
import MoshTcp.Lib.TokenBucket

/-! The bandwidth cap of the send loop, over exact rationals. A window of the session is
a window of the token bucket: ticks refill it, a pass-through frame spends at most what
is there, and only an atomic refresh may overdraw it. -/

set_option autoImplicit false

namespace MoshTcp.Server
open ByteOrder Protocol Ansi Runs

variable {σ τ ε : Type}

/-- Payload of the frames that ticks have sent; the flush at the end is none of them. -/
def tickPayload (sent : List Sent) : Nat :=
  (sent.map fun f => match f.origin with
    | .flush _ => 0
    | _ => f.payload).sum

def refreshPayload (sent : List Sent) : Nat :=
  (sent.map fun f => match f.origin with
    | .refresh _ => f.payload
    | _ => 0).foldl max 0

def elapsedTotal (es : List (Event ℚ)) : ℚ :=
  (es.map fun
    | .tick elapsed _ => elapsed
    | _ => 0).sum

theorem step_tokens (cfg : Config σ τ ε) (s : Session σ τ) (e : Event ε) :
    ((step cfg s e).tokens = s.tokens ∧ ((step cfg s e).sent = s.sent ∨
      ∃ f start, f.origin = .flush start ∧ (step cfg s e).sent = s.sent ++ [f])) ∨
    (∃ elapsed sendOk, e = .tick elapsed sendOk ∧ (step cfg s e).sent = s.sent ∧
      (step cfg s e).tokens = cfg.arith.refill s.tokens elapsed) ∨
    ∃ elapsed f, e = .tick elapsed true ∧ Emission cfg s e f ∧
      (step cfg s e).sent = s.sent ++ [f] ∧
      (step cfg s e).tokens = cfg.arith.spend (cfg.arith.refill s.tokens elapsed) f.payload := by
  have hs := step_transition cfg s e
  generalize step cfg s e = s' at hs
  cases hs with
  | ticked elapsed sendOk _ hl ht =>
    cases ticked_sent hl ht with
    | inl h => exact .inr (.inl ⟨elapsed, sendOk, rfl, h⟩)
    | inr h =>
      obtain ⟨f, hf, h⟩ := h
      cases sendOk with
      | false => cases hf
      | true => exact .inr (.inr ⟨elapsed, f, rfl, hf, h⟩)
  | flushed sendOk hc hl =>
    refine .inl ?_
    by_cases hb : s.ptyBuffer = []
    · simp [closeFlush, hb]
    · cases sendOk with
      | false => simp [closeFlush, hb]
      | true =>
        refine ⟨by simp [closeFlush, hb], .inr ⟨⟨.flush (s.ptyOutput.length - s.ptyBuffer.length),
          s.ptyBuffer, framePacket cfg (s.seq + 1) s.ptyBuffer⟩, _, rfl, ?_⟩⟩
        simp [closeFlush, hb]
  | _ => exact .inl ⟨rfl, .inl rfl⟩

section Rational
variable {vt : Vt100 σ} {gz : Gzip} {key : String} {maxKbps : UInt64} {s : Session σ ℚ}

theorem emission_payload_le {cfg : Config σ τ ε} {s : Session σ τ} {e : Event ε} {f : Sent}
    (h : Emission cfg s e f) : f.payload ≤ f.raw.length := by
  cases h with
  | refresh elapsed frame => exact compressData_length_le _ _
  | passThrough elapsed n => exact compressData_length_le _ _
  | flush => exact compressData_length_le _ _

theorem emission_not_exhausted {cfg : Config σ τ ε} {s : Session σ τ} {elapsed : ε} {f : Sent}
    (h : Emission cfg s (.tick elapsed true) f) :
    cfg.arith.exhausted (cfg.arith.refill s.tokens elapsed) = false := by
  cases h with
  | refresh _ frame hl ht => exact ht
  | passThrough _ n hl ht => exact ht

theorem passThrough_raw_le {cfg : Config σ τ ε} {s : Session σ τ} {elapsed : ε} {f : Sent}
    {start : Nat} (h : Emission cfg s (.tick elapsed true) f)
    (hf : f.origin = .passThrough start) :
    f.raw.length ≤ cfg.arith.asUsize (cfg.arith.refill s.tokens elapsed) := by
  cases h with
  | refresh => simp at hf
  | passThrough _ n hl ht hp hn =>
    have hsplit := (findSafeSplitPoint_le s.ptyBuffer
      (cfg.arith.asUsize (cfg.arith.refill s.tokens elapsed))).1
    have htake := List.length_take_le n s.ptyBuffer
    exact htake.trans (hn ▸ hsplit)

theorem emission_tokens_pos {elapsed : ℚ} {f : Sent}
    (h : Emission (rationalServer vt gz key maxKbps) s (.tick elapsed true) f) :
    0 < (rationalTokens maxKbps).refill s.tokens elapsed := by
  by_contra hneg
  have hx := (rationalTokens_exhausted maxKbps _).2 (not_lt.1 hneg)
  exact absurd (emission_not_exhausted h) (by simp [rationalServer, hx])

theorem passThrough_payload_le {elapsed : ℚ} {f : Sent} {start : Nat}
    (h : Emission (rationalServer vt gz key maxKbps) s (.tick elapsed true) f)
    (hf : f.origin = .passThrough start) :
    (f.payload : ℚ) ≤ (rationalTokens maxKbps).refill s.tokens elapsed := by
  have hpos := emission_tokens_pos h
  have hle : f.payload ≤ ⌊(rationalTokens maxKbps).refill s.tokens elapsed⌋.toNat :=
    (emission_payload_le h).trans (passThrough_raw_le h hf)
  have hfloor : 0 ≤ ⌊(rationalTokens maxKbps).refill s.tokens elapsed⌋ :=
    Int.floor_nonneg.2 hpos.le
  calc (f.payload : ℚ)
      ≤ ((⌊(rationalTokens maxKbps).refill s.tokens elapsed⌋.toNat : ℤ) : ℚ) := by
        exact_mod_cast hle
    _ = (⌊(rationalTokens maxKbps).refill s.tokens elapsed⌋ : ℚ) := by
        rw [Int.toNat_of_nonneg hfloor]
    _ ≤ (rationalTokens maxKbps).refill s.tokens elapsed := Int.floor_le _

theorem maxBytesPerSec_eq (h : 1024 * maxKbps.toNat < 2 ^ 64) :
    maxBytesPerSec maxKbps = 1024 * maxKbps.toNat := by
  have hw : (maxKbps * 1024).toNat = 1024 * maxKbps.toNat := by
    rw [UInt64.toNat_mul]
    simp only [UInt64.reduceToNat]
    omega
  rw [maxBytesPerSec, hw]
  push_cast
  rfl

theorem tickPayload_snoc (sent : List Sent) (f : Sent) :
    tickPayload (sent ++ [f]) = tickPayload sent + match f.origin with
      | .flush _ => 0
      | _ => f.payload := by
  simp [tickPayload]

theorem refreshPayload_snoc (sent : List Sent) (f : Sent) :
    refreshPayload (sent ++ [f]) = max (refreshPayload sent) (match f.origin with
      | .refresh _ => f.payload
      | _ => 0) := by
  simp [refreshPayload]

/-- The window of the bucket that belongs to the frames `sent` and the time `elapsed`. -/
def BucketWindow (maxKbps : UInt64) (start : ℚ) (elapsed : ℚ) (sent : List Sent)
    (tokens : ℚ) : Prop :=
  TokenBucket.Window (rationalTokens maxKbps).burstCapacity start
    (maxBytesPerSec maxKbps * elapsed) (tickPayload sent) (refreshPayload sent) tokens

theorem maxBytesPerSec_nonneg (maxKbps : UInt64) : 0 ≤ maxBytesPerSec maxKbps := by
  simp [maxBytesPerSec]

theorem BucketWindow.wait {start total elapsed tokens : ℚ} {sent : List Sent}
    (h : BucketWindow maxKbps start total sent tokens) (he : 0 ≤ elapsed) :
    BucketWindow maxKbps start (total + elapsed) sent tokens := by
  unfold BucketWindow
  rw [mul_add]
  exact TokenBucket.Window.wait h (mul_nonneg (maxBytesPerSec_nonneg maxKbps) he)

theorem BucketWindow.tick {start total elapsed tokens : ℚ} {sent : List Sent}
    (h : BucketWindow maxKbps start total sent tokens) (he : 0 ≤ elapsed) :
    BucketWindow maxKbps start (total + elapsed) sent
      ((rationalTokens maxKbps).refill tokens elapsed) := by
  unfold BucketWindow
  rw [mul_add]
  exact h.refill (mul_nonneg (maxBytesPerSec_nonneg maxKbps) he)

theorem BucketWindow.snoc_flush {start total tokens : ℚ} {sent : List Sent} {f : Sent} {n : Nat}
    (h : BucketWindow maxKbps start total sent tokens) (hf : f.origin = .flush n) :
    BucketWindow maxKbps start total (sent ++ [f]) tokens := by
  simpa [BucketWindow, tickPayload_snoc, refreshPayload_snoc, hf] using h

theorem BucketWindow.snoc_passThrough {start total tokens : ℚ} {sent : List Sent} {f : Sent}
    {n : Nat} (h : BucketWindow maxKbps start total sent tokens) (hf : f.origin = .passThrough n)
    (hle : (f.payload : ℚ) ≤ tokens) :
    BucketWindow maxKbps start total (sent ++ [f]) (tokens - f.payload) := by
  have hw := TokenBucket.Window.spend h (Nat.cast_nonneg f.payload) hle
  simpa [BucketWindow, tickPayload_snoc, refreshPayload_snoc, hf] using hw

theorem BucketWindow.snoc_refresh {start total tokens : ℚ} {sent : List Sent} {f : Sent}
    {n : Nat} (h : BucketWindow maxKbps start total sent tokens) (hf : f.origin = .refresh n)
    (hpos : 0 ≤ tokens) :
    BucketWindow maxKbps start total (sent ++ [f]) (tokens - f.payload) := by
  have hw := TokenBucket.Window.overdraw h (Nat.cast_nonneg f.payload) hpos
  simpa [BucketWindow, tickPayload_snoc, refreshPayload_snoc, hf] using hw

theorem step_bucketWindow {start total : ℚ} {before sent : List Sent} (e : Event ℚ)
    (hsent : s.sent = before ++ sent) (h : BucketWindow maxKbps start total sent s.tokens)
    (he : ∀ elapsed sendOk, e = .tick elapsed sendOk → 0 ≤ elapsed) :
    ∃ sent', (step (rationalServer vt gz key maxKbps) s e).sent = before ++ sent' ∧
      BucketWindow maxKbps start (total + elapsedTotal [e]) sent'
        (step (rationalServer vt gz key maxKbps) s e).tokens := by
  have hnonneg : 0 ≤ elapsedTotal [e] := by
    cases e with
    | tick elapsed sendOk => simpa [elapsedTotal] using he elapsed sendOk rfl
    | _ => simp [elapsedTotal]
  -- tokens untouched, only refilled, or refilled and spent on the frame `f`
  obtain ⟨htok, hkept⟩ | ⟨elapsed, sendOk, rfl, hs, htok⟩ | ⟨elapsed, f, rfl, hf, hs, htok⟩ :=
    step_tokens (rationalServer vt gz key maxKbps) s e
  · rw [htok]
    cases hkept with
    | inl hs => exact ⟨sent, hs.trans hsent, h.wait hnonneg⟩
    | inr hflush =>
      obtain ⟨f, n, hf, hs⟩ := hflush
      refine ⟨sent ++ [f], ?_, (h.wait hnonneg).snoc_flush hf⟩
      rw [hs, hsent, List.append_assoc]
  · rw [htok, hs]
    have htotal : elapsedTotal [Event.tick elapsed sendOk] = elapsed := by simp [elapsedTotal]
    rw [htotal]
    exact ⟨sent, hsent, h.tick (he elapsed sendOk rfl)⟩
  · have hpos := emission_tokens_pos hf
    have ht := h.tick (he elapsed true rfl)
    refine ⟨sent ++ [f], by rw [hs, hsent, List.append_assoc], ?_⟩
    have htotal : elapsedTotal [Event.tick elapsed true] = elapsed := by simp [elapsedTotal]
    rw [htok, htotal]
    cases horigin : f.origin with
    | refresh n => exact ht.snoc_refresh horigin hpos.le
    | passThrough n => exact ht.snoc_passThrough horigin (passThrough_payload_le hf horigin)
    | flush n => cases hf <;> simp at horigin

theorem session_bucketWindow (vt : Vt100 σ) (gz : Gzip) (key : String) (pre es : List (Event ℚ))
    (hcap : (session (rationalServer vt gz key maxKbps) pre).tokens ≤
      (rationalTokens maxKbps).burstCapacity)
    (he : ∀ elapsed sendOk, .tick elapsed sendOk ∈ es → 0 ≤ elapsed) :
    ∃ sent, (session (rationalServer vt gz key maxKbps) (pre ++ es)).sent =
        (session (rationalServer vt gz key maxKbps) pre).sent ++ sent ∧
      BucketWindow maxKbps (session (rationalServer vt gz key maxKbps) pre).tokens
        (elapsedTotal es) sent (session (rationalServer vt gz key maxKbps) (pre ++ es)).tokens := by
  induction es using List.reverseRecOn with
  | nil =>
    refine ⟨[], by simp, ?_⟩
    simpa [BucketWindow, elapsedTotal, tickPayload, refreshPayload] using
      TokenBucket.Window.begin hcap
  | append_singleton es e ih =>
    obtain ⟨sent, hsent, hw⟩ := ih fun elapsed sendOk hm => he elapsed sendOk (by simp [hm])
    rw [← List.append_assoc, session_snoc]
    have htotal : elapsedTotal (es ++ [e]) = elapsedTotal es + elapsedTotal [e] := by
      simp [elapsedTotal]
    rw [htotal]
    exact step_bucketWindow e hsent hw fun elapsed sendOk hm =>
      he elapsed sendOk (by simp [hm])

theorem session_tokens_le (es : List (Event ℚ))
    (he : ∀ elapsed sendOk, .tick elapsed sendOk ∈ es → 0 ≤ elapsed) :
    (session (rationalServer vt gz key maxKbps) es).tokens ≤
      (rationalTokens maxKbps).burstCapacity := by
  obtain ⟨sent, -, hw⟩ := session_bucketWindow vt gz key [] es
    (le_refl (rationalTokens maxKbps).burstCapacity) he
  exact hw.le_capacity

def sentBetween (before after : Session σ τ) : List Sent := after.sent.drop before.sent.length

theorem step_sent_of_nonpos (elapsed : ℚ) (sendOk : Bool)
    (h : (rationalTokens maxKbps).refill s.tokens elapsed ≤ 0) :
    (step (rationalServer vt gz key maxKbps) s (.tick elapsed sendOk)).sent = s.sent := by
  cases step_sent (rationalServer vt gz key maxKbps) s (.tick elapsed sendOk) with
  | inl hs => exact hs
  | inr hs =>
    obtain ⟨f, hf, -⟩ := hs
    cases sendOk with
    | false => cases hf
    | true => exact absurd h (not_le.2 (emission_tokens_pos hf))

theorem step_passThrough_paid (elapsed : ℚ) (sendOk : Bool) (f : Sent)
    (hmem : f ∈ sentBetween s
      (step (rationalServer vt gz key maxKbps) s (.tick elapsed sendOk))) (start : Nat)
    (horigin : f.origin = .passThrough start) :
    (f.payload : ℚ) ≤ (rationalTokens maxKbps).refill s.tokens elapsed ∧
      0 ≤ (step (rationalServer vt gz key maxKbps) s (.tick elapsed sendOk)).tokens := by
  obtain ⟨-, hs | ⟨g, n, hg, hs⟩⟩ | ⟨_, _, -, hs, -⟩ | ⟨elapsed', g, he, hg, hs, htok⟩ :=
    step_tokens (rationalServer vt gz key maxKbps) s (.tick elapsed sendOk)
  · simp [sentBetween, hs] at hmem
  · obtain rfl : f = g := by simpa [sentBetween, hs] using hmem
    simp [hg] at horigin
  · simp [sentBetween, hs] at hmem
  · obtain ⟨rfl, rfl⟩ : elapsed = elapsed' ∧ sendOk = true := by simpa using he
    obtain rfl : f = g := by simpa [sentBetween, hs] using hmem
    have hle := passThrough_payload_le hg horigin
    refine ⟨hle, ?_⟩
    rw [htok]
    exact sub_nonneg.2 hle

theorem bandwidth_cap (vt : Vt100 σ) (gz : Gzip) (key : String) (maxKbps : UInt64)
    (hk : 1024 * maxKbps.toNat < 2 ^ 64) (pre es : List (Event ℚ))
    (he : ∀ elapsed sendOk, .tick elapsed sendOk ∈ pre ++ es → 0 ≤ elapsed) :
    let cfg := rationalServer vt gz key maxKbps
    let window := sentBetween (session cfg pre) (session cfg (pre ++ es))
    (tickPayload window : ℚ) ≤ cfg.arith.burstCapacity +
        1024 * maxKbps.toNat * elapsedTotal es + refreshPayload window ∧
      (session cfg pre).tokens ≤ cfg.arith.burstCapacity ∧
      ∀ elapsed sendOk,
        (cfg.arith.refill (session cfg pre).tokens elapsed ≤ 0 →
          (session cfg (pre ++ [.tick elapsed sendOk])).sent = (session cfg pre).sent) ∧
        ∀ f ∈ sentBetween (session cfg pre) (session cfg (pre ++ [.tick elapsed sendOk])),
          ∀ start, f.origin = .passThrough start →
            (f.payload : ℚ) ≤ cfg.arith.refill (session cfg pre).tokens elapsed ∧
            0 ≤ (session cfg (pre ++ [.tick elapsed sendOk])).tokens := by
  intro cfg window
  have hcap : (session cfg pre).tokens ≤ cfg.arith.burstCapacity :=
    session_tokens_le pre fun elapsed sendOk hm => he elapsed sendOk (by simp [hm])
  refine ⟨?_, hcap, ?_⟩
  · obtain ⟨sent, hsent, hw⟩ := session_bucketWindow vt gz key pre es hcap
      fun elapsed sendOk hm => he elapsed sendOk (by simp [hm])
    have hwindow : window = sent := by
      simp only [window, sentBetween]
      rw [hsent, List.drop_left]
    have hb : (0 : ℚ) ≤ (rationalTokens maxKbps).burstCapacity :=
      le_trans (by norm_num) (le_max_right _ 2048)
    rw [hwindow, ← maxBytesPerSec_eq hk]
    exact hw.spent_le hb
  · intro elapsed sendOk
    rw [session_snoc]
    exact ⟨step_sent_of_nonpos elapsed sendOk, step_passThrough_paid elapsed sendOk⟩

theorem bandwidth_cap_one_line :
    let run := [Event.ptyRead [0x68, 0x69], .tick (1 / 50 : ℚ) true]
    let window := sentBetween (session (recordingServer 6) []) (session (recordingServer 6) run)
    (tickPayload window : ℚ) ≤ (rationalTokens 6).burstCapacity +
      1024 * (6 : UInt64).toNat * elapsedTotal run + refreshPayload window :=
  (bandwidth_cap recorder .failing "k" 6 (by decide) []
    [.ptyRead [0x68, 0x69], .tick (1 / 50) true] (by simp)).1

end Rational

end MoshTcp.Server
