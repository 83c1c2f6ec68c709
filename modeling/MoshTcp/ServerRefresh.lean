import MoshTcp.ServerSteps

/-! What an atomic refresh shows. The emulator behind it has seen the bytes read since
it was created, and an accepted resize or handshake creates a new one. -/

set_option autoImplicit false

namespace MoshTcp.Server
open ByteOrder Protocol Runs

variable {σ τ ε : Type} {cfg : Config σ τ ε} {s : Session σ τ}

theorem step_fed (h : cfg.vt.Fed s.vtParser s.fed) (e : Event ε) :
    cfg.vt.Fed (step cfg s e).vtParser (step cfg s e).fed := by
  have hs := step_transition cfg s e
  generalize step cfg s e = s' at hs
  cases hs with
  | still => exact h
  | read chunk => exact h.process chunk
  | closed => exact h
  | ticked elapsed sendOk _ _ ht => cases ht <;> simpa [skipFrame, clearPending] using h
  | flushed => simp only [closeFlush]; split <;> exact h
  | resized packet rows cols => exact cfg.vt.fed_new _ _
  | input => exact h
  | left => exact h

theorem session_fed (cfg : Config σ τ ε) (es : List (Event ε)) :
    cfg.vt.Fed (session cfg es).vtParser (session cfg es).fed :=
  run_preserves (I := fun s : Session σ τ => cfg.vt.Fed s.vtParser s.fed) (cfg.vt.fed_new 24 80)
    (fun _ e h => step_fed h e) es

theorem step_ptyOutput_grows (cfg : Config σ τ ε) (s : Session σ τ) (e : Event ε) :
    s.ptyOutput <+: (step cfg s e).ptyOutput := by
  by_cases he : ∃ chunk, e = .ptyRead chunk
  · obtain ⟨chunk, rfl⟩ := he
    simp only [step, readPty]
    split
    · exact List.prefix_rfl
    · split
      · exact List.prefix_rfl
      · exact List.prefix_append _ _
  · rw [(step_readerFrame cfg s (by simpa using he)).1]

/-- Every refresh sent so far was drawn by an emulator that had been fed everything the
PTY had produced by then. -/
def RefreshesWhole (cfg : Config σ τ ε) (s : Session σ τ) : Prop :=
  ∀ f ∈ s.sent, ∀ n, f.origin = .refresh n → n ≤ s.ptyOutput.length ∧
    ∃ parser, cfg.vt.Fed parser (s.ptyOutput.take n) ∧
      generateAtomicScreenFrame cfg.vt parser = some f.raw

def BuildsRefresh (cfg : Config σ τ ε) (s : Session σ τ) (elapsed : ε) : Prop :=
  s.sendLoopEnded = false ∧
    cfg.arith.exhausted (cfg.arith.refill s.tokens elapsed) = false ∧ RefreshDue s

theorem step_refreshesWhole (h : RefreshesWhole cfg s)
    (hfed : cfg.vt.Fed s.vtParser s.fed) (e : Event ε)
    (he : ∀ elapsed, e = .tick elapsed true → BuildsRefresh cfg s elapsed →
      s.fed = s.ptyOutput) :
    RefreshesWhole cfg (step cfg s e) := by
  intro f hf n hn
  cases mem_step_sent.1 hf with
  | inl hold =>
    obtain ⟨hle, parser, hparser, hraw⟩ := h f hold n hn
    obtain ⟨more, hmore⟩ := step_ptyOutput_grows cfg s e
    rw [← hmore, List.take_append_of_le_length hle, List.length_append]
    exact ⟨by omega, parser, hparser, hraw⟩
  | inr hnew =>
    cases hnew with
    | refresh elapsed frame hl ht hp hraw =>
      obtain rfl : s.ptyOutput.length = n := by simpa using hn
      have hout : (step cfg s (.tick elapsed true)).ptyOutput = s.ptyOutput :=
        (step_readerFrame cfg s (by simp)).1
      rw [hout, List.take_length]
      refine ⟨Nat.le_refl _, s.vtParser, ?_, hraw⟩
      rw [← he elapsed rfl ⟨hl, ht, hp⟩]
      exact hfed
    | passThrough => simp at hn
    | flush => simp at hn

/-! ### Which resizes make the emulator forget -/

/-- A packet that replaces the emulator after the PTY has produced output. -/
def LateResize (cfg : Config σ τ ε) (s : Session σ τ) : Event ε → Prop
  | .clientPacket packet =>
    s.packetLoopEnded = false ∧ (resizes cfg packet).isSome ∧ s.ptyOutput ≠ []
  | _ => False

theorem step_fed_length_le (h : s.fed.length ≤ s.ptyOutput.length) (e : Event ε) :
    (step cfg s e).fed.length ≤ (step cfg s e).ptyOutput.length := by
  have hs := step_transition cfg s e
  generalize step cfg s e = s' at hs
  cases hs with
  | still => exact h
  | read chunk => simpa [received] using h
  | closed => exact h
  | ticked elapsed sendOk _ _ ht => cases ht <;> simpa [skipFrame, clearPending] using h
  | flushed => simp only [closeFlush]; split <;> exact h
  | resized => simp [resize]
  | input => exact h
  | left => exact h

theorem session_fed_length_le (cfg : Config σ τ ε) (es : List (Event ε)) :
    (session cfg es).fed.length ≤ (session cfg es).ptyOutput.length :=
  run_preserves (I := fun s : Session σ τ => s.fed.length ≤ s.ptyOutput.length) (Nat.le_refl _)
    (fun _ e h => step_fed_length_le h e) es

theorem handlePacket_fed (packet : Packet) :
    (handlePacket cfg s packet).fed = if (resizes cfg packet).isSome then [] else s.fed := by
  cases packet with
  | clientHandshake sessionKey rows cols =>
    by_cases hk : sessionKey ≠ "" ∧ sessionKey ≠ cfg.expectedKey
    · simp [handlePacket, resizes, hk]
    · simp only [handlePacket, resizes, if_neg hk]
      simp [resize]
  | _ => simp [handlePacket, resizes, resize]

/-- Only a late resize loses bytes, and what it loses never comes back. -/
theorem step_fed_eq_iff (hle : s.fed.length ≤ s.ptyOutput.length) (e : Event ε) :
    (step cfg s e).fed = (step cfg s e).ptyOutput ↔
      s.fed = s.ptyOutput ∧ ¬ LateResize cfg s e := by
  cases e with
  | ptyRead chunk =>
    simp only [step, readPty, LateResize, not_false_eq_true, and_true]
    split
    · rfl
    · split
      · rfl
      · exact List.append_left_inj chunk
  | tick elapsed sendOk =>
    have hs := tick_ticked cfg s elapsed sendOk
    simp only [step, LateResize, not_false_eq_true, and_true]
    generalize tick cfg s elapsed sendOk = s' at hs
    split
    · rfl
    · cases hs <;> simp [skipFrame, clearPending]
  | closeFlush sendOk =>
    simp only [step, closeFlush, LateResize, not_false_eq_true, and_true]
    split
    · split <;> rfl
    · rfl
  | clientPacket packet =>
    by_cases hl : s.packetLoopEnded = true
    · simp [step, LateResize, hl]
    · have hout : (handlePacket cfg s packet).ptyOutput = s.ptyOutput := by
        have h := (step_readerFrame cfg s (e := .clientPacket packet) (by simp)).1
        simpa [step, hl] using h
      by_cases hr : (resizes cfg packet).isSome
      · rw [step, if_neg hl, handlePacket_fed, hout, if_pos hr]
        constructor
        -- afterwards the emulator has seen nothing, so nothing must have been read at all
        · intro h
          have hfed : s.fed = [] := by simpa [← h] using hle
          simp [LateResize, ← h, hfed]
        · rintro ⟨-, hlate⟩
          simp [LateResize, hl, hr] at hlate
          exact hlate.symm
      · simp [step, LateResize, hl, hr, handlePacket_fed, hout]
  | clientEnd => simp [step, LateResize]
  | sendTaskDone =>
    simp only [step, LateResize, not_false_eq_true, and_true]
    split <;> rfl

theorem session_fed_eq_iff (cfg : Config σ τ ε) (es : List (Event ε)) :
    (session cfg es).fed = (session cfg es).ptyOutput ↔
      Along (step cfg) (fun s e => ¬ LateResize cfg s e) (Session.start cfg) es := by
  induction es using List.reverseRecOn with
  | nil => simp [session, Session.start, Along]
  | append_singleton es e ih =>
    rw [session_snoc, step_fed_eq_iff (session_fed_length_le cfg es), ih, along_append]
    simp [Along, session]

theorem session_refreshesWhole (cfg : Config σ τ ε) (es : List (Event ε))
    (h : ∀ pre elapsed post, es = pre ++ .tick elapsed true :: post →
      BuildsRefresh cfg (session cfg pre) elapsed →
        (session cfg pre).fed = (session cfg pre).ptyOutput) :
    RefreshesWhole cfg (session cfg es) := by
  have hcurrent : Along (step cfg) (fun s e => ∀ elapsed, e = .tick elapsed true →
      BuildsRefresh cfg s elapsed → s.fed = s.ptyOutput) (Session.start cfg) es := by
    refine along_iff_cut.2 fun pre e post hes elapsed he => ?_
    exact h pre elapsed post (he ▸ hes)
  have hstart : RefreshesWhole cfg (Session.start cfg) := by simp [RefreshesWhole, Session.start]
  refine (run_invariant (I := fun s => cfg.vt.Fed s.vtParser s.fed ∧ RefreshesWhole cfg s)
    ⟨cfg.vt.fed_new 24 80, hstart⟩ (fun s e hs he => ?_) hcurrent).2
  exact ⟨step_fed hs.1 e, step_refreshesWhole hs.2 hs.1 e he⟩

/-- Every refresh is drawn by an emulator that was fed exactly what the PTY had produced when
the tick that sends it was taken. -/
def ShowsWholeSession (cfg : Config σ τ ε) (es : List (Event ε)) : Prop :=
  ∀ pre e post, es = pre ++ e :: post →
    ∀ f ∈ (session cfg (pre ++ [e])).sent.drop (session cfg pre).sent.length,
      ∀ n, f.origin = .refresh n → n = (ptyChunks pre).flatten.length ∧
        ∃ parser, cfg.vt.History parser (ptyChunks pre).flatten ∧
          generateAtomicScreenFrame cfg.vt parser = some f.raw

theorem mem_sent_drop {es : List (Event ε)} {e : Event ε} {f : Sent} :
    f ∈ (session cfg (es ++ [e])).sent.drop (session cfg es).sent.length ↔
      Emission cfg (session cfg es) e f := by
  rw [session_snoc]
  constructor
  · intro hf
    cases step_sent cfg (session cfg es) e with
    | inl h => simp [h] at hf
    | inr h =>
      obtain ⟨g, hg, hs⟩ := h
      rw [hs, List.drop_left, List.mem_singleton] at hf
      exact hf ▸ hg
  · intro h
    rw [emission_sent h, List.drop_left]
    exact List.mem_singleton_self f

theorem refresh_shows_whole_session (cfg : Config σ τ ε)
    (hproc : ∀ parser chunk, ∃ next, cfg.vt.process parser chunk = .ok next)
    (es : List (Event ε))
    (h : ∀ pre elapsed post, es = pre ++ .tick elapsed true :: post →
      BuildsRefresh cfg (session cfg pre) elapsed →
        Along (step cfg) (fun s e => ¬ LateResize cfg s e) (Session.start cfg) pre) :
    ShowsWholeSession cfg es := by
  intro pre e post hes f hf n hn
  cases mem_sent_drop.1 hf with
  | refresh elapsed frame hl ht hp hraw =>
    have hall := (session_fed_eq_iff cfg pre).2 (h pre elapsed post hes ⟨hl, ht, hp⟩)
    have hfed := session_fed cfg pre
    rw [hall, session_ptyOutput] at hfed
    refine ⟨?_, _, hfed.toHistory hproc, hraw⟩
    rw [← session_ptyOutput cfg pre]
    exact (Origin.refresh.inj hn).symm
  | passThrough => simp at hn
  | flush => simp at hn

/-- Output between two ticks that no frame can carry: `chunks` overflow the buffer. -/
def flood (chunks : List Bytes) (elapsed : ε) : List (Event ε) :=
  chunks.map .ptyRead ++ [.tick elapsed true]

theorem run_flood_tick (cfg : Config σ τ ε) (s : Session σ τ) (chunks : List Bytes) (elapsed : ε) :
    run (step cfg) s (flood chunks elapsed) =
      step cfg (run (step cfg) s (chunks.map .ptyRead)) (.tick elapsed true) := by
  rw [flood, run_append, run_cons, run_nil]

theorem flood_overfull (cfg : Config σ τ ε) {chunks : List Bytes}
    (hc : ∀ chunk ∈ chunks, chunk ≠ []) (hcap : maxPtyBufferCap < chunks.flatten.length)
    (ho : s.ptyClosed = false) :
    maxPtyBufferCap < (run (step cfg) s (chunks.map .ptyRead)).ptyBuffer.length := by
  rw [run_reads cfg chunks hc ho, List.length_append]
  omega

theorem run_flood (cfg : Config σ τ ε) {chunks : List Bytes} (elapsed : ε) {frame : Bytes}
    (hc : ∀ chunk ∈ chunks, chunk ≠ []) (hcap : maxPtyBufferCap < chunks.flatten.length)
    (ho : s.ptyClosed = false) (hl : s.sendLoopEnded = false)
    (ht : cfg.arith.exhausted (cfg.arith.refill s.tokens elapsed) = false)
    (hf : generateAtomicScreenFrame cfg.vt
      (chunks.foldl cfg.vt.processSafely s.vtParser) = some frame) :
    run (step cfg) s (flood chunks elapsed) =
      transmit cfg (clearPending (checked cfg (run (step cfg) s (chunks.map .ptyRead)) elapsed))
        (.refresh (s.ptyOutput.length + chunks.flatten.length)) frame true := by
  have hr := run_reads cfg chunks hc ho
  have hdue := flood_overfull cfg hc hcap ho
  rw [run_flood_tick]
  generalize run (step cfg) s (chunks.map .ptyRead) = r at hr hdue ⊢
  have hrun : r.sendLoopEnded = false := by
    rw [hr]
    exact hl
  have hout : r.ptyOutput.length = s.ptyOutput.length + chunks.flatten.length := by
    rw [hr, List.length_append]
  rw [step_refresh hrun (by rw [hr]; exact ht) (.inr hdue) (by rw [hr]; exact hf) true, hout]

structure Idle (s : Session σ τ) : Prop where
  isOpen : s.ptyClosed = false
  running : s.sendLoopEnded = false
  noRefresh : s.pendingAtomicRefresh = false
  empty : s.ptyBuffer = []

/-- A flood that the tokens allow to answer: one refresh, and an empty buffer. -/
theorem flood_idle (cfg : Config σ τ ε) {chunks : List Bytes} (elapsed : ε) {frame : Bytes}
    (hc : ∀ chunk ∈ chunks, chunk ≠ []) (hcap : maxPtyBufferCap < chunks.flatten.length)
    (ho : s.ptyClosed = false) (hl : s.sendLoopEnded = false)
    (ht : cfg.arith.exhausted (cfg.arith.refill s.tokens elapsed) = false)
    (hf : generateAtomicScreenFrame cfg.vt
      (chunks.foldl cfg.vt.processSafely s.vtParser) = some frame) :
    Idle (run (step cfg) s (flood chunks elapsed)) ∧
      (run (step cfg) s (flood chunks elapsed)).tokens =
        cfg.arith.spend (cfg.arith.refill s.tokens elapsed)
          (compressData cfg.gzip frame).1.length ∧
      (run (step cfg) s (flood chunks elapsed)).ptyOutput = s.ptyOutput ++ chunks.flatten ∧
      (run (step cfg) s (flood chunks elapsed)).sent =
        s.sent ++ [⟨.refresh (s.ptyOutput.length + chunks.flatten.length), frame,
          framePacket cfg (s.seq + 1) frame⟩] := by
  rw [run_flood cfg elapsed hc hcap ho hl ht hf, run_reads cfg chunks hc ho]
  refine ⟨⟨?_, ?_, ?_, ?_⟩, ?_, ?_, ?_⟩
  · simpa [clearPending] using ho
  · simpa [transmit, clearPending] using hl
  · simp [clearPending]
  · simp [clearPending]
  · simp [transmit, clearPending]
  · simp [clearPending]
  · simp [transmit, clearPending]

theorem flood_no_late_resize (cfg : Config σ τ ε) (s : Session σ τ) (chunks : List Bytes)
    (elapsed : ε) :
    Along (step cfg) (fun s e => ¬ LateResize cfg s e) s (flood chunks elapsed) := by
  refine along_of_forall fun s e he => ?_
  simp only [flood, List.mem_append, List.mem_map, List.mem_singleton] at he
  rcases he with ⟨chunk, -, rfl⟩ | rfl <;> simp [LateResize]

theorem ptyChunks_reads (chunks : List Bytes) (hc : ∀ chunk ∈ chunks, chunk ≠ [])
    (es : List (Event ε)) : ptyChunks (chunks.map .ptyRead ++ es) = chunks ++ ptyChunks es := by
  induction chunks with
  | nil => rfl
  | cons chunk chunks ih =>
    cases chunk with
    | nil => exact absurd rfl (hc [] (by simp))
    | cons b bs => exact congrArg ((b :: bs) :: ·) (ih fun c h => hc c (by simp [h]))

theorem ptyChunks_flood (chunks : List Bytes) (hc : ∀ chunk ∈ chunks, chunk ≠ []) (elapsed : ε)
    (es : List (Event ε)) : ptyChunks (flood chunks elapsed ++ es) = chunks ++ ptyChunks es := by
  rw [flood, List.append_assoc]
  exact ptyChunks_reads chunks hc _

def earlyHandshake : List (Event ℚ) :=
  [.clientPacket (.clientHandshake "k" 24 80), .ptyRead [0x61]]

theorem earlyHandshake_no_late_resize (es : List (Event ℚ))
    (h : ∀ s, Along (step (recordingServer 6))
      (fun s e => ¬ LateResize (recordingServer 6) s e) s es) :
    Along (step (recordingServer 6)) (fun s e => ¬ LateResize (recordingServer 6) s e)
      (Session.start (recordingServer 6)) (earlyHandshake ++ es) :=
  ⟨by simp [LateResize, Session.start], by simp [LateResize], h _⟩

theorem refresh_shows_whole_session_after_handshake :
    Along (step (recordingServer 6)) (fun s e => ¬ LateResize (recordingServer 6) s e)
      (Session.start (recordingServer 6)) (earlyHandshake ++ flood (fullReads 0x07 5) 0) ∧
    ShowsWholeSession (recordingServer 6) (earlyHandshake ++ flood (fullReads 0x07 5) 0) := by
  have hall := earlyHandshake_no_late_resize (flood (fullReads 0x07 5) 0) fun s =>
    flood_no_late_resize _ s _ _
  refine ⟨hall, refresh_shows_whole_session (recordingServer 6) recorder_process _ ?_⟩
  intro pre elapsed post hes _
  exact (along_append.1 (hes ▸ hall)).1

def lateResize : List (Event ℚ) := [.ptyRead [0x61], .clientPacket (.clientResize 24 80)]

/-- The flood's refresh is drawn by an emulator that has never seen the first output. -/
theorem lateResize_flood_emission {chunks : List Bytes} (hc : ∀ chunk ∈ chunks, chunk ≠ [])
    (hcap : maxPtyBufferCap < chunks.flatten.length) :
    ∃ f n, Emission (recordingServer 6)
        (session (recordingServer 6) (lateResize ++ chunks.map .ptyRead)) (.tick 0 true) f ∧
      f.origin = .refresh n ∧
      generateAtomicScreenFrame recorder (24, 80, chunks.flatten) = some f.raw := by
  obtain ⟨frame, hframe⟩ : ∃ frame, generateAtomicScreenFrame recorder
      (24, 80, chunks.flatten) = some frame := ⟨_, recorder_frame _⟩
  have hdrawn := hframe
  rw [← List.nil_append chunks.flatten, ← recorder_foldl] at hdrawn
  have hpaid : (rationalTokens 6).exhausted
      ((rationalTokens 6).refill (rationalTokens 6).burstCapacity 0) = false := by decide +kernel
  rw [session, run_append, run_reads (recordingServer 6) chunks hc
    (s := run (step (recordingServer 6)) (Session.start (recordingServer 6)) lateResize) rfl]
  refine ⟨_, _, .refresh 0 frame rfl hpaid (.inr ?_) hdrawn, rfl, hframe⟩
  rw [List.length_append]
  exact Nat.lt_add_left _ hcap

theorem lateResize_forgets {chunks : List Bytes} (hc : ∀ chunk ∈ chunks, chunk ≠ [])
    (hcap : maxPtyBufferCap < chunks.flatten.length) :
    ¬ ShowsWholeSession (recordingServer 6) (lateResize ++ flood chunks 0) := by
  intro h
  obtain ⟨f, n, hf, horigin, hraw⟩ := lateResize_flood_emission hc hcap
  obtain ⟨-, parser, hhist, hframe⟩ := h (lateResize ++ chunks.map .ptyRead) (.tick 0 true) []
    (by simp [flood]) f (mem_sent_drop.2 hf) n horigin
  have hseen := recorder_frame_injective (hframe.trans hraw.symm)
  have hreads : ptyChunks (chunks.map .ptyRead : List (Event ℚ)) = chunks := by
    simpa [ptyChunks] using ptyChunks_reads chunks hc ([] : List (Event ℚ))
  have hchunks : ptyChunks (lateResize ++ chunks.map .ptyRead : List (Event ℚ)) =
      [0x61] :: chunks :=
    congrArg ([0x61] :: ·) hreads
  rw [recorder_history hhist, hchunks] at hseen
  have hlen := congrArg List.length hseen
  simp at hlen

/-- The flood is of bell characters, which leave the screen of any terminal as it is. -/
theorem refresh_forgets_first_output :
    ¬ ShowsWholeSession (recordingServer 6) (lateResize ++ flood (fullReads 0x07 5) 0) :=
  lateResize_forgets (fullReads_ne_nil 0x07 5) (by rw [fullReads_length]; decide)

end MoshTcp.Server
