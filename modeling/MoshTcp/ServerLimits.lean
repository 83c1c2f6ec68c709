import MoshTcp.ServerDelivery
import MoshTcp.ServerResume
import MoshTcp.Codec
import MoshTcp.NativeReceive

/-! The frames of a session against the fixed buffers of the C and C++ clients. A frame
is built in three places; only the pass-through one is bounded by the buffer cap. -/

set_option autoImplicit false

namespace MoshTcp.Server
open ByteOrder Protocol Ansi Runs

variable {σ τ ε : Type} {cfg : Config σ τ ε} {s : Session σ τ}

def decompressBufferSize : Nat := 256 * 1024

/-- A packet that the receive buffer and the decompression buffer can hold. -/
def Renderable (gz : Gzip) (p : Packet) : Prop :=
  (PacketCodec.encode p).length ≤ Native.bufferSize ∧
    ∀ out, rendered gz p = some out → out.length ≤ decompressBufferSize

/-- The same for the bytes handed to `compress_data`: 18 bytes of every frame are header. -/
def WithinClientBuffers (gz : Gzip) (raw : Bytes) : Prop :=
  18 + (compressData gz raw).1.length ≤ Native.bufferSize ∧ raw.length ≤ decompressBufferSize

theorem encode_framePacket_length (seq : UInt64) (raw : Bytes) :
    (PacketCodec.encode (framePacket cfg seq raw)).length =
      18 + (compressData cfg.gzip raw).1.length := by
  simp [PacketCodec.encode, framePacket, Packet.serialize, beBytes_length]
  omega

theorem renderable_framePacket (hgz : cfg.gzip.Inverts) (seq : UInt64) (raw : Bytes) :
    Renderable cfg.gzip (framePacket cfg seq raw) ↔ WithinClientBuffers cfg.gzip raw := by
  simp [Renderable, WithinClientBuffers, encode_framePacket_length, rendered_framePacket hgz]

theorem withinClientBuffers_of_le_cap (gz : Gzip) {raw : Bytes}
    (h : raw.length ≤ maxPtyBufferCap) : WithinClientBuffers gz raw := by
  have hc := compressData_length_le gz raw
  unfold maxPtyBufferCap at h
  unfold WithinClientBuffers Native.bufferSize decompressBufferSize
  omega

/-- The refresh of a tick, and the buffer that is flushed, fit the native clients. -/
def FitsClients (cfg : Config σ τ ε) (s : Session σ τ) : Event ε → Prop
  | .tick elapsed sendOk =>
    sendOk = true → s.sendLoopEnded = false →
      cfg.arith.exhausted (cfg.arith.refill s.tokens elapsed) = false → RefreshDue s →
      ∀ frame, generateAtomicScreenFrame cfg.vt s.vtParser = some frame →
        WithinClientBuffers cfg.gzip frame
  | .closeFlush sendOk =>
    sendOk = true → s.ptyClosed = true → s.sendLoopEnded = false →
      WithinClientBuffers cfg.gzip s.ptyBuffer
  | _ => True

theorem emission_renderable_iff (hgz : cfg.gzip.Inverts) (s : Session σ τ) (e : Event ε) :
    (∀ f, Emission cfg s e f → Renderable cfg.gzip f.packet) ↔ FitsClients cfg s e := by
  constructor
  · intro h
    cases e with
    | tick elapsed sendOk =>
      rintro rfl hl ht hp frame hf
      have hr := h _ (.refresh elapsed frame hl ht hp hf)
      exact (renderable_framePacket hgz (s.seq + 1) frame).1 hr
    | closeFlush sendOk =>
      rintro rfl hc hl
      by_cases hb : s.ptyBuffer = []
      · exact withinClientBuffers_of_le_cap _ (by simp [hb])
      · have hr := h _ (.flush hc hl hb)
        exact (renderable_framePacket hgz (s.seq + 1) s.ptyBuffer).1 hr
    | ptyRead chunk => trivial
    | clientPacket packet => trivial
    | clientEnd => trivial
    | sendTaskDone => trivial
  · intro h f hf
    cases hf with
    | refresh elapsed frame hl ht hp hf =>
      exact (renderable_framePacket hgz (s.seq + 1) frame).2 (h rfl hl ht hp frame hf)
    | passThrough elapsed n hl ht hp =>
      have hcap : s.ptyBuffer.length ≤ maxPtyBufferCap :=
        Nat.le_of_not_lt fun hb => hp (.inr hb)
      refine (renderable_framePacket hgz (s.seq + 1) (s.ptyBuffer.take n)).2
        (withinClientBuffers_of_le_cap _ ?_)
      exact (List.length_take_le' n s.ptyBuffer).trans hcap
    | flush hc hl =>
      exact (renderable_framePacket hgz (s.seq + 1) s.ptyBuffer).2 (h rfl hc hl)

theorem frames_renderable_iff (cfg : Config σ τ ε) (hgz : cfg.gzip.Inverts)
    (es : List (Event ε)) :
    (∀ f ∈ (session cfg es).sent, Renderable cfg.gzip f.packet) ↔
      Along (step cfg) (FitsClients cfg) (Session.start cfg) es := by
  rw [forall_sent_iff cfg fun f => Renderable cfg.gzip f.packet]
  simp only [emission_renderable_iff hgz]

theorem short_session_fits {es : List (Event ℚ)} (h : (ptyChunks es).flatten.length ≤ 65000) :
    Along (step (recordingServer 6)) (FitsClients (recordingServer 6))
      (Session.start (recordingServer 6)) es := by
  refine along_iff_cut.2 fun pre e post hes => ?_
  have hout : (session (recordingServer 6) pre).ptyOutput.length ≤ 65000 := by
    refine (session_ptyOutput_grows _ pre (e :: post)).length_le.trans ?_
    rwa [session_ptyOutput, ← hes]
  have hfed : (session (recordingServer 6) pre).vtParser.2.2.length ≤ 65000 := by
    rw [recorder_history ((session_fed (recordingServer 6) pre).toHistory recorder_process)]
    exact (session_fed_length_le (recordingServer 6) pre).trans hout
  have hbuf := (session_buffer_suffix (recordingServer 6) pre).length_le.trans hout
  have hwithin : ∀ raw : Bytes, raw.length ≤ 65100 →
      WithinClientBuffers (recordingServer 6).gzip raw := by
    intro raw hraw
    have hc := compressData_length_le (recordingServer 6).gzip raw
    unfold WithinClientBuffers Native.bufferSize decompressBufferSize
    omega
  change FitsClients _ (session (recordingServer 6) pre) e
  cases e with
  | tick elapsed sendOk =>
    intro _ _ _ _ frame hframe
    refine hwithin frame ?_
    have hone : (decimal 1).length = 1 := by decide
    obtain rfl := Option.some.inj ((recorder_frame _).symm.trans hframe)
    simp only [List.length_append, hone, List.length_cons, List.length_nil]
    omega
  | closeFlush sendOk => exact fun _ _ _ => hwithin _ (hbuf.trans (by decide))
  | ptyRead chunk => trivial
  | clientPacket packet => trivial
  | clientEnd => trivial
  | sendTaskDone => trivial

/-- A shell that exits before the next tick: everything it printed since is one frame. -/
theorem reads_then_exit_sent (cfg : Config σ τ ε) (h : Idle s) (chunks : List Bytes)
    (hc : ∀ chunk ∈ chunks, chunk ≠ []) (hb : chunks.flatten ≠ []) :
    (run (step cfg) s (chunks.map .ptyRead ++ [.ptyRead [], .closeFlush true])).sent =
      s.sent ++ [⟨.flush s.ptyOutput.length, chunks.flatten,
        framePacket cfg (s.seq + 1) chunks.flatten⟩] := by
  rw [run_append, run_reads cfg chunks hc h.isOpen]
  simp [run, step, readPty, closeFlush, h.isOpen, h.running, h.empty, hb]

def greeting : List (Event ℚ) := [.ptyRead [0x68, 0x69], .tick 0 true]

/-- A line, a flood that a refresh answers, and a burst before the exit. -/
def longRun (flooded burst : List Bytes) : List (Event ℚ) :=
  greeting ++ (flood flooded 0 ++ (burst.map .ptyRead ++ [.ptyRead [], .closeFlush true]))

theorem longRun_origins {flooded burst : List Bytes} (hf : ∀ chunk ∈ flooded, chunk ≠ [])
    (hcap : maxPtyBufferCap < flooded.flatten.length) (hb : ∀ chunk ∈ burst, chunk ≠ [])
    (hne : burst.flatten ≠ []) :
    (session (recordingServer 6) (longRun flooded burst)).sent.map Sent.origin =
      [.passThrough 0, .refresh (2 + flooded.flatten.length),
        .flush (2 + flooded.flatten.length)] := by
  have hidle : Idle (session (recordingServer 6) greeting) :=
    (line_sent (recordingServer 6) (s := Session.start (recordingServer 6)) ⟨rfl, rfl, rfl, rfl⟩
      (by decide) (by decide) (by decide +kernel) (by decide +kernel)).1
  have hpaid : (recordingServer 6).arith.exhausted ((recordingServer 6).arith.refill
      (session (recordingServer 6) greeting).tokens 0) = false := by decide +kernel
  have hsent : (session (recordingServer 6) greeting).sent.map Sent.origin = [.passThrough 0] := by
    decide +kernel
  have hout : (session (recordingServer 6) greeting).ptyOutput.length = 2 := by
    rw [session_ptyOutput]
    rfl
  rw [longRun, session_append]
  generalize session (recordingServer 6) greeting = r at hidle hpaid hsent hout ⊢
  obtain ⟨hidle', -, hout', hsent'⟩ := flood_idle (recordingServer 6) 0 hf hcap hidle.isOpen
    hidle.running hpaid (recorder_frame _)
  rw [run_append]
  generalize run (step (recordingServer 6)) r (flood flooded 0) = u at hidle' hout' hsent' ⊢
  rw [reads_then_exit_sent (recordingServer 6) hidle' burst hb hne, hsent', hout']
  simp [hsent, hout]

theorem ptyChunks_longRun {flooded burst : List Bytes} (hf : ∀ chunk ∈ flooded, chunk ≠ [])
    (hb : ∀ chunk ∈ burst, chunk ≠ []) :
    ptyChunks (longRun flooded burst) = [0x68, 0x69] :: (flooded ++ burst) := by
  have hexit : ptyChunks (burst.map .ptyRead ++ [.ptyRead [], .closeFlush true] :
      List (Event ℚ)) = burst := by
    rw [ptyChunks_reads burst hb]
    exact List.append_nil burst
  have hrest := ptyChunks_flood flooded hf (0 : ℚ)
    (burst.map .ptyRead ++ [.ptyRead [], .closeFlush true])
  rw [hexit] at hrest
  exact congrArg ([0x68, 0x69] :: ·) hrest

theorem frames_renderable_iff_long_run :
    (session (recordingServer 6) (longRun (fullReads 0x61 5) (fullReads 0x62 5))).sent.map
        Sent.origin = [.passThrough 0, .refresh 20482, .flush 20482] ∧
      ∀ f ∈ (session (recordingServer 6) (longRun (fullReads 0x61 5) (fullReads 0x62 5))).sent,
        Renderable .failing f.packet := by
  have hlen := fullReads_length 0x61 5
  have hlen' := fullReads_length 0x62 5
  have hcap : maxPtyBufferCap < (fullReads 0x61 5).flatten.length := by
    rw [hlen]
    decide
  have hne : (fullReads 0x62 5).flatten ≠ [] := by
    rw [ne_eq, ← List.length_eq_zero_iff, hlen']
    decide
  constructor
  · rw [longRun_origins (fullReads_ne_nil 0x61 5) hcap (fullReads_ne_nil 0x62 5) hne, hlen]
  · refine (frames_renderable_iff (recordingServer 6) Gzip.failing_inverts _).2
      (short_session_fits ?_)
    rw [ptyChunks_longRun (fullReads_ne_nil 0x61 5) (fullReads_ne_nil 0x62 5), List.flatten_cons,
      List.flatten_append, List.length_append, List.length_append, hlen, hlen']
    decide

theorem fullReads_overrun (cfg : Config σ τ ε) (hgz : cfg.gzip.Inverts) (b : UInt8)
    (seq : UInt64) :
    ¬ Renderable cfg.gzip (framePacket cfg seq (fullReads b 65).flatten) := by
  intro h
  have hw := ((renderable_framePacket hgz _ _).1 h).2
  rw [fullReads_length] at hw
  exact absurd hw (by decide)

def burstThenExit : List (Event ℚ) :=
  (fullReads 0x61 65).map .ptyRead ++ [.ptyRead [], .closeFlush true]

theorem flush_overruns_client_buffers :
    ¬ ∃ gz : Gzip, gz.Inverts ∧
      ∀ f ∈ (session { recordingServer 6 with gzip := gz } burstThenExit).sent,
        Renderable gz f.packet := by
  rintro ⟨gz, hgz, h⟩
  have hb : (fullReads 0x61 65).flatten ≠ [] := by
    rw [ne_eq, ← List.length_eq_zero_iff, fullReads_length]
    decide
  rw [burstThenExit, session, reads_then_exit_sent _ ⟨rfl, rfl, rfl, rfl⟩ _
    (fullReads_ne_nil 0x61 65) hb] at h
  have hr := h _ (List.mem_append_right _ (List.mem_singleton_self _))
  exact fullReads_overrun { recordingServer 6 with gzip := gz } hgz 0x61 _ hr

end MoshTcp.Server
