import MoshTcp.GzipMember
import MoshTcp.ServerSteps

/-! Pass-through delivery: while no tick finds an overfull buffer, the frames carry
exactly what the PTY produced. -/

set_option autoImplicit false

namespace MoshTcp.Server
open ByteOrder Protocol Ansi Runs

variable {σ τ ε : Type} {cfg : Config σ τ ε} {s : Session σ τ}

def rendered (gz : Gzip) : Packet → Option Bytes
  | .serverFrame _ data compressed => decompressData gz data compressed
  | _ => none

def frameSeq : Packet → Option UInt64
  | .serverFrame seq _ _ => some seq
  | _ => none

theorem rendered_framePacket (hgz : cfg.gzip.Inverts) (seq : UInt64) (raw : Bytes) :
    rendered cfg.gzip (framePacket cfg seq raw) = some raw :=
  decompress_compress hgz raw

/-- Frame `i` carries number `i + 1`. A failed send uses up a number, but then the loop
ends, so the counter is only tied to the frames while the loop runs. -/
structure Numbered (cfg : Config σ τ ε) (s : Session σ τ) : Prop where
  packets : ∀ i f, s.sent[i]? = some f → f.packet = framePacket cfg (UInt64.ofNat (i + 1)) f.raw
  counter : s.sendLoopEnded = false → s.seq = UInt64.ofNat s.sent.length

theorem Numbered.snoc (h : Numbered cfg s) (hl : s.sendLoopEnded = false) {f : Sent}
    (hf : f.packet = framePacket cfg (s.seq + 1) f.raw) (i : Nat) (g : Sent)
    (hg : (s.sent ++ [f])[i]? = some g) :
    g.packet = framePacket cfg (UInt64.ofNat (i + 1)) g.raw := by
  by_cases hi : i < s.sent.length
  · rw [List.getElem?_append_left hi] at hg
    exact h.packets i g hg
  · rw [List.getElem?_append_right (by omega), List.getElem?_singleton] at hg
    obtain ⟨hi', rfl⟩ : i - s.sent.length = 0 ∧ f = g := by simpa using hg
    obtain rfl : i = s.sent.length := by omega
    simp [hf, h.counter hl]

theorem transmit_numbered {r : Session σ τ} (h : Numbered cfg r) (hl : r.sendLoopEnded = false)
    (origin : Origin) (raw : Bytes) (sendOk : Bool) :
    Numbered cfg (transmit cfg r origin raw sendOk) := by
  cases sendOk with
  | false => exact ⟨h.packets, by simp [transmit]⟩
  | true =>
    refine ⟨h.snoc hl rfl, fun _ => ?_⟩
    simp [transmit, h.counter hl]

theorem ticked_numbered {r s' : Session σ τ} {sendOk : Bool} (h : Numbered cfg r)
    (hl : r.sendLoopEnded = false) (ht : Ticked cfg r sendOk s') : Numbered cfg s' := by
  cases ht with
  | exhausted => exact ⟨h.packets, h.counter⟩
  | refreshed frame =>
    have hr : Numbered cfg (clearPending r) := ⟨h.packets, h.counter⟩
    exact transmit_numbered hr hl _ frame sendOk
  | refreshFailed => exact ⟨h.packets, h.counter⟩
  | idle => exact h
  | passed n =>
    have hr : Numbered cfg { r with ptyBuffer := r.ptyBuffer.drop n } := ⟨h.packets, h.counter⟩
    exact transmit_numbered hr hl _ _ sendOk
  | withheld => exact ⟨h.packets, h.counter⟩

theorem step_numbered (h : Numbered cfg s) (e : Event ε) : Numbered cfg (step cfg s e) := by
  have hs := step_transition cfg s e
  generalize step cfg s e = s' at hs
  cases hs with
  | still => exact h
  | read => exact ⟨h.packets, h.counter⟩
  | closed => exact ⟨h.packets, h.counter⟩
  | ticked elapsed sendOk _ hl ht =>
    refine ticked_numbered ⟨?_, ?_⟩ (by simpa using hl) ht
    · simpa using h.packets
    · simpa using h.counter
  | flushed sendOk hc hl =>
    by_cases hb : s.ptyBuffer = []
    · exact ⟨by simpa [closeFlush, hb] using h.packets, by simp [closeFlush, hb]⟩
    · refine ⟨?_, by simp [closeFlush, hb]⟩
      cases sendOk with
      | false => simpa [closeFlush, hb] using h.packets
      | true =>
        simp only [closeFlush, List.isEmpty_iff, hb, if_false, if_true]
        exact h.snoc hl rfl
  | resized => exact ⟨h.packets, h.counter⟩
  | input => exact ⟨h.packets, h.counter⟩
  | left => exact ⟨h.packets, h.counter⟩

theorem session_numbered (cfg : Config σ τ ε) (es : List (Event ε)) :
    Numbered cfg (session cfg es) :=
  run_preserves (I := Numbered cfg) ⟨by simp [Session.start], fun _ => rfl⟩
    (fun _ e h => step_numbered h e) es

theorem session_rendered (cfg : Config σ τ ε) (hgz : cfg.gzip.Inverts) (es : List (Event ε)) :
    (session cfg es).sent.map (fun f => rendered cfg.gzip f.packet) =
      ((session cfg es).sent.map Sent.raw).map some := by
  rw [List.map_map]
  refine List.map_congr_left fun f hf => ?_
  obtain ⟨i, hi⟩ := List.getElem?_of_mem hf
  rw [(session_numbered cfg es).packets i f hi]
  exact rendered_framePacket hgz _ _

/-- The steps of a run without overflow and without a failed send. -/
def Uncongested (s : Session σ τ) : Event ε → Prop
  | .tick _ sendOk => s.ptyBuffer.length ≤ maxPtyBufferCap ∧ sendOk = true
  | .closeFlush sendOk => sendOk = true
  | _ => True

instance (s : Session σ τ) (e : Event ε) : Decidable (Uncongested s e) :=
  match e with
  | .tick _ _ => inferInstanceAs (Decidable (_ ∧ _))
  | .closeFlush _ => inferInstanceAs (Decidable (_ = true))
  | .ptyRead _ | .clientPacket _ | .clientEnd | .sendTaskDone => .isTrue trivial

/-- The bytes of the PTY are the frames' bytes followed by the buffer. -/
structure Delivering (s : Session σ τ) : Prop where
  noRefresh : s.pendingAtomicRefresh = false
  content : (s.sent.map Sent.raw).flatten ++ s.ptyBuffer = s.ptyOutput
  nonempty : ∀ f ∈ s.sent, f.raw ≠ []
  flushed : s.sendLoopEnded = true → s.ptyClosed = true ∧ s.ptyBuffer = []

theorem passed_delivering {r : Session σ τ} (h : Delivering r) {n target : Nat}
    (hn : n = findSafeSplitPoint r.ptyBuffer target) (hpos : 0 < n)
    (hl : r.sendLoopEnded = false) (origin : Origin) :
    Delivering (transmit cfg { r with ptyBuffer := r.ptyBuffer.drop n } origin
      (r.ptyBuffer.take n) true) where
  noRefresh := h.noRefresh
  content := by
    simpa [transmit] using h.content
  nonempty := by
    intro f hf
    have hb : r.ptyBuffer ≠ [] := by
      intro hb
      rw [hb, findSafeSplitPoint_nil] at hn
      omega
    simp only [transmit, if_true, List.mem_append, List.mem_singleton] at hf
    cases hf with
    | inl hf => exact h.nonempty f hf
    | inr hf => simp [hf, hb]; omega
  flushed := by simp [transmit, hl]

theorem step_delivering (h : Delivering s) (e : Event ε) (he : Uncongested s e) :
    Delivering (step cfg s e) := by
  have hs := step_transition cfg s e
  generalize step cfg s e = s' at hs
  cases hs with
  | still => exact h
  | read chunk hc ho =>
    refine ⟨h.noRefresh, ?_, h.nonempty, fun hl => ?_⟩
    · simp [received, ← h.content]
    · simp [(h.flushed hl).1] at ho
  | closed => exact ⟨h.noRefresh, h.content, h.nonempty, fun hl => ⟨rfl, (h.flushed hl).2⟩⟩
  | ticked elapsed sendOk _ hl ht =>
    obtain ⟨hb, rfl⟩ := he
    rw [checked_of_le hb] at ht
    have hr : Delivering (refillTokens cfg s elapsed) :=
      ⟨h.noRefresh, h.content, h.nonempty, h.flushed⟩
    cases ht with
    | exhausted => exact ⟨hr.noRefresh, hr.content, hr.nonempty, hr.flushed⟩
    | refreshed frame _ hp => simp [hr.noRefresh] at hp
    | refreshFailed _ hp => simp [hr.noRefresh] at hp
    | idle => exact hr
    | passed n _ _ hn hpos => exact passed_delivering hr hn hpos hl _
    | withheld => exact ⟨hr.noRefresh, hr.content, hr.nonempty, hr.flushed⟩
  | flushed sendOk hc hl =>
    obtain rfl : sendOk = true := he
    by_cases hb : s.ptyBuffer = []
    · refine ⟨?_, ?_, ?_, ?_⟩
      · simpa [closeFlush, hb] using h.noRefresh
      · simpa [closeFlush, hb] using h.content
      · simpa [closeFlush, hb] using h.nonempty
      · simp [closeFlush, hb, hc]
    · refine ⟨?_, ?_, ?_, ?_⟩
      · simpa [closeFlush, hb] using h.noRefresh
      · simpa [closeFlush, hb] using h.content
      · intro f hf
        simp only [closeFlush, List.isEmpty_iff, hb, if_false, if_true, List.mem_append,
          List.mem_singleton] at hf
        cases hf with
        | inl hf => exact h.nonempty f hf
        | inr hf => simpa [hf] using hb
      · simp [closeFlush, hb, hc]
  | resized => exact ⟨h.noRefresh, h.content, h.nonempty, h.flushed⟩
  | input => exact ⟨h.noRefresh, h.content, h.nonempty, h.flushed⟩
  | left => exact ⟨h.noRefresh, h.content, h.nonempty, h.flushed⟩

theorem session_delivering {es : List (Event ε)}
    (h : Along (step cfg) Uncongested (Session.start cfg) es) : Delivering (session cfg es) :=
  run_invariant ⟨rfl, rfl, by simp [Session.start], by simp [Session.start]⟩
    (fun _ e hs he => step_delivering hs e he) h

theorem pass_through_integrity (cfg : Config σ τ ε) (hgz : cfg.gzip.Inverts)
    (es : List (Event ε))
    (h : Along (step cfg) Uncongested (Session.start cfg) es) :
    (session cfg es).pendingAtomicRefresh = false ∧
    (∃ shown : List Bytes,
      (session cfg es).sent.map (fun f => rendered cfg.gzip f.packet) = shown.map some ∧
      shown.flatten ++ (session cfg es).ptyBuffer = (ptyChunks es).flatten ∧
      ∀ raw ∈ shown, raw ≠ []) ∧
    (session cfg es).sent.map (fun f => frameSeq f.packet) =
      (List.range (session cfg es).sent.length).map (fun i => some (UInt64.ofNat (i + 1))) ∧
    ((session cfg es).ptyClosed = true →
      (session cfg (es ++ [.closeFlush true])).ptyBuffer = []) := by
  have hd := session_delivering h
  have hn := (session_numbered cfg es).packets
  refine ⟨hd.noRefresh, ⟨(session cfg es).sent.map Sent.raw, session_rendered cfg hgz es, ?_, ?_⟩,
    ?_, fun hc => ?_⟩
  · rw [hd.content, session_ptyOutput]
  · simpa using hd.nonempty
  · refine List.ext_getElem (by simp) fun i hi _ => ?_
    have hi' : i < (session cfg es).sent.length := by simpa using hi
    simp [hn i _ (List.getElem?_eq_getElem hi'), framePacket, frameSeq]
  · rw [session_snoc]
    by_cases hl : (session cfg es).sendLoopEnded = true
    · simpa [step, hl] using (hd.flushed hl).2
    · by_cases hb : (session cfg es).ptyBuffer = []
      · simp [step, hc, hl, closeFlush, hb]
      · simp [step, hc, hl, closeFlush, hb]

def storingServer : Config (UInt16 × UInt16 × Bytes) ℚ ℚ :=
  rationalServer recorder Native.storing "k" 6

/-- The frame of the run of letters, whatever was sent before. -/
theorem Numbered.letterRun {s : Session (UInt16 × UInt16 × Bytes) ℚ}
    (h : Numbered storingServer s) {i : Nat}
    (hraw : (s.sent.map Sent.raw)[i]? = some Native.letterRun) :
    (s.sent.map Sent.packet)[i]? = some (.serverFrame (UInt64.ofNat (i + 1))
      (Native.plainMember Native.runBlock Native.letterRun) true) := by
  have hgzip : storingServer.gzip = Native.storing := rfl
  rw [List.getElem?_map] at hraw
  obtain ⟨f, hf, hrun⟩ := Option.map_eq_some_iff.1 hraw
  rw [List.getElem?_map, hf, Option.map_some, h.packets i f hf, hrun, framePacket, hgzip,
    Native.compressData_letterRun]

def shortRun : List (Event ℚ) :=
  [.ptyRead [0x68, 0x69], .tick (1 / 50) true, .clientPacket (.clientResize 30 90),
    .ptyRead Native.letterRun, .tick (1 / 50) true, .ptyRead [0x0A], .ptyRead []]

theorem pass_through_integrity_short_run :
    ((session storingServer shortRun).sent.map Sent.packet)[1]? =
      some (.serverFrame 2 (Native.plainMember Native.runBlock Native.letterRun) true) ∧
    (∃ shown : List Bytes,
      (session storingServer shortRun).sent.map (fun f => rendered Native.storing f.packet) =
        shown.map some ∧
      shown.flatten ++ (session storingServer shortRun).ptyBuffer =
        (ptyChunks shortRun).flatten ∧
      ∀ raw ∈ shown, raw ≠ []) ∧
    (session storingServer (shortRun ++ [.closeFlush true])).ptyBuffer = [] := by
  have hframe := (session_numbered storingServer shortRun).letterRun (i := 1) (by decide +kernel)
  have h := pass_through_integrity storingServer Native.storing_inverts shortRun (by decide +kernel)
  exact ⟨hframe, h.2.1, h.2.2.2 (by decide +kernel)⟩

end MoshTcp.Server
