import MoshTcp.ServerRefresh

/-! Flood protection. Every byte of the PTY has a position; a raw frame carries a range of
positions and a refresh stands for all positions before it. The ranges are in order, and
while no refresh is pending every position before the buffer is accounted for. -/

set_option autoImplicit false

namespace MoshTcp.Server
open ByteOrder Protocol Ansi Runs

variable {σ τ ε : Type} {cfg : Config σ τ ε} {s : Session σ τ}

/-- The positions whose bytes a frame carries as they are. -/
def Sent.range (f : Sent) : Option (Nat × Nat) :=
  match f.origin with
  | .passThrough start => some (start, start + f.raw.length)
  | .flush start => some (start, start + f.raw.length)
  | .refresh _ => none

/-- The raw frames among `sent` carry slices of `out`, in order and all before `p`. -/
structure RawFrames (out : Bytes) (sent : List Sent) (p : Nat) : Prop where
  ordered : (sent.filterMap Sent.range).Pairwise fun x y => x.2 ≤ y.1
  exact : ∀ f ∈ sent, ∀ a b, f.range = some (a, b) → b ≤ p ∧ f.raw = (out.take b).drop a

section RawFrames
variable {out : Bytes} {sent : List Sent} {p q : Nat}

theorem RawFrames.grow (h : RawFrames out sent p) (hp : p ≤ out.length) (chunk : Bytes) :
    RawFrames (out ++ chunk) sent p where
  ordered := h.ordered
  exact := by
    intro f hf a b hr
    obtain ⟨hb, hraw⟩ := h.exact f hf a b hr
    exact ⟨hb, by rw [List.take_append_of_le_length (hb.trans hp), hraw]⟩

theorem RawFrames.mono (h : RawFrames out sent p) (hpq : p ≤ q) : RawFrames out sent q where
  ordered := h.ordered
  exact := by
    intro f hf a b hr
    obtain ⟨hb, hraw⟩ := h.exact f hf a b hr
    exact ⟨hb.trans hpq, hraw⟩

theorem RawFrames.snoc_refresh (h : RawFrames out sent p) {f : Sent} (hf : f.range = none) :
    RawFrames out (sent ++ [f]) p where
  ordered := by simpa [List.filterMap_append, hf] using h.ordered
  exact := by
    intro g hg a b hr
    rw [List.mem_append, List.mem_singleton] at hg
    cases hg with
    | inl hg => exact h.exact g hg a b hr
    | inr hg => simp [hg, hf] at hr

theorem RawFrames.snoc_raw (h : RawFrames out sent p) (hpq : p ≤ q) {f : Sent}
    (hf : f.range = some (p, q)) (hraw : f.raw = (out.take q).drop p) :
    RawFrames out (sent ++ [f]) q where
  ordered := by
    simp only [List.filterMap_append, List.filterMap_cons, hf, List.filterMap_nil]
    refine List.pairwise_append.2 ⟨h.ordered, by simp, fun x hx y hy => ?_⟩
    obtain ⟨g, hg, hx⟩ := List.mem_filterMap.1 hx
    obtain rfl := List.mem_singleton.1 hy
    exact (h.exact g hg x.1 x.2 hx).1
  exact := by
    intro g hg a b hr
    rw [List.mem_append, List.mem_singleton] at hg
    cases hg with
    | inl hg => exact (h.mono hpq).exact g hg a b hr
    | inr hg =>
      obtain ⟨rfl, rfl⟩ : p = a ∧ q = b := by simpa [hg, hf] using hr
      exact ⟨Nat.le_refl _, by rw [hg, hraw]⟩

end RawFrames

/-- Position `i` is carried by a raw frame, or had been processed by the emulator when
some refresh was drawn. -/
def Shown (sent : List Sent) (i : Nat) : Prop :=
  (∃ f ∈ sent, ∃ a b, f.range = some (a, b) ∧ a ≤ i ∧ i < b) ∨
    ∃ f ∈ sent, ∃ n, f.origin = .refresh n ∧ i < n

theorem shown_snoc_iff {sent : List Sent} {f : Sent} {i : Nat} :
    Shown (sent ++ [f]) i ↔ Shown sent i ∨
      (∃ a b, f.range = some (a, b) ∧ a ≤ i ∧ i < b) ∨ ∃ n, f.origin = .refresh n ∧ i < n := by
  simp only [Shown, List.mem_append, List.mem_singleton, or_and_right, exists_or,
    exists_eq_left]
  exact or_or_or_comm

def bufferStart (s : Session σ τ) : Nat := s.ptyOutput.length - s.ptyBuffer.length

/-! Where the buffer starts after each change of it: a read leaves the start, a frame moves
it by what it carries, and whatever clears the buffer moves it to the end. -/

theorem bufferStart_of_empty (h : s.ptyBuffer = []) : bufferStart s = s.ptyOutput.length := by
  rw [bufferStart, h, List.length_nil, Nat.sub_zero]

theorem bufferStart_received (cfg : Config σ τ ε) (s : Session σ τ) (chunk : Bytes) :
    bufferStart (received cfg s chunk) = bufferStart s := by
  simp only [bufferStart, received, List.length_append, Nat.add_sub_add_right]

theorem bufferStart_overflowed (cfg : Config σ τ ε) (elapsed : ε)
    (h : maxPtyBufferCap < s.ptyBuffer.length) :
    bufferStart (checked cfg s elapsed) = s.ptyOutput.length := by
  rw [bufferStart_of_empty (checked_of_gt cfg elapsed h).1, checked_ptyOutput]

section Transmit
variable (cfg : Config σ τ ε) {r : Session σ τ} (origin : Origin) (raw : Bytes) (sendOk : Bool)

theorem bufferStart_cleared (r : Session σ τ) :
    bufferStart (transmit cfg (clearPending r) origin raw sendOk) = r.ptyOutput.length := by
  rw [bufferStart_of_empty (by rw [transmit_ptyBuffer]; rfl), transmit_ptyOutput]
  rfl

theorem bufferStart_passed (hle : r.ptyBuffer.length ≤ r.ptyOutput.length) {n : Nat}
    (hn : n ≤ r.ptyBuffer.length) :
    bufferStart (transmit cfg { r with ptyBuffer := r.ptyBuffer.drop n } origin raw sendOk) =
      bufferStart r + n := by
  simp only [bufferStart, transmit_ptyOutput, transmit_ptyBuffer, List.length_drop]
  omega

end Transmit

structure Accounted (s : Session σ τ) : Prop where
  running : s.sendLoopEnded = false
  buffer : s.ptyBuffer = s.ptyOutput.drop (bufferStart s)
  frames : RawFrames s.ptyOutput s.sent (bufferStart s)
  shown : s.pendingAtomicRefresh = false → ∀ i < bufferStart s, Shown s.sent i

theorem Accounted.start_le (h : Accounted s) : s.ptyBuffer.length ≤ s.ptyOutput.length := by
  have hlen := congrArg List.length h.buffer
  rw [List.length_drop, bufferStart] at hlen
  omega

theorem received_accounted (h : Accounted s) (chunk : Bytes) :
    Accounted (received cfg s chunk) := by
  have hout : bufferStart s ≤ s.ptyOutput.length := Nat.sub_le _ _
  refine ⟨h.running, ?_, ?_, ?_⟩
  · rw [bufferStart_received]
    simp only [received, List.drop_append_of_le_length hout, ← h.buffer]
  · rw [bufferStart_received]
    exact h.frames.grow hout chunk
  · rw [bufferStart_received]
    exact h.shown

theorem checked_accounted (cfg : Config σ τ ε) (h : Accounted s) (elapsed : ε) :
    Accounted (checked cfg s elapsed) := by
  by_cases hb : s.ptyBuffer.length ≤ maxPtyBufferCap
  · rw [checked_of_le hb]
    exact ⟨h.running, h.buffer, h.frames, h.shown⟩
  · obtain ⟨hbuf, hpend⟩ := checked_of_gt cfg elapsed (Nat.lt_of_not_le hb)
    have hstart := bufferStart_overflowed cfg elapsed (Nat.lt_of_not_le hb)
    refine ⟨by simpa using h.running, ?_, ?_, by simp [hpend]⟩
    · simp [hstart, hbuf]
    · rw [hstart, checked_ptyOutput, checked_sent]
      exact h.frames.mono (Nat.sub_le _ _)

theorem refreshed_accounted {r : Session σ τ} (h : Accounted r) (frame : Bytes) :
    Accounted (transmit cfg (clearPending r) (.refresh r.ptyOutput.length) frame true) := by
  have hstart := bufferStart_cleared cfg (.refresh r.ptyOutput.length) frame true r
  refine ⟨h.running, ?_, ?_, ?_⟩
  · rw [hstart]
    simp [clearPending]
  · rw [hstart]
    exact (h.frames.mono (Nat.sub_le _ _)).snoc_refresh rfl
  · intro _ i hi
    rw [hstart] at hi
    exact shown_snoc_iff.2 (.inr (.inr ⟨_, rfl, hi⟩))

theorem passed_accounted {r : Session σ τ} (h : Accounted r)
    (hp : r.pendingAtomicRefresh = false) {n : Nat} (hn : n ≤ r.ptyBuffer.length) :
    Accounted (transmit cfg { r with ptyBuffer := r.ptyBuffer.drop n }
      (.passThrough (bufferStart r)) (r.ptyBuffer.take n) true) := by
  have hstart := bufferStart_passed cfg (.passThrough (bufferStart r)) (r.ptyBuffer.take n) true
    h.start_le hn
  have hrange : Sent.range ⟨.passThrough (bufferStart r), r.ptyBuffer.take n,
      framePacket cfg (r.seq + 1) (r.ptyBuffer.take n)⟩ =
        some (bufferStart r, bufferStart r + n) := by
    simp [Sent.range, Nat.min_eq_left hn]
  refine ⟨h.running, ?_, ?_, ?_⟩
  · rw [hstart]
    simp only [transmit_ptyBuffer, transmit_ptyOutput]
    rw [← List.drop_drop, ← h.buffer]
  · rw [hstart]
    refine h.frames.snoc_raw (by omega) hrange ?_
    rw [List.drop_take, Nat.add_sub_cancel_left, ← h.buffer]
  -- below the old start nothing changes, and the rest of the range is in the new frame
  · intro _ i hi
    rw [hstart] at hi
    by_cases hi' : i < bufferStart r
    · exact shown_snoc_iff.2 (.inl (h.shown hp i hi'))
    · exact shown_snoc_iff.2 (.inr (.inl ⟨_, _, hrange, Nat.le_of_not_lt hi', hi⟩))

/-- The steps of a run without resizes in which every send succeeds. -/
def ReadOrTick : Event ε → Prop
  | .ptyRead _ => True
  | .tick _ sendOk => sendOk = true
  | _ => False

theorem flood_readOrTick (chunks : List Bytes) (elapsed : ε) :
    ∀ e ∈ flood chunks elapsed, ReadOrTick e := by
  intro e he
  simp only [flood, List.mem_append, List.mem_map, List.mem_singleton] at he
  rcases he with ⟨c, -, rfl⟩ | rfl
  · trivial
  · rfl

variable (hren : ∀ parser, generateAtomicScreenFrame cfg.vt parser ≠ none)
include hren

theorem step_accounted (h : Accounted s) (e : Event ε) (he : ReadOrTick e) :
    Accounted (step cfg s e) := by
  have hs := step_transition cfg s e
  generalize step cfg s e = s' at hs
  cases hs with
  | still => exact h
  | read chunk => exact received_accounted h chunk
  | closed => exact ⟨h.running, h.buffer, h.frames, h.shown⟩
  | ticked elapsed sendOk _ _ ht =>
    obtain rfl : sendOk = true := he
    have hr := checked_accounted cfg h elapsed
    cases ht with
    | exhausted => exact ⟨hr.running, hr.buffer, hr.frames, hr.shown⟩
    | refreshed frame => exact refreshed_accounted hr frame
    | refreshFailed _ _ hf => exact absurd hf (hren _)
    | idle => exact hr
    | passed n _ hp hn => exact passed_accounted hr hp (hn ▸ (findSafeSplitPoint_le _ _).2)
    | withheld => exact ⟨hr.running, hr.buffer, hr.frames, hr.shown⟩
  | flushed => exact absurd he (by simp [ReadOrTick])
  | resized => exact absurd he (by simp [ReadOrTick])
  | input => exact absurd he (by simp [ReadOrTick])
  | left => exact ⟨h.running, h.buffer, h.frames, h.shown⟩

theorem session_accounted (es : List (Event ε)) (hes : ∀ e ∈ es, ReadOrTick e) :
    Accounted (session cfg es) :=
  run_invariant ⟨rfl, rfl, ⟨.nil, by simp [Session.start]⟩, by simp [bufferStart, Session.start]⟩
    (fun _ e hs he => step_accounted hren hs e he) (along_of_forall fun _ e he => hes e he)

theorem tick_due (hl : s.sendLoopEnded = false) (hdue : RefreshDue s) (elapsed : ε) :
    ((step cfg s (.tick elapsed true)).pendingAtomicRefresh = true ∧
      (step cfg s (.tick elapsed true)).sent = s.sent) ∨
    ((step cfg s (.tick elapsed true)).pendingAtomicRefresh = false ∧
      ∃ f n, f.origin = .refresh n ∧
        (step cfg s (.tick elapsed true)).sent = s.sent ++ [f]) := by
  cases ht : cfg.arith.exhausted (cfg.arith.refill s.tokens elapsed) with
  | true =>
    rw [step_exhausted hl ht]
    exact .inl ⟨(checked_pending_iff cfg s elapsed).2 hdue, checked_sent⟩
  | false =>
    rcases step_due hl ht hdue true with ⟨frame, -, hs⟩ | ⟨hf, -⟩
    · rw [hs]
      exact .inr ⟨rfl, _, _, rfl, by simp [transmit, clearPending]; rfl⟩
    · exact absurd hf (hren _)

omit hren in
theorem tick_not_due (hl : s.sendLoopEnded = false) (hdue : ¬ RefreshDue s) (elapsed : ε) :
    (step cfg s (.tick elapsed true)).pendingAtomicRefresh = false := by
  have hp : (checked cfg s elapsed).pendingAtomicRefresh = false := by
    simpa using mt (checked_pending_iff cfg s elapsed).1 hdue
  have ht := tick_ticked cfg s elapsed true
  rw [step_tick hl]
  generalize tick cfg s elapsed true = s' at ht
  cases ht <;> simp [skipFrame, clearPending, hp]

omit hren in
theorem read_pending (cfg : Config σ τ ε) (s : Session σ τ) (chunk : Bytes) :
    (step cfg s (.ptyRead chunk)).pendingAtomicRefresh = s.pendingAtomicRefresh ∧
      (step cfg s (.ptyRead chunk)).sent = s.sent := by
  simp only [step, readPty]
  split
  · exact ⟨rfl, rfl⟩
  · split <;> exact ⟨rfl, rfl⟩

/-- A pending refresh goes back to a tick that discarded bytes, and nothing was sent
from that tick on. -/
theorem pending_since_overflow (es : List (Event ε)) (hes : ∀ e ∈ es, ReadOrTick e)
    (hp : (session cfg es).pendingAtomicRefresh = true) :
    ∃ pre elapsed post, es = pre ++ .tick elapsed true :: post ∧
      maxPtyBufferCap < (session cfg pre).ptyBuffer.length ∧
      (session cfg es).sent = (session cfg pre).sent := by
  induction es using List.reverseRecOn with
  | nil => simp [session, Session.start] at hp
  | append_singleton es e ih =>
    have hes' : ∀ e ∈ es, ReadOrTick e := fun f hf => hes f (by simp [hf])
    have hl := (session_accounted hren es hes').running
    rw [session_snoc] at hp ⊢
    -- the step found the refresh pending and sent nothing: the earlier tick still serves
    have earlier : (session cfg es).pendingAtomicRefresh = true →
        (step cfg (session cfg es) e).sent = (session cfg es).sent →
        ∃ pre elapsed post, es ++ [e] = pre ++ .tick elapsed true :: post ∧
          maxPtyBufferCap < (session cfg pre).ptyBuffer.length ∧
          (step cfg (session cfg es) e).sent = (session cfg pre).sent := by
      intro hpend hsent
      obtain ⟨pre, elapsed, post, rfl, hcap, hpre⟩ := ih hes' hpend
      exact ⟨pre, elapsed, post ++ [e], by simp, hcap, hsent.trans hpre⟩
    cases e with
    | ptyRead chunk =>
      obtain ⟨hpend, hsent⟩ := read_pending cfg (session cfg es) chunk
      exact earlier (hpend ▸ hp) hsent
    | tick elapsed sendOk =>
      obtain rfl : sendOk = true := hes (.tick elapsed sendOk) (by simp)
      by_cases hdue : RefreshDue (session cfg es)
      · cases tick_due hren hl hdue elapsed with
        | inl h =>
          cases hdue with
          | inl hpend => exact earlier hpend h.2
          | inr hcap => exact ⟨es, elapsed, [], rfl, hcap, h.2⟩
        | inr h => simp [h.1] at hp
      · simp [tick_not_due hl hdue elapsed] at hp
    | closeFlush sendOk => exact absurd (hes (.closeFlush sendOk) (by simp)) id
    | clientPacket packet => exact absurd (hes (.clientPacket packet) (by simp)) id
    | clientEnd => exact absurd (hes .clientEnd (by simp)) id
    | sendTaskDone => exact absurd (hes .sendTaskDone (by simp)) id

/-- A refresh is pending, or has been sent after the first `k` frames. -/
def Owes (k : Nat) (s : Session σ τ) : Prop :=
  k ≤ s.sent.length ∧
    (s.pendingAtomicRefresh = true ∨ ∃ f ∈ s.sent.drop k, ∃ n, f.origin = .refresh n)

omit hren in
theorem owes_of_sent {k : Nat} {s s' : Session σ τ} {f : Sent} {n : Nat}
    (hk : k ≤ s.sent.length) (hf : f.origin = .refresh n) (hs : s'.sent = s.sent ++ [f]) :
    Owes k s' := by
  refine ⟨by simp [hs]; omega, .inr ⟨f, ?_, n, hf⟩⟩
  rw [hs, List.drop_append_of_le_length hk]
  simp

theorem step_owes {k : Nat} (hl : s.sendLoopEnded = false) (h : Owes k s) (e : Event ε)
    (he : ReadOrTick e) : Owes k (step cfg s e) := by
  obtain ⟨hk, hp | ⟨f, hf, hn⟩⟩ := h
  · cases e with
    | ptyRead chunk =>
      obtain ⟨hpend, hsent⟩ := read_pending cfg s chunk
      exact ⟨hsent ▸ hk, .inl (hpend.trans hp)⟩
    | tick elapsed sendOk =>
      obtain rfl : sendOk = true := he
      cases tick_due hren hl (.inl hp) elapsed with
      | inl h => exact ⟨h.2 ▸ hk, .inl h.1⟩
      | inr h =>
        obtain ⟨-, f, n, hn, hs⟩ := h
        exact owes_of_sent hk hn hs
    | closeFlush sendOk => exact absurd he id
    | clientPacket packet => exact absurd he id
    | clientEnd => exact absurd he id
    | sendTaskDone => exact absurd he id
  · cases step_sent cfg s e with
    | inl hs => exact ⟨hs ▸ hk, .inr ⟨f, hs ▸ hf, hn⟩⟩
    | inr hs =>
      obtain ⟨g, -, hs⟩ := hs
      refine ⟨by simp [hs]; omega, .inr ⟨f, ?_, hn⟩⟩
      rw [hs, List.drop_append_of_le_length hk]
      exact List.mem_append_left _ hf

theorem overflow_owes (es : List (Event ε)) (hes : ∀ e ∈ es, ReadOrTick e)
    (pre : List (Event ε)) (elapsed : ε) (post : List (Event ε))
    (hpre : es = pre ++ .tick elapsed true :: post)
    (hcap : maxPtyBufferCap < (session cfg pre).ptyBuffer.length) :
    Owes (session cfg pre).sent.length (session cfg es) := by
  subst hpre
  have hacc := session_accounted hren pre fun e he => hes e (by simp [he])
  have hfirst : Owes (session cfg pre).sent.length
      (step cfg (session cfg pre) (.tick elapsed true)) := by
    cases tick_due hren hacc.running (.inr hcap) elapsed with
    | inl h => exact ⟨by simp [h.2], .inl h.1⟩
    | inr h =>
      obtain ⟨-, f, n, hn, hs⟩ := h
      exact owes_of_sent (Nat.le_refl _) hn hs
  have hrest : Along (step cfg) (fun _ e => ReadOrTick e)
      (step cfg (session cfg pre) (.tick elapsed true)) post :=
    along_of_forall fun _ e he => hes e (by simp [he])
  rw [session_append, run_cons]
  exact (run_invariant (I := fun s => Accounted s ∧ Owes (session cfg pre).sent.length s)
    ⟨step_accounted hren hacc (.tick elapsed true) rfl, hfirst⟩
    (fun s e h he => ⟨step_accounted hren h.1 e he, step_owes hren h.1.running h.2 e he⟩)
    hrest).2

/-! ### The end of the session -/

/-- Nothing of the final picture is lost in a session that ends in `final`. -/
structure NothingLost (cfg : Config σ τ ε) (es : List (Event ε)) (final : Session σ τ) :
    Prop where
  frames : RawFrames (ptyChunks es).flatten final.sent (ptyChunks es).flatten.length
  refreshes : RefreshesWhole cfg final
  shown : ∀ i < (ptyChunks es).flatten.length, Shown final.sent i
  answered : ∀ pre elapsed post, es = pre ++ .tick elapsed true :: post →
    maxPtyBufferCap < (session cfg pre).ptyBuffer.length →
      ∃ f ∈ final.sent.drop (session cfg pre).sent.length, ∃ n, f.origin = .refresh n

omit hren in
theorem closeFlush_sent (hc : s.ptyClosed = true) (hl : s.sendLoopEnded = false) :
    (step cfg s (.closeFlush true)).sent = s.sent ++
      if s.ptyBuffer = [] then []
      else [⟨.flush (bufferStart s), s.ptyBuffer, framePacket cfg (s.seq + 1) s.ptyBuffer⟩] := by
  by_cases hb : s.ptyBuffer = []
  · simp [step, hc, hl, closeFlush, hb]
  · simp [step, hc, hl, closeFlush, hb, bufferStart]

omit hren in
theorem flush_frames (h : Accounted s) (hc : s.ptyClosed = true) :
    RawFrames s.ptyOutput (step cfg s (.closeFlush true)).sent s.ptyOutput.length := by
  rw [closeFlush_sent hc h.running]
  by_cases hb : s.ptyBuffer = []
  · simpa [hb] using h.frames.mono (Nat.sub_le _ _)
  · have hle := h.start_le
    rw [if_neg hb]
    refine h.frames.snoc_raw (Nat.sub_le _ _) ?_ ?_
    · simp only [Sent.range, bufferStart]
      congr 2
      omega
    · rw [List.take_length]
      exact h.buffer

omit hren in
theorem flush_shown (h : Accounted s) (hc : s.ptyClosed = true)
    (hp : s.pendingAtomicRefresh = false) (i : Nat) (hi : i < s.ptyOutput.length) :
    Shown (step cfg s (.closeFlush true)).sent i := by
  rw [closeFlush_sent hc h.running]
  by_cases hb : s.ptyBuffer = []
  · rw [← bufferStart_of_empty hb] at hi
    simpa [hb] using h.shown hp i hi
  · have hle := h.start_le
    rw [if_neg hb]
    by_cases hi' : i < bufferStart s
    · exact shown_snoc_iff.2 (.inl (h.shown hp i hi'))
    · refine shown_snoc_iff.2 (.inr (.inl ⟨_, _, rfl, Nat.le_of_not_lt hi', ?_⟩))
      simp only [bufferStart] at hi' ⊢
      omega

omit hren in
theorem no_late_resize_of_readOrTick (es : List (Event ε)) (hes : ∀ e ∈ es, ReadOrTick e) :
    Along (step cfg) (fun s e => ¬ LateResize cfg s e) (Session.start cfg) es := by
  refine along_of_forall fun s e he => ?_
  have h := hes e he
  cases e <;> simp_all [ReadOrTick, LateResize]

theorem not_nothingLost_of_pending (es : List (Event ε)) (hes : ∀ e ∈ es, ReadOrTick e)
    (hclosed : (session cfg es).ptyClosed = true)
    (hp : (session cfg es).pendingAtomicRefresh = true) :
    ¬ NothingLost cfg es (session cfg (es ++ [.closeFlush true])) := by
  intro h
  have hl := (session_accounted hren es hes).running
  obtain ⟨pre, elapsed, post, hpre, hcap, hsent⟩ := pending_since_overflow hren es hes hp
  obtain ⟨f, hf, n, hn⟩ := h.answered pre elapsed post hpre hcap
  rw [session_snoc, closeFlush_sent hclosed hl, ← hsent, List.drop_left] at hf
  by_cases hb : (session cfg es).ptyBuffer = []
  · simp [hb] at hf
  · rw [if_neg hb, List.mem_singleton] at hf
    simp [hf] at hn

omit hren in
theorem nothing_lost_iff (cfg : Config σ τ ε)
    (hren : ∀ parser, generateAtomicScreenFrame cfg.vt parser ≠ none)
    (es : List (Event ε)) (hes : ∀ e ∈ es, ReadOrTick e)
    (hclosed : (session cfg es).ptyClosed = true) :
    NothingLost cfg es (session cfg (es ++ [.closeFlush true])) ↔
      (session cfg es).pendingAtomicRefresh = false := by
  have hacc := session_accounted hren es hes
  constructor
  · intro h
    by_contra hp
    exact not_nothingLost_of_pending hren es hes hclosed (by simpa using hp) h
  · intro hp
    rw [session_snoc]
    refine ⟨?_, ?_, ?_, ?_⟩
    · rw [← session_ptyOutput cfg]
      exact flush_frames hacc hclosed
    · refine step_refreshesWhole (session_refreshesWhole cfg es ?_) (session_fed cfg es) _ (by simp)
      intro pre elapsed post hpre _
      exact (session_fed_eq_iff cfg pre).2
        (no_late_resize_of_readOrTick pre fun e he => hes e (by simp [hpre, he]))
    · rw [← session_ptyOutput cfg]
      exact flush_shown hacc hclosed hp
    · intro pre elapsed post hpre hcap
      obtain ⟨hk, howes⟩ := overflow_owes hren es hes pre elapsed post hpre hcap
      obtain ⟨f, hf, hn⟩ := howes.resolve_left (by simp [hp])
      refine ⟨f, ?_, hn⟩
      rw [closeFlush_sent hclosed hacc.running, List.drop_append_of_le_length hk]
      exact List.mem_append_left _ hf

omit hren

theorem recorder_renders (parser : UInt16 × UInt16 × Bytes) :
    generateAtomicScreenFrame recorder parser ≠ none := by
  simp [recorder_frame]

/-- A flood that a refresh answers, then a prompt that the exit flushes. -/
def floodThenPrompt (chunks : List Bytes) : List (Event ℚ) :=
  flood chunks 0 ++ [.ptyRead [0x24], .ptyRead []]

theorem floodThenPrompt_exits {chunks : List Bytes} (hc : ∀ chunk ∈ chunks, chunk ≠ [])
    (hcap : maxPtyBufferCap < chunks.flatten.length) :
    (session (recordingServer 6) (floodThenPrompt chunks)).ptyClosed = true ∧
      (session (recordingServer 6) (floodThenPrompt chunks)).pendingAtomicRefresh = false := by
  obtain ⟨hidle, -⟩ := flood_idle (recordingServer 6) 0 (s := Session.start (recordingServer 6))
    hc hcap rfl rfl (by decide +kernel) (recorder_frame _)
  rw [session, floodThenPrompt, run_append]
  generalize run (step (recordingServer 6)) (Session.start (recordingServer 6))
    (flood chunks 0) = r at hidle ⊢
  simp [run, step, readPty, hidle.isOpen, hidle.noRefresh]

theorem floodThenPrompt_readOrTick (chunks : List Bytes) :
    ∀ e ∈ floodThenPrompt chunks, ReadOrTick e := by
  intro e he
  simp only [floodThenPrompt, List.mem_append, List.mem_cons, List.not_mem_nil, or_false] at he
  rcases he with he | rfl | rfl
  · exact flood_readOrTick _ _ e he
  · trivial
  · trivial

theorem nothing_lost_iff_flood :
    NothingLost (recordingServer 6) (floodThenPrompt (fullReads 0x61 5))
      (session (recordingServer 6)
        (floodThenPrompt (fullReads 0x61 5) ++ [.closeFlush true])) := by
  have hcap : maxPtyBufferCap < (fullReads 0x61 5).flatten.length := by
    rw [fullReads_length]
    decide
  obtain ⟨hclosed, hpend⟩ := floodThenPrompt_exits (fullReads_ne_nil 0x61 5) hcap
  exact (nothing_lost_iff (recordingServer 6) recorder_renders _
    (floodThenPrompt_readOrTick _) hclosed).2 hpend

/-! ### A flood without tokens -/

/-- A session that owes a refresh and has nothing else to send. -/
structure Owing (s : Session σ τ) : Prop where
  isOpen : s.ptyClosed = false
  running : s.sendLoopEnded = false
  pending : s.pendingAtomicRefresh = true
  empty : s.ptyBuffer = []

theorem flood_exhausted (cfg : Config σ τ ε) {chunks : List Bytes} (elapsed : ε)
    (hc : ∀ chunk ∈ chunks, chunk ≠ []) (hcap : maxPtyBufferCap < chunks.flatten.length)
    (ho : s.ptyClosed = false) (hl : s.sendLoopEnded = false)
    (ht : cfg.arith.exhausted (cfg.arith.refill s.tokens elapsed) = true) :
    Owing (run (step cfg) s (flood chunks elapsed)) ∧
      (run (step cfg) s (flood chunks elapsed)).tokens = cfg.arith.refill s.tokens elapsed := by
  have hr := run_reads cfg chunks hc ho
  have hdue := flood_overfull cfg hc hcap ho
  rw [run_flood_tick]
  generalize run (step cfg) s (chunks.map .ptyRead) = r at hr hdue ⊢
  rw [step_exhausted (by rw [hr]; exact hl) (by rw [hr]; exact ht) true]
  obtain ⟨hbuf, hpend⟩ := checked_of_gt cfg elapsed hdue
  refine ⟨⟨?_, ?_, hpend, hbuf⟩, ?_⟩
  · simpa [skipFrame, hr] using ho
  · simpa [skipFrame, hr] using hl
  · simp [skipFrame, hr]

/-- A server started with `--max-kbps 0`: the bucket is never refilled. -/
def unrefilledServer (vt : Vt100 σ) (gz : Gzip) : Config σ ℚ ℚ := rationalServer vt gz "k" 0

theorem unrefilled_refill {tokens : ℚ} (h : tokens ≤ 2048) (elapsed : ℚ) :
    (rationalTokens 0).refill tokens elapsed = tokens := by
  have hrate : maxBytesPerSec 0 = 0 := by decide +kernel
  simp [rationalTokens, hrate, h]

theorem unrefilled_burst : (rationalTokens 0).burstCapacity = ((128 * 16 : Nat) : ℚ) := by
  decide +kernel

theorem unrefilled_exhausted :
    (rationalTokens 0).exhausted ((rationalTokens 0).refill 0 (1 / 50)) = true := by
  decide +kernel

theorem line_sent (cfg : Config σ τ ε) (h : Idle s) {line : Bytes} {elapsed : ε}
    (hne : line ≠ []) (hshort : line.length ≤ 128)
    (ht : cfg.arith.exhausted (cfg.arith.refill s.tokens elapsed) = false)
    (hfits : line.length ≤ cfg.arith.asUsize (cfg.arith.refill s.tokens elapsed)) :
    Idle (run (step cfg) s [.ptyRead line, .tick elapsed true]) ∧
      (run (step cfg) s [.ptyRead line, .tick elapsed true]).tokens =
        cfg.arith.spend (cfg.arith.refill s.tokens elapsed) line.length ∧
      (run (step cfg) s [.ptyRead line, .tick elapsed true]).sent =
        s.sent ++ [⟨.passThrough s.ptyOutput.length, line, framePacket cfg (s.seq + 1) line⟩] := by
  have hbuf : (received cfg s line).ptyBuffer = line := by simp [received, h.empty]
  have hdue : ¬ RefreshDue (received cfg s line) := by
    rintro (hp | hcap)
    · simp [received, h.noRefresh] at hp
    · rw [hbuf] at hcap
      unfold maxPtyBufferCap at hcap
      omega
  have hsplit : line.length = findSafeSplitPoint (received cfg s line).ptyBuffer
      (cfg.arith.asUsize (cfg.arith.refill s.tokens elapsed)) := by
    rw [hbuf, findSafeSplitPoint_of_fits hfits]
  have hpay : (compressData cfg.gzip line).1.length = line.length := by
    rw [compressData_short cfg.gzip hshort]
  rw [run_cons, run_cons, run_nil, step_read hne h.isOpen,
    step_passThrough (s := received cfg s line) h.running ht hdue hsplit
      (List.length_pos_iff.2 hne) true, hbuf,
    List.take_length, List.drop_length]
  refine ⟨⟨h.isOpen, h.running, h.noRefresh, rfl⟩, congrArg _ hpay, ?_⟩
  simp [transmit, refillTokens, received]

def linesEvery (elapsed : ℚ) (line : Bytes) : Nat → List (Event ℚ)
  | 0 => []
  | k + 1 => [.ptyRead line, .tick elapsed true] ++ linesEvery elapsed line k

theorem linesEvery_drain (vt : Vt100 σ) (gz : Gzip) {maxKbps : UInt64} {elapsed : ℚ} {m : Nat}
    (hrefill : ∀ n ≤ 128 * m, (rationalTokens maxKbps).refill (n : ℚ) elapsed = n)
    {line : Bytes} (hline : line.length = 128) (k : Nat) (hk : k ≤ m) {s : Session σ ℚ}
    (h : Idle s) (htok : s.tokens = ((128 * k : Nat) : ℚ)) :
    Idle (run (step (rationalServer vt gz "k" maxKbps)) s (linesEvery elapsed line k)) ∧
      (run (step (rationalServer vt gz "k" maxKbps)) s (linesEvery elapsed line k)).tokens =
        0 := by
  induction k generalizing s with
  | zero => exact ⟨h, by simpa [linesEvery] using htok⟩
  | succ k ih =>
    obtain ⟨n, hn⟩ : ∃ n, 128 * (k + 1) = n := ⟨_, rfl⟩
    rw [hn] at htok
    have hfull : (rationalTokens maxKbps).refill s.tokens elapsed = n := by
      rw [htok]
      exact hrefill n (by omega)
    have hexhausted : (rationalTokens maxKbps).exhausted
        ((rationalTokens maxKbps).refill s.tokens elapsed) = false := by
      rw [hfull, ← Bool.not_eq_true, rationalTokens_exhausted]
      exact_mod_cast (by omega : ¬ n ≤ 0)
    have hfits : line.length ≤ (rationalTokens maxKbps).asUsize
        ((rationalTokens maxKbps).refill s.tokens elapsed) := by
      rw [hfull, rationalTokens_asUsize]
      omega
    have hne : line ≠ [] := List.length_pos_iff.1 (by omega)
    obtain ⟨hidle, hspent, -⟩ := line_sent (rationalServer vt gz "k" maxKbps) h hne (by omega)
      hexhausted hfits
    rw [linesEvery, run_append]
    refine ih (by omega) hidle ?_
    have hspend : (rationalTokens maxKbps).spend n line.length = ((128 * k : Nat) : ℚ) := by
      simp only [rationalTokens, hline, ← hn]
      push_cast
      ring
    exact (hspent.trans (congrArg ((rationalTokens maxKbps).spend · line.length) hfull)).trans
      hspend

theorem linesEvery_readOrTick (elapsed : ℚ) (line : Bytes) (k : Nat) :
    ∀ e ∈ linesEvery elapsed line k, ReadOrTick e := by
  induction k with
  | zero => simp [linesEvery]
  | succ k ih =>
    intro e he
    simp only [linesEvery, List.mem_append, List.mem_cons, List.not_mem_nil, or_false] at he
    rcases he with (rfl | rfl) | he
    · trivial
    · rfl
    · exact ih e he

theorem unrefilled_drain (vt : Vt100 σ) (gz : Gzip) {line : Bytes} (hline : line.length = 128)
    (k : Nat) (hk : k ≤ 16) {s : Session σ ℚ} (h : Idle s)
    (htok : s.tokens = ((128 * k : Nat) : ℚ)) :
    Idle (run (step (unrefilledServer vt gz)) s (linesEvery (1 / 50) line k)) ∧
      (run (step (unrefilledServer vt gz)) s (linesEvery (1 / 50) line k)).tokens = 0 := by
  refine linesEvery_drain vt gz (fun n hn => unrefilled_refill ?_ _) hline k hk h htok
  exact_mod_cast (by omega : n ≤ 2048)

/-- The bucket is emptied line by line, then a flood comes and the shell exits. -/
def floodThenExit (line : Bytes) (chunks : List Bytes) : List (Event ℚ) :=
  linesEvery (1 / 50) line 16 ++ flood chunks (1 / 50) ++ [.ptyRead []]

theorem floodThenExit_pending (vt : Vt100 σ) (gz : Gzip) {line : Bytes} {chunks : List Bytes}
    (hline : line.length = 128) (hc : ∀ chunk ∈ chunks, chunk ≠ [])
    (hcap : maxPtyBufferCap < chunks.flatten.length) :
    (session (unrefilledServer vt gz) (floodThenExit line chunks)).pendingAtomicRefresh = true ∧
      (session (unrefilledServer vt gz) (floodThenExit line chunks)).ptyClosed = true := by
  obtain ⟨hidle, htok⟩ := unrefilled_drain vt gz hline 16 (Nat.le_refl _)
    (s := Session.start (unrefilledServer vt gz)) ⟨rfl, rfl, rfl, rfl⟩ unrefilled_burst
  rw [session, floodThenExit, run_append, run_append]
  generalize run (step (unrefilledServer vt gz)) (Session.start (unrefilledServer vt gz))
    (linesEvery (1 / 50) line 16) = r at hidle htok
  have hexhausted : (unrefilledServer vt gz).arith.exhausted
      ((unrefilledServer vt gz).arith.refill r.tokens (1 / 50)) = true := by
    rw [htok]
    exact unrefilled_exhausted
  obtain ⟨howing, -⟩ := flood_exhausted (unrefilledServer vt gz) (1 / 50) hc hcap hidle.isOpen
    hidle.running hexhausted
  generalize run (step (unrefilledServer vt gz)) r (flood chunks (1 / 50)) = u at howing ⊢
  simp [step, howing.isOpen, readPty, howing.pending]

theorem floodThenExit_readOrTick (line : Bytes) (chunks : List Bytes) :
    ∀ e ∈ floodThenExit line chunks, ReadOrTick e := by
  intro e he
  simp only [floodThenExit, List.mem_append, List.mem_singleton] at he
  rcases he with (he | he) | rfl
  · exact linesEvery_readOrTick _ line 16 e he
  · exact flood_readOrTick chunks _ e he
  · trivial

def lastFlood : List (Event ℚ) :=
  floodThenExit (List.replicate 128 0x61) (fullReads 0x61 5)

/-- Whatever the emulator and the compressor, the flood before the exit is never shown. -/
theorem last_flood_lost :
    ¬ ∃ (σ : Type) (vt : Vt100 σ) (gz : Gzip),
      (∀ parser, generateAtomicScreenFrame vt parser ≠ none) ∧
        NothingLost (unrefilledServer vt gz) lastFlood
          (session (unrefilledServer vt gz) (lastFlood ++ [.closeFlush true])) := by
  rintro ⟨σ, vt, gz, hren, h⟩
  have hcap : maxPtyBufferCap < (fullReads 0x61 5).flatten.length := by
    rw [fullReads_length]
    decide
  obtain ⟨hp, hc⟩ := floodThenExit_pending vt gz (List.length_replicate (n := 128) (a := 0x61))
    (fullReads_ne_nil 0x61 5) hcap
  exact not_nothingLost_of_pending hren lastFlood (floodThenExit_readOrTick _ _) hc hp h

end MoshTcp.Server
