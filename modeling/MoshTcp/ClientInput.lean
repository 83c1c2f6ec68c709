import MoshTcp.Predictive
import MoshTcp.Lib.Runs

/-! The stdin loop of `run_client_stream_handshake` (src/client.rs). A pass of the loop polls
the terminal size and takes one read; the receive loop renders frames through the same
predictor, and clears `running` when the connection ends. -/

set_option autoImplicit false

namespace MoshTcp.Client
open ByteOrder Protocol Predictive Runs

/-- `queued` is everything sent on `input_tx`, `printed` everything written to stdout, and
`lastSize` is columns before rows. -/
structure InputLoop (σ : Type) where
  predictor : LocalPredictor σ
  lastSize : UInt16 × UInt16
  queued : List Packet
  printed : Bytes
  running : Bool
  left : Bool

/-- What `stdin().read` returns; an empty read is the end of the input. -/
inductive StdinRead where
  | ok (data : Bytes)
  | wouldBlock
  | failed
  deriving DecidableEq, Repr

/-- A pass of the loop with the answers of `size` and `read`, a frame rendered by the receive
loop, and the receive loop clearing `running`. -/
inductive InputEvent where
  | pass (size : Option (UInt16 × UInt16)) (read : StdinRead)
  | frame (rawData : Bytes)
  | stop
  deriving DecidableEq, Repr

def exitKey : UInt8 := 17

variable {σ : Type} (vt : Vt100 σ)

/-- The size is asked for twice: for the handshake, and when the thread starts. -/
def InputLoop.start (enablePredictive : Bool) (size threadSize : Option (UInt16 × UInt16)) :
    InputLoop σ where
  predictor := (LocalPredictor.new vt enablePredictive).setSize vt
    (size.getD (80, 24)).2 (size.getD (80, 24)).1
  lastSize := threadSize.getD (80, 24)
  queued := []
  printed := []
  running := true
  left := false

def InputLoop.pollSize (s : InputLoop σ) : Option (UInt16 × UInt16) → InputLoop σ
  | some (cols, rows) =>
    if (cols, rows) ≠ s.lastSize then
      { s with
        predictor := s.predictor.setSize vt rows cols
        queued := s.queued ++ [.clientResize rows cols]
        lastSize := (cols, rows) }
    else s
  | none => s

def InputLoop.typed (s : InputLoop σ) (data : Bytes) : InputLoop σ :=
  { s with
    predictor := (s.predictor.handleKeystroke vt data).1
    printed := s.printed ++ (s.predictor.handleKeystroke vt data).2
    queued := s.queued ++ [.clientInput data] }

def InputLoop.readStdin (s : InputLoop σ) : StdinRead → InputLoop σ
  | .ok data =>
    if data.isEmpty then { s with running := false, left := true }
    else if data.contains exitKey then { s with running := false, left := true }
    else s.typed vt data
  | .wouldBlock => s
  | .failed => { s with left := true }

def InputLoop.step (s : InputLoop σ) : InputEvent → InputLoop σ
  | .pass size read =>
    if s.left then s
    else if s.running then (s.pollSize vt size).readStdin vt read
    else { s with left := true }
  | .frame rawData =>
    { s with
      predictor := (s.predictor.renderFrame vt rawData).1
      printed := s.printed ++ (s.predictor.renderFrame vt rawData).2 }
  | .stop => { s with running := false }

def inputData (queued : List Packet) : Bytes :=
  queued.flatMap fun
    | .clientInput data => data
    | _ => []

def stdinReads (es : List InputEvent) : List Bytes :=
  es.filterMap fun
    | .pass _ (.ok data) => some data
    | _ => none

/-- Nothing but typing, resizes and frames; nothing depends on a read being at most 4096
bytes long. -/
def InputEvent.Undisturbed : InputEvent → Prop
  | .pass _ (.ok data) => data ≠ []
  | .pass _ .wouldBlock => True
  | .frame _ => True
  | _ => False

theorem pollSize_frame (s : InputLoop σ) (size : Option (UInt16 × UInt16)) :
    inputData (s.pollSize vt size).queued = inputData s.queued ∧
      (s.pollSize vt size).running = s.running ∧ (s.pollSize vt size).left = s.left := by
  rcases size with _ | ⟨cols, rows⟩
  · exact ⟨rfl, rfl, rfl⟩
  · simp only [InputLoop.pollSize]
    split
    · exact ⟨by simp [inputData], rfl, rfl⟩
    · exact ⟨rfl, rfl, rfl⟩

variable {vt}

theorem step_left (vt : Vt100 σ) {s : InputLoop σ} (hl : s.left = true) (e : InputEvent) :
    (s.step vt e).left = true ∧ (s.step vt e).queued = s.queued := by
  cases e with
  | pass size read => simp [InputLoop.step, hl]
  | frame rawData => exact ⟨hl, rfl⟩
  | stop => exact ⟨hl, rfl⟩

theorem run_left {s : InputLoop σ} (hl : s.left = true) (es : List InputEvent) :
    (run (InputLoop.step vt) s es).queued = s.queued := by
  induction es generalizing s with
  | nil => rfl
  | cons e es ih =>
    obtain ⟨hleft, hqueued⟩ := step_left vt hl e
    rw [run_cons, ih hleft, hqueued]

theorem stdinReads_pass (size : Option (UInt16 × UInt16)) (data : Bytes) (es : List InputEvent) :
    stdinReads (.pass size (.ok data) :: es) = data :: stdinReads es := rfl

theorem readStdin_exit (vt : Vt100 σ) (s : InputLoop σ) {data : Bytes}
    (hx : data.contains exitKey = true) :
    (s.readStdin vt (.ok data)).left = true ∧
      (s.readStdin vt (.ok data)).queued = s.queued := by
  rw [InputLoop.readStdin, if_pos hx]
  split <;> exact ⟨rfl, rfl⟩

theorem readStdin_typed (s : InputLoop σ) {data : Bytes} (hne : data ≠ [])
    (hx : ¬ data.contains exitKey = true) : s.readStdin vt (.ok data) = s.typed vt data := by
  rw [InputLoop.readStdin, if_neg (by simpa using hne), if_neg hx]

theorem typed_queued (s : InputLoop σ) (data : Bytes) :
    inputData (s.typed vt data).queued = inputData s.queued ++ data := by
  simp [InputLoop.typed, inputData]

/-- The loop queues whole reads, up to the first that holds the exit key anywhere. -/
theorem run_queued {s : InputLoop σ} (hl : s.left = false) (hr : s.running = true)
    (es : List InputEvent) (hes : ∀ e ∈ es, e.Undisturbed) :
    inputData (run (InputLoop.step vt) s es).queued =
      inputData s.queued ++
        ((stdinReads es).takeWhile fun data => !data.contains exitKey).flatten := by
  induction es generalizing s with
  | nil => simp [stdinReads]
  | cons e es ih =>
    have he : e.Undisturbed := hes e (by simp)
    have hrest : ∀ f ∈ es, f.Undisturbed := fun f hf => hes f (by simp [hf])
    cases e with
    | pass size read =>
      obtain ⟨hdata, hrun, hleft⟩ := pollSize_frame vt s size
      have hstep : s.step vt (.pass size read) = (s.pollSize vt size).readStdin vt read := by
        simp [InputLoop.step, hl, hr]
      rw [run_cons, hstep, ← hdata]
      rw [hr] at hrun
      rw [hl] at hleft
      generalize s.pollSize vt size = r at hrun hleft ⊢
      cases read with
      | ok data =>
        rw [stdinReads_pass]
        by_cases hx : data.contains exitKey = true
        · obtain ⟨hend, hqueued⟩ := readStdin_exit vt r hx
          rw [run_left hend, hqueued, List.takeWhile_cons_of_neg (by simpa using hx),
            List.flatten_nil, List.append_nil]
        · rw [readStdin_typed r he hx, ih (s := r.typed vt data) hleft hrun hrest, typed_queued,
            List.takeWhile_cons_of_pos (by simpa using hx), List.flatten_cons, List.append_assoc]
      | wouldBlock => exact ih hleft hrun hrest
      | failed => exact absurd he id
    | frame rawData => exact ih hl hr hrest
    | stop => exact absurd he id

/-- The first read that holds the exit key starts with it. -/
def ExitKeyLeads (reads : List Bytes) : Prop :=
  ∀ data, reads.find? (·.contains exitKey) = some data → data.head? = some exitKey

theorem exitKeyLeads_exit {data : Bytes} (hx : data.contains exitKey = true)
    (reads : List Bytes) : ExitKeyLeads (data :: reads) ↔ data.head? = some exitKey := by
  simp only [ExitKeyLeads, List.find?_cons, hx, Option.some.injEq, forall_eq']

theorem exitKeyLeads_typed {data : Bytes} (hx : ¬ data.contains exitKey = true)
    (reads : List Bytes) : ExitKeyLeads (data :: reads) ↔ ExitKeyLeads reads := by
  rw [Bool.not_eq_true] at hx
  simp only [ExitKeyLeads, List.find?_cons, hx]

theorem whole_reads_iff (reads : List Bytes) (hreads : ∀ data ∈ reads, data ≠ []) :
    (reads.takeWhile fun data => !data.contains exitKey).flatten =
        reads.flatten.takeWhile (· != exitKey) ↔ ExitKeyLeads reads := by
  induction reads with
  | nil => simp [ExitKeyLeads]
  | cons data reads ih =>
    have hne : data ≠ [] := hreads data (by simp)
    by_cases hx : data.contains exitKey = true
    · rw [List.takeWhile_cons_of_neg (by simpa using hx), exitKeyLeads_exit hx]
      obtain ⟨b, rest, rfl⟩ := List.exists_cons_of_ne_nil hne
      by_cases hb : b = exitKey <;> simp [hb]
    · have hnot : ∀ b ∈ data, (b != exitKey) = true := by
        intro b hb
        rw [bne_iff_ne]
        rintro rfl
        simp [hb] at hx
      rw [List.takeWhile_cons_of_pos (by simpa using hx), List.flatten_cons, List.flatten_cons,
        List.takeWhile_append_of_pos hnot, List.append_cancel_left_eq,
        ih fun d hd => hreads d (by simp [hd]), exitKeyLeads_typed hx]

theorem stdinReads_ne_nil {es : List InputEvent} (hes : ∀ e ∈ es, e.Undisturbed) :
    ∀ data ∈ stdinReads es, data ≠ [] := by
  intro data hdata
  obtain ⟨e, he, hread⟩ := List.mem_filterMap.1 hdata
  have hu := hes e he
  split at hread
  · obtain rfl := Option.some.inj hread
    exact hu
  · cases hread

/-- The bytes in front of Ctrl+Q are queued exactly if they came in earlier reads. -/
theorem typed_bytes_before_exit_iff (vt : Vt100 σ) (enablePredictive : Bool)
    (size threadSize : Option (UInt16 × UInt16)) (es : List InputEvent)
    (hes : ∀ e ∈ es, e.Undisturbed) :
    inputData (run (InputLoop.step vt)
        (InputLoop.start vt enablePredictive size threadSize) es).queued =
      (stdinReads es).flatten.takeWhile (· != exitKey) ↔ ExitKeyLeads (stdinReads es) := by
  rw [run_queued (s := InputLoop.start vt enablePredictive size threadSize) rfl rfl es hes]
  exact whole_reads_iff (stdinReads es) (stdinReads_ne_nil hes)

def exitKeyAlone : List InputEvent :=
  [.pass none (.ok [0x6C, 0x73, 0x0D]), .pass (some (100, 30)) .wouldBlock, .frame [0x61],
    .pass (some (100, 30)) (.ok [0x11, 0x78])]

theorem typed_bytes_before_exit_iff_alone :
    inputData (run (InputLoop.step recorder)
        (InputLoop.start recorder true (some (80, 24)) none) exitKeyAlone).queued =
      [0x6C, 0x73, 0x0D] :=
  (typed_bytes_before_exit_iff recorder true (some (80, 24)) none exitKeyAlone
    (by simp [exitKeyAlone, InputEvent.Undisturbed])).2
      (by simp [exitKeyAlone, stdinReads, ExitKeyLeads, exitKey])

/-- The end of a paste: two letters and Ctrl+Q in one read. -/
def exitKeyInPaste : List InputEvent := [.pass none (.ok [0x6C, 0x73, 0x11])]

theorem exit_key_swallows_typed_bytes :
    (∀ e ∈ exitKeyInPaste, e.Undisturbed) ∧
      ¬ ∃ (σ : Type) (vt : Vt100 σ) (enablePredictive : Bool)
        (size threadSize : Option (UInt16 × UInt16)),
        inputData (run (InputLoop.step vt)
            (InputLoop.start vt enablePredictive size threadSize) exitKeyInPaste).queued =
          (stdinReads exitKeyInPaste).flatten.takeWhile (· != exitKey) := by
  have hes : ∀ e ∈ exitKeyInPaste, e.Undisturbed := by
    simp [exitKeyInPaste, InputEvent.Undisturbed]
  refine ⟨hes, ?_⟩
  rintro ⟨σ, vt, enablePredictive, size, threadSize, h⟩
  have hempty : inputData (InputLoop.start vt enablePredictive size threadSize).queued = [] := rfl
  rw [run_queued (s := InputLoop.start vt enablePredictive size threadSize) rfl rfl _ hes,
    hempty] at h
  exact absurd h (by decide)

end MoshTcp.Client
