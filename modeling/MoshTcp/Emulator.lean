import MoshTcp.Protocol

/-! The vt100 emulator as the code sees it: an arbitrary state machine fed by `process`.
A panic inside `process` leaves some state behind; a panic while rendering is `none`. -/

set_option autoImplicit false

namespace MoshTcp
open ByteOrder Protocol

structure Vt100 (σ : Type) where
  new : UInt16 → UInt16 → Nat → σ
  process : σ → Bytes → Except σ σ
  size : σ → UInt16 × UInt16
  contentsFormatted : σ → Option Bytes
  cursorPosition : σ → UInt16 × UInt16
  hideCursor : σ → Bool
  cell : σ → UInt16 → UInt16 → Option String

/-- `process` under `catch_unwind`: a panic replaces the emulator by a fresh one. -/
def Vt100.processSafely {σ : Type} (vt : Vt100 σ) (parser : σ) (chunk : Bytes) : σ :=
  match vt.process parser chunk with
  | .ok parser => parser
  | .error parser => vt.new (vt.size parser).1 (vt.size parser).2 1000

/-- `parser` was created once and then given exactly the bytes of `history`. -/
def Vt100.Fed {σ : Type} (vt : Vt100 σ) (parser : σ) (history : Bytes) : Prop :=
  ∃ (rows cols : UInt16) (chunks : List Bytes), chunks.flatten = history ∧
    chunks.foldl vt.processSafely (vt.new rows cols 1000) = parser

/-- The same without any panic on the way, so that nothing was forgotten. -/
def Vt100.History {σ : Type} (vt : Vt100 σ) (parser : σ) (history : Bytes) : Prop :=
  ∃ (rows cols : UInt16) (chunks : List Bytes), chunks.flatten = history ∧
    chunks.foldlM vt.process (vt.new rows cols 1000) = .ok parser

section Fed
variable {σ : Type} {vt : Vt100 σ} {parser : σ} {history : Bytes}

theorem Vt100.fed_new (vt : Vt100 σ) (rows cols : UInt16) : vt.Fed (vt.new rows cols 1000) [] :=
  ⟨rows, cols, [], rfl, rfl⟩

theorem Vt100.Fed.process (h : vt.Fed parser history) (chunk : Bytes) :
    vt.Fed (vt.processSafely parser chunk) (history ++ chunk) := by
  obtain ⟨rows, cols, chunks, rfl, rfl⟩ := h
  exact ⟨rows, cols, chunks ++ [chunk], by simp, by simp⟩

theorem Vt100.foldlM_process (hproc : ∀ parser chunk, ∃ next, vt.process parser chunk = .ok next)
    (chunks : List Bytes) (parser : σ) :
    chunks.foldlM vt.process parser = .ok (chunks.foldl vt.processSafely parser) := by
  induction chunks generalizing parser with
  | nil => rfl
  | cons chunk chunks ih =>
    obtain ⟨next, hnext⟩ := hproc parser chunk
    have hsafe : vt.processSafely parser chunk = next := by simp [processSafely, hnext]
    rw [List.foldlM_cons, hnext, List.foldl_cons, hsafe]
    exact ih next

theorem Vt100.Fed.toHistory (h : vt.Fed parser history)
    (hproc : ∀ parser chunk, ∃ next, vt.process parser chunk = .ok next) :
    vt.History parser history := by
  obtain ⟨rows, cols, chunks, hc, rfl⟩ := h
  exact ⟨rows, cols, chunks, hc, foldlM_process hproc chunks _⟩

end Fed

/-- An emulator that only remembers its size and its input. -/
def recorder : Vt100 (UInt16 × UInt16 × Bytes) where
  new := fun rows cols _ => (rows, cols, [])
  process := fun (rows, cols, history) chunk => .ok (rows, cols, history ++ chunk)
  size := fun (rows, cols, _) => (rows, cols)
  contentsFormatted := fun (_, _, history) => some history
  cursorPosition := fun _ => (0, 0)
  hideCursor := fun _ => false
  cell := fun _ _ _ => none

def atLeastOne (x : UInt16) : UInt16 := if x < 1 then 1 else x

def decimal (n : Nat) : Bytes := asBytes (toString n)

/-- `x + 1` on a u16: in a build that checks for overflow it panics at the largest. -/
def checkedSucc (x : UInt16) : Option UInt16 := if x = 65535 then none else some (x + 1)

/-- `generate_atomic_screen_frame` of src/server.rs. -/
def generateAtomicScreenFrame {σ : Type} (vt : Vt100 σ) (parser : σ) : Option Bytes := do
  let contents ← vt.contentsFormatted parser
  let (row, col) := vt.cursorPosition parser
  let row ← checkedSucc row
  let col ← checkedSucc col
  some ([0x1b, 0x5B, 0x48, 0x1b, 0x5B, 0x32, 0x4A] ++ contents ++
    [0x1b, 0x5B] ++ decimal row.toNat ++ [0x3B] ++ decimal col.toNat ++ [0x48] ++
    [0x1b, 0x5B, 0x3F, 0x32, 0x35, if vt.hideCursor parser then 0x6C else 0x68])

@[simp] theorem checkedSucc_zero : checkedSucc 0 = some 1 := rfl

theorem checkedSucc_of_ne {x : UInt16} (h : x ≠ 65535) : checkedSucc x = some (x + 1) := if_neg h

theorem generateAtomicScreenFrame_eq_some {σ : Type} {vt : Vt100 σ} {parser : σ} {frame : Bytes} :
    generateAtomicScreenFrame vt parser = some frame ↔
      ∃ contents row col, vt.contentsFormatted parser = some contents ∧
        checkedSucc (vt.cursorPosition parser).1 = some row ∧
        checkedSucc (vt.cursorPosition parser).2 = some col ∧
        [0x1b, 0x5B, 0x48, 0x1b, 0x5B, 0x32, 0x4A] ++ contents ++
          [0x1b, 0x5B] ++ decimal row.toNat ++ [0x3B] ++ decimal col.toNat ++ [0x48] ++
          [0x1b, 0x5B, 0x3F, 0x32, 0x35, if vt.hideCursor parser then 0x6C else 0x68] = frame := by
  simp only [generateAtomicScreenFrame, Option.bind_eq_bind, Option.bind_eq_some_iff,
    Option.some.injEq, exists_and_left]

/-! The recording emulator shows its history and nothing else. -/

theorem recorder_foldl (chunks : List Bytes) (rows cols : UInt16) (history : Bytes) :
    chunks.foldl recorder.processSafely (rows, cols, history) =
      (rows, cols, history ++ chunks.flatten) := by
  induction chunks generalizing history with
  | nil => simp
  | cons chunk chunks ih =>
    rw [List.foldl_cons, List.flatten_cons, ← List.append_assoc]
    exact ih (history ++ chunk)

theorem recorder_process (parser : UInt16 × UInt16 × Bytes) (chunk : Bytes) :
    ∃ next, recorder.process parser chunk = .ok next := ⟨_, rfl⟩

theorem recorder_history {parser : UInt16 × UInt16 × Bytes} {history : Bytes}
    (h : recorder.History parser history) : parser.2.2 = history := by
  obtain ⟨rows, cols, chunks, rfl, hc⟩ := h
  rw [Vt100.foldlM_process recorder_process] at hc
  have hp : parser = chunks.foldl recorder.processSafely (rows, cols, []) := by
    injection hc with hc
    exact hc.symm
  rw [hp, recorder_foldl]
  rfl

theorem recorder_frame (parser : UInt16 × UInt16 × Bytes) :
    generateAtomicScreenFrame recorder parser =
      some ([0x1b, 0x5B, 0x48, 0x1b, 0x5B, 0x32, 0x4A] ++ parser.2.2 ++
        [0x1b, 0x5B] ++ decimal 1 ++ [0x3B] ++ decimal 1 ++ [0x48] ++
        [0x1b, 0x5B, 0x3F, 0x32, 0x35, 0x68]) := rfl

theorem recorder_frame_injective {p q : UInt16 × UInt16 × Bytes}
    (h : generateAtomicScreenFrame recorder p = generateAtomicScreenFrame recorder q) :
    p.2.2 = q.2.2 := by
  simpa [recorder_frame] using h

end MoshTcp
