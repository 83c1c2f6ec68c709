import MoshTcp.Emulator
import MoshTcp.Ansi

/-! The local echo of src/predictive.rs. Every operation returns the new predictor and
the bytes it prints; the time stamp of a prediction is never read and left out. -/

set_option autoImplicit false

namespace MoshTcp.Predictive
open ByteOrder Protocol Ansi

structure PredictedCell where
  row : UInt16
  col : UInt16
  character : Char
  epoch : UInt64
  deriving DecidableEq, Repr

structure LocalPredictor (σ : Type) where
  enabled : Bool
  predictionEpoch : UInt64
  confirmedEpoch : UInt64
  predictions : List PredictedCell
  vtParser : σ
  suspendPredictions : Bool

variable {σ : Type} (vt : Vt100 σ)

def LocalPredictor.new (enabled : Bool) : LocalPredictor σ where
  enabled := enabled
  predictionEpoch := 1
  confirmedEpoch := 0
  predictions := []
  vtParser := vt.new 24 80 1000
  suspendPredictions := false

def LocalPredictor.setSuspended (p : LocalPredictor σ) (suspended : Bool) : LocalPredictor σ :=
  { p with
    suspendPredictions := suspended
    predictions := if suspended then [] else p.predictions }

def LocalPredictor.setSize (p : LocalPredictor σ) (rows cols : UInt16) : LocalPredictor σ :=
  { p with vtParser := vt.new (atLeastOne rows) (atLeastOne cols) 1000 }

def LocalPredictor.becomeTentative (p : LocalPredictor σ) : LocalPredictor σ :=
  { p with predictionEpoch := p.predictionEpoch + 1 }

/-- Back one column, a blank, back again. -/
def eraseCell : Bytes := [0x08, 0x20, 0x08]

def LocalPredictor.clearPredictions (p : LocalPredictor σ) : LocalPredictor σ × Bytes :=
  if p.enabled && !p.predictions.isEmpty then
    ({ p with predictions := [] }, (List.replicate p.predictions.length eraseCell).flatten)
  else (p, [])

def LocalPredictor.resetPredictions (p : LocalPredictor σ) : LocalPredictor σ :=
  { p with predictions := [] }

def LocalPredictor.reset (p : LocalPredictor σ) : LocalPredictor σ :=
  p.resetPredictions.becomeTentative

/-- The character in underlined style, then all attributes off. -/
def echo (byte : UInt8) : Bytes :=
  [0x1b, 0x5B, 0x34, 0x6D] ++ [byte] ++ [0x1b, 0x5B, 0x30, 0x6D]

/-- The loop variables of `handle_keystroke`, and what it has printed. -/
structure Typing (σ : Type) where
  predictor : LocalPredictor σ
  curRow : UInt16
  curCol : UInt16
  out : Bytes

def Typing.giveUp (t : Typing σ) : Typing σ :=
  { t with
    predictor := (t.predictor.becomeTentative.clearPredictions).1
    out := t.out ++ (t.predictor.becomeTentative.clearPredictions).2 }

def printable (byte : UInt8) : Bool := 32 ≤ byte && byte ≤ 126

def keystroke (t : Typing σ) (byte : UInt8) : Typing σ :=
  if printable byte then
    { t with
      predictor := { t.predictor with
        predictions := t.predictor.predictions ++
          [⟨t.curRow, t.curCol, Char.ofNat byte.toNat, t.predictor.predictionEpoch⟩] }
      out := t.out ++ echo byte
      curCol := t.curCol + 1 }
  else if byte = 13 ∨ byte = 10 then t.giveUp
  else if byte = 8 ∨ byte = 127 then
    match t.predictor.predictions.getLast? with
    | some lastPred =>
      { t with
        predictor := { t.predictor with predictions := t.predictor.predictions.dropLast }
        out := t.out ++ eraseCell
        curRow := lastPred.row
        curCol := lastPred.col }
    | none => t
  else t.giveUp

def LocalPredictor.handleKeystroke (p : LocalPredictor σ) (data : Bytes) :
    LocalPredictor σ × Bytes :=
  if !p.enabled || p.suspendPredictions then (p, [])
  else if data.contains 27 then p.becomeTentative.clearPredictions
  else
    let (curRow, curCol) := vt.cursorPosition p.vtParser
    let t := data.foldl keystroke ⟨p, curRow, curCol, []⟩
    (t.predictor, t.out)

/-- `ESC [ ? digits final`. -/
def altScreen (digits : Bytes) (final : UInt8) : Bytes := [0x1b, 0x5B, 0x3F] ++ digits ++ [final]

def switchesAlt (rawData : Bytes) (final : UInt8) : Bool :=
  containsSubslice rawData (altScreen [0x31, 0x30, 0x34, 0x39] final) ||
    containsSubslice rawData (altScreen [0x31, 0x30, 0x34, 0x37] final) ||
    containsSubslice rawData (altScreen [0x34, 0x37] final)

def clearsScreen (rawData : Bytes) : Bool :=
  containsSubslice rawData [0x1b, 0x5B, 0x48, 0x1b, 0x5B, 0x32, 0x4A] ||
    containsSubslice rawData [0x1b, 0x5B, 0x32, 0x4A]

def isMatched (screen : σ) (pred : PredictedCell) : Bool :=
  match vt.cell screen pred.row pred.col with
  | some contents => contents == pred.character.toString
  | none => false

/-- The culling loop: the new confirmed epoch and the number of confirmed predictions. -/
def cull (matched : PredictedCell → Bool) : UInt64 → List PredictedCell → UInt64 × Nat
  | confirmedEpoch, [] => (confirmedEpoch, 0)
  | confirmedEpoch, pred :: rest =>
    if matched pred then
      let (epoch, count) :=
        cull matched (if pred.epoch > confirmedEpoch then pred.epoch else confirmedEpoch) rest
      (epoch, count + 1)
    else (confirmedEpoch, 0)

/-- Step 4 of `inspect_server_frame`: after the loop the rest is truncated and the
confirmed predictions are drained. -/
def LocalPredictor.cullPredictions (p : LocalPredictor σ) : LocalPredictor σ :=
  let (epoch, confirmedCount) := cull (isMatched vt p.vtParser) p.confirmedEpoch p.predictions
  { p with
    confirmedEpoch := epoch
    predictions := (p.predictions.take confirmedCount).drop confirmedCount }

def LocalPredictor.inspectServerFrame (p : LocalPredictor σ) (rawData : Bytes) :
    LocalPredictor σ × Bytes :=
  if !p.enabled then (p, [])
  else
    let p := { p with vtParser := vt.processSafely p.vtParser rawData }
    if switchesAlt rawData 0x68 then
      let (p, out) := p.clearPredictions
      ({ p with suspendPredictions := true, predictions := [] }, out)
    else
      let p := if switchesAlt rawData 0x6C then
          { p with suspendPredictions := false, predictions := [] }
        else p
      if clearsScreen rawData then (p.resetPredictions, [])
      else (p.cullPredictions vt, [])

/-- A frame as the client's receive loop renders it. -/
def LocalPredictor.renderFrame (p : LocalPredictor σ) (rawData : Bytes) :
    LocalPredictor σ × Bytes :=
  let (p, out) := p.inspectServerFrame vt rawData
  let (p, erased) := p.clearPredictions
  (p, out ++ erased ++ rawData)

theorem keystroke_backspace (t : Typing σ) {byte : UInt8} (h : byte = 8 ∨ byte = 127) :
    keystroke t byte =
      match t.predictor.predictions.getLast? with
      | some lastPred =>
        { t with
          predictor := { t.predictor with predictions := t.predictor.predictions.dropLast }
          out := t.out ++ eraseCell
          curRow := lastPred.row
          curCol := lastPred.col }
      | none => t := by
  have hprint : printable byte = false := by
    rcases h with rfl | rfl <;> decide
  have hcr : ¬ (byte = 13 ∨ byte = 10) := by
    rcases h with rfl | rfl <;> decide
  simp only [keystroke, hprint, hcr, h, if_true, if_false, Bool.false_eq_true]

theorem keystroke_giveUp (t : Typing σ) {byte : UInt8} (hprint : printable byte = false)
    (hbs : ¬ (byte = 8 ∨ byte = 127)) : keystroke t byte = t.giveUp := by
  simp only [keystroke, hprint, hbs, if_false, Bool.false_eq_true, ite_self]

/-! The predictions never outlive an inspected frame: what is confirmed is drained and
the rest is truncated. -/

theorem cullPredictions_predictions (p : LocalPredictor σ) :
    (p.cullPredictions vt).predictions = [] := by
  simp only [LocalPredictor.cullPredictions]
  rw [List.drop_eq_nil_iff]
  exact List.length_take_le _ _

theorem inspectServerFrame_predictions (p : LocalPredictor σ) (rawData : Bytes)
    (h : p.enabled = false → p.predictions = []) :
    (p.inspectServerFrame vt rawData).1.predictions = [] := by
  cases he : p.enabled with
  | false => simp [LocalPredictor.inspectServerFrame, he, h he]
  | true =>
    simp only [LocalPredictor.inspectServerFrame, he, Bool.not_true, Bool.false_eq_true, if_false]
    split
    · rfl
    · split
      · rfl
      · exact cullPredictions_predictions vt _

theorem hasWindow_eq_false {needle bs : Bytes} {b : UInt8} (hb : b ∉ bs) :
    hasWindow (b :: needle) bs = false := by
  induction bs with
  | nil => rfl
  | cons c bs ih =>
    simp only [List.mem_cons, not_or] at hb
    simp [hasWindow, List.isPrefixOf, ih hb.2, hb.1]

theorem containsSubslice_plain {raw needle : Bytes} (h : (0x1b : UInt8) ∉ raw) :
    containsSubslice raw (0x1b :: needle) = false := by
  simp [containsSubslice, hasWindow_eq_false h]

theorem inspectServerFrame_plain (p : LocalPredictor σ) {rawData : Bytes}
    (h : (0x1b : UInt8) ∉ rawData) :
    (p.inspectServerFrame vt rawData).2 = [] ∧
      (p.inspectServerFrame vt rawData).1.enabled = p.enabled := by
  have halt : ∀ final, switchesAlt rawData final = false := by
    intro final
    simp [switchesAlt, altScreen, containsSubslice_plain h]
  have hclear : clearsScreen rawData = false := by
    simp [clearsScreen, containsSubslice_plain h]
  cases he : p.enabled with
  | false => simp [LocalPredictor.inspectServerFrame, he]
  | true =>
    simp [LocalPredictor.inspectServerFrame, LocalPredictor.cullPredictions, he, halt, hclear]

end MoshTcp.Predictive
