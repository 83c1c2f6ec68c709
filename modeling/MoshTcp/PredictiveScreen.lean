import MoshTcp.Predictive
import MoshTcp.Lib.Runs
import Mathlib.Logic.Function.Basic

/-! What the local echo does to the screen, on a terminal of one unbounded row. The
second row of a display is a terminal that receives the server's frames only. -/

set_option autoImplicit false

namespace MoshTcp.Predictive
open ByteOrder Protocol Runs

inductive Mode where
  | ground | escape | csi
  deriving DecidableEq, Repr

structure Row where
  cells : Nat → UInt8
  cursor : Nat
  mode : Mode

def Row.blank : Row := ⟨fun _ => 0x20, 0, .ground⟩

/-- One byte of output. Escape sequences only change attributes, which the row does not
have. -/
def Row.put (t : Row) (b : UInt8) : Row :=
  match t.mode with
  | .escape => { t with mode := if b = 0x5B then .csi else .ground }
  | .csi => if 0x40 ≤ b ∧ b ≤ 0x7E then { t with mode := .ground } else t
  | .ground =>
    if b = 0x1b then { t with mode := .escape }
    else if b = 0x08 then { t with cursor := t.cursor - 1 }
    else if printable b then
      { t with cells := Function.update t.cells t.cursor b, cursor := t.cursor + 1 }
    else t

def Row.write (t : Row) (bs : Bytes) : Row := bs.foldl Row.put t

section Row
variable {t : Row}

theorem Row.write_append (t : Row) (as bs : Bytes) : t.write (as ++ bs) = (t.write as).write bs :=
  List.foldl_append

theorem printable_not_control {b : UInt8} (h : printable b = true) : b ≠ 0x1b ∧ b ≠ 0x08 := by
  constructor
  · rintro rfl
    simp [printable] at h
  · rintro rfl
    simp [printable] at h

theorem Row.put_printable (ht : t.mode = .ground) {b : UInt8} (hb : printable b = true) :
    t.put b = { t with cells := Function.update t.cells t.cursor b, cursor := t.cursor + 1 } := by
  obtain ⟨hesc, hbs⟩ := printable_not_control hb
  simp [put, ht, hesc, hbs, hb]

theorem Row.write_echo (ht : t.mode = .ground) {b : UInt8} (hb : printable b = true) :
    t.write (echo b) =
      { t with cells := Function.update t.cells t.cursor b, cursor := t.cursor + 1 } := by
  have hunderline : t.write [0x1b, 0x5B, 0x34, 0x6D] = t := by
    cases t
    simp_all [write, put]
  have hreset : ∀ u : Row, u.mode = .ground → u.write [0x1b, 0x5B, 0x30, 0x6D] = u := by
    intro u hu
    cases u
    simp_all [write, put]
  rw [echo, write_append, write_append, hunderline]
  have hput : t.write [b] = t.put b := rfl
  rw [hput, put_printable ht hb]
  exact hreset _ ht

theorem Row.write_eraseCell (ht : t.mode = .ground) :
    t.write eraseCell =
      { t with cells := Function.update t.cells (t.cursor - 1) 0x20, cursor := t.cursor - 1 } := by
  have hsp : printable 0x20 = true := by decide
  simp [write, eraseCell, put, ht, hsp]

theorem Row.write_plain (raw : Bytes) (hraw : ∀ b ∈ raw, printable b = true)
    (ht : t.mode = .ground) :
    (t.write raw).mode = .ground ∧ (t.write raw).cursor = t.cursor + raw.length ∧
      ∀ i ≥ t.cursor + raw.length, (t.write raw).cells i = t.cells i := by
  induction raw generalizing t with
  | nil => exact ⟨ht, rfl, fun _ _ => rfl⟩
  | cons b raw ih =>
    have hput := put_printable ht (hraw b (by simp))
    have hwrite : t.write (b :: raw) = (t.put b).write raw := rfl
    obtain ⟨hm, hc, hcells⟩ := ih (t := t.put b) (fun c hcm => hraw c (by simp [hcm]))
      (by rw [hput]; exact ht)
    rw [hput] at hc hcells
    rw [hwrite]
    refine ⟨hm, ?_, ?_⟩
    · rw [hput, hc, List.length_cons]
      simp only
      omega
    · intro i hi
      rw [List.length_cons] at hi
      rw [hput, hcells i (by simp only; omega)]
      exact Function.update_of_ne (by omega) _ _

end Row

variable {σ : Type} (vt : Vt100 σ)

structure Display (σ : Type) where
  predictor : LocalPredictor σ
  localRow : Row
  serverRow : Row

inductive Input where
  | keys (data : Bytes)
  | frame (rawData : Bytes)

/-- Typed text and backspaces, and frames of plain text. -/
def Input.Plain : Input → Prop
  | .keys data => ∀ b ∈ data, printable b = true ∨ b = 8 ∨ b = 127
  | .frame rawData => ∀ b ∈ rawData, printable b = true

instance (e : Input) : Decidable e.Plain :=
  match e with
  | .keys data => inferInstanceAs (Decidable (∀ b ∈ data, printable b = true ∨ b = 8 ∨ b = 127))
  | .frame rawData => inferInstanceAs (Decidable (∀ b ∈ rawData, printable b = true))

def Display.start (enabled : Bool) (rows cols : UInt16) : Display σ where
  predictor := (LocalPredictor.new vt enabled).setSize vt rows cols
  localRow := .blank
  serverRow := .blank

def Display.step (d : Display σ) : Input → Display σ
  | .keys data =>
    let (predictor, out) := d.predictor.handleKeystroke vt data
    { d with predictor := predictor, localRow := d.localRow.write out }
  | .frame rawData =>
    let (predictor, out) := d.predictor.renderFrame vt rawData
    { predictor := predictor
      localRow := d.localRow.write out
      serverRow := d.serverRow.write rawData }

def Display.Same (d : Display σ) : Prop :=
  d.localRow.cells = d.serverRow.cells ∧ d.localRow.cursor = d.serverRow.cursor

/-- The local row is the server's row with the outstanding predictions behind its cursor. -/
structure Overlay (p : LocalPredictor σ) (localRow serverRow : Row) : Prop where
  localGround : localRow.mode = .ground
  serverGround : serverRow.mode = .ground
  offset : localRow.cursor = serverRow.cursor + p.predictions.length
  before : ∀ i < serverRow.cursor, localRow.cells i = serverRow.cells i
  localBlank : ∀ i ≥ localRow.cursor, localRow.cells i = 0x20
  serverBlank : ∀ i ≥ serverRow.cursor, serverRow.cells i = 0x20
  disabled : p.enabled = false → p.predictions = []

section Overlay
variable {p : LocalPredictor σ} {localRow serverRow : Row}

theorem Overlay.echo (h : Overlay p localRow serverRow) (he : p.enabled = true) {b : UInt8}
    (hb : printable b = true) (cell : PredictedCell) :
    Overlay { p with predictions := p.predictions ++ [cell] } (localRow.write (echo b))
      serverRow := by
  have hoff := h.offset
  rw [Row.write_echo h.localGround hb]
  refine ⟨h.localGround, h.serverGround, ?_, ?_, ?_, h.serverBlank, by simp [he]⟩
  · simp only [List.length_append, List.length_singleton]
    omega
  · intro i hi
    have hne : i ≠ localRow.cursor := by omega
    exact (Function.update_of_ne hne _ _).trans (h.before i hi)
  · intro i hi
    simp only [ge_iff_le] at hi
    have hne : i ≠ localRow.cursor := by omega
    exact (Function.update_of_ne hne _ _).trans (h.localBlank i (by omega))

theorem Overlay.erase (h : Overlay p localRow serverRow) (he : p.enabled = true)
    (hne : p.predictions ≠ []) :
    Overlay { p with predictions := p.predictions.dropLast } (localRow.write eraseCell)
      serverRow := by
  have hoff := h.offset
  have hpos : 0 < p.predictions.length := List.length_pos_iff.2 hne
  rw [Row.write_eraseCell h.localGround]
  refine ⟨h.localGround, h.serverGround, ?_, ?_, ?_, h.serverBlank, by simp [he]⟩
  · simp only [List.length_dropLast]
    omega
  · intro i hi
    have hi' : i ≠ localRow.cursor - 1 := by omega
    exact (Function.update_of_ne hi' _ _).trans (h.before i hi)
  · intro i hi
    by_cases hi' : i = localRow.cursor - 1
    · simp [hi']
    · simp only [ge_iff_le] at hi
      exact (Function.update_of_ne hi' _ _).trans (h.localBlank i (by omega))

theorem keystroke_overlay {t : Typing σ} (h : Overlay t.predictor (localRow.write t.out) serverRow)
    (he : t.predictor.enabled = true) {b : UInt8}
    (hb : printable b = true ∨ b = 8 ∨ b = 127) :
    Overlay (keystroke t b).predictor (localRow.write (keystroke t b).out) serverRow ∧
      (keystroke t b).predictor.enabled = true := by
  by_cases hp : printable b = true
  · simp only [keystroke, hp, if_true, Row.write_append]
    exact ⟨h.echo he hp _, he⟩
  · have hbs : b = 8 ∨ b = 127 := hb.resolve_left hp
    rw [keystroke_backspace t hbs]
    cases hl : t.predictor.predictions.getLast? with
    | none => exact ⟨h, he⟩
    | some last =>
      have hne : t.predictor.predictions ≠ [] := by
        intro h0
        simp [h0] at hl
      simp only [Row.write_append]
      exact ⟨h.erase he hne, he⟩

theorem keystrokes_overlay (data : Bytes) (hdata : ∀ b ∈ data, printable b = true ∨ b = 8 ∨ b = 127)
    {t : Typing σ} (h : Overlay t.predictor (localRow.write t.out) serverRow)
    (he : t.predictor.enabled = true) :
    Overlay (data.foldl keystroke t).predictor (localRow.write (data.foldl keystroke t).out)
      serverRow := by
  induction data generalizing t with
  | nil => exact h
  | cons b data ih =>
    obtain ⟨h', he'⟩ := keystroke_overlay h he (hdata b (by simp))
    exact ih (fun c hc => hdata c (by simp [hc])) h' he'

theorem handleKeystroke_overlay (h : Overlay p localRow serverRow) (data : Bytes)
    (hdata : ∀ b ∈ data, printable b = true ∨ b = 8 ∨ b = 127) :
    Overlay (p.handleKeystroke vt data).1 (localRow.write (p.handleKeystroke vt data).2)
      serverRow := by
  by_cases hoff : (!p.enabled || p.suspendPredictions) = true
  · simp only [LocalPredictor.handleKeystroke, hoff, if_true]
    exact h
  · have hesc : data.contains 27 = false := by
      rw [← Bool.not_eq_true, List.contains_iff_mem]
      intro hm
      have := hdata 27 hm
      simp [printable] at this
    have he : p.enabled = true := by
      simp only [Bool.or_eq_true, Bool.not_eq_true', not_or, Bool.not_eq_false] at hoff
      exact hoff.1
    simp only [LocalPredictor.handleKeystroke, hoff, hesc, Bool.false_eq_true, if_false]
    exact keystrokes_overlay data hdata h he

/-- A frame prints nothing but itself, and afterwards no prediction is outstanding. -/
theorem renderFrame_plain (hd : p.enabled = false → p.predictions = []) {rawData : Bytes}
    (hraw : ∀ b ∈ rawData, printable b = true) :
    (p.renderFrame vt rawData).2 = rawData ∧ (p.renderFrame vt rawData).1.predictions = [] := by
  have hesc : (0x1b : UInt8) ∉ rawData := by
    intro hm
    exact (printable_not_control (hraw _ hm)).1 rfl
  have hnone := inspectServerFrame_predictions vt p rawData hd
  have hout := (inspectServerFrame_plain vt p hesc).1
  simp [LocalPredictor.renderFrame, LocalPredictor.clearPredictions, hnone, hout]

end Overlay

def NoneOutstanding (d : Display σ) : Input → Prop
  | .keys _ => True
  | .frame _ => d.predictor.predictions = []

def SameAfterFrame (d : Display σ) : Input → Prop
  | .keys _ => True
  | .frame rawData => (d.step vt (.frame rawData)).Same

def Display.Overlaid (d : Display σ) : Prop := Overlay d.predictor d.localRow d.serverRow

theorem overlaid_same {d : Display σ} (h : d.Overlaid) (hnone : d.predictor.predictions = []) :
    d.localRow = d.serverRow := by
  have hoff := h.offset
  rw [hnone] at hoff
  have hcells : d.localRow.cells = d.serverRow.cells := by
    funext i
    by_cases hi : i < d.serverRow.cursor
    · exact h.before i hi
    · rw [h.localBlank i (by simp at hoff; omega), h.serverBlank i (by omega)]
  have hmode : d.localRow.mode = d.serverRow.mode := h.localGround.trans h.serverGround.symm
  cases hl : d.localRow
  cases hs : d.serverRow
  simp_all

theorem frame_same_iff {d : Display σ} (h : d.Overlaid) {rawData : Bytes}
    (hraw : ∀ b ∈ rawData, printable b = true) :
    (d.step vt (.frame rawData)).Same ↔ d.predictor.predictions = [] := by
  have hout := (renderFrame_plain vt h.disabled hraw).1
  simp only [Display.step, Display.Same, hout]
  constructor
  -- a frame moves both cursors alike, so any prediction still shows as an offset
  · rintro ⟨-, hcursor⟩
    rw [(Row.write_plain rawData hraw h.localGround).2.1,
      (Row.write_plain rawData hraw h.serverGround).2.1, h.offset] at hcursor
    exact List.length_eq_zero_iff.1 (by omega)
  · intro hnone
    rw [overlaid_same h hnone]
    exact ⟨rfl, rfl⟩

theorem step_overlaid {d : Display σ} (h : d.Overlaid) (e : Input) (he : e.Plain)
    (hnone : NoneOutstanding d e) : (d.step vt e).Overlaid := by
  cases e with
  | keys data => exact handleKeystroke_overlay vt h data he
  | frame rawData =>
    obtain ⟨hout, hafter⟩ := renderFrame_plain vt h.disabled he
    obtain ⟨hmode, hcursor, hcells⟩ := Row.write_plain rawData he h.serverGround
    have hblank : ∀ i ≥ (d.serverRow.write rawData).cursor,
        (d.serverRow.write rawData).cells i = 0x20 := by
      intro i hi
      rw [hcursor] at hi
      rw [hcells i hi]
      exact h.serverBlank i (by omega)
    simp only [Display.Overlaid, Display.step, hout]
    rw [overlaid_same h hnone]
    exact ⟨hmode, hmode, by simp [hafter], fun _ _ => rfl, hblank, hblank, fun _ => hafter⟩

theorem start_overlaid (enabled : Bool) (rows cols : UInt16) :
    (Display.start vt enabled rows cols).Overlaid :=
  ⟨rfl, rfl, rfl, fun _ _ => rfl, fun _ _ => rfl, fun _ _ => rfl, fun _ => rfl⟩

theorem echo_transparent_iff (vt : Vt100 σ) (enabled : Bool) (rows cols : UInt16)
    (es : List Input) (hes : ∀ e ∈ es, e.Plain) :
    Along (Display.step vt) (SameAfterFrame vt) (Display.start vt enabled rows cols) es ↔
      Along (Display.step vt) NoneOutstanding (Display.start vt enabled rows cols) es := by
  refine along_iff_of_invariant (start_overlaid vt enabled rows cols) hes ?_ ?_
  · intro d e h he
    cases e with
    | keys data => exact Iff.rfl
    | frame rawData => exact frame_same_iff vt h he
  · intro d e h he hnone
    exact step_overlaid vt h e he hnone

theorem echo_transparent_iff_taken_back :
    Along (Display.step recorder) (SameAfterFrame recorder)
      (Display.start recorder true 24 80) [.keys [0x65, 0x7F], .frame [0x24, 0x20]] :=
  (echo_transparent_iff recorder true 24 80 _ (by decide +kernel)).2 ⟨trivial, rfl, trivial⟩

/-- The letter `e` is typed and the server echoes it: whatever the emulator says about the
prediction, the screen reads `ee`. -/
theorem echoed_letter_doubled :
    ¬ ∃ (σ : Type) (vt : Vt100 σ), Along (Display.step vt) (SameAfterFrame vt)
      (Display.start vt true 24 80) [.keys [0x65], .frame [0x65]] := by
  rintro ⟨σ, vt, -, h, -⟩
  have hov := step_overlaid vt (start_overlaid vt true 24 80) (.keys [0x65])
    (by decide +kernel) trivial
  have hnone := (frame_same_iff vt hov (by decide +kernel)).1 h
  have hp : printable 0x65 = true := by decide
  simp [Display.step, Display.start, LocalPredictor.handleKeystroke, LocalPredictor.setSize,
    LocalPredictor.new, keystroke, hp] at hnone

end MoshTcp.Predictive
