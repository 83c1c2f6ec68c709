import MoshTcp.PredictiveState

/-! How typed bytes are grouped into calls. `handle_keystroke` starts each call at the cursor
of the emulator, which has not moved since the call before when no frame came in between. -/

set_option autoImplicit false

namespace MoshTcp.Predictive
open ByteOrder Protocol

/-- A typed letter: its column behind the base, and the epoch it was typed in. -/
structure Letter where
  offset : Nat
  character : Char
  epoch : UInt64
  deriving DecidableEq, Repr

/-- What a call has typed so far, without knowing where its cursor started. The base is the
start, or the last earlier prediction that a backspace took back. -/
structure Draft where
  older : List PredictedCell
  letters : List Letter
  base : Option PredictedCell
  offset : Nat
  epoch : UInt64
  out : Bytes

def Draft.start (older : List PredictedCell) (epoch : UInt64) : Draft where
  older := older
  letters := []
  base := none
  offset := 0
  epoch := epoch
  out := []

def Draft.letter (d : Draft) (byte : UInt8) : Draft :=
  { d with
    letters := d.letters ++ [⟨d.offset, Char.ofNat byte.toNat, d.epoch⟩]
    offset := d.offset + 1
    out := d.out ++ echo byte }

def Draft.backspace (d : Draft) : Draft :=
  match d.letters.getLast? with
  | some last =>
    { d with letters := d.letters.dropLast, offset := last.offset, out := d.out ++ eraseCell }
  | none =>
    match d.older.getLast? with
    | some last =>
      { d with
        older := d.older.dropLast
        base := some last
        offset := 0
        out := d.out ++ eraseCell }
    | none => d

def Draft.giveUp (d : Draft) : Draft :=
  { d with
    older := []
    letters := []
    epoch := d.epoch + 1
    out := d.out ++ (List.replicate (d.older.length + d.letters.length) eraseCell).flatten }

def Draft.key (d : Draft) (byte : UInt8) : Draft :=
  if printable byte then d.letter byte
  else if byte = 8 ∨ byte = 127 then d.backspace
  else d.giveUp

def draft (older : List PredictedCell) (epoch : UInt64) (data : Bytes) : Draft :=
  data.foldl Draft.key (.start older epoch)

structure Spot where
  row : UInt16
  col : UInt16
  deriving DecidableEq, Repr

def Spot.right (at_ : Spot) (n : Nat) : Spot := { at_ with col := at_.col + UInt16.ofNat n }

def Draft.baseSpot (d : Draft) (cursor : Spot) : Spot :=
  match d.base with
  | some cell => ⟨cell.row, cell.col⟩
  | none => cursor

def Draft.cursor (d : Draft) (cursor : Spot) : Spot := (d.baseSpot cursor).right d.offset

def Letter.place (l : Letter) (base : Spot) : PredictedCell :=
  ⟨base.row, (base.right l.offset).col, l.character, l.epoch⟩

def Draft.predictions (d : Draft) (cursor : Spot) : List PredictedCell :=
  d.older ++ d.letters.map (Letter.place · (d.baseSpot cursor))

variable {σ : Type}

def Draft.typing (d : Draft) (p : LocalPredictor σ) (cursor : Spot) (out : Bytes) : Typing σ where
  predictor := { p with predictions := d.predictions cursor, predictionEpoch := d.epoch }
  curRow := (d.cursor cursor).row
  curCol := (d.cursor cursor).col
  out := out ++ d.out

section Refine
variable {p : LocalPredictor σ} (d : Draft) (cursor : Spot) (out : Bytes)

theorem letter_refines {byte : UInt8} (h : printable byte = true) :
    keystroke (d.typing p cursor out) byte = (d.letter byte).typing p cursor out := by
  have hbase : (d.letter byte).baseSpot cursor = d.baseSpot cursor := rfl
  simp only [keystroke, h, if_true, Draft.typing, Draft.predictions, Draft.cursor, hbase]
  simp [Draft.letter, Letter.place, Spot.right, UInt16.add_assoc]

theorem predictions_letter {last : Letter} (h : d.letters.getLast? = some last) :
    (d.predictions cursor).getLast? = some (last.place (d.baseSpot cursor)) ∧
      (d.predictions cursor).dropLast =
        d.older ++ d.letters.dropLast.map (Letter.place · (d.baseSpot cursor)) := by
  have hne : d.letters ≠ [] := by
    intro hnil
    simp [hnil] at h
  constructor
  · simp [Draft.predictions, List.getLast?_append, h]
  · rw [Draft.predictions, List.dropLast_append_of_ne_nil (by simpa using hne), List.map_dropLast]

theorem backspace_refines {byte : UInt8} (h : byte = 8 ∨ byte = 127) :
    keystroke (d.typing p cursor out) byte = d.backspace.typing p cursor out := by
  rw [keystroke_backspace _ h]
  cases hl : d.letters.getLast? with
  | some last =>
    obtain ⟨hlast, hdrop⟩ := predictions_letter d cursor hl
    simp only [Draft.typing, Draft.backspace, hl, hlast]
    rw [hdrop]
    simp [Draft.predictions, Draft.cursor, Draft.baseSpot, Letter.place, Spot.right]
  | none =>
    have hnil : d.letters = [] := List.getLast?_eq_none_iff.1 hl
    have hpred : d.predictions cursor = d.older := by simp [Draft.predictions, hnil]
    cases ho : d.older.getLast? with
    | some last =>
      simp only [Draft.typing, Draft.backspace, hl, ho, hpred]
      simp [Draft.predictions, Draft.cursor, Draft.baseSpot, Spot.right, hnil]
    | none => simp only [Draft.typing, Draft.backspace, hl, ho, hpred]

omit d cursor out in
theorem clearPredictions_out (he : p.enabled = true) :
    p.clearPredictions.2 = (List.replicate p.predictions.length eraseCell).flatten := by
  by_cases hp : p.predictions = []
  · simp [LocalPredictor.clearPredictions, hp]
  · simp [LocalPredictor.clearPredictions, he, hp]

theorem giveUp_refines (he : p.enabled = true) {byte : UInt8} (hprint : printable byte = false)
    (hbs : ¬ (byte = 8 ∨ byte = 127)) :
    keystroke (d.typing p cursor out) byte = d.giveUp.typing p cursor out := by
  have hprinted : ((d.typing p cursor out).predictor.becomeTentative.clearPredictions).2 =
      (List.replicate (d.older.length + d.letters.length) eraseCell).flatten := by
    rw [clearPredictions_out (by exact he)]
    simp [Draft.typing, Draft.predictions, LocalPredictor.becomeTentative]
  have hclear := giveUp_spec (p := (d.typing p cursor out).predictor) he
  rw [keystroke_giveUp _ hprint hbs, Typing.giveUp, hclear, hprinted]
  simp [Draft.typing, Draft.giveUp, Draft.predictions, Draft.cursor, Draft.baseSpot]

theorem key_refines (he : p.enabled = true) (byte : UInt8) :
    keystroke (d.typing p cursor out) byte = (d.key byte).typing p cursor out := by
  cases hprint : printable byte with
  | true =>
    rw [Draft.key, if_pos hprint]
    exact letter_refines d cursor out hprint
  | false =>
    rw [Draft.key, if_neg (by simp [hprint])]
    split
    · rename_i hbs
      exact backspace_refines d cursor out hbs
    · rename_i hbs
      exact giveUp_refines d cursor out he hprint hbs

theorem keys_refine (he : p.enabled = true) (data : Bytes) :
    data.foldl keystroke (d.typing p cursor out) =
      (data.foldl Draft.key d).typing p cursor out := by
  induction data generalizing d with
  | nil => rfl
  | cons byte data ih => rw [List.foldl_cons, List.foldl_cons, key_refines d cursor out he, ih]

end Refine

variable (vt : Vt100 σ)

def LocalPredictor.spot (p : LocalPredictor σ) : Spot :=
  ⟨(vt.cursorPosition p.vtParser).1, (vt.cursorPosition p.vtParser).2⟩

def LocalPredictor.draft (p : LocalPredictor σ) (data : Bytes) : Draft :=
  Predictive.draft p.predictions p.predictionEpoch data

/-- The predictor after a draft whose call started at `cursor`. -/
def Draft.predictor (d : Draft) (p : LocalPredictor σ) (cursor : Spot) : LocalPredictor σ :=
  { p with predictions := d.predictions cursor, predictionEpoch := d.epoch }

theorem start_typing (p : LocalPredictor σ) (cursor : Spot) (out : Bytes) :
    (Draft.start p.predictions p.predictionEpoch).typing p cursor out =
      ⟨p, cursor.row, cursor.col, out⟩ := by
  simp [Draft.typing, Draft.predictions, Draft.cursor, Draft.baseSpot, Draft.start, Spot.right]

section Calls
variable {p : LocalPredictor σ} (he : p.enabled = true)
include he

theorem typing_on (cursor : Spot) (out data : Bytes) :
    data.foldl keystroke ⟨p, cursor.row, cursor.col, out⟩ = (p.draft data).typing p cursor out := by
  rw [← start_typing p cursor out]
  exact keys_refine _ cursor out he data

variable (hs : p.suspendPredictions = false)
include hs

theorem handleKeystroke_fold {data : Bytes} (hesc : 27 ∉ data) :
    p.handleKeystroke vt data =
      ((data.foldl keystroke ⟨p, (p.spot vt).row, (p.spot vt).col, []⟩).predictor,
        (data.foldl keystroke ⟨p, (p.spot vt).row, (p.spot vt).col, []⟩).out) := by
  rw [LocalPredictor.handleKeystroke, if_neg (by simp [he, hs]), if_neg (by simpa using hesc)]
  rfl

theorem handleKeystroke_draft {data : Bytes} (hesc : 27 ∉ data) :
    p.handleKeystroke vt data = ((p.draft data).predictor p (p.spot vt), (p.draft data).out) := by
  rw [handleKeystroke_fold vt he hs hesc, typing_on he]
  rfl

end Calls

/-- Two calls do what one call with all the bytes does. -/
structure SameAsOneCall (p : LocalPredictor σ) (a b : Bytes) : Prop where
  predictions : (p.handleKeystroke vt (a ++ b)).1.predictions =
    ((p.handleKeystroke vt a).1.handleKeystroke vt b).1.predictions
  epoch : (p.handleKeystroke vt (a ++ b)).1.predictionEpoch =
    ((p.handleKeystroke vt a).1.handleKeystroke vt b).1.predictionEpoch
  out : (p.handleKeystroke vt (a ++ b)).2 =
    (p.handleKeystroke vt a).2 ++ ((p.handleKeystroke vt a).1.handleKeystroke vt b).2

/-- The second part of the input, as a draft over what the first part leaves. -/
def LocalPredictor.draftAfter (p : LocalPredictor σ) (a b : Bytes) : Draft :=
  ((p.draft a).predictor p (p.spot vt)).draft b

theorem one_call {p : LocalPredictor σ} (he : p.enabled = true) (hs : p.suspendPredictions = false)
    {a b : Bytes} (ha : 27 ∉ a) (hb : 27 ∉ b) :
    p.handleKeystroke vt (a ++ b) =
      ((p.draftAfter vt a b).predictor ((p.draft a).predictor p (p.spot vt))
        ((p.draft a).cursor (p.spot vt)),
        (p.draft a).out ++ (p.draftAfter vt a b).out) := by
  have hesc : 27 ∉ a ++ b := by simp [ha, hb]
  rw [handleKeystroke_fold vt he hs hesc, List.foldl_append, typing_on he]
  have hmid : (p.draft a).typing p (p.spot vt) [] =
      ⟨(p.draft a).predictor p (p.spot vt), ((p.draft a).cursor (p.spot vt)).row,
        ((p.draft a).cursor (p.spot vt)).col, (p.draft a).out⟩ := by
    simp [Draft.typing, Draft.predictor]
  rw [hmid, typing_on (show ((p.draft a).predictor p (p.spot vt)).enabled = true from he)]
  rfl

theorem two_calls {p : LocalPredictor σ} (he : p.enabled = true) (hs : p.suspendPredictions = false)
    {a b : Bytes} (ha : 27 ∉ a) (hb : 27 ∉ b) :
    (p.handleKeystroke vt a).2 = (p.draft a).out ∧
      (p.handleKeystroke vt a).1.handleKeystroke vt b =
        ((p.draftAfter vt a b).predictor ((p.draft a).predictor p (p.spot vt)) (p.spot vt),
          (p.draftAfter vt a b).out) := by
  rw [handleKeystroke_draft vt he hs ha]
  refine ⟨rfl, ?_⟩
  rw [handleKeystroke_draft vt (show ((p.draft a).predictor p (p.spot vt)).enabled = true from he)
    hs hb]
  rfl

theorem place_inj {l : Letter} {x y : Spot} (h : l.place x = l.place y) : x = y := by
  simp only [Letter.place, Spot.right, PredictedCell.mk.injEq, and_self, and_true] at h
  obtain ⟨hrow, hcol⟩ := h
  cases x
  cases y
  simp only [Spot.mk.injEq]
  exact ⟨hrow, (UInt16.add_left_inj _).1 hcol⟩

/-- Two starts give the same cells, exactly when no letter is left, or the base is an earlier
prediction, or the starts are the same. -/
theorem predictions_eq_iff (d : Draft) (x y : Spot) :
    d.predictions x = d.predictions y ↔ d.letters = [] ∨ d.base ≠ none ∨ x = y := by
  cases hb : d.base with
  | some cell => simp [Draft.predictions, Draft.baseSpot, hb]
  | none =>
    have hspot : ∀ z, d.baseSpot z = z := by
      intro z
      simp [Draft.baseSpot, hb]
    simp only [Draft.predictions, hspot, List.append_cancel_left_eq, ne_eq, not_true_eq_false,
      false_or]
    constructor
    · intro h
      cases hl : d.letters with
      | nil => exact .inl rfl
      | cons l ls =>
        rw [hl, List.map_cons, List.map_cons, List.cons.injEq] at h
        exact .inr (place_inj h.1)
    · intro h
      cases h with
      | inl h => simp [h]
      | inr h => rw [h]

theorem same_as_one_call_draft {p : LocalPredictor σ} (he : p.enabled = true)
    (hs : p.suspendPredictions = false) {a b : Bytes} (ha : 27 ∉ a) (hb : 27 ∉ b) :
    SameAsOneCall vt p a b ↔ (p.draftAfter vt a b).letters = [] ∨
      (p.draftAfter vt a b).base ≠ none ∨ (p.draft a).cursor (p.spot vt) = p.spot vt := by
  have hone := one_call vt he hs ha hb
  obtain ⟨hfirst, hsecond⟩ := two_calls vt he hs ha hb
  rw [← predictions_eq_iff]
  constructor
  · intro h
    have hpred := h.predictions
    rw [hone, hsecond] at hpred
    exact hpred
  · intro h
    refine ⟨?_, ?_, ?_⟩
    · rw [hone, hsecond]
      exact h
    · rw [hone, hsecond]
      rfl
    · rw [hone, hfirst, hsecond]

/-! ### Counting the typed bytes -/

/-- What a string of typed bytes comes to, wherever it is typed: the letters that are left of
it, the columns the cursor moves right, the backspaces before any give-up that find no letter of
the string, and whether a byte gives up. -/
structure Tally where
  letters : Nat
  columns : Nat
  back : Nat
  gaveUp : Bool
  deriving DecidableEq, Repr

def Tally.key (t : Tally) (byte : UInt8) : Tally :=
  if printable byte then { t with letters := t.letters + 1, columns := t.columns + 1 }
  else if byte = 8 ∨ byte = 127 then
    if 0 < t.letters then { t with letters := t.letters - 1, columns := t.columns - 1 }
    else if t.gaveUp then t
    else { t with back := t.back + 1 }
  else { t with letters := 0, gaveUp := true }

def tally (data : Bytes) : Tally := data.foldl Tally.key ⟨0, 0, 0, false⟩

def Tally.predictionsLeft (t : Tally) (n : Nat) : Nat :=
  (if t.gaveUp then 0 else n - t.back) + t.letters

/-- Where the cursor is left: right of the last prediction taken back, or of where it was. -/
def Tally.endSpot (t : Tally) (older : List PredictedCell) (cursor : Spot) : Spot :=
  match older[older.length - t.back]? with
  | some cell => Spot.right ⟨cell.row, cell.col⟩ t.columns
  | none => cursor.right t.columns

/-- The tally of the bytes behind a draft over the predictions `older`. -/
structure Tally.Describes (older : List PredictedCell) (t : Tally) (d : Draft) : Prop where
  letters : d.letters.length = t.letters
  columns : d.offset = t.columns
  offsets : ∀ i l, d.letters[i]? = some l → l.offset + t.letters = t.columns + i
  first : t.gaveUp = false → t.columns = t.letters
  left : d.older = if t.gaveUp then [] else older.take (older.length - t.back)
  base : d.base = older[older.length - t.back]?

section Describes
variable {older : List PredictedCell} {t : Tally} {d : Draft}

theorem describes_start (older : List PredictedCell) (epoch : UInt64) :
    Tally.Describes older ⟨0, 0, 0, false⟩ (.start older epoch) where
  letters := rfl
  columns := rfl
  offsets := by simp [Draft.start]
  first := fun _ => rfl
  left := by simp [Draft.start]
  base := by simp [Draft.start]

theorem describes_letter (h : t.Describes older d) (byte : UInt8) :
    Tally.Describes older { t with letters := t.letters + 1, columns := t.columns + 1 }
      (d.letter byte) where
  letters := by simp [Draft.letter, h.letters]
  columns := by simp [Draft.letter, h.columns]
  offsets := by
    intro i l hl
    simp only [Draft.letter, List.getElem?_append] at hl
    split at hl
    · have hold := h.offsets i l hl
      simp only
      omega
    · obtain ⟨hi, rfl⟩ := List.getElem?_eq_some_iff.1 hl
      have hlength := h.letters
      have hcolumns := h.columns
      simp only [List.length_singleton] at hi
      simp
      omega
  first := by
    intro hg
    simp [h.first hg]
  left := h.left
  base := h.base

theorem describes_erase (h : t.Describes older d) (hpos : 0 < t.letters) :
    Tally.Describes older { t with letters := t.letters - 1, columns := t.columns - 1 }
      d.backspace := by
  have hne : d.letters ≠ [] := by
    intro hnil
    have hlength := h.letters
    rw [hnil, List.length_nil] at hlength
    omega
  have hlast := List.getLast?_eq_some_getLast hne
  have hoffset := h.offsets (d.letters.length - 1) (d.letters.getLast hne)
    (by rw [← List.getLast?_eq_getElem?]; exact hlast)
  have hlength := h.letters
  simp only [Draft.backspace, hlast]
  refine ⟨?_, ?_, ?_, ?_, h.left, h.base⟩
  · simp [hlength]
  · simp only
    omega
  · intro i l hl
    rw [List.getElem?_dropLast] at hl
    split at hl
    · have hold := h.offsets i l hl
      simp only
      omega
    · simp at hl
  · intro hg
    simp [h.first hg]

theorem describes_back (h : t.Describes older d) (hzero : t.letters = 0)
    (hg : t.gaveUp = false) :
    Tally.Describes older { t with back := t.back + 1 } d.backspace := by
  have hnil : d.letters = [] := List.eq_nil_of_length_eq_zero (by rw [h.letters, hzero])
  have hcolumns : t.columns = 0 := by rw [h.first hg, hzero]
  have hold : d.older = older.take (older.length - t.back) := by simpa [hg] using h.left
  by_cases hle : older.length ≤ t.back
  · -- every earlier prediction has been taken back
    have hempty : d.older = [] := by simp [hold, Nat.sub_eq_zero_of_le hle]
    have hsame : d.backspace = d := by simp [Draft.backspace, hnil, hempty]
    have hsub : older.length - (t.back + 1) = older.length - t.back := by omega
    rw [hsame]
    refine ⟨h.letters, h.columns, h.offsets, h.first, ?_, ?_⟩
    · simp only [hsub]
      exact h.left
    · simp only [hsub]
      exact h.base
  · have hlt : older.length - (t.back + 1) < older.length := by omega
    have hsome : older[older.length - (t.back + 1)]? = some (older.get ⟨_, hlt⟩) :=
      List.getElem?_eq_getElem hlt
    have hlast : d.older.getLast? = some (older.get ⟨_, hlt⟩) := by
      rw [hold, List.getLast?_take, if_neg (by omega), Nat.sub_sub, hsome]
      rfl
    simp only [Draft.backspace, hnil, List.getLast?_nil, hlast]
    refine ⟨by simp [hzero], hcolumns.symm, by simp, fun _ => h.first hg, ?_, ?_⟩
    · simp only [hg, hold, if_false, Bool.false_eq_true]
      rw [List.dropLast_eq_take, List.length_take, List.take_take]
      congr 1
      omega
    · exact hsome.symm

theorem backspace_blank (h : t.Describes older d) (hzero : t.letters = 0) (hg : t.gaveUp = true) :
    d.backspace = d := by
  have hnil : d.letters = [] := List.eq_nil_of_length_eq_zero (by rw [h.letters, hzero])
  have hempty : d.older = [] := by simpa [hg] using h.left
  simp [Draft.backspace, hnil, hempty]

theorem describes_giveUp (h : t.Describes older d) :
    Tally.Describes older { t with letters := 0, gaveUp := true } d.giveUp where
  letters := rfl
  columns := h.columns
  offsets := by simp [Draft.giveUp]
  first := by simp
  left := rfl
  base := h.base

theorem describes_key (h : t.Describes older d) (byte : UInt8) :
    (t.key byte).Describes older (d.key byte) := by
  simp only [Tally.key, Draft.key]
  split
  · exact describes_letter h byte
  · split
    · split
      · rename_i hpos
        exact describes_erase h hpos
      · rename_i hnone
        have hzero : t.letters = 0 := by omega
        split
        · rename_i hg
          rw [backspace_blank h hzero hg]
          exact h
        · rename_i hg
          exact describes_back h hzero (by simpa using hg)
    · exact describes_giveUp h

theorem describes_keys (h : t.Describes older d) (data : Bytes) :
    (data.foldl Tally.key t).Describes older (data.foldl Draft.key d) := by
  induction data generalizing t d with
  | nil => exact h
  | cons byte data ih => exact ih (describes_key h byte)

theorem Tally.Describes.cursor_eq (h : t.Describes older d) (cursor : Spot) :
    d.cursor cursor = t.endSpot older cursor := by
  rw [Draft.cursor, Draft.baseSpot, Tally.endSpot, h.base, h.columns]
  cases older[older.length - t.back]? <;> rfl

theorem Tally.Describes.letters_nil (h : t.Describes older d) : d.letters = [] ↔ t.letters = 0 := by
  rw [← h.letters, List.length_eq_zero_iff]

theorem Tally.Describes.base_ne (h : t.Describes older d) :
    d.base ≠ none ↔ 0 < t.back ∧ 0 < older.length := by
  rw [h.base, ne_eq, List.getElem?_eq_none_iff]
  omega

theorem Tally.Describes.predictions_length (h : t.Describes older d) (cursor : Spot) :
    (d.predictions cursor).length = t.predictionsLeft older.length := by
  rw [Draft.predictions, List.length_append, List.length_map, h.letters, h.left,
    Tally.predictionsLeft]
  split
  · rfl
  · simp

end Describes

/-- Counting the bytes of a string describes what it leaves, over any predictions. -/
theorem tally_describes (older : List PredictedCell) (epoch : UInt64) (data : Bytes) :
    (tally data).Describes older (draft older epoch data) :=
  describes_keys (describes_start older epoch) data

/-- Grouping does not matter, exactly when nothing is left of the letters of the second part, or
its backspaces take back a prediction from before it, or the first part leaves the cursor where
the emulator has it. -/
theorem same_as_one_call_iff {p : LocalPredictor σ} (he : p.enabled = true)
    (hs : p.suspendPredictions = false) {a b : Bytes} (ha : 27 ∉ a) (hb : 27 ∉ b) :
    SameAsOneCall vt p a b ↔ (tally b).letters = 0 ∨
      (0 < (tally b).back ∧ 0 < (tally a).predictionsLeft p.predictions.length) ∨
      (tally a).endSpot p.predictions (p.spot vt) = p.spot vt := by
  have hfirst : (tally a).Describes p.predictions (p.draft a) := tally_describes _ _ a
  have hsecond : (tally b).Describes ((p.draft a).predictions (p.spot vt))
      (p.draftAfter vt a b) := tally_describes _ _ b
  rw [same_as_one_call_draft vt he hs ha hb, hsecond.letters_nil, hsecond.base_ne,
    hfirst.cursor_eq, hfirst.predictions_length]

theorem same_as_one_call_retyped :
    SameAsOneCall lineScreen (LocalPredictor.new lineScreen true) [0x6C, 0x7F] [0x73] ↔
      (tally [0x73]).letters = 0 ∨
      (0 < (tally [0x73]).back ∧ 0 < (tally [0x6C, 0x7F]).predictionsLeft
        (LocalPredictor.new lineScreen true).predictions.length) ∨
      (tally [0x6C, 0x7F]).endSpot (LocalPredictor.new lineScreen true).predictions
        ((LocalPredictor.new lineScreen true).spot lineScreen) =
          (LocalPredictor.new lineScreen true).spot lineScreen :=
  same_as_one_call_iff lineScreen rfl rfl (by decide) (by decide)

/-- `l` and `s` in two calls are predicted in the same column. -/
theorem two_calls_differ :
    (LocalPredictor.new lineScreen true).enabled = true ∧
      (LocalPredictor.new lineScreen true).suspendPredictions = false ∧
      ¬ SameAsOneCall lineScreen (LocalPredictor.new lineScreen true) [0x6C] [0x73] := by
  refine ⟨rfl, rfl, fun h => ?_⟩
  have hpred := h.predictions
  revert hpred
  decide +kernel

end MoshTcp.Predictive
