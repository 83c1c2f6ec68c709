import MoshTcp.Predictive
import MoshTcp.Lib.Runs

/-! The states a `LocalPredictor` can be in. Predictions belong to the current epoch, and
the epoch counter is a `u64` that starts at one. -/

set_option autoImplicit false

namespace MoshTcp.Predictive
open ByteOrder Protocol Runs

variable {σ : Type} (vt : Vt100 σ)

inductive Call where
  | handleKeystroke (data : Bytes)
  | inspectServerFrame (rawData : Bytes)
  | clearPredictions
  | resetPredictions
  | reset
  | setSize (rows cols : UInt16)
  | setSuspended (suspended : Bool)

def LocalPredictor.call (p : LocalPredictor σ) : Call → LocalPredictor σ
  | .handleKeystroke data => (p.handleKeystroke vt data).1
  | .inspectServerFrame rawData => (p.inspectServerFrame vt rawData).1
  | .clearPredictions => p.clearPredictions.1
  | .resetPredictions => p.resetPredictions
  | .reset => p.reset
  | .setSize rows cols => p.setSize vt rows cols
  | .setSuspended suspended => p.setSuspended suspended

/-- A typed byte at which `handle_keystroke` gives its predictions up. -/
def givesUp (byte : UInt8) : Bool := !printable byte && byte != 8 && byte != 127

/-- How often a call runs `become_tentative`. -/
def LocalPredictor.epochSteps (p : LocalPredictor σ) : Call → Nat
  | .handleKeystroke data =>
    if !p.enabled || p.suspendPredictions then 0
    else if data.contains 27 then 1
    else data.countP givesUp
  | .reset => 1
  | _ => 0

def epochStepsAlong (p : LocalPredictor σ) : List Call → Nat
  | [] => 0
  | c :: cs => p.epochSteps c + epochStepsAlong (p.call vt c) cs

structure Consistent (p : LocalPredictor σ) : Prop where
  idle : p.enabled = false ∨ p.suspendPredictions = true → p.predictions = []
  current : ∀ pred ∈ p.predictions, pred.epoch = p.predictionEpoch
  ascii : ∀ pred ∈ p.predictions, 32 ≤ pred.character.toNat ∧ pred.character.toNat ≤ 126
  confirmed : p.confirmedEpoch ≤ p.predictionEpoch

section Step
variable {p : LocalPredictor σ}

theorem consistent_of_nil (hp : p.predictions = []) (hc : p.confirmedEpoch ≤ p.predictionEpoch) :
    Consistent p :=
  ⟨fun _ => hp, by simp [hp], by simp [hp], hc⟩

theorem becomeTentative_epoch (hw : p.predictionEpoch.toNat + 1 < 2 ^ 64) :
    p.becomeTentative.predictionEpoch.toNat = p.predictionEpoch.toNat + 1 := by
  simp only [LocalPredictor.becomeTentative, UInt64.toNat_add, UInt64.toNat_one]
  exact Nat.mod_eq_of_lt hw

theorem becomeTentative_confirmed (hc : p.confirmedEpoch ≤ p.predictionEpoch)
    (hw : p.predictionEpoch.toNat + 1 < 2 ^ 64) :
    p.becomeTentative.confirmedEpoch ≤ p.becomeTentative.predictionEpoch := by
  rw [UInt64.le_iff_toNat_le] at hc ⊢
  rw [becomeTentative_epoch hw]
  exact Nat.le_succ_of_le hc

theorem giveUp_spec (he : p.enabled = true) :
    (p.becomeTentative.clearPredictions).1 =
      { p with predictionEpoch := p.predictionEpoch + 1, predictions := [] } := by
  by_cases hp : p.predictions = []
  · simp [LocalPredictor.clearPredictions, LocalPredictor.becomeTentative, he, hp]
  · simp [LocalPredictor.clearPredictions, LocalPredictor.becomeTentative, he, hp]

theorem printable_toNat {b : UInt8} (h : printable b = true) :
    32 ≤ (Char.ofNat b.toNat).toNat ∧ (Char.ofNat b.toNat).toNat ≤ 126 := by
  simp only [printable, Bool.and_eq_true, decide_eq_true_eq, UInt8.le_iff_toNat_le,
    UInt8.reduceToNat] at h
  have hvalid : b.toNat.isValidChar := .inl (by omega)
  have hchar : (Char.ofNat b.toNat).toNat = b.toNat := by
    rw [Char.ofNat, dif_pos hvalid]
    rfl
  omega

theorem giveUp_consistent {t : Typing σ} (h : Consistent t.predictor)
    (he : t.predictor.enabled = true) (hs : t.predictor.suspendPredictions = false)
    (hw : t.predictor.predictionEpoch.toNat + 1 < 2 ^ 64) :
    Consistent t.giveUp.predictor ∧ t.giveUp.predictor.enabled = true ∧
      t.giveUp.predictor.suspendPredictions = false ∧
      t.giveUp.predictor.predictionEpoch.toNat = t.predictor.predictionEpoch.toNat + 1 := by
  have hepoch := becomeTentative_epoch hw
  have hconf := becomeTentative_confirmed h.confirmed hw
  rw [Typing.giveUp, giveUp_spec he]
  exact ⟨consistent_of_nil rfl hconf, he, hs, hepoch⟩

theorem keystroke_consistent {t : Typing σ} (h : Consistent t.predictor)
    (he : t.predictor.enabled = true) (hs : t.predictor.suspendPredictions = false) (b : UInt8)
    (hw : t.predictor.predictionEpoch.toNat + (if givesUp b then 1 else 0) < 2 ^ 64) :
    Consistent (keystroke t b).predictor ∧ (keystroke t b).predictor.enabled = true ∧
      (keystroke t b).predictor.suspendPredictions = false ∧
      (keystroke t b).predictor.predictionEpoch.toNat =
        t.predictor.predictionEpoch.toNat + (if givesUp b then 1 else 0) := by
  by_cases hp : printable b = true
  · have hg : givesUp b = false := by simp [givesUp, hp]
    simp only [keystroke, hp, hg, if_true, Bool.false_eq_true, if_false]
    refine ⟨⟨by simp [he, hs], ?_, ?_, h.confirmed⟩, he, hs, rfl⟩
    · intro pred hm
      rw [List.mem_append, List.mem_singleton] at hm
      cases hm with
      | inl hm => exact h.current pred hm
      | inr hm => rw [hm]
    · intro pred hm
      rw [List.mem_append, List.mem_singleton] at hm
      cases hm with
      | inl hm => exact h.ascii pred hm
      | inr hm =>
        rw [hm]
        exact printable_toNat hp
  · by_cases hbs : b = 8 ∨ b = 127
    · have hg : givesUp b = false := by
        rcases hbs with rfl | rfl <;> rfl
      rw [keystroke_backspace t hbs, hg]
      cases hl : t.predictor.predictions.getLast? with
      | none => exact ⟨h, he, hs, rfl⟩
      | some last =>
        refine ⟨⟨by simp [he, hs], fun pred hm => ?_, fun pred hm => ?_, h.confirmed⟩, he, hs, rfl⟩
        · exact h.current pred (List.mem_of_mem_dropLast hm)
        · exact h.ascii pred (List.mem_of_mem_dropLast hm)
    · have hg : givesUp b = true := by
        simp only [not_or] at hbs
        simp [givesUp, hp, hbs]
      simp only [hg, if_true] at hw ⊢
      rw [keystroke_giveUp t (by simpa using hp) hbs]
      exact giveUp_consistent h he hs hw

theorem keystrokes_consistent (data : Bytes) {t : Typing σ} (h : Consistent t.predictor)
    (he : t.predictor.enabled = true) (hs : t.predictor.suspendPredictions = false)
    (hw : t.predictor.predictionEpoch.toNat + data.countP givesUp < 2 ^ 64) :
    Consistent (data.foldl keystroke t).predictor ∧
      (data.foldl keystroke t).predictor.predictionEpoch.toNat =
        t.predictor.predictionEpoch.toNat + data.countP givesUp := by
  induction data generalizing t with
  | nil => exact ⟨h, rfl⟩
  | cons b data ih =>
    rw [List.countP_cons] at hw ⊢
    obtain ⟨h', he', hs', hepoch⟩ := keystroke_consistent h he hs b (by omega)
    obtain ⟨h'', hepoch'⟩ := ih h' he' hs' (by omega)
    exact ⟨h'', by rw [List.foldl_cons, hepoch', hepoch]; omega⟩

theorem handleKeystroke_consistent (h : Consistent p) (data : Bytes)
    (hw : p.predictionEpoch.toNat + p.epochSteps (.handleKeystroke data) < 2 ^ 64) :
    Consistent (p.handleKeystroke vt data).1 ∧
      (p.handleKeystroke vt data).1.predictionEpoch.toNat =
        p.predictionEpoch.toNat + p.epochSteps (.handleKeystroke data) := by
  by_cases hoff : (!p.enabled || p.suspendPredictions) = true
  · simp only [LocalPredictor.handleKeystroke, LocalPredictor.epochSteps, hoff, if_true]
    exact ⟨h, rfl⟩
  · obtain ⟨he, hs⟩ : p.enabled = true ∧ p.suspendPredictions = false := by simpa using hoff
    simp only [LocalPredictor.epochSteps, if_neg hoff] at hw ⊢
    by_cases hesc : data.contains 27 = true
    · simp only [LocalPredictor.handleKeystroke, if_neg hoff, if_pos hesc] at hw ⊢
      rw [giveUp_spec he]
      exact ⟨consistent_of_nil rfl (becomeTentative_confirmed h.confirmed hw),
        becomeTentative_epoch hw⟩
    · simp only [LocalPredictor.handleKeystroke, if_neg hoff, if_neg hesc] at hw ⊢
      exact keystrokes_consistent data h he hs hw

/-- The culling loop confirms no epoch beyond the predictions' own. -/
theorem cull_epoch_le (matched : PredictedCell → Bool) {epoch : UInt64}
    (preds : List PredictedCell) (hp : ∀ pred ∈ preds, pred.epoch = epoch)
    {confirmedEpoch : UInt64} (hc : confirmedEpoch ≤ epoch) :
    (cull matched confirmedEpoch preds).1 ≤ epoch := by
  induction preds generalizing confirmedEpoch with
  | nil => exact hc
  | cons pred rest ih =>
    have hrest : ∀ pred ∈ rest, pred.epoch = epoch := fun q hq => hp q (by simp [hq])
    by_cases hm : matched pred = true
    · simp only [cull, hm, if_true]
      apply ih hrest
      split
      · exact (hp pred (by simp)) ▸ UInt64.le_refl _
      · exact hc
    · simpa [cull, hm] using hc

theorem inspectServerFrame_epochs (h : Consistent p) (rawData : Bytes) :
    (p.inspectServerFrame vt rawData).1.predictionEpoch = p.predictionEpoch ∧
      (p.inspectServerFrame vt rawData).1.confirmedEpoch ≤ p.predictionEpoch := by
  have hcull : ∀ q : LocalPredictor σ, (∀ pred ∈ q.predictions, pred.epoch = p.predictionEpoch) →
      q.confirmedEpoch ≤ p.predictionEpoch →
      (q.cullPredictions vt).confirmedEpoch ≤ p.predictionEpoch :=
    fun q hq hc => cull_epoch_le _ q.predictions hq hc
  have hclear : ∀ q : LocalPredictor σ, q.clearPredictions.1.predictionEpoch = q.predictionEpoch ∧
      q.clearPredictions.1.confirmedEpoch = q.confirmedEpoch := by
    intro q
    unfold LocalPredictor.clearPredictions
    split <;> exact ⟨rfl, rfl⟩
  unfold LocalPredictor.inspectServerFrame
  split
  · exact ⟨rfl, h.confirmed⟩
  · split
    · simp only [hclear]
      exact ⟨trivial, h.confirmed⟩
    · split
      · split
        · exact ⟨rfl, h.confirmed⟩
        · exact ⟨rfl, hcull _ (by simp) h.confirmed⟩
      · split
        · exact ⟨rfl, h.confirmed⟩
        · exact ⟨rfl, hcull _ h.current h.confirmed⟩

theorem call_consistent (h : Consistent p) (c : Call)
    (hw : p.predictionEpoch.toNat + p.epochSteps c < 2 ^ 64) :
    Consistent (p.call vt c) ∧
      (p.call vt c).predictionEpoch.toNat = p.predictionEpoch.toNat + p.epochSteps c := by
  cases c with
  | handleKeystroke data => exact handleKeystroke_consistent vt h data hw
  | inspectServerFrame rawData =>
    have hnone := inspectServerFrame_predictions vt p rawData fun he => h.idle (.inl he)
    obtain ⟨hepoch, hconf⟩ := inspectServerFrame_epochs vt h rawData
    exact ⟨consistent_of_nil hnone (hepoch ▸ hconf), congrArg UInt64.toNat hepoch⟩
  | clearPredictions =>
    simp only [LocalPredictor.call, LocalPredictor.clearPredictions]
    split
    · exact ⟨consistent_of_nil rfl h.confirmed, rfl⟩
    · exact ⟨h, rfl⟩
  | resetPredictions => exact ⟨consistent_of_nil rfl h.confirmed, rfl⟩
  | reset =>
    exact ⟨consistent_of_nil rfl (becomeTentative_confirmed (p := p.resetPredictions)
      h.confirmed hw), becomeTentative_epoch (p := p.resetPredictions) hw⟩
  | setSize rows cols => exact ⟨⟨h.idle, h.current, h.ascii, h.confirmed⟩, rfl⟩
  | setSuspended suspended =>
    cases suspended with
    | true => exact ⟨consistent_of_nil rfl h.confirmed, rfl⟩
    | false =>
      refine ⟨⟨fun hi => ?_, h.current, h.ascii, h.confirmed⟩, rfl⟩
      exact h.idle (.inl (by simpa [LocalPredictor.call, LocalPredictor.setSuspended] using hi))

theorem run_consistent (cs : List Call) (h : Consistent p)
    (hw : p.predictionEpoch.toNat + epochStepsAlong vt p cs < 2 ^ 64) :
    Consistent (run (LocalPredictor.call vt) p cs) := by
  induction cs generalizing p with
  | nil => exact h
  | cons c cs ih =>
    rw [epochStepsAlong] at hw
    obtain ⟨h', hepoch⟩ := call_consistent vt h c (by omega)
    exact ih h' (by omega)

end Step

theorem new_consistent (enabled : Bool) : Consistent (LocalPredictor.new vt enabled) :=
  consistent_of_nil rfl (show (0 : UInt64) ≤ 1 by decide)

/-- Every reachable state is consistent, and a frame inspected there leaves nothing for
`clear_predictions` to erase, as long as the epoch counter does not wrap. -/
theorem predictor_consistent (vt : Vt100 σ) (enabled : Bool) (cs : List Call)
    (hw : epochStepsAlong vt (LocalPredictor.new vt enabled) cs < 2 ^ 64 - 1) :
    Consistent (run (LocalPredictor.call vt) (LocalPredictor.new vt enabled) cs) ∧
      ∀ rawData,
        let p := ((run (LocalPredictor.call vt) (LocalPredictor.new vt enabled)
          cs).inspectServerFrame vt rawData).1
        p.predictions = [] ∧ p.clearPredictions.2 = [] := by
  have hone : (LocalPredictor.new vt enabled).predictionEpoch.toNat = 1 := rfl
  have h := run_consistent vt cs (new_consistent vt enabled) (by omega)
  refine ⟨h, fun rawData => ?_⟩
  have hnone := inspectServerFrame_predictions vt _ rawData fun he => h.idle (.inl he)
  exact ⟨hnone, by simp [LocalPredictor.clearPredictions, hnone]⟩

/-- A screen of one line of plain text: the cell in a column shows the byte written there. -/
def lineScreen : Vt100 (UInt16 × UInt16 × Bytes) :=
  { recorder with
    cell := fun (_, _, text) _ col =>
      text[col.toNat]?.map fun b => String.singleton (Char.ofNat b.toNat) }

theorem predictor_consistent_enter :
    epochStepsAlong lineScreen (LocalPredictor.new lineScreen true)
        [.handleKeystroke [0x6C, 0x73, 0x0D], .inspectServerFrame [0x6C, 0x73]] < 2 ^ 64 - 1 ∧
      Consistent (run (LocalPredictor.call lineScreen) (LocalPredictor.new lineScreen true)
        [.handleKeystroke [0x6C, 0x73, 0x0D], .inspectServerFrame [0x6C, 0x73]]) :=
  ⟨by decide +kernel, (predictor_consistent lineScreen true _ (by decide +kernel)).1⟩

theorem run_resets (n : Nat) (p : LocalPredictor σ) (hp : p.predictions = []) :
    run (LocalPredictor.call vt) p (List.replicate n .reset) =
        { p with predictionEpoch := p.predictionEpoch + UInt64.ofNat n } ∧
      epochStepsAlong vt p (List.replicate n .reset) = n := by
  induction n generalizing p with
  | zero => simp [epochStepsAlong]
  | succ n ih =>
    obtain ⟨hrun, hsteps⟩ := ih p.reset rfl
    rw [List.replicate_succ, run_cons, epochStepsAlong]
    simp only [LocalPredictor.call, LocalPredictor.epochSteps, hrun, hsteps]
    refine ⟨?_, Nat.add_comm 1 n⟩
    simp only [LocalPredictor.reset, LocalPredictor.becomeTentative,
      LocalPredictor.resetPredictions, ← hp, UInt64.ofNat_add, UInt64.add_assoc,
      UInt64.add_comm (UInt64.ofNat n)]
    rfl

def confirmedLetter : List Call := [.handleKeystroke [0x65], .inspectServerFrame [0x65]]

/-- One confirmed letter, then 2^64 - 1 pastes: the epoch is back at zero and the confirmed
epoch is ahead of it. -/
theorem epoch_wraps :
    epochStepsAlong lineScreen (LocalPredictor.new lineScreen true)
        (confirmedLetter ++ List.replicate (2 ^ 64 - 1) .reset) < 2 ^ 64 ∧
      ¬ Consistent (run (LocalPredictor.call lineScreen) (LocalPredictor.new lineScreen true)
        (confirmedLetter ++ List.replicate (2 ^ 64 - 1) .reset)) := by
  obtain ⟨q, hq⟩ : ∃ q, q = run (LocalPredictor.call lineScreen)
      (LocalPredictor.new lineScreen true) confirmedLetter := ⟨_, rfl⟩
  have hnone : q.predictions = [] := by rw [hq]; decide +kernel
  have hepoch : q.predictionEpoch + UInt64.ofNat (2 ^ 64 - 1) = 0 := by rw [hq]; decide +kernel
  have hconf : q.confirmedEpoch = 1 := by rw [hq]; decide +kernel
  obtain ⟨hrun, hsteps⟩ := run_resets lineScreen (2 ^ 64 - 1) q hnone
  constructor
  · -- neither the letter nor the frame is an epoch step
    have htotal : ∀ cs, epochStepsAlong lineScreen (LocalPredictor.new lineScreen true)
        (confirmedLetter ++ cs) = 0 + (0 + epochStepsAlong lineScreen q cs) := by
      intro cs
      rw [hq]
      rfl
    rw [htotal, hsteps]
    decide
  · intro h
    have hle := h.confirmed
    rw [run_append, ← hq, hrun] at hle
    simp only [hepoch, hconf] at hle
    exact absurd hle (by decide)

end MoshTcp.Predictive
