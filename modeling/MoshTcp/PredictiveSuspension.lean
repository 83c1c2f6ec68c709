import MoshTcp.Predictive
import MoshTcp.AltScreen

/-! When the predictor is suspended. Each frame is searched on its own and an enabling
switch anywhere in it wins, so the predictor follows the stream only while no frame
boundary hides a switch and no frame takes back a switch it has made. -/

set_option autoImplicit false

namespace MoshTcp.Predictive
open ByteOrder Protocol Ansi AltScreen MarkedWords

variable {σ : Type} (vt : Vt100 σ)

theorem hasWindow_iff_infix {needle : Bytes} (hne : needle ≠ []) (haystack : Bytes) :
    hasWindow needle haystack = true ↔ needle <:+: haystack := by
  induction haystack with
  | nil =>
    unfold hasWindow
    simp [hne]
  | cons b bs ih =>
    unfold hasWindow
    rw [Bool.or_eq_true, ih, List.isPrefixOf_iff_prefix, List.infix_cons_iff]

theorem switchesAlt_iff (rawData : Bytes) (enable : Bool) :
    switchesAlt rawData (Switch.final ⟨.m47, enable⟩) = true ↔
      ∃ s : Switch, s.enable = enable ∧ s.bytes <:+: rawData := by
  have hmode : ∀ m : AltScreen.Mode, containsSubslice rawData
      (altScreen m.digits (Switch.final ⟨.m47, enable⟩)) = true ↔
        (Switch.mk m enable).bytes <:+: rawData := by
    intro m
    unfold containsSubslice
    rw [← hasWindow_iff_infix (by simp [Switch.bytes, Code.word])]
    simp [altScreen, Switch.bytes, Code.word, altCode, Switch.body, Switch.final]
  have h1049 := hmode .m1049
  have h1047 := hmode .m1047
  have h47 := hmode .m47
  simp only [AltScreen.Mode.digits] at h1049 h1047 h47
  simp only [switchesAlt, Bool.or_eq_true, h1049, h1047, h47]
  constructor
  · intro h
    rcases h with (h | h) | h
    · exact ⟨_, rfl, h⟩
    · exact ⟨_, rfl, h⟩
    · exact ⟨_, rfl, h⟩
  · intro h
    obtain ⟨⟨m, e⟩, rfl, h⟩ := h
    cases m with
    | m1049 => exact .inl (.inl h)
    | m1047 => exact .inl (.inr h)
    | m47 => exact .inr h

/-- What a frame does to the suspension: an enabling switch first, then a disabling one. -/
theorem inspectServerFrame_suspended (p : LocalPredictor σ) (he : p.enabled = true)
    (rawData : Bytes) :
    (p.inspectServerFrame vt rawData).1.enabled = true ∧
      (p.inspectServerFrame vt rawData).1.suspendPredictions =
        if switchesAlt rawData 0x68 then true
        else if switchesAlt rawData 0x6C then false
        else p.suspendPredictions := by
  unfold LocalPredictor.inspectServerFrame
  simp only [he, Bool.not_true, Bool.false_eq_true, if_false]
  by_cases hon : switchesAlt rawData 0x68 = true
  · simp only [hon, if_true]
    unfold LocalPredictor.clearPredictions
    split <;> exact ⟨rfl, trivial⟩
  · by_cases hoff : switchesAlt rawData 0x6C = true
    · simp only [hon, hoff, Bool.false_eq_true, if_true, if_false]
      split <;> exact ⟨rfl, rfl⟩
    · simp only [hon, hoff, Bool.false_eq_true, if_false]
      split <;> exact ⟨rfl, rfl⟩

/-- The frame `rawData`, after `stream`, changes the suspension as the stream does: it does not
end on a disabling switch after an enabling one, and if it has no whole switch of its own, a
switch cut by its start does not change the screen. -/
structure FrameSafe (stream rawData : Bytes) : Prop where
  notTakenBack : ∀ s, lastSwitch rawData = some s → s.enable = false →
    switchesAlt rawData 0x68 = false
  notCut : lastSwitch rawData = none → ∀ s, altCode.Cut stream rawData s →
    s.enable = altOn stream

theorem frame_follows_iff (p : LocalPredictor σ) (he : p.enabled = true) {stream : Bytes}
    (hs : p.suspendPredictions = altOn stream) (rawData : Bytes) :
    (p.inspectServerFrame vt rawData).1.suspendPredictions = altOn (stream ++ rawData) ↔
      FrameSafe stream rawData := by
  have hon := switchesAlt_iff rawData true
  have hoff := switchesAlt_iff rawData false
  simp only [Switch.final, if_true, Bool.false_eq_true, if_false] at hon hoff
  rw [(inspectServerFrame_suspended vt p he rawData).2]
  cases hl : lastSwitch rawData with
  | some s =>
    have hin : s.bytes <:+: rawData := Code.lastWord_infix hl
    rw [altOn_append_some hl]
    cases hse : s.enable with
    | true =>
      rw [if_pos (hon.2 ⟨s, hse, hin⟩)]
      refine ⟨fun _ => ⟨fun t ht hf => ?_, by simp [hl]⟩, fun _ => rfl⟩
      obtain rfl : s = t := by simpa [hl] using ht
      simp [hse] at hf
    | false =>
      rw [if_pos (hoff.2 ⟨s, hse, hin⟩)]
      by_cases hany : switchesAlt rawData 0x68 = true
      · rw [if_pos hany]
        refine ⟨fun h => by simp at h, fun h => ?_⟩
        simp [h.notTakenBack s hl hse] at hany
      · rw [if_neg hany]
        refine ⟨fun _ => ⟨fun _ _ _ => by simpa using hany, by simp [hl]⟩, fun _ => rfl⟩
  | none =>
    have hnone : ∀ e, ¬ ∃ s : Switch, s.enable = e ∧ s.bytes <:+: rawData := by
      intro e h
      obtain ⟨s, -, hin⟩ := h
      exact Code.lastWord_eq_none.1 hl s hin
    rw [if_neg (mt hon.1 (hnone true)), if_neg (mt hoff.1 (hnone false)), hs]
    constructor
    · intro h
      refine ⟨by simp [hl], fun _ s hcut => ?_⟩
      rw [h, altOn_append_cut hl hcut]
    · intro h
      by_cases hcut : ∃ s, altCode.Cut stream rawData s
      · obtain ⟨s, hcut⟩ := hcut
        rw [← h.notCut hl s hcut, altOn_append_cut hl hcut]
      · have hnot : ∀ s, ¬ altCode.Cut stream rawData s := fun s hs => hcut ⟨s, hs⟩
        rw [altOn_append_none hl hnot]

def inspectFrames (p : LocalPredictor σ) (frames : List Bytes) : LocalPredictor σ :=
  frames.foldl (fun p rawData => (p.inspectServerFrame vt rawData).1) p

theorem inspectFrames_enabled (frames : List Bytes) (p : LocalPredictor σ)
    (he : p.enabled = true) : (inspectFrames vt p frames).enabled = true := by
  unfold inspectFrames
  induction frames generalizing p with
  | nil => exact he
  | cons f fs ih => exact ih _ (inspectServerFrame_suspended vt p he f).1

/-- However a stream is divided into frames, an enabled predictor is suspended after each of
them as the stream so far says if and only if every frame is safe where it stands. -/
theorem suspension_follows_stream_iff (vt : Vt100 σ) (frames : List Bytes) :
    (∀ pre, pre <+: frames →
        (inspectFrames vt (.new vt true) pre).suspendPredictions = altOn pre.flatten) ↔
      ∀ pre rawData post, frames = pre ++ rawData :: post → FrameSafe pre.flatten rawData := by
  have hstep : ∀ pre rawData,
      (inspectFrames vt (.new vt true) pre).suspendPredictions = altOn pre.flatten →
      ((inspectFrames vt (.new vt true) (pre ++ [rawData])).suspendPredictions =
          altOn (pre ++ [rawData]).flatten ↔ FrameSafe pre.flatten rawData) := by
    intro pre rawData hpre
    have h := frame_follows_iff vt _ (inspectFrames_enabled vt pre _ rfl) hpre rawData
    simpa [inspectFrames] using h
  constructor
  · intro h pre rawData post hframes
    have hnext : pre ++ [rawData] <+: frames := ⟨post, by simp [hframes]⟩
    exact (hstep pre rawData (h pre ((List.prefix_append _ _).trans hnext))).1 (h _ hnext)
  · intro h pre hpre
    induction pre using List.reverseRecOn with
    | nil => rfl
    | append_singleton pre rawData ih =>
      obtain ⟨post, hpost⟩ := hpre
      have hbefore := ih ⟨rawData :: post, by rw [← hpost]; simp⟩
      exact (hstep pre rawData hbefore).2 (h pre rawData post (by rw [← hpost]; simp))

/-- A pager that is opened and left within one frame: the predictor stays suspended. -/
theorem suspended_after_leaving :
    ¬ ∃ (σ : Type) (vt : Vt100 σ),
      (inspectFrames vt (.new vt true)
        [Switch.bytes ⟨.m1049, true⟩ ++ Switch.bytes ⟨.m1049, false⟩]).suspendPredictions =
          altOn (Switch.bytes ⟨.m1049, true⟩ ++ Switch.bytes ⟨.m1049, false⟩) := by
  intro h
  obtain ⟨σ, vt, h⟩ := h
  have hboth : switchesAlt (Switch.bytes ⟨.m1049, true⟩ ++ Switch.bytes ⟨.m1049, false⟩) 0x68 =
      true := by decide
  have hstream : altOn (Switch.bytes ⟨.m1049, true⟩ ++ Switch.bytes ⟨.m1049, false⟩) = false := by
    decide
  rw [hstream, inspectFrames, List.foldl_cons, List.foldl_nil,
    (inspectServerFrame_suspended vt _ rfl _).2, if_pos hboth] at h
  exact Bool.noConfusion h

end MoshTcp.Predictive
