import Mathlib.Data.List.Basic

/-! Deterministic step systems driven by a list of events. `Along` says that a
condition on the state before a step and on the step's event holds at every step of
a run; the rules below turn a fact about one step into a fact about whole runs. -/

set_option autoImplicit false

namespace MoshTcp.Runs

variable {S E : Type} (step : S → E → S)

def run (s : S) (es : List E) : S := es.foldl step s

/-- Every step of the run from `s` satisfies `P` in the state it is taken from. -/
def Along (P : S → E → Prop) : S → List E → Prop
  | _, [] => True
  | s, e :: es => P s e ∧ Along P (step s e) es

@[simp] theorem run_nil (s : S) : run step s [] = s := rfl

@[simp] theorem run_cons (s : S) (e : E) (es : List E) :
    run step s (e :: es) = run step (step s e) es := rfl

theorem run_append (s : S) (es fs : List E) :
    run step s (es ++ fs) = run step (run step s es) fs := by
  simp [run, List.foldl_append]

variable {step} {P Q : S → E → Prop} {s : S} {es fs : List E}

instance Along.decidable (step : S → E → S) (P : S → E → Prop) [∀ s e, Decidable (P s e)] :
    ∀ s es, Decidable (Along step P s es)
  | _, [] => .isTrue trivial
  | s, e :: es => @instDecidableAnd _ _ inferInstance (Along.decidable step P (step s e) es)

theorem along_append :
    Along step P s (es ++ fs) ↔ Along step P s es ∧ Along step P (run step s es) fs := by
  induction es generalizing s with
  | nil => simp [Along]
  | cons e es ih => simp [Along, ih, and_assoc]

theorem along_of_forall (h : ∀ s, ∀ e ∈ es, P s e) : Along step P s es := by
  induction es generalizing s with
  | nil => trivial
  | cons e es ih => exact ⟨h s e (by simp), ih fun s f hf => h s f (by simp [hf])⟩

/-- The meaning of `Along` without recursion: cut the run anywhere. -/
theorem along_iff_cut :
    Along step P s es ↔ ∀ pre e post, es = pre ++ e :: post → P (run step s pre) e := by
  constructor
  · rintro h pre e post rfl
    exact (along_append.1 h).2.1
  · intro h
    induction es generalizing s with
    | nil => trivial
    | cons e es ih =>
      refine ⟨h [] e es rfl, ih fun pre f post hes => ?_⟩
      exact h (e :: pre) f post (by rw [hes, List.cons_append])

/-- The invariant rule: one step under `P` keeps `I`, so every run under `P` does. -/
theorem run_invariant {I : S → Prop} (hs : I s)
    (hstep : ∀ s e, I s → P s e → I (step s e)) (h : Along step P s es) :
    I (run step s es) := by
  induction es generalizing s with
  | nil => exact hs
  | cons e es ih => exact ih (hstep s e hs h.1) h.2

theorem run_preserves {I : S → Prop} (hs : I s) (hstep : ∀ s e, I s → I (step s e))
    (es : List E) : I (run step s es) :=
  run_invariant (P := fun _ _ => True) hs (fun s e h _ => hstep s e h)
    (along_of_forall fun _ _ _ => trivial)

/-- What only grows in a step only grows in a run. -/
theorem run_grows {α : Type} {log : S → List α} (hstep : ∀ s e, log s <+: log (step s e))
    (s : S) (es : List E) : log s <+: log (run step s es) := by
  induction es generalizing s with
  | nil => exact List.prefix_rfl
  | cons e es ih => exact (hstep s e).trans (ih (step s e))

/-- Two conditions that agree at every step where `I` holds agree along runs, when steps
under the second keep `I`. -/
theorem along_iff_of_invariant {I : S → Prop} {W : E → Prop} (hs : I s) (hes : ∀ e ∈ es, W e)
    (hiff : ∀ s e, I s → W e → (P s e ↔ Q s e))
    (hstep : ∀ s e, I s → W e → Q s e → I (step s e)) :
    Along step P s es ↔ Along step Q s es := by
  induction es generalizing s with
  | nil => rfl
  | cons e es ih =>
    have he : W e := hes e (by simp)
    have hrest : ∀ f ∈ es, W f := fun f hf => hes f (by simp [hf])
    constructor
    · rintro ⟨hp, h⟩
      have hq := (hiff s e hs he).1 hp
      exact ⟨hq, (ih (hstep s e hs he hq) hrest).1 h⟩
    · rintro ⟨hq, h⟩
      exact ⟨(hiff s e hs he).2 hq, (ih (hstep s e hs he hq) hrest).2 h⟩

/-- A flag that a step raises exactly at `P` is up exactly if `P` was met on the way. -/
theorem run_flag_iff {F : S → Prop} (hstep : ∀ s e, F (step s e) ↔ F s ∨ P s e)
    (es : List E) :
    F (run step s es) ↔ F s ∨ ∃ pre e post, es = pre ++ e :: post ∧ P (run step s pre) e := by
  induction es generalizing s with
  | nil => simp
  | cons e es ih =>
    rw [run_cons, ih, hstep, or_assoc]
    refine or_congr_right ⟨?_, ?_⟩
    · rintro (hp | ⟨pre, f, post, rfl, hp⟩)
      · exact ⟨[], e, es, rfl, hp⟩
      · exact ⟨e :: pre, f, post, rfl, hp⟩
    · rintro ⟨pre, f, post, hes, hp⟩
      cases pre with
      | nil =>
        obtain ⟨rfl, -⟩ := List.cons.inj hes
        exact .inl hp
      | cons g pre =>
        obtain ⟨rfl, hrest⟩ := List.cons.inj hes
        exact .inr ⟨pre, f, post, hrest, hp⟩

end MoshTcp.Runs
