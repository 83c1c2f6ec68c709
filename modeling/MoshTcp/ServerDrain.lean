import MoshTcp.ServerProgress
import MoshTcp.ServerDelivery
import Mathlib.Logic.Function.Iterate

/-! A shell that writes nothing more: ticks with a full bucket send its output piece by piece,
until a piece comes that does not fit. -/

set_option autoImplicit false

namespace MoshTcp.Ansi
open ByteOrder Tokens

variable {buf : Bytes} {cap : Nat}

/-- What stays behind when as much as `cap` allows is sent. -/
def splitOff (cap : Nat) (buf : Bytes) : Bytes := buf.drop (findSafeSplitPoint buf cap)

/-- No piece of the output is longer than `cap`. -/
def Flows (cap : Nat) (buf : Bytes) : Prop :=
  ∀ i, sequences.Boundary buf i → firstCut (buf.drop i) ≤ cap

theorem flows_of_length_le (h : buf.length ≤ cap) : Flows cap buf := by
  intro i _
  have hle := firstCut_le_length (buf.drop i)
  rw [List.length_drop] at hle
  omega

theorem splitOff_boundary (h : ¬ buf.length ≤ cap) :
    sequences.Boundary buf (findSafeSplitPoint buf cap) :=
  findSafeSplitPoint_boundary (Nat.lt_of_not_le h)

/-- A split may pass over boundaries, but then what it passes over was short enough. -/
theorem firstCut_passed (h : ¬ buf.length ≤ cap) {i : Nat} (hi : sequences.Boundary buf i)
    (hlt : i < findSafeSplitPoint buf cap) : firstCut (buf.drop i) ≤ cap := by
  have hcap := (findSafeSplitPoint_le buf cap).1
  cases (findSafeSplitPoint_safe (Nat.lt_of_not_le h)).1 with
  | inl hzero => omega
  | inr hsafe =>
    have hcut := (hsafe.drop hi hlt).firstCut_le (by omega)
    omega

theorem flows_iff : Flows cap buf ↔ firstCut buf ≤ cap ∧ Flows cap (splitOff cap buf) := by
  by_cases hle : buf.length ≤ cap
  · have hnil : splitOff cap buf = [] := by
      rw [splitOff, findSafeSplitPoint_of_fits hle, List.drop_length]
    have hcut := (firstCut_le_length buf).trans hle
    rw [hnil]
    exact iff_of_true (flows_of_length_le hle) ⟨hcut, flows_of_length_le (Nat.zero_le cap)⟩
  have hsplit := splitOff_boundary hle
  constructor
  · intro h
    refine ⟨h 0 (.start buf), fun i hi => ?_⟩
    rw [splitOff, List.drop_drop]
    exact h _ (hsplit.trans hi)
  · rintro ⟨-, h⟩ i hi
    by_cases hlt : i < findSafeSplitPoint buf cap
    · exact firstCut_passed hle hi hlt
    · have hrest := h _ (hi.sub hsplit (Nat.le_of_not_lt hlt))
      rwa [splitOff, List.drop_drop, Nat.add_sub_cancel' (Nat.le_of_not_lt hlt)] at hrest

theorem splitOff_of_lt (h : cap < firstCut buf) : splitOff cap buf = buf := by
  by_cases hne : buf = []
  · rw [hne, splitOff, List.drop_nil]
  · have hzero : findSafeSplitPoint buf cap = 0 := by
      by_contra hpos
      have hcut := (findSafeSplitPoint_pos_iff hne cap).1 (Nat.pos_of_ne_zero hpos)
      omega
    rw [splitOff, hzero, List.drop_zero]

theorem splitOff_length_lt (hne : buf ≠ []) (h : firstCut buf ≤ cap) :
    (splitOff cap buf).length < buf.length := by
  have hpos := (findSafeSplitPoint_pos_iff hne cap).2 h
  have hlen := List.length_pos_of_ne_nil hne
  rw [splitOff, List.length_drop]
  omega

/-- Enough splits leave nothing, exactly when every piece fits. -/
theorem iterate_splitOff_iff {n : Nat} (h : buf.length ≤ n) :
    (splitOff cap)^[n] buf = [] ↔ Flows cap buf := by
  induction n generalizing buf with
  | zero =>
    have hnil : buf = [] := List.eq_nil_of_length_eq_zero (Nat.le_zero.1 h)
    exact iff_of_true hnil (flows_of_length_le (by simp [hnil]))
  | succ n ih =>
    by_cases hcut : firstCut buf ≤ cap
    · have hshort : (splitOff cap buf).length ≤ n := by
        by_cases hne : buf = []
        · simp [hne, splitOff]
        · have hlt := splitOff_length_lt hne hcut
          omega
      rw [Function.iterate_succ_apply, ih hshort]
      exact (flows_iff.trans (and_iff_right hcut)).symm
    · have hstay := splitOff_of_lt (Nat.lt_of_not_le hcut)
      rw [Function.iterate_fixed hstay]
      refine iff_of_false ?_ fun hflows => hcut (hflows 0 (.start buf))
      rintro rfl
      exact hcut (Nat.zero_le cap)

end MoshTcp.Ansi

namespace MoshTcp.Server
open ByteOrder Protocol Ansi Runs

variable {σ τ ε : Type} {cfg : Config σ τ ε} {s : Session σ τ}

/-- The send loop passes the output through. -/
structure Passing (s : Session σ τ) : Prop where
  running : s.sendLoopEnded = false
  capped : s.ptyBuffer.length ≤ maxPtyBufferCap
  noRefresh : s.pendingAtomicRefresh = false

theorem Passing.not_due (h : Passing s) : ¬ RefreshDue s := by
  rintro (hpending | hlong)
  · simp [h.noRefresh] at hpending
  · exact absurd h.capped (Nat.not_le.2 hlong)

/-- A tick whose frame is sent and before which the bucket has filled up. -/
def FullTick (cfg : Config σ τ ε) (s : Session σ τ) : Event ε → Prop
  | .tick elapsed sendOk =>
    sendOk = true ∧ cfg.arith.refill s.tokens elapsed = cfg.arith.burstCapacity
  | _ => False

instance [DecidableEq τ] (cfg : Config σ τ ε) (s : Session σ τ) (e : Event ε) :
    Decidable (FullTick cfg s e) :=
  match e with
  | .tick _ _ => inferInstanceAs (Decidable (_ ∧ _))
  | .ptyRead _ | .closeFlush _ | .clientPacket _ | .clientEnd | .sendTaskDone => .isFalse id

def burst (cfg : Config σ τ ε) : Nat := cfg.arith.asUsize cfg.arith.burstCapacity

/-- What ticks with a full bucket do. -/
structure Pushed (cfg : Config σ τ ε) (n : Nat) (s s' : Session σ τ) : Prop where
  passing : Passing s'
  ptyBuffer : s'.ptyBuffer = (splitOff (burst cfg))^[n] s.ptyBuffer
  ptyOutput : s'.ptyOutput = s.ptyOutput
  sent : ∃ more, s'.sent = s.sent ++ more ∧
    ∀ f ∈ more, ∃ seq, f.packet = framePacket cfg seq f.raw ∧ f.raw.length ≤ maxPtyBufferCap

theorem fullTick_pushed (h : Passing s)
    (ht : cfg.arith.exhausted cfg.arith.burstCapacity = false) {e : Event ε}
    (he : FullTick cfg s e) : Pushed cfg 1 s (step cfg s e) := by
  cases e with
  | tick elapsed sendOk =>
    obtain ⟨rfl, hfull⟩ := he
    rw [← hfull] at ht
    have hcases := step_not_due h.running ht h.not_due rfl true
    have hsplit : s.ptyBuffer.drop (findSafeSplitPoint s.ptyBuffer
        (cfg.arith.asUsize (cfg.arith.refill s.tokens elapsed))) =
          (splitOff (burst cfg))^[1] s.ptyBuffer := by
      rw [hfull]
      rfl
    rcases hcases with ⟨hnil, hstep⟩ | ⟨hpos, hstep⟩ | ⟨-, hzero, hstep⟩
    · rw [hstep]
      refine ⟨⟨h.running, h.capped, h.noRefresh⟩, ?_, rfl, [], (List.append_nil _).symm, by simp⟩
      rw [← hsplit, hnil, List.drop_nil]
      exact hnil
    · rw [hstep]
      refine ⟨⟨h.running, ?_, h.noRefresh⟩, hsplit, rfl, _, rfl, fun f hf => ?_⟩
      · rw [transmit_ptyBuffer, List.length_drop]
        have hcap := h.capped
        omega
      · rw [List.mem_singleton.1 hf]
        refine ⟨_, rfl, ?_⟩
        exact (List.length_take_le' _ _).trans h.capped
    · rw [hstep]
      refine ⟨⟨h.running, h.capped, h.noRefresh⟩, ?_, rfl, [], (List.append_nil _).symm, by simp⟩
      rw [← hsplit, hzero, List.drop_zero]
      rfl
  | _ => exact absurd he id

theorem ticks_pushed (h : Passing s)
    (ht : cfg.arith.exhausted cfg.arith.burstCapacity = false) {es : List (Event ε)}
    (hes : Along (step cfg) (FullTick cfg) s es) :
    Pushed cfg es.length s (run (step cfg) s es) := by
  induction es generalizing s with
  | nil => exact ⟨h, rfl, rfl, [], (List.append_nil _).symm, by simp⟩
  | cons e es ih =>
    have hfirst := fullTick_pushed h ht hes.1
    have hrest := ih hfirst.passing hes.2
    refine ⟨hrest.passing, ?_, hrest.ptyOutput.trans hfirst.ptyOutput, ?_⟩
    · rw [run_cons, hrest.ptyBuffer, hfirst.ptyBuffer, List.length_cons,
        Function.iterate_succ_apply]
      rfl
    · obtain ⟨more, hmore, hframes⟩ := hfirst.sent
      obtain ⟨more', hmore', hframes'⟩ := hrest.sent
      refine ⟨more ++ more', ?_, fun f hf => ?_⟩
      · rw [run_cons, hmore', hmore, List.append_assoc]
      · cases List.mem_append.1 hf with
        | inl hf => exact hframes f hf
        | inr hf => exact hframes' f hf

theorem fullTick_uncongested (h : Passing s) {e : Event ε} (he : FullTick cfg s e) :
    Uncongested s e := by
  cases e with
  | tick elapsed sendOk => exact ⟨h.capped, he.1⟩
  | _ => exact absurd he id

end MoshTcp.Server
