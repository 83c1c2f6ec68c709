import MoshTcp.Ansi
import MoshTcp.Lib.Runs
import MoshTcp.Lib.Tokens
import MoshTcp.Lib.Utf8Lossy

/-! What `find_safe_split_point` of src/ansi.rs returns. The scan reads the buffer token by
token and records a point before every plain character and after every escape sequence, but
none before an escape sequence. -/

set_option autoImplicit false

namespace MoshTcp.Ansi
open ByteOrder Tokens Runs Utf8Lossy

/-- The first token: a CSI or OSC sequence, a two-byte escape or a single byte. A sequence
without its end reaches to the end of the buffer. -/
def sequenceLength : Bytes → Nat
  | [] => 0
  | [_] => 1
  | b :: c :: tail =>
    if b = 0x1b then
      if c = 0x5B then 2 + csiLength tail
      else if c = 0x5D then 2 + oscLength tail
      else 2
    else 1

theorem sequenceLength_pos {buf : Bytes} (hne : buf ≠ []) : 0 < sequenceLength buf := by
  cases buf with
  | nil => exact absurd rfl hne
  | cons b rest =>
    cases rest with
    | nil => exact Nat.one_pos
    | cons c tail =>
      simp only [sequenceLength]
      (repeat' split) <;> omega

theorem sequenceLength_le (buf : Bytes) : sequenceLength buf ≤ buf.length := by
  cases buf with
  | nil => exact Nat.le_refl 0
  | cons b rest =>
    cases rest with
    | nil => exact Nat.le_refl 1
    | cons c tail =>
      have hcsi := csiLength_le tail
      have hosc := oscLength_le tail
      unfold sequenceLength
      simp only [List.length_cons]
      (repeat' split) <;> omega

def sequences : Tokenizer UInt8 where
  length := sequenceLength
  length_pos := sequenceLength_pos
  length_le := sequenceLength_le

theorem sequenceLength_plain {b : UInt8} (hb : b ≠ 0x1b) (rest : Bytes) :
    sequenceLength (b :: rest) = 1 := by
  cases rest with
  | nil => rfl
  | cons c tail => simp [sequenceLength, hb]

theorem sequenceLength_escape (c : UInt8) (tail : Bytes) : sequenceLength (0x1b :: c :: tail) =
    if c = 0x5B then 2 + csiLength tail else if c = 0x5D then 2 + oscLength tail else 2 := by
  simp [sequenceLength]

/-- An escape sequence ends at `p`. -/
def EndsEscape (buf : Bytes) (p : Nat) : Prop :=
  ∃ q, sequences.Boundary buf q ∧ (buf.drop q).head? = some 0x1b ∧
    p = q + sequenceLength (buf.drop q)

/-- A plain byte that is not a UTF-8 continuation byte starts at `p`. -/
def StartsChar (buf : Bytes) (p : Nat) : Prop :=
  sequences.Boundary buf p ∧
    ∃ b, (buf.drop p).head? = some b ∧ b ≠ 0x1b ∧ (b < 0x80 ∨ b ≥ 0xC0)

def SafePoint (buf : Bytes) (p : Nat) : Prop := EndsEscape buf p ∨ StartsChar buf p

section Points
variable {buf : Bytes} {p : Nat}

theorem isContinuation_eq_false {b : UInt8} :
    isContinuation b = false ↔ b < 0x80 ∨ b ≥ 0xC0 := by
  rw [← Bool.not_eq_true, isContinuation_iff]
  simp only [ge_iff_le, UInt8.lt_iff_toNat_lt, UInt8.le_iff_toNat_le, UInt8.reduceToNat]
  omega

theorem drop_of_head {b : UInt8} (h : (buf.drop p).head? = some b) :
    buf.drop p = b :: buf.drop (p + 1) := by
  cases hd : buf.drop p with
  | nil => simp [hd] at h
  | cons c tail =>
    obtain rfl : c = b := by simpa [hd] using h
    rw [← List.drop_drop, hd]
    rfl

theorem drop_ne_nil {b : UInt8} (h : (buf.drop p).head? = some b) : buf.drop p ≠ [] := by
  rw [drop_of_head h]
  exact List.cons_ne_nil _ _

theorem token_le {q : Nat} (hq : sequences.Boundary buf q) (hp : sequences.Boundary buf p)
    (hlt : q < p) : q + sequenceLength (buf.drop q) ≤ p :=
  hq.next_le hp hlt

theorem EndsEscape.boundary (h : EndsEscape buf p) : sequences.Boundary buf p := by
  obtain ⟨q, hq, hesc, rfl⟩ := h
  exact hq.trans (Tokenizer.boundary_first (drop_ne_nil hesc))

theorem SafePoint.boundary (h : SafePoint buf p) : sequences.Boundary buf p := by
  cases h with
  | inl h => exact h.boundary
  | inr h => exact h.1

/-- A point behind a boundary is one of the whole buffer. -/
theorem SafePoint.shift {q j : Nat} (hq : sequences.Boundary buf q)
    (h : SafePoint (buf.drop q) j) : SafePoint buf (q + j) := by
  cases h with
  | inl h =>
    obtain ⟨r, hr, hesc, rfl⟩ := h
    rw [List.drop_drop] at hesc ⊢
    exact .inl ⟨q + r, hq.trans hr, hesc, (Nat.add_assoc ..).symm⟩
  | inr h =>
    obtain ⟨hj, b, hb, hplain⟩ := h
    rw [List.drop_drop] at hb
    exact .inr ⟨hq.trans hj, b, hb, hplain⟩

/-- The points of a buffer are those of its first token and those of the rest. -/
theorem safePoint_iff (hne : buf ≠ []) :
    SafePoint buf p ↔ (buf.head? = some 0x1b ∧ p = sequenceLength buf) ∨
      (p = 0 ∧ ∃ b, buf.head? = some b ∧ b ≠ 0x1b ∧ (b < 0x80 ∨ b ≥ 0xC0)) ∨
      ∃ j, SafePoint (buf.drop (sequenceLength buf)) j ∧ p = sequenceLength buf + j := by
  constructor
  · intro h
    cases h with
    | inl h =>
      obtain ⟨q, hq, hesc, rfl⟩ := h
      obtain rfl | ⟨-, k, hk, rfl⟩ := Tokenizer.boundary_cases hq
      · exact .inl ⟨by simpa using hesc, by simp⟩
      · refine .inr (.inr ⟨k + sequenceLength (buf.drop (sequences.length buf + k)),
          .inl ⟨k, hk, ?_, ?_⟩, Nat.add_assoc ..⟩)
        · rw [List.drop_drop]
          exact hesc
        · rw [List.drop_drop]
          rfl
    | inr h =>
      obtain ⟨hp, b, hb, hplain⟩ := h
      obtain rfl | ⟨-, k, hk, rfl⟩ := Tokenizer.boundary_cases hp
      · exact .inr (.inl ⟨rfl, b, by simpa using hb, hplain⟩)
      · refine .inr (.inr ⟨k, .inr ⟨hk, b, ?_, hplain⟩, rfl⟩)
        rw [List.drop_drop]
        exact hb
  · intro h
    obtain ⟨hesc, rfl⟩ | ⟨rfl, b, hb, hplain⟩ | ⟨j, hj, rfl⟩ := h
    · exact .inl ⟨0, .start buf, by simpa using hesc, by simp⟩
    · exact .inr ⟨.start buf, b, by simpa using hb, hplain⟩
    · exact hj.shift (Tokenizer.boundary_first hne)

theorem exists_safePoint_iff (hne : buf ≠ []) (i : Nat) :
    (∃ j, SafePoint buf j ∧ p = i + j) ↔
      (buf.head? = some 0x1b ∧ p = i + sequenceLength buf) ∨
      (p = i ∧ ∃ b, buf.head? = some b ∧ b ≠ 0x1b ∧ (b < 0x80 ∨ b ≥ 0xC0)) ∨
      ∃ j, SafePoint (buf.drop (sequenceLength buf)) j ∧ p = i + sequenceLength buf + j := by
  constructor
  · intro h
    obtain ⟨j, hj, rfl⟩ := h
    obtain ⟨hesc, rfl⟩ | ⟨rfl, hplain⟩ | ⟨k, hk, rfl⟩ := (safePoint_iff hne).1 hj
    · exact .inl ⟨hesc, rfl⟩
    · exact .inr (.inl ⟨rfl, hplain⟩)
    · exact .inr (.inr ⟨k, hk, (Nat.add_assoc ..).symm⟩)
  · intro h
    obtain ⟨hesc, rfl⟩ | ⟨rfl, hplain⟩ | ⟨k, hk, rfl⟩ := h
    · exact ⟨_, (safePoint_iff hne).2 (.inl ⟨hesc, rfl⟩), rfl⟩
    · exact ⟨0, (safePoint_iff hne).2 (.inr (.inl ⟨rfl, hplain⟩)), rfl⟩
    · exact ⟨_, (safePoint_iff hne).2 (.inr (.inr ⟨k, hk, rfl⟩)), Nat.add_assoc ..⟩

theorem not_safePoint_nil : ¬ SafePoint [] p := by
  intro h
  cases h with
  | inl h =>
    obtain ⟨q, -, hesc, -⟩ := h
    simp at hesc
  | inr h =>
    obtain ⟨-, b, hb, -⟩ := h
    simp at hb

end Points

theorem mem_safePoints_iff (i : Nat) (buf : Bytes) (p : Nat) :
    p ∈ safePoints i buf ↔ ∃ j, SafePoint buf j ∧ p = i + j := by
  fun_induction safePoints i buf with
  | case1 i => simp [not_safePoint_nil]
  | case2 i =>
    rw [exists_safePoint_iff (by simp)]
    simp [sequenceLength, not_safePoint_nil]
  | case3 i c tail n ih =>
    have hn : sequenceLength (0x1b :: c :: tail) = n := by simp [sequenceLength, n]
    rw [exists_safePoint_iff (by simp), hn, List.mem_cons, ih]
    simp
  | case4 i b rest hb hlead ih =>
    rw [exists_safePoint_iff (by simp), sequenceLength_plain hb, List.mem_cons, ih]
    simp [hb, hlead]
  | case5 i b rest hb hlead ih =>
    rw [exists_safePoint_iff (by simp), sequenceLength_plain hb, ih]
    simp [hb, hlead]

theorem le_of_mem_safePoints {i p : Nat} {buf : Bytes} (h : p ∈ safePoints i buf) : i ≤ p := by
  obtain ⟨j, -, rfl⟩ := (mem_safePoints_iff i buf p).1 h
  exact Nat.le_add_right i j

theorem safePoints_sorted (i : Nat) (buf : Bytes) :
    (safePoints i buf).Pairwise (· ≤ ·) := by
  fun_induction safePoints i buf with
  | case1 => exact .nil
  | case2 => exact List.pairwise_singleton _ _
  | case3 i c tail n ih => exact .cons (fun p hp => le_of_mem_safePoints hp) ih
  | case4 i b rest hb hlead ih =>
    exact .cons (fun p hp => Nat.le_of_succ_le (le_of_mem_safePoints hp)) ih
  | case5 i b rest hb hlead ih => exact ih

/-! ### The search -/

/-- `safe_points` when the scan is done. -/
def recordedPoints (buf : Bytes) : List Nat := 0 :: safePoints 0 buf ++ [buf.length]

theorem mem_recordedPoints_iff {buf : Bytes} {p : Nat} :
    p ∈ recordedPoints buf ↔ p = 0 ∨ SafePoint buf p ∨ p = buf.length := by
  simp [recordedPoints, mem_safePoints_iff]

theorem recordedPoints_sorted (buf : Bytes) : (recordedPoints buf).Pairwise (· ≤ ·) := by
  unfold recordedPoints
  rw [List.cons_append]
  refine .cons (fun p _ => Nat.zero_le p) ?_
  refine List.pairwise_append.2 ⟨safePoints_sorted 0 buf, List.pairwise_singleton _ _, ?_⟩
  intro p hp q hq
  obtain ⟨j, hj, rfl⟩ := (mem_safePoints_iff 0 buf p).1 hp
  rw [List.mem_singleton] at hq
  rw [hq, Nat.zero_add]
  exact hj.boundary.le

/-- The search stops at the first larger point, which is right on a sorted list. -/
theorem bestPoint_spec (target : Nat) {best : Nat} {pts : List Nat}
    (hsorted : (best :: pts).Pairwise (· ≤ ·)) :
    bestPoint target best pts ∈ best :: pts ∧
      ∀ pt ∈ best :: pts, pt ≤ target → pt ≤ bestPoint target best pts := by
  induction pts generalizing best with
  | nil => simp [bestPoint]
  | cons pt pts ih =>
    obtain ⟨hbest, htail⟩ := List.pairwise_cons.1 hsorted
    by_cases hp : pt ≤ target
    · obtain ⟨hmem, hmax⟩ := ih htail
      simp only [bestPoint, if_pos hp]
      refine ⟨List.mem_cons_of_mem _ hmem, fun q hq hqt => ?_⟩
      cases List.mem_cons.1 hq with
      | inl hq =>
        rw [hq]
        exact (hbest pt (by simp)).trans (hmax pt (by simp) hp)
      | inr hq => exact hmax q hq hqt
    · simp only [bestPoint, if_neg hp]
      refine ⟨List.mem_cons_self, fun q hq hqt => ?_⟩
      cases List.mem_cons.1 hq with
      | inl hq => exact Nat.le_of_eq hq
      | inr hq =>
        have hle : pt ≤ q := by
          cases List.mem_cons.1 hq with
          | inl hq => exact Nat.le_of_eq hq.symm
          | inr hq => exact (List.pairwise_cons.1 htail).1 q hq
        omega

/-- What the function returns when the buffer does not fit: the largest recorded point up to
the target. -/
theorem findSafeSplitPoint_spec {buf : Bytes} {target : Nat} (h : target < buf.length) :
    findSafeSplitPoint buf target ≤ target ∧ findSafeSplitPoint buf target ∈ recordedPoints buf ∧
      ∀ pt ∈ recordedPoints buf, pt ≤ target → pt ≤ findSafeSplitPoint buf target := by
  refine ⟨(findSafeSplitPoint_le buf target).1, ?_⟩
  by_cases h0 : target = 0
  · have hzero : findSafeSplitPoint buf target = 0 := by
      have := (findSafeSplitPoint_le buf target).1
      omega
    rw [hzero]
    exact ⟨by simp [recordedPoints], fun pt _ hpt => hpt.trans (Nat.le_of_eq h0)⟩
  · have hfind : findSafeSplitPoint buf target = bestPoint target 0 (recordedPoints buf) := by
      simp only [findSafeSplitPoint, if_neg (Nat.not_le.2 h), if_neg h0, recordedPoints]
    have hsorted : (0 :: recordedPoints buf).Pairwise (· ≤ ·) :=
      .cons (fun p _ => Nat.zero_le p) (recordedPoints_sorted buf)
    obtain ⟨hmem, hmax⟩ := bestPoint_spec target hsorted
    rw [hfind]
    refine ⟨?_, fun pt hpt => hmax pt (List.mem_cons_of_mem _ hpt)⟩
    cases List.mem_cons.1 hmem with
    | inl h => exact mem_recordedPoints_iff.2 (.inl h)
    | inr h => exact h

theorem findSafeSplitPoint_safe {buf : Bytes} {target : Nat} (h : target < buf.length) :
    (findSafeSplitPoint buf target = 0 ∨ SafePoint buf (findSafeSplitPoint buf target)) ∧
      ∀ p, SafePoint buf p → p ≤ target → p ≤ findSafeSplitPoint buf target := by
  obtain ⟨hle, hmem, hmax⟩ := findSafeSplitPoint_spec h
  refine ⟨?_, fun p hp => hmax p (mem_recordedPoints_iff.2 (.inr (.inl hp)))⟩
  obtain hzero | hsafe | hlen := mem_recordedPoints_iff.1 hmem
  · exact .inl hzero
  · exact .inr hsafe
  · omega

theorem findSafeSplitPoint_boundary {buf : Bytes} {target : Nat} (h : target < buf.length) :
    sequences.Boundary buf (findSafeSplitPoint buf target) := by
  cases (findSafeSplitPoint_safe h).1 with
  | inl hzero =>
    rw [hzero]
    exact .start buf
  | inr hsafe => exact hsafe.boundary

/-- One split: where the next rest starts. -/
def splitStep (buf : Bytes) (i target : Nat) : Nat := i + findSafeSplitPoint (buf.drop i) target

/-- What is promised of the split with `target` when the rest starts at `i`. -/
structure SplitsWell (buf : Bytes) (i target : Nat) : Prop where
  cut_le : splitStep buf i target ≤ i + target
  boundary : sequences.Boundary buf (splitStep buf i target)
  whole : ∀ q, sequences.Boundary buf q → splitStep buf i target ≤ q ∨
    q + sequenceLength (buf.drop q) ≤ splitStep buf i target
  recorded : findSafeSplitPoint (buf.drop i) target ∈ recordedPoints (buf.drop i)
  largest : ∀ pt ∈ recordedPoints (buf.drop i), pt ≤ target →
    pt ≤ findSafeSplitPoint (buf.drop i) target

theorem splitStep_splitsWell {buf : Bytes} {i target : Nat} (hi : sequences.Boundary buf i)
    (h : target < (buf.drop i).length) : SplitsWell buf i target := by
  obtain ⟨hle, hrec, hmax⟩ := findSafeSplitPoint_spec h
  have hcut : sequences.Boundary buf (splitStep buf i target) :=
    hi.trans (findSafeSplitPoint_boundary h)
  refine ⟨Nat.add_le_add_left hle i, hcut, fun q hq => ?_, hrec, hmax⟩
  by_cases hlt : q < splitStep buf i target
  · exact .inr (hq.next_le hcut hlt)
  · exact .inl (Nat.le_of_not_lt hlt)

/-- Split again and again: every cut is up to its target and between two tokens of the whole
buffer, and it is the largest point that the scan of the rest records up to the target. -/
theorem splits_respect_sequences (buf : Bytes) (targets : List Nat)
    (h : Along (splitStep buf) (fun i target => target < (buf.drop i).length) 0 targets) :
    Along (splitStep buf) (SplitsWell buf) 0 targets := by
  rw [along_iff_cut]
  intro pre target post htargets
  rw [htargets] at h
  obtain ⟨hpre, hnext, -⟩ := along_append.1 h
  have hi : sequences.Boundary buf (run (splitStep buf) 0 pre) :=
    run_invariant (.start buf) (fun i t hi ht => (splitStep_splitsWell hi ht).boundary) hpre
  exact splitStep_splitsWell hi hnext

def colouredText : Bytes := [0x61, 0x62, 0x1b, 0x5B, 0x31, 0x6D, 0x63, 0x64]

theorem splits_respect_sequences_coloured :
    Along (splitStep colouredText) (SplitsWell colouredText) 0 [3, 2] := by
  refine splits_respect_sequences colouredText [3, 2] ⟨by decide, ?_, trivial⟩
  have hle : splitStep colouredText 0 3 ≤ 3 := by
    have := (findSafeSplitPoint_le (colouredText.drop 0) 3).1
    unfold splitStep
    omega
  have hlen : colouredText.length = 8 := rfl
  show 2 < (colouredText.drop (splitStep colouredText 0 3)).length
  rw [List.length_drop, hlen]
  omega

/-- Every position up to the target where text could be cut is up to the returned point. -/
def MaximalSplit (buf : Bytes) (target : Nat) : Prop :=
  ¬ ∃ p b, findSafeSplitPoint buf target < p ∧ p ≤ target ∧ sequences.Boundary buf p ∧
    (buf.drop p).head? = some b ∧ ¬ (0x80 ≤ b ∧ b ≤ 0xBF)

/-- An escape sequence starts at `p`, right after a single byte. -/
def EscapeAfterByte (buf : Bytes) (p : Nat) : Prop :=
  ∃ q b, sequences.Boundary buf q ∧ (buf.drop q).head? = some b ∧ b ≠ 0x1b ∧ p = q + 1 ∧
    (buf.drop p).head? = some 0x1b

section Withheld
variable {buf : Bytes} {p target : Nat}

theorem EscapeAfterByte.boundary (h : EscapeAfterByte buf p) : sequences.Boundary buf p := by
  obtain ⟨q, b, hq, hb, hne, rfl, -⟩ := h
  have hlen : sequences.length (buf.drop q) = 1 := by
    rw [drop_of_head hb]
    exact sequenceLength_plain hne _
  have hfirst : sequences.Boundary (buf.drop q) 1 := by
    rw [← hlen]
    exact Tokenizer.boundary_first (drop_ne_nil hb)
  exact hq.trans hfirst

theorem EscapeAfterByte.head (h : EscapeAfterByte buf p) : (buf.drop p).head? = some 0x1b := by
  obtain ⟨q, b, -, -, -, -, hesc⟩ := h
  exact hesc

theorem EscapeAfterByte.pos (h : EscapeAfterByte buf p) : 0 < p := by
  obtain ⟨q, b, -, -, -, rfl, -⟩ := h
  exact Nat.succ_pos q

theorem EscapeAfterByte.not_safePoint (h : EscapeAfterByte buf p) : ¬ SafePoint buf p := by
  intro hsafe
  have hp := h.boundary
  obtain ⟨q, b, hq, hb, hne, rfl, hesc⟩ := h
  cases hsafe with
  | inl hends =>
    obtain ⟨r, hr, hresc, hend⟩ := hends
    have hlt : r < q + 1 := by
      have hpos := sequenceLength_pos (drop_ne_nil hresc)
      omega
    have heq : r = q := by
      by_contra hrq
      have hnext := token_le hr hq (by omega)
      omega
    rw [heq, hb] at hresc
    exact hne (Option.some.inj hresc)
  | inr hstarts =>
    obtain ⟨-, c, hc, hcne, -⟩ := hstarts
    rw [hesc] at hc
    exact hcne (Option.some.inj hc).symm

/-- A boundary in front of a character or an escape is the start of the buffer, recorded, or
in front of an escape that follows a single byte. -/
theorem boundary_recorded (hp : sequences.Boundary buf p) {b : UInt8}
    (hb : (buf.drop p).head? = some b) (hlead : ¬ (0x80 ≤ b ∧ b ≤ 0xBF)) :
    p = 0 ∨ SafePoint buf p ∨ EscapeAfterByte buf p := by
  by_cases hesc : b = 0x1b
  · obtain rfl | ⟨q, hq, hqne, hlast⟩ := hp.last
    · exact .inl rfl
    · obtain ⟨c, tail, hd⟩ := List.exists_cons_of_ne_nil hqne
      have hc : (buf.drop q).head? = some c := by simp [hd]
      by_cases hcesc : c = 0x1b
      · exact .inr (.inl (.inl ⟨q, hq, by rw [hc, hcesc], hlast⟩))
      · have hone : sequences.length (buf.drop q) = 1 := by
          rw [hd]
          exact sequenceLength_plain hcesc tail
        rw [hone] at hlast
        exact .inr (.inr ⟨q, c, hq, hc, hcesc, hlast, by rw [hb, hesc]⟩)
  · have hstart : isContinuation b = false := by simpa [isContinuation] using hlead
    exact .inr (.inl (.inr ⟨hp, b, hb, hesc, isContinuation_eq_false.1 hstart⟩))

theorem findSafeSplitPoint_lt_escape (hp : EscapeAfterByte buf p)
    (hlt : target < p + sequenceLength (buf.drop p)) : findSafeSplitPoint buf target < p := by
  have hfits := hp.boundary.le
  have hseq := sequenceLength_le (buf.drop p)
  rw [List.length_drop] at hseq
  have htarget : target < buf.length := by omega
  obtain ⟨hpoint, -⟩ := findSafeSplitPoint_safe htarget
  have hbound := (findSafeSplitPoint_le buf target).1
  have hne : findSafeSplitPoint buf target ≠ p := by
    intro heq
    rw [heq] at hpoint
    cases hpoint with
    | inl hzero => exact absurd hp.pos (by omega)
    | inr hsafe => exact hp.not_safePoint hsafe
  by_contra hge
  have hnext := token_le hp.boundary (findSafeSplitPoint_boundary htarget) (by omega)
  omega

end Withheld

/-- Nothing that could be sent is withheld, exactly when the target is not on the first byte
of or inside an escape sequence that follows a single byte. -/
theorem split_maximal_iff (buf : Bytes) (target : Nat) :
    MaximalSplit buf target ↔ ¬ ∃ p, EscapeAfterByte buf p ∧ p ≤ target ∧
      target < p + sequenceLength (buf.drop p) := by
  constructor
  · intro hmax hesc
    obtain ⟨p, hp, hle, hlt⟩ := hesc
    exact hmax ⟨p, 0x1b, findSafeSplitPoint_lt_escape hp hlt, hle, hp.boundary, hp.head, by decide⟩
  · intro hno hwithheld
    obtain ⟨p, b, hfind, hle, hp, hb, hlead⟩ := hwithheld
    have htarget : target < buf.length := by
      by_contra hge
      rw [findSafeSplitPoint_of_fits (Nat.le_of_not_lt hge)] at hfind
      have := hp.le
      omega
    obtain ⟨-, hmax⟩ := findSafeSplitPoint_safe htarget
    obtain rfl | hsafe | hafter := boundary_recorded hp hb hlead
    · omega
    · have := hmax p hsafe hle
      omega
    · refine hno ⟨p, hafter, hle, ?_⟩
      by_contra hge
      have := hmax _ (.inl ⟨p, hp, hafter.head, rfl⟩) (Nat.le_of_not_lt hge)
      omega

/-- `ab` before a colour change: with 3 bytes to spend only `a` is sent. -/
theorem split_withholds_text :
    0 < 3 ∧ 3 < colouredText.length ∧ findSafeSplitPoint colouredText 3 = 1 ∧
      ¬ MaximalSplit colouredText 3 := by
  have hfind : findSafeSplitPoint colouredText 3 = 1 := by
    simp [colouredText, findSafeSplitPoint, safePoints, csiLength, bestPoint]
  refine ⟨by decide, by decide, hfind, fun hmax => ?_⟩
  refine hmax ⟨2, 0x1b, ?_, by decide, ?_, rfl, by decide⟩
  · rw [hfind]
    decide
  · exact .token (by decide) (.token (by decide) (.start _))

/-! ### Characters -/

/-- The start, the end or a position in front of a byte that is no continuation byte. -/
def CharBoundary (buf : Bytes) (p : Nat) : Prop :=
  p = 0 ∨ p = buf.length ∨ ∃ b, (buf.drop p).head? = some b ∧ isContinuation b = false

/-- How far the scan goes before it records a point: over continuation bytes, and over an
escape sequence behind them. -/
def firstPoint : Bytes → Nat
  | [] => 0
  | b :: rest =>
    if b = 0x1b then sequenceLength (b :: rest)
    else if isContinuation b then 1 + firstPoint rest
    else 0

/-- An ESC at `q` is followed directly by the first byte of a multi-byte character. -/
structure EscapedLead (buf : Bytes) (q : Nat) (x : UInt8) (tail : Bytes) : Prop where
  boundary : sequences.Boundary buf q
  here : buf.drop q = 0x1b :: x :: tail
  lead : 0xC0 ≤ x

/-- The first `n` bytes are all, or the last of them is ASCII. -/
def EndsAscii (n : Nat) (tail : Bytes) : Prop :=
  n = tail.length ∨ ∃ b : UInt8, b.toNat < 0x80 ∧ b :: tail.drop n <:+ tail

theorem EndsAscii.cons {n : Nat} {tail : Bytes} (h : EndsAscii n tail) (c : UInt8) :
    EndsAscii (1 + n) (c :: tail) := by
  rw [EndsAscii, Nat.add_comm 1, List.drop_succ_cons, List.length_cons]
  obtain hlen | ⟨b, hb, hsuffix⟩ := h
  · exact .inl (congrArg (· + 1) hlen)
  · exact .inr ⟨b, hb, hsuffix.trans (List.suffix_cons c tail)⟩

theorem csiLength_last (tail : Bytes) : EndsAscii (csiLength tail) tail := by
  induction tail with
  | nil => exact .inl rfl
  | cons c rest ih =>
    unfold csiLength
    split
    · rename_i hfinal
      have hascii := UInt8.le_iff_toNat_le.1 hfinal.2
      exact .inr ⟨c, Nat.lt_succ_of_le (hascii.trans (by decide)), List.suffix_rfl⟩
    · exact ih.cons c

theorem oscLength_last (tail : Bytes) : EndsAscii (oscLength tail) tail := by
  induction tail with
  | nil => exact .inl rfl
  | cons c rest ih =>
    unfold oscLength
    split
    · rename_i hbel
      exact .inr ⟨c, by rw [hbel]; decide, List.suffix_rfl⟩
    · split
      · rename_i hst
        cases rest with
        | nil => simp at hst
        | cons d rest =>
          obtain rfl : d = 0x5C := by simpa using hst.2
          exact .inr ⟨0x5C, by decide, List.suffix_cons c _⟩
      · exact ih.cons c

section Points
variable {buf : Bytes} {p : Nat}

theorem SafePoint.firstPoint_le (h : SafePoint buf p) : firstPoint buf ≤ p := by
  induction buf generalizing p with
  | nil => exact Nat.zero_le p
  | cons b rest ih =>
    unfold firstPoint
    split
    · rename_i hesc
      obtain ⟨-, rfl⟩ | ⟨-, c, hc, hne, -⟩ | ⟨j, -, rfl⟩ := (safePoint_iff (by simp)).1 h
      · exact Nat.le_refl _
      · obtain rfl : b = c := by simpa using hc
        exact absurd hesc hne
      · exact Nat.le_add_right _ j
    · rename_i hesc
      split
      · rename_i hcont
        rw [safePoint_iff (by simp), sequenceLength_plain hesc] at h
        obtain ⟨hhead, -⟩ | ⟨-, c, hc, -, hlead⟩ | ⟨j, hj, rfl⟩ := h
        · exact absurd (by simpa using hhead) hesc
        · obtain rfl : b = c := by simpa using hc
          rw [isContinuation_eq_false.2 hlead] at hcont
          exact absurd hcont Bool.false_ne_true
        · exact Nat.add_le_add_left (ih hj) 1
      · exact Nat.zero_le p

theorem safePoint_firstPoint (h : firstPoint buf < buf.length) :
    SafePoint buf (firstPoint buf) := by
  induction buf with
  | nil => simp at h
  | cons b rest ih =>
    rw [safePoint_iff (by simp)]
    unfold firstPoint at h ⊢
    split
    · rename_i hesc
      exact .inl ⟨by rw [hesc]; rfl, rfl⟩
    · rename_i hesc
      rw [if_neg hesc] at h
      split
      · rename_i hcont
        rw [if_pos hcont, List.length_cons] at h
        rw [sequenceLength_plain hesc]
        exact .inr (.inr ⟨_, ih (by omega), rfl⟩)
      · rename_i hcont
        rw [Bool.not_eq_true] at hcont
        exact .inr (.inl ⟨rfl, b, rfl, hesc, isContinuation_eq_false.1 hcont⟩)

theorem firstPoint_le_length (buf : Bytes) : firstPoint buf ≤ buf.length := by
  induction buf with
  | nil => exact Nat.le_refl 0
  | cons b rest ih =>
    have hseq := sequenceLength_le (b :: rest)
    unfold firstPoint
    rw [List.length_cons] at hseq ⊢
    (repeat' split) <;> omega

theorem SafePoint.drop {q : Nat} (hq : sequences.Boundary buf q) (hlt : q < p)
    (h : SafePoint buf p) : SafePoint (buf.drop q) (p - q) := by
  cases h with
  | inl h =>
    obtain ⟨r, hr, hesc, rfl⟩ := h
    have hle : q ≤ r := by
      by_contra hlt'
      have hnext := token_le hr hq (Nat.lt_of_not_le hlt')
      omega
    have hdrop : (buf.drop q).drop (r - q) = buf.drop r := by
      rw [List.drop_drop, Nat.add_sub_cancel' hle]
    refine .inl ⟨r - q, hr.sub hq hle, by rw [hdrop, hesc], ?_⟩
    rw [hdrop]
    omega
  | inr h =>
    obtain ⟨hp, b, hb, hplain⟩ := h
    have hdrop : (buf.drop q).drop (p - q) = buf.drop p := by
      rw [List.drop_drop, Nat.add_sub_cancel' hlt.le]
    exact .inr ⟨hp.sub hq hlt.le, b, by rw [hdrop, hb], hplain⟩

end Points

section Text
variable {cs : List Char} {p : Nat}

theorem charBoundary_of_ascii (hp : p ≤ (encode cs).length) {b : UInt8} (hb : b.toNat < 0x80)
    (h : b :: (encode cs).drop p <:+ encode cs) : CharBoundary (encode cs) p := by
  cases hd : (encode cs).drop p with
  | nil => exact .inr (.inl (Nat.le_antisymm hp (List.drop_eq_nil_iff.1 hd)))
  | cons c rest =>
    refine .inr (.inr ⟨c, by simp [hd], ?_⟩)
    exact (encode_adjacent h).1 hb c (by simp [hd])

theorem charBoundary_of_last {q n : Nat} {x y : UInt8} {tail : Bytes}
    (hd : (encode cs).drop q = x :: y :: tail) (hle : q + (2 + n) ≤ (encode cs).length)
    (hlast : EndsAscii n tail) :
    CharBoundary (encode cs) (q + (2 + n)) := by
  cases hlast with
  | inl hlen =>
    have hlength := congrArg List.length hd
    rw [List.length_drop, List.length_cons, List.length_cons] at hlength
    exact .inr (.inl (by omega))
  | inr hlast =>
    obtain ⟨b, hb, hsuffix⟩ := hlast
    have htail : tail <:+ encode cs := by
      have hrest : tail <:+ (encode cs).drop q := by
        rw [hd]
        exact (List.suffix_cons y tail).trans (List.suffix_cons x _)
      exact hrest.trans (List.drop_suffix q _)
    refine charBoundary_of_ascii hle hb ?_
    rw [← List.drop_drop, ← List.drop_drop, hd]
    exact hsuffix.trans htail

/-- In text an escape sequence ends at a character, unless it is an ESC and the first byte of
a multi-byte character. -/
theorem EndsEscape.charBoundary (h : EndsEscape (encode cs) p) : CharBoundary (encode cs) p ∨
    ∃ q x tail, EscapedLead (encode cs) q x tail ∧ p = q + 2 := by
  have hp := h.boundary.le
  obtain ⟨q, hq, hesc, rfl⟩ := h
  have hd := drop_of_head hesc
  cases hr : (encode cs).drop (q + 1) with
  | nil =>
    rw [hr] at hd
    have hlength := congrArg List.length hd
    rw [List.length_drop, List.length_singleton] at hlength
    rw [hd]
    exact .inl (.inr (.inl (by simp only [sequenceLength]; omega)))
  | cons c tail =>
    rw [hr] at hd
    rw [hd] at hp ⊢
    rw [sequenceLength_escape] at hp ⊢
    split at hp
    · rename_i hcsi
      rw [if_pos hcsi]
      exact .inl (charBoundary_of_last hd hp (csiLength_last tail))
    · rename_i hcsi
      rw [if_neg hcsi]
      split at hp
      · rename_i hosc
        rw [if_pos hosc]
        exact .inl (charBoundary_of_last hd hp (oscLength_last tail))
      · rename_i hosc
        rw [if_neg hosc]
        -- the byte behind the ESC is ASCII or a lead byte
        have hsuffix : 0x1b :: c :: tail <:+ encode cs := hd ▸ List.drop_suffix q _
        by_cases hc : c.toNat < 0x80
        · refine .inl (charBoundary_of_ascii hp hc ?_)
          rw [← List.drop_drop, hd]
          exact (List.suffix_cons 0x1b _).trans hsuffix
        · have hcont := (encode_adjacent hsuffix).1 (by decide) c rfl
          refine .inr ⟨q, c, tail, ⟨hq, hd, ?_⟩, rfl⟩
          exact (isContinuation_eq_false.1 hcont).resolve_left fun hlt =>
            hc (UInt8.lt_iff_toNat_lt.1 hlt)

end Text

theorem StartsChar.charBoundary {buf : Bytes} {p : Nat} (h : StartsChar buf p) :
    CharBoundary buf p := by
  obtain ⟨-, b, hb, -, hlead⟩ := h
  exact .inr (.inr ⟨b, hb, isContinuation_eq_false.2 hlead⟩)

namespace EscapedLead
variable {buf : Bytes} {q : Nat} {x : UInt8} {tail : Bytes}

theorem drop_two (h : EscapedLead buf q x tail) : buf.drop (q + 2) = tail := by
  rw [← List.drop_drop, h.here]
  rfl

theorem safePoint (h : EscapedLead buf q x tail) : SafePoint buf (q + 2) := by
  have hlen : sequenceLength (buf.drop q) = 2 := by
    rw [h.here, sequenceLength_escape, if_neg, if_neg]
    · intro hx
      exact absurd h.lead (by rw [hx]; decide)
    · intro hx
      exact absurd h.lead (by rw [hx]; decide)
  exact .inl ⟨q, h.boundary, by simp [h.here], by rw [hlen]⟩

theorem length_tail (h : EscapedLead buf q x tail) : q + 2 + tail.length = buf.length := by
  have hlength := congrArg List.length h.drop_two
  have hle := h.safePoint.boundary.le
  rw [List.length_drop] at hlength
  omega

theorem split_eq (h : EscapedLead buf q x tail) {target : Nat} (hle : q + 2 ≤ target)
    (hlt : target < q + 2 + firstPoint tail) : findSafeSplitPoint buf target = q + 2 := by
  have hlength := h.length_tail
  have hfirst := firstPoint_le_length tail
  obtain ⟨hpoint, hmax⟩ := findSafeSplitPoint_safe (show target < buf.length by omega)
  have hbound := (findSafeSplitPoint_le buf target).1
  have hge := hmax _ h.safePoint hle
  cases hpoint with
  | inl hzero => omega
  | inr hpoint =>
    by_contra hne
    have hrest := hpoint.drop h.safePoint.boundary (by omega)
    rw [h.drop_two] at hrest
    have := hrest.firstPoint_le
    omega

theorem lt_split (h : EscapedLead buf q x tail) (hpos : 0 < firstPoint tail) {target : Nat}
    (hlt : target < buf.length) (hge : q + 2 + firstPoint tail ≤ target) :
    q + 2 < findSafeSplitPoint buf target := by
  have hlength := h.length_tail
  have hnext : SafePoint (buf.drop (q + 2)) (firstPoint tail) := by
    rw [h.drop_two]
    exact safePoint_firstPoint (by omega)
  have := (findSafeSplitPoint_safe hlt).2 _ (hnext.shift h.safePoint.boundary) hge
  omega

theorem next {cs : List Char} (h : EscapedLead (encode cs) q x tail) :
    ∃ c, tail.head? = some c ∧ isContinuation c = true := by
  have hsuffix := List.drop_suffix q (encode cs)
  rw [h.here] at hsuffix
  exact (encode_adjacent ((List.suffix_cons _ _).trans hsuffix)).2 (UInt8.le_iff_toNat_le.1 h.lead)

end EscapedLead

theorem firstPoint_pos {tail : Bytes} {c : UInt8} (hc : tail.head? = some c)
    (hcont : isContinuation c = true) : 0 < firstPoint tail := by
  cases tail with
  | nil => simp at hc
  | cons b rest =>
    obtain rfl : b = c := by simpa using hc
    unfold firstPoint
    rw [if_neg, if_pos hcont]
    · omega
    · intro hesc
      rw [hesc] at hcont
      exact absurd hcont (by decide)

/-- In UTF-8 text the split is at a character, exactly when the target is not behind an ESC
and the first byte of a multi-byte character, with no point in between. -/
theorem split_charBoundary_iff (cs : List Char) (target : Nat) :
    CharBoundary (encode cs) (findSafeSplitPoint (encode cs) target) ↔
      ¬ ∃ q x tail, EscapedLead (encode cs) q x tail ∧
        q + 2 ≤ target ∧ target < q + 2 + firstPoint tail := by
  constructor
  · intro hchar hbehind
    obtain ⟨q, x, tail, hlead, hle, hlt⟩ := hbehind
    obtain ⟨c, hc, hcont⟩ := hlead.next
    rw [hlead.split_eq hle hlt] at hchar
    obtain hzero | hend | ⟨b, hb, hnot⟩ := hchar
    · omega
    · have hlength := hlead.length_tail
      have hfirst := firstPoint_le_length tail
      omega
    · rw [hlead.drop_two, hc] at hb
      rw [Option.some.inj hb, hnot] at hcont
      exact Bool.false_ne_true hcont
  · intro hno
    by_cases htarget : target < (encode cs).length
    · obtain hzero | hends | hstarts := (findSafeSplitPoint_safe htarget).1
      · exact .inl hzero
      · obtain hchar | ⟨q, x, tail, hlead, heq⟩ := hends.charBoundary
        · exact hchar
        · obtain ⟨c, hc, hcont⟩ := hlead.next
          have hbound := (findSafeSplitPoint_le (encode cs) target).1
          refine absurd ⟨q, x, tail, hlead, heq ▸ hbound, ?_⟩ hno
          by_contra hge
          have := hlead.lt_split (firstPoint_pos hc hcont) htarget (Nat.le_of_not_lt hge)
          omega
      · exact hstarts.charBoundary
    · exact .inr (.inl (findSafeSplitPoint_of_fits (Nat.le_of_not_lt htarget)))

/-- An ESC in front of `é`: the split is between the two bytes of the letter. -/
theorem split_inside_char :
    encode [Char.ofNat 0x1b, 'é'] = [0x1b, 0xC3, 0xA9] ∧
      findSafeSplitPoint (encode [Char.ofNat 0x1b, 'é']) 2 = 2 ∧
      ¬ CharBoundary (encode [Char.ofNat 0x1b, 'é']) 2 := by
  have htext : encode [Char.ofNat 0x1b, 'é'] = [0x1b, 0xC3, 0xA9] := by decide
  refine ⟨htext, ?_, ?_⟩
  · rw [htext]
    simp [findSafeSplitPoint, safePoints, bestPoint]
  · rw [htext]
    simp [CharBoundary, isContinuation]

/-- The bytes that are sent together or not at all from the start: an escape sequence, or a
byte with the continuation bytes and the escape sequence behind it. -/
def firstCut : Bytes → Nat
  | [] => 0
  | b :: rest => if b = 0x1b then sequenceLength (b :: rest) else 1 + firstPoint rest

theorem firstCut_pos {buf : Bytes} (hne : buf ≠ []) : 0 < firstCut buf := by
  cases buf with
  | nil => exact absurd rfl hne
  | cons b rest =>
    simp only [firstCut]
    split
    · exact sequenceLength_pos hne
    · omega

theorem firstCut_le_length (buf : Bytes) : firstCut buf ≤ buf.length := by
  cases buf with
  | nil => exact Nat.le_refl 0
  | cons b rest =>
    have hseq := sequenceLength_le (b :: rest)
    have hfirst := firstPoint_le_length rest
    simp only [firstCut]
    rw [List.length_cons] at hseq ⊢
    split <;> omega

theorem safePoint_firstCut {buf : Bytes} (h : firstCut buf < buf.length) :
    SafePoint buf (firstCut buf) := by
  cases buf with
  | nil => simp at h
  | cons b rest =>
    rw [safePoint_iff (by simp)]
    simp only [firstCut] at h ⊢
    split
    · rename_i hesc
      exact .inl ⟨by rw [hesc]; rfl, rfl⟩
    · rename_i hesc
      rw [if_neg hesc, List.length_cons] at h
      have hrest : SafePoint rest (firstPoint rest) := safePoint_firstPoint (by omega)
      rw [sequenceLength_plain hesc]
      exact .inr (.inr ⟨firstPoint rest, hrest, rfl⟩)

theorem SafePoint.firstCut_le {buf : Bytes} {p : Nat} (h : SafePoint buf p) (hp : 0 < p) :
    firstCut buf ≤ p := by
  cases buf with
  | nil => exact Nat.zero_le p
  | cons b rest =>
    simp only [firstCut]
    rw [safePoint_iff (by simp)] at h
    obtain ⟨hesc, rfl⟩ | ⟨rfl, -⟩ | ⟨j, hj, rfl⟩ := h
    · rw [if_pos (by simpa using hesc)]
    · omega
    · split
      · exact Nat.le_add_right _ j
      · rename_i hesc
        rw [sequenceLength_plain hesc] at hj ⊢
        exact Nat.add_le_add_left hj.firstPoint_le 1

/-- A split is not empty, exactly when the first piece fits into the target. -/
theorem findSafeSplitPoint_pos_iff {buf : Bytes} (hne : buf ≠ []) (target : Nat) :
    0 < findSafeSplitPoint buf target ↔ firstCut buf ≤ target := by
  have hpos := firstCut_pos hne
  have hle := firstCut_le_length buf
  by_cases htarget : target < buf.length
  · obtain ⟨hpoint, hmax⟩ := findSafeSplitPoint_safe htarget
    have hbound := (findSafeSplitPoint_le buf target).1
    constructor
    · intro hfind
      cases hpoint with
      | inl hzero => omega
      | inr hsafe => exact (hsafe.firstCut_le hfind).trans hbound
    · intro hcut
      have := hmax _ (safePoint_firstCut (by omega)) hcut
      omega
  · rw [findSafeSplitPoint_of_fits (Nat.le_of_not_lt htarget)]
    exact iff_of_true (by omega) (by omega)

end MoshTcp.Ansi
