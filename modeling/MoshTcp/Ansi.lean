import MoshTcp.Lib.ByteOrder

/-! The escape-sequence helpers of src/ansi.rs that frame building and prediction use. -/

set_option autoImplicit false

namespace MoshTcp.Ansi
open ByteOrder

def hasWindow (needle : Bytes) : Bytes → Bool
  | [] => false
  | b :: bs => needle.isPrefixOf (b :: bs) || hasWindow needle bs

def containsSubslice (haystack needle : Bytes) : Bool :=
  needle.isEmpty || hasWindow needle haystack

/-- Bytes of a CSI sequence after `ESC [`, its final byte included. -/
def csiLength : Bytes → Nat
  | [] => 0
  | b :: rest => if 0x40 ≤ b ∧ b ≤ 0x7E then 1 else 1 + csiLength rest

/-- Bytes of an OSC sequence after `ESC ]`, its terminator included. -/
def oscLength : Bytes → Nat
  | [] => 0
  | b :: rest =>
    if b = 0x07 then 1
    else if b = 0x1b ∧ rest.head? = some 0x5C then 2
    else 1 + oscLength rest

theorem csiLength_le (tail : Bytes) : csiLength tail ≤ tail.length := by
  induction tail with
  | nil => exact Nat.le_refl 0
  | cons b rest ih =>
    unfold csiLength
    split
    · simp
    · simp only [List.length_cons]
      omega

theorem oscLength_le (tail : Bytes) : oscLength tail ≤ tail.length := by
  induction tail with
  | nil => exact Nat.le_refl 0
  | cons b rest ih =>
    unfold oscLength
    split
    · simp
    · split
      · rename_i h
        cases rest with
        | nil => simp at h
        | cons c rest => simp
      · simp only [List.length_cons]
        omega

/-- The points that the scan of `find_safe_split_point` pushes from index `i` on, where
`rest` is the buffer from `i`. -/
def safePoints (i : Nat) : Bytes → List Nat
  | [] => []
  | b :: rest =>
    if b = 0x1b then
      match rest with
      | [] => [i + 1]
      | c :: tail =>
        let n := if c = 0x5B then 2 + csiLength tail
          else if c = 0x5D then 2 + oscLength tail
          else 2
        (i + n) :: safePoints (i + n) ((b :: c :: tail).drop n)
    else if b < 0x80 ∨ b ≥ 0xC0 then i :: safePoints (i + 1) rest
    else safePoints (i + 1) rest
termination_by bs => bs.length
decreasing_by
  all_goals simp only [List.length_drop, List.length_cons]
  all_goals (repeat' split) <;> omega

def bestPoint (target : Nat) : Nat → List Nat → Nat
  | best, [] => best
  | best, pt :: pts => if pt ≤ target then bestPoint target pt pts else best

def findSafeSplitPoint (buf : Bytes) (target : Nat) : Nat :=
  if target ≥ buf.length then buf.length
  else if target = 0 then 0
  else bestPoint target 0 (0 :: safePoints 0 buf ++ [buf.length])

theorem bestPoint_le {target best : Nat} (h : best ≤ target) (pts : List Nat) :
    bestPoint target best pts ≤ target := by
  induction pts generalizing best with
  | nil => exact h
  | cons pt pts ih =>
    by_cases hp : pt ≤ target
    · simpa [bestPoint, hp] using ih hp
    · simpa [bestPoint, hp] using h

theorem findSafeSplitPoint_le (buf : Bytes) (target : Nat) :
    findSafeSplitPoint buf target ≤ target ∧ findSafeSplitPoint buf target ≤ buf.length := by
  by_cases ht : target ≥ buf.length
  · simp [findSafeSplitPoint, ht]
  · have hb := bestPoint_le (Nat.zero_le target) (0 :: safePoints 0 buf ++ [buf.length])
    by_cases h0 : target = 0
    · simp only [findSafeSplitPoint, if_neg ht, if_pos h0]; omega
    · simp only [findSafeSplitPoint, if_neg ht, if_neg h0]
      exact ⟨hb, by omega⟩

theorem findSafeSplitPoint_of_fits {buf : Bytes} {target : Nat} (h : buf.length ≤ target) :
    findSafeSplitPoint buf target = buf.length := by
  simp [findSafeSplitPoint, h]

@[simp] theorem findSafeSplitPoint_nil (target : Nat) : findSafeSplitPoint [] target = 0 :=
  findSafeSplitPoint_of_fits (Nat.zero_le target)

end MoshTcp.Ansi
