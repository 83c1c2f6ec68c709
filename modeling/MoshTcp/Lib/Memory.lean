import Mathlib.Data.List.Basic

/-! Arrays of cells that may not have been written to, and loops that count. An access is
`none` where it would be outside the array or read a cell without a value. -/

set_option autoImplicit false

namespace MoshTcp.Memory

variable {α β : Type}

abbrev Cells (α : Type) := List (Option α)

def load (cells : Cells α) (i : Nat) : Option α := cells[i]?.join

def loadInt (cells : Cells α) (i : Int) : Option α := if i < 0 then none else load cells i.toNat

def store (cells : Cells α) (i : Nat) (v : α) : Option (Cells α) :=
  if i < cells.length then some (cells.set i (some v)) else none

theorem store_eq {cells : Cells α} {i : Nat} (h : i < cells.length) (v : α) :
    store cells i v = some (cells.set i (some v)) := if_pos h

theorem load_set_self {cells : Cells α} {i : Nat} (h : i < cells.length) (v : α) :
    load (cells.set i (some v)) i = some v := by
  rw [load, List.getElem?_set_self h, Option.join_some]

theorem load_set_ne {cells : Cells α} {i j : Nat} (h : i ≠ j) (v : Option α) :
    load (cells.set i v) j = load cells j := by
  rw [load, List.getElem?_set_ne h, load]

theorem load_map_some (xs : List α) (i : Nat) : load (xs.map some) i = xs[i]? := by
  rw [load, List.getElem?_map]
  cases xs[i]? <;> rfl

theorem load_drop (cells : Cells α) (n i : Nat) : load (cells.drop n) i = load cells (n + i) := by
  rw [load, List.getElem?_drop, load]

theorem loadInt_natCast (cells : Cells α) (i : Nat) : loadInt cells i = load cells i := by
  rw [loadInt, if_neg (by omega), Int.toNat_natCast]

/-- The cells hold the values of a list. -/
def Holds (cells : Cells α) (xs : List α) : Prop :=
  ∀ (i : Nat) (x : α), xs[i]? = some x → load cells i = some x

/-- Writing right behind a list that the cells hold. -/
theorem Holds.snoc {cells : Cells α} {xs : List α} (h : Holds cells xs)
    (hroom : xs.length < cells.length) (v : α) :
    Holds (cells.set xs.length (some v)) (xs ++ [v]) := by
  intro i x hx
  rw [List.getElem?_append] at hx
  split at hx
  · rename_i hlt
    rw [load_set_ne (by omega)]
    exact h i x hx
  · rename_i hge
    rw [List.getElem?_singleton] at hx
    split at hx
    · obtain rfl := Option.some.inj hx
      obtain rfl : i = xs.length := by omega
      exact load_set_self hroom v
    · cases hx

/-- The loop rule: `I k` holds before the pass with index `k`. -/
theorem for_invariant {f : β → Nat → Option β} {I : Nat → β → Prop} (start n : Nat) {b : β}
    (hb : I start b)
    (hstep : ∀ k b, start ≤ k → k < start + n → I k b → ∃ b', f b k = some b' ∧ I (k + 1) b') :
    ∃ b', (List.range' start n).foldlM f b = some b' ∧ I (start + n) b' := by
  induction n generalizing start b with
  | zero => exact ⟨b, rfl, hb⟩
  | succ n ih =>
    obtain ⟨b₁, hf, h₁⟩ := hstep start b (Nat.le_refl _) (by omega) hb
    obtain ⟨b₂, hrest, h₂⟩ := ih (start + 1) h₁ fun k b hk hlt hI =>
      hstep k b (by omega) (by omega) hI
    refine ⟨b₂, ?_, ?_⟩
    · rw [List.range'_succ, List.foldlM_cons, hf]
      exact hrest
    · rwa [← Nat.add_right_comm] at h₂

end MoshTcp.Memory
