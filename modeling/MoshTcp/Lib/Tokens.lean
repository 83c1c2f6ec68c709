import Mathlib.Data.List.Basic

/-! Streams that are read token by token from the left. A `Tokenizer` says how long the first
token of a stream is; a boundary is a position between two tokens. -/

set_option autoImplicit false

namespace MoshTcp.Tokens

structure Tokenizer (α : Type) where
  length : List α → Nat
  length_pos : ∀ {xs}, xs ≠ [] → 0 < length xs
  length_le : ∀ xs, length xs ≤ xs.length

variable {α : Type}

inductive Tokenizer.Boundary (T : Tokenizer α) : List α → Nat → Prop where
  | start (xs : List α) : T.Boundary xs 0
  | token {xs : List α} {i : Nat} (hne : xs ≠ []) (h : T.Boundary (xs.drop (T.length xs)) i) :
      T.Boundary xs (T.length xs + i)

variable {T : Tokenizer α} {xs : List α} {i j : Nat}

namespace Tokenizer

theorem boundary_cases (h : T.Boundary xs i) :
    i = 0 ∨ xs ≠ [] ∧ ∃ j, T.Boundary (xs.drop (T.length xs)) j ∧ i = T.length xs + j := by
  cases h with
  | start => exact .inl rfl
  | token hne h => exact .inr ⟨hne, _, h, rfl⟩

theorem boundary_first (hne : xs ≠ []) : T.Boundary xs (T.length xs) := .token hne (.start _)

theorem Boundary.le (h : T.Boundary xs i) : i ≤ xs.length := by
  induction h with
  | start => exact Nat.zero_le _
  | @token xs i hne h ih =>
    have hle := T.length_le xs
    rw [List.length_drop] at ih
    omega

/-- Reading on from a boundary. -/
theorem Boundary.trans (hi : T.Boundary xs i) (hj : T.Boundary (xs.drop i) j) :
    T.Boundary xs (i + j) := by
  induction hi with
  | start => simpa using hj
  | token hne h ih =>
    rw [Nat.add_assoc]
    rw [← List.drop_drop] at hj
    exact .token hne (ih hj)

/-- A boundary other than the start is the end of a token. -/
theorem Boundary.last (h : T.Boundary xs i) :
    i = 0 ∨ ∃ j, T.Boundary xs j ∧ xs.drop j ≠ [] ∧ i = j + T.length (xs.drop j) := by
  induction h with
  | start => exact .inl rfl
  | @token xs i hne h ih =>
    refine .inr ?_
    obtain rfl | ⟨j, hj, hjne, rfl⟩ := ih
    · exact ⟨0, .start xs, by simpa using hne, by simp⟩
    · rw [List.drop_drop] at hjne ⊢
      exact ⟨T.length xs + j, .token hne hj, hjne, (Nat.add_assoc ..).symm⟩

/-- The token that starts at a boundary ends before any later boundary does. -/
theorem Boundary.next_le (hi : T.Boundary xs i) (hj : T.Boundary xs j) (hlt : i < j) :
    i + T.length (xs.drop i) ≤ j := by
  induction hi generalizing j with
  | start =>
    obtain rfl | ⟨-, k, -, rfl⟩ := boundary_cases hj
    · omega
    · simp
  | @token xs i hne h ih =>
    obtain rfl | ⟨-, k, hk, rfl⟩ := boundary_cases hj
    · omega
    · have hstep := ih hk (by omega)
      rw [List.drop_drop] at hstep
      omega

/-- A later boundary is one of the rest. -/
theorem Boundary.sub (hj : T.Boundary xs j) (hi : T.Boundary xs i) (hle : i ≤ j) :
    T.Boundary (xs.drop i) (j - i) := by
  induction hi generalizing j with
  | start => simpa using hj
  | @token xs i hne h ih =>
    obtain rfl | ⟨-, k, hk, rfl⟩ := boundary_cases hj
    · have := T.length_pos hne
      omega
    · rw [← List.drop_drop, Nat.add_sub_add_left]
      exact ih hk (by omega)

end Tokenizer

end MoshTcp.Tokens
