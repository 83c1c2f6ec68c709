import Mathlib.Data.List.Basic

/-! Writing into a buffer of fixed size, as `memcpy`, `memmove` and `read` do. A buffer that
is filled from its start holds what was written, whatever it held before. -/

set_option autoImplicit false

namespace MoshTcp.Buffers

variable {α : Type} {buf xs : List α} {i : Nat}

/-- `xs` written at index `i`; meant for `i + xs.length ≤ buf.length`. -/
def overwrite (buf : List α) (i : Nat) (xs : List α) : List α :=
  buf.take i ++ xs ++ buf.drop (i + xs.length)

theorem overwrite_length (h : i + xs.length ≤ buf.length) :
    (overwrite buf i xs).length = buf.length := by
  simp only [overwrite, List.length_append, List.length_take, List.length_drop]
  omega

theorem take_overwrite (xs : List α) (h : i ≤ buf.length) :
    (overwrite buf i xs).take (i + xs.length) = buf.take i ++ xs := by
  unfold overwrite
  exact List.take_left' (by simp [h])

/-- A buffer of `n` cells whose first ones hold `xs`. -/
structure Filled (n : Nat) (xs buf : List α) : Prop where
  length : buf.length = n
  starts : xs <+: buf

/-- Writing right behind what the buffer holds. -/
theorem Filled.write {n : Nat} (h : Filled n xs buf) (ys : List α) (hi : i = xs.length)
    (hfit : i + ys.length ≤ n) : Filled n (xs ++ ys) (overwrite buf i ys) where
  length := by rw [overwrite_length (by rw [h.length]; exact hfit), h.length]
  starts := by
    unfold overwrite
    rw [hi, ← List.prefix_iff_eq_take.1 h.starts]
    exact List.prefix_append _ _

theorem Filled.first {n : Nat} (h : buf.length = n) (ys : List α) (hfit : ys.length ≤ n) :
    Filled n ys (overwrite buf 0 ys) :=
  Filled.write ⟨h, List.nil_prefix⟩ ys rfl (by omega)

theorem Filled.eq {n : Nat} (h : Filled n xs buf) (hn : xs.length = n) : buf = xs :=
  (h.starts.eq_of_length (hn.trans h.length.symm)).symm

end MoshTcp.Buffers
