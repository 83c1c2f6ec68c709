import Mathlib.Algebra.Order.Group.MinMax
import Mathlib.Tactic.GCongr

/-! A token bucket that may be overdrawn. `Window` keeps the books of a window of
operations: what was gained, what was spent, and the largest single overdraft. The
bound on what a window can spend is a potential argument on `spent + tokens`. -/

set_option autoImplicit false

namespace MoshTcp.TokenBucket

variable {K : Type} [AddCommGroup K] [LinearOrder K]

def refill (capacity tokens gain : K) : K := min (tokens + gain) capacity

theorem refill_le (capacity tokens gain : K) : refill capacity tokens gain ≤ capacity :=
  min_le_right _ _

theorem le_refill [IsOrderedAddMonoid K] {capacity tokens gain : K} (hg : 0 ≤ gain)
    (ht : tokens ≤ capacity) : tokens ≤ refill capacity tokens gain :=
  le_min (le_add_of_nonneg_right hg) ht

/-- The state `tokens` of a window that began with `start` tokens. While nothing has been
spent the debt of earlier operations may still stand. -/
structure Window (capacity start gained spent debt tokens : K) : Prop where
  start_le : start ≤ capacity
  le_capacity : tokens ≤ capacity
  balance : spent + tokens ≤ start + gained
  gained_nonneg : 0 ≤ gained
  debt_nonneg : 0 ≤ debt
  owed : spent = 0 ∨ 0 ≤ tokens + debt

variable {capacity start gained spent debt tokens gain cost : K}

theorem Window.begin (h : start ≤ capacity) : Window capacity start 0 0 0 start where
  start_le := h
  le_capacity := h
  balance := by simp
  gained_nonneg := le_rfl
  debt_nonneg := le_rfl
  owed := .inl rfl

variable [IsOrderedAddMonoid K]

/-- Time passes without the bucket being refilled. -/
theorem Window.wait (h : Window capacity start gained spent debt tokens) (hg : 0 ≤ gain) :
    Window capacity start (gained + gain) spent debt tokens where
  start_le := h.start_le
  le_capacity := h.le_capacity
  balance := h.balance.trans (by rw [← add_assoc]; exact le_add_of_nonneg_right hg)
  gained_nonneg := add_nonneg h.gained_nonneg hg
  debt_nonneg := h.debt_nonneg
  owed := h.owed

theorem Window.refill (h : Window capacity start gained spent debt tokens) (hg : 0 ≤ gain) :
    Window capacity start (gained + gain) spent debt (refill capacity tokens gain) where
  start_le := h.start_le
  le_capacity := refill_le _ _ _
  balance := by
    calc spent + TokenBucket.refill capacity tokens gain
        ≤ spent + (tokens + gain) := by gcongr; exact min_le_left _ _
      _ = spent + tokens + gain := (add_assoc _ _ _).symm
      _ ≤ start + gained + gain := add_le_add h.balance le_rfl
      _ = start + (gained + gain) := add_assoc _ _ _
  gained_nonneg := add_nonneg h.gained_nonneg hg
  debt_nonneg := h.debt_nonneg
  owed := h.owed.imp id fun hd => hd.trans (by gcongr; exact le_refill hg h.le_capacity)

theorem Window.spend (h : Window capacity start gained spent debt tokens) (hc : 0 ≤ cost)
    (hle : cost ≤ tokens) :
    Window capacity start gained (spent + cost) debt (tokens - cost) where
  start_le := h.start_le
  le_capacity := (sub_le_self _ hc).trans h.le_capacity
  balance := by simpa using h.balance
  gained_nonneg := h.gained_nonneg
  debt_nonneg := h.debt_nonneg
  owed := .inr (add_nonneg (sub_nonneg.2 hle) h.debt_nonneg)

/-- A single cost may exceed the tokens as long as there are some. -/
theorem Window.overdraw (h : Window capacity start gained spent debt tokens) (hc : 0 ≤ cost)
    (ht : 0 ≤ tokens) :
    Window capacity start gained (spent + cost) (max debt cost) (tokens - cost) where
  start_le := h.start_le
  le_capacity := (sub_le_self _ hc).trans h.le_capacity
  balance := by simpa using h.balance
  gained_nonneg := h.gained_nonneg
  debt_nonneg := h.debt_nonneg.trans (le_max_left _ _)
  owed := by
    refine .inr (ht.trans ?_)
    rw [sub_add_eq_add_sub, le_sub_iff_add_le]
    gcongr
    exact le_max_right _ _

theorem Window.spent_le (h : Window capacity start gained spent debt tokens)
    (hcap : 0 ≤ capacity) : spent ≤ capacity + gained + debt := by
  cases h.owed with
  -- nothing was spent, so a debt from before the window does no harm
  | inl h0 =>
    rw [h0]
    exact add_nonneg (add_nonneg hcap h.gained_nonneg) h.debt_nonneg
  | inr hd =>
    calc spent ≤ spent + (tokens + debt) := le_add_of_nonneg_right hd
      _ = spent + tokens + debt := (add_assoc _ _ _).symm
      _ ≤ start + gained + debt := add_le_add h.balance le_rfl
      _ ≤ capacity + gained + debt := by gcongr; exact h.start_le

end MoshTcp.TokenBucket
