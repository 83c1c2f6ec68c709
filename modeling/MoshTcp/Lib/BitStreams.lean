import Mathlib.Data.List.Basic
import Mathlib.Tactic.Ring

/-! Numbers in a stream of bits. Bytes give their bits from the lowest to the highest; a
number is read in that order, or from its highest bit down as the words of a prefix code. -/

set_option autoImplicit false

namespace MoshTcp.BitStreams

/-- The low `n` bits of `v`, lowest first. -/
def lowBits : Nat → Nat → List Bool
  | 0, _ => []
  | n + 1, v => v.testBit 0 :: lowBits n (v / 2)

def lowNat : List Bool → Nat
  | [] => 0
  | b :: bs => b.toNat + 2 * lowNat bs

/-- The low `n` bits of `v`, highest first. -/
def highBits (n v : Nat) : List Bool := (lowBits n v).reverse

def highNat (bs : List Bool) : Nat := lowNat bs.reverse

def bitsOf (bytes : List UInt8) : List Bool := bytes.flatMap fun b => lowBits 8 b.toNat

@[simp] theorem length_lowBits (n v : Nat) : (lowBits n v).length = n := by
  induction n generalizing v with
  | zero => rfl
  | succ n ih => simp [lowBits, ih]

@[simp] theorem length_highBits (n v : Nat) : (highBits n v).length = n := by
  simp [highBits]

theorem testBit_zero_toNat (v : Nat) : (v.testBit 0).toNat = v % 2 := by
  rcases Nat.mod_two_eq_zero_or_one v with h | h <;> simp [h]

theorem lowNat_lowBits (n v : Nat) : lowNat (lowBits n v) = v % 2 ^ n := by
  induction n generalizing v with
  | zero => simp [lowBits, lowNat, Nat.mod_one]
  | succ n ih =>
    rw [lowBits, lowNat, ih, testBit_zero_toNat, Nat.pow_succ', Nat.mod_mul]

theorem lowNat_lt (bs : List Bool) : lowNat bs < 2 ^ bs.length := by
  induction bs with
  | nil => simp [lowNat]
  | cons b bs ih =>
    have hb := Bool.toNat_le b
    rw [lowNat, List.length_cons, Nat.pow_succ]
    omega

theorem lowBits_lowNat (bs : List Bool) : lowBits bs.length (lowNat bs) = bs := by
  induction bs with
  | nil => rfl
  | cons b bs ih =>
    have hb := Bool.toNat_le b
    have hhalf : (b.toNat + 2 * lowNat bs) / 2 = lowNat bs := by omega
    have hbit : (b.toNat + 2 * lowNat bs).testBit 0 = b := by
      cases b <;> simp
    rw [List.length_cons, lowBits, lowNat, hhalf, hbit, ih]

theorem lowNat_lt_of_length {bs : List Bool} {n : Nat} (h : bs.length = n) : lowNat bs < 2 ^ n :=
  h ▸ lowNat_lt bs

theorem lowBits_of_length {bs : List Bool} {n : Nat} (h : bs.length = n) :
    lowBits n (lowNat bs) = bs :=
  h ▸ lowBits_lowNat bs

theorem lowNat_append (bs cs : List Bool) :
    lowNat (bs ++ cs) = lowNat bs + 2 ^ bs.length * lowNat cs := by
  induction bs with
  | nil => simp [lowNat]
  | cons b bs ih =>
    rw [List.cons_append, lowNat, lowNat, ih, List.length_cons, Nat.pow_succ]
    ring

theorem lowNat_singleton (b : Bool) : lowNat [b] = b.toNat := by
  simp [lowNat]

theorem lowBits_add {m v : Nat} (n w : Nat) (h : v < 2 ^ m) :
    lowBits (m + n) (v + 2 ^ m * w) = lowBits m v ++ lowBits n w := by
  induction m generalizing v with
  | zero =>
    obtain rfl : v = 0 := by omega
    simp [lowBits]
  | succ m ih =>
    have hhalf : (v + 2 ^ (m + 1) * w) / 2 = v / 2 + 2 ^ m * w := by
      rw [Nat.pow_succ', Nat.mul_assoc, Nat.add_mul_div_left _ _ (by decide)]
    have hbit : (v + 2 ^ (m + 1) * w).testBit 0 = v.testBit 0 := by
      rw [Nat.pow_succ', Nat.mul_assoc, Nat.testBit_zero, Nat.testBit_zero,
        Nat.add_mul_mod_self_left]
    rw [Nat.add_right_comm, lowBits, lowBits, hhalf, hbit, ih (by omega), List.cons_append]

theorem lowBits_inj {n v w : Nat} (hv : v < 2 ^ n) (hw : w < 2 ^ n)
    (h : lowBits n v = lowBits n w) : v = w := by
  have hnat := congrArg lowNat h
  rwa [lowNat_lowBits, lowNat_lowBits, Nat.mod_eq_of_lt hv, Nat.mod_eq_of_lt hw] at hnat

theorem highNat_snoc (bs : List Bool) (b : Bool) :
    highNat (bs ++ [b]) = 2 * highNat bs + b.toNat := by
  rw [highNat, List.reverse_append, List.reverse_singleton, List.singleton_append, lowNat, highNat,
    Nat.add_comm]

theorem highNat_lt (bs : List Bool) : highNat bs < 2 ^ bs.length := by
  have h := lowNat_lt bs.reverse
  rwa [List.length_reverse] at h

theorem highNat_append (bs cs : List Bool) :
    highNat (bs ++ cs) = highNat bs * 2 ^ cs.length + highNat cs := by
  rw [highNat, List.reverse_append, lowNat_append, List.length_reverse, highNat, highNat]
  ring

theorem highNat_highBits {n v : Nat} (h : v < 2 ^ n) : highNat (highBits n v) = v := by
  rw [highNat, highBits, List.reverse_reverse, lowNat_lowBits, Nat.mod_eq_of_lt h]

theorem highBits_highNat (bs : List Bool) : highBits bs.length (highNat bs) = bs := by
  rw [highBits, highNat, ← List.length_reverse, lowBits_lowNat, List.reverse_reverse]

/-- The leading bits of a number are its quotient by a power of two. -/
theorem highNat_of_append {bs cs : List Bool} {n v : Nat} (hv : v < 2 ^ n)
    (h : highBits n v = bs ++ cs) : highNat bs = v / 2 ^ cs.length := by
  have hvalue := congrArg highNat h
  rw [highNat_highBits hv, highNat_append] at hvalue
  rw [hvalue, Nat.mul_comm, Nat.mul_add_div (Nat.two_pow_pos _),
    Nat.div_eq_of_lt (highNat_lt cs), Nat.add_zero]

@[simp] theorem bitsOf_nil : bitsOf [] = [] := rfl

theorem bitsOf_cons (b : UInt8) (bytes : List UInt8) :
    bitsOf (b :: bytes) = lowBits 8 b.toNat ++ bitsOf bytes := rfl

theorem bitsOf_append (xs ys : List UInt8) : bitsOf (xs ++ ys) = bitsOf xs ++ bitsOf ys :=
  List.flatMap_append

@[simp] theorem length_bitsOf (bytes : List UInt8) : (bitsOf bytes).length = 8 * bytes.length := by
  induction bytes with
  | nil => rfl
  | cons b bytes ih =>
    rw [bitsOf_cons, List.length_append, length_lowBits, ih, List.length_cons]
    omega

theorem bitsOf_injective {xs ys : List UInt8} (h : bitsOf xs = bitsOf ys) : xs = ys := by
  induction xs generalizing ys with
  | nil =>
    cases ys with
    | nil => rfl
    | cons y ys => simp [bitsOf_cons, lowBits] at h
  | cons x xs ih =>
    cases ys with
    | nil => simp [bitsOf_cons, lowBits] at h
    | cons y ys =>
      rw [bitsOf_cons, bitsOf_cons] at h
      obtain ⟨hbyte, hrest⟩ := List.append_inj h (by simp)
      rw [UInt8.toNat_inj.1 (lowBits_inj x.toNat_lt y.toNat_lt hbyte), ih hrest]

/-- Whole bytes at the front of a stream are bytes. -/
theorem bitsOf_eq_append {bytes : List UInt8} {ws rest : List Bool} {n : Nat}
    (h : bitsOf bytes = ws ++ rest) (hn : ws.length = 8 * n) :
    bitsOf (bytes.take n) = ws ∧ bitsOf (bytes.drop n) = rest := by
  have hle : n ≤ bytes.length := by
    have hlen := congrArg List.length h
    rw [length_bitsOf, List.length_append, hn] at hlen
    omega
  rw [← List.take_append_drop n bytes, bitsOf_append] at h
  refine List.append_inj h ?_
  rw [length_bitsOf, List.length_take, Nat.min_eq_left hle, hn]

end MoshTcp.BitStreams
