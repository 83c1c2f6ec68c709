import Mathlib.Data.Nat.Bitwise
import Mathlib.Data.List.Basic
import Mathlib.Tactic.Ring
import Mathlib.Tactic.Positivity

/-! Fixed-width big-endian integers over bytes. A width is a number of bytes; a
value is an unbounded natural, so truncation is always written out as a remainder. -/

set_option autoImplicit false

namespace MoshTcp.ByteOrder

abbrev Bytes := List UInt8

/-- The low `w` bytes of `n`, most significant first. -/
def beBytes : Nat → Nat → Bytes
  | 0, _ => []
  | w + 1, n => UInt8.ofNat (n / 256 ^ w) :: beBytes w n

def beNat : Bytes → Nat
  | [] => 0
  | b :: bs => b.toNat * 256 ^ bs.length + beNat bs

@[simp] theorem beBytes_length (w n : Nat) : (beBytes w n).length = w := by
  induction w with
  | zero => rfl
  | succ w ih => simp [beBytes, ih]

theorem beNat_lt (bs : Bytes) : beNat bs < 256 ^ bs.length := by
  induction bs with
  | nil => simp [beNat]
  | cons b bs ih =>
    have hb : b.toNat + 1 ≤ 256 := b.toNat_lt
    have hm := Nat.mul_le_mul_right (256 ^ bs.length) hb
    simp only [beNat, List.length_cons, Nat.pow_succ]
    rw [Nat.add_mul] at hm
    omega

theorem beNat_beBytes (w n : Nat) : beNat (beBytes w n) = n % 256 ^ w := by
  induction w with
  | zero => simp [beBytes, beNat, Nat.mod_one]
  | succ w ih =>
    have hd : (UInt8.ofNat (n / 256 ^ w)).toNat = n / 256 ^ w % 256 := by simp
    simp only [beBytes, beNat, beBytes_length, ih, hd]
    rw [Nat.mod_pow_succ]
    ring

theorem beNat_beBytes_of_lt {w n : Nat} (h : n < 256 ^ w) : beNat (beBytes w n) = n := by
  rw [beNat_beBytes, Nat.mod_eq_of_lt h]

theorem beNat_beBytes_word {n : Nat} (h : n < 2 ^ 32) : beNat (beBytes 4 n) = n :=
  beNat_beBytes_of_lt h

theorem beBytes_add_mul (w n m : Nat) : beBytes w (m * 256 ^ w + n) = beBytes w n := by
  induction w generalizing m with
  | zero => rfl
  | succ w ih =>
    have hm : m * 256 ^ (w + 1) + n = (m * 256) * 256 ^ w + n := by ring
    have hd : (m * 256 * 256 ^ w + n) / 256 ^ w = m * 256 + n / 256 ^ w := by
      rw [Nat.add_comm, Nat.add_mul_div_right _ _ (by positivity), Nat.add_comm]
    rw [beBytes, beBytes, hm, ih, hd]
    congr 1
    apply UInt8.toNat_inj.mp
    simp

theorem beBytes_mod (w n : Nat) : beBytes w (n % 256 ^ w) = beBytes w n := by
  conv_rhs => rw [← Nat.div_add_mod' n (256 ^ w), beBytes_add_mul]

theorem beBytes_beNat (bs : Bytes) : beBytes bs.length (beNat bs) = bs := by
  induction bs with
  | nil => rfl
  | cons b bs ih =>
    have hlt := beNat_lt bs
    have hd : (b.toNat * 256 ^ bs.length + beNat bs) / 256 ^ bs.length = b.toNat := by
      rw [Nat.add_comm, Nat.add_mul_div_right _ _ (by positivity), Nat.div_eq_of_lt hlt,
        Nat.zero_add]
    rw [List.length_cons, beBytes, beNat, hd, beBytes_add_mul, ih, UInt8.ofNat_toNat]

theorem beNat_lt_word {bs : Bytes} (h : bs.length = 4) : beNat bs < 2 ^ 32 := by
  have hlt := beNat_lt bs
  rw [h] at hlt
  exact hlt

/-! How a machine of either byte order keeps a value, and the conversion to network order
that makes its bytes big-endian. -/

inductive Endian where
  | little | big
  deriving DecidableEq, Repr

/-- The `w` bytes of a value in memory. -/
def Endian.store : Endian → Nat → Nat → Bytes
  | .big, w, n => beBytes w n
  | .little, w, n => (beBytes w n).reverse

/-- Host to network order for a value of `w` bytes. -/
def Endian.hton : Endian → Nat → Nat → Nat
  | .big, _, n => n
  | .little, w, n => beNat (beBytes w n).reverse

theorem Endian.store_mod (e : Endian) (w n : Nat) : e.store w (n % 256 ^ w) = e.store w n := by
  cases e <;> simp [store, beBytes_mod]

theorem Endian.store_hton (e : Endian) (w n : Nat) : e.store w (e.hton w n) = beBytes w n := by
  cases e with
  | big => rfl
  | little =>
    have h := beBytes_beNat (beBytes w n).reverse
    rw [List.length_reverse, beBytes_length] at h
    rw [store, hton, h, List.reverse_reverse]

/-- The shift-and-or spelling of a 32-bit big-endian read, as C code writes it. -/
def shiftWord (b₀ b₁ b₂ b₃ : UInt8) : UInt32 :=
  b₀.toUInt32 <<< 24 ||| b₁.toUInt32 <<< 16 ||| b₂.toUInt32 <<< 8 ||| b₃.toUInt32

theorem shiftWord_toNat (b₀ b₁ b₂ b₃ : UInt8) :
    (shiftWord b₀ b₁ b₂ b₃).toNat = beNat [b₀, b₁, b₂, b₃] := by
  have h₀ := b₀.toNat_lt
  have h₁ := b₁.toNat_lt
  have h₂ := b₂.toNat_lt
  have h₃ := b₃.toNat_lt
  have e₀ : (b₀.toNat <<< 24) % 2 ^ 32 = 2 ^ 24 * b₀.toNat := by
    rw [Nat.shiftLeft_eq]; omega
  have e₁ : (b₁.toNat <<< 16) % 2 ^ 32 = 2 ^ 16 * b₁.toNat := by
    rw [Nat.shiftLeft_eq]; omega
  have e₂ : (b₂.toNat <<< 8) % 2 ^ 32 = 2 ^ 8 * b₂.toNat := by
    rw [Nat.shiftLeft_eq]; omega
  have o₁ : 2 ^ 24 * b₀.toNat ||| 2 ^ 16 * b₁.toNat =
      2 ^ 16 * (2 ^ 8 * b₀.toNat + b₁.toNat) := by
    rw [← Nat.two_pow_add_eq_or_of_lt (by omega)]; omega
  have o₂ : 2 ^ 16 * (2 ^ 8 * b₀.toNat + b₁.toNat) ||| 2 ^ 8 * b₂.toNat =
      2 ^ 8 * (2 ^ 16 * b₀.toNat + 2 ^ 8 * b₁.toNat + b₂.toNat) := by
    rw [← Nat.two_pow_add_eq_or_of_lt (by omega)]; omega
  have o₃ : 2 ^ 8 * (2 ^ 16 * b₀.toNat + 2 ^ 8 * b₁.toNat + b₂.toNat) ||| b₃.toNat =
      2 ^ 8 * (2 ^ 16 * b₀.toNat + 2 ^ 8 * b₁.toNat + b₂.toNat) + b₃.toNat := by
    rw [← Nat.two_pow_add_eq_or_of_lt (by omega)]
  simp only [shiftWord, UInt32.toNat_or, UInt32.toNat_shiftLeft, UInt8.toNat_toUInt32]
  change (b₀.toNat <<< 24 % 2 ^ 32 ||| b₁.toNat <<< 16 % 2 ^ 32 |||
    b₂.toNat <<< 8 % 2 ^ 32 ||| b₃.toNat) = _
  rw [e₀, e₁, e₂, o₁, o₂, o₃]
  simp only [beNat, List.length_cons, List.length_nil]
  omega

end MoshTcp.ByteOrder
