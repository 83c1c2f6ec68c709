import MoshTcp.Lib.Utf8Lossy

/-! Decimal numerals over bytes: what a run of digits stands for, reading an unsigned
integer below a bound, and reading back what was printed. -/

set_option autoImplicit false

namespace MoshTcp.Numerals
open Utf8Lossy

def isDigit (b : UInt8) : Bool := 0x30 ≤ b && b ≤ 0x39

def digitsValue (digits : List UInt8) : Nat :=
  digits.foldl (fun n b => 10 * n + (b.toNat - 0x30)) 0

def stripPlus : List UInt8 → List UInt8
  | 0x2B :: rest => rest
  | bs => bs

/-- An optional plus sign and at least one digit, nothing else; a value that does not fit
below the bound is an error. -/
def parseUnsigned (bound : Nat) (bs : List UInt8) : Option Nat :=
  if stripPlus bs ≠ [] ∧ (stripPlus bs).all isDigit ∧ digitsValue (stripPlus bs) < bound
    then some (digitsValue (stripPlus bs)) else none

/-- How a number is printed. -/
def decimalDigits (n : Nat) : List UInt8 := encode (Nat.toDigits 10 n)

theorem isDigit_iff {b : UInt8} : isDigit b = true ↔ 0x30 ≤ b.toNat ∧ b.toNat ≤ 0x39 := by
  simp [isDigit, UInt8.le_iff_toNat_le]

theorem toNat_of_isDigit {c : Char} (h : c.isDigit = true) :
    0x30 ≤ c.toNat ∧ c.toNat ≤ 0x39 := by
  simp only [Char.isDigit, Bool.and_eq_true, decide_eq_true_eq, ge_iff_le] at h
  exact h

theorem encode_digits {cs : List Char} (h : ∀ c ∈ cs, c.isDigit = true) :
    encode cs = cs.map fun c => UInt8.ofNat c.toNat := by
  refine encode_ascii fun c hc => ?_
  have := toNat_of_isDigit (h c hc)
  omega

theorem toNat_ofNat_digit {c : Char} (h : c.isDigit = true) :
    (UInt8.ofNat c.toNat).toNat = c.toNat := by
  have := toNat_of_isDigit h
  rw [UInt8.toNat_ofNat']
  omega

theorem all_isDigit_encode {cs : List Char} (h : ∀ c ∈ cs, c.isDigit = true) :
    (encode cs).all isDigit = true := by
  rw [encode_digits h, List.all_map, List.all_eq_true]
  intro c hc
  simp only [Function.comp_apply, isDigit_iff, toNat_ofNat_digit (h c hc)]
  exact toNat_of_isDigit (h c hc)

theorem digitsValue_encode {cs : List Char} (h : ∀ c ∈ cs, c.isDigit = true) :
    digitsValue (encode cs) = Nat.ofDigitChars 10 cs 0 := by
  rw [encode_digits h, digitsValue, List.foldl_map, Nat.ofDigitChars_eq_foldl]
  refine List.foldl_ext _ _ _ fun n c hc => ?_
  rw [toNat_ofNat_digit (h c hc)]
  rfl

theorem encode_toString (n : Nat) : encode (toString n).toList = decimalDigits n := by
  rw [Nat.toString_eq_ofList_toDigits, String.toList_ofList, decimalDigits]

theorem decimalDigits_all (n : Nat) : (decimalDigits n).all isDigit = true :=
  all_isDigit_encode fun _ hc => Nat.isDigit_of_mem_toDigits (by decide) (by decide) hc

@[simp] theorem digitsValue_decimalDigits (n : Nat) : digitsValue (decimalDigits n) = n := by
  rw [decimalDigits, digitsValue_encode fun _ hc =>
    Nat.isDigit_of_mem_toDigits (by decide) (by decide) hc, Nat.ofDigitChars_ten_toDigits]

theorem decimalDigits_ne_nil (n : Nat) : decimalDigits n ≠ [] := by
  intro h
  have hdigits : ∀ c ∈ Nat.toDigits 10 n, c.isDigit = true := fun _ hc =>
    Nat.isDigit_of_mem_toDigits (by decide) (by decide) hc
  rw [decimalDigits, encode_digits hdigits, List.map_eq_nil_iff] at h
  exact Nat.toDigits_ne_nil h

/-- Digits are a numeral: there is no sign in front of them. -/
theorem stripPlus_digits {digits : List UInt8} (hall : ∀ b ∈ digits, isDigit b = true) :
    stripPlus digits = digits := by
  unfold stripPlus
  split
  · have := hall 0x2B (by simp)
    simp [isDigit] at this
  · rfl

theorem parseUnsigned_eq_some {bound n : Nat} {bs : List UInt8} :
    parseUnsigned bound bs = some n ↔
      (stripPlus bs ≠ [] ∧ (∀ b ∈ stripPlus bs, isDigit b = true)) ∧
        digitsValue (stripPlus bs) = n ∧ n < bound := by
  unfold parseUnsigned
  split_ifs with h
  · obtain ⟨hne, hall, hlt⟩ := h
    rw [Option.some.injEq]
    constructor
    · rintro rfl
      exact ⟨⟨hne, List.all_eq_true.1 hall⟩, rfl, hlt⟩
    · exact fun h => h.2.1
  · rw [false_iff]
    rintro ⟨⟨hne, hall⟩, rfl, hlt⟩
    exact h ⟨hne, List.all_eq_true.2 hall, hlt⟩

theorem parseUnsigned_decimalDigits {bound n : Nat} (h : n < bound) :
    parseUnsigned bound (decimalDigits n) = some n := by
  have hall := List.all_eq_true.1 (decimalDigits_all n)
  rw [parseUnsigned_eq_some, stripPlus_digits hall]
  exact ⟨⟨decimalDigits_ne_nil n, hall⟩, digitsValue_decimalDigits n, h⟩

end MoshTcp.Numerals
