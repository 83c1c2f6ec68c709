import MoshTcp.Lib.BitStreams

/-! Canonical prefix codes. A code is given by one length for each symbol, 0 for a symbol
without a word; the words of one length are consecutive numbers in the order of the symbols,
and start where the shorter words, taken as subtrees, end. -/

set_option autoImplicit false

namespace MoshTcp.PrefixCodes
open BitStreams

variable {ls : List Nat} {i l : Nat}

/-- The nodes at depth `l` that are words or lie under shorter ones. -/
def used (ls : List Nat) : Nat → Nat
  | 0 => 0
  | l + 1 => 2 * used ls l + ls.count (l + 1)

/-- The first word of length `l`. -/
def first (ls : List Nat) : Nat → Nat
  | 0 => 0
  | l + 1 => 2 * used ls l

/-- The number of words shorter than `l`. -/
def offset (ls : List Nat) : Nat → Nat
  | 0 => 0
  | 1 => 0
  | l + 2 => offset ls (l + 1) + ls.count (l + 1)

/-- The place of symbol `i` among the symbols of length `l`. -/
def rank (ls : List Nat) (l i : Nat) : Nat := (ls.take i).count l

def codeword (ls : List Nat) (i : Nat) : List Bool :=
  match ls[i]? with
  | some l => highBits l (first ls l + rank ls l i)
  | none => []

/-- Symbol `i` has a word of length `l`. -/
structure HasWord (ls : List Nat) (i l : Nat) : Prop where
  length : ls[i]? = some l
  pos : 0 < l

/-- Words up to length `n` fit under one root. -/
def Fits (n : Nat) (ls : List Nat) : Prop := used ls n ≤ 2 ^ n

instance (n : Nat) (ls : List Nat) : Decidable (Fits n ls) := inferInstanceAs (Decidable (_ ≤ _))

theorem used_eq {l : Nat} (h : 0 < l) : used ls l = first ls l + ls.count l := by
  cases l with
  | zero => omega
  | succ l => rfl

theorem codeword_eq (h : HasWord ls i l) :
    codeword ls i = highBits l (first ls l + rank ls l i) := by
  rw [codeword, h.length]

theorem length_codeword (h : HasWord ls i l) : (codeword ls i).length = l := by
  rw [codeword_eq h, length_highBits]

theorem codeword_ne_nil (h : HasWord ls i l) : codeword ls i ≠ [] := by
  rw [← List.length_pos_iff, length_codeword h]
  exact h.pos

theorem HasWord.lt_length (h : HasWord ls i l) : i < ls.length :=
  (List.getElem?_eq_some_iff.1 h.length).1

theorem rank_lt_count (h : ls[i]? = some l) : rank ls l i < ls.count l := by
  obtain ⟨hi, hl⟩ := List.getElem?_eq_some_iff.1 h
  have hsplit : ls.take (i + 1) = ls.take i ++ [l] := by
    rw [List.take_add_one, h]
    rfl
  have hle := (List.take_sublist (i + 1) ls).count_le l
  rw [hsplit, List.count_append, List.count_singleton_self] at hle
  exact hle

theorem exists_rank {r : Nat} (h : r < ls.count l) : ∃ i, ls[i]? = some l ∧ rank ls l i = r := by
  induction ls generalizing r with
  | nil => simp at h
  | cons a ls ih =>
    by_cases ha : a = l
    · subst ha
      cases r with
      | zero => exact ⟨0, rfl, rfl⟩
      | succ r =>
        rw [List.count_cons_self] at h
        obtain ⟨i, hi, hr⟩ := ih (Nat.lt_of_succ_lt_succ h)
        refine ⟨i + 1, hi, ?_⟩
        rw [rank, List.take_succ_cons, List.count_cons_self]
        exact congrArg (· + 1) hr
    · rw [List.count_cons_of_ne ha] at h
      obtain ⟨i, hi, hr⟩ := ih h
      refine ⟨i + 1, hi, ?_⟩
      rw [rank, List.take_succ_cons, List.count_cons_of_ne ha]
      exact hr

/-- What is used at depth `k` is used below it twice over at every level. -/
theorem used_mul_le (ls : List Nat) (k d : Nat) : used ls k * 2 ^ d ≤ used ls (k + d) := by
  induction d with
  | zero => simp
  | succ d ih =>
    calc used ls k * 2 ^ (d + 1) = 2 * (used ls k * 2 ^ d) := by ring
      _ ≤ 2 * used ls (k + d) := Nat.mul_le_mul_left 2 ih
      _ ≤ used ls (k + d + 1) := Nat.le_add_right _ _

theorem Fits.used_le {n : Nat} (h : Fits n ls) {k : Nat} (hk : k ≤ n) : used ls k ≤ 2 ^ k := by
  obtain ⟨d, rfl⟩ := Nat.exists_eq_add_of_le hk
  have hle := (used_mul_le ls k d).trans h
  rw [Nat.pow_add] at hle
  exact Nat.le_of_mul_le_mul_right hle (Nat.two_pow_pos d)

section Words
variable {n : Nat} (h : HasWord ls i l)
include h

theorem word_lt_used : first ls l + rank ls l i < used ls l := by
  rw [used_eq h.pos]
  exact Nat.add_lt_add_left (rank_lt_count h.length) _

theorem word_lt (hfit : Fits n ls) (hl : l ≤ n) : first ls l + rank ls l i < 2 ^ l :=
  (word_lt_used h).trans_le (hfit.used_le hl)

theorem highNat_codeword (hfit : Fits n ls) (hl : l ≤ n) :
    highNat (codeword ls i) = first ls l + rank ls l i := by
  rw [codeword_eq h, highNat_highBits (word_lt h hfit hl)]

/-- No proper beginning of a word lies in the used part of its own depth. -/
theorem used_le_of_prefix (hfit : Fits n ls) (hl : l ≤ n) {ws rest : List Bool}
    (hw : codeword ls i = ws ++ rest) (hne : rest ≠ []) : used ls ws.length ≤ highNat ws := by
  have hlen := congrArg List.length hw
  rw [length_codeword h, List.length_append] at hlen
  have hpos := List.length_pos_iff.2 hne
  obtain ⟨m, hm⟩ : ∃ m, l = m + 1 := ⟨l - 1, by omega⟩
  rw [codeword_eq h] at hw
  rw [highNat_of_append (word_lt h hfit hl) hw, Nat.le_div_iff_mul_le (Nat.two_pow_pos _)]
  have hfirst : first ls l = 2 * used ls m := by
    rw [hm]
    rfl
  obtain ⟨d, hd⟩ : ∃ d, rest.length = d + 1 := ⟨rest.length - 1, by omega⟩
  have hdepth : ws.length + d = m := by omega
  have hused := used_mul_le ls ws.length d
  rw [hdepth] at hused
  calc used ls ws.length * 2 ^ rest.length = 2 * (used ls ws.length * 2 ^ d) := by
        rw [hd]
        ring
    _ ≤ 2 * used ls m := Nat.mul_le_mul_left 2 hused
    _ ≤ first ls l + rank ls l i := by
      rw [hfirst]
      exact Nat.le_add_right _ _

end Words

theorem exists_codeword {ws : List Bool} (hlo : first ls ws.length ≤ highNat ws)
    (hhi : highNat ws < first ls ws.length + ls.count ws.length) :
    ∃ i, ls[i]? = some ws.length ∧ rank ls ws.length i = highNat ws - first ls ws.length ∧
      codeword ls i = ws := by
  obtain ⟨i, hi, hr⟩ := exists_rank
    (show highNat ws - first ls ws.length < ls.count ws.length by omega)
  refine ⟨i, hi, hr, ?_⟩
  rw [codeword, hi]
  simp only [hr, Nat.add_sub_cancel' hlo, highBits_highNat]

/-- The place of symbol `i`, of length `l`, when the symbols are sorted by length. -/
def place (ls : List Nat) (l i : Nat) : Nat := offset ls l + rank ls l i

theorem offset_succ {l : Nat} (h : 0 < l) : offset ls (l + 1) = offset ls l + ls.count l := by
  cases l with
  | zero => omega
  | succ l => rfl

theorem offset_cons (a : Nat) (ls : List Nat) (l : Nat) :
    offset (a :: ls) l = offset ls l + if 0 < a ∧ a < l then 1 else 0 := by
  induction l with
  | zero => simp [offset]
  | succ l ih =>
    cases l with
    | zero =>
      have hcond : ¬ (0 < a ∧ a < 0 + 1) := by omega
      rw [if_neg hcond]
      rfl
    | succ l =>
      rw [offset_succ (by omega : 0 < l + 1), offset_succ (by omega : 0 < l + 1), ih,
        List.count_cons]
      by_cases heq : a = l + 1
      · subst heq
        simp
        omega
      · have hcond : (0 < a ∧ a < l + 1 + 1) ↔ 0 < a ∧ a < l + 1 := by omega
        simp only [hcond, heq, beq_iff_eq, if_false]
        omega

theorem offset_le_length (ls : List Nat) (l : Nat) : offset ls l ≤ ls.length := by
  induction ls with
  | nil =>
    have hzero : ∀ l, offset [] l = 0 := by
      intro l
      induction l with
      | zero => rfl
      | succ l ih => cases l <;> simp_all [offset]
    rw [hzero]
    exact Nat.le_refl 0
  | cons a ls ih =>
    rw [offset_cons, List.length_cons]
    split <;> omega

theorem offset_mono (ls : List Nat) {k l : Nat} (hk : 0 < k) (h : k < l) :
    offset ls k + ls.count k ≤ offset ls l := by
  induction l with
  | zero => omega
  | succ l ih =>
    rw [offset_succ (by omega)]
    by_cases heq : k = l
    · rw [heq]
    · exact (ih (by omega)).trans (Nat.le_add_right _ _)

theorem place_lt (h : HasWord ls i l) : place ls l i < offset ls l + ls.count l :=
  Nat.add_lt_add_left (rank_lt_count h.length) _

theorem place_lt_length (h : HasWord ls i l) : place ls l i < ls.length := by
  have hlt := place_lt h
  rw [← offset_succ h.pos] at hlt
  exact hlt.trans_le (offset_le_length ls (l + 1))

theorem rank_lt_rank {j : Nat} (hi : ls[i]? = some l) (hlt : i < j) :
    rank ls l i < rank ls l j := by
  have hsplit : ls.take (i + 1) = ls.take i ++ [l] := by
    rw [List.take_add_one, hi]
    rfl
  have hle : (ls.take (i + 1)).count l ≤ (ls.take j).count l :=
    (List.take_prefix_take_left hlt).sublist.count_le l
  rw [hsplit, List.count_append, List.count_singleton_self] at hle
  exact hle

theorem place_ne {j m : Nat} (hi : HasWord ls i l) (hj : HasWord ls j m) (hne : i ≠ j) :
    place ls l i ≠ place ls m j := by
  have hplace := place_lt hi
  have hplace' := place_lt hj
  rcases Nat.lt_trichotomy l m with hlt | rfl | hlt
  · have := offset_mono ls hi.pos hlt
    unfold place at *
    omega
  · unfold place
    rcases Nat.lt_or_gt_of_ne hne with hlt | hlt
    · have := rank_lt_rank hi.length hlt
      omega
    · have := rank_lt_rank hj.length hlt
      omega
  · have := offset_mono ls hj.pos hlt
    unfold place at *
    omega

/-! ### Kraft's inequality -/

/-- The sum of Kraft's inequality for the words up to length `n`, over the common denominator
`2 ^ n`. -/
def kraftSum (n : Nat) (ls : List Nat) : Nat :=
  (ls.map fun l => if l = 0 ∨ n < l then 0 else 2 ^ (n - l)).sum

theorem used_nil (n : Nat) : used [] n = 0 := by
  induction n with
  | zero => rfl
  | succ n ih => simp [used, ih]

theorem used_cons (a : Nat) (ls : List Nat) (n : Nat) :
    used (a :: ls) n = (if a = 0 ∨ n < a then 0 else 2 ^ (n - a)) + used ls n := by
  induction n with
  | zero =>
    have hcond : a = 0 ∨ 0 < a := by omega
    rw [if_pos hcond]
    rfl
  | succ n ih =>
    rw [used, used, ih, List.count_cons]
    by_cases h0 : a = 0
    · subst h0
      simp
    · by_cases hlt : n < a
      · by_cases heq : a = n + 1
        · subst heq
          simp only [Nat.lt_succ_self, h0, or_true, or_false, lt_self_iff_false, if_true, if_false,
            beq_self_eq_true, Nat.sub_self]
          omega
        · have hlt' : n + 1 < a := by omega
          simp [h0, hlt, hlt', heq]
      · have hne : a ≠ n + 1 := by omega
        have hlt' : ¬ n + 1 < a := by omega
        have hpow : 2 ^ (n + 1 - a) = 2 * 2 ^ (n - a) := by
          rw [Nat.succ_sub (by omega), Nat.pow_succ']
        simp only [h0, hlt, hlt', hne, or_self, if_false, beq_iff_eq, hpow]
        ring

theorem used_eq_kraftSum (ls : List Nat) (n : Nat) : used ls n = kraftSum n ls := by
  induction ls with
  | nil => exact used_nil n
  | cons a ls ih => rw [used_cons, ih, kraftSum, kraftSum, List.map_cons, List.sum_cons]

theorem fits_iff {n : Nat} : Fits n ls ↔ kraftSum n ls ≤ 2 ^ n := by
  rw [Fits, used_eq_kraftSum]

end MoshTcp.PrefixCodes
