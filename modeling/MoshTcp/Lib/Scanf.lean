import MoshTcp.Lib.Numerals
import MoshTcp.Lib.Words
import Mathlib.Data.List.DropRight

/-! `fgets` and `sscanf` of the C library, as far as lines with a number and a word need
them. What `%d` stores for a number outside `int` is not defined and left to a parameter. -/

set_option autoImplicit false

namespace MoshTcp.Scanf
open Numerals Words

/-- `isspace` in the C locale. -/
def isSpace (b : UInt8) : Bool := b == 0x20 || (0x09 ≤ b && b ≤ 0x0D)

def isNewline (b : UInt8) : Bool := b == 0x0A

/-- What calls of `fgets` with a buffer of `size` bytes return, up to the end of the stream. -/
def fgetsAll (size : Nat) (stream : List UInt8) : List (List UInt8) :=
  chunks isNewline (size - 1) stream

/-- The buffer as a C string. -/
def cString (buffer : List UInt8) : List UInt8 := buffer.takeWhile (· != 0)

inductive Directive where
  | space
  | literal (b : UInt8)
  | int
  | word (width : Nat)
  deriving DecidableEq, Repr

inductive Field where
  | int (n : Int)
  | word (bs : List UInt8)
  deriving DecidableEq, Repr

def readSign : List UInt8 → Bool × List UInt8
  | 0x2D :: rest => (true, rest)
  | 0x2B :: rest => (false, rest)
  | input => (false, input)

/-- An optional sign and at least one digit. -/
def scanInt (input : List UInt8) : Option (Int × List UInt8) :=
  let (negative, body) := readSign input
  if (body.takeWhile isDigit).isEmpty then none
  else
    let value : Int := digitsValue (body.takeWhile isDigit)
    some (if negative then -value else value, body.dropWhile isDigit)

/-- The converted fields, up to the first directive that fails. -/
def sscanf (wrap : Int → Int) : List Directive → List UInt8 → List Field
  | [], _ => []
  | .space :: fmt, input => sscanf wrap fmt (input.dropWhile isSpace)
  | .literal b :: fmt, input =>
    match input with
    | [] => []
    | c :: rest => if c = b then sscanf wrap fmt rest else []
  | .int :: fmt, input =>
    match scanInt (input.dropWhile isSpace) with
    | some (n, rest) => .int (wrap n) :: sscanf wrap fmt rest
    | none => []
  | .word width :: fmt, input =>
    let word := ((input.dropWhile isSpace).take width).takeWhile (!isSpace ·)
    if word.isEmpty then []
    else .word word :: sscanf wrap fmt ((input.dropWhile isSpace).drop word.length)

theorem fgetsAll_eq_records {size : Nat} {stream : List UInt8}
    (h : ∀ record ∈ records isNewline stream, record.length < size) :
    fgetsAll size stream = records isNewline stream :=
  chunks_eq_records fun record hr => Nat.le_sub_one_of_lt (h record hr)

theorem cString_of_nul_free {bs : List UInt8} (h : 0 ∉ bs) : cString bs = bs := by
  rw [cString, List.takeWhile_eq_self_iff]
  intro b hb
  rw [bne_iff_ne]
  rintro rfl
  exact h hb

theorem isDigit_of_isSpace {b : UInt8} (h : isSpace b = true) : isDigit b = false := by
  rw [← Bool.not_eq_true, isDigit_iff]
  simp only [isSpace, Bool.or_eq_true, beq_iff_eq, Bool.and_eq_true, decide_eq_true_eq,
    UInt8.le_iff_toNat_le] at h
  obtain rfl | h := h
  · decide
  · have h13 : (0x0D : UInt8).toNat = 13 := rfl
    omega

theorem dropWhile_blank_word {pre word : List UInt8} (hpre : ∀ b ∈ pre, isSpace b = true)
    (hne : word ≠ []) (hword : ∀ b ∈ word, isSpace b = false) (rest : List UInt8) :
    (pre ++ (word ++ rest)).dropWhile isSpace = word ++ rest := by
  rw [List.dropWhile_append_of_pos hpre]
  obtain ⟨b, word, rfl⟩ := List.exists_cons_of_ne_nil hne
  exact List.dropWhile_cons_of_neg (by simp [hword b (by simp)])

theorem takeWhile_word {word rest : List UInt8} {p : UInt8 → Bool}
    (hword : ∀ b ∈ word, p b = true) (hrest : ∀ b ∈ rest.head?, p b = false) :
    (word ++ rest).takeWhile p = word ∧ (word ++ rest).dropWhile p = rest := by
  rw [List.takeWhile_append_of_pos hword, List.dropWhile_append_of_pos hword]
  cases rest with
  | nil => simp
  | cons b rest => simp [hrest b rfl]

theorem readSign_numeral {t : List UInt8} (hne : stripPlus t ≠ [])
    (hall : ∀ b ∈ stripPlus t, isDigit b = true) (rest : List UInt8) :
    readSign (t ++ rest) = (false, stripPlus t ++ rest) := by
  unfold stripPlus at hne hall ⊢
  split at hne
  · rfl
  · rename_i hplus
    obtain ⟨d, ds, rfl⟩ := List.exists_cons_of_ne_nil hne
    have hd := (isDigit_iff.1 (hall d (by simp))).1
    unfold readSign
    split
    · rename_i heq
      obtain rfl : d = 0x2D := (List.cons.inj heq).1
      exact absurd hd (by decide)
    · rename_i heq
      obtain rfl : d = 0x2B := (List.cons.inj heq).1
      exact absurd hd (by decide)
    · rfl

theorem scanInt_numeral {bound p : Nat} {t rest : List UInt8} (h : parseUnsigned bound t = some p)
    (hrest : ∀ b ∈ rest.head?, isDigit b = false) :
    scanInt (t ++ rest) = some ((p : Int), rest) := by
  obtain ⟨⟨hne, hall⟩, rfl, -⟩ := parseUnsigned_eq_some.1 h
  obtain ⟨htake, hdrop⟩ := takeWhile_word hall hrest
  simp [scanInt, readSign_numeral hne hall, htake, hdrop, hne]

theorem scanInt_nil : scanInt [] = none := rfl

/-! ### Formats -/

section Sscanf
variable (wrap : Int → Int)

theorem sscanf_literals (bs : List UInt8) (fmt : List Directive) (rest : List UInt8) :
    sscanf wrap (bs.map .literal ++ fmt) (bs ++ rest) = sscanf wrap fmt rest := by
  induction bs with
  | nil => rfl
  | cons b bs ih => simpa [sscanf] using ih

theorem sscanf_space (fmt : List Directive) {pre word : List UInt8}
    (hpre : ∀ b ∈ pre, isSpace b = true) (hne : word ≠ [])
    (hword : ∀ b ∈ word, isSpace b = false) (rest : List UInt8) :
    sscanf wrap (.space :: fmt) (pre ++ (word ++ rest)) = sscanf wrap fmt (word ++ rest) := by
  rw [sscanf, dropWhile_blank_word hpre hne hword]

theorem sscanf_space_int (fmt : List Directive) {pre : List UInt8}
    (hpre : ∀ b ∈ pre, isSpace b = true) (input : List UInt8) :
    sscanf wrap (.space :: .int :: fmt) (pre ++ input) = sscanf wrap (.int :: fmt) input := by
  rw [sscanf, sscanf, sscanf, List.dropWhile_append_of_pos hpre, List.dropWhile_idempotent]

theorem sscanf_word {width : Nat} {k rest : List UInt8} (hne : k ≠ [])
    (hk : ∀ b ∈ k, isSpace b = false) (hrest : ∀ b ∈ rest.head?, isSpace b = true)
    (hlen : k.length ≤ width) : sscanf wrap [.word width] (k ++ rest) = [.word k] := by
  have hskip : ([] ++ (k ++ rest)).dropWhile isSpace = k ++ rest :=
    dropWhile_blank_word (by simp) hne hk rest
  rw [List.nil_append] at hskip
  have hend : ∀ b ∈ (rest.take (width - k.length)).head?, (!isSpace b) = false := by
    intro b hb
    rw [List.head?_take] at hb
    split at hb
    · cases hb
    · rw [hrest b hb, Bool.not_true]
  have hword : ((k ++ rest).take width).takeWhile (!isSpace ·) = k := by
    rw [List.take_append, List.take_of_length_le hlen]
    exact (takeWhile_word (fun b hb => by simp [hk b hb]) hend).1
  have hne' : ¬ k.isEmpty = true := by simpa using hne
  simp only [sscanf, hskip, hword, if_neg hne']

/-- A number and a word, as `%d %<width>s` reads the first two words of a text. -/
theorem sscanf_int_word {bound p width : Nat} {input t k : List UInt8}
    {ws : List (List UInt8)} (hwords : words isSpace input = t :: k :: ws)
    (hp : parseUnsigned bound t = some p) (hk : k.length ≤ width) :
    sscanf wrap [.int, .space, .word width] input = [.int (wrap p), .word k] := by
  obtain ⟨pre, rest, rfl, hpre, hne, ht, hrest, hws⟩ := words_eq_cons hwords
  obtain ⟨gap, rest', rfl, hgap, hkne, hkall, hrest', -⟩ := words_eq_cons hws
  rw [sscanf, dropWhile_blank_word hpre hne ht,
    scanInt_numeral hp fun b hb => isDigit_of_isSpace (hrest b hb)]
  change _ :: sscanf wrap [.space, .word width] (gap ++ (k ++ rest')) = _
  rw [sscanf_space wrap _ hgap hkne hkall, sscanf_word wrap hkne hkall hrest' hk]

theorem sscanf_int_blank {input : List UInt8} (h : words isSpace input = [])
    (fmt : List Directive) : sscanf wrap (.int :: fmt) input = [] := by
  have hdrop : input.dropWhile isSpace = [] := List.dropWhile_eq_nil_iff.2 (words_eq_nil_iff.1 h)
  rw [sscanf, hdrop, scanInt_nil]

theorem converted_word {fmt : List Directive} {input word : List UInt8}
    (h : .word word ∈ sscanf wrap fmt input) :
    word ≠ [] ∧ ∃ width, .word width ∈ fmt ∧ word.length ≤ width := by
  induction fmt generalizing input with
  | nil => simp [sscanf] at h
  | cons d fmt ih =>
    have later : ∀ {input}, .word word ∈ sscanf wrap fmt input →
        word ≠ [] ∧ ∃ width, .word width ∈ d :: fmt ∧ word.length ≤ width := by
      intro input h
      obtain ⟨hne, width, hw, hle⟩ := ih h
      exact ⟨hne, width, by simp [hw], hle⟩
    cases d with
    | space => exact later h
    | literal b =>
      cases input with
      | nil => simp [sscanf] at h
      | cons c rest =>
        rw [sscanf] at h
        split at h
        · exact later h
        · simp at h
    | int =>
      rw [sscanf] at h
      split at h
      · rw [List.mem_cons] at h
        exact later (h.resolve_left (by simp))
      · simp at h
    | word width =>
      simp only [sscanf] at h
      split at h
      · simp at h
      · rename_i hne
        rw [List.mem_cons] at h
        cases h with
        | inl h =>
          obtain rfl := Field.word.inj h
          refine ⟨by simpa using hne, width, by simp, ?_⟩
          exact (List.takeWhile_sublist _).length_le.trans (List.length_take_le _ _)
        | inr h => exact later h

end Sscanf

end MoshTcp.Scanf
