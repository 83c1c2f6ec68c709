import Mathlib.Data.List.Basic

/-! Lossy UTF-8 decoding over byte lists: valid characters are kept, and each maximal
prefix of a character that cannot be completed becomes one U+FFFD. -/

set_option autoImplicit false

namespace MoshTcp.Utf8Lossy

def decodeChar (bs : List UInt8) : Option Char := bs.toByteArray.utf8DecodeChar? 0

def isContinuation (b : UInt8) : Bool := 0x80 ≤ b && b ≤ 0xBF

/-- The second bytes that a lead byte of three or four byte characters allows, which
excludes overlong forms, surrogates and values past U+10FFFF. -/
def secondAllowed (lead b : UInt8) : Bool :=
  if lead = 0xE0 then 0xA0 ≤ b && b ≤ 0xBF
  else if lead = 0xED then 0x80 ≤ b && b ≤ 0x9F
  else if lead = 0xF0 then 0x90 ≤ b && b ≤ 0xBF
  else if lead = 0xF4 then 0x80 ≤ b && b ≤ 0x8F
  else isContinuation b

/-- How many bytes one replacement character stands for, at a position where no
character can be decoded. -/
def invalidLength : List UInt8 → Nat
  | lead :: second :: third :: _ =>
    if 0xE0 ≤ lead && lead ≤ 0xEF && secondAllowed lead second then 2
    else if 0xF0 ≤ lead && lead ≤ 0xF4 && secondAllowed lead second then
      if isContinuation third then 3 else 2
    else 1
  | [lead, second] =>
    if 0xE0 ≤ lead && lead ≤ 0xF4 && secondAllowed lead second then 2 else 1
  | _ => 1

theorem invalidLength_pos (bs : List UInt8) : 0 < invalidLength bs := by
  unfold invalidLength
  split <;> (repeat' split) <;> decide

def fromUtf8Lossy : List UInt8 → List Char
  | [] => []
  | b :: bs =>
    match decodeChar (b :: bs) with
    | some c => c :: fromUtf8Lossy ((b :: bs).drop c.utf8Size)
    | none => Char.ofNat 0xFFFD :: fromUtf8Lossy ((b :: bs).drop (invalidLength (b :: bs)))
termination_by bs => bs.length
decreasing_by
  · have := c.utf8Size_pos
    simp only [List.length_drop, List.length_cons]; omega
  · have := invalidLength_pos (b :: bs)
    simp only [List.length_drop, List.length_cons]; omega

def encode (cs : List Char) : List UInt8 := cs.flatMap String.utf8EncodeChar

theorem encode_cons (c : Char) (cs : List Char) :
    encode (c :: cs) = String.utf8EncodeChar c ++ encode cs := by
  simp [encode]

theorem decodeChar_encode (c : Char) (tail : List UInt8) :
    decodeChar (String.utf8EncodeChar c ++ tail) = some c := by
  rw [decodeChar, List.toByteArray_append]
  exact ByteArray.utf8DecodeChar?_utf8EncodeChar_append

theorem fromUtf8Lossy_encode_append (cs : List Char) (tail : List UInt8) :
    fromUtf8Lossy (encode cs ++ tail) = cs ++ fromUtf8Lossy tail := by
  induction cs with
  | nil => rfl
  | cons c cs ih =>
    have hd := decodeChar_encode c (encode cs ++ tail)
    have hl := String.length_utf8EncodeChar c
    have hp := c.utf8Size_pos
    rw [encode_cons, List.append_assoc]
    cases hc : String.utf8EncodeChar c with
    | nil => simp [hc] at hl; omega
    | cons b bs =>
      rw [hc, List.cons_append] at hd
      rw [List.cons_append, fromUtf8Lossy, hd]
      have hdrop : (b :: (bs ++ (encode cs ++ tail))).drop c.utf8Size = encode cs ++ tail := by
        rw [← List.cons_append, ← hc, ← hl, List.drop_left]
      simp only [hdrop, ih, List.cons_append]

theorem fromUtf8Lossy_encode (cs : List Char) : fromUtf8Lossy (encode cs) = cs := by
  simpa [fromUtf8Lossy] using fromUtf8Lossy_encode_append cs []

theorem fromUtf8Lossy_length_le (bs : List UInt8) : (fromUtf8Lossy bs).length ≤ bs.length := by
  fun_induction fromUtf8Lossy bs with
  | case1 => exact Nat.le_refl 0
  | case2 b bs c hc ih =>
    have hpos := c.utf8Size_pos
    simp only [List.length_drop, List.length_cons] at ih ⊢
    omega
  | case3 b bs hc ih =>
    have hpos := invalidLength_pos (b :: bs)
    simp only [List.length_drop, List.length_cons] at ih ⊢
    omega

theorem encode_append (cs ds : List Char) : encode (cs ++ ds) = encode cs ++ encode ds := by
  simp [encode]

theorem encode_length_le (cs : List Char) : (encode cs).length ≤ 4 * cs.length := by
  induction cs with
  | nil => exact Nat.le_refl 0
  | cons c cs ih =>
    have hsize := c.utf8Size_le_four
    rw [encode_cons, List.length_append, String.length_utf8EncodeChar, List.length_cons]
    omega

/-- A prefix of encoded text is whole characters and less than one more. -/
theorem take_encode (cs : List Char) (m : Nat) :
    ∃ (ds : List Char) (part : List UInt8), (encode cs).take m = encode ds ++ part ∧
      part.length ≤ 3 := by
  induction cs generalizing m with
  | nil => exact ⟨[], [], by simp [encode], Nat.zero_le 3⟩
  | cons c cs ih =>
    have hsize := c.utf8Size_le_four
    have hlen := String.length_utf8EncodeChar c
    by_cases hm : m < c.utf8Size
    · refine ⟨[], (String.utf8EncodeChar c).take m, ?_, ?_⟩
      · rw [encode_cons, List.take_append_of_le_length (by omega)]
        rfl
      · rw [List.length_take]
        omega
    · obtain ⟨ds, part, htake, hpart⟩ := ih (m - c.utf8Size)
      refine ⟨c :: ds, part, ?_, hpart⟩
      rw [encode_cons, encode_cons, List.take_append, List.take_of_length_le (by omega), hlen,
        htake, List.append_assoc]

/-- Text that loses more than twelve bytes is not read back. -/
theorem fromUtf8Lossy_take_ne {cs : List Char} {m : Nat} (h : m + 12 < (encode cs).length) :
    fromUtf8Lossy ((encode cs).take m) ≠ cs := by
  intro heq
  obtain ⟨ds, part, htake, hpart⟩ := take_encode cs m
  rw [htake, fromUtf8Lossy_encode_append] at heq
  have hlast := encode_length_le (fromUtf8Lossy part)
  have hchars := fromUtf8Lossy_length_le part
  have hfirst : (encode ds).length ≤ m := by
    have := congrArg List.length htake
    rw [List.length_take, List.length_append] at this
    omega
  have hall := congrArg (fun l => (encode l).length) heq
  simp only [encode_append, List.length_append] at hall
  omega

theorem isContinuation_iff {b : UInt8} :
    isContinuation b = true ↔ 0x80 ≤ b.toNat ∧ b.toNat ≤ 0xBF := by
  simp [isContinuation, UInt8.le_iff_toNat_le]

theorem isContinuation_ofNat (n : Nat) :
    isContinuation (UInt8.ofNat (n % 0x40 + 0x80)) = true := by
  rw [isContinuation_iff, UInt8.toNat_ofNat']
  omega

/-- The bytes of a character: one ASCII byte, or a lead byte and up to three continuation
bytes. -/
theorem utf8EncodeChar_shape (c : Char) :
    (∃ b : UInt8, b.toNat < 0x80 ∧ String.utf8EncodeChar c = [b]) ∨
    ∃ (lead : UInt8) (conts : List UInt8), 0xC0 ≤ lead.toNat ∧ conts ≠ [] ∧ conts.length ≤ 3 ∧
      (∀ b ∈ conts, isContinuation b = true) ∧ String.utf8EncodeChar c = lead :: conts := by
  fun_cases String.utf8EncodeChar c with
  | case1 v h =>
    refine .inl ⟨_, ?_, rfl⟩
    rw [UInt8.toNat_ofNat']
    omega
  | case2 v h1 h2 =>
    refine .inr ⟨_, _, ?_, by simp, by simp, by simp [isContinuation_ofNat, -UInt8.ofNat_add], rfl⟩
    rw [UInt8.toNat_ofNat']
    omega
  | case3 v h1 h2 h3 =>
    refine .inr ⟨_, _, ?_, by simp, by simp, by simp [isContinuation_ofNat, -UInt8.ofNat_add], rfl⟩
    rw [UInt8.toNat_ofNat']
    omega
  | case4 v h1 h2 h3 =>
    refine .inr ⟨_, _, ?_, by simp, by simp, by simp [isContinuation_ofNat, -UInt8.ofNat_add], rfl⟩
    rw [UInt8.toNat_ofNat']
    omega

theorem utf8EncodeChar_ascii {c : Char} (h : c.toNat < 0x80) :
    String.utf8EncodeChar c = [UInt8.ofNat c.toNat] := by
  fun_cases String.utf8EncodeChar c with
  | case1 v => rfl
  | case2 v h1 => exact absurd (Nat.lt_succ_iff.1 h) h1
  | case3 v h1 => exact absurd (Nat.lt_succ_iff.1 h) h1
  | case4 v h1 => exact absurd (Nat.lt_succ_iff.1 h) h1

theorem encode_ascii {cs : List Char} (h : ∀ c ∈ cs, c.toNat < 0x80) :
    encode cs = cs.map fun c => UInt8.ofNat c.toNat := by
  induction cs with
  | nil => rfl
  | cons c cs ih =>
    rw [encode_cons, utf8EncodeChar_ascii (h c (by simp)), ih fun d hd => h d (by simp [hd])]
    rfl

/-- ASCII bytes as the characters they encode. -/
def asciiChars (bs : List UInt8) : List Char := bs.map fun b => Char.ofNat b.toNat

theorem toNat_ofNat_ascii {n : Nat} (h : n < 0x80) : (Char.ofNat n).toNat = n := by
  have hvalid : n.isValidChar := .inl (by omega)
  rw [Char.ofNat, dif_pos hvalid]
  rfl

theorem encode_asciiChars {bs : List UInt8} (h : ∀ b ∈ bs, b.toNat < 0x80) :
    encode (asciiChars bs) = bs := by
  have hchar : ∀ c ∈ asciiChars bs, c.toNat < 0x80 := by
    intro c hc
    obtain ⟨b, hb, rfl⟩ := List.mem_map.1 hc
    rw [toNat_ofNat_ascii (h b hb)]
    exact h b hb
  rw [encode_ascii hchar, asciiChars, List.map_map]
  refine (List.map_congr_left fun b hb => ?_).trans (List.map_id bs)
  rw [Function.comp_apply, toNat_ofNat_ascii (h b hb), UInt8.ofNat_toNat, id_eq]

theorem encode_head {cs : List Char} {b : UInt8} (h : (encode cs).head? = some b) :
    isContinuation b = false := by
  cases cs with
  | nil => simp [encode] at h
  | cons c cs =>
    rw [encode_cons] at h
    obtain ⟨a, ha, hc⟩ | ⟨lead, conts, hlead, -, -, -, hc⟩ := utf8EncodeChar_shape c
    · obtain rfl : a = b := by simpa [hc] using h
      rw [← Bool.not_eq_true, isContinuation_iff]
      omega
    · obtain rfl : lead = b := by simpa [hc] using h
      rw [← Bool.not_eq_true, isContinuation_iff]
      omega

theorem suffix_conts {conts tail t : List UInt8} {b : UInt8}
    (hconts : ∀ b ∈ conts, isContinuation b = true) (h : b :: t <:+ conts ++ tail) :
    isContinuation b = true ∨ b :: t <:+ tail := by
  induction conts with
  | nil => exact .inr h
  | cons c conts ih =>
    rw [List.cons_append, List.suffix_cons_iff] at h
    cases h with
    | inl h =>
      rw [List.cons.injEq] at h
      rw [h.1]
      exact .inl (hconts c List.mem_cons_self)
    | inr h => exact ih (fun b hb => hconts b (List.mem_cons_of_mem c hb)) h

/-- In encoded text a continuation byte follows a lead byte and never an ASCII byte. -/
theorem encode_adjacent {cs : List Char} {b : UInt8} {t : List UInt8} (h : b :: t <:+ encode cs) :
    (b.toNat < 0x80 → ∀ c, t.head? = some c → isContinuation c = false) ∧
      (0xC0 ≤ b.toNat → ∃ c, t.head? = some c ∧ isContinuation c = true) := by
  induction cs with
  | nil => simp [encode] at h
  | cons c cs ih =>
    rw [encode_cons] at h
    obtain ⟨a, ha, hc⟩ | ⟨lead, conts, hlead, hne, -, hconts, hc⟩ := utf8EncodeChar_shape c
    · rw [hc, List.singleton_append, List.suffix_cons_iff] at h
      cases h with
      | inl h =>
        obtain ⟨rfl, rfl⟩ := List.cons.inj h
        exact ⟨fun _ c hc => encode_head hc, fun hlead => by omega⟩
      | inr h => exact ih h
    · rw [hc, List.cons_append, List.suffix_cons_iff] at h
      cases h with
      | inl h =>
        obtain ⟨rfl, rfl⟩ := List.cons.inj h
        refine ⟨fun hascii => by omega, fun _ => ?_⟩
        obtain ⟨d, conts, rfl⟩ := List.exists_cons_of_ne_nil hne
        exact ⟨d, rfl, hconts d List.mem_cons_self⟩
      | inr h =>
        cases suffix_conts hconts h with
        | inl hcont =>
          rw [isContinuation_iff] at hcont
          exact ⟨fun hascii => by omega, fun hlead => by omega⟩
        | inr h => exact ih h

end MoshTcp.Utf8Lossy
