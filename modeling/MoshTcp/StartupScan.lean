import MoshTcp.StartupLine

/-! The scanners on ASCII lines, where words and `sscanf` see the same blanks: what the Rust
scanner reads off a well-formed line is what the other two read off it. The server's own
line is one. -/

set_option autoImplicit false

namespace MoshTcp.StartupLine
open ByteOrder Protocol Utf8Lossy Numerals Words Scanf

theorem stripTerminator_append (record : Bytes) :
    ∃ ending, record = stripTerminator record ++ ending ∧ ∀ b ∈ ending, b = 0x0A ∨ b = 0x0D := by
  unfold stripTerminator
  by_cases hlf : record.getLast? = some 0x0A
  · have hrecord := List.dropLast_append_getLast? _ hlf
    rw [if_pos hlf]
    by_cases hcr : record.dropLast.getLast? = some 0x0D
    · have hline := List.dropLast_append_getLast? _ hcr
      refine ⟨[0x0D, 0x0A], ?_, by simp⟩
      rw [if_pos hcr, ← List.singleton_append, ← List.append_assoc, hline, hrecord]
    · exact ⟨[0x0A], by rw [if_neg hcr, hrecord], by simp⟩
  · exact ⟨[], by rw [if_neg hlf, List.append_nil], by simp⟩

/-- The greeting ends with a blank that is no part of the terminator. -/
theorem stripTerminator_greeting (tail : Bytes) :
    ∃ body ending, stripTerminator (asBytes greeting ++ tail) = asBytes greeting ++ body ∧
      tail = body ++ ending ∧ ∀ b ∈ ending, isSpace b = true := by
  obtain ⟨ending, hrecord, hending⟩ := stripTerminator_append (asBytes greeting ++ tail)
  generalize stripTerminator (asBytes greeting ++ tail) = line at hrecord
  have hspace : ∀ b ∈ ending, isSpace b = true := by
    intro b hb
    rcases hending b hb with rfl | rfl <;> decide
  have hstart : asBytes greeting <+: line := by
    have hboth := List.prefix_or_prefix_of_prefix (List.prefix_append (asBytes greeting) tail)
      (hrecord ▸ List.prefix_append line ending)
    refine hboth.elim id fun hline => ?_
    obtain ⟨mid, hmid⟩ := hline
    rw [← hmid, List.append_assoc, List.append_cancel_left_eq] at hrecord
    cases hlast : mid.getLast? with
    | none =>
      rw [List.getLast?_eq_none_iff] at hlast
      rw [← hmid, hlast, List.append_nil]
    | some b =>
      have hb : b = 0x20 := by
        have hgreeting : (asBytes greeting).getLast? = some 0x20 := by decide
        rw [← hmid, List.getLast?_append, hlast] at hgreeting
        exact Option.some.inj hgreeting
      have hmem : b ∈ ending := hrecord ▸ List.mem_append_left _ (List.mem_of_getLast? hlast)
      rcases hending b hmem with h | h
      · rw [h] at hb
        exact absurd hb (by decide)
      · rw [h] at hb
        exact absurd hb (by decide)
  obtain ⟨body, rfl⟩ := hstart
  rw [List.append_assoc, List.append_cancel_left_eq] at hrecord
  exact ⟨body, ending, rfl, hrecord, hspace⟩

theorem greeting_of_connectWords {record : Bytes}
    (h : connectWords (fromUtf8 (stripTerminator record)) ≠ none) :
    asBytes greeting <+: record := by
  cases hline : fromUtf8 (stripTerminator record) with
  | none => simp [hline, connectWords] at h
  | some line =>
    rw [hline, connectWords] at h
    split at h
    · rename_i hgreeting
      obtain ⟨ending, hrecord, -⟩ := stripTerminator_append record
      unfold fromUtf8 at hline
      split at hline
      · rename_i hvalid
        obtain rfl := Option.some.inj hline
        rw [String.toList_ofList] at hgreeting
        obtain ⟨tail, htail⟩ := hgreeting
        rw [hrecord, ← hvalid, ← htail, encode_append, List.append_assoc]
        exact List.prefix_append _ _
      · cases hline
    · exact absurd rfl h

theorem isWhitespace_ascii {b : UInt8} (h : b.toNat < 0x80) :
    isWhitespace (Char.ofNat b.toNat) = isSpace b := by
  simp only [isWhitespace, toNat_ofNat_ascii h, isSpace]
  rw [Bool.eq_iff_iff]
  simp only [Bool.or_eq_true, Bool.and_eq_true, decide_eq_true_eq, beq_iff_eq,
    UInt8.le_iff_toNat_le, ← UInt8.toNat_inj]
  have h32 : (0x20 : UInt8).toNat = 32 := rfl
  have h9 : (0x09 : UInt8).toNat = 9 := rfl
  have h13 : (0x0D : UInt8).toNat = 13 := rfl
  omega

theorem fromUtf8_ascii {bs : Bytes} (h : ∀ b ∈ bs, b.toNat < 0x80) :
    fromUtf8 bs = some (String.ofList (asciiChars bs)) := by
  have hdecode : fromUtf8Lossy bs = asciiChars bs := by
    conv_lhs => rw [← encode_asciiChars h]
    exact fromUtf8Lossy_encode _
  rw [fromUtf8, hdecode, if_pos (encode_asciiChars h)]

theorem splitWhitespace_ascii {bs : Bytes} (h : ∀ b ∈ bs, b.toNat < 0x80) :
    splitWhitespace (String.ofList (asciiChars bs)) =
      (words isSpace bs).map fun w => String.ofList (asciiChars w) := by
  rw [splitWhitespace, String.toList_ofList, asciiChars,
    words_map fun b hb => isWhitespace_ascii (h b hb), List.map_map]
  rfl

theorem ascii_of_all {bs : Bytes} (h : (bs.all fun b => decide (b.toNat < 0x80)) = true) :
    ∀ b ∈ bs, b.toNat < 0x80 := by
  simpa using h

theorem word_of_all {bs : Bytes} (h : (bs.all fun b => !isSpace b) = true) :
    ∀ b ∈ bs, isSpace b = false := by
  simpa using h

theorem words_greeting (tail : Bytes) :
    words isSpace (asBytes greeting ++ tail) =
      asBytes "MOSH-TCP" :: asBytes "CONNECT" :: words isSpace tail := by
  have hsplit : asBytes greeting ++ tail =
      asBytes "MOSH-TCP" ++ 0x20 :: (asBytes "CONNECT" ++ 0x20 :: tail) := by
    have hgreeting : asBytes greeting =
        asBytes "MOSH-TCP" ++ 0x20 :: (asBytes "CONNECT" ++ [0x20]) := by decide
    simp [hgreeting]
  rw [hsplit, words_word_append (by decide) (word_of_all (by decide)) (by simp [isSpace]),
    words_cons_blank (by decide),
    words_word_append (by decide) (word_of_all (by decide)) (by simp [isSpace]),
    words_cons_blank (by decide)]

/-- What the Rust scanner sees of a line: the words behind the greeting. -/
theorem connectWords_ascii {tail : Bytes} (h : ∀ b ∈ tail, b.toNat < 0x80) :
    connectWords (fromUtf8 (stripTerminator (asBytes greeting ++ tail))) =
      match words isSpace tail with
      | [] => none
      | port :: more => some (String.ofList (asciiChars port),
          more.head?.map fun key => String.ofList (asciiChars key)) := by
  obtain ⟨body, ending, hstrip, rfl, hending⟩ := stripTerminator_greeting tail
  have hascii : ∀ b ∈ asBytes greeting ++ body, b.toNat < 0x80 := by
    intro b hb
    rw [List.mem_append] at hb
    cases hb with
    | inl hb => exact ascii_of_all (by decide) b hb
    | inr hb => exact h b (by simp [hb])
  have hgreeting : greeting.toList <+:
      (String.ofList (asciiChars (asBytes greeting ++ body))).toList := by
    have hchars : asciiChars (asBytes greeting) = greeting.toList := by decide
    rw [String.toList_ofList, asciiChars, List.map_append, ← asciiChars, hchars]
    exact List.prefix_append _ _
  rw [hstrip, fromUtf8_ascii hascii, connectWords, if_pos hgreeting, splitWhitespace_ascii hascii,
    words_greeting, words_append_blank hending]
  cases words isSpace body with
  | nil => rfl
  | cons port more => simp

/-- What `sscanf` sees of a line: the text behind the greeting. -/
theorem carried_greeting (wrap : Int → Int) (tail : Bytes) :
    carried wrap (asBytes greeting ++ tail) =
      portAndKey (sscanf wrap [.int, .space, .word 127] tail) := by
  have hsplit : asBytes greeting ++ tail =
      asBytes "MOSH-TCP" ++ ([0x20] ++ (asBytes "CONNECT" ++ ([0x20] ++ tail))) := by
    have hgreeting : asBytes greeting =
        asBytes "MOSH-TCP" ++ ([0x20] ++ (asBytes "CONNECT" ++ [0x20])) := by decide
    simp [hgreeting]
  have hscan : sscanf wrap connectFormat (asBytes greeting ++ tail) =
      sscanf wrap [.int, .space, .word 127] tail := by
    rw [hsplit, connectFormat, List.append_assoc, sscanf_literals, List.cons_append,
      sscanf_space wrap _ (by simp [isSpace]) (by decide) (word_of_all (by decide)),
      sscanf_literals, sscanf_space_int wrap _ (by simp [isSpace])]
  rw [carried, if_pos (List.prefix_append _ _), hscan]

theorem asBytes_asciiChars {bs : Bytes} (h : ∀ b ∈ bs, b.toNat < 0x80) :
    asBytes (String.ofList (asciiChars bs)) = bs := by
  rw [asBytes, String.toList_ofList, encode_asciiChars h]

theorem parseU16_eq_some {s : String} {q : UInt16} (h : parseU16 s = some q) :
    parseUnsigned (2 ^ 16) (asBytes s) = some q.toNat := by
  rw [parseU16, Option.map_eq_some_iff] at h
  obtain ⟨n, hn, rfl⟩ := h
  have hlt := (parseUnsigned_eq_some.1 hn).2.2
  rw [hn, UInt16.toNat_ofNat_of_lt' hlt]

/-- `%d` stores what fits an `int`. -/
def StoresInt (wrap : Int → Int) : Prop := ∀ n, -2 ^ 31 ≤ n → n < 2 ^ 31 → wrap n = n

section Plain
variable {wrap : Int → Int} {tail : Bytes} (hascii : ∀ b ∈ tail, b.toNat < 0x80)
include hascii

theorem carried_of_connectWords_none
    (h : connectWords (fromUtf8 (stripTerminator (asBytes greeting ++ tail))) = none) :
    carried wrap (asBytes greeting ++ tail) = none := by
  rw [connectWords_ascii hascii] at h
  split at h
  · rename_i hwords
    rw [carried_greeting, sscanf_int_blank wrap hwords, portAndKey]
    simp
  · cases h

theorem carried_of_connectWords (hwrap : StoresInt wrap) {port key : String} {q : UInt16}
    (h : connectWords (fromUtf8 (stripTerminator (asBytes greeting ++ tail))) =
      some (port, some key))
    (hport : parseU16 port = some q) (hkey : (asBytes key).length ≤ 127) :
    carried wrap (asBytes greeting ++ tail) = some ((q.toNat : Int), asBytes key) := by
  rw [connectWords_ascii hascii] at h
  split at h
  · cases h
  · rename_i t more hwords
    obtain ⟨rfl, hmore⟩ := Prod.mk.inj (Option.some.inj h)
    cases more with
    | nil => cases hmore
    | cons k ws =>
      obtain rfl := Option.some.inj hmore
      have hin : ∀ w ∈ words isSpace tail, ∀ b ∈ w, b.toNat < 0x80 := fun w hw b hb =>
        hascii b (mem_of_mem_words hw b hb)
      have ht := asBytes_asciiChars (hin t (by simp [hwords]))
      have hk := asBytes_asciiChars (hin k (by simp [hwords]))
      have hparse := parseU16_eq_some hport
      rw [ht] at hparse
      rw [hk] at hkey ⊢
      have hq : wrap q.toNat = q.toNat := by
        have := q.toNat_lt
        exact hwrap _ (by omega) (by omega)
      rw [carried_greeting, sscanf_int_word wrap hwords hparse hkey, hq, portAndKey]

end Plain

/-- The lines with the greeting are ASCII. -/
def PlainConnects (out : Bytes) : Prop :=
  ∀ record ∈ records isNewline out, asBytes greeting <+: record → ∀ b ∈ record, b.toNat < 0x80

/-- No key is longer than the buffers of the native clients allow. -/
def ShortKeys (out : Bytes) : Prop :=
  ∀ line ∈ bufReadLines out, ∀ port key, connectWords line = some (port, some key) →
    (asBytes key).length ≤ 127

/-- The first line with a third word, if there is one, has a port in its place and a fourth. -/
def FirstWellFormed (out : Bytes) : Prop :=
  ∀ port key, firstConnect out = some (port, key) → parseU16 port ≠ none ∧ key ≠ none

theorem firstConnect_eq (out : Bytes) :
    firstConnect out = (records isNewline out).findSome? fun record =>
      connectWords (fromUtf8 (stripTerminator record)) := by
  rw [firstConnect, bufReadLines, List.findSome?_map]
  rfl

theorem firstWellFormed_of_match {wrap : Int → Int} {out : Bytes} (h : FirstsMatch wrap out) :
    FirstWellFormed out := by
  intro port key hfirst
  rw [FirstsMatch, hfirst] at h
  cases hcarried : firstCarried wrap out with
  | none => simp [hcarried] at h
  | some found =>
    rw [hcarried] at h
    obtain ⟨⟨q, hq, -⟩, k, hk, -⟩ := h
    exact ⟨by simp [hq], by simp [hk]⟩

section PlainConnects
variable {wrap : Int → Int} {out record : Bytes} (hplain : PlainConnects out)
  (hrecord : record ∈ records isNewline out)
include hplain hrecord

theorem carried_eq_none (h : connectWords (fromUtf8 (stripTerminator record)) = none) :
    carried wrap record = none := by
  by_cases hgreeting : asBytes greeting <+: record
  · have hascii := hplain record hrecord hgreeting
    obtain ⟨tail, rfl⟩ := hgreeting
    exact carried_of_connectWords_none (fun b hb => hascii b (by simp [hb])) h
  · rw [carried, if_neg hgreeting]

theorem carried_eq_some (hwrap : StoresInt wrap) {port key : String} {q : UInt16}
    (h : connectWords (fromUtf8 (stripTerminator record)) = some (port, some key))
    (hport : parseU16 port = some q) (hkey : (asBytes key).length ≤ 127) :
    carried wrap record = some ((q.toNat : Int), asBytes key) := by
  have hgreeting : asBytes greeting <+: record := greeting_of_connectWords (by simp [h])
  have hascii := hplain record hrecord hgreeting
  obtain ⟨tail, rfl⟩ := hgreeting
  exact carried_of_connectWords (fun b hb => hascii b (by simp [hb])) hwrap h hport hkey

end PlainConnects

section WellFormed
variable {wrap : Int → Int} {out : Bytes} (hplain : PlainConnects out)
include hplain

theorem firstCarried_of_none (h : firstConnect out = none) : firstCarried wrap out = none := by
  rw [firstConnect_eq, List.findSome?_eq_none_iff] at h
  rw [firstCarried, List.findSome?_eq_none_iff]
  exact fun record hrecord => carried_eq_none hplain hrecord (h record hrecord)

/-- All scanners stop at the same line, since those before it carry nothing for any of them. -/
theorem firstCarried_of_some (hwrap : StoresInt wrap) (hkeys : ShortKeys out)
    {port key : String} {q : UInt16} (h : firstConnect out = some (port, some key))
    (hport : parseU16 port = some q) :
    firstCarried wrap out = some ((q.toNat : Int), asBytes key) := by
  rw [firstConnect_eq, List.findSome?_eq_some_iff] at h
  obtain ⟨before, record, after, hrecords, hthis, hbefore⟩ := h
  have hmem : ∀ r ∈ before ++ [record], r ∈ records isNewline out := by
    intro r hr
    rw [hrecords]
    simp only [List.mem_append, List.mem_cons] at hr ⊢
    tauto
  have hlen : (asBytes key).length ≤ 127 :=
    hkeys _ (List.mem_map.2 ⟨record, hmem record (by simp), rfl⟩) port key hthis
  rw [firstCarried, List.findSome?_eq_some_iff]
  refine ⟨before, record, after, hrecords, ?_, fun r hr => ?_⟩
  · exact carried_eq_some hplain (hmem record (by simp)) hwrap hthis hport hlen
  · exact carried_eq_none hplain (hmem r (by simp [hr])) (hbefore r hr)

theorem firstsMatch_of_wellFormed (hwrap : StoresInt wrap) (hkeys : ShortKeys out)
    (h : FirstWellFormed out) : FirstsMatch wrap out := by
  cases hfirst : firstConnect out with
  | none => simp [FirstsMatch, hfirst, firstCarried_of_none hplain hfirst]
  | some found =>
    obtain ⟨port, key⟩ := found
    obtain ⟨hport, hkey⟩ := h port key hfirst
    obtain ⟨q, hq⟩ := Option.ne_none_iff_exists'.1 hport
    obtain ⟨k, rfl⟩ := Option.ne_none_iff_exists'.1 hkey
    rw [FirstsMatch, hfirst, firstCarried_of_some hplain hwrap hkeys hfirst hq]
    exact ⟨⟨q, hq, rfl⟩, k, rfl, rfl⟩

end WellFormed

/-! ### The printed line -/

/-- A key that is one short word of ASCII characters. -/
structure PlainKey (key : String) : Prop where
  nonempty : asBytes key ≠ []
  short : (asBytes key).length ≤ 127
  plain : ∀ b ∈ asBytes key, b.toNat < 0x80 ∧ isSpace b = false

theorem mem_toDigits_hex {n : Nat} {c : Char} (h : c ∈ Nat.toDigits 16 n) :
    ∃ d < 16, c = Nat.digitChar d := by
  induction n using Nat.strongRecOn with
  | ind n ih =>
    by_cases hn : n < 16
    · rw [Nat.toDigits_of_lt_base hn, List.mem_singleton] at h
      exact ⟨n, hn, h⟩
    · rw [Nat.toDigits_of_base_le (by decide) (Nat.le_of_not_lt hn), List.mem_append,
        List.mem_singleton] at h
      cases h with
      | inl h => exact ih (n / 16) (by omega) h
      | inr h => exact ⟨n % 16, Nat.mod_lt _ (by decide), h⟩

theorem mem_hexDigits {width n : Nat} {c : Char} (h : c ∈ hexDigits width n) :
    ∃ d < 16, c = Nat.digitChar d := by
  rw [hexDigits, List.leftpad, List.mem_append] at h
  cases h with
  | inl h => exact ⟨0, by decide, List.eq_of_mem_replicate h⟩
  | inr h => exact mem_toDigits_hex h

theorem length_hexDigits (width n : Nat) :
    (hexDigits width n).length = max width (Nat.toDigits 16 n).length := by
  rw [hexDigits, List.length_leftpad]

theorem length_toDigits_hex {n k : Nat} (hk : 0 < k) (hn : n < 16 ^ k) :
    (Nat.toDigits 16 n).length ≤ k :=
  (Nat.length_toDigits_le_iff (by decide) hk).2 hn

theorem digitChar_plain : ∀ d < 16, (Nat.digitChar d).toNat < 0x80 ∧
    isSpace (UInt8.ofNat (Nat.digitChar d).toNat) = false := by
  decide

theorem plainKey_of_hex {cs : List Char} (hhex : ∀ c ∈ cs, ∃ d < 16, c = Nat.digitChar d)
    (hne : 0 < cs.length) (hlen : cs.length ≤ 127) : PlainKey (String.ofList cs) := by
  have hascii : ∀ c ∈ cs, c.toNat < 0x80 := by
    intro c hc
    obtain ⟨d, hd, rfl⟩ := hhex c hc
    exact (digitChar_plain d hd).1
  have hbytes : asBytes (String.ofList cs) = cs.map fun c => UInt8.ofNat c.toNat := by
    rw [asBytes, String.toList_ofList, encode_ascii hascii]
  refine ⟨?_, ?_, ?_⟩
  · rwa [hbytes, ← List.length_pos_iff, List.length_map]
  · rwa [hbytes, List.length_map]
  · intro b hb
    rw [hbytes] at hb
    obtain ⟨c, hc, rfl⟩ := List.mem_map.1 hb
    obtain ⟨d, hd, rfl⟩ := hhex c hc
    have hlt := (digitChar_plain d hd).1
    refine ⟨?_, (digitChar_plain d hd).2⟩
    rw [UInt8.toNat_ofNat']
    omega

theorem generateSessionKey_plain (nanos : BitVec 128) (pid : UInt32) :
    PlainKey (generateSessionKey nanos pid) := by
  have hnanos := nanos.isLt
  have hpid := pid.toNat_lt
  have h1 : (Nat.toDigits 16 nanos.toNat).length ≤ 32 :=
    length_toDigits_hex (by decide) (by omega)
  have h2 : (Nat.toDigits 16 pid.toNat).length ≤ 8 :=
    length_toDigits_hex (by decide) (by omega)
  have h3 : (Nat.toDigits 16 (nanos.toNat % 2 ^ 32)).length ≤ 8 :=
    length_toDigits_hex (by decide) (by omega)
  rw [generateSessionKey]
  refine plainKey_of_hex ?_ ?_ ?_
  · intro c hc
    rw [List.mem_append, List.mem_append] at hc
    rcases hc with (hc | hc) | hc <;> exact mem_hexDigits hc
  · rw [List.length_append, List.length_append, length_hexDigits, length_hexDigits,
      length_hexDigits]
    omega
  · rw [List.length_append, List.length_append, length_hexDigits, length_hexDigits,
      length_hexDigits]
    omega

/-- What the server prints behind the greeting. -/
def startupTail (port : UInt16) (key : Bytes) (pid : UInt32) : Bytes :=
  decimalDigits port.toNat ++ 0x20 :: (key ++ 0x20 :: (decimalDigits pid.toNat ++ [0x0A]))

theorem asBytes_append (s t : String) : asBytes (s ++ t) = asBytes s ++ asBytes t := by
  rw [asBytes, String.toList_append, encode_append, asBytes, asBytes]

theorem asBytes_startupLine (port : UInt16) (key : String) (pid : UInt32) :
    asBytes (startupLine port key pid) =
      asBytes greeting ++ startupTail port (asBytes key) pid := by
  have hnumber : ∀ n : Nat, asBytes (toString n) = decimalDigits n := encode_toString
  have hspace : asBytes " " = [0x20] := by decide
  have hnewline : asBytes "\n" = [0x0A] := by decide
  simp only [startupLine, startupTail, asBytes_append, hnumber, hspace, hnewline,
    List.append_assoc, List.cons_append, List.nil_append]

theorem decimalDigits_plain (n : Nat) :
    ∀ b ∈ decimalDigits n, b.toNat < 0x80 ∧ isSpace b = false := by
  intro b hb
  have hdigit := List.all_eq_true.1 (decimalDigits_all n) b hb
  have hrange := isDigit_iff.1 hdigit
  refine ⟨by omega, ?_⟩
  rw [← Bool.not_eq_true]
  intro hspace
  rw [isDigit_of_isSpace hspace] at hdigit
  cases hdigit

section StartupTail
variable {key : String} (hkey : PlainKey key) (port : UInt16) (pid : UInt32)
include hkey

theorem words_startupTail :
    words isSpace (startupTail port (asBytes key) pid) =
      [decimalDigits port.toNat, asBytes key, decimalDigits pid.toNat] := by
  rw [startupTail,
    words_word_append (decimalDigits_ne_nil _) (fun b hb => (decimalDigits_plain _ b hb).2)
      (by simp [isSpace]),
    words_cons_blank (by decide),
    words_word_append hkey.nonempty (fun b hb => (hkey.plain b hb).2) (by simp [isSpace]),
    words_cons_blank (by decide),
    words_word_append (decimalDigits_ne_nil _) (fun b hb => (decimalDigits_plain _ b hb).2)
      (by simp [isSpace]),
    words_of_blank (by simp [isSpace])]

theorem startupTail_ascii : ∀ b ∈ startupTail port (asBytes key) pid, b.toNat < 0x80 := by
  intro b hb
  simp only [startupTail, List.mem_append, List.mem_cons, List.not_mem_nil, or_false] at hb
  rcases hb with hb | rfl | hb | rfl | hb | rfl
  · exact (decimalDigits_plain _ b hb).1
  · decide
  · exact (hkey.plain b hb).1
  · decide
  · exact (decimalDigits_plain _ b hb).1
  · decide

theorem connectWords_startupLine :
    ∃ p, connectWords (fromUtf8 (stripTerminator (asBytes greeting ++
        startupTail port (asBytes key) pid))) = some (p, some key) ∧ parseU16 p = some port := by
  have hdigits := asBytes_asciiChars fun b hb => (decimalDigits_plain port.toNat b hb).1
  have hsame : String.ofList (asciiChars (asBytes key)) = key := by
    rw [← fromUtf8LossyString_asBytes (String.ofList (asciiChars (asBytes key))),
      asBytes_asciiChars fun b hb => (hkey.plain b hb).1, fromUtf8LossyString_asBytes]
  refine ⟨String.ofList (asciiChars (decimalDigits port.toNat)), ?_, ?_⟩
  · rw [connectWords_ascii (startupTail_ascii hkey port pid), words_startupTail hkey]
    simp [hsame]
  · rw [parseU16, hdigits, parseUnsigned_decimalDigits port.toNat_lt, Option.map_some,
      UInt16.ofNat_toNat]

theorem carried_startupLine {wrap : Int → Int} (hwrap : StoresInt wrap) :
    carried wrap (asBytes greeting ++ startupTail port (asBytes key) pid) =
      some ((port.toNat : Int), asBytes key) := by
  obtain ⟨p, hp, hport⟩ := connectWords_startupLine hkey port pid
  exact carried_of_connectWords (startupTail_ascii hkey port pid) hwrap hp hport hkey.short

theorem records_startupLine (rest : Bytes) :
    records isNewline (asBytes greeting ++ startupTail port (asBytes key) pid ++ rest) =
      (asBytes greeting ++ startupTail port (asBytes key) pid) :: records isNewline rest := by
  have hplain : ∀ b : UInt8, isSpace b = false → isNewline b = false := by
    intro b hb
    rw [isNewline, beq_eq_false_iff_ne]
    rintro rfl
    exact absurd hb (by decide)
  have hfree : ∀ b ∈ asBytes greeting ++ (decimalDigits port.toNat ++ 0x20 ::
      (asBytes key ++ 0x20 :: decimalDigits pid.toNat)), isNewline b = false := by
    intro b hb
    simp only [List.mem_append, List.mem_cons] at hb
    rcases hb with hb | hb | rfl | hb | rfl | hb
    · have hgreeting : ((asBytes greeting).all fun b => !isNewline b) = true := by decide
      simpa using List.all_eq_true.1 hgreeting b hb
    · exact hplain b (decimalDigits_plain _ b hb).2
    · decide
    · exact hplain b (hkey.plain b hb).2
    · decide
    · exact hplain b (decimalDigits_plain _ b hb).2
  have hline := records_append (m := 0x0A) hfree (by decide) rest
  simpa [startupTail] using hline

end StartupTail

/-- Lines a login shell may print first. -/
structure Noise (lines : List Bytes) : Prop where
  newlineFree : ∀ line ∈ lines, ∀ b ∈ line, isNewline b = false
  greetingFree : ∀ line ∈ lines, ¬ asBytes greeting <+: line

def unlines (lines : List Bytes) : Bytes := lines.flatMap (· ++ [0x0A])

theorem records_unlines {lines : List Bytes}
    (h : ∀ line ∈ lines, ∀ b ∈ line, isNewline b = false) (rest : Bytes) :
    records isNewline (unlines lines ++ rest) =
      lines.map (· ++ [0x0A]) ++ records isNewline rest := by
  induction lines with
  | nil => rfl
  | cons line lines ih =>
    have hline := records_append (m := 0x0A) (h line (by simp)) (by decide) (unlines lines ++ rest)
    rw [ih fun l hl => h l (by simp [hl])] at hline
    simpa [unlines] using hline

theorem not_greeting_newline {line : Bytes} (h : ¬ asBytes greeting <+: line) :
    ¬ asBytes greeting <+: line ++ [0x0A] := by
  intro hgreeting
  rw [List.prefix_concat_iff] at hgreeting
  cases hgreeting with
  | inl heq =>
    have hlast := congrArg List.getLast? heq
    rw [List.getLast?_concat] at hlast
    exact absurd hlast (by decide)
  | inr hline => exact h hline

section Printed
variable {noise : List Bytes} (hnoise : Noise noise) {key : String} (hkey : PlainKey key)
  (port : UInt16) (pid : UInt32) (rest : Bytes)
include hnoise hkey

theorem firstConnect_printed :
    ∃ p, firstConnect (unlines noise ++ asBytes (startupLine port key pid) ++ rest) =
      some (p, some key) ∧ parseU16 p = some port := by
  obtain ⟨p, hp, hport⟩ := connectWords_startupLine hkey port pid
  refine ⟨p, ?_, hport⟩
  rw [firstConnect_eq, asBytes_startupLine, List.append_assoc,
    records_unlines hnoise.newlineFree, records_startupLine hkey, List.findSome?_append,
    List.findSome?_eq_none_iff.2, Option.none_or, List.findSome?_cons, hp]
  intro record hrecord
  obtain ⟨line, hline, rfl⟩ := List.mem_map.1 hrecord
  by_contra hsome
  exact not_greeting_newline (hnoise.greetingFree line hline) (greeting_of_connectWords hsome)

theorem firstCarried_printed {wrap : Int → Int} (hwrap : StoresInt wrap) :
    firstCarried wrap (unlines noise ++ asBytes (startupLine port key pid) ++ rest) =
      some ((port.toNat : Int), asBytes key) := by
  rw [firstCarried, asBytes_startupLine, List.append_assoc,
    records_unlines hnoise.newlineFree, records_startupLine hkey, List.findSome?_append,
    List.findSome?_eq_none_iff.2, Option.none_or, List.findSome?_cons,
    carried_startupLine hkey port pid hwrap]
  intro record hrecord
  obtain ⟨line, hline, rfl⟩ := List.mem_map.1 hrecord
  rw [carried, if_neg (not_greeting_newline (hnoise.greetingFree line hline))]

end Printed

theorem printed_found {wrap : Int → Int} (hwrap : StoresInt wrap) {noise : List Bytes}
    (hnoise : Noise noise) {key : String} (hkey : PlainKey key) (port : UInt16) (pid : UInt32)
    {rest : Bytes}
    (hout : LauncherOutput (unlines noise ++ asBytes (startupLine port key pid) ++ rest))
    (remotePort : UInt16) :
    AllFind wrap remotePort (unlines noise ++ asBytes (startupLine port key pid) ++ rest)
      (if port = 0 then 4000 else port) key := by
  obtain ⟨p, hfirst, hport⟩ := firstConnect_printed hnoise hkey port pid rest
  obtain ⟨hc, hcpp⟩ := nativeScan_eq wrap hout remotePort.toNat
  rw [firstCarried_printed hnoise hkey port pid rest hwrap, Option.getD_some,
    orDefaultPort_toNat] at hc
  refine ⟨?_, hc, hcpp.trans hc⟩
  rw [spawnScan_eq, hfirst]
  simp [hport]

/-- When the scanners agree: in general, on output whose greetings are ASCII, and on what the
server itself prints. -/
theorem startup_scanners_agree_iff (wrap : Int → Int) (hwrap : StoresInt wrap) (out : Bytes)
    (hout : LauncherOutput out) :
    (ScannersAgree wrap out ↔ FirstsMatch wrap out) ∧
      (PlainConnects out → ShortKeys out → (ScannersAgree wrap out ↔ FirstWellFormed out)) ∧
      ∀ (noise : List Bytes) (port : UInt16) (nanos : BitVec 128) (pid : UInt32) (rest : Bytes),
        Noise noise →
        out = unlines noise ++ asBytes (startupLine port (generateSessionKey nanos pid) pid) ++
          rest →
        ∀ remotePort, AllFind wrap remotePort out (if port = 0 then 4000 else port)
          (generateSessionKey nanos pid) := by
  refine ⟨scannersAgree_iff hout, fun hplain hkeys => ?_, ?_⟩
  · rw [scannersAgree_iff hout]
    exact ⟨firstWellFormed_of_match, firstsMatch_of_wellFormed hplain hwrap hkeys⟩
  · rintro noise port nanos pid rest hnoise rfl remotePort
    exact printed_found hwrap hnoise (generateSessionKey_plain nanos pid) port pid hout remotePort

/-- `%d` as the GNU library reads it: through a `long` that saturates. -/
def storeLong (n : Int) : Int := Int.bmod (max (-2 ^ 63) (min n (2 ^ 63 - 1))) (2 ^ 32)

theorem storeLong_storesInt : StoresInt storeLong := by
  intro n hlo hhi
  have hlong : max (-2 ^ 63) (min n (2 ^ 63 - 1)) = n := by omega
  rw [storeLong, hlong]
  exact Int.bmod_eq_of_le (by omega) (by omega)

/-- A login shell says hi, then a server starts on port 4000. -/
def loginThenServer : Bytes :=
  unlines [[0x68, 0x69]] ++ asBytes (startupLine 4000 (generateSessionKey 0 7) 7) ++ []

theorem startup_scanners_agree_iff_login :
    LauncherOutput loginThenServer ∧
      ∀ remotePort, AllFind storeLong remotePort loginThenServer 4000 (generateSessionKey 0 7) := by
  have hout : LauncherOutput loginThenServer := ⟨by decide +kernel, by decide +kernel⟩
  have hnoise : Noise [[0x68, 0x69]] := ⟨by simp [isNewline], by decide⟩
  exact ⟨hout, (startup_scanners_agree_iff storeLong storeLong_storesInt loginThenServer hout).2.2
    [[0x68, 0x69]] 4000 0 7 [] hnoise rfl⟩

theorem firstConnect_line (tail : Bytes) {port : Bytes} {more : List Bytes}
    (hrecord : records isNewline (asBytes greeting ++ tail) = [asBytes greeting ++ tail])
    (hascii : (tail.all fun b => decide (b.toNat < 0x80)) = true)
    (hwords : words isSpace tail = port :: more) :
    firstConnect (asBytes greeting ++ tail) = some (String.ofList (asciiChars port),
      more.head?.map fun key => String.ofList (asciiChars key)) := by
  rw [firstConnect_eq, hrecord, List.findSome?_cons,
    connectWords_ascii (ascii_of_all hascii), hwords]

/-- A port without a key makes the Rust scanner panic; a key without a port is taken by it
and by no other. -/
theorem startup_scanners_disagree :
    (LauncherOutput (asBytes greeting ++ asBytes "4000\n") ∧
      spawnScan 0 (asBytes greeting ++ asBytes "4000\n") = none) ∧
    LauncherOutput (asBytes greeting ++ asBytes "any k\n") ∧
      ¬ ∃ wrap, ScannersAgree wrap (asBytes greeting ++ asBytes "any k\n") := by
  have hshort : LauncherOutput (asBytes greeting ++ asBytes "4000\n") :=
    ⟨by decide +kernel, by decide +kernel⟩
  have hword : LauncherOutput (asBytes greeting ++ asBytes "any k\n") :=
    ⟨by decide +kernel, by decide +kernel⟩
  refine ⟨⟨hshort, ?_⟩, hword, ?_⟩
  · have hfirst := firstConnect_line (asBytes "4000\n") (by decide +kernel)
      (by decide +kernel)
      (by decide +kernel : words isSpace (asBytes "4000\n") = [asBytes "4000"])
    rw [spawnScan_eq, hfirst]
    rfl
  · rintro ⟨wrap, hagree⟩
    have hfirst := firstConnect_line (asBytes "any k\n") (by decide +kernel)
      (by decide +kernel)
      (by decide +kernel : words isSpace (asBytes "any k\n") = [asBytes "any", asBytes "k"])
    have hwell := firstWellFormed_of_match ((scannersAgree_iff hword).1 hagree)
    exact (hwell _ _ hfirst).1 (by decide +kernel)

end MoshTcp.StartupLine
