import MoshTcp.Ansi
import MoshTcp.Lib.StreamDecoder

/-! The query stripper of src/ansi.rs. What it does at a position depends on the bytes from
there on and nothing else, and a decision once made is not changed by later bytes; that is
what makes it an incremental decoder. -/

set_option autoImplicit false

namespace MoshTcp.Ansi
open ByteOrder StreamDecoder

/-- Bytes up to and including the first BEL or `ESC \`. -/
def stLength : Bytes → Option Nat
  | [] => none
  | b :: rest =>
    if b = 0x07 then some 1
    else if b = 0x1b ∧ rest.head? = some 0x5C then some 2
    else (stLength rest).map (· + 1)

/-- Bytes up to and including the first CSI final byte. -/
def finalLength : Bytes → Option Nat
  | [] => none
  | b :: rest =>
    if 0x40 ≤ b ∧ b ≤ 0x7E then some 1 else (finalLength rest).map (· + 1)

/-- Colour and palette queries (OSC 10, 11, 12 and 4), or any OSC with a question mark. -/
def isOscQuery (sub : Bytes) : Bool :=
  [0x1b, 0x5D, 0x31, 0x30, 0x3B].isPrefixOf sub ||
    [0x1b, 0x5D, 0x31, 0x31, 0x3B].isPrefixOf sub ||
    [0x1b, 0x5D, 0x31, 0x32, 0x3B].isPrefixOf sub ||
    [0x1b, 0x5D, 0x34, 0x3B].isPrefixOf sub ||
    sub.contains 0x3F

def isDcsQuery (sub : Bytes) : Bool :=
  containsSubslice sub [0x24, 0x71] || sub.contains 0x24

/-- DA1, DA2, DA3, XTVERSION and cursor position reports. -/
def isCsiQuery (sub : Bytes) : Bool :=
  sub == [0x1b, 0x5B, 0x63] ||
    sub == [0x1b, 0x5B, 0x30, 0x63] ||
    sub == [0x1b, 0x5B, 0x3F, 0x63] ||
    sub == [0x1b, 0x5B, 0x3E, 0x63] ||
    sub == [0x1b, 0x5B, 0x3E, 0x30, 0x63] ||
    sub == [0x1b, 0x5B, 0x3E, 0x31, 0x63] ||
    sub == [0x1b, 0x5B, 0x3D, 0x63] ||
    sub == [0x1b, 0x5B, 0x3D, 0x30, 0x63] ||
    sub == [0x1b, 0x5B, 0x3E, 0x71] ||
    sub == [0x1b, 0x5B, 0x71] ||
    sub == [0x1b, 0x5B, 0x36, 0x6E] ||
    sub == [0x1b, 0x5B, 0x3F, 0x36, 0x6E] ||
    ([0x1b, 0x5B, 0x3F].isPrefixOf sub && [0x63].isSuffixOf sub) ||
    ([0x1b, 0x5B, 0x3F].isPrefixOf sub && [0x6E].isSuffixOf sub)

/-- What the loop does at a position: wait for more bytes, drop `n` bytes, or keep one. -/
inductive Decision where
  | incomplete
  | strip (n : Nat)
  | keep
  deriving DecidableEq, Repr

/-- The decision on a sequence that starts `data` and whose body, after the two bytes of its
introducer, is `len` bytes long. -/
def judge (isQuery : Bytes → Bool) (data : Bytes) : Option Nat → Decision
  | none => .incomplete
  | some len => if isQuery (data.take (2 + len)) then .strip (2 + len) else .keep

def decision (b : UInt8) (rest : Bytes) : Decision :=
  if b = 0x1b then
    match rest with
    | [] => .incomplete
    | next :: tail =>
      if next = 0x5D then judge isOscQuery (b :: rest) (stLength tail)
      else if next = 0x50 then judge isDcsQuery (b :: rest) (stLength tail)
      else if next = 0x5B then judge isCsiQuery (b :: rest) (finalLength tail)
      else .keep
  else .keep

theorem judge_strip_pos {isQuery : Bytes → Bool} {data : Bytes} {len : Option Nat} {n : Nat}
    (h : judge isQuery data len = .strip n) : 0 < n := by
  cases len with
  | none => simp [judge] at h
  | some len =>
    by_cases hq : isQuery (data.take (2 + len)) = true
    · simp [judge, hq] at h
      omega
    · simp [judge, hq] at h

theorem decision_strip_pos {b : UInt8} {rest : Bytes} {n : Nat}
    (h : decision b rest = .strip n) : 0 < n := by
  unfold decision at h
  repeat' split at h
  · simp at h
  · exact judge_strip_pos h
  · exact judge_strip_pos h
  · exact judge_strip_pos h
  · simp at h
  · simp at h

/-- The cleaned bytes, and the unparsed rest. -/
def stripTerminalQueriesStateful : Bytes → Bytes × Bytes
  | [] => ([], [])
  | b :: rest =>
    match _h : decision b rest with
    | .incomplete => ([], b :: rest)
    | .strip n => stripTerminalQueriesStateful ((b :: rest).drop n)
    | .keep =>
      let (result, remaining) := stripTerminalQueriesStateful rest
      (b :: result, remaining)
termination_by data => data.length
decreasing_by
  · have := decision_strip_pos _h
    simp only [List.length_drop, List.length_cons]
    omega
  · simp

theorem strip_incomplete {b : UInt8} {rest : Bytes} (h : decision b rest = .incomplete) :
    stripTerminalQueriesStateful (b :: rest) = ([], b :: rest) := by
  rw [stripTerminalQueriesStateful]
  split
  · rfl
  · simp_all
  · simp_all

theorem strip_removed {b : UInt8} {rest : Bytes} {n : Nat} (h : decision b rest = .strip n) :
    stripTerminalQueriesStateful (b :: rest) =
      stripTerminalQueriesStateful ((b :: rest).drop n) := by
  rw [stripTerminalQueriesStateful]
  split
  · simp_all
  · rename_i m hm
    rw [h] at hm
    rw [Decision.strip.inj hm]
  · simp_all

theorem strip_kept {b : UInt8} {rest : Bytes} (h : decision b rest = .keep) :
    stripTerminalQueriesStateful (b :: rest) =
      (b :: (stripTerminalQueriesStateful rest).1, (stripTerminalQueriesStateful rest).2) := by
  rw [stripTerminalQueriesStateful]
  split
  · simp_all
  · simp_all
  · rfl

/-- Where a sequence ends is decided by its own bytes. -/
def EndsLocally (bodyLength : Bytes → Option Nat) : Prop :=
  ∀ ⦃bs : Bytes⦄ ⦃n : Nat⦄, bodyLength bs = some n →
    n ≤ bs.length ∧ ∀ cs : Bytes, cs.take n = bs.take n → bodyLength cs = some n

theorem stLength_ne_zero (bs : Bytes) : stLength bs ≠ some 0 := by
  cases bs with
  | nil => simp [stLength]
  | cons b rest =>
    unfold stLength
    (repeat' split) <;> simp

theorem stLength_local : EndsLocally stLength := by
  intro bs
  induction bs with
  | nil => simp [stLength]
  | cons b rest ih =>
    intro n h
    by_cases hbel : b = 0x07
    · obtain rfl : 1 = n := by simpa [stLength, hbel] using h
      refine ⟨by simp, fun cs hcs => ?_⟩
      cases cs with
      | nil => simp at hcs
      | cons c cs => simp [stLength, show c = 0x07 by simpa [hbel] using hcs]
    · by_cases hst : b = 0x1b ∧ rest.head? = some 0x5C
      · obtain rfl : 2 = n := by simpa [stLength, hst] using h
        obtain ⟨tail, rfl⟩ : ∃ tail, rest = 0x5C :: tail := by
          cases rest with
          | nil => simp at hst
          | cons c tail => exact ⟨tail, by simpa using hst.2⟩
        refine ⟨by simp, fun cs hcs => ?_⟩
        match cs with
        | [] => simp at hcs
        | [c] => simp at hcs
        | c :: d :: cs =>
          have hbytes : c = b ∧ d = 0x5C := by simpa using hcs
          simp [stLength, hbytes, hst.1]
      · simp only [stLength, hbel, hst, if_false, Option.map_eq_some_iff] at h
        obtain ⟨m, hm, rfl⟩ := h
        obtain ⟨hle, hlocal⟩ := ih hm
        refine ⟨by simpa using hle, fun cs hcs => ?_⟩
        cases cs with
        | nil => simp at hcs
        | cons c cs =>
          rw [List.take_succ_cons, List.take_succ_cons, List.cons.injEq] at hcs
          -- the test for ESC \ looks one byte ahead, which is still inside the sequence
          have hhead : cs.head? = rest.head? := by
            have hpos : m ≠ 0 := fun h0 => stLength_ne_zero rest (h0 ▸ hm)
            have htake := congrArg List.head? hcs.2
            rwa [List.head?_take, List.head?_take, if_neg hpos, if_neg hpos] at htake
          simp [stLength, hcs.1, hbel, hhead, hst, hlocal cs hcs.2]

theorem finalLength_local : EndsLocally finalLength := by
  intro bs
  induction bs with
  | nil => simp [finalLength]
  | cons b rest ih =>
    intro n h
    by_cases hb : 0x40 ≤ b ∧ b ≤ 0x7E
    · obtain rfl : 1 = n := by simpa [finalLength, hb] using h
      refine ⟨by simp, fun cs hcs => ?_⟩
      cases cs with
      | nil => simp at hcs
      | cons c cs => simp [finalLength, show c = b by simpa using hcs, hb]
    · simp only [finalLength, hb, if_false, Option.map_eq_some_iff] at h
      obtain ⟨m, hm, rfl⟩ := h
      obtain ⟨hle, hlocal⟩ := ih hm
      refine ⟨by simpa using hle, fun cs hcs => ?_⟩
      cases cs with
      | nil => simp at hcs
      | cons c cs =>
        rw [List.take_succ_cons, List.take_succ_cons, List.cons.injEq] at hcs
        simp [finalLength, hcs.1, hb, hlocal cs hcs.2]

section Judge
variable {isQuery : Bytes → Bool} {bodyLength : Bytes → Option Nat} (hbody : EndsLocally bodyLength)
  {b c : UInt8} {tail : Bytes}
include hbody

/-- The same sequence is judged the same, whatever comes behind it. -/
theorem judge_local {n : Nat} (hn : bodyLength tail = some n) {cs : Bytes}
    (hcs : cs.take n = tail.take n) :
    judge isQuery (b :: c :: cs) (bodyLength cs) =
      judge isQuery (b :: c :: tail) (bodyLength tail) := by
  have htake : (b :: c :: cs).take (2 + n) = (b :: c :: tail).take (2 + n) := by
    rw [Nat.add_comm, List.take_succ_cons, List.take_succ_cons, List.take_succ_cons,
      List.take_succ_cons, hcs]
  simp only [hn, (hbody hn).2 cs hcs, judge, htake]

theorem judge_append (more : Bytes)
    (h : judge isQuery (b :: c :: tail) (bodyLength tail) ≠ .incomplete) :
    judge isQuery (b :: c :: (tail ++ more)) (bodyLength (tail ++ more)) =
      judge isQuery (b :: c :: tail) (bodyLength tail) := by
  cases hlen : bodyLength tail with
  | none => simp [judge, hlen] at h
  | some n =>
    rw [← hlen]
    exact judge_local hbody hlen (List.take_append_of_le_length (hbody hlen).1)

theorem judge_strip_le {n : Nat}
    (h : judge isQuery (b :: c :: tail) (bodyLength tail) = .strip n) :
    n ≤ (b :: c :: tail).length := by
  cases hlen : bodyLength tail with
  | none => simp [judge, hlen] at h
  | some m =>
    have hle := (hbody hlen).1
    by_cases hq : isQuery ((b :: c :: tail).take (2 + m)) = true
    · simp only [judge, hlen, hq, if_true, Decision.strip.injEq] at h
      simp only [List.length_cons]
      omega
    · simp [judge, hlen, hq] at h

end Judge

theorem decision_append {b : UInt8} {rest : Bytes} (more : Bytes)
    (h : decision b rest ≠ .incomplete) : decision b (rest ++ more) = decision b rest := by
  by_cases hb : b = 0x1b
  · cases rest with
    | nil => simp [decision, hb] at h
    | cons next tail =>
      rw [List.cons_append]
      by_cases hosc : next = 0x5D
      · simp only [decision, if_pos hb, if_pos hosc] at h ⊢
        exact judge_append stLength_local more h
      · by_cases hdcs : next = 0x50
        · simp only [decision, if_pos hb, if_neg hosc, if_pos hdcs] at h ⊢
          exact judge_append stLength_local more h
        · by_cases hcsi : next = 0x5B
          · simp only [decision, if_pos hb, if_neg hosc, if_neg hdcs, if_pos hcsi] at h ⊢
            exact judge_append finalLength_local more h
          · simp only [decision, if_pos hb, if_neg hosc, if_neg hdcs, if_neg hcsi]
  · simp only [decision, if_neg hb]

theorem decision_strip_le {b : UInt8} {rest : Bytes} {n : Nat}
    (h : decision b rest = .strip n) : n ≤ (b :: rest).length := by
  unfold decision at h
  repeat' split at h
  · simp at h
  · exact judge_strip_le stLength_local h
  · exact judge_strip_le stLength_local h
  · exact judge_strip_le finalLength_local h
  · simp at h
  · simp at h

/-! ### The stripper as an incremental decoder -/

/-- An item is what one round of the loop keeps. -/
def stripDecode : Bytes → Except Empty (Option Bytes) × Bytes
  | [] => (.ok none, [])
  | b :: rest =>
    match decision b rest with
    | .incomplete => (.ok none, b :: rest)
    | .strip n => (.ok (some []), (b :: rest).drop n)
    | .keep => (.ok (some [b]), rest)

theorem stripDecode_none_keeps {buf rest : Bytes}
    (h : stripDecode buf = (.ok none, rest)) : rest = buf := by
  cases buf with
  | nil => simpa [stripDecode] using h.symm
  | cons b tail =>
    cases hd : decision b tail with
    | incomplete => simpa [stripDecode, hd] using h.symm
    | strip n => simp [stripDecode, hd] at h
    | keep => simp [stripDecode, hd] at h

theorem stripDecode_some_shrinks {buf kept rest : Bytes}
    (h : stripDecode buf = (.ok (some kept), rest)) : rest.length < buf.length := by
  cases buf with
  | nil => simp [stripDecode] at h
  | cons b tail =>
    cases hd : decision b tail with
    | incomplete => simp [stripDecode, hd] at h
    | strip n =>
      have hpos := decision_strip_pos hd
      simp only [stripDecode, hd, Prod.mk.injEq] at h
      rw [← h.2, List.length_drop, List.length_cons]
      omega
    | keep =>
      simp only [stripDecode, hd, Prod.mk.injEq] at h
      rw [← h.2, List.length_cons]
      omega

theorem stripDecode_some_append {buf kept rest : Bytes} (more : Bytes)
    (h : stripDecode buf = (.ok (some kept), rest)) :
    stripDecode (buf ++ more) = (.ok (some kept), rest ++ more) := by
  cases buf with
  | nil => simp [stripDecode] at h
  | cons b tail =>
    rw [List.cons_append]
    cases hd : decision b tail with
    | incomplete => simp [stripDecode, hd] at h
    | strip n =>
      have hle := decision_strip_le hd
      have hmore : decision b (tail ++ more) = .strip n := by
        rw [decision_append more (by simp [hd]), hd]
      simp only [stripDecode, hd, Prod.mk.injEq] at h
      simp only [stripDecode, hmore, ← List.cons_append, List.drop_append_of_le_length hle, h]
    | keep =>
      have hmore : decision b (tail ++ more) = .keep := by
        rw [decision_append more (by simp [hd]), hd]
      simp only [stripDecode, hd, Prod.mk.injEq] at h
      obtain ⟨hkept, rfl⟩ := h
      simp only [stripDecode, hmore, hkept]

def stripper : Decoder UInt8 Bytes Empty where
  decode := stripDecode
  none_keeps := stripDecode_none_keeps
  some_shrinks := stripDecode_some_shrinks
  some_append := fun more h => stripDecode_some_append more h
  error_append := fun {_ e _} _ _ => e.elim

theorem strip_eq_drain (data : Bytes) :
    stripTerminalQueriesStateful data =
      ((stripper.drain data).items.flatten, (stripper.drain data).rest) := by
  fun_induction stripTerminalQueriesStateful data with
  | case1 =>
    rw [stripper.drain_none rfl]
    rfl
  | case2 b rest hd =>
    rw [stripper.drain_none (by simp [stripper, stripDecode, hd])]
    rfl
  | case3 b rest n hd ih =>
    have hdec : stripper.decode (b :: rest) = (.ok (some []), (b :: rest).drop n) := by
      simp [stripper, stripDecode, hd]
    rw [ih, stripper.drain_some hdec]
    simp [Drained.after]
  | case4 b rest hd result remaining hrest ih =>
    have hdec : stripper.decode (b :: rest) = (.ok (some [b]), rest) := by
      simp [stripper, stripDecode, hd]
    rw [hrest, Prod.mk.injEq] at ih
    rw [stripper.drain_some hdec, ih.1, ih.2]
    simp [Drained.after]

/-- One chunk: the remainder of the chunks before it goes in front. -/
def stripChunk (acc : Bytes × Bytes) (chunk : Bytes) : Bytes × Bytes :=
  let (cleaned, remaining) := stripTerminalQueriesStateful (acc.2 ++ chunk)
  (acc.1 ++ cleaned, remaining)

theorem stripChunks_eq_feed (chunks : List Bytes) (out remaining : Bytes) :
    chunks.foldl stripChunk (out, remaining) =
      (out ++ (stripper.feed remaining chunks).items.flatten,
        (stripper.feed remaining chunks).rest) := by
  induction chunks generalizing out remaining with
  | nil => simp [Decoder.feed]
  | cons chunk chunks ih =>
    have hfeed : stripper.feed remaining (chunk :: chunks) =
        (stripper.feed (stripper.drain (remaining ++ chunk)).rest chunks).after
          (stripper.drain (remaining ++ chunk)).items := by
      rw [Decoder.feed]
      split
      · rename_i e _
        exact e.elim
      · rfl
    rw [List.foldl_cons, stripChunk, strip_eq_drain, ih, hfeed]
    simp [Drained.after]

/-- However the stream is cut into chunks, the same bytes come out and the same rest is kept. -/
theorem strip_chunk_independent (chunks : List Bytes) :
    chunks.foldl stripChunk ([], []) = stripTerminalQueriesStateful chunks.flatten := by
  obtain ⟨hitems, herror, hrest⟩ := stripper.feed_eq_drain [] chunks rfl
  have hnone : (stripper.feed [] chunks).error = none := by
    cases he : (stripper.feed [] chunks).error with
    | none => rfl
    | some e => exact e.elim
  rw [stripChunks_eq_feed, strip_eq_drain, hitems, hrest hnone]
  simp

end MoshTcp.Ansi
