import MoshTcp.AnsiStream
import MoshTcp.Lib.Tokens

/-! The query stripper on its own output. Inside a sequence that is kept the loop may find a
query of its own and remove it; the bytes around it are then read together for the first time
when the output is stripped again. -/

set_option autoImplicit false

namespace MoshTcp.Ansi
open ByteOrder Tokens

/-- Bytes of a complete sequence behind its ESC. -/
def bodyLength : Bytes → Nat
  | [] => 0
  | next :: tail =>
    if next = 0x5D ∨ next = 0x50 then 1 + (stLength tail).getD 0
    else if next = 0x5B then 1 + (finalLength tail).getD 0
    else 1

def roundLength : Bytes → Nat
  | [] => 0
  | b :: rest =>
    match decision b rest with
    | .incomplete => rest.length + 1
    | .strip n => n
    | .keep => 1

theorem roundLength_pos {data : Bytes} (hne : data ≠ []) : 0 < roundLength data := by
  cases data with
  | nil => exact absurd rfl hne
  | cons b rest =>
    cases hd : decision b rest with
    | incomplete => simp [roundLength, hd]
    | strip n => simpa [roundLength, hd] using decision_strip_pos hd
    | keep => simp [roundLength, hd]

theorem roundLength_le (data : Bytes) : roundLength data ≤ data.length := by
  cases data with
  | nil => exact Nat.le_refl 0
  | cons b rest =>
    cases hd : decision b rest with
    | incomplete => simp [roundLength, hd]
    | strip n => simpa [roundLength, hd] using decision_strip_le hd
    | keep => simp [roundLength, hd]

def rounds : Tokenizer UInt8 where
  length := roundLength
  length_pos := roundLength_pos
  length_le := roundLength_le

/-- A query or the unparsed rest starts within `n` bytes. -/
def cutWithin : Nat → Bytes → Bool
  | 0, _ => false
  | _ + 1, [] => false
  | n + 1, b :: rest =>
    match decision b rest with
    | .keep => cutWithin n rest
    | _ => true

/-- From `data` up to `tail` the kept bytes are `text`, and between them are queries. -/
inductive ReadsOver : Bytes → Bytes → Bytes → Prop
  | stop (data : Bytes) : ReadsOver data [] data
  | kept {b : UInt8} {rest text tail : Bytes} (hd : decision b rest = .keep)
      (hrest : ReadsOver rest text tail) : ReadsOver (b :: rest) (b :: text) tail
  | query {b : UInt8} {rest text tail : Bytes} {n : Nat} (hd : decision b rest = .strip n)
      (hrest : ReadsOver ((b :: rest).drop n) text tail) : ReadsOver (b :: rest) text tail

def unparsed : Bytes → Bool
  | [] => true
  | b :: rest => decide (decision b rest = .incomplete)

/-- A sequence that is kept behind an ESC is cut by a query or by the unparsed rest, and the
kept bytes from the ESC on, read over the queries between them, are a query, or the input ends
before they are complete. -/
structure JoinsInto (rest : Bytes) : Prop where
  kept : decision 0x1b rest = .keep
  cut : cutWithin (bodyLength rest) rest = true
  joined : ∃ text tail, ReadsOver rest text tail ∧
    ((∃ n, decision 0x1b text = .strip n) ∨
      (decision 0x1b text = .incomplete ∧ unparsed tail = true))

def JoinsSomewhere (data : Bytes) : Prop :=
  ∃ p rest, rounds.Boundary data p ∧ data.drop p = 0x1b :: rest ∧ JoinsInto rest

theorem ReadsOver.strip_eq {data text tail : Bytes} (h : ReadsOver data text tail) :
    (stripTerminalQueriesStateful data).1 = text ++ (stripTerminalQueriesStateful tail).1 := by
  induction h with
  | stop data => rfl
  | kept hd hrest ih =>
    rw [strip_kept hd, ih]
    rfl
  | query hd hrest ih => rw [strip_removed hd, ih]

theorem strip_unparsed {tail : Bytes} (h : unparsed tail = true) :
    (stripTerminalQueriesStateful tail).1 = [] := by
  cases tail with
  | nil => rw [stripTerminalQueriesStateful]
  | cons b rest =>
    have hd : decision b rest = .incomplete := by simpa [unparsed] using h
    rw [strip_incomplete hd]

theorem readsOver_strip (data : Bytes) :
    ∃ tail, ReadsOver data (stripTerminalQueriesStateful data).1 tail ∧ unparsed tail = true := by
  fun_induction stripTerminalQueriesStateful data with
  | case1 => exact ⟨[], .stop [], rfl⟩
  | case2 b rest hd => exact ⟨b :: rest, .stop _, by simp [unparsed, hd]⟩
  | case3 b rest n hd ih =>
    obtain ⟨tail, hread, hend⟩ := ih
    exact ⟨tail, .query hd hread, hend⟩
  | case4 b rest hd result remaining hrest ih =>
    obtain ⟨tail, hread, hend⟩ := ih
    rw [hrest] at hread
    exact ⟨tail, .kept hd hread, hend⟩

theorem strip_joined_iff (rest : Bytes) :
    decision 0x1b (stripTerminalQueriesStateful rest).1 ≠ .keep ↔
      ∃ text tail, ReadsOver rest text tail ∧
        ((∃ n, decision 0x1b text = .strip n) ∨
          (decision 0x1b text = .incomplete ∧ unparsed tail = true)) := by
  constructor
  · intro h
    obtain ⟨tail, hread, hend⟩ := readsOver_strip rest
    refine ⟨_, tail, hread, ?_⟩
    cases hd : decision 0x1b (stripTerminalQueriesStateful rest).1 with
    | incomplete => exact .inr ⟨rfl, hend⟩
    | strip n => exact .inl ⟨n, rfl⟩
    | keep => exact absurd hd h
  · intro h
    obtain ⟨text, tail, hread, hjoined⟩ := h
    rw [hread.strip_eq]
    cases hjoined with
    | inl hquery =>
      obtain ⟨n, hn⟩ := hquery
      rw [decision_append _ (by simp [hn]), hn]
      simp
    | inr hopen =>
      rw [strip_unparsed hopen.2, List.append_nil, hopen.1]
      simp

theorem judged_own {isQuery : Bytes → Bool} {lengthOf : Bytes → Option Nat}
    (hlocal : EndsLocally lengthOf) {c : UInt8} {tail : Bytes}
    (hd : ∀ bs, decision 0x1b (c :: bs) = judge isQuery (0x1b :: c :: bs) (lengthOf bs))
    (hbody : bodyLength (c :: tail) = 1 + (lengthOf tail).getD 0)
    (h : decision 0x1b (c :: tail) = .keep) :
    decision 0x1b ((c :: tail).take (bodyLength (c :: tail))) = .keep ∧
      bodyLength (c :: tail) ≤ (c :: tail).length := by
  cases hlen : lengthOf tail with
  | none => simp [hd, judge, hlen] at h
  | some n =>
    have hend : bodyLength (c :: tail) = n + 1 := by
      rw [hbody, hlen, Option.getD_some, Nat.add_comm]
    rw [hend, List.take_succ_cons, hd]
    refine ⟨?_, Nat.succ_le_succ (hlocal hlen).1⟩
    rw [judge_local hlocal hlen (by rw [List.take_take, Nat.min_self]), ← hd]
    exact h

theorem decision_own {rest : Bytes} (h : decision 0x1b rest = .keep) :
    decision 0x1b (rest.take (bodyLength rest)) = .keep ∧ bodyLength rest ≤ rest.length := by
  cases rest with
  | nil => simp [decision] at h
  | cons next tail =>
    by_cases hosc : next = 0x5D
    · rw [hosc] at h ⊢
      exact judged_own stLength_local decision_osc rfl h
    · by_cases hdcs : next = 0x50
      · rw [hdcs] at h ⊢
        exact judged_own stLength_local decision_dcs rfl h
      · by_cases hcsi : next = 0x5B
        · rw [hcsi] at h ⊢
          exact judged_own finalLength_local decision_csi rfl h
        · simp [bodyLength, decision, hosc, hdcs, hcsi]

theorem strip_uncut {n : Nat} {data : Bytes} (h : cutWithin n data = false)
    (hle : n ≤ data.length) : (stripTerminalQueriesStateful data).1 =
      data.take n ++ (stripTerminalQueriesStateful (data.drop n)).1 := by
  induction n generalizing data with
  | zero => simp
  | succ n ih =>
    cases data with
    | nil => simp at hle
    | cons b rest =>
      cases hd : decision b rest with
      | incomplete => simp [cutWithin, hd] at h
      | strip m => simp [cutWithin, hd] at h
      | keep =>
        have hrest : cutWithin n rest = false := by simpa [cutWithin, hd] using h
        rw [strip_kept hd, ih hrest (Nat.le_of_succ_le_succ hle)]
        rfl

theorem decision_uncut {rest : Bytes} (h : decision 0x1b rest = .keep)
    (hcut : cutWithin (bodyLength rest) rest = false) :
    decision 0x1b (stripTerminalQueriesStateful rest).1 = .keep := by
  obtain ⟨hown, hle⟩ := decision_own h
  rw [strip_uncut hcut hle, decision_append _ (by simp [hown]), hown]

/-! ### Stripping twice -/

theorem strip_length_le (data : Bytes) :
    (stripTerminalQueriesStateful data).1.length ≤ data.length := by
  fun_induction stripTerminalQueriesStateful data with
  | case1 => exact Nat.le_refl 0
  | case2 b rest hd => exact Nat.zero_le _
  | case3 b rest n hd ih =>
    rw [List.length_drop] at ih
    exact ih.trans (Nat.sub_le _ _)
  | case4 b rest hd result remaining hrest ih =>
    rw [hrest] at ih
    exact Nat.succ_le_succ ih

theorem strip_self_cons (b : UInt8) (rest : Bytes) :
    stripTerminalQueriesStateful (b :: rest) = (b :: rest, []) ↔
      decision b rest = .keep ∧ stripTerminalQueriesStateful rest = (rest, []) := by
  cases hd : decision b rest with
  | incomplete => simp [strip_incomplete hd]
  | strip n =>
    have hpos := decision_strip_pos hd
    have hle := strip_length_le ((b :: rest).drop n)
    rw [strip_removed hd]
    constructor
    · intro h
      rw [h, List.length_drop, List.length_cons] at hle
      omega
    · intro h
      exact absurd h.1 (by simp)
  | keep => simp [strip_kept hd, Prod.ext_iff]

theorem not_joinsSomewhere_nil : ¬ JoinsSomewhere [] := by
  intro h
  obtain ⟨p, rest, -, hdrop, -⟩ := h
  simp at hdrop

theorem joinsSomewhere_cons (b : UInt8) (rest : Bytes) :
    JoinsSomewhere (b :: rest) ↔ (b = 0x1b ∧ JoinsInto rest) ∨
      JoinsSomewhere ((b :: rest).drop (roundLength (b :: rest))) := by
  constructor
  · intro h
    obtain ⟨p, tail, hp, hdrop, hjoins⟩ := h
    obtain rfl | ⟨-, j, hj, rfl⟩ := Tokenizer.boundary_cases hp
    · obtain ⟨rfl, rfl⟩ := List.cons.inj hdrop
      exact .inl ⟨rfl, hjoins⟩
    · refine .inr ⟨j, tail, hj, ?_, hjoins⟩
      rw [List.drop_drop]
      exact hdrop
  · intro h
    obtain ⟨rfl, hjoins⟩ | ⟨j, tail, hj, hdrop, hjoins⟩ := h
    · exact ⟨0, rest, .start _, rfl, hjoins⟩
    · rw [List.drop_drop] at hdrop
      exact ⟨_, tail, .token (by simp) hj, hdrop, hjoins⟩

theorem joinsSomewhere_round {b : UInt8} {rest : Bytes} (hd : decision b rest ≠ .keep) :
    JoinsSomewhere (b :: rest) ↔ JoinsSomewhere ((b :: rest).drop (roundLength (b :: rest))) := by
  rw [joinsSomewhere_cons, or_iff_right_iff_imp]
  intro h
  rw [h.1] at hd
  exact absurd h.2.kept hd

theorem decision_output_iff {b : UInt8} {rest : Bytes} (hd : decision b rest = .keep) :
    decision b (stripTerminalQueriesStateful rest).1 = .keep ↔ ¬ (b = 0x1b ∧ JoinsInto rest) := by
  by_cases hb : b = 0x1b
  · rw [hb] at hd ⊢
    constructor
    · intro hkeep h
      exact (strip_joined_iff rest).2 h.2.joined hkeep
    · intro hno
      cases hcut : cutWithin (bodyLength rest) rest with
      | false => exact decision_uncut hd hcut
      | true =>
        by_contra hne
        exact hno ⟨rfl, hd, hcut, (strip_joined_iff rest).1 hne⟩
  · simp [decision, hb]

/-- The output is left alone by a second pass, exactly when no kept sequence that is cut joins
to a query or loses its end. -/
theorem strip_output_iff (data : Bytes) :
    stripTerminalQueriesStateful (stripTerminalQueriesStateful data).1 =
        ((stripTerminalQueriesStateful data).1, []) ↔ ¬ JoinsSomewhere data := by
  fun_induction stripTerminalQueriesStateful data with
  | case1 => simp [stripTerminalQueriesStateful, not_joinsSomewhere_nil]
  | case2 b rest hd =>
    have hnone : ¬ JoinsSomewhere (b :: rest) := by
      rw [joinsSomewhere_round (by simp [hd])]
      simpa [roundLength, hd] using not_joinsSomewhere_nil
    simp [stripTerminalQueriesStateful, hnone]
  | case3 b rest n hd ih =>
    have hlen : roundLength (b :: rest) = n := by simp [roundLength, hd]
    rw [joinsSomewhere_round (by simp [hd]), hlen]
    exact ih
  | case4 b rest hd result remaining hrest ih =>
    have hhead := decision_output_iff hd
    rw [hrest] at ih hhead
    have hone : roundLength (b :: rest) = 1 := by simp [roundLength, hd]
    rw [strip_self_cons, hhead, joinsSomewhere_cons, hone, not_or]
    exact and_congr_right fun _ => ih

/-- At `i` a query starts, or a sequence without end. -/
def StartsCut (data : Bytes) (i : Nat) : Prop :=
  ∃ b rest, data.drop i = b :: rest ∧ decision b rest ≠ .keep

/-- Behind an ESC the loop comes to there is a whole sequence, no query itself, and inside it a
query or a sequence without end starts. -/
def CutsSequence (data : Bytes) : Prop :=
  ∃ p rest, rounds.Boundary data p ∧ data.drop p = 0x1b :: rest ∧
    decision 0x1b rest = .keep ∧ ∃ i < bodyLength rest, StartsCut rest i

theorem cutWithin_iff (n : Nat) (data : Bytes) :
    cutWithin n data = true ↔ ∃ i < n, StartsCut data i := by
  induction n generalizing data with
  | zero => simp [cutWithin]
  | succ n ih =>
    cases data with
    | nil => simp [cutWithin, StartsCut]
    | cons b rest =>
      cases hd : decision b rest with
      | keep =>
        have hhere : ¬ StartsCut (b :: rest) 0 := by simp [StartsCut, hd]
        have hrest : ∀ i, StartsCut (b :: rest) (i + 1) ↔ StartsCut rest i := fun i => Iff.rfl
        have hcut : cutWithin (n + 1) (b :: rest) = cutWithin n rest := by simp [cutWithin, hd]
        rw [hcut, ih, Nat.exists_lt_succ_left]
        simp only [hhere, hrest, false_or]
      | incomplete =>
        exact iff_of_true (by simp [cutWithin, hd])
          ⟨0, Nat.succ_pos n, b, rest, rfl, by simp [hd]⟩
      | strip m =>
        exact iff_of_true (by simp [cutWithin, hd])
          ⟨0, Nat.succ_pos n, b, rest, rfl, by simp [hd]⟩

theorem JoinsSomewhere.cuts {data : Bytes} (h : JoinsSomewhere data) : CutsSequence data := by
  obtain ⟨p, rest, hp, hdrop, hjoins⟩ := h
  exact ⟨p, rest, hp, hdrop, hjoins.kept, (cutWithin_iff _ _).1 hjoins.cut⟩

theorem cutsSequence_cons (b : UInt8) (rest : Bytes) : CutsSequence (b :: rest) ↔
    (b = 0x1b ∧ decision 0x1b rest = .keep ∧ cutWithin (bodyLength rest) rest = true) ∨
      CutsSequence ((b :: rest).drop (roundLength (b :: rest))) := by
  constructor
  · intro h
    obtain ⟨p, tail, hp, hdrop, hkept, hcut⟩ := h
    obtain rfl | ⟨-, j, hj, rfl⟩ := Tokenizer.boundary_cases hp
    · obtain ⟨rfl, rfl⟩ := List.cons.inj hdrop
      exact .inl ⟨rfl, hkept, (cutWithin_iff _ _).2 hcut⟩
    · refine .inr ⟨j, tail, hj, ?_, hkept, hcut⟩
      rw [List.drop_drop]
      exact hdrop
  · intro h
    obtain ⟨rfl, hkept, hcut⟩ | ⟨j, tail, hj, hdrop, hkept, hcut⟩ := h
    · exact ⟨0, rest, .start _, rfl, hkept, (cutWithin_iff _ _).1 hcut⟩
    · rw [List.drop_drop] at hdrop
      exact ⟨_, tail, .token (by simp) hj, hdrop, hkept, hcut⟩

def cutsSequence : Nat → Bytes → Bool
  | 0, _ | _, [] => false
  | n + 1, b :: rest =>
    (b = 0x1b ∧ decision 0x1b rest = .keep ∧ cutWithin (bodyLength rest) rest = true) ||
      cutsSequence n ((b :: rest).drop (roundLength (b :: rest)))

theorem cutsSequence_iff {n : Nat} {data : Bytes} (h : data.length ≤ n) :
    cutsSequence n data = true ↔ CutsSequence data := by
  have hnil : ¬ CutsSequence [] := by
    rintro ⟨p, rest, -, hdrop, -⟩
    simp at hdrop
  induction n generalizing data with
  | zero =>
    obtain rfl := List.length_eq_zero_iff.1 (Nat.le_zero.1 h)
    exact iff_of_false (by simp [cutsSequence]) hnil
  | succ n ih =>
    cases data with
    | nil => exact iff_of_false (by simp [cutsSequence]) hnil
    | cons b rest =>
      have hround := roundLength_pos (List.cons_ne_nil b rest)
      have hshort : ((b :: rest).drop (roundLength (b :: rest))).length ≤ n := by
        rw [List.length_drop]
        omega
      rw [cutsSequence_cons, cutsSequence, Bool.or_eq_true, decide_eq_true_iff]
      exact or_congr_right (ih hshort)

instance (data : Bytes) : Decidable (CutsSequence data) :=
  decidable_of_iff _ (cutsSequence_iff (Nat.le_refl data.length))

/-- The output is left alone by a second pass when nothing is removed from inside a sequence. -/
theorem strip_output_stripped {data : Bytes} (h : ¬ CutsSequence data) :
    stripTerminalQueriesStateful (stripTerminalQueriesStateful data).1 =
      ((stripTerminalQueriesStateful data).1, []) :=
  (strip_output_iff data).2 fun hjoins => h hjoins.cuts

theorem strip_output_stripped_query :
    stripTerminalQueriesStateful (stripTerminalQueriesStateful
        [0x1b, 0x5B, 0x31, 0x6D, 0x61, 0x1b, 0x5B, 0x63, 0x62, 0x1b, 0x5D, 0x32]).1 =
      ((stripTerminalQueriesStateful
        [0x1b, 0x5B, 0x31, 0x6D, 0x61, 0x1b, 0x5B, 0x63, 0x62, 0x1b, 0x5D, 0x32]).1, []) :=
  strip_output_stripped (by decide)

/-- Between `ESC [` and `c` a query is removed, and the two make another one. -/
theorem strip_leaves_query :
    stripTerminalQueriesStateful [0x1b, 0x5B, 0x1b, 0x5B, 0x63, 0x63] = ([0x1b, 0x5B, 0x63], []) ∧
      stripTerminalQueriesStateful [0x1b, 0x5B, 0x63] = ([], []) := by
  have hempty : stripTerminalQueriesStateful [] = ([], []) := by
    rw [stripTerminalQueriesStateful]
  have hinner : decision 0x1b [0x5B, 0x63, 0x63] = .strip 3 := by decide
  have houter : decision 0x1b [0x5B, 0x63] = .strip 3 := by decide
  constructor
  · rw [strip_kept (by decide), strip_kept (by decide), strip_removed hinner,
      show [0x1b, 0x5B, 0x63, 0x63].drop 3 = ([0x63] : Bytes) from rfl, strip_kept (by decide),
      hempty]
  · rw [strip_removed houter]
    exact hempty

end MoshTcp.Ansi
