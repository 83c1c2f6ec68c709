import MoshTcp.AnsiQueries

/-! The query stripper on well-formed streams. A sequence that is kept is not skipped: the
loop pushes its ESC and reads on at its second byte. -/

set_option autoImplicit false

namespace MoshTcp.Ansi
open ByteOrder

inductive Terminator where
  | bel | st
  deriving DecidableEq, Repr

def Terminator.bytes : Terminator → Bytes
  | .bel => [0x07]
  | .st => [0x1b, 0x5C]

inductive Token where
  | plain (b : UInt8) (h : b ≠ 0x1b)
  | csi (params : Bytes) (final : UInt8)
      (hparams : ∀ b ∈ params, ¬ (0x40 ≤ b ∧ b ≤ 0x7E) ∧ b ≠ 0x1b)
      (hfinal : 0x40 ≤ final ∧ final ≤ 0x7E)
  | osc (body : Bytes) (hbody : ∀ b ∈ body, b ≠ 0x1b ∧ b ≠ 0x07) (term : Terminator)
  | dcs (body : Bytes) (hbody : ∀ b ∈ body, b ≠ 0x1b ∧ b ≠ 0x07) (term : Terminator)
  | escape (x : UInt8) (h : x ≠ 0x1b ∧ x ≠ 0x5B ∧ x ≠ 0x5D ∧ x ≠ 0x50)

def Token.bytes : Token → Bytes
  | .plain b _ => [b]
  | .csi params final _ _ => 0x1b :: 0x5B :: (params ++ [final])
  | .osc body _ term => 0x1b :: 0x5D :: (body ++ term.bytes)
  | .dcs body _ term => 0x1b :: 0x50 :: (body ++ term.bytes)
  | .escape x _ => [0x1b, x]

/-- The device attribute, version and cursor position queries, as parameters and final byte. -/
def listedCsiQueries : List (Bytes × UInt8) :=
  [([], 0x63), ([0x30], 0x63), ([0x3F], 0x63), ([0x3E], 0x63), ([0x3E, 0x30], 0x63),
    ([0x3E, 0x31], 0x63), ([0x3D], 0x63), ([0x3D, 0x30], 0x63), ([0x3E], 0x71), ([], 0x71),
    ([0x36], 0x6E), ([0x3F, 0x36], 0x6E)]

def Token.isQuery : Token → Bool
  | .plain _ _ => false
  | .csi params final _ _ => listedCsiQueries.contains (params, final) ||
      (params.head? == some 0x3F && (final == 0x63 || final == 0x6E))
  | .osc body _ _ => [0x34, 0x3B].isPrefixOf body || [0x31, 0x30, 0x3B].isPrefixOf body ||
      [0x31, 0x31, 0x3B].isPrefixOf body || [0x31, 0x32, 0x3B].isPrefixOf body ||
      body.contains 0x3F
  | .dcs body _ _ => body.contains 0x24
  | .escape _ _ => false

theorem stLength_body {body : Bytes} (hbody : ∀ b ∈ body, b ≠ 0x1b ∧ b ≠ 0x07)
    (term : Terminator) (rest : Bytes) :
    stLength (body ++ term.bytes ++ rest) = some (body ++ term.bytes).length := by
  induction body with
  | nil => cases term <;> simp [stLength, Terminator.bytes]
  | cons b body ih =>
    have hb := hbody b List.mem_cons_self
    simp only [List.cons_append, stLength, hb.1, hb.2, false_and, if_false,
      ih fun c hc => hbody c (List.mem_cons_of_mem b hc)]
    rfl

theorem finalLength_params {params : Bytes}
    (hparams : ∀ b ∈ params, ¬ (0x40 ≤ b ∧ b ≤ 0x7E) ∧ b ≠ 0x1b) {final : UInt8}
    (hfinal : 0x40 ≤ final ∧ final ≤ 0x7E) (rest : Bytes) :
    finalLength (params ++ [final] ++ rest) = some (params ++ [final]).length := by
  induction params with
  | nil => simp [finalLength, hfinal]
  | cons b params ih =>
    have hb := hparams b List.mem_cons_self
    simp only [List.cons_append, finalLength, hb.1, if_false,
      ih fun c hc => hparams c (List.mem_cons_of_mem b hc)]
    rfl

/-- The terminator completes no introducer of a query. -/
theorem isPrefixOf_body {pre : Bytes} (hpre : ∀ b ∈ pre, b ≠ 0x07 ∧ b ≠ 0x1b) (body : Bytes)
    (term : Terminator) : pre.isPrefixOf (body ++ term.bytes) = pre.isPrefixOf body := by
  induction pre generalizing body with
  | nil => simp
  | cons a pre ih =>
    have ha := hpre a List.mem_cons_self
    cases body with
    | nil => cases term <;> simp [Terminator.bytes, List.isPrefixOf, ha.1, ha.2]
    | cons b body =>
      simp only [List.cons_append, List.isPrefixOf,
        ih (fun c hc => hpre c (List.mem_cons_of_mem a hc))]

theorem contains_body {b : UInt8} (h7 : b ≠ 0x07) (h1b : b ≠ 0x1b) (h5c : b ≠ 0x5C)
    (body : Bytes) (term : Terminator) : (body ++ term.bytes).contains b = body.contains b := by
  cases term <;> simp [Terminator.bytes, h7, h1b, h5c]

theorem mem_of_hasWindow {a : UInt8} {needle bs : Bytes}
    (h : hasWindow (a :: needle) bs = true) : a ∈ bs := by
  induction bs with
  | nil => simp [hasWindow] at h
  | cons b bs ih =>
    simp only [hasWindow, List.isPrefixOf, Bool.or_eq_true, Bool.and_eq_true, beq_iff_eq] at h
    cases h with
    | inl h => simp [h.1]
    | inr h => exact List.mem_cons_of_mem b (ih h)

theorem isOscQuery_body (body : Bytes) (hbody : ∀ b ∈ body, b ≠ 0x1b ∧ b ≠ 0x07)
    (term : Terminator) : isOscQuery (0x1b :: 0x5D :: (body ++ term.bytes)) =
      (Token.osc body hbody term).isQuery := by
  have hmark : (0x1b :: 0x5D :: (body ++ term.bytes)).contains 0x3F = body.contains 0x3F := by
    rw [← contains_body (by decide) (by decide) (by decide) body term]
    simp
  have hpre : ∀ pre : Bytes, (∀ b ∈ pre, b ≠ 0x07 ∧ b ≠ 0x1b) →
      (0x1b :: 0x5D :: pre).isPrefixOf (0x1b :: 0x5D :: (body ++ term.bytes)) =
        pre.isPrefixOf body := by
    intro pre h
    rw [← isPrefixOf_body h body term]
    simp [List.isPrefixOf]
  rw [isOscQuery, hmark, hpre _ (by simp), hpre _ (by simp), hpre _ (by simp),
    hpre _ (by simp), Token.isQuery]
  ac_rfl

theorem isDcsQuery_body (body : Bytes) (hbody : ∀ b ∈ body, b ≠ 0x1b ∧ b ≠ 0x07)
    (term : Terminator) : isDcsQuery (0x1b :: 0x50 :: (body ++ term.bytes)) =
      (Token.dcs body hbody term).isQuery := by
  have hmark : (0x1b :: 0x50 :: (body ++ term.bytes)).contains 0x24 = body.contains 0x24 := by
    rw [← contains_body (by decide) (by decide) (by decide) body term]
    simp
  -- the window test finds nothing that the test for the first byte of the window does not
  have hwindow : containsSubslice (0x1b :: 0x50 :: (body ++ term.bytes)) [0x24, 0x71] = true →
      (0x1b :: 0x50 :: (body ++ term.bytes)).contains 0x24 = true := by
    intro h
    simp only [containsSubslice, List.isEmpty_cons, Bool.false_or] at h
    exact List.contains_iff_mem.2 (mem_of_hasWindow h)
  rw [isDcsQuery, Token.isQuery, ← hmark]
  cases hw : containsSubslice (0x1b :: 0x50 :: (body ++ term.bytes)) [0x24, 0x71] with
  | false => exact Bool.false_or _
  | true => rw [hwindow hw, Bool.or_self]

theorem isCsiQuery_body (params : Bytes) (final : UInt8)
    (hparams : ∀ b ∈ params, ¬ (0x40 ≤ b ∧ b ≤ 0x7E) ∧ b ≠ 0x1b)
    (hfinal : 0x40 ≤ final ∧ final ≤ 0x7E) : isCsiQuery (0x1b :: 0x5B :: (params ++ [final])) =
      (Token.csi params final hparams hfinal).isQuery := by
  have hlisted : ∀ (ps : Bytes) (f : UInt8),
      ((0x1b :: 0x5B :: (params ++ [final]) : Bytes) == 0x1b :: 0x5B :: (ps ++ [f])) =
        ((params, final) == (ps, f)) := by
    intro ps f
    rw [Bool.eq_iff_iff, beq_iff_eq, beq_iff_eq, Prod.mk.injEq]
    simp
  have hmark : ([0x1b, 0x5B, 0x3F] : Bytes).isPrefixOf (0x1b :: 0x5B :: (params ++ [final])) =
      (params.head? == some 0x3F) := by
    cases params with
    | nil =>
      have hne : final ≠ 0x3F := by
        intro h
        rw [h] at hfinal
        exact absurd hfinal.1 (by decide)
      simp [List.isPrefixOf, hne.symm]
    | cons p params => simp [List.isPrefixOf, eq_comm]
  have hlast : ∀ f : UInt8, ([f] : Bytes).isSuffixOf (0x1b :: 0x5B :: (params ++ [final])) =
      (final == f) := by
    intro f
    simp [List.isSuffixOf, List.isPrefixOf, eq_comm]
  rw [isCsiQuery, hmark, hlast, hlast, Token.isQuery, listedCsiQueries]
  simp only [List.contains_cons, List.contains_nil, ← hlisted, List.nil_append, List.cons_append,
    Bool.or_false, Bool.and_or_distrib_left, Bool.or_assoc]

theorem decision_csi (tail : Bytes) : decision 0x1b (0x5B :: tail) =
    judge isCsiQuery (0x1b :: 0x5B :: tail) (finalLength tail) := by
  simp [decision]

theorem decision_osc (tail : Bytes) : decision 0x1b (0x5D :: tail) =
    judge isOscQuery (0x1b :: 0x5D :: tail) (stLength tail) := by
  simp [decision]

theorem decision_dcs (tail : Bytes) : decision 0x1b (0x50 :: tail) =
    judge isDcsQuery (0x1b :: 0x50 :: tail) (stLength tail) := by
  simp [decision]

/-- Bytes other than ESC go through. -/
theorem strip_plain {bs : Bytes} (hbs : ∀ b ∈ bs, b ≠ 0x1b) (rest : Bytes) :
    stripTerminalQueriesStateful (bs ++ rest) =
      (bs ++ (stripTerminalQueriesStateful rest).1, (stripTerminalQueriesStateful rest).2) := by
  induction bs with
  | nil => rfl
  | cons b bs ih =>
    have hkeep : decision b (bs ++ rest) = .keep := by
      simp [decision, hbs b List.mem_cons_self]
    rw [List.cons_append, strip_kept hkeep, ih fun c hc => hbs c (List.mem_cons_of_mem b hc)]
    rfl

theorem strip_terminated {bs : Bytes} (hbs : ∀ b ∈ bs, b ≠ 0x1b) (term : Terminator)
    (rest : Bytes) : stripTerminalQueriesStateful (bs ++ (term.bytes ++ rest)) =
      (bs ++ (term.bytes ++ (stripTerminalQueriesStateful rest).1),
        (stripTerminalQueriesStateful rest).2) := by
  rw [strip_plain hbs]
  cases term with
  | bel =>
    rw [strip_plain (show ∀ b ∈ Terminator.bel.bytes, b ≠ 0x1b by simp [Terminator.bytes])]
  | st =>
    have hkeep : decision 0x1b (0x5C :: rest) = .keep := by simp [decision]
    have hlast : stripTerminalQueriesStateful (0x5C :: rest) =
        (0x5C :: (stripTerminalQueriesStateful rest).1, (stripTerminalQueriesStateful rest).2) :=
      strip_kept (by simp [decision])
    simp only [Terminator.bytes, List.cons_append, List.nil_append]
    rw [strip_kept hkeep, hlast]

theorem judge_body (isQuery : Bytes → Bool) (c : UInt8) (body rest : Bytes) :
    judge isQuery (0x1b :: c :: (body ++ rest)) (some body.length) =
      if isQuery (0x1b :: c :: body) then .strip (2 + body.length) else .keep := by
  have htake : (0x1b :: c :: (body ++ rest)).take (2 + body.length) = 0x1b :: c :: body := by
    rw [Nat.add_comm, List.take_succ_cons, List.take_succ_cons, List.take_left]
  rw [judge, htake]

/-- What the loop does with a sequence, given what it does from the second byte on. -/
theorem strip_sequence {c : UInt8} {body rest : Bytes} {query : Bool}
    (hdecision : decision 0x1b (c :: (body ++ rest)) =
      if query then .strip (2 + body.length) else .keep)
    (hrescan : stripTerminalQueriesStateful (c :: (body ++ rest)) =
      (c :: (body ++ (stripTerminalQueriesStateful rest).1),
        (stripTerminalQueriesStateful rest).2)) :
    stripTerminalQueriesStateful (0x1b :: c :: (body ++ rest)) =
      if query then stripTerminalQueriesStateful rest
      else (0x1b :: c :: (body ++ (stripTerminalQueriesStateful rest).1),
        (stripTerminalQueriesStateful rest).2) := by
  cases query with
  | true =>
    have hdrop : (0x1b :: c :: (body ++ rest)).drop (2 + body.length) = rest := by
      rw [Nat.add_comm, List.drop_succ_cons, List.drop_succ_cons, List.drop_left]
    rw [strip_removed (hdecision.trans (if_pos rfl)), hdrop, if_pos rfl]
  | false => rw [strip_kept (hdecision.trans (if_neg Bool.false_ne_true)), hrescan,
      if_neg Bool.false_ne_true]

theorem strip_token (t : Token) (rest : Bytes) :
    stripTerminalQueriesStateful (t.bytes ++ rest) =
      if t.isQuery then stripTerminalQueriesStateful rest
      else (t.bytes ++ (stripTerminalQueriesStateful rest).1,
        (stripTerminalQueriesStateful rest).2) := by
  cases t with
  | plain b h => exact strip_plain (by simpa [Token.bytes] using h) rest
  | csi params final hparams hfinal =>
    have hne : final ≠ 0x1b := by
      intro h
      rw [h] at hfinal
      exact absurd hfinal.1 (by decide)
    refine strip_sequence ?_ ?_
    · rw [decision_csi, finalLength_params hparams hfinal, judge_body, isCsiQuery_body]
    · have hplain : ∀ b ∈ 0x5B :: (params ++ [final]), b ≠ 0x1b := by
        simpa [or_imp, forall_and, hne] using fun b hb => (hparams b hb).2
      exact strip_plain hplain rest
  | osc body hbody term =>
    refine strip_sequence ?_ ?_
    · rw [decision_osc, stLength_body hbody, judge_body, isOscQuery_body]
    · have hplain : ∀ b ∈ 0x5D :: body, b ≠ 0x1b := by
        simpa using fun b hb => (hbody b hb).1
      simpa using strip_terminated hplain term rest
  | dcs body hbody term =>
    refine strip_sequence ?_ ?_
    · rw [decision_dcs, stLength_body hbody, judge_body, isDcsQuery_body]
    · have hplain : ∀ b ∈ 0x50 :: body, b ≠ 0x1b := by
        simpa using fun b hb => (hbody b hb).1
      simpa using strip_terminated hplain term rest
  | escape x h =>
    have hkeep : decision 0x1b (x :: rest) = .keep := by simp [decision, h]
    have hx : stripTerminalQueriesStateful (x :: rest) =
        (x :: (stripTerminalQueriesStateful rest).1, (stripTerminalQueriesStateful rest).2) :=
      strip_kept (by simp [decision, h])
    simp only [Token.bytes, Token.isQuery, List.cons_append, List.nil_append]
    rw [strip_kept hkeep, hx]
    rfl

/-- On a well-formed stream exactly the queries are removed, and nothing is left over. -/
theorem strip_tokens (tokens : List Token) :
    stripTerminalQueriesStateful (tokens.flatMap Token.bytes) =
      ((tokens.filter fun t => !t.isQuery).flatMap Token.bytes, []) := by
  induction tokens with
  | nil => simp [stripTerminalQueriesStateful]
  | cons t tokens ih =>
    rw [List.flatMap_cons, strip_token, ih]
    cases hq : t.isQuery <;> simp [hq]

end MoshTcp.Ansi
