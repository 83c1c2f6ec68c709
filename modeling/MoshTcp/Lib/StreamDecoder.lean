import Mathlib.Data.List.Basic

/-! Incremental decoders over a growing buffer. A call looks at the whole buffer and
either asks for more input, takes one item off the front, or fails. The laws carried
by `Decoder` are what makes the outcome independent of where the input was cut. -/

set_option autoImplicit false

namespace MoshTcp.StreamDecoder

structure Decoder (α β ε : Type) where
  decode : List α → Except ε (Option β) × List α
  none_keeps : ∀ {buf rest}, decode buf = (.ok none, rest) → rest = buf
  some_shrinks : ∀ {buf b rest}, decode buf = (.ok (some b), rest) → rest.length < buf.length
  some_append : ∀ {buf b rest} (more : List α), decode buf = (.ok (some b), rest) →
    decode (buf ++ more) = (.ok (some b), rest ++ more)
  error_append : ∀ {buf e rest} (more : List α), decode buf = (.error e, rest) →
    decode (buf ++ more) = (.error e, rest ++ more)

/-- What a caller has after calling `decode` until it stops yielding items. -/
structure Drained (α β ε : Type) where
  items : List β
  rest : List α
  error : Option ε
  deriving DecidableEq, Repr

def Drained.after {α β ε : Type} (bs : List β) (d : Drained α β ε) : Drained α β ε :=
  { d with items := bs ++ d.items }

def Decoder.drain {α β ε : Type} (D : Decoder α β ε) (buf : List α) : Drained α β ε :=
  match _h : D.decode buf with
  | (.ok none, rest) => ⟨[], rest, none⟩
  | (.ok (some b), rest) => (D.drain rest).after [b]
  | (.error e, rest) => ⟨[], rest, some e⟩
termination_by buf.length
decreasing_by exact D.some_shrinks ‹_›

/-- The caller appends one chunk, drains, and goes on with what is left. An error
ends the stream. -/
def Decoder.feed {α β ε : Type} (D : Decoder α β ε) (buf : List α) :
    List (List α) → Drained α β ε
  | [] => ⟨[], buf, none⟩
  | c :: cs =>
    let d := D.drain (buf ++ c)
    match d.error with
    | some _ => d
    | none => (D.feed d.rest cs).after d.items

variable {α β ε : Type} (D : Decoder α β ε)

theorem Decoder.drain_none {buf : List α} (h : D.decode buf = (.ok none, buf)) :
    D.drain buf = ⟨[], buf, none⟩ := by
  rw [drain]
  split <;> simp_all

theorem Decoder.drain_some {buf rest : List α} {b : β}
    (h : D.decode buf = (.ok (some b), rest)) :
    D.drain buf = (D.drain rest).after [b] := by
  rw [drain]
  split <;> simp_all

theorem Decoder.drain_error {buf rest : List α} {e : ε}
    (h : D.decode buf = (.error e, rest)) :
    D.drain buf = ⟨[], rest, some e⟩ := by
  rw [drain]
  split <;> simp_all

/-- Induction along the calls of `drain`: the buffer shrinks with every item. -/
@[elab_as_elim]
theorem Decoder.drain_induction {motive : List α → Prop}
    (error : ∀ {buf rest e}, D.decode buf = (.error e, rest) → motive buf)
    (stop : ∀ {buf}, D.decode buf = (.ok none, buf) → motive buf)
    (item : ∀ {buf rest b}, D.decode buf = (.ok (some b), rest) → motive rest → motive buf)
    (buf : List α) : motive buf := by
  induction hn : buf.length using Nat.strongRecOn generalizing buf with
  | ind n ih =>
    rcases h : D.decode buf with ⟨e | _ | b, rest⟩
    · exact error h
    · obtain rfl := D.none_keeps h
      exact stop h
    · exact item h (ih rest.length (hn ▸ D.some_shrinks h) rest rfl)

theorem Decoder.drain_append (buf more : List α) (hd : (D.drain buf).error = none) :
    D.drain (buf ++ more) =
      (D.drain ((D.drain buf).rest ++ more)).after (D.drain buf).items := by
  induction buf using D.drain_induction with
  | error h =>
    rw [D.drain_error h] at hd
    simp at hd
  | stop h =>
    rw [D.drain_none h]
    rfl
  | item h ih =>
    rw [D.drain_some h] at hd ⊢
    rw [D.drain_some (D.some_append more h), ih hd]
    simp [Drained.after]

theorem Decoder.drain_append_error (buf more : List α) {e : ε}
    (hd : (D.drain buf).error = some e) :
    (D.drain (buf ++ more)).items = (D.drain buf).items ∧
      (D.drain (buf ++ more)).error = some e := by
  induction buf using D.drain_induction with
  | error h =>
    rw [D.drain_error h] at hd ⊢
    rw [D.drain_error (D.error_append more h)]
    exact ⟨rfl, hd⟩
  | stop h =>
    rw [D.drain_none h] at hd
    simp at hd
  | item h ih =>
    rw [D.drain_some h] at hd ⊢
    obtain ⟨hi, he⟩ := ih hd
    rw [D.drain_some (D.some_append more h)]
    exact ⟨by simp [Drained.after, hi], he⟩

/-- A first part of the input yields a first part of the items. -/
theorem Decoder.drain_prefix {buf whole : List α} (h : buf <+: whole) :
    (D.drain buf).items <+: (D.drain whole).items := by
  obtain ⟨more, rfl⟩ := h
  cases he : (D.drain buf).error with
  | some e => exact (D.drain_append_error buf more he).1 ▸ List.prefix_rfl
  | none =>
    rw [D.drain_append buf more he]
    exact List.prefix_append _ _

theorem Decoder.decode_drain_rest (buf : List α) (hd : (D.drain buf).error = none) :
    D.decode (D.drain buf).rest = (.ok none, (D.drain buf).rest) := by
  induction buf using D.drain_induction with
  | error h =>
    rw [D.drain_error h] at hd
    simp at hd
  | stop h =>
    rw [D.drain_none h]
    exact h
  | item h ih =>
    rw [D.drain_some h] at hd ⊢
    exact ih hd

/-- Cutting the input differently changes neither the items nor the error, and while
there is no error it does not change what is left in the buffer. -/
theorem Decoder.feed_eq_drain (buf : List α) (chunks : List (List α))
    (hb : D.decode buf = (.ok none, buf)) :
    (D.feed buf chunks).items = (D.drain (buf ++ chunks.flatten)).items ∧
      (D.feed buf chunks).error = (D.drain (buf ++ chunks.flatten)).error ∧
      ((D.feed buf chunks).error = none →
        (D.feed buf chunks).rest = (D.drain (buf ++ chunks.flatten)).rest) := by
  induction chunks generalizing buf with
  | nil => simp [feed, D.drain_none hb]
  | cons c cs ih =>
    have hf : buf ++ (c :: cs).flatten = (buf ++ c) ++ cs.flatten := by simp
    rw [hf]
    cases he : (D.drain (buf ++ c)).error with
    | some e =>
      obtain ⟨hi, hx⟩ := D.drain_append_error (buf ++ c) cs.flatten he
      have hfeed : D.feed buf (c :: cs) = D.drain (buf ++ c) := by simp [feed, he]
      rw [hfeed, he, hi, hx]
      simp
    | none =>
      have hrest := D.decode_drain_rest (buf ++ c) he
      obtain ⟨hi, hx, hr⟩ := ih (D.drain (buf ++ c)).rest hrest
      have hfeed : D.feed buf (c :: cs) =
          (D.feed (D.drain (buf ++ c)).rest cs).after (D.drain (buf ++ c)).items := by
        simp [feed, he]
      rw [hfeed, D.drain_append (buf ++ c) cs.flatten he]
      exact ⟨by simp [Drained.after, hi], hx, hr⟩

end MoshTcp.StreamDecoder
