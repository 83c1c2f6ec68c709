import Mathlib.Data.List.Basic

/-! The last code word in a stream. Every word of a `Code` starts with the same mark, which
occurs nowhere else in a word, so two occurrences never overlap and "last" has one meaning.
`Cut` is what a boundary in the stream can hide: a word with a part on each side. -/

set_option autoImplicit false

namespace MoshTcp.MarkedWords

structure Code (α β : Type) where
  all : List β
  mark : α
  body : β → List α
  complete : ∀ b, b ∈ all
  mark_once : ∀ b, mark ∉ body b
  prefix_free : ∀ a b, body a <+: body b → a = b

variable {α β : Type}

def Code.word (C : Code α β) (b : β) : List α := C.mark :: C.body b

/-- The word `b` starts inside `xs` and ends inside `ys`. -/
def Code.Cut (C : Code α β) (xs ys : List α) (b : β) : Prop :=
  ∃ u v, u ≠ [] ∧ v ≠ [] ∧ u <:+ xs ∧ v <+: ys ∧ u ++ v = C.word b

section Cut
variable {C : Code α β} {xs ys u v : List α} {b : β}

/-- The first part of a cut word starts with its mark, and neither part has another one. -/
theorem Code.cut_parts (hu : u ≠ []) (huv : u ++ v = C.word b) :
    (∃ tail, u = C.mark :: tail ∧ C.mark ∉ tail) ∧ C.mark ∉ v := by
  cases u with
  | nil => exact absurd rfl hu
  | cons x u =>
    rw [List.cons_append, word, List.cons.injEq] at huv
    obtain ⟨rfl, hbody⟩ := huv
    have hnot := C.mark_once b
    rw [← hbody, List.mem_append, not_or] at hnot
    exact ⟨⟨u, rfl, hnot.1⟩, hnot.2⟩

theorem Code.not_cut_of_mark : ¬ C.Cut xs (C.mark :: ys) b := by
  intro h
  obtain ⟨u, v, hu, hv, -, hvy, huv⟩ := h
  cases v with
  | nil => exact hv rfl
  | cons y v =>
    have hy : y = C.mark := (List.cons_prefix_cons.1 hvy).1
    exact (cut_parts hu huv).2 (hy ▸ List.mem_cons_self ..)

/-- Only the last mark before a boundary can start a word that is cut there. -/
theorem Code.not_cut_of_last_mark {tail : List α} (ht : C.mark ∉ tail)
    (hw : ¬ C.mark :: tail <+: C.word b) : ¬ C.Cut (xs ++ C.mark :: tail) ys b := by
  intro h
  obtain ⟨u, v, hu, -, hux, -, huv⟩ := h
  obtain ⟨⟨tail', rfl, ht'⟩, -⟩ := cut_parts hu huv
  have heq : tail' = tail := by
    rcases List.suffix_or_suffix_of_suffix hux (List.suffix_append xs (C.mark :: tail)) with h | h
    · rcases List.suffix_cons_iff.1 h with h | h
      · exact (List.cons.inj h).2
      · exact absurd (h.subset (List.mem_cons_self ..)) ht
    · rcases List.suffix_cons_iff.1 h with h | h
      · exact (List.cons.inj h).2.symm
      · exact absurd (h.subset (List.mem_cons_self ..)) ht'
  exact hw (heq ▸ huv ▸ List.prefix_append _ _)

theorem Code.Cut.mono {zs : List α} (h : C.Cut xs ys b) (hz : ys <+: zs) : C.Cut xs zs b := by
  obtain ⟨u, v, hu, hv, hux, hvy, huv⟩ := h
  exact ⟨u, v, hu, hv, hux, hvy.trans hz, huv⟩

/-- No continuation of `xs` completes a word that starts in `xs`. -/
def Code.Closed (C : Code α β) (xs : List α) : Prop := ∀ ys b, ¬ C.Cut xs ys b

theorem Code.closed_nil : C.Closed [] := by
  intro ys b h
  obtain ⟨u, -, hu, -, hux, -⟩ := h
  exact hu (List.suffix_nil.1 hux)

end Cut

variable [DecidableEq α]

def Code.headWord (C : Code α β) (xs : List α) : Option β :=
  C.all.find? fun b => (C.word b).isPrefixOf xs

def Code.lastWord (C : Code α β) : List α → Option β
  | [] => none
  | x :: xs => (C.lastWord xs).or (C.headWord (x :: xs))

variable {C : Code α β} {xs ys : List α} {b : β}

theorem Code.headWord_eq_some : C.headWord xs = some b ↔ C.word b <+: xs := by
  constructor
  · intro h
    simpa using List.find?_some h
  · intro h
    obtain ⟨a, ha⟩ : ∃ a, C.headWord xs = some a := by
      rw [← Option.isSome_iff_exists, headWord, List.find?_isSome]
      exact ⟨b, C.complete b, by simpa using h⟩
    have hpre : C.word a <+: xs := by simpa using List.find?_some ha
    -- of two words at the same place one is a prefix of the other
    rcases List.prefix_or_prefix_of_prefix hpre h with hab | hba
    · rw [ha, C.prefix_free a b (List.cons_prefix_cons.1 hab).2]
    · rw [ha, C.prefix_free b a (List.cons_prefix_cons.1 hba).2]

theorem Code.headWord_eq_none : C.headWord xs = none ↔ ∀ b, ¬ C.word b <+: xs := by
  constructor
  · intro h b hb
    simp [headWord_eq_some.2 hb] at h
  · intro h
    cases hx : C.headWord xs with
    | none => rfl
    | some b => exact absurd (headWord_eq_some.1 hx) (h b)

theorem Code.headWord_congr (h : ∀ b, C.word b <+: xs ↔ C.word b <+: ys) :
    C.headWord xs = C.headWord ys := by
  cases hx : C.headWord xs with
  | none => exact (headWord_eq_none.2 fun b hb => headWord_eq_none.1 hx b ((h b).2 hb)).symm
  | some b => exact (headWord_eq_some.2 ((h b).1 (headWord_eq_some.1 hx))).symm

theorem Code.lastWord_infix (h : C.lastWord xs = some b) : C.word b <:+: xs := by
  induction xs with
  | nil => simp [lastWord] at h
  | cons x xs ih =>
    rw [lastWord, Option.or_eq_some_iff] at h
    rcases h with h | ⟨-, h⟩
    · exact List.infix_cons (ih h)
    · exact (headWord_eq_some.1 h).isInfix

theorem Code.lastWord_eq_none : C.lastWord xs = none ↔ ∀ b, ¬ C.word b <:+: xs := by
  induction xs with
  | nil => simp [lastWord, word]
  | cons x xs ih =>
    rw [lastWord, Option.or_eq_none_iff, ih, headWord_eq_none]
    simp only [List.infix_cons_iff, not_or]
    exact ⟨fun h b => ⟨h.2 b, h.1 b⟩, fun h => ⟨fun b => (h b).2, fun b => (h b).1⟩⟩

theorem Code.lastWord_of_not_mem (h : C.mark ∉ xs) : C.lastWord xs = none :=
  lastWord_eq_none.2 fun _ hb => h (hb.subset (List.mem_cons_self ..))

theorem Code.lastWord_append_some (h : C.lastWord ys = some b) :
    C.lastWord (xs ++ ys) = some b := by
  induction xs with
  | nil => exact h
  | cons x xs ih => simp [lastWord, ih]

/-- Without a cut word, the words of the parts are the words of the whole. -/
theorem Code.lastWord_append (h : ∀ b, ¬ C.Cut xs ys b) :
    C.lastWord (xs ++ ys) = (C.lastWord ys).or (C.lastWord xs) := by
  induction xs with
  | nil => simp [lastWord]
  | cons x xs ih =>
    have htail : ∀ b, ¬ C.Cut xs ys b := by
      intro b hb
      obtain ⟨u, v, hu, hv, hux, hvy, huv⟩ := hb
      exact h b ⟨u, v, hu, hv, hux.trans (List.suffix_cons x xs), hvy, huv⟩
    have hhead : C.headWord (x :: (xs ++ ys)) = C.headWord (x :: xs) := by
      refine headWord_congr fun b => ⟨fun hb => ?_, fun hb => hb.trans ?_⟩
      · rcases List.prefix_or_prefix_of_prefix hb (List.prefix_append (x :: xs) ys) with hw | hw
        · exact hw
        · obtain ⟨v, hv⟩ := hw
          cases v with
          | nil => exact ⟨[], by simp [← hv]⟩
          | cons y v =>
            rw [← hv, ← List.cons_append, List.prefix_append_right_inj] at hb
            exact absurd ⟨x :: xs, y :: v, by simp, by simp, List.suffix_rfl, hb, hv⟩ (h b)
      · exact List.prefix_append (x :: xs) ys
    rw [List.cons_append, lastWord, ih htail, hhead, lastWord, Option.or_assoc]

theorem Code.lastWord_append_mark (h : C.lastWord (C.mark :: ys) = none) :
    C.lastWord (xs ++ C.mark :: ys) = C.lastWord xs := by
  rw [lastWord_append fun _ => not_cut_of_mark, h, Option.none_or]

/-- A word cut by the boundary is the last one when the second part has none of its own. -/
theorem Code.lastWord_append_cut (hy : C.lastWord ys = none) (h : C.Cut xs ys b) :
    C.lastWord (xs ++ ys) = some b := by
  obtain ⟨u, v, hu, -, ⟨front, rfl⟩, hv, huv⟩ := h
  obtain ⟨⟨tail, rfl, ht⟩, -⟩ := cut_parts hu huv
  have hrest : C.lastWord (tail ++ ys) = none := by
    rw [lastWord_append, hy, lastWord_of_not_mem ht, Option.none_or]
    intro a ha
    obtain ⟨u', v', hu', -, hsuf, -, heq⟩ := ha
    obtain ⟨⟨tail', rfl, -⟩, -⟩ := cut_parts hu' heq
    exact ht (hsuf.subset (List.mem_cons_self ..))
  have hhead : C.word b <+: C.mark :: (tail ++ ys) := by
    rw [← huv, ← List.cons_append]
    exact (List.prefix_append_right_inj _).2 hv
  rw [List.append_assoc]
  apply lastWord_append_some
  rw [List.cons_append, lastWord, hrest, Option.none_or, headWord_eq_some]
  exact hhead

end MoshTcp.MarkedWords
