import Mathlib.Data.List.TakeWhile

/-! Cutting a list into words separated by blanks, and into records that end with a mark.
Both cuts are one pass with the piece being read. -/

set_option autoImplicit false

namespace MoshTcp.Words

variable {α β : Type}

def wordsFrom (blank : α → Bool) : List α → List α → List (List α)
  | word, [] => if word.isEmpty then [] else [word]
  | word, a :: as =>
    if blank a then
      if word.isEmpty then wordsFrom blank [] as else word :: wordsFrom blank [] as
    else wordsFrom blank (word ++ [a]) as

/-- The maximal pieces of `as` without a blank. -/
def words (blank : α → Bool) (as : List α) : List (List α) := wordsFrom blank [] as

def recordsFrom (mark : α → Bool) : List α → List α → List (List α)
  | record, [] => if record.isEmpty then [] else [record]
  | record, a :: as =>
    if mark a then (record ++ [a]) :: recordsFrom mark [] as
    else recordsFrom mark (record ++ [a]) as

/-- `as` cut behind every mark. -/
def records (mark : α → Bool) (as : List α) : List (List α) := recordsFrom mark [] as

def chunksFrom (mark : α → Bool) (size : Nat) : List α → List α → List (List α)
  | chunk, [] => if chunk.isEmpty then [] else [chunk]
  | chunk, a :: as =>
    if mark a || chunk.length + 1 == size then (chunk ++ [a]) :: chunksFrom mark size [] as
    else chunksFrom mark size (chunk ++ [a]) as

/-- `as` cut behind every mark, and wherever a piece has reached `size`. -/
def chunks (mark : α → Bool) (size : Nat) (as : List α) : List (List α) :=
  chunksFrom mark size [] as

section Words
variable {blank : α → Bool} {as pre word rest : List α}

theorem wordsFrom_word (hword : ∀ a ∈ word, blank a = false) (open_ rest : List α) :
    wordsFrom blank open_ (word ++ rest) = wordsFrom blank (open_ ++ word) rest := by
  induction word generalizing open_ with
  | nil => simp
  | cons a word ih =>
    rw [List.cons_append, wordsFrom, if_neg (by simp [hword a (by simp)]),
      ih (fun b hb => hword b (by simp [hb])), List.append_assoc, List.singleton_append]

theorem words_cons_blank {a : α} (ha : blank a = true) (as : List α) :
    words blank (a :: as) = words blank as := by
  simp [words, wordsFrom, ha]

theorem words_blank_append (hpre : ∀ a ∈ pre, blank a = true) (rest : List α) :
    words blank (pre ++ rest) = words blank rest := by
  induction pre with
  | nil => rfl
  | cons a pre ih =>
    rw [List.cons_append, words_cons_blank (hpre a (by simp))]
    exact ih fun b hb => hpre b (by simp [hb])

theorem words_of_blank (has : ∀ a ∈ as, blank a = true) : words blank as = [] := by
  rw [← List.append_nil as, words_blank_append has]
  rfl

/-- A word and what comes behind it. -/
theorem words_word_append (hne : word ≠ []) (hword : ∀ a ∈ word, blank a = false)
    (hrest : ∀ a ∈ rest.head?, blank a = true) :
    words blank (word ++ rest) = word :: words blank rest := by
  rw [words, wordsFrom_word hword, List.nil_append]
  cases rest with
  | nil => simp [wordsFrom, hne, words]
  | cons a rest =>
    have ha := hrest a rfl
    have hne' : ¬ word.isEmpty = true := by simpa using hne
    rw [wordsFrom, if_pos ha, if_neg hne', words_cons_blank ha, words]

/-- Either there is no word, or a first one with blanks in front of it. -/
theorem words_cases (blank : α → Bool) (as : List α) :
    (words blank as = [] ∧ ∀ a ∈ as, blank a = true) ∨
      ∃ pre word rest, as = pre ++ (word ++ rest) ∧ (∀ a ∈ pre, blank a = true) ∧ word ≠ [] ∧
        (∀ a ∈ word, blank a = false) ∧ (∀ a ∈ rest.head?, blank a = true) ∧
        words blank as = word :: words blank rest := by
  have hpre : ∀ a ∈ as.takeWhile blank, blank a = true := fun a ha => List.mem_takeWhile_imp ha
  have hsplit : as.takeWhile blank ++ as.dropWhile blank = as := List.takeWhile_append_dropWhile
  cases hmid : as.dropWhile blank with
  | nil =>
    rw [hmid, List.append_nil] at hsplit
    rw [hsplit] at hpre
    exact .inl ⟨words_of_blank hpre, hpre⟩
  | cons b mid =>
    have hb : blank b = false := by
      have := List.head?_dropWhile_not blank as
      simpa [hmid] using this
    have hmid' := List.takeWhile_append_dropWhile (p := fun a => !blank a) (l := b :: mid)
    have hword : ∀ a ∈ (b :: mid).takeWhile (fun a => !blank a), blank a = false := by
      intro a ha
      simpa using List.mem_takeWhile_imp ha
    have hne : (b :: mid).takeWhile (fun a => !blank a) ≠ [] := by simp [hb]
    have hrest : ∀ a ∈ ((b :: mid).dropWhile fun a => !blank a).head?, blank a = true := by
      intro a ha
      have := List.head?_dropWhile_not (fun a => !blank a) (b :: mid)
      rw [Option.mem_def.1 ha] at this
      simpa using this
    refine .inr ⟨_, _, _, ?_, hpre, hne, hword, hrest, ?_⟩
    · rw [hmid', ← hmid, hsplit]
    · rw [← words_word_append hne hword hrest, hmid', ← hmid,
        ← words_blank_append hpre (as.dropWhile blank), hsplit]

theorem words_eq_nil_iff : words blank as = [] ↔ ∀ a ∈ as, blank a = true := by
  constructor
  · intro h
    obtain ⟨-, hall⟩ | ⟨pre, word, rest, -, -, -, -, -, hw⟩ := words_cases blank as
    · exact hall
    · simp [h] at hw
  · exact words_of_blank

theorem words_eq_cons {ws : List (List α)} (h : words blank as = word :: ws) :
    ∃ pre rest, as = pre ++ (word ++ rest) ∧ (∀ a ∈ pre, blank a = true) ∧ word ≠ [] ∧
      (∀ a ∈ word, blank a = false) ∧ (∀ a ∈ rest.head?, blank a = true) ∧
      words blank rest = ws := by
  obtain ⟨hnil, -⟩ | ⟨pre, word', rest, has, hpre, hne, hword, hrest, hw⟩ := words_cases blank as
  · simp [hnil] at h
  · obtain ⟨rfl, rfl⟩ : word' = word ∧ words blank rest = ws := by
      rw [h] at hw
      injection hw with h1 h2
      exact ⟨h1.symm, h2.symm⟩
    exact ⟨pre, rest, has, hpre, hne, hword, hrest, rfl⟩

theorem wordsFrom_mem (open_ as : List α) :
    ∀ w ∈ wordsFrom blank open_ as, w ≠ [] ∧ ∀ a ∈ w, a ∈ open_ ++ as := by
  induction as generalizing open_ with
  | nil =>
    intro w hw
    rw [wordsFrom] at hw
    split at hw
    · simp at hw
    · rename_i hne
      obtain rfl := List.mem_singleton.1 hw
      exact ⟨by simpa using hne, by simp⟩
  | cons b as ih =>
    intro w hw
    have later : w ∈ wordsFrom blank [] as → w ≠ [] ∧ ∀ a ∈ w, a ∈ open_ ++ b :: as := by
      intro hw
      obtain ⟨hne, hmem⟩ := ih [] w hw
      exact ⟨hne, fun a ha => by simp [show a ∈ as from hmem a ha]⟩
    rw [wordsFrom] at hw
    split at hw
    · split at hw
      · exact later hw
      · rename_i hne
        rw [List.mem_cons] at hw
        cases hw with
        | inl hw => exact ⟨by simpa [hw] using hne, fun a ha => by simp [hw ▸ ha]⟩
        | inr hw => exact later hw
    · obtain ⟨hne, hmem⟩ := ih (open_ ++ [b]) w hw
      exact ⟨hne, fun a ha => by simpa using hmem a ha⟩

theorem words_ne_nil : ∀ w ∈ words blank as, w ≠ [] := fun w hw => (wordsFrom_mem [] as w hw).1

theorem mem_of_mem_words {w : List α} (hw : w ∈ words blank as) : ∀ a ∈ w, a ∈ as :=
  (wordsFrom_mem [] as w hw).2

theorem wordsFrom_append_blank (hrest : ∀ a ∈ rest, blank a = true) (open_ as : List α) :
    wordsFrom blank open_ (as ++ rest) = wordsFrom blank open_ as := by
  induction as generalizing open_ with
  | nil =>
    cases rest with
    | nil => rfl
    | cons a rest =>
      have hnil : words blank rest = [] := words_of_blank fun b hb => hrest b (by simp [hb])
      rw [words] at hnil
      simp only [List.nil_append, wordsFrom, hrest a (by simp), hnil, if_true]
  | cons a as ih =>
    rw [List.cons_append, wordsFrom, wordsFrom, ih, ih]

theorem words_append_blank (hrest : ∀ a ∈ rest, blank a = true) (as : List α) :
    words blank (as ++ rest) = words blank as := wordsFrom_append_blank hrest [] as

theorem wordsFrom_map {blank' : β → Bool} {f : α → β} (has : ∀ a ∈ as, blank' (f a) = blank a)
    (open_ : List α) :
    wordsFrom blank' (open_.map f) (as.map f) =
      (wordsFrom blank open_ as).map (List.map f) := by
  induction as generalizing open_ with
  | nil => cases open_ <;> simp [wordsFrom]
  | cons a as ih =>
    have ih' := ih fun b hb => has b (by simp [hb])
    rw [List.map_cons, wordsFrom, wordsFrom, has a (by simp)]
    by_cases ha : blank a = true
    · have hnil := ih' []
      rw [List.map_nil] at hnil
      cases open_ <;> simp [ha, hnil]
    · have hsnoc := ih' (open_ ++ [a])
      rw [List.map_append, List.map_singleton] at hsnoc
      rw [if_neg ha, if_neg ha, hsnoc]

theorem words_map {blank' : β → Bool} {f : α → β} (has : ∀ a ∈ as, blank' (f a) = blank a) :
    words blank' (as.map f) = (words blank as).map (List.map f) := wordsFrom_map has []

end Words

/-! ### Records -/

section Records
variable {mark : α → Bool} {size : Nat}

theorem recordsFrom_append {piece : List α} (hpiece : ∀ a ∈ piece, mark a = false)
    (open_ rest : List α) :
    recordsFrom mark open_ (piece ++ rest) = recordsFrom mark (open_ ++ piece) rest := by
  induction piece generalizing open_ with
  | nil => simp
  | cons a piece ih =>
    rw [List.cons_append, recordsFrom, if_neg (by simp [hpiece a (by simp)]),
      ih (fun b hb => hpiece b (by simp [hb])), List.append_assoc, List.singleton_append]

/-- The first record, when it is complete. -/
theorem records_append {piece : List α} {m : α} (hpiece : ∀ a ∈ piece, mark a = false)
    (hm : mark m = true) (rest : List α) :
    records mark (piece ++ m :: rest) = (piece ++ [m]) :: records mark rest := by
  rw [records, recordsFrom_append hpiece, List.nil_append, recordsFrom, if_pos hm, records]

theorem exists_longer_record (mark : α → Bool) (a : α) (open_ as : List α) :
    ∃ record ∈ recordsFrom mark open_ (a :: as), open_.length < record.length := by
  induction as generalizing open_ a with
  | nil =>
    refine ⟨open_ ++ [a], ?_, by simp⟩
    by_cases ha : mark a = true <;> simp [recordsFrom, ha]
  | cons b as ih =>
    by_cases ha : mark a = true
    · exact ⟨open_ ++ [a], by simp [recordsFrom, ha], by simp⟩
    · obtain ⟨record, hrecord, hlen⟩ := ih b (open_ ++ [a])
      refine ⟨record, by rwa [recordsFrom, if_neg ha], ?_⟩
      rw [List.length_append] at hlen
      omega

theorem chunksFrom_eq_recordsFrom (open_ as : List α)
    (h : ∀ record ∈ recordsFrom mark open_ as, record.length ≤ size) :
    chunksFrom mark size open_ as = recordsFrom mark open_ as := by
  induction as generalizing open_ with
  | nil => rfl
  | cons a as ih =>
    by_cases ha : mark a = true
    · rw [recordsFrom, if_pos ha] at h ⊢
      rw [chunksFrom, if_pos (by simp [ha]), ih [] fun r hr => h r (by simp [hr])]
    · rw [recordsFrom, if_neg ha] at h ⊢
      by_cases hsize : open_.length + 1 = size
      -- the record is as long as it may be, so nothing comes behind it
      · cases as with
        | nil => simp [chunksFrom, recordsFrom, hsize]
        | cons b as =>
          obtain ⟨record, hrecord, hlen⟩ := exists_longer_record mark b (open_ ++ [a]) as
          have := h record hrecord
          simp only [List.length_append, List.length_singleton] at hlen
          omega
      · rw [chunksFrom, if_neg (by simp [ha, hsize]), ih (open_ ++ [a]) h]

/-- Records that fit are not cut. -/
theorem chunks_eq_records {as : List α} (h : ∀ record ∈ records mark as, record.length ≤ size) :
    chunks mark size as = records mark as := chunksFrom_eq_recordsFrom [] as h

end Records

end MoshTcp.Words
