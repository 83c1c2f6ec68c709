import MoshTcp.PuffReads
import MoshTcp.Lib.PrefixCodes

/-! The tables that `construct` builds, and what `decode` reads with them: the words of the
canonical code, and nothing else. -/

set_option autoImplicit false

namespace MoshTcp.Puff
open ByteOrder BitStreams PrefixCodes Memory

/-- The table of the code with lengths `ls`. -/
structure Represents (h : Huffman) (ls : List Nat) : Prop where
  count : ∀ l ≤ maxBits, load h.count l = some (ls.count l)
  symbol : ∀ i l, HasWord ls i l → load h.symbol (place ls l i) = some i

section Construct
variable {length symbol : Shorts} {ls : List Nat} (hls : Holds length ls)
  (hbound : ∀ l ∈ ls, l ≤ maxBits)

theorem count_take_succ {k l : Nat} (h : ls[k]? = some l) (m : Nat) :
    (ls.take (k + 1)).count m = (ls.take k).count m + if l = m then 1 else 0 := by
  have hsplit : ls.take (k + 1) = ls.take k ++ [l] := by
    rw [List.take_add_one, h]
    rfl
  rw [hsplit, List.count_append, List.count_singleton]
  simp only [beq_iff_eq]

/-- The counters after the first `k` symbols. -/
structure Counted (ls : List Nat) (k : Nat) (count : Shorts) : Prop where
  length : count.length = maxBits + 1
  count : ∀ l ≤ maxBits, load count l = some ((ls.take k).count l)

include hls hbound in
theorem countLengths_spec :
    ∃ count, countLengths length ls.length = some count ∧ Counted ls ls.length count := by
  rw [countLengths, List.range_eq_range']
  have hstart : Counted ls 0 (List.replicate (maxBits + 1) (some 0)) := by
    refine ⟨List.length_replicate, fun l hl => ?_⟩
    rw [load, List.getElem?_replicate_of_lt (by omega)]
    rfl
  have hloop := for_invariant (I := Counted ls) 0 ls.length hstart
    (f := fun count symbol => do
      let len ← load length symbol
      store count len ((← load count len) + 1)) ?_
  · rwa [Nat.zero_add] at hloop
  intro k count _ hk hcount
  have hl : ls[k]? = some ls[k] := List.getElem?_eq_getElem (by omega)
  have hle : ls[k] ≤ maxBits := hbound _ (List.getElem_mem _)
  refine ⟨count.set ls[k] (some ((ls.take k).count ls[k] + 1)), ?_, ?_, ?_⟩
  · simp only [hls k _ hl, Option.bind_eq_bind, Option.bind_some, hcount.count _ hle]
    exact store_eq (by rw [hcount.length]; omega) _
  · rw [List.length_set, hcount.length]
  · intro l hlb
    rw [count_take_succ hl]
    by_cases heq : ls[k] = l
    · rw [← heq, load_set_self (by rw [hcount.length]; omega), if_pos rfl]
    · rw [load_set_ne heq, if_neg heq, Nat.add_zero]
      exact hcount.count l hlb

/-- The number of prefixes left is what Kraft's sum leaves. -/
theorem checkLeft_spec {count : Shorts} (hcount : ∀ l ≤ maxBits, load count l = some (ls.count l))
    (m k : Nat) (hk : k + m = maxBits) (hfit : Fits k ls) :
    ∃ left, checkLeft count (List.range' (k + 1) m) (2 ^ k - used ls k) = some left ∧
      (Fits maxBits ls → left = 2 ^ maxBits - used ls maxBits) ∧
      (¬ Fits maxBits ls → left < 0) := by
  induction m generalizing k with
  | zero =>
    obtain rfl : k = maxBits := by omega
    exact ⟨_, rfl, fun _ => rfl, fun h => absurd hfit h⟩
  | succ m ih =>
    have hleft : ((2 : Int) ^ k - used ls k) * 2 - (ls.count (k + 1) : Nat) =
        2 ^ (k + 1) - used ls (k + 1) := by
      rw [used, pow_succ]
      push_cast
      ring
    simp only [List.range'_succ, checkLeft, hcount (k + 1) (by omega), Option.bind_eq_bind,
      Option.bind_some, hleft]
    by_cases hnext : Fits (k + 1) ls
    · have hnonneg : ¬ (2 : Int) ^ (k + 1) - used ls (k + 1) < 0 := by
        have hle : ((used ls (k + 1) : Nat) : Int) ≤ ((2 ^ (k + 1) : Nat) : Int) :=
          Int.ofNat_le.2 hnext
        push_cast at hle
        omega
      rw [if_neg hnonneg]
      exact ih (k + 1) (by omega) hnext
    · have hneg : (2 : Int) ^ (k + 1) - used ls (k + 1) < 0 := by
        have hlt : ((2 ^ (k + 1) : Nat) : Int) < ((used ls (k + 1) : Nat) : Int) :=
          Int.ofNat_lt.2 (Nat.lt_of_not_le hnext)
        push_cast at hlt
        omega
      have hnot : ¬ Fits maxBits ls := fun h => hnext (h.used_le (by omega))
      rw [if_pos hneg]
      exact ⟨_, rfl, fun h => absurd h hnot, fun _ => hneg⟩

theorem offsets_spec {count : Shorts} (hcount : ∀ l ≤ maxBits, load count l = some (ls.count l)) :
    ∃ offs, offsets count = some offs ∧ offs.length = maxBits + 1 ∧
      ∀ l, 0 < l → l ≤ maxBits → load offs l = some (offset ls l) := by
  have hloop := for_invariant
    (I := fun k (offs : Shorts) => offs.length = maxBits + 1 ∧
      ∀ l, 0 < l → l ≤ k → load offs l = some (offset ls l)) 1 (maxBits - 1)
    (b := (List.replicate (maxBits + 1) none).set 1 (some 0))
    (f := fun offs len => do store offs (len + 1) ((← load offs len) + (← load count len))) ?_ ?_
  · obtain ⟨offs, hoffs, hlen, hload⟩ := hloop
    exact ⟨offs, hoffs, hlen, fun l hl hle => hload l hl (by simp only [maxBits] at *; omega)⟩
  · refine ⟨by rw [List.length_set, List.length_replicate], fun l hl hle => ?_⟩
    obtain rfl : l = 1 := by omega
    exact load_set_self (by rw [List.length_replicate]; decide) 0
  · rintro k offs hk hlt ⟨hlen, hload⟩
    have hroom : k + 1 < offs.length := by
      simp only [maxBits] at *
      omega
    refine ⟨offs.set (k + 1) (some (offset ls k + ls.count k)), ?_, ?_, ?_⟩
    · simp only [hload k hk (Nat.le_refl k), hcount k (by simp only [maxBits] at *; omega),
        Option.bind_eq_bind, Option.bind_some]
      exact store_eq hroom _
    · rw [List.length_set, hlen]
    · intro l hl hle
      by_cases heq : k + 1 = l
      · rw [← heq, load_set_self hroom, offset_succ hk]
      · rw [load_set_ne heq]
        exact hload l hl (by omega)

/-- The symbol table after the first `k` symbols. -/
structure Sorted (ls : List Nat) (size k : Nat) (tables : Shorts × Shorts) : Prop where
  size : tables.1.length = size
  length : tables.2.length = maxBits + 1
  next : ∀ l, 0 < l → l ≤ maxBits → load tables.2 l = some (place ls l k)
  placed : ∀ i l, i < k → HasWord ls i l → load tables.1 (place ls l i) = some i

include hls hbound in
theorem sortSymbols_spec {offs : Shorts} (hsize : ls.length ≤ symbol.length)
    (hlen : offs.length = maxBits + 1)
    (hoffs : ∀ l, 0 < l → l ≤ maxBits → load offs l = some (offset ls l)) :
    ∃ tables, sortSymbols length ls.length (symbol, offs) = some tables ∧
      Sorted ls symbol.length ls.length tables := by
  rw [sortSymbols, List.range_eq_range']
  have hstart : Sorted ls symbol.length 0 (symbol, offs) :=
    ⟨rfl, hlen, fun l hl hle => by rw [hoffs l hl hle]; rfl,
      fun i l hi => absurd hi (Nat.not_lt_zero i)⟩
  have hloop := for_invariant (I := Sorted ls symbol.length) 0 ls.length hstart
    (f := fun tables symbol => do
      let len ← load length symbol
      if len ≠ 0 then
        let place ← load tables.2 len
        return (← store tables.1 place symbol, ← store tables.2 len (place + 1))
      else return tables) ?_
  · rwa [Nat.zero_add] at hloop
  intro k tables _ hk htables
  have hl : ls[k]? = some ls[k] := List.getElem?_eq_getElem (by omega)
  have hle : ls[k] ≤ maxBits := hbound _ (List.getElem_mem _)
  have hnext : ∀ m, place ls m (k + 1) = place ls m k + if ls[k] = m then 1 else 0 := by
    intro m
    rw [place, rank, count_take_succ hl, ← Nat.add_assoc]
    rfl
  by_cases hzero : ls[k] = 0
  · refine ⟨tables, ?_, htables.size, htables.length, ?_, ?_⟩
    · simp [hls k _ hl, hzero]
    · intro m hm hmb
      rw [hnext, if_neg (by omega), Nat.add_zero]
      exact htables.next m hm hmb
    · intro i m hi hword
      by_cases heq : i = k
      · subst heq
        have hm := hword.length
        rw [hl, hzero] at hm
        obtain rfl := Option.some.inj hm
        exact absurd hword.pos (Nat.lt_irrefl 0)
      · exact htables.placed i m (by omega) hword
  · have hword : HasWord ls k ls[k] := ⟨hl, Nat.pos_of_ne_zero hzero⟩
    have hroom : place ls ls[k] k < tables.1.length := by
      rw [htables.size]
      exact (place_lt_length hword).trans_le hsize
    have hroom' : ls[k] < tables.2.length := by
      rw [htables.length]
      omega
    refine ⟨(tables.1.set (place ls ls[k] k) (some k),
      tables.2.set ls[k] (some (place ls ls[k] k + 1))), ?_, ?_, ?_, ?_, ?_⟩
    · simp only [hls k _ hl, Option.bind_eq_bind, Option.bind_some, ne_eq, hzero,
        not_false_eq_true, if_true, htables.next _ hword.pos hle, store_eq hroom, store_eq hroom']
      rfl
    · rw [List.length_set, htables.size]
    · rw [List.length_set, htables.length]
    · intro m hm hmb
      rw [hnext]
      by_cases heq : ls[k] = m
      · rw [← heq, load_set_self hroom', if_pos rfl]
      · rw [load_set_ne heq, if_neg heq, Nat.add_zero]
        exact htables.next m hm hmb
    · intro i m hi hi'
      by_cases heq : i = k
      · subst heq
        have hm := hi'.length
        rw [hl] at hm
        obtain rfl := Option.some.inj hm
        exact load_set_self hroom i
      · rw [load_set_ne (place_ne hword hi' (Ne.symm heq))]
        exact htables.placed i m (by omega) hi'

/-- What `construct` makes of the lengths: a table, and whether the words are too many, too
few or just enough. -/
structure Constructed (ls : List Nat) (size : Nat) (table : Int × Huffman) : Prop where
  size : table.2.symbol.length = size
  unused : load table.2.count 0 = some (ls.count 0)
  fits : 0 ≤ table.1 ↔ Fits maxBits ls
  full : Fits maxBits ls →
    (table.1 = 0 ↔ ls.count 0 = ls.length ∨ used ls maxBits = 2 ^ maxBits)
  represents : Fits maxBits ls → Represents table.2 ls

theorem not_hasWord_of_unused (h : ls.count 0 = ls.length) {i l : Nat} : ¬ HasWord ls i l := by
  intro hword
  have hmem := List.mem_of_getElem? hword.length
  have hzero := List.count_eq_length.1 h l hmem
  exact absurd hword.pos (by omega)

theorem used_of_unused (h : ls.count 0 = ls.length) (n : Nat) : used ls n = 0 := by
  induction n with
  | zero => rfl
  | succ n ih =>
    have hcount : ls.count (n + 1) = 0 := by
      rw [List.count_eq_zero]
      intro hmem
      have hzero := List.count_eq_length.1 h (n + 1) hmem
      omega
    rw [used, ih, hcount]

include hls hbound in
theorem construct_spec (symbol : Shorts) (hsize : ls.length ≤ symbol.length) :
    ∃ table, construct symbol length ls.length = some table ∧
      Constructed ls symbol.length table := by
  obtain ⟨count, hcounts, hcounted⟩ := countLengths_spec hls hbound
  have hcount : ∀ l ≤ maxBits, load count l = some (ls.count l) := by
    intro l hl
    rw [hcounted.count l hl, List.take_length]
  simp only [construct, hcounts, Option.bind_eq_bind, Option.bind_some,
    hcount 0 (Nat.zero_le _)]
  by_cases hunused : ls.count 0 = ls.length
  · have hfit : Fits maxBits ls := by
      rw [Fits, used_of_unused hunused]
      exact Nat.zero_le _
    rw [if_pos hunused]
    refine ⟨_, rfl, rfl, hcount 0 (Nat.zero_le _), ?_, ?_, ?_⟩
    · exact iff_of_true (Int.le_refl 0) hfit
    · exact fun _ => iff_of_true rfl (.inl hunused)
    · exact fun _ => ⟨hcount, fun i l hword => absurd hword (not_hasWord_of_unused hunused)⟩
  · rw [if_neg hunused]
    have hroot : Fits 0 ls := Nat.zero_le _
    obtain ⟨left, hleft, hfit, hover⟩ := checkLeft_spec hcount maxBits 0 (Nat.zero_add _) hroot
    have hone : (2 : Int) ^ 0 - used ls 0 = 1 := by simp [used]
    rw [hone, Nat.zero_add] at hleft
    rw [hleft, Option.bind_some]
    by_cases hfits : Fits maxBits ls
    · have hvalue := hfit hfits
      have hle : ((used ls maxBits : Nat) : Int) ≤ ((2 ^ maxBits : Nat) : Int) :=
        Int.ofNat_le.2 hfits
      push_cast at hle
      obtain ⟨offs, hoffs, hlen, hload⟩ := offsets_spec hcount
      obtain ⟨tables, htables, hsorted⟩ := sortSymbols_spec hls hbound hsize hlen hload
      rw [if_neg (by omega), hoffs, Option.bind_some, htables, Option.bind_some]
      refine ⟨_, rfl, hsorted.size, hcount 0 (Nat.zero_le _), ?_, ?_, ?_⟩
      · exact iff_of_true (by omega) hfits
      · intro _
        simp only [hunused, false_or]
        rw [hvalue, ← Int.natCast_inj]
        push_cast
        omega
      · refine fun _ => ⟨hcount, fun i l hword => hsorted.placed i l ?_ hword⟩
        exact (List.getElem?_eq_some_iff.1 hword.length).1
    · have hneg := hover hfits
      rw [if_pos hneg]
      refine ⟨_, rfl, rfl, hcount 0 (Nat.zero_le _), ?_, ?_, ?_⟩
      · exact iff_of_false (by simpa using hneg) hfits
      · exact fun h => absurd h hfits
      · exact fun h => absurd h hfits

end Construct

/-! ### `decode` -/

section Decode
variable {h : Huffman} {ls : List Nat} {s s' : State}

theorem even_or_bit (a : Nat) {b : Nat} (hb : b < 2) : 2 * a ||| b = 2 * a + b :=
  (Nat.two_pow_add_eq_or_of_lt (i := 1) hb a).symm

theorem code_snoc (ws : List Bool) (b : Bool) :
    2 * highNat ws ||| lowNat [b] = highNat (ws ++ [b]) := by
  rw [lowNat_singleton, even_or_bit _ (by have := Bool.toNat_le b; omega), highNat_snoc]

theorem first_succ (ls : List Nat) {l : Nat} (hl : 0 < l) :
    (first ls l + ls.count l) <<< 1 = first ls (l + 1) := by
  rw [← used_eq hl, Nat.shiftLeft_eq, first]
  omega

/-- One pass of `decode`, after the bits `ws` and the bit `b`. -/
theorem decodeLoop_pass (hr : Represents h ls) {ws : List Bool} {b : Bool} {lens : List Nat}
    (hlen : ws.length + 1 ≤ maxBits) (hbit : bits 1 s = .ret (lowNat [b]) s') :
    decodeLoop h ((ws.length + 1) :: lens) (2 * highNat ws) (first ls (ws.length + 1))
        (offset ls (ws.length + 1)) s =
      (if highNat (ws ++ [b]) < first ls (ws.length + 1) + ls.count (ws.length + 1) then
        (do return ((← defined (loadInt h.symbol ((offset ls (ws.length + 1) : Int) +
          (highNat (ws ++ [b]) - first ls (ws.length + 1)))) : Nat) : Int))
      else decodeLoop h lens (2 * highNat (ws ++ [b])) (first ls (ws.length + 2))
        (offset ls (ws.length + 2)) : Inflate Int) s' := by
  have hcond : (highNat (ws ++ [b]) : Int) - ls.count (ws.length + 1) < first ls (ws.length + 1) ↔
      highNat (ws ++ [b]) < first ls (ws.length + 1) + ls.count (ws.length + 1) := by omega
  rw [decodeLoop, bind_ret hbit, code_snoc, bind_ret (defined_some (hr.count _ hlen) s')]
  simp only [hcond, first_succ ls (Nat.succ_pos ws.length), ← offset_succ (Nat.succ_pos ws.length),
    Nat.shiftLeft_eq, Nat.pow_one, Nat.mul_comm]

theorem symbol_lookup (hr : Represents h ls) {i l : Nat} {ws : List Bool} (hword : HasWord ls i l)
    (hvalue : highNat ws = first ls l + rank ls l i) (s : State) :
    (do return ((← defined (loadInt h.symbol ((offset ls l : Int) +
      (highNat ws - first ls l))) : Nat) : Int) : Inflate Int) s = .ret (i : Int) s := by
  have hindex : (offset ls l : Int) + (highNat ws - first ls l) = (place ls l i : Nat) := by
    rw [hvalue, place]
    push_cast
    omega
  rw [hindex, loadInt_natCast, hr.symbol i l hword]
  rfl

/-- From the middle of a word on, `decode` reads the rest of one, or gives up. -/
theorem decodeLoop_runs (hr : Represents h ls) (m : Nat) (ws : List Bool)
    (hm : ws.length + m = maxBits) (hlow : used ls ws.length ≤ highNat ws) (hs : Ready s) :
    Runs (decodeLoop h (List.range' (ws.length + 1) m) (2 * highNat ws) (first ls (ws.length + 1))
      (offset ls (ws.length + 1))) s fun v s' => v < 0 ∨
        ∃ i l vs, HasWord ls i l ∧ v = i ∧ codeword ls i = ws ++ vs ∧ Takes s vs s' := by
  induction m generalizing ws s with
  | zero => exact runs_of_ret rfl hs.within (.inl (by decide))
  | succ m ih =>
    rw [List.range'_succ]
    rcases bits_cases hs 1 with ⟨-, vs, s₁, hvs, hret, htakes⟩ | ⟨-, s₁, hjump, hwithin⟩
    · obtain ⟨b, rfl⟩ := List.length_eq_one_iff.1 hvs
      have hlen : (ws ++ [b]).length = ws.length + 1 := by simp
      have hpos : 0 < ws.length + 1 := Nat.succ_pos _
      have hlower : first ls (ws.length + 1) ≤ highNat (ws ++ [b]) := by
        rw [highNat_snoc, first]
        omega
      refine Runs.of_eq (decodeLoop_pass hr (by omega) hret) htakes.within ?_
      by_cases hin : highNat (ws ++ [b]) < first ls (ws.length + 1) + ls.count (ws.length + 1)
      · rw [if_pos hin]
        rw [← hlen] at hlower hin
        obtain ⟨i, hi, hrank, hcode⟩ := exists_codeword hlower hin
        rw [hlen] at hi hrank hlower
        have hword : HasWord ls i (ws.length + 1) := ⟨hi, Nat.succ_pos _⟩
        refine runs_of_ret (symbol_lookup hr hword (by omega) s₁) htakes.ready.within ?_
        exact .inr ⟨i, _, [b], hword, rfl, hcode, htakes⟩
      · rw [if_neg hin]
        have hnext := ih (ws ++ [b]) (s := s₁) (by omega)
          (by rw [hlen, used_eq hpos]; omega) htakes.ready
        rw [hlen] at hnext
        refine hnext.mono fun v s' hv => hv.imp_right ?_
        rintro ⟨i, l, vs, hword, hi, hcode, hrest⟩
        refine ⟨i, l, b :: vs, hword, hi, ?_, htakes.trans hrest⟩
        rw [hcode, List.append_assoc]
        rfl
    · rw [Runs, decodeLoop, bind_jump hjump]
      exact hwithin

/-- A word of the code is read to its end. -/
theorem decodeLoop_ret (hr : Represents h ls) (hfit : Fits maxBits ls) {i l : Nat}
    (hword : HasWord ls i l) (hl : l ≤ maxBits) (ws : List Bool) {vs rest : List Bool} {m : Nat}
    (hm : ws.length + m = maxBits) (hcode : codeword ls i = ws ++ vs) (hne : vs ≠ [])
    (hs : Ready s) (hahead : s.ahead = vs ++ rest) :
    ∃ s', decodeLoop h (List.range' (ws.length + 1) m) (2 * highNat ws) (first ls (ws.length + 1))
      (offset ls (ws.length + 1)) s = .ret (i : Int) s' ∧ Takes s vs s' := by
  induction vs generalizing ws s m with
  | nil => exact absurd rfl hne
  | cons b vs ih =>
    have hlen := congrArg List.length hcode
    rw [length_codeword hword, List.length_append, List.length_cons] at hlen
    have hsnoc : (ws ++ [b]).length = ws.length + 1 := by simp
    have hcode' : codeword ls i = (ws ++ [b]) ++ vs := by
      rw [hcode, List.append_assoc]
      rfl
    obtain ⟨m, rfl⟩ : ∃ k, m = k + 1 := ⟨m - 1, by omega⟩
    have hbit : s.ahead = [b] ++ (vs ++ rest) := hahead
    obtain ⟨s₁, hret, htakes⟩ := bits_ret hs hbit
    rw [List.range'_succ, decodeLoop_pass hr (by omega) hret]
    by_cases hnil : vs = []
    · subst hnil
      rw [List.append_nil] at hcode'
      obtain rfl : l = ws.length + 1 := by simpa using hlen
      have hvalue := highNat_codeword hword hfit hl
      rw [hcode'] at hvalue
      have hin : highNat (ws ++ [b]) < first ls (ws.length + 1) + ls.count (ws.length + 1) := by
        have hlt := word_lt_used hword
        rw [used_eq hword.pos] at hlt
        rwa [hvalue]
      rw [if_pos hin]
      exact ⟨s₁, symbol_lookup hr hword hvalue s₁, htakes⟩
    · have hused := used_le_of_prefix hword hfit hl hcode' hnil
      have hpos : 0 < ws.length + 1 := Nat.succ_pos _
      rw [hsnoc, used_eq hpos] at hused
      rw [if_neg (by omega)]
      obtain ⟨s', hloop, hrest⟩ := ih (ws ++ [b]) (s := s₁) (m := m) (by omega) hcode' hnil
        htakes.ready (htakes.ahead_eq hbit)
      rw [hsnoc] at hloop
      exact ⟨s', hloop, htakes.trans hrest⟩

/-- `decode` takes the word of a symbol and returns the symbol, or returns an error. -/
theorem decode_runs (hr : Represents h ls) (hs : Ready s) :
    Runs (decode h) s fun v s' => v < 0 ∨
      ∃ i l, HasWord ls i l ∧ v = i ∧ Takes s (codeword ls i) s' := by
  have hloop := decodeLoop_runs hr maxBits [] (by simp) (Nat.zero_le _) hs
  refine hloop.mono fun v s' hv => hv.imp_right ?_
  rintro ⟨i, l, vs, hword, hi, hcode, htakes⟩
  rw [List.nil_append] at hcode
  exact ⟨i, l, hword, hi, hcode ▸ htakes⟩

/-- `decode` reads the word of a symbol back. -/
theorem decode_ret (hr : Represents h ls) (hfit : Fits maxBits ls)
    (hle : ∀ l ∈ ls, l ≤ maxBits) {i l : Nat} (hword : HasWord ls i l) (hs : Ready s)
    {rest : List Bool} (hahead : s.ahead = codeword ls i ++ rest) :
    ∃ s', decode h s = .ret (i : Int) s' ∧ Takes s (codeword ls i) s' ∧ s'.ahead = rest := by
  have hl : l ≤ maxBits := hle l (List.mem_of_getElem? hword.length)
  obtain ⟨s', hret, htakes⟩ := decodeLoop_ret hr hfit hword hl [] (m := maxBits) (by simp) rfl
    (codeword_ne_nil hword) hs hahead
  exact ⟨s', hret, htakes, htakes.ahead_eq hahead⟩

end Decode

end MoshTcp.Puff
