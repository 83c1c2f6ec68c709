import MoshTcp.PuffCodes
import MoshTcp.PuffHeader

/-! The decoder of clients/c/puff.c as a whole: it never leaves its arrays, it always comes to
an end, and it accepts the streams of the grammar and no others. -/

set_option autoImplicit false

namespace MoshTcp.Puff
open ByteOrder BitStreams PrefixCodes Memory Deflate

variable {s s' : State} {rest : List Bool}

theorem fits_of_usable {ls : List Nat} (h : Usable ls) : Fits maxBits ls := fits_iff.2 h.fits

theorem rejects_ret {ls : List Nat} {size : Nat} {table : Int × Huffman}
    (h : Constructed ls size table) (s : State) :
    ∃ b, rejects table ls.length s = .ret b s ∧ (b = false ↔ Usable ls) := by
  refine ⟨_, bind_ret (defined_some h.unused s), ?_⟩
  have hcount : ls.count 0 ≤ ls.length := List.count_le_length
  rw [decide_eq_false_iff_not]
  constructor
  · intro hnot
    rw [not_or, Int.not_lt, not_and, not_not] at hnot
    have hfits := h.fits.1 hnot.1
    refine ⟨fits_iff.1 hfits, ?_⟩
    rw [← used_eq_kraftSum]
    by_cases hzero : table.1 = 0
    · cases (h.full hfits).1 hzero with
      | inl hunused => exact .inr (by omega)
      | inr hused => exact .inl hused
    · have hone := hnot.2 (by omega)
      exact .inr (by omega)
  · intro husable
    have hfits := fits_of_usable husable
    have hnonneg := h.fits.2 hfits
    rw [not_or, Int.not_lt, not_and, not_not]
    refine ⟨hnonneg, fun hpos => ?_⟩
    have hnot : ¬ (ls.count 0 = ls.length ∨ used ls maxBits = 2 ^ maxBits) := fun hfull => by
      have hzero := (h.full hfits).2 hfull
      omega
    rw [not_or] at hnot
    rw [used_eq_kraftSum] at hnot
    have hfew := husable.full.resolve_left hnot.2
    omega

section Tables
variable {symbol lengths : Shorts} {lits dists : List Nat}

/-- The two tables at the end of the header. -/
structure Split (symbol lengths : Shorts) (lits dists : List Nat) : Prop where
  filled : Filled lengths (lits ++ dists)
  le : ∀ l ∈ lits ++ dists, l ≤ maxBits
  symbols : symbol.length = maxLCodes
  lits_length : 257 ≤ lits.length ∧ lits.length ≤ maxLCodes
  dists_length : dists.length ≤ maxDCodes

theorem Split.literals (h : Split symbol lengths lits dists) :
    ∃ table, construct symbol lengths lits.length = some table ∧
      Constructed lits maxLCodes table := by
  have hholds : Holds lengths lits := by
    intro i l hl
    refine h.filled.holds i l ?_
    rw [List.getElem?_append_left (List.getElem?_eq_some_iff.1 hl).1, hl]
  obtain ⟨table, hconstruct, htable⟩ := construct_spec hholds
    (fun l hl => h.le l (List.mem_append_left _ hl)) symbol (h.symbols ▸ h.lits_length.2)
  exact ⟨table, hconstruct, h.symbols ▸ htable⟩

theorem Split.distances (h : Split symbol lengths lits dists) :
    ∃ table, construct (List.replicate maxDCodes none) (lengths.drop lits.length) dists.length =
      some table ∧ Constructed dists maxDCodes table := by
  have hholds : Holds (lengths.drop lits.length) dists := by
    intro i l hl
    rw [load_drop]
    refine h.filled.holds _ l ?_
    rw [List.getElem?_append_right (Nat.le_add_right _ _), Nat.add_sub_cancel_left, hl]
  have hsize : (List.replicate maxDCodes (none : Option Nat)).length = maxDCodes :=
    List.length_replicate
  obtain ⟨table, hconstruct, htable⟩ := construct_spec hholds
    (fun l hl => h.le l (List.mem_append_right _ hl)) (List.replicate maxDCodes none)
    (hsize.symm ▸ h.dists_length)
  exact ⟨table, hconstruct, hsize ▸ htable⟩

theorem Split.endOfBlock (h : Split symbol lengths lits dists) :
    ∃ l, lits[256]? = some l ∧ load lengths 256 = some l := by
  have hlt : 256 < lits.length := h.lits_length.1
  refine ⟨lits[256], List.getElem?_eq_getElem hlt, h.filled.holds 256 _ ?_⟩
  rw [List.getElem?_append_left hlt, List.getElem?_eq_getElem hlt]

theorem dynamicTables_runs (h : Split symbol lengths lits dists) (hs : Ready s) :
    Runs (dynamicTables symbol lengths lits.length dists.length) s fun v s' => v = 0 →
      Usable lits ∧ Usable dists ∧ ReadsItems ⟨lits, dists⟩ s v s' := by
  obtain ⟨l, hl, hload⟩ := h.endOfBlock
  rw [dynamicTables]
  refine Runs.of_eq (bind_ret (defined_some hload s)) hs.within ?_
  by_cases hzero : l = 0
  · rw [if_pos hzero]
    exact runs_of_ret rfl hs.within fun h => absurd h (by decide)
  rw [if_neg hzero]
  obtain ⟨lencode, hlencode, hlits⟩ := h.literals
  refine Runs.of_eq (bind_ret (defined_some hlencode s)) hs.within ?_
  obtain ⟨b, hrejects, hb⟩ := rejects_ret hlits s
  refine Runs.of_eq (bind_ret hrejects) hs.within ?_
  cases b with
  | true => exact runs_of_ret rfl hs.within fun h => absurd h (by decide)
  | false =>
    have husable := hb.1 rfl
    obtain ⟨distcode, hdistcode, hdists⟩ := h.distances
    refine Runs.of_eq (bind_ret (defined_some hdistcode s)) hs.within ?_
    obtain ⟨b, hrejects, hb⟩ := rejects_ret hdists s
    refine Runs.of_eq (bind_ret hrejects) hs.within ?_
    cases b with
    | true => exact runs_of_ret rfl hs.within fun h => absurd h (by decide)
    | false =>
      have husable' := hb.1 rfl
      have ht : Tables lencode.2 distcode.2 ⟨lits, dists⟩ :=
        ⟨hlits.represents (fits_of_usable husable), hdists.represents (fits_of_usable husable'),
          h.dists_length⟩
      exact (codes_runs ht hs).mono fun v s' hitems _ => ⟨husable, husable', hitems⟩

theorem dynamicTables_ret (h : Split symbol lengths lits dists)
    (hend : ∃ l, HasWord lits 256 l) (hlits : Usable lits) (hdists : Usable dists)
    (items : List Item) (hitems : ∀ item ∈ items, item.Encodable ⟨lits, dists⟩) {out : Bytes}
    (hs : Ready s) (hexpand : expandItems s.out items = some out) (hroom : out.length ≤ s.outlen)
    (hahead : s.ahead = encodeItems ⟨lits, dists⟩ items ++ rest) :
    ∃ s', dynamicTables symbol lengths lits.length dists.length s = .ret 0 s' ∧
      Reads s (encodeItems ⟨lits, dists⟩ items) s' ∧ s'.out = out := by
  obtain ⟨l, hl, hload⟩ := h.endOfBlock
  have hpos : l ≠ 0 := by
    obtain ⟨m, hword⟩ := hend
    obtain rfl := Option.some.inj (hl.symm.trans hword.length)
    exact Nat.pos_iff_ne_zero.1 hword.pos
  obtain ⟨lencode, hlencode, hconstructed⟩ := h.literals
  obtain ⟨distcode, hdistcode, hconstructed'⟩ := h.distances
  obtain ⟨b, hrejects, hb⟩ := rejects_ret hconstructed s
  obtain ⟨b', hrejects', hb'⟩ := rejects_ret hconstructed' s
  obtain rfl := hb.2 hlits
  obtain rfl := hb'.2 hdists
  have hfits := fits_of_usable hlits
  have hfits' := fits_of_usable hdists
  have ht : Tables lencode.2 distcode.2 ⟨lits, dists⟩ :=
    ⟨hconstructed.represents hfits, hconstructed'.represents hfits', h.dists_length⟩
  have hr : Readable ⟨lits, dists⟩ :=
    ⟨hfits, hfits', fun l hl => h.le l (List.mem_append_left _ hl),
      fun l hl => h.le l (List.mem_append_right _ hl)⟩
  rw [dynamicTables, bind_ret (defined_some hload s), if_neg hpos,
    bind_ret (defined_some hlencode s), bind_ret hrejects, if_neg (by decide),
    bind_ret (defined_some hdistcode s), bind_ret hrejects', if_neg (by decide)]
  exact codes_ret ht hr hend items hitems hs hexpand hroom hahead

end Tables

theorem precode_spec (sent : List (Fin 8)) :
    ∃ table, construct (List.replicate maxLCodes none)
        (placed order sent (List.replicate maxCodes none)) 19 = some table ∧
      Constructed (precodeOf sent) maxLCodes table := by
  have hspec := construct_spec (holds_placed sent) (precodeOf_le sent)
    (List.replicate maxLCodes none) (by rw [length_precodeOf, List.length_replicate]; decide)
  rwa [length_precodeOf, List.length_replicate] at hspec

/-- A code length code that `dynamic` goes on with. -/
def PrecodeFull (sent : List (Fin 8)) : Prop :=
  (precodeOf sent).count 0 = 19 ∨ kraftSum 15 (precodeOf sent) = 2 ^ 15

theorem PrecodeFull.fits {sent : List (Fin 8)} (h : PrecodeFull sent) :
    Fits maxBits (precodeOf sent) := by
  cases h with
  | inl h =>
    rw [Fits, used_of_unused (h.trans (length_precodeOf sent).symm)]
    exact Nat.zero_le _
  | inr h => exact fits_iff.2 (Nat.le_of_eq h)

theorem precodeFull_iff {sent : List (Fin 8)} {table : Int × Huffman}
    (h : Constructed (precodeOf sent) maxLCodes table) : table.1 = 0 ↔ PrecodeFull sent := by
  constructor
  · intro hzero
    have hfull := (h.full (h.fits.1 (Int.le_of_eq hzero.symm))).1 hzero
    rwa [length_precodeOf, used_eq_kraftSum] at hfull
  · intro hfull
    rw [h.full hfull.fits, length_precodeOf, used_eq_kraftSum]
    exact hfull

theorem filled_placed (sent : List (Fin 8)) :
    Filled (placed order sent (List.replicate maxCodes none)) [] := by
  refine ⟨fun i l hl => ?_, ?_⟩
  · rw [List.getElem?_nil] at hl
    cases hl
  · rw [length_placed, List.length_replicate]

/-- What a dynamic block that is accepted has read and written. -/
theorem dynamic_runs (hs : Ready s) :
    Runs dynamic s fun v s' => v = 0 → ∃ header items hitems,
      Reads s (Block.dynamic header items hitems).encode s' ∧
        expandItems s.out items = some s'.out := by
  rw [dynamic]
  refine (bits_runs hs 5).bind fun v s₁ _ hv => ?_
  obtain ⟨ws₁, hws₁, rfl, htakes₁⟩ := hv
  refine (bits_runs htakes₁.ready 5).bind fun v s₂ _ hv => ?_
  obtain ⟨ws₂, hws₂, rfl, htakes₂⟩ := hv
  refine (bits_runs htakes₂.ready 4).bind fun v s₃ _ hv => ?_
  obtain ⟨ws₃, hws₃, rfl, htakes₃⟩ := hv
  have hncode : lowNat ws₃ < 16 := lowNat_lt_of_length hws₃
  by_cases hmany : lowNat ws₁ + 257 > maxLCodes ∨ lowNat ws₂ + 1 > maxDCodes
  · rw [if_pos hmany]
    exact runs_of_ret rfl htakes₃.ready.within fun h => absurd h (by decide)
  rw [if_neg hmany]
  rw [not_or, Nat.not_lt, Nat.not_lt] at hmany
  have htotal : lowNat ws₁ + 257 + (lowNat ws₂ + 1) ≤ maxCodes := by
    rw [maxCodes]
    omega
  refine (precodeLengths_runs _ order order_lt htakes₃.ready).bind fun lengths s₄ _ hpre => ?_
  obtain ⟨sent, hsent, rfl, htakes₄⟩ := hpre
  have hsent : sent.length = lowNat ws₃ + 4 := by
    rw [hsent]
    exact Nat.min_eq_left (show lowNat ws₃ + 4 ≤ 19 by omega)
  obtain ⟨precode, hconstruct, hprecode⟩ := precode_spec sent
  refine Runs.of_eq (bind_ret (defined_some hconstruct s₄)) htakes₄.ready.within ?_
  by_cases hzero : precode.1 ≠ 0
  · rw [if_pos hzero]
    exact runs_of_ret rfl htakes₄.ready.within fun h => absurd h (by decide)
  rw [if_neg hzero]
  have hfull := (precodeFull_iff hprecode).1 (not_not.1 hzero)
  refine (codeLengths_runs (hprecode.represents hfull.fits) (length_precodeOf sent) htotal _
    (filled_placed sent) (Nat.zero_le _) (by rw [List.length_nil]; omega)
    htakes₄.ready).bind fun r s₅ hw₅ hr => ?_
  cases r with
  | error err =>
    have hneg : err < 0 := hr
    exact runs_of_ret rfl hw₅.self fun h => by omega
  | ok lengths =>
    obtain ⟨items, ls, hwords, hexpand, hlen, hfilled, htakes₅⟩ := hr
    have hle := expandLengths_le hexpand (by simp)
    have hlits : (ls.take (lowNat ws₁ + 257)).length = lowNat ws₁ + 257 :=
      List.length_take_of_le (by omega)
    have hdists : (ls.drop (lowNat ws₁ + 257)).length = lowNat ws₂ + 1 := by
      rw [List.length_drop, hlen, Nat.add_sub_cancel_left]
    have hboth := List.take_append_drop (lowNat ws₁ + 257) ls
    have hsplit : Split precode.2.symbol lengths (ls.take (lowNat ws₁ + 257))
        (ls.drop (lowNat ws₁ + 257)) :=
      ⟨hboth.symm ▸ hfilled, hboth.symm ▸ hle, hprecode.size, by omega, by omega⟩
    have htables := dynamicTables_runs hsplit htakes₅.ready
    rw [hlits, hdists] at htables
    refine htables.mono fun v s' hitems hv => ?_
    obtain ⟨husable, husable', hreads⟩ := hitems hv
    obtain ⟨body, hbody, hend, hread, hout⟩ := hreads hv
    let header : Header := {
      sent := sent
      items := items
      codes := ⟨ls.take (lowNat ws₁ + 257), ls.drop (lowNat ws₁ + 257)⟩
      sent_length := by omega
      precode_full := hfull
      encodable := hwords
      expands := by rw [hexpand, hboth]
      literals_length := ⟨by rw [hlits]; omega, by rw [hlits]; exact hmany.1⟩
      distances_length := ⟨by rw [hdists]; omega, by rw [hdists]; exact hmany.2⟩
      end_of_block := hend
      literals_usable := husable
      distances_usable := husable' }
    have hheader : header.encode = ws₁ ++ (ws₂ ++ (ws₃ ++ (sent.flatMap sentBits ++
        items.flatMap (LengthItem.encode (precodeOf sent))))) := by
      simp only [Header.encode, header, hlits, hdists, hsent, Nat.add_sub_cancel,
        lowBits_of_length hws₁, lowBits_of_length hws₂, lowBits_of_length hws₃]
    have hall := htakes₁.trans (htakes₂.trans (htakes₃.trans (htakes₄.trans htakes₅)))
    refine ⟨header, body, hbody, ?_, ?_⟩
    · rw [Block.encode, hheader]
      exact hall.toReads.trans hread
    · rw [← hall.out]
      exact hout

theorem Header.lengths_le (header : Header) :
    ∀ l ∈ header.codes.literals ++ header.codes.distances, l ≤ maxBits :=
  expandLengths_le header.expands (by simp)

/-- A dynamic block is read as it was written. -/
theorem dynamic_ret (header : Header) (items : List Item)
    (hitems : ∀ item ∈ items, item.Encodable header.codes) {out : Bytes} (hs : Ready s)
    (hexpand : expandItems s.out items = some out) (hroom : out.length ≤ s.outlen)
    (hahead : s.ahead = (Block.dynamic header items hitems).encode ++ rest) :
    ∃ s', dynamic s = .ret 0 s' ∧ Reads s (Block.dynamic header items hitems).encode s' ∧
      s'.out = out := by
  obtain ⟨hlits, hlits'⟩ := header.literals_length
  obtain ⟨hdists, hdists'⟩ := header.distances_length
  obtain ⟨hsent, hsent'⟩ := header.sent_length
  simp only [Block.encode, Header.encode, List.append_assoc] at hahead
  obtain ⟨s₁, hbits₁, htakes₁⟩ := bits_lowBits hs (by omega) hahead
  have hahead₁ := htakes₁.ahead_eq hahead
  obtain ⟨s₂, hbits₂, htakes₂⟩ := bits_lowBits htakes₁.ready (by omega) hahead₁
  have hahead₂ := htakes₂.ahead_eq hahead₁
  obtain ⟨s₃, hbits₃, htakes₃⟩ := bits_lowBits htakes₂.ready (by omega) hahead₂
  have hahead₃ := htakes₃.ahead_eq hahead₂
  obtain ⟨s₄, hlengths, htakes₄⟩ := precodeLengths_ret header.sent order hsent' order_lt
    htakes₃.ready hahead₃
  obtain ⟨precode, hconstruct, hprecode⟩ := precode_spec header.sent
  have hfull : PrecodeFull header.sent := header.precode_full
  have hzero := (precodeFull_iff hprecode).2 hfull
  have hnlen : header.codes.literals.length - 257 + 257 = header.codes.literals.length := by omega
  have hndist : header.codes.distances.length - 1 + 1 = header.codes.distances.length := by omega
  have hncode : header.sent.length - 4 + 4 = header.sent.length := by omega
  obtain ⟨lengths, s₅, hloop, hfilled, htakes₅⟩ := codeLengths_ret
    (hprecode.represents hfull.fits) hfull.fits (precodeOf_le header.sent)
    (header.codes.literals.length + header.codes.distances.length)
    (by simp only [maxCodes, maxLCodes, maxDCodes]; omega) header.items header.encodable
    header.expands (by rw [List.length_append]) (by rw [List.length_nil, Nat.zero_add])
    (filled_placed header.sent) htakes₄.ready (htakes₄.ahead_eq hahead₃)
  rw [List.length_nil] at hloop
  have hahead₅ := htakes₅.ahead_eq (htakes₄.ahead_eq hahead₃)
  have hall := htakes₁.trans (htakes₂.trans (htakes₃.trans (htakes₄.trans htakes₅)))
  have hsplit : Split precode.2.symbol lengths header.codes.literals header.codes.distances :=
    ⟨hfilled, Header.lengths_le header, hprecode.size, ⟨hlits, hlits'⟩, hdists'⟩
  rw [← hall.out] at hexpand
  rw [← hall.within.outlen] at hroom
  obtain ⟨s', htables, hread, hout⟩ := dynamicTables_ret hsplit header.end_of_block
    header.literals_usable header.distances_usable items hitems htakes₅.ready hexpand hroom hahead₅
  refine ⟨s', ?_, hall.toReads.trans hread, hout⟩
  rw [dynamic, bind_ret hbits₁, bind_ret hbits₂, bind_ret hbits₃, hnlen, hndist, hncode,
    if_neg (by simp only [maxLCodes, maxDCodes]; omega), bind_ret hlengths,
    bind_ret (defined_some hconstruct s₄), if_neg (not_not.2 hzero), bind_ret hloop]
  exact htables

/-! ### Fixed blocks -/

theorem fixed_literals :
    ∃ table, construct (List.replicate fixLCodes none) fixedLengths fixLCodes = some table ∧
      Constructed fixedCodes.literals fixLCodes table := by
  have hlengths : fixedLengths = fixedCodes.literals.map some := by
    simp only [fixedLengths, fixedCodes, List.map_append, List.map_replicate]
  have hholds : Holds fixedLengths fixedCodes.literals := by
    intro i l hl
    rw [hlengths, load_map_some, hl]
  have hspec := construct_spec hholds (by decide +kernel) (List.replicate fixLCodes none)
    (by decide +kernel)
  have hlen : fixedCodes.literals.length = fixLCodes := by decide +kernel
  rwa [hlen, List.length_replicate] at hspec

theorem fixed_distances :
    ∃ table, construct (List.replicate maxDCodes none) (List.replicate maxDCodes (some 5))
        maxDCodes = some table ∧ Constructed fixedCodes.distances maxDCodes table := by
  have hlengths : List.replicate maxDCodes (some 5) = fixedCodes.distances.map some := by
    simp only [fixedCodes, List.map_replicate, maxDCodes]
  have hholds : Holds (List.replicate maxDCodes (some 5)) fixedCodes.distances := by
    intro i l hl
    rw [hlengths, load_map_some, hl]
  have hspec := construct_spec hholds (by decide +kernel) (List.replicate maxDCodes none)
    (by decide +kernel)
  have hlen : fixedCodes.distances.length = maxDCodes := by decide +kernel
  rwa [hlen, List.length_replicate] at hspec

theorem fixedCodes_readable : Readable fixedCodes := by
  refine ⟨?_, ?_, ?_, ?_⟩ <;> decide +kernel

theorem fixed_eq : ∃ lencode distcode, Tables lencode distcode fixedCodes ∧
    ∀ s, fixed s = codes lencode distcode s := by
  obtain ⟨lencode, hlencode, hlits⟩ := fixed_literals
  obtain ⟨distcode, hdistcode, hdists⟩ := fixed_distances
  have hr := fixedCodes_readable
  refine ⟨lencode.2, distcode.2, ⟨hlits.represents hr.literals_fit,
    hdists.represents hr.distances_fit, Nat.le_refl _⟩, fun s => ?_⟩
  rw [fixed, bind_ret (defined_some hlencode s), bind_ret (defined_some hdistcode s)]

theorem fixed_runs (hs : Ready s) :
    Runs fixed s fun v s' => v = 0 → ∃ items hitems,
      Reads s (Block.fixed items hitems).encode s' ∧ expandItems s.out items = some s'.out := by
  obtain ⟨lencode, distcode, ht, hfixed⟩ := fixed_eq
  refine ((codes_runs ht hs).of_eq (hfixed s) hs.within).mono fun v s' h hv => ?_
  obtain ⟨items, hitems, -, hreads, hout⟩ := h hv
  exact ⟨items, hitems, hreads, hout⟩

theorem fixed_ret (items : List Item) (hitems : ∀ item ∈ items, item.Encodable fixedCodes)
    {out : Bytes} (hs : Ready s) (hexpand : expandItems s.out items = some out)
    (hroom : out.length ≤ s.outlen)
    (hahead : s.ahead = (Block.fixed items hitems).encode ++ rest) :
    ∃ s', fixed s = .ret 0 s' ∧ Reads s (Block.fixed items hitems).encode s' ∧ s'.out = out := by
  obtain ⟨lencode, distcode, ht, hfixed⟩ := fixed_eq
  have hend : HasWord fixedCodes.literals 256 7 := ⟨by decide +kernel, by decide⟩
  rw [hfixed]
  exact codes_ret ht fixedCodes_readable ⟨7, hend⟩ items hitems hs hexpand hroom hahead

/-- `s` is `position` bits into the stream. -/
def State.At (s : State) (position : Nat) : Prop := position + s.bitsLeft = 8 * s.source.length

theorem State.At.reads {position : Nat} {ws : List Bool} (h : s.At position)
    (hread : Reads s ws s') : s'.At (position + ws.length) := by
  have hbits := hread.bitsLeft
  rw [State.At] at h ⊢
  rw [hread.within.source]
  omega

/-- The bits that `stored` drops lead to the next byte. -/
theorem State.At.padding {position : Nat} (h : s.At position) (hs : Ready s) (n : Nat) :
    n < 8 ∧ (position + n) % 8 = 0 ↔ n = s.bitcnt := by
  have hcnt := hs.bitcnt_lt
  rw [State.At, State.bitsLeft] at h
  omega

theorem block_runs {position : Nat} (hat : s.At position) (hs : Ready s) (type : Nat) :
    Runs (block type) s fun v s' => v = 0 → ∃ b : Block, b.type = type ∧ b.Aligned position ∧
      Reads s b.encode s' ∧ b.expand s.out = some s'.out := by
  rw [block]
  by_cases hstored : type = 0
  · rw [if_pos hstored]
    refine (stored_runs hs).mono fun v s' h hv => ?_
    obtain ⟨data, hshort, hread, hout⟩ := h hv
    refine ⟨.stored _ data hshort, hstored.symm, ?_, hread, ?_⟩
    · exact (hat.padding hs _).2 (length_lowBits _ _)
    · rw [Block.expand, hout]
  rw [if_neg hstored]
  by_cases hfixed : type = 1
  · rw [if_pos hfixed]
    refine (fixed_runs hs).mono fun v s' h hv => ?_
    obtain ⟨items, hitems, hread, hout⟩ := h hv
    exact ⟨.fixed items hitems, hfixed.symm, trivial, hread, hout⟩
  rw [if_neg hfixed]
  by_cases hdynamic : type = 2
  · rw [if_pos hdynamic]
    refine (dynamic_runs hs).mono fun v s' h hv => ?_
    obtain ⟨header, items, hitems, hread, hout⟩ := h hv
    exact ⟨.dynamic header items hitems, hdynamic.symm, trivial, hread, hout⟩
  rw [if_neg hdynamic]
  exact runs_of_ret rfl hs.within fun h => absurd h (by decide)

theorem block_ret {position : Nat} (hat : s.At position) (hs : Ready s) (b : Block)
    (haligned : b.Aligned position) {out : Bytes} (hexpand : b.expand s.out = some out)
    (hroom : out.length ≤ s.outlen) (hahead : s.ahead = b.encode ++ rest) :
    ∃ s', block b.type s = .ret 0 s' ∧ Reads s b.encode s' ∧ s'.out = out := by
  cases b with
  | stored padding data hshort =>
    obtain rfl := Option.some.inj hexpand
    rw [List.length_append] at hroom
    exact stored_ret hshort ((hat.padding hs _).1 haligned) hroom hahead
  | fixed items hitems =>
    rw [Block.type, block, if_neg (by decide), if_pos rfl]
    exact fixed_ret items hitems hs hexpand hroom hahead
  | dynamic header items hitems =>
    rw [Block.type, block, if_neg (by decide), if_neg (by decide), if_pos rfl]
    exact dynamic_ret header items hitems hs hexpand hroom hahead

/-- The blocks that a run without an error has read. -/
def ReadsBlocks (position : Nat) (s : State) (v : Int) (s' : State) : Prop :=
  v = 0 → ∃ bs, bs ≠ [] ∧ Aligned position bs ∧ Reads s (Deflate.encode bs) s' ∧
    expand s.out bs = some s'.out

theorem blocks_runs {position : Nat} (hat : s.At position) (fuel : Nat) (hs : Ready s)
    (hfuel : s.bitsLeft < fuel) : Runs (blocks fuel) s (ReadsBlocks position s) := by
  induction fuel generalizing s position with
  | zero => omega
  | succ fuel ih =>
    rw [blocks]
    refine (bits_runs hs 1).bind fun v s₁ _ hv => ?_
    obtain ⟨ws₁, hws₁, rfl, htakes₁⟩ := hv
    obtain ⟨last, rfl⟩ := List.length_eq_one_iff.1 hws₁
    refine (bits_runs htakes₁.ready 2).bind fun v s₂ _ hv => ?_
    obtain ⟨ws₂, hws₂, rfl, htakes₂⟩ := hv
    have hhead := htakes₁.trans htakes₂
    have hat₂ := hat.reads hhead.toReads
    rw [List.length_append, List.length_singleton, hws₂] at hat₂
    refine (block_runs hat₂ htakes₂.ready (lowNat ws₂)).bind fun err s₃ hw₃ hblock => ?_
    by_cases hmore : err = 0 ∧ lowNat [last] = 0
    · rw [if_pos hmore]
      obtain ⟨b, htype, haligned, hread, hout⟩ := hblock hmore.1
      have hreads := hhead.toReads.trans hread
      have hbits := hreads.bitsLeft
      simp only [List.length_append, List.length_singleton] at hbits
      refine (ih (hat₂.reads hread) hread.ready (by omega)).mono fun v s' h hv => ?_
      obtain ⟨bs, hne, haligned', hrest, hout'⟩ := h hv
      refine ⟨b :: bs, List.cons_ne_nil _ _, ⟨haligned, haligned'⟩, ?_, ?_⟩
      · have hlast : last = bs.isEmpty := by
          have hfalse := hmore.2
          rw [lowNat_singleton, Bool.toNat_eq_zero] at hfalse
          rw [hfalse, eq_comm, List.isEmpty_eq_false_iff]
          exact hne
        rw [Deflate.encode, ← hlast, htype, lowBits_of_length hws₂]
        have hall := hreads.trans hrest
        rw [List.append_assoc, List.append_assoc] at hall
        exact hall
      · rw [expand, List.foldlM_cons, ← hhead.out, hout]
        exact hout'
    · rw [if_neg hmore]
      refine runs_of_ret rfl hw₃.self fun hv => ?_
      obtain ⟨b, htype, haligned, hread, hout⟩ := hblock hv
      refine ⟨[b], List.cons_ne_nil _ _, ⟨haligned, trivial⟩, ?_, ?_⟩
      · have hlast : last = true := by
          cases last with
          | true => rfl
          | false => exact absurd ⟨hv, rfl⟩ hmore
        have hreads := hhead.toReads.trans hread
        rw [hlast, List.append_assoc] at hreads
        rw [Deflate.encode, htype, lowBits_of_length hws₂, Deflate.encode, List.append_nil]
        exact hreads
      · rw [expand, List.foldlM_cons, ← hhead.out, hout]
        rfl

theorem expand_cons {b : Block} {bs : List Block} {out out' : Bytes} :
    expand out (b :: bs) = some out' ↔
      ∃ next, b.expand out = some next ∧ expand next bs = some out' := by
  rw [expand, List.foldlM_cons, Option.bind_eq_bind, Option.bind_eq_some_iff]
  rfl

theorem Block.length_expand {b : Block} {out out' : Bytes} (h : b.expand out = some out') :
    out.length ≤ out'.length := by
  cases b with
  | stored padding data hshort =>
    obtain rfl := Option.some.inj h
    rw [List.length_append]
    exact Nat.le_add_right _ _
  | fixed items hitems => exact length_expandItems h
  | dynamic header items hitems => exact length_expandItems h

theorem length_expand {bs : List Block} {out out' : Bytes} (h : expand out bs = some out') :
    out.length ≤ out'.length := by
  induction bs generalizing out with
  | nil =>
    obtain rfl := Option.some.inj h
    exact Nat.le_refl _
  | cons b bs ih =>
    obtain ⟨next, hb, hbs⟩ := expand_cons.1 h
    exact (Block.length_expand hb).trans (ih hbs)

theorem Block.type_lt (b : Block) : b.type < 2 ^ 2 := by
  cases b <;> rw [Block.type] <;> decide

/-- Blocks are read as they were written. -/
theorem blocks_ret {position fuel : Nat} (hat : s.At position) (hs : Ready s)
    (hfuel : s.bitsLeft < fuel) (bs : List Block) (hne : bs ≠ []) (haligned : Aligned position bs)
    {out : Bytes} (hexpand : expand s.out bs = some out) (hroom : out.length ≤ s.outlen)
    (hahead : s.ahead = Deflate.encode bs ++ rest) :
    ∃ s', blocks fuel s = .ret 0 s' ∧ Reads s (Deflate.encode bs) s' ∧ s'.out = out := by
  induction bs generalizing s position fuel with
  | nil => exact absurd rfl hne
  | cons b bs ih =>
    obtain ⟨next, hb, hbs⟩ := expand_cons.1 hexpand
    obtain ⟨fuel, rfl⟩ : ∃ k, fuel = k + 1 := ⟨fuel - 1, by omega⟩
    have hsplit : s.ahead =
        [bs.isEmpty] ++ (lowBits 2 b.type ++ (b.encode ++ (Deflate.encode bs ++ rest))) := by
      rw [hahead, Deflate.encode]
      simp only [List.cons_append, List.append_assoc, List.nil_append]
    obtain ⟨s₁, hlast, htakes₁⟩ := bits_ret hs hsplit
    have hahead₁ := htakes₁.ahead_eq hsplit
    obtain ⟨s₂, htype, htakes₂⟩ := bits_lowBits htakes₁.ready (Block.type_lt b) hahead₁
    have hahead₂ := htakes₂.ahead_eq hahead₁
    have hhead := htakes₁.trans htakes₂
    have hat₂ := hat.reads hhead.toReads
    rw [List.length_append, List.length_singleton, length_lowBits] at hat₂
    rw [← hhead.out] at hb
    rw [← hhead.within.outlen] at hroom
    obtain ⟨s₃, hblock, hread, hout⟩ := block_ret hat₂ hhead.ready b haligned.1 hb
      ((length_expand hbs).trans hroom) hahead₂
    have hreads := hhead.toReads.trans hread
    have hpass : blocks (fuel + 1) s =
        (if (0 : Int) = 0 ∧ lowNat [bs.isEmpty] = 0 then blocks fuel else return 0) s₃ := by
      rw [blocks]
      exact (bind_ret hlast).trans ((bind_ret htype).trans (bind_ret hblock))
    rw [hpass, lowNat_singleton]
    cases bs with
    | nil =>
      rw [if_neg (by decide)]
      refine ⟨s₃, rfl, ?_, hout.trans (Option.some.inj hbs)⟩
      rw [List.append_assoc] at hreads
      rw [Deflate.encode, Deflate.encode, List.append_nil]
      exact hreads
    | cons b' bs =>
      rw [if_pos ⟨rfl, rfl⟩]
      have hbits := hreads.bitsLeft
      simp only [List.length_append, List.length_singleton] at hbits
      rw [← hout] at hbs
      rw [← hread.within.outlen] at hroom
      obtain ⟨s', hloop, hrest, hout'⟩ := ih (hat₂.reads hread) hread.ready
        (show s₃.bitsLeft < fuel by omega) (List.cons_ne_nil _ _) haligned.2 hbs hroom
        (hread.ahead_eq hahead₂)
      refine ⟨s', hloop, ?_, hout'⟩
      have hall := hreads.trans hrest
      rw [List.append_assoc, List.append_assoc] at hall
      rw [Deflate.encode]
      exact hall

/-! ### `puff` -/

section Puff
variable {outlen : Nat} {source out : Bytes}

theorem start_ready (outlen : Nat) (source : Bytes) : Ready (State.start outlen source) :=
  ⟨Nat.succ_pos 7, Nat.one_pos, Nat.zero_le _, Nat.zero_le _⟩

theorem start_ahead (outlen : Nat) (source : Bytes) :
    (State.start outlen source).ahead = bitsOf source := rfl

theorem start_bitsLeft (outlen : Nat) (source : Bytes) :
    (State.start outlen source).bitsLeft = 8 * source.length := by
  rw [← length_ahead, start_ahead, length_bitsOf]

theorem start_at (outlen : Nat) (source : Bytes) : (State.start outlen source).At 0 := by
  rw [State.At, start_bitsLeft, Nat.zero_add]
  rfl

theorem puff_blocks (outlen : Nat) (source : Bytes) :
    Runs (blocks (8 * source.length + 1)) (State.start outlen source)
      (ReadsBlocks 0 (State.start outlen source)) :=
  blocks_runs (start_at outlen source) _ (start_ready outlen source)
    (by rw [start_bitsLeft]; exact Nat.lt_succ_self _)

theorem within_start (h : Within (State.start outlen source) s) :
    s.out.length ≤ outlen ∧ s.incnt ≤ source.length := by
  have hout := h.out_le
  have hin := h.incnt_le
  rw [h.outlen] at hout
  rw [h.source] at hin
  exact ⟨hout, hin⟩

/-- On every input `puff` comes to an end, with no access outside of an array and none to a
value that was not written, and it stays inside of both buffers. -/
theorem puff_total (outlen : Nat) (source : Bytes) :
    ∃ r, puff outlen source = some r ∧ r.dest.length ≤ outlen ∧ r.sourcelen ≤ source.length := by
  have hruns := puff_blocks outlen source
  rw [Runs] at hruns
  rw [puff]
  split at hruns
  · rename_i err s' hblocks
    rw [hblocks]
    exact ⟨_, rfl, within_start hruns.1⟩
  · rename_i s' hblocks
    rw [hblocks]
    exact ⟨_, rfl, within_start hruns⟩
  · exact hruns.elim
  · exact hruns.elim

theorem incnt_eq {size : Nat} (hat : s.At size) (hs : Ready s) : s.incnt = (size + 7) / 8 := by
  have hcnt := hs.bitcnt_lt
  have hle := hs.incnt_le
  rw [State.At, State.bitsLeft] at hat
  omega

/-- What is accepted is a stream of the grammar. -/
theorem stream_of_puff {n : Nat} (h : puff outlen source = some ⟨0, out, n⟩) :
    ∃ size, Nonempty (Stream (bitsOf source) size out) ∧ out.length ≤ outlen ∧
      n = (size + 7) / 8 := by
  have hruns := puff_blocks outlen source
  rw [Runs] at hruns
  rw [puff] at h
  split at hruns
  · rename_i err s' hblocks
    rw [hblocks] at h
    obtain ⟨rfl, rfl, rfl⟩ := Result.mk.inj (Option.some.inj h)
    obtain ⟨bs, hne, haligned, hread, hexpand⟩ := hruns.2 rfl
    refine ⟨(Deflate.encode bs).length, ⟨⟨bs, hne, haligned, ?_, rfl, hexpand⟩⟩, ?_, ?_⟩
    · exact ⟨s'.ahead, hread.ahead.symm.trans (start_ahead outlen source)⟩
    · exact (within_start hruns.1).1
    · have hat := (start_at outlen source).reads hread
      rw [Nat.zero_add] at hat
      exact incnt_eq hat hread.ready
  · rename_i s' hblocks
    rw [hblocks] at h
    cases Result.mk.inj (Option.some.inj h) with
    | intro herr _ => exact absurd herr (by decide)
  · exact hruns.elim
  · exact hruns.elim

/-- A stream of the grammar is accepted, when there is room for it. -/
theorem puff_of_stream {size : Nat} (stream : Stream (bitsOf source) size out)
    (hroom : out.length ≤ outlen) : puff outlen source = some ⟨0, out, (size + 7) / 8⟩ := by
  obtain ⟨bs, hne, haligned, ⟨rest, hstarts⟩, hsize, hexpand⟩ := stream
  obtain ⟨s', hblocks, hread, hout⟩ := blocks_ret (start_at outlen source)
    (start_ready outlen source) (by rw [start_bitsLeft]; exact Nat.lt_succ_self _) bs hne haligned
    hexpand hroom ((start_ahead outlen source).trans hstarts.symm)
  have hat := (start_at outlen source).reads hread
  rw [Nat.zero_add, hsize] at hat
  rw [puff, hblocks, ← incnt_eq hat hread.ready, ← hout]

/-- `puff` accepts the streams of the grammar, and no others, and writes what they stand for. -/
theorem puff_iff_stream (outlen n : Nat) (source out : Bytes) :
    puff outlen source = some ⟨0, out, n⟩ ↔
      ∃ size, Nonempty (Stream (bitsOf source) size out) ∧ out.length ≤ outlen ∧
        n = (size + 7) / 8 := by
  constructor
  · exact stream_of_puff
  · rintro ⟨size, ⟨stream⟩, hroom, rfl⟩
    exact puff_of_stream stream hroom

/-- What was decoded depends only on the bytes that were read. -/
theorem puff_local {n : Nat} (h : puff outlen source = some ⟨0, out, n⟩) {outlen' : Nat}
    (hroom : out.length ≤ outlen') (more : Bytes) :
    puff outlen' (source.take n ++ more) = some ⟨0, out, n⟩ := by
  obtain ⟨size, ⟨stream⟩, -, rfl⟩ := stream_of_puff h
  refine puff_of_stream { stream with starts := ?_ } hroom
  have hlen := stream.length
  obtain ⟨rest, hstarts⟩ := stream.starts
  have htotal := congrArg List.length hstarts
  rw [List.length_append, length_bitsOf, hlen] at htotal
  have hsplit : bitsOf source = bitsOf (source.take ((size + 7) / 8)) ++
      bitsOf (source.drop ((size + 7) / 8)) := by rw [← bitsOf_append, List.take_append_drop]
  have hwhole : Deflate.encode stream.blocks <+: bitsOf (source.take ((size + 7) / 8)) := by
    refine List.prefix_of_prefix_length_le stream.starts ⟨_, hsplit.symm⟩ ?_
    rw [hlen, length_bitsOf, List.length_take]
    omega
  rw [bitsOf_append]
  exact hwhole.trans (List.prefix_append _ _)

/-- A stored block of two bytes, with eight bytes of a member's end behind it. -/
def storedSource : Bytes := [1, 2, 0, 0xfd, 0xff, 0x68, 0x69, 1, 2, 3, 4, 5, 6, 7, 8]

theorem puff_local_stored :
    puff 1024 storedSource = some ⟨0, [0x68, 0x69], 7⟩ ∧
      puff 2 (storedSource.take 7 ++ [0x1f, 0x8b]) = some ⟨0, [0x68, 0x69], 7⟩ := by
  have h : puff 1024 storedSource = some ⟨0, [0x68, 0x69], 7⟩ := by decide +kernel
  exact ⟨h, puff_local h (Nat.le_refl 2) [0x1f, 0x8b]⟩

end Puff

end MoshTcp.Puff
