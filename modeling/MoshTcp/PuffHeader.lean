import MoshTcp.PuffTables
import MoshTcp.Deflate

/-! The header of a dynamic block as clients/c/puff.c reads it: the lengths of the code length
code, and with it the lengths of the two codes of the block. -/

set_option autoImplicit false

namespace MoshTcp.Puff
open ByteOrder BitStreams PrefixCodes Memory Deflate

variable {s s' : State} {rest : List Bool}

/-- The cells after `precodeLengths`, for the lengths that were sent. -/
def placed : List Nat → List (Fin 8) → Shorts → Shorts
  | [], _, cells => cells
  | p :: order, [], cells => placed order [] (cells.set p (some 0))
  | p :: order, l :: sent, cells => placed order sent (cells.set p (some l.val))

theorem length_placed (order : List Nat) (sent : List (Fin 8)) (cells : Shorts) :
    (placed order sent cells).length = cells.length := by
  induction order generalizing sent cells with
  | nil => rfl
  | cons p order ih => cases sent <;> rw [placed, ih, List.length_set]

theorem load_placed_of_notMem {order : List Nat} {p : Nat} (h : p ∉ order)
    (sent : List (Fin 8)) (cells : Shorts) : load (placed order sent cells) p = load cells p := by
  induction order generalizing sent cells with
  | nil => rfl
  | cons q order ih =>
    rw [List.mem_cons, not_or] at h
    cases sent <;> rw [placed, ih h.2, load_set_ne (Ne.symm h.1)]

/-- Each place of the order has the length sent for it, or 0 when the lengths end before. -/
theorem load_placed {order : List Nat} (hnodup : order.Nodup) (sent : List (Fin 8))
    {cells : Shorts} (hroom : ∀ p ∈ order, p < cells.length) {p : Nat} (hp : p ∈ order) :
    load (placed order sent cells) p = some (match sent[order.idxOf p]? with
      | some l => l.val
      | none => 0) := by
  induction order generalizing sent cells with
  | nil => cases hp
  | cons q order ih =>
    rw [List.nodup_cons] at hnodup
    have hlt := hroom q List.mem_cons_self
    have hroom' : ∀ v : Nat, ∀ r ∈ order, r < (cells.set q (some v)).length := by
      intro v r hr
      rw [List.length_set]
      exact hroom r (List.mem_cons_of_mem _ hr)
    by_cases heq : p = q
    · subst heq
      rw [List.idxOf_cons_self]
      cases sent with
      | nil =>
        rw [placed, load_placed_of_notMem hnodup.1, load_set_self hlt]
        rfl
      | cons l sent =>
        rw [placed, load_placed_of_notMem hnodup.1, load_set_self hlt]
        rfl
    · have hmem : p ∈ order := (List.mem_cons.1 hp).resolve_left heq
      rw [List.idxOf_cons_ne _ (Ne.symm heq)]
      cases sent with
      | nil => rw [placed, ih hnodup.2 [] (hroom' 0) hmem, List.getElem?_nil, List.getElem?_nil]
      | cons l sent => rw [placed, ih hnodup.2 sent (hroom' _) hmem, List.getElem?_cons_succ]

theorem precodeLengths_runs (ncode : Nat) (order : List Nat) {cells : Shorts}
    (hroom : ∀ p ∈ order, p < cells.length) (hs : Ready s) :
    Runs (precodeLengths ncode order cells) s fun lengths s' => ∃ sent : List (Fin 8),
      sent.length = min ncode order.length ∧ lengths = placed order sent cells ∧
        Takes s (sent.flatMap sentBits) s' := by
  induction order generalizing ncode cells s with
  | nil =>
    exact runs_of_ret (by rw [precodeLengths]; rfl) hs.within ⟨[], by simp, rfl, hs.takes_nil⟩
  | cons p order ih =>
    have hlt := hroom p List.mem_cons_self
    have hroom' : ∀ v : Nat, ∀ r ∈ order, r < (cells.set p (some v)).length := by
      intro v r hr
      rw [List.length_set]
      exact hroom r (List.mem_cons_of_mem _ hr)
    cases ncode with
    | zero =>
      rw [precodeLengths]
      refine Runs.of_eq (bind_ret (defined_some (store_eq hlt 0) s)) hs.within ?_
      refine (ih 0 (hroom' 0) hs).mono fun lengths s' h => ?_
      obtain ⟨sent, hlen, hlengths, htakes⟩ := h
      obtain rfl : sent = [] := List.length_eq_zero_iff.1 (by rw [hlen, Nat.zero_min])
      exact ⟨[], by simp, hlengths, htakes⟩
    | succ ncode =>
      rw [precodeLengths]
      refine (bits_runs hs 3).bind fun v s₁ _ hv => ?_
      obtain ⟨ws, hws, rfl, htakes₁⟩ := hv
      refine Runs.of_eq (bind_ret (defined_some (store_eq hlt _) s₁)) htakes₁.ready.within ?_
      refine (ih ncode (hroom' _) htakes₁.ready).mono fun lengths s' h => ?_
      obtain ⟨sent, hlen, hlengths, htakes⟩ := h
      have hsmall : lowNat ws < 8 := lowNat_lt_of_length hws
      refine ⟨⟨lowNat ws, hsmall⟩ :: sent, ?_, hlengths, ?_⟩
      · rw [List.length_cons, hlen, List.length_cons, Nat.succ_min_succ]
      · have hbits : sentBits ⟨lowNat ws, hsmall⟩ = ws := lowBits_of_length hws
        rw [List.flatMap_cons, hbits]
        exact htakes₁.trans htakes

theorem precodeLengths_ret (sent : List (Fin 8)) (order : List Nat) {cells : Shorts}
    (hlen : sent.length ≤ order.length) (hroom : ∀ p ∈ order, p < cells.length) (hs : Ready s)
    (hahead : s.ahead = sent.flatMap sentBits ++ rest) :
    ∃ s', precodeLengths sent.length order cells s = .ret (placed order sent cells) s' ∧
      Takes s (sent.flatMap sentBits) s' := by
  induction order generalizing sent cells s with
  | nil =>
    obtain rfl : sent = [] := List.length_eq_zero_iff.1 (Nat.le_zero.1 hlen)
    exact ⟨s, by rw [precodeLengths]; rfl, hs.takes_nil⟩
  | cons p order ih =>
    have hlt := hroom p List.mem_cons_self
    have hroom' : ∀ v : Nat, ∀ r ∈ order, r < (cells.set p (some v)).length := by
      intro v r hr
      rw [List.length_set]
      exact hroom r (List.mem_cons_of_mem _ hr)
    cases sent with
    | nil =>
      obtain ⟨s', hret, htakes⟩ := ih [] (Nat.zero_le _) (hroom' 0) hs hahead
      refine ⟨s', ?_, htakes⟩
      rw [List.length_nil, precodeLengths, bind_ret (defined_some (store_eq hlt 0) s)]
      exact hret
    | cons l sent =>
      rw [List.flatMap_cons, List.append_assoc] at hahead
      obtain ⟨s₁, hbits, htakes₁⟩ := bits_lowBits hs (n := 3) l.isLt hahead
      obtain ⟨s', hret, htakes⟩ := ih sent (Nat.le_of_succ_le_succ hlen) (hroom' _) htakes₁.ready
        (htakes₁.ahead_eq hahead)
      refine ⟨s', ?_, htakes₁.trans htakes⟩
      rw [List.length_cons, precodeLengths, bind_ret hbits,
        bind_ret (defined_some (store_eq hlt _) s₁)]
      exact hret

theorem order_lt : ∀ p ∈ order, p < (List.replicate maxCodes (none : Option Nat)).length := by
  rw [List.length_replicate]
  decide

/-- The table of lengths starts with those of the code length code. -/
theorem holds_placed (sent : List (Fin 8)) :
    Holds (placed order sent (List.replicate maxCodes none)) (precodeOf sent) := by
  intro i l hl
  rw [precodeOf, List.getElem?_map] at hl
  obtain ⟨k, hk, rfl⟩ := Option.map_eq_some_iff.1 hl
  obtain ⟨hi, hik⟩ := List.getElem?_eq_some_iff.1 hk
  rw [List.getElem_range] at hik
  subst hik
  rw [List.length_range] at hi
  have hmem : ∀ i < 19, i ∈ order := by decide
  rw [load_placed (by decide) sent order_lt (hmem i hi)]
  rfl

theorem length_precodeOf (sent : List (Fin 8)) : (precodeOf sent).length = 19 := by
  rw [precodeOf, List.length_map, List.length_range]

theorem precodeOf_le (sent : List (Fin 8)) : ∀ l ∈ precodeOf sent, l ≤ maxBits := by
  intro l hl
  obtain ⟨k, -, rfl⟩ := List.mem_map.1 hl
  rw [precodeLength]
  split
  · rename_i l _
    exact l.isLt.le.trans (by decide)
  · exact Nat.zero_le _

/-! ### The lengths of the two codes -/

/-- The lengths read so far. -/
structure Filled (lengths : Shorts) (ls : List Nat) : Prop where
  holds : Holds lengths ls
  size : lengths.length = maxCodes

section Lengths
variable {lengths : Shorts} {ls ls' : List Nat} {precode : Huffman} {pre : List Nat}

theorem Filled.store (h : Filled lengths ls) (hroom : ls.length < maxCodes) (v : Nat) :
    ∃ lengths', store lengths ls.length v = some lengths' ∧ Filled lengths' (ls ++ [v]) := by
  have hlt : ls.length < lengths.length := by rwa [h.size]
  refine ⟨_, store_eq hlt v, h.holds.snoc hlt v, ?_⟩
  rw [List.length_set, h.size]

theorem fill_spec (h : Filled lengths ls) (len times : Nat) (hroom : ls.length + times ≤ maxCodes) :
    ∃ lengths', fill len times ls.length lengths = some lengths' ∧
      Filled lengths' (ls ++ List.replicate times len) := by
  induction times generalizing lengths ls with
  | zero => exact ⟨lengths, rfl, by rwa [List.replicate_zero, List.append_nil]⟩
  | succ times ih =>
    obtain ⟨lengths₁, hstore, hfilled⟩ := h.store (by omega) len
    have hlen : (ls ++ [len]).length = ls.length + 1 := by simp
    obtain ⟨lengths₂, hfill, hfilled₂⟩ := ih hfilled (by omega)
    rw [hlen] at hfill
    refine ⟨lengths₂, ?_, ?_⟩
    · rw [fill, hstore]
      exact hfill
    · rwa [List.append_assoc, List.singleton_append, ← List.replicate_succ] at hfilled₂

theorem getLast_load (h : Filled lengths ls) (hne : ls ≠ []) :
    load lengths (ls.length - 1) = some (ls.getLast hne) := by
  refine h.holds _ _ ?_
  rw [← List.getLast?_eq_getElem?, List.getLast?_eq_some_getLast hne]

/-- A symbol from 16 on is a run of lengths, or an error at the start of the table. -/
theorem repeats_runs (h : Filled lengths ls) {i : Nat} (hlow : 16 ≤ i) (hi : i < 19)
    (hs : Ready s) :
    Runs (repeats lengths ls.length i) s fun r s' => r = .error (-4) ∨
      ∃ item len times, LengthItem.symbol item = i ∧ r = .ok (len, times) ∧ 0 < times ∧
        item.expand ls = some (ls ++ List.replicate times len) ∧ Takes s item.extra s' := by
  obtain rfl | rfl | rfl : i = 16 ∨ i = 17 ∨ i = 18 := by omega
  · by_cases hne : ls = []
    · subst hne
      exact runs_of_ret rfl hs.within (.inl rfl)
    · have hlen : ls.length ≠ 0 := fun hzero => hne (List.length_eq_zero_iff.1 hzero)
      rw [repeats, if_pos (by decide), if_neg hlen]
      refine Runs.of_eq (bind_ret (defined_some (getLast_load h hne) s)) hs.within ?_
      refine (bits_runs hs 2).bind fun v s₁ hw hv => ?_
      obtain ⟨ws, hws, rfl, htakes⟩ := hv
      refine runs_of_ret rfl hw.self (.inr ⟨.again ⟨lowNat ws, lowNat_lt_of_length hws⟩,
        ls.getLast hne, 3 + lowNat ws, rfl, rfl, by omega, ?_, ?_⟩)
      · rw [LengthItem.expand, List.getLast?_eq_some_getLast hne]
        rfl
      · rw [LengthItem.extra, lowBits_of_length hws]
        exact htakes
  · refine (bits_runs hs 3).bind fun v s₁ hw hv => ?_
    obtain ⟨ws, hws, rfl, htakes⟩ := hv
    refine runs_of_ret rfl hw.self (.inr ⟨.zeros ⟨lowNat ws, lowNat_lt_of_length hws⟩, 0,
      3 + lowNat ws, rfl, rfl, by omega, rfl, ?_⟩)
    rw [LengthItem.extra, lowBits_of_length hws]
    exact htakes
  · refine (bits_runs hs 7).bind fun v s₁ hw hv => ?_
    obtain ⟨ws, hws, rfl, htakes⟩ := hv
    refine runs_of_ret rfl hw.self (.inr ⟨.manyZeros ⟨lowNat ws, lowNat_lt_of_length hws⟩, 0,
      11 + lowNat ws, rfl, rfl, by omega, rfl, ?_⟩)
    rw [LengthItem.extra, lowBits_of_length hws]
    exact htakes

theorem repeats_ret (h : Filled lengths ls) (item : LengthItem) (hlow : 16 ≤ item.symbol)
    (hexpand : item.expand ls = some ls') (hs : Ready s) (hahead : s.ahead = item.extra ++ rest) :
    ∃ len times s', repeats lengths ls.length item.symbol s = .ret (.ok (len, times)) s' ∧
      0 < times ∧ ls' = ls ++ List.replicate times len ∧ Takes s item.extra s' := by
  cases item with
  | length l =>
    have hl := l.isLt
    rw [LengthItem.symbol] at hlow
    omega
  | again times =>
    rw [LengthItem.expand] at hexpand
    obtain ⟨len, hlast, rfl⟩ := Option.map_eq_some_iff.1 hexpand
    have hne : ls ≠ [] := by
      rintro rfl
      cases hlast
    have hlen : ls.length ≠ 0 := fun hzero => hne (List.length_eq_zero_iff.1 hzero)
    rw [List.getLast?_eq_some_getLast hne] at hlast
    obtain rfl := Option.some.inj hlast
    obtain ⟨s', hbits, htakes⟩ := bits_lowBits hs (n := 2) times.isLt hahead
    refine ⟨_, 3 + times, s', ?_, by omega, rfl, htakes⟩
    rw [repeats, LengthItem.symbol, if_pos (by decide), if_neg hlen,
      bind_ret (defined_some (getLast_load h hne) s), bind_ret hbits]
    rfl
  | zeros times =>
    obtain ⟨s', hbits, htakes⟩ := bits_lowBits hs (n := 3) times.isLt hahead
    refine ⟨0, 3 + times, s', ?_, by omega, (Option.some.inj hexpand).symm, htakes⟩
    change (bits 3 >>= _) s = _
    rw [bind_ret hbits]
    rfl
  | manyZeros times =>
    obtain ⟨s', hbits, htakes⟩ := bits_lowBits hs (n := 7) times.isLt hahead
    refine ⟨0, 11 + times, s', ?_, by omega, (Option.some.inj hexpand).symm, htakes⟩
    change (bits 7 >>= _) s = _
    rw [bind_ret hbits]
    rfl

/-- What the loop over the lengths has read when it ends. -/
def ReadsLengths (pre : List Nat) (total : Nat) (ls : List Nat) (s : State) :
    Except Int Shorts → State → Prop
  | .error err, _ => err < 0
  | .ok lengths, s' => ∃ items ls', (∀ item ∈ items, ∃ l, HasWord pre (LengthItem.symbol item) l) ∧
      expandLengths ls items = some ls' ∧ ls'.length = total ∧ Filled lengths ls' ∧
        Takes s (items.flatMap (LengthItem.encode pre)) s'

theorem ReadsLengths.cons {total : Nat} {s₁ : State} {r : Except Int Shorts} {item : LengthItem}
    {l : Nat} (hword : HasWord pre item.symbol l) (hexpand : item.expand ls = some ls')
    (htakes : Takes s (item.encode pre) s₁) (h : ReadsLengths pre total ls' s₁ r s') :
    ReadsLengths pre total ls s r s' := by
  cases r with
  | error err => exact h
  | ok lengths =>
    obtain ⟨items, out, hitems, hexpands, hlen, hfilled, htakes'⟩ := h
    refine ⟨item :: items, out, ?_, expandLengths_cons.2 ⟨ls', hexpand, hexpands⟩, hlen, hfilled,
      ?_⟩
    · intro other hother
      cases List.mem_cons.1 hother with
      | inl h => exact ⟨l, h ▸ hword⟩
      | inr h => exact hitems other h
    · rw [List.flatMap_cons]
      exact htakes.trans htakes'

/-- The loop over the lengths, from `ls` on. -/
theorem codeLengths_runs (hr : Represents precode pre) (hpre : pre.length = 19) {total : Nat}
    (htotal : total ≤ maxCodes) (fuel : Nat) (h : Filled lengths ls) (hle : ls.length ≤ total)
    (hfuel : total ≤ ls.length + fuel) (hs : Ready s) :
    Runs (codeLengths precode total fuel ls.length lengths) s (ReadsLengths pre total ls s) := by
  have hdone : ls.length = total → ReadsLengths pre total ls s (.ok lengths) s := fun hlen =>
    ⟨[], ls, by simp, rfl, hlen, h, hs.takes_nil⟩
  induction fuel generalizing ls lengths s with
  | zero =>
    rw [codeLengths, if_neg (by omega)]
    exact runs_of_ret rfl hs.within (hdone (by omega))
  | succ fuel ih =>
    rw [codeLengths]
    by_cases hlt : ls.length < total
    swap
    · rw [if_neg hlt]
      exact runs_of_ret rfl hs.within (hdone (by omega))
    rw [if_pos hlt]
    refine (decode_runs hr hs).bind fun symbol s₁ hw₁ hsymbol => ?_
    rcases hsymbol with hsymbol | ⟨i, l, hword, rfl, htakes⟩
    · rw [if_pos hsymbol]
      exact runs_of_ret rfl hw₁.self hsymbol
    rw [if_neg (Int.not_lt.2 (Int.natCast_nonneg i))]
    have hi : i < 19 := hpre ▸ hword.lt_length
    have hnext : ∀ (item : LengthItem) {lengths' : Shorts} {ls' : List Nat} {s₂ : State},
        item.symbol = i → item.expand ls = some ls' → ls'.length ≤ total →
        Filled lengths' ls' → Takes s₁ item.extra s₂ →
        Runs (codeLengths precode total fuel ls'.length lengths') s₂
          (ReadsLengths pre total ls s) := by
      intro item lengths' ls' s₂ hitem hexpand hle' hfilled htakes₂
      subst hitem
      have hgrow := LengthItem.length_expand hexpand
      refine (ih hfilled hle' (by omega) htakes₂.ready ?_).mono fun r s' h => ?_
      · exact fun hlen => ⟨[], ls', by simp, rfl, hlen, hfilled, htakes₂.ready.takes_nil⟩
      · exact h.cons hword hexpand (htakes.trans htakes₂)
    by_cases hshort : i < 16
    · rw [if_pos (by omega), Int.toNat_natCast]
      obtain ⟨lengths₁, hstore, hfilled⟩ := h.store (by omega) i
      refine Runs.of_eq (bind_ret (defined_some hstore s₁)) hw₁.self ?_
      have hlen : (ls ++ [i]).length = ls.length + 1 := by simp
      have hrest := hnext (.length ⟨i, hshort⟩) rfl rfl
        (show (ls ++ [i]).length ≤ total by omega) hfilled htakes.ready.takes_nil
      rwa [hlen] at hrest
    · rw [if_neg (by omega)]
      refine (repeats_runs h (by omega) hi htakes.ready).bind fun r s₂ hw₂ hrun => ?_
      rcases hrun with rfl | ⟨item, len, times, hsym, rfl, hpos, hexpand, htakes₂⟩
      · exact runs_of_ret rfl hw₂.self (show (-4 : Int) < 0 by decide)
      · by_cases hover : ls.length + times > total
        · simp only
          rw [if_pos hover]
          exact runs_of_ret rfl hw₂.self (show (-4 : Int) < 0 by decide)
        · simp only
          rw [if_neg hover]
          obtain ⟨lengths₁, hfill, hfilled⟩ := fill_spec h len times (by omega)
          refine Runs.of_eq (bind_ret (defined_some hfill s₂)) hw₂.self ?_
          have hlen : (ls ++ List.replicate times len).length = ls.length + times := by simp
          have hrest := hnext item hsym hexpand (by omega) hfilled htakes₂
          rwa [hlen] at hrest

/-- The lengths are read as they were written. -/
theorem codeLengths_ret (hr : Represents precode pre) (hfit : Fits maxBits pre)
    (hle : ∀ l ∈ pre, l ≤ maxBits) (total : Nat) {fuel : Nat} (htotal : total ≤ maxCodes)
    (items : List LengthItem) (hitems : ∀ item ∈ items, ∃ l, HasWord pre item.symbol l)
    (hexpand : expandLengths ls items = some ls') (hlen : ls'.length = total)
    (hfuel : total ≤ ls.length + fuel) (h : Filled lengths ls) (hs : Ready s)
    (hahead : s.ahead = items.flatMap (LengthItem.encode pre) ++ rest) :
    ∃ lengths' s', codeLengths precode total fuel ls.length lengths s = .ret (.ok lengths') s' ∧
      Filled lengths' ls' ∧ Takes s (items.flatMap (LengthItem.encode pre)) s' := by
  induction items generalizing ls lengths s fuel with
  | nil =>
    obtain rfl := Option.some.inj hexpand
    refine ⟨lengths, s, ?_, h, hs.takes_nil⟩
    cases fuel <;> rw [codeLengths, if_neg (by omega)] <;> rfl
  | cons item items ih =>
    obtain ⟨next, hitem, hrest⟩ := expandLengths_cons.1 hexpand
    have hgrow := LengthItem.length_expand hitem
    have hmore := length_expandLengths hrest
    obtain ⟨l, hword⟩ := hitems item List.mem_cons_self
    rw [List.flatMap_cons, List.append_assoc, LengthItem.encode, List.append_assoc] at hahead
    obtain ⟨s₁, hdecode, htakes₁, hahead₁⟩ := decode_ret hr hfit hle hword hs hahead
    obtain ⟨fuel, rfl⟩ : ∃ k, fuel = k + 1 := ⟨fuel - 1, by omega⟩
    have hnext : ∀ {lengths' : Shorts} {s₂ : State}, Filled lengths' next →
        Takes s₁ item.extra s₂ →
        codeLengths precode total (fuel + 1) ls.length lengths s =
          codeLengths precode total fuel next.length lengths' s₂ →
        ∃ lengths'' s', codeLengths precode total (fuel + 1) ls.length lengths s =
            .ret (.ok lengths'') s' ∧ Filled lengths'' ls' ∧
          Takes s ((item :: items).flatMap (LengthItem.encode pre)) s' := by
      intro lengths' s₂ hfilled htakes₂ hpass
      obtain ⟨lengths'', s', hloop, hfilled', htakes'⟩ := ih
        (fun other hother => hitems other (List.mem_cons_of_mem _ hother)) hrest
        (show total ≤ next.length + fuel by omega) hfilled htakes₂.ready (htakes₂.ahead_eq hahead₁)
      rw [hpass]
      exact ⟨lengths'', s', hloop, hfilled', (htakes₁.trans htakes₂).trans htakes'⟩
    by_cases hshort : item.symbol < 16
    · cases item with
      | length l =>
        obtain rfl := Option.some.inj hitem
        rw [List.length_append, List.length_singleton] at hmore
        obtain ⟨lengths₁, hstore, hfilled⟩ := h.store (by omega) l.val
        refine hnext hfilled htakes₁.ready.takes_nil ?_
        rw [codeLengths, if_pos (by omega), bind_ret hdecode, if_neg (by omega), if_pos (by omega),
          Int.toNat_natCast, LengthItem.symbol, bind_ret (defined_some hstore s₁),
          List.length_append, List.length_singleton]
      | again times => exact absurd hshort (by simp [LengthItem.symbol])
      | zeros times => exact absurd hshort (by simp [LengthItem.symbol])
      | manyZeros times => exact absurd hshort (by simp [LengthItem.symbol])
    · obtain ⟨len, times, s₂, hrepeats, hpos, rfl, htakes₂⟩ :=
        repeats_ret h item (by omega) hitem htakes₁.ready hahead₁
      rw [List.length_append, List.length_replicate] at hmore
      obtain ⟨lengths₁, hfill, hfilled⟩ := fill_spec h len times (by omega)
      refine hnext hfilled htakes₂ ?_
      rw [codeLengths, if_pos (by omega), bind_ret hdecode, if_neg (by omega), if_neg (by omega),
        bind_ret hrepeats]
      simp only
      rw [if_neg (by omega), bind_ret (defined_some hfill s₂), List.length_append,
        List.length_replicate]

end Lengths

end MoshTcp.Puff
