import MoshTcp.PuffTables
import MoshTcp.Deflate

/-! `codes` and `stored`: the bodies of the blocks. Each is followed both ways, from what it
accepts to a body in the grammar and from a body in the grammar to what it writes. -/

set_option autoImplicit false

namespace MoshTcp.Puff
open ByteOrder BitStreams PrefixCodes Memory Deflate

variable {s s' s'' : State} {ws vs rest : List Bool}

def State.withOut (s : State) (out : Bytes) : State := { s with out := out }

theorem State.withOut_out (s : State) (out : Bytes) : (s.withOut out).out = out := rfl

theorem Ready.withOut (h : Ready s) {out : Bytes} (hout : out.length ≤ s.outlen) :
    Ready (s.withOut out) :=
  ⟨h.bitcnt_lt, h.bitbuf_lt, h.incnt_le, hout⟩

theorem Reads.withOut (h : Reads s ws s') {out : Bytes} (hout : out.length ≤ s'.outlen) :
    Reads s ws (s'.withOut out) :=
  ⟨h.ready.withOut hout, ⟨h.within.source, h.within.outlen, h.within.incnt_le, hout⟩, h.ahead⟩

theorem within_withOut (h : Ready s) {out : Bytes} (hout : out.length ≤ s.outlen) :
    Within s (s.withOut out) := ⟨rfl, rfl, h.incnt_le, hout⟩

theorem putByte_ret {b : UInt8} (h : s.out.length < s.outlen) :
    putByte b s = .ret () (s.withOut (s.out ++ [b])) := by
  rw [putByte, if_pos h]
  rfl

/-- A copy that reaches back to bytes that are there, and has room. -/
theorem copyBack_ret {dist : Nat} (hpos : 0 < dist) (len : Nat) (out : Bytes)
    (hle : dist ≤ out.length) (hroom : out.length + len ≤ s.outlen) :
    copyBack dist len (s.withOut out) = .ret () (s.withOut (copyBytes dist len out)) := by
  induction len generalizing out with
  | zero => rfl
  | succ len ih =>
    have hlen := length_repeatByte hpos hle
    have hlt : out.length - dist < out.length := by omega
    have hget : out[out.length - dist]? = some out[out.length - dist] :=
      List.getElem?_eq_getElem hlt
    have hput : putByte out[out.length - dist] (s.withOut out) =
        .ret () (s.withOut (repeatByte dist out)) := by
      rw [repeatByte, hget]
      exact putByte_ret (show out.length < s.outlen by omega)
    rw [copyBack, bind_ret (getState_apply _), State.withOut_out,
      bind_ret (defined_some hget _), bind_ret hput, copyBytes]
    exact ih (repeatByte dist out) (by omega) (by omega)

theorem load_lens : ∀ c < 29, load lens c = some (lengthBase c) := by decide

theorem load_lext : ∀ c < 29, load lext c = some (lengthExtra c) := by decide

theorem load_dists : ∀ c < 30, load dists c = some (distanceBase c) := by decide

theorem load_dext : ∀ c < 30, load dext c = some (distanceExtra c) := by decide

/-! ### `codes` -/

section Codes
variable {lencode distcode : Huffman} {codes : Codes}

/-- The tables that `codes` is called with. -/
structure Tables (lencode distcode : Huffman) (codes : Codes) : Prop where
  literals : Represents lencode codes.literals
  distances : Represents distcode codes.distances
  distances_length : codes.distances.length ≤ 30

/-- What a block that ends well has read and written. -/
def ReadsItems (codes : Codes) (s : State) (v : Int) (s' : State) : Prop :=
  v = 0 → ∃ items : List Item, (∀ item ∈ items, item.Encodable codes) ∧
    (∃ l, HasWord codes.literals 256 l) ∧ Reads s (encodeItems codes items) s' ∧
      expandItems s.out items = some s'.out

theorem ReadsItems.cons (item : Item) {out : Bytes} {v : Int} (hitem : item.Encodable codes)
    (hread : Reads s (item.encode codes) s'') (hout : s''.out = out)
    (hexpand : item.expand s.out = some out) (h : ReadsItems codes s'' v s') :
    ReadsItems codes s v s' := by
  intro hv
  obtain ⟨items, henc, hend, hreads, hexpands⟩ := h hv
  refine ⟨item :: items, ?_, hend, ?_, ?_⟩
  · intro other hother
    rw [List.mem_cons] at hother
    cases hother with
    | inl h => exact h ▸ hitem
    | inr h => exact henc other h
  · have htrans := hread.trans hreads
    rwa [encodeItems, ← List.append_assoc, ← List.flatMap_cons] at htrans
  · rw [hout] at hexpands
    exact expandItems_cons.2 ⟨out, hexpand, hexpands⟩

theorem literal_toNat {i : Nat} (h : i < 256) : (UInt8.ofNat i).toNat = i := by
  rw [UInt8.toNat_ofNat']
  omega

/-- The second half of a copy: a distance, the checks, and the copy itself. -/
def copyItem (distcode : Huffman) (len : Nat) (next : Inflate Int) : Inflate Int := do
  let symbol ← decode distcode
  if symbol < 0 then return symbol
  else do
    let dist := (← defined (load dists symbol.toNat)) +
      (← bits (← defined (load dext symbol.toNat)))
    let s ← getState
    if dist > s.out.length then return -6
    else if s.out.length + len > s.outlen then return -1
    else do
      copyBack dist len
      next

theorem codesLoop_succ (fuel : Nat) :
    codesLoop lencode distcode (fuel + 1) = (do
      let symbol ← decode lencode
      if symbol < 0 then return symbol
      else if symbol < 256 then do
        let s ← getState
        if s.out.length ≥ s.outlen then return -1
        else do
          putByte (UInt8.ofNat symbol.toNat)
          codesLoop lencode distcode fuel
      else if symbol > 256 then do
        if symbol - 257 ≥ 29 then return -5
        else do
          let base ← defined (load lens (symbol - 257).toNat)
          let extra ← bits (← defined (load lext (symbol - 257).toNat))
          copyItem distcode (base + extra) (codesLoop lencode distcode fuel)
      else return 0) := rfl

theorem copyItem_runs (ht : Tables lencode distcode codes) (hs : Ready s) (len : Nat)
    {next : Inflate Int} {post : Int → State → Prop} (hneg : ∀ v s', v < 0 → post v s')
    (hnext : ∀ (c : Fin 30) (farther : Fin (2 ^ distanceExtra c)) s'',
      (∃ l, HasWord codes.distances c l) →
      Reads s (codeword codes.distances c ++ lowBits (distanceExtra c) farther) s'' →
      distanceBase c + farther ≤ s.out.length →
      s''.out = copyBytes (distanceBase c + farther) len s.out → Runs next s'' post) :
    Runs (copyItem distcode len next) s post := by
  refine (decode_runs ht.distances hs).bind fun symbol s₁ hw₁ hsymbol => ?_
  rcases hsymbol with hsymbol | ⟨c, l, hword, rfl, htakes⟩
  · rw [if_pos hsymbol]
    exact runs_of_ret rfl hw₁.self (hneg _ _ hsymbol)
  have hc : c < 30 := hword.lt_length.trans_le ht.distances_length
  rw [if_neg (by omega), Int.toNat_natCast]
  refine Runs.of_eq (bind_ret (defined_some (load_dists c hc) s₁)) htakes.ready.within ?_
  refine Runs.of_eq (bind_ret (defined_some (load_dext c hc) s₁)) htakes.ready.within ?_
  refine (bits_runs htakes.ready _).bind fun v s₂ _ hv => ?_
  obtain ⟨ws, hws, rfl, htakes₂⟩ := hv
  have hready := htakes₂.ready
  have hall := htakes.trans htakes₂
  refine Runs.of_eq (bind_ret (getState_apply s₂)) hready.within ?_
  by_cases hfar : distanceBase c + lowNat ws > s₂.out.length
  · rw [if_pos hfar]
    exact runs_of_ret rfl hready.within (hneg _ _ (by decide))
  rw [if_neg hfar]
  by_cases hroom : s₂.out.length + len > s₂.outlen
  · rw [if_pos hroom]
    exact runs_of_ret rfl hready.within (hneg _ _ (by decide))
  rw [if_neg hroom]
  have hpos : 0 < distanceBase c + lowNat ws := Nat.add_pos_left (distanceBase_pos c) _
  have hcopy := copyBack_ret (s := s₂) hpos len s₂.out (by omega) (by omega)
  have hlen := length_copyBytes hpos len (Nat.le_of_not_lt hfar)
  have hfit : (copyBytes (distanceBase c + lowNat ws) len s₂.out).length ≤ s₂.outlen := by omega
  refine Runs.of_eq (bind_ret hcopy) (within_withOut hready hfit) ?_
  refine hnext ⟨c, hc⟩ ⟨lowNat ws, lowNat_lt_of_length hws⟩ _ ⟨l, hword⟩ ?_ ?_ ?_
  · rw [lowBits_of_length hws]
    exact hall.toReads.withOut hfit
  · rw [← hall.out]
    exact Nat.le_of_not_lt hfar
  · rw [← hall.out]
    rfl

theorem literal_runs {i l : Nat} {next : Inflate Int} (hword : HasWord codes.literals i l)
    (hliteral : i < 256) (htakes : Takes s (codeword codes.literals i) s')
    (hnext : ∀ s'', Reads s (codeword codes.literals i) s'' →
      Runs next s'' (ReadsItems codes s'')) :
    Runs (do
      let s ← getState
      if s.out.length ≥ s.outlen then return -1
      else do
        putByte (UInt8.ofNat i)
        next) s' (ReadsItems codes s) := by
  refine Runs.of_eq (bind_ret (getState_apply s')) htakes.ready.within ?_
  by_cases hroom : s'.out.length ≥ s'.outlen
  · rw [if_pos hroom]
    exact runs_of_ret rfl htakes.ready.within fun h => absurd h (by decide)
  rw [if_neg hroom]
  have hlt : s'.out.length < s'.outlen := by omega
  have hfit : (s'.out ++ [UInt8.ofNat i]).length ≤ s'.outlen := by
    rw [List.length_append]
    exact hlt
  have hread := htakes.toReads.withOut hfit
  refine Runs.of_eq (bind_ret (putByte_ret hlt)) (within_withOut htakes.ready hfit) ?_
  refine (hnext _ hread).mono fun v s'' h => ?_
  refine h.cons (.literal (UInt8.ofNat i)) ?_ ?_ rfl ?_
  · rw [Item.Encodable, literal_toNat hliteral]
    exact ⟨l, hword⟩
  · rw [Item.encode, literal_toNat hliteral]
    exact hread
  · rw [Item.expand, ← htakes.out]
    rfl

/-- The length of a copy, after its word, and what follows. -/
theorem length_runs (ht : Tables lencode distcode codes) {c l : Nat} {next : Inflate Int}
    (hword : HasWord codes.literals (257 + c) l) (hc : c < 29)
    (htakes : Takes s (codeword codes.literals (257 + c)) s')
    (hnext : ∀ s'' vs, Reads s (codeword codes.literals (257 + c) ++ vs) s'' →
      Runs next s'' (ReadsItems codes s'')) :
    Runs (do
      let base ← defined (load lens c)
      let extra ← bits (← defined (load lext c))
      copyItem distcode (base + extra) next) s' (ReadsItems codes s) := by
  refine Runs.of_eq (bind_ret (defined_some (load_lens c hc) s')) htakes.ready.within ?_
  refine Runs.of_eq (bind_ret (defined_some (load_lext c hc) s')) htakes.ready.within ?_
  refine (bits_runs htakes.ready _).bind fun v s₁ _ hv => ?_
  obtain ⟨ws, hws, rfl, htakes₁⟩ := hv
  have hall := htakes.trans htakes₁
  have hlt : lowNat ws < 2 ^ lengthExtra c := lowNat_lt_of_length hws
  refine copyItem_runs ht htakes₁.ready _ (fun v s' hv h => by omega) ?_
  intro d farther s₂ hdist hread hfar hout
  have hread' := hall.toReads.trans hread
  rw [List.append_assoc] at hread'
  refine (hnext s₂ _ hread').mono fun v s' h => ?_
  refine h.cons (.copy ⟨c, hc⟩ ⟨lowNat ws, hlt⟩ d farther) ⟨⟨l, hword⟩, hdist⟩ ?_ hout ?_
  · rw [Item.encode, lowBits_of_length hws]
    exact hread'
  · rw [Item.expand, ← hall.out, if_pos hfar]

/-- Every pass of the loop takes at least one bit. -/
theorem codesLoop_runs (ht : Tables lencode distcode codes) (fuel : Nat) (hs : Ready s)
    (hfuel : s.bitsLeft < fuel) :
    Runs (codesLoop lencode distcode fuel) s (ReadsItems codes s) := by
  induction fuel generalizing s with
  | zero => omega
  | succ fuel ih =>
    rw [codesLoop_succ]
    refine (decode_runs ht.literals hs).bind fun symbol s₁ hw₁ hsymbol => ?_
    rcases hsymbol with hsymbol | ⟨i, l, hword, rfl, htakes⟩
    · rw [if_pos hsymbol]
      exact runs_of_ret rfl hw₁.self fun h => by omega
    have hone := List.length_pos_iff.2 (codeword_ne_nil hword)
    have hnext : ∀ s'' vs, Reads s (codeword codes.literals i ++ vs) s'' →
        Runs (codesLoop lencode distcode fuel) s'' (ReadsItems codes s'') := by
      intro s'' vs hread
      have hbits := hread.bitsLeft
      rw [List.length_append] at hbits
      exact ih hread.ready (by omega)
    rw [if_neg (Int.not_lt.2 (Int.natCast_nonneg i))]
    cases Nat.lt_trichotomy i 256 with
    | inl hliteral =>
      rw [if_pos (by omega), Int.toNat_natCast]
      refine literal_runs hword hliteral htakes fun s'' hread => hnext s'' [] ?_
      rwa [List.append_nil]
    | inr hother =>
      rw [if_neg (by omega)]
      cases hother with
      | inl hend =>
        rw [if_neg (by omega)]
        rw [hend] at hword htakes
        refine runs_of_ret rfl htakes.ready.within fun _ => ⟨[], by simp, ⟨l, hword⟩, ?_, ?_⟩
        · rw [encodeItems, List.flatMap_nil, List.nil_append]
          exact htakes.toReads
        · rw [htakes.out]
          rfl
      | inr hlength =>
        rw [if_pos (by omega)]
        by_cases hcode : (i : Int) - 257 ≥ 29
        · rw [if_pos hcode]
          exact runs_of_ret rfl htakes.ready.within fun h => absurd h (by decide)
        rw [if_neg hcode]
        obtain ⟨c, hc, rfl⟩ : ∃ c, c < 29 ∧ i = 257 + c := ⟨i - 257, by omega, by omega⟩
        have hnat : (((257 + c : Nat) : Int) - 257).toNat = c := by omega
        rw [hnat]
        exact length_runs ht hword hc htakes hnext

theorem codes_runs (ht : Tables lencode distcode codes) (hs : Ready s) :
    Runs (Puff.codes lencode distcode) s (ReadsItems codes s) := by
  have hloop := codesLoop_runs ht (s.bitsLeft + 1) hs (Nat.lt_succ_self _)
  have heq : Puff.codes lencode distcode s = codesLoop lencode distcode (s.bitsLeft + 1) s := rfl
  exact hloop.of_eq heq hs.within

/-- The words of both alphabets can be told apart. -/
structure Readable (codes : Codes) : Prop where
  literals_fit : Fits maxBits codes.literals
  distances_fit : Fits maxBits codes.distances
  literals_le : ∀ l ∈ codes.literals, l ≤ maxBits
  distances_le : ∀ l ∈ codes.distances, l ≤ maxBits

theorem copyItem_ret (ht : Tables lencode distcode codes) (hr : Readable codes) (hs : Ready s)
    (len : Nat) (next : Inflate Int) (c : Fin 30) (farther : Fin (2 ^ distanceExtra c)) {l : Nat}
    (hword : HasWord codes.distances c l)
    (hahead : s.ahead = codeword codes.distances c ++ (lowBits (distanceExtra c) farther ++ rest))
    (hfar : distanceBase c + farther ≤ s.out.length) (hroom : s.out.length + len ≤ s.outlen) :
    ∃ s', copyItem distcode len next s = next s' ∧
      Reads s (codeword codes.distances c ++ lowBits (distanceExtra c) farther) s' ∧
      s'.out = copyBytes (distanceBase c + farther) len s.out := by
  obtain ⟨s₁, hdecode, htakes₁, hahead₁⟩ :=
    decode_ret ht.distances hr.distances_fit hr.distances_le hword hs hahead
  obtain ⟨s₂, hbits, htakes₂⟩ := bits_lowBits htakes₁.ready farther.isLt hahead₁
  have hall := htakes₁.trans htakes₂
  rw [← hall.out] at hfar
  rw [← hall.out, ← hall.within.outlen] at hroom
  have hpos : 0 < distanceBase c + farther := Nat.add_pos_left (distanceBase_pos c) _
  have hcopy := copyBack_ret (s := s₂) hpos len s₂.out hfar hroom
  have hlen := length_copyBytes hpos len hfar
  refine ⟨s₂.withOut (copyBytes (distanceBase c + farther) len s₂.out), ?_, ?_, ?_⟩
  · rw [copyItem, bind_ret hdecode, if_neg (by omega), Int.toNat_natCast,
      bind_ret (defined_some (load_dists c c.isLt) s₁),
      bind_ret (defined_some (load_dext c c.isLt) s₁), bind_ret hbits,
      bind_ret (getState_apply s₂), if_neg (by omega), if_neg (by omega)]
    exact bind_ret hcopy
  · exact hall.toReads.withOut (by omega)
  · rw [State.withOut_out, hall.out]

theorem item_ret (ht : Tables lencode distcode codes) (hr : Readable codes) (hs : Ready s)
    (item : Item) (hitem : item.Encodable codes) {out : Bytes}
    (hexpand : item.expand s.out = some out) (hroom : out.length ≤ s.outlen)
    (hahead : s.ahead = item.encode codes ++ rest) (fuel : Nat) :
    ∃ s', codesLoop lencode distcode (fuel + 1) s = codesLoop lencode distcode fuel s' ∧
      Reads s (item.encode codes) s' ∧ s'.out = out ∧ 0 < (item.encode codes).length := by
  cases item with
  | literal b =>
    obtain ⟨l, hword⟩ := hitem
    obtain rfl := Option.some.inj hexpand
    rw [List.length_append] at hroom
    obtain ⟨s₁, hdecode, htakes, -⟩ :=
      decode_ret ht.literals hr.literals_fit hr.literals_le hword hs hahead
    have hb := b.toNat_lt
    have hlt : s₁.out.length < s₁.outlen := by
      rw [htakes.out, htakes.within.outlen]
      exact hroom
    refine ⟨s₁.withOut (s₁.out ++ [b]), ?_, ?_, ?_, ?_⟩
    · rw [codesLoop_succ, bind_ret hdecode, if_neg (by omega), if_pos (by omega),
        bind_ret (getState_apply s₁), if_neg (by omega), Int.toNat_natCast, UInt8.ofNat_toNat]
      exact bind_ret (putByte_ret hlt)
    · refine htakes.toReads.withOut ?_
      rw [List.length_append]
      exact hlt
    · rw [State.withOut_out, htakes.out]
    · exact List.length_pos_iff.2 (codeword_ne_nil hword)
  | copy length more distance farther =>
    obtain ⟨⟨l, hword⟩, m, hdist⟩ := hitem
    rw [Item.encode, List.append_assoc, List.append_assoc, List.append_assoc] at hahead
    obtain ⟨s₁, hdecode, htakes₁, hahead₁⟩ :=
      decode_ret ht.literals hr.literals_fit hr.literals_le hword hs hahead
    obtain ⟨s₂, hbits, htakes₂⟩ := bits_lowBits htakes₁.ready more.isLt hahead₁
    have hall := htakes₁.trans htakes₂
    rw [Item.expand, ← hall.out] at hexpand
    split at hexpand
    · rename_i hfar
      obtain rfl := Option.some.inj hexpand
      rw [length_copyBytes (Nat.add_pos_left (distanceBase_pos _) _) _ hfar,
        ← hall.within.outlen] at hroom
      obtain ⟨s₃, hcopy, hread, hout⟩ := copyItem_ret ht hr htakes₂.ready _
        (codesLoop lencode distcode fuel) distance farther hdist (htakes₂.ahead_eq hahead₁) hfar
        hroom
      have hc := length.isLt
      have hnat : (((257 + length : Nat) : Int) - 257).toNat = length := by omega
      refine ⟨s₃, ?_, ?_, hout, ?_⟩
      · rw [codesLoop_succ, bind_ret hdecode, if_neg (by omega), if_neg (by omega),
          if_pos (by omega), if_neg (by omega), hnat,
          bind_ret (defined_some (load_lens length hc) s₁),
          bind_ret (defined_some (load_lext length hc) s₁), bind_ret hbits]
        exact hcopy
      · have hthree := hall.toReads.trans hread
        rwa [List.append_assoc] at hthree
      · rw [Item.encode, List.length_append]
        exact Nat.add_pos_left (List.length_pos_iff.2 (codeword_ne_nil hword)) _
    · cases hexpand

theorem codesLoop_ret (ht : Tables lencode distcode codes) (hr : Readable codes)
    (hend : ∃ l, HasWord codes.literals 256 l) (items : List Item)
    (hitems : ∀ item ∈ items, item.Encodable codes) {out : Bytes} {fuel : Nat} (hs : Ready s)
    (hexpand : expandItems s.out items = some out) (hroom : out.length ≤ s.outlen)
    (hahead : s.ahead = encodeItems codes items ++ rest) (hfuel : s.bitsLeft < fuel) :
    ∃ s', codesLoop lencode distcode fuel s = .ret 0 s' ∧
      Reads s (encodeItems codes items) s' ∧ s'.out = out := by
  induction items generalizing s fuel with
  | nil =>
    obtain ⟨l, hword⟩ := hend
    obtain ⟨fuel, rfl⟩ : ∃ k, fuel = k + 1 := ⟨fuel - 1, by omega⟩
    obtain ⟨s₁, hdecode, htakes, -⟩ :=
      decode_ret ht.literals hr.literals_fit hr.literals_le hword hs hahead
    refine ⟨s₁, ?_, htakes.toReads, htakes.out.trans (Option.some.inj hexpand)⟩
    rw [codesLoop_succ, bind_ret hdecode]
    rfl
  | cons item items ih =>
    obtain ⟨next, hitem, hrest⟩ := expandItems_cons.1 hexpand
    have hsplit : encodeItems codes (item :: items) =
        item.encode codes ++ encodeItems codes items := by
      rw [encodeItems, List.flatMap_cons, List.append_assoc, encodeItems]
    rw [hsplit, List.append_assoc] at hahead
    obtain ⟨fuel, rfl⟩ : ∃ k, fuel = k + 1 := ⟨fuel - 1, by omega⟩
    obtain ⟨s₁, hpass, hread, hout, hpos⟩ := item_ret ht hr hs item
      (hitems item List.mem_cons_self) hitem ((length_expandItems hrest).trans hroom) hahead fuel
    have hbits := hread.bitsLeft
    rw [← hout] at hrest
    rw [← hread.within.outlen] at hroom
    obtain ⟨s', hloop, hreads, hout'⟩ := ih
      (fun other hother => hitems other (List.mem_cons_of_mem _ hother)) hread.ready hrest hroom
      (hread.ahead_eq hahead) (show s₁.bitsLeft < fuel by omega)
    rw [hpass, hsplit]
    exact ⟨s', hloop, hread.trans hreads, hout'⟩

/-- The items of a block and its end are read as they were written. -/
theorem codes_ret (ht : Tables lencode distcode codes) (hr : Readable codes)
    (hend : ∃ l, HasWord codes.literals 256 l) (items : List Item)
    (hitems : ∀ item ∈ items, item.Encodable codes) {out : Bytes} (hs : Ready s)
    (hexpand : expandItems s.out items = some out) (hroom : out.length ≤ s.outlen)
    (hahead : s.ahead = encodeItems codes items ++ rest) :
    ∃ s', Puff.codes lencode distcode s = .ret 0 s' ∧
      Reads s (encodeItems codes items) s' ∧ s'.out = out :=
  codesLoop_ret ht hr hend items hitems hs hexpand hroom hahead (Nat.lt_succ_self _)

end Codes

/-! ### `stored` -/

section Stored
variable {lo hi nlo nhi : UInt8} {tail : Bytes}

theorem stored_len (lo hi : UInt8) :
    (lo.toUInt32 ||| hi.toUInt32 <<< 8).toNat = lo.toNat + 256 * hi.toNat := by
  have hlo := lo.toNat_lt
  have hhi := hi.toNat_lt
  rw [UInt32.toNat_or, UInt32.toNat_shiftLeft, UInt8.toNat_toUInt32, UInt8.toNat_toUInt32]
  have hshift : hi.toNat <<< ((8 : UInt32).toNat % 32) % 2 ^ 32 = hi.toNat <<< 8 := by
    change hi.toNat <<< 8 % 2 ^ 32 = _
    rw [Nat.shiftLeft_eq]
    exact Nat.mod_eq_of_lt (by omega)
  rw [hshift, or_shift_eq hlo]
  omega

/-- The test on the complement of the length. -/
theorem stored_check (nlo nhi : UInt8) (len : UInt32) (hlen : len.toNat < 2 ^ 16) :
    (nlo.toUInt32 ≠ ~~~len &&& 0xff ∨ nhi.toUInt32 ≠ ~~~len >>> 8 &&& 0xff) ↔
      nlo.toNat + 256 * nhi.toNat ≠ 2 ^ 16 - 1 - len.toNat := by
  have hnlo := nlo.toNat_lt
  have hnhi := nhi.toNat_lt
  have hand : ∀ v : UInt32, (v &&& 0xff).toNat = v.toNat % 256 := fun v => by
    rw [UInt32.toNat_and]
    exact Nat.and_two_pow_sub_one_eq_mod v.toNat 8
  have hnot : (~~~len).toNat = 2 ^ 32 - 1 - len.toNat := UInt32.toNat_not len
  have hshift : (~~~len >>> 8).toNat = (2 ^ 32 - 1 - len.toNat) / 256 := by
    rw [UInt32.toNat_shiftRight, hnot]
    exact Nat.shiftRight_eq_div_pow _ 8
  rw [ne_eq, ne_eq, ← UInt32.toNat_inj, ← UInt32.toNat_inj, hand, hand, hnot, hshift,
    UInt8.toNat_toUInt32, UInt8.toNat_toUInt32]
  omega

theorem copyIn_ret (len : Nat) (hin : s.incnt + len ≤ s.source.length)
    (hroom : s.out.length + len ≤ s.outlen) :
    copyIn len s = .ret () { s with
      out := s.out ++ (s.source.drop s.incnt).take len, incnt := s.incnt + len } := by
  induction len generalizing s with
  | zero =>
    rw [List.take_zero, List.append_nil]
    rfl
  | succ len ih =>
    have hlt : s.incnt < s.source.length := by omega
    have hget : s.source[s.incnt]? = some s.source[s.incnt] := List.getElem?_eq_getElem hlt
    have hput := putByte_ret (s := s) (b := s.source[s.incnt]) (by omega)
    rw [copyIn, bind_ret (getState_apply s), bind_ret (defined_some hget s), bind_ret hput,
      bind_ret (modifyState_apply _ _), ih]
    · simp only [State.withOut, List.drop_eq_getElem_cons hlt, List.take_succ_cons,
        List.append_assoc, List.singleton_append, Nat.add_assoc, Nat.add_comm 1 len]
    · simp only [State.withOut]
      omega
    · simp only [State.withOut, List.length_append, List.length_singleton]
      omega

/-- The state behind a stored block of `len` bytes. -/
def State.copied (s : State) (len : Nat) : State where
  out := s.out ++ (s.source.drop (s.incnt + 4)).take len
  outlen := s.outlen
  source := s.source
  incnt := s.incnt + 4 + len
  bitbuf := 0
  bitcnt := 0

theorem stored_eq (h : s.source.drop s.incnt = lo :: hi :: nlo :: nhi :: tail) :
    stored s =
      if nlo.toNat + 256 * nhi.toNat ≠ 2 ^ 16 - 1 - (lo.toNat + 256 * hi.toNat) then
        .ret (-3) { s with bitbuf := 0, bitcnt := 0 }
      else if lo.toNat + 256 * hi.toNat > tail.length then
        .ret 2 { s with bitbuf := 0, bitcnt := 0, incnt := s.incnt + 4 }
      else if s.out.length + (lo.toNat + 256 * hi.toNat) > s.outlen then
        .ret (-1) { s with bitbuf := 0, bitcnt := 0, incnt := s.incnt + 4 }
      else .ret 0 (s.copied (lo.toNat + 256 * hi.toNat)) := by
  have hlen := congrArg List.length h
  simp only [List.length_drop, List.length_cons] at hlen
  have hlo := lo.toNat_lt
  have hhi := hi.toNat_lt
  have hget : ∀ k, s.source[s.incnt + k]? = (lo :: hi :: nlo :: nhi :: tail)[k]? := fun k => by
    rw [← h, List.getElem?_drop]
  have hget₀ : s.source[s.incnt]? = some lo := hget 0
  have hget₁ : s.source[s.incnt + 1]? = some hi := hget 1
  have hget₂ : s.source[s.incnt + 2]? = some nlo := hget 2
  have hget₃ : s.source[s.incnt + 3]? = some nhi := hget 3
  have hcheck := stored_check nlo nhi (lo.toUInt32 ||| hi.toUInt32 <<< 8)
    (by rw [stored_len]; omega)
  rw [stored_len] at hcheck
  rw [stored, bind_ret (modifyState_apply _ _), bind_ret (getState_apply _),
    if_neg (by simp only; omega), bind_ret (defined_some hget₀ _),
    bind_ret (defined_some hget₁ _), bind_ret (defined_some hget₂ _),
    bind_ret (defined_some hget₃ _)]
  by_cases hbad : nlo.toNat + 256 * nhi.toNat ≠ 2 ^ 16 - 1 - (lo.toNat + 256 * hi.toNat)
  · rw [if_pos (hcheck.2 hbad), if_pos hbad]
    rfl
  rw [if_neg (fun hno => hbad (hcheck.1 hno)), if_neg hbad,
    bind_ret (modifyState_apply _ _), bind_ret (getState_apply _), stored_len]
  by_cases hmissing : lo.toNat + 256 * hi.toNat > tail.length
  · rw [if_pos (by simp only; omega), if_pos hmissing]
    rfl
  rw [if_neg (by simp only; omega), if_neg hmissing]
  by_cases hfull : s.out.length + (lo.toNat + 256 * hi.toNat) > s.outlen
  · rw [if_pos hfull, if_pos hfull]
    rfl
  rw [if_neg hfull, if_neg hfull, bind_ret (copyIn_ret _ (by simp only; omega)
    (by simp only; omega))]
  rfl

theorem lowBits_word (lo hi : UInt8) :
    lowBits 16 (lo.toNat + 256 * hi.toNat) = lowBits 8 lo.toNat ++ lowBits 8 hi.toNat :=
  lowBits_add 8 hi.toNat lo.toNat_lt

theorem ahead_stored (h : s.source.drop s.incnt = lo :: hi :: nlo :: nhi :: tail) :
    s.ahead = lowBits s.bitcnt s.bitbuf ++ (lowBits 16 (lo.toNat + 256 * hi.toNat) ++
      (lowBits 16 (nlo.toNat + 256 * nhi.toNat) ++ bitsOf tail)) := by
  rw [State.ahead, h, lowBits_word, lowBits_word]
  simp only [bitsOf_cons, List.append_assoc]

theorem copied_reads (h : s.source.drop s.incnt = lo :: hi :: nlo :: nhi :: tail)
    (hnot : nlo.toNat + 256 * nhi.toNat = 2 ^ 16 - 1 - (lo.toNat + 256 * hi.toNat))
    (hin : lo.toNat + 256 * hi.toNat ≤ tail.length)
    (hroom : s.out.length + (lo.toNat + 256 * hi.toNat) ≤ s.outlen) :
    ∃ hshort, Reads s (Block.stored (lowBits s.bitcnt s.bitbuf)
        (tail.take (lo.toNat + 256 * hi.toNat)) hshort).encode
      (s.copied (lo.toNat + 256 * hi.toNat)) ∧
        (s.copied (lo.toNat + 256 * hi.toNat)).out =
          s.out ++ tail.take (lo.toNat + 256 * hi.toNat) := by
  have hlen := congrArg List.length h
  simp only [List.length_drop, List.length_cons] at hlen
  have htail : s.source.drop (s.incnt + 4) = tail := by
    rw [← List.drop_drop, h]
    rfl
  have hsize : (tail.take (lo.toNat + 256 * hi.toNat)).length = lo.toNat + 256 * hi.toNat :=
    List.length_take_of_le hin
  have hout : (s.copied (lo.toNat + 256 * hi.toNat)).out =
      s.out ++ tail.take (lo.toNat + 256 * hi.toNat) := by
    rw [State.copied, htail]
  have hout_le : (s.copied (lo.toNat + 256 * hi.toNat)).out.length ≤ s.outlen := by
    rw [hout, List.length_append, hsize]
    exact hroom
  have hincnt : (s.copied (lo.toNat + 256 * hi.toNat)).incnt ≤ s.source.length := by
    simp only [State.copied]
    omega
  have hlo := lo.toNat_lt
  have hhi := hi.toNat_lt
  refine ⟨by rw [hsize]; omega, ⟨⟨?_, ?_, hincnt, hout_le⟩, ⟨rfl, rfl, hincnt, hout_le⟩, ?_⟩, hout⟩
  · exact Nat.succ_pos 7
  · exact Nat.one_pos
  · have hrest : (s.copied (lo.toNat + 256 * hi.toNat)).ahead =
        bitsOf (tail.drop (lo.toNat + 256 * hi.toNat)) := by
      rw [State.ahead, ← htail, List.drop_drop]
      rfl
    rw [ahead_stored h, Block.encode, hsize, hnot, hrest]
    simp only [List.append_assoc]
    rw [← bitsOf_append, List.take_append_drop]

theorem exists_four {bytes : Bytes} (h : 4 ≤ bytes.length) :
    ∃ lo hi nlo nhi tail, bytes = lo :: hi :: nlo :: nhi :: tail := by
  match bytes, h with
  | lo :: hi :: nlo :: nhi :: tail, _ => exact ⟨lo, hi, nlo, nhi, tail, rfl⟩

/-- What a stored block that is accepted has read and written. -/
theorem stored_runs (hs : Ready s) :
    Runs stored s fun v s' => v = 0 → ∃ data hshort,
      Reads s (Block.stored (lowBits s.bitcnt s.bitbuf) data hshort).encode s' ∧
        s'.out = s.out ++ data := by
  have hle := hs.incnt_le
  by_cases hfour : s.incnt + 4 > s.source.length
  · rw [stored]
    refine Runs.of_eq (bind_ret (modifyState_apply _ _)) ⟨rfl, rfl, hle, hs.out_le⟩ ?_
    refine Runs.of_eq (bind_ret (getState_apply _)) ⟨rfl, rfl, hle, hs.out_le⟩ ?_
    rw [if_pos hfour]
    exact runs_of_ret rfl ⟨rfl, rfl, hle, hs.out_le⟩ fun h => absurd h (by decide)
  · have hlen : 4 ≤ (s.source.drop s.incnt).length := by
      rw [List.length_drop]
      omega
    obtain ⟨lo, hi, nlo, nhi, tail, h⟩ := exists_four hlen
    rw [Runs, stored_eq h]
    by_cases hnot : nlo.toNat + 256 * nhi.toNat ≠ 2 ^ 16 - 1 - (lo.toNat + 256 * hi.toNat)
    · rw [if_pos hnot]
      exact ⟨⟨rfl, rfl, hle, hs.out_le⟩, fun h => absurd h (by decide)⟩
    rw [if_neg hnot]
    by_cases hin : lo.toNat + 256 * hi.toNat > tail.length
    · rw [if_pos hin]
      exact ⟨⟨rfl, rfl, Nat.le_of_not_lt hfour, hs.out_le⟩, fun h => absurd h (by decide)⟩
    rw [if_neg hin]
    by_cases hroom : s.out.length + (lo.toNat + 256 * hi.toNat) > s.outlen
    · rw [if_pos hroom]
      exact ⟨⟨rfl, rfl, Nat.le_of_not_lt hfour, hs.out_le⟩, fun h => absurd h (by decide)⟩
    rw [if_neg hroom]
    obtain ⟨hshort, hreads, hout⟩ := copied_reads h (not_not.1 hnot) (Nat.le_of_not_lt hin)
      (Nat.le_of_not_lt hroom)
    exact ⟨hreads.within, fun _ => ⟨_, hshort, hreads, hout⟩⟩

/-- A stored block is read as it was written. -/
theorem stored_ret {padding : List Bool} {data : Bytes} (hshort : data.length < 2 ^ 16)
    (hpadding : padding.length = s.bitcnt) (hroom : s.out.length + data.length ≤ s.outlen)
    (hahead : s.ahead = (Block.stored padding data hshort).encode ++ rest) :
    ∃ s', stored s = .ret 0 s' ∧ Reads s (Block.stored padding data hshort).encode s' ∧
      s'.out = s.out ++ data := by
  have hbits := hahead
  simp only [State.ahead, Block.encode, List.append_assoc] at hbits
  obtain ⟨hpad, hrest⟩ := List.append_inj hbits (by rw [length_lowBits, hpadding])
  have hcount := congrArg List.length hrest
  simp only [length_bitsOf, List.length_append, length_lowBits] at hcount
  obtain ⟨lo, hi, nlo, nhi, tail, h⟩ :=
    exists_four (show 4 ≤ (s.source.drop s.incnt).length by omega)
  have hall := (ahead_stored h).symm.trans hahead
  simp only [Block.encode, List.append_assoc] at hall
  have hlo := lo.toNat_lt
  have hhi := hi.toNat_lt
  have hnlo := nlo.toNat_lt
  have hnhi := nhi.toNat_lt
  obtain ⟨-, hall⟩ := List.append_inj hall (by rw [length_lowBits, hpadding])
  obtain ⟨hlen, hall⟩ := List.append_inj hall (by rw [length_lowBits, length_lowBits])
  obtain ⟨hnot, hall⟩ := List.append_inj hall (by rw [length_lowBits, length_lowBits])
  have hlen := lowBits_inj (by omega) (by omega) hlen
  have hnot := lowBits_inj (by omega) (by omega) hnot
  obtain ⟨hdata, -⟩ := bitsOf_eq_append hall (length_bitsOf data)
  have hdata := bitsOf_injective hdata
  have hin : data.length ≤ tail.length := by
    rw [← hdata, List.length_take]
    exact Nat.min_le_right _ _
  rw [← hlen] at hnot hin hdata hroom
  obtain ⟨hshort', hreads, hout⟩ := copied_reads h hnot hin hroom
  refine ⟨_, ?_, ?_, by rw [hout, hdata]⟩
  · rw [stored_eq h, if_neg (not_not.2 hnot), if_neg (Nat.not_lt.2 hin),
      if_neg (Nat.not_lt.2 hroom)]
  · simp only [hpad, hdata] at hreads
    exact hreads

end Stored

end MoshTcp.Puff
