import MoshTcp.Puff
import MoshTcp.Lib.BitStreams

/-! The decoder of clients/c/puff.c as a reader of bits. Everything above `bits` is reasoned
about in terms of the bits ahead of a state. -/

set_option autoImplicit false

namespace MoshTcp.Puff
open ByteOrder BitStreams

variable {α β : Type} {s s' s'' : State}

/-- `s'` belongs to the same call of `puff` as `s` and is inside both of its buffers. -/
structure Within (s s' : State) : Prop where
  source : s'.source = s.source
  outlen : s'.outlen = s.outlen
  incnt_le : s'.incnt ≤ s'.source.length
  out_le : s'.out.length ≤ s'.outlen

theorem Within.trans (h : Within s s') (h' : Within s' s'') : Within s s'' :=
  ⟨h'.source.trans h.source, h'.outlen.trans h.outlen, h'.incnt_le, h'.out_le⟩

theorem Within.self (h : Within s s') : Within s' s' := ⟨rfl, rfl, h.incnt_le, h.out_le⟩

/-- `x` comes to an end from `s` inside of all arrays, and `post` holds of what it returns. -/
@[irreducible]
def Runs (x : Inflate α) (s : State) (post : α → State → Prop) : Prop :=
  match x s with
  | .ret a s' => Within s s' ∧ post a s'
  | .jump s' => Within s s'
  | .undefined => False
  | .unfinished => False

theorem bind_ret {x : Inflate α} {f : α → Inflate β} {a : α} (h : x s = .ret a s') :
    (x >>= f) s = f a s' := by
  change (match x s with
    | .ret a s => f a s
    | .jump s => .jump s
    | .undefined => .undefined
    | .unfinished => .unfinished) = _
  rw [h]

theorem bind_jump {x : Inflate α} {f : α → Inflate β} (h : x s = .jump s') :
    (x >>= f) s = .jump s' := by
  change (match x s with
    | .ret a s => f a s
    | .jump s => .jump s
    | .undefined => .undefined
    | .unfinished => .unfinished) = _
  rw [h]

theorem runs_of_ret {x : Inflate α} {a : α} {post : α → State → Prop} (h : x s = .ret a s')
    (hs : Within s s') (hp : post a s') : Runs x s post := by
  rw [Runs, h]
  exact ⟨hs, hp⟩

theorem Runs.bind {x : Inflate α} {f : α → Inflate β} {post : α → State → Prop}
    {post' : β → State → Prop} (hx : Runs x s post)
    (hf : ∀ a s', Within s s' → post a s' → Runs (f a) s' post') : Runs (x >>= f) s post' := by
  unfold Runs at hx
  split at hx
  · rename_i a s' hret
    have hfa := hf a s' hx.1 hx.2
    unfold Runs at hfa ⊢
    rw [bind_ret hret]
    split at hfa
    · exact ⟨hx.1.trans hfa.1, hfa.2⟩
    · exact hx.1.trans hfa
    · exact hfa
    · exact hfa
  · rename_i s' hjump
    rw [Runs, bind_jump hjump]
    exact hx
  · exact hx.elim
  · exact hx.elim

theorem Runs.of_eq {x y : Inflate α} {post : α → State → Prop} (h : x s = y s')
    (hs : Within s s') (hy : Runs y s' post) : Runs x s post := by
  unfold Runs at hy ⊢
  rw [h]
  split at hy
  · exact ⟨hs.trans hy.1, hy.2⟩
  · exact hs.trans hy
  · exact hy
  · exact hy

theorem Runs.mono {x : Inflate α} {post post' : α → State → Prop} (hx : Runs x s post)
    (h : ∀ a s', post a s' → post' a s') : Runs x s post' := by
  unfold Runs at hx ⊢
  split at hx
  · exact ⟨hx.1, h _ _ hx.2⟩
  · exact hx
  · exact hx
  · exact hx

theorem defined_some {a : α} {o : Option α} (h : o = some a) (s : State) :
    defined o s = .ret a s := by
  rw [h]
  rfl

theorem getState_apply (s : State) : getState s = .ret s s := rfl

theorem modifyState_apply (f : State → State) (s : State) : modifyState f s = .ret () (f s) := rfl

/-! ### The bits ahead -/

/-- The bits in the buffer, and then those of the bytes that are unread. -/
def State.ahead (s : State) : List Bool :=
  lowBits s.bitcnt s.bitbuf ++ bitsOf (s.source.drop s.incnt)

theorem length_ahead (s : State) : s.ahead.length = s.bitsLeft := by
  rw [State.ahead, List.length_append, length_lowBits, length_bitsOf, List.length_drop,
    State.bitsLeft]

/-- A state between two reads: less than a byte is in the buffer. -/
structure Ready (s : State) : Prop where
  bitcnt_lt : s.bitcnt < 8
  bitbuf_lt : s.bitbuf < 2 ^ s.bitcnt
  incnt_le : s.incnt ≤ s.source.length
  out_le : s.out.length ≤ s.outlen

theorem Ready.within (h : Ready s) : Within s s := ⟨rfl, rfl, h.incnt_le, h.out_le⟩

/-- From `s` to `s'` the bits `ws` are read. -/
structure Reads (s : State) (ws : List Bool) (s' : State) : Prop where
  ready : Ready s'
  within : Within s s'
  ahead : s.ahead = ws ++ s'.ahead

/-- The bits `ws` are read and nothing is written. -/
structure Takes (s : State) (ws : List Bool) (s' : State) : Prop extends Reads s ws s' where
  out : s'.out = s.out

section Reads
variable {ws vs rest : List Bool}

theorem Ready.reads_nil (h : Ready s) : Reads s [] s := ⟨h, h.within, rfl⟩

theorem Ready.takes_nil (h : Ready s) : Takes s [] s := ⟨h.reads_nil, rfl⟩

theorem Reads.trans (h : Reads s ws s') (h' : Reads s' vs s'') : Reads s (ws ++ vs) s'' :=
  ⟨h'.ready, h.within.trans h'.within, by rw [h.ahead, h'.ahead, List.append_assoc]⟩

theorem Takes.trans (h : Takes s ws s') (h' : Takes s' vs s'') : Takes s (ws ++ vs) s'' :=
  ⟨h.toReads.trans h'.toReads, h'.out.trans h.out⟩

theorem Reads.ahead_eq (h : Reads s ws s') (hs : s.ahead = ws ++ rest) : s'.ahead = rest := by
  have hboth := h.ahead.symm.trans hs
  exact List.append_cancel_left hboth

theorem Reads.bitsLeft (h : Reads s ws s') : s.bitsLeft = ws.length + s'.bitsLeft := by
  rw [← length_ahead, ← length_ahead, h.ahead, List.length_append]

end Reads

/-- The loaded bits and the unread bytes are the bits that were ahead. -/
structure Loaded (s : State) (need val : Nat) (s' : State) : Prop where
  within : Within s s'
  out : s'.out = s.out
  enough : need ≤ s'.bitcnt
  bitcnt_lt : s'.bitcnt < need + 8
  val_lt : val < 2 ^ s'.bitcnt
  ahead : lowBits s'.bitcnt val ++ bitsOf (s'.source.drop s'.incnt) = s.ahead

theorem or_shift_eq {v n b : Nat} (h : v < 2 ^ n) : v ||| b <<< n = v + 2 ^ n * b := by
  rw [Nat.shiftLeft_eq, Nat.mul_comm, Nat.lor_comm, ← Nat.two_pow_add_eq_or_of_lt h, Nat.add_comm]

theorem ahead_load {b : UInt8} {unread : Bytes} {val : Nat} (hv : val < 2 ^ s.bitcnt)
    (hu : s.source.drop s.incnt = b :: unread) :
    lowBits (s.bitcnt + 8) (val ||| b.toNat <<< s.bitcnt) ++ bitsOf unread =
      lowBits s.bitcnt val ++ bitsOf (s.source.drop s.incnt) := by
  rw [hu, bitsOf_cons, or_shift_eq hv, lowBits_add 8 b.toNat hv, List.append_assoc]

theorem drop_succ_of_drop {xs : Bytes} {n : Nat} {b : UInt8} {rest : Bytes}
    (h : xs.drop n = b :: rest) : xs.drop (n + 1) = rest ∧ n < xs.length := by
  have hlen := congrArg List.length h
  rw [List.length_drop, List.length_cons] at hlen
  refine ⟨?_, by omega⟩
  rw [← List.drop_drop, h]
  rfl

/-- The loop of `bits`: `s₀` is the state before it. -/
theorem loadBits_spec {s₀ : State} (need : Nat) {val : Nat} {unread : Bytes} (hs : Within s₀ s)
    (hout : s.out = s₀.out) (hcnt : s.bitcnt < need + 8) (hv : val < 2 ^ s.bitcnt)
    (hu : s.source.drop s.incnt = unread)
    (ha : lowBits s.bitcnt val ++ bitsOf unread = s₀.ahead) :
    (need ≤ s₀.ahead.length ∧
      ∃ val' s', loadBits need unread val s = .ret val' s' ∧ Loaded s₀ need val' s') ∨
    (s₀.ahead.length < need ∧ ∃ s', loadBits need unread val s = .jump s' ∧ Within s₀ s') := by
  induction unread generalizing s val with
  | nil =>
    have hlen := congrArg List.length ha
    rw [bitsOf_nil, List.append_nil, length_lowBits] at hlen
    by_cases hlt : s.bitcnt < need
    · simp only [loadBits, if_pos hlt]
      exact .inr ⟨by omega, s, rfl, hs⟩
    · simp only [loadBits, if_neg hlt]
      refine .inl ⟨by omega, val, s, rfl, hs, hout, by omega, hcnt, hv, ?_⟩
      rw [hu, ha]
  | cons b unread ih =>
    by_cases hlt : s.bitcnt < need
    · simp only [loadBits, if_pos hlt]
      obtain ⟨hnext, hroom⟩ := drop_succ_of_drop hu
      have hahead := ahead_load hv hu
      rw [hu, ha] at hahead
      have hb := b.toNat_lt
      have hval : val ||| b.toNat <<< s.bitcnt < 2 ^ (s.bitcnt + 8) := by
        rw [or_shift_eq hv, Nat.pow_add]
        have hmul := Nat.mul_le_mul_left (2 ^ s.bitcnt) (show b.toNat ≤ 255 by omega)
        omega
      exact ih (s := { s with incnt := s.incnt + 1, bitcnt := s.bitcnt + 8 })
        ⟨hs.source, hs.outlen, hroom, hs.out_le⟩ hout (by simp only; omega) hval hnext hahead
    · have hlen := congrArg List.length ha
      rw [List.length_append, length_lowBits] at hlen
      simp only [loadBits, if_neg hlt]
      refine .inl ⟨by omega, val, s, rfl, hs, hout, by omega, hcnt, hv, ?_⟩
      rw [hu, ha]

theorem Loaded.takes {need val : Nat} (h : Loaded s need val s') :
    Takes s (lowBits need (val % 2 ^ need))
      { s' with bitbuf := val >>> need, bitcnt := s'.bitcnt - need } := by
  have hsplit : lowBits s'.bitcnt val =
      lowBits need (val % 2 ^ need) ++ lowBits (s'.bitcnt - need) (val / 2 ^ need) := by
    rw [← lowBits_add _ _ (Nat.mod_lt _ (Nat.two_pow_pos need)), Nat.add_sub_cancel' h.enough,
      Nat.mod_add_div]
  have hlt : val / 2 ^ need < 2 ^ (s'.bitcnt - need) := by
    rw [Nat.div_lt_iff_lt_mul (Nat.two_pow_pos need), ← Nat.pow_add, Nat.sub_add_cancel h.enough]
    exact h.val_lt
  refine ⟨⟨⟨?_, ?_, h.within.incnt_le, h.within.out_le⟩, ?_, ?_⟩, h.out⟩
  · have := h.bitcnt_lt
    simp only
    omega
  · rw [Nat.shiftRight_eq_div_pow]
    exact hlt
  · exact ⟨h.within.source, h.within.outlen, h.within.incnt_le, h.within.out_le⟩
  · rw [← h.ahead, hsplit, State.ahead, List.append_assoc, Nat.shiftRight_eq_div_pow]

/-- `bits` reads the next bits as a number, or jumps when there are too few. -/
theorem bits_cases (h : Ready s) (need : Nat) :
    (need ≤ s.ahead.length ∧ ∃ ws s', ws.length = need ∧
      bits need s = .ret (lowNat ws) s' ∧ Takes s ws s') ∨
    (s.ahead.length < need ∧ ∃ s', bits need s = .jump s' ∧ Within s s') := by
  rcases loadBits_spec need h.within rfl (by have := h.bitcnt_lt; omega) h.bitbuf_lt rfl
    rfl with ⟨hle, val, s', hload, hloaded⟩ | ⟨hlt, s', hload, hwithin⟩
  · refine .inl ⟨hle, lowBits need (val % 2 ^ need), _, length_lowBits _ _, ?_, hloaded.takes⟩
    rw [bits, bind_ret (getState_apply s), bind_ret hload, lowNat_lowBits, Nat.mod_mod,
      Nat.one_shiftLeft, Nat.and_two_pow_sub_one_eq_mod]
    rfl
  · refine .inr ⟨hlt, s', ?_, hwithin⟩
    rw [bits, bind_ret (getState_apply s), bind_jump hload]

theorem bits_runs (h : Ready s) (need : Nat) :
    Runs (bits need) s fun v s' => ∃ ws, ws.length = need ∧ v = lowNat ws ∧ Takes s ws s' := by
  rcases bits_cases h need with ⟨-, ws, s', hlen, hret, htakes⟩ | ⟨-, s', hjump, hwithin⟩
  · exact runs_of_ret hret htakes.within ⟨ws, hlen, rfl, htakes⟩
  · rw [Runs, hjump]
    exact hwithin

theorem bits_ret (h : Ready s) {ws rest : List Bool} (hs : s.ahead = ws ++ rest) :
    ∃ s', bits ws.length s = .ret (lowNat ws) s' ∧ Takes s ws s' := by
  rcases bits_cases h ws.length with ⟨-, vs, s', hlen, hret, htakes⟩ | ⟨hlt, -⟩
  · obtain rfl : vs = ws := by
      have hboth := htakes.ahead.symm.trans hs
      exact (List.append_inj hboth hlen).1
    exact ⟨s', hret, htakes⟩
  · rw [hs, List.length_append] at hlt
    omega

theorem bits_lowBits (h : Ready s) {n v : Nat} (hv : v < 2 ^ n) {rest : List Bool}
    (hs : s.ahead = lowBits n v ++ rest) :
    ∃ s', bits n s = .ret v s' ∧ Takes s (lowBits n v) s' := by
  obtain ⟨s', hret, htakes⟩ := bits_ret h hs
  rw [length_lowBits, lowNat_lowBits, Nat.mod_eq_of_lt hv] at hret
  exact ⟨s', hret, htakes⟩

end MoshTcp.Puff
