import MoshTcp.Lib.ByteOrder
import MoshTcp.Lib.PrefixCodes

/-! Deflate streams (RFC 1951) as values: blocks of literals and copies, the bits each is
written as, and the bytes it stands for. Nothing here decodes. -/

set_option autoImplicit false

namespace MoshTcp.Deflate
open ByteOrder BitStreams PrefixCodes

/-- The extra bits of length code `257 + c`. -/
def lengthExtra (c : Nat) : Nat := if c < 8 ∨ c = 28 then 0 else c / 4 - 1

/-- The least length of length code `257 + c`. -/
def lengthBase (c : Nat) : Nat :=
  if c < 8 then 3 + c else if c = 28 then 258 else 3 + (4 + c % 4) * 2 ^ (c / 4 - 1)

/-- The extra bits of distance code `c`. -/
def distanceExtra (c : Nat) : Nat := c / 2 - 1

/-- The least distance of distance code `c`. -/
def distanceBase (c : Nat) : Nat := if c < 2 then 1 + c else 1 + (2 + c % 2) * 2 ^ (c / 2 - 1)

/-- A byte, or a copy given by its two codes and the values of their extra bits. -/
inductive Item where
  | literal (b : UInt8)
  | copy (length : Fin 29) (more : Fin (2 ^ lengthExtra length)) (distance : Fin 30)
      (farther : Fin (2 ^ distanceExtra distance))

/-- The code lengths of the literal/length alphabet and of the distance alphabet. -/
structure Codes where
  literals : List Nat
  distances : List Nat

def Item.Encodable (codes : Codes) : Item → Prop
  | .literal b => ∃ l, HasWord codes.literals b.toNat l
  | .copy length _ distance _ =>
    (∃ l, HasWord codes.literals (257 + length) l) ∧ ∃ l, HasWord codes.distances distance l

def Item.encode (codes : Codes) : Item → List Bool
  | .literal b => codeword codes.literals b.toNat
  | .copy length more distance farther =>
    codeword codes.literals (257 + length) ++ (lowBits (lengthExtra length) more ++
      (codeword codes.distances distance ++ lowBits (distanceExtra distance) farther))

def repeatByte (distance : Nat) (out : Bytes) : Bytes := out ++ out[out.length - distance]?.toList

/-- A copy may read bytes that it has just written. -/
def copyBytes (distance : Nat) : Nat → Bytes → Bytes
  | 0, out => out
  | n + 1, out => copyBytes distance n (repeatByte distance out)

theorem length_repeatByte {distance : Nat} {out : Bytes} (hpos : 0 < distance)
    (hle : distance ≤ out.length) : (repeatByte distance out).length = out.length + 1 := by
  rw [repeatByte, List.getElem?_eq_getElem (by omega), List.length_append]
  rfl

theorem length_copyBytes {distance : Nat} (hpos : 0 < distance) (n : Nat) {out : Bytes}
    (hle : distance ≤ out.length) : (copyBytes distance n out).length = out.length + n := by
  induction n generalizing out with
  | zero => rfl
  | succ n ih =>
    have hone := length_repeatByte hpos hle
    rw [copyBytes, ih (by omega), hone]
    omega

theorem distanceBase_pos (c : Nat) : 0 < distanceBase c := by
  rw [distanceBase]
  split <;> omega

def Item.expand (out : Bytes) : Item → Option Bytes
  | .literal b => some (out ++ [b])
  | .copy length more distance farther =>
    if distanceBase distance + farther ≤ out.length then
      some (copyBytes (distanceBase distance + farther) (lengthBase length + more) out)
    else none

theorem Item.length_expand {item : Item} {out out' : Bytes} (h : item.expand out = some out') :
    out.length ≤ out'.length := by
  cases item with
  | literal b =>
    obtain rfl := Option.some.inj h
    rw [List.length_append]
    exact Nat.le_add_right _ _
  | copy length more distance farther =>
    rw [Item.expand] at h
    split at h
    · rename_i hle
      obtain rfl := Option.some.inj h
      rw [length_copyBytes (Nat.add_pos_left (distanceBase_pos _) _) _ hle]
      exact Nat.le_add_right _ _
    · cases h

def expandItems (out : Bytes) (items : List Item) : Option Bytes := items.foldlM Item.expand out

theorem expandItems_cons {item : Item} {items : List Item} {out out' : Bytes} :
    expandItems out (item :: items) = some out' ↔
      ∃ next, item.expand out = some next ∧ expandItems next items = some out' := by
  rw [expandItems, List.foldlM_cons, Option.bind_eq_bind, Option.bind_eq_some_iff]
  rfl

theorem length_expandItems {items : List Item} {out out' : Bytes}
    (h : expandItems out items = some out') : out.length ≤ out'.length := by
  induction items generalizing out with
  | nil =>
    obtain rfl := Option.some.inj h
    exact Nat.le_refl _
  | cons item items ih =>
    obtain ⟨next, hitem, hitems⟩ := expandItems_cons.1 h
    exact (Item.length_expand hitem).trans (ih hitems)

def encodeItems (codes : Codes) (items : List Item) : List Bool :=
  items.flatMap (Item.encode codes) ++ codeword codes.literals 256

/-! ### The header of a dynamic block -/

inductive LengthItem where
  | length (l : Fin 16)
  | again (times : Fin 4)
  | zeros (times : Fin 8)
  | manyZeros (times : Fin 128)
  deriving DecidableEq, Repr

def LengthItem.symbol : LengthItem → Nat
  | .length l => l
  | .again _ => 16
  | .zeros _ => 17
  | .manyZeros _ => 18

def LengthItem.extra : LengthItem → List Bool
  | .length _ => []
  | .again times => lowBits 2 times
  | .zeros times => lowBits 3 times
  | .manyZeros times => lowBits 7 times

def LengthItem.encode (precode : List Nat) (item : LengthItem) : List Bool :=
  codeword precode item.symbol ++ item.extra

def LengthItem.expand (ls : List Nat) : LengthItem → Option (List Nat)
  | .length l => some (ls ++ [l.val])
  | .again times => ls.getLast?.map fun l => ls ++ List.replicate (3 + times) l
  | .zeros times => some (ls ++ List.replicate (3 + times) 0)
  | .manyZeros times => some (ls ++ List.replicate (11 + times) 0)

theorem LengthItem.length_expand {item : LengthItem} {ls ls' : List Nat}
    (h : item.expand ls = some ls') : ls.length < ls'.length := by
  cases item with
  | length l =>
    obtain rfl := Option.some.inj h
    simp
  | again times =>
    obtain ⟨l, -, rfl⟩ := Option.map_eq_some_iff.1 h
    simp only [List.length_append, List.length_replicate]
    omega
  | zeros times =>
    obtain rfl := Option.some.inj h
    simp only [List.length_append, List.length_replicate]
    omega
  | manyZeros times =>
    obtain rfl := Option.some.inj h
    simp only [List.length_append, List.length_replicate]
    omega

theorem LengthItem.expand_le {item : LengthItem} {ls ls' : List Nat}
    (h : item.expand ls = some ls') (hls : ∀ l ∈ ls, l ≤ 15) : ∀ l ∈ ls', l ≤ 15 := by
  have hmore : ∀ {l : Nat} (n : Nat), l ≤ 15 → ∀ m ∈ ls ++ List.replicate n l, m ≤ 15 := by
    intro l n hl m hm
    cases List.mem_append.1 hm with
    | inl hm => exact hls m hm
    | inr hm => rwa [List.eq_of_mem_replicate hm]
  cases item with
  | length l =>
    obtain rfl := Option.some.inj h
    exact hmore 1 (Nat.le_of_lt_succ l.isLt)
  | again times =>
    obtain ⟨l, hl, rfl⟩ := Option.map_eq_some_iff.1 h
    exact hmore _ (hls l (List.mem_of_getLast? hl))
  | zeros times =>
    obtain rfl := Option.some.inj h
    exact hmore _ (Nat.zero_le _)
  | manyZeros times =>
    obtain rfl := Option.some.inj h
    exact hmore _ (Nat.zero_le _)

def expandLengths (ls : List Nat) (items : List LengthItem) : Option (List Nat) :=
  items.foldlM LengthItem.expand ls

theorem expandLengths_cons {item : LengthItem} {items : List LengthItem} {ls ls' : List Nat} :
    expandLengths ls (item :: items) = some ls' ↔
      ∃ next, item.expand ls = some next ∧ expandLengths next items = some ls' := by
  rw [expandLengths, List.foldlM_cons, Option.bind_eq_bind, Option.bind_eq_some_iff]
  rfl

theorem length_expandLengths {items : List LengthItem} {ls ls' : List Nat}
    (h : expandLengths ls items = some ls') : ls.length ≤ ls'.length := by
  induction items generalizing ls with
  | nil =>
    obtain rfl := Option.some.inj h
    exact Nat.le_refl _
  | cons item items ih =>
    obtain ⟨next, hitem, hitems⟩ := expandLengths_cons.1 h
    exact (LengthItem.length_expand hitem).le.trans (ih hitems)

theorem expandLengths_le {items : List LengthItem} {ls ls' : List Nat}
    (h : expandLengths ls items = some ls') (hls : ∀ l ∈ ls, l ≤ 15) : ∀ l ∈ ls', l ≤ 15 := by
  induction items generalizing ls with
  | nil =>
    obtain rfl := Option.some.inj h
    exact hls
  | cons item items ih =>
    obtain ⟨next, hitem, hitems⟩ := expandLengths_cons.1 h
    exact ih hitems (LengthItem.expand_le hitem hls)

def sendOrder : List Nat := [16, 17, 18, 0, 8, 7, 9, 6, 10, 5, 11, 4, 12, 3, 13, 2, 14, 1, 15]

def sentBits (l : Fin 8) : List Bool := lowBits 3 l

def precodeLength (sent : List (Fin 8)) (k : Nat) : Nat :=
  match sent[sendOrder.idxOf k]? with
  | some l => l
  | none => 0

def precodeOf (sent : List (Fin 8)) : List Nat := (List.range 19).map (precodeLength sent)

/-- Words that fill the tree, or at most one word. -/
structure Usable (ls : List Nat) : Prop where
  fits : kraftSum 15 ls ≤ 2 ^ 15
  full : kraftSum 15 ls = 2 ^ 15 ∨ ls.length ≤ ls.count 0 + 1

structure Header where
  sent : List (Fin 8)
  items : List LengthItem
  codes : Codes
  sent_length : 4 ≤ sent.length ∧ sent.length ≤ 19
  precode_full : (precodeOf sent).count 0 = 19 ∨ kraftSum 15 (precodeOf sent) = 2 ^ 15
  encodable : ∀ item ∈ items, ∃ l, HasWord (precodeOf sent) item.symbol l
  expands : expandLengths [] items = some (codes.literals ++ codes.distances)
  literals_length : 257 ≤ codes.literals.length ∧ codes.literals.length ≤ 286
  distances_length : 1 ≤ codes.distances.length ∧ codes.distances.length ≤ 30
  end_of_block : ∃ l, HasWord codes.literals 256 l
  literals_usable : Usable codes.literals
  distances_usable : Usable codes.distances

def Header.encode (h : Header) : List Bool :=
  lowBits 5 (h.codes.literals.length - 257) ++ (lowBits 5 (h.codes.distances.length - 1) ++
    (lowBits 4 (h.sent.length - 4) ++ (h.sent.flatMap sentBits ++
      h.items.flatMap (LengthItem.encode (precodeOf h.sent)))))

def fixedCodes : Codes where
  literals := List.replicate 144 8 ++ List.replicate 112 9 ++ List.replicate 24 7 ++
    List.replicate 8 8
  distances := List.replicate 30 5

inductive Block where
  | stored (padding : List Bool) (data : Bytes) (short : data.length < 2 ^ 16)
  | fixed (items : List Item) (encodable : ∀ item ∈ items, item.Encodable fixedCodes)
  | dynamic (header : Header) (items : List Item)
      (encodable : ∀ item ∈ items, item.Encodable header.codes)

def Block.type : Block → Nat
  | .stored .. => 0
  | .fixed .. => 1
  | .dynamic .. => 2

def Block.encode : Block → List Bool
  | .stored padding data _ =>
    padding ++ (lowBits 16 data.length ++ (lowBits 16 (2 ^ 16 - 1 - data.length) ++ bitsOf data))
  | .fixed items _ => encodeItems fixedCodes items
  | .dynamic header items _ => header.encode ++ encodeItems header.codes items

/-- A stored block goes on at the next byte boundary. -/
def Block.Aligned (position : Nat) : Block → Prop
  | .stored padding _ _ => padding.length < 8 ∧ (position + padding.length) % 8 = 0
  | _ => True

def Block.expand (out : Bytes) : Block → Option Bytes
  | .stored _ data _ => some (out ++ data)
  | .fixed items _ => expandItems out items
  | .dynamic _ items _ => expandItems out items

/-- A stream of blocks; a bit in front of each says whether it is the last. -/
def encode : List Block → List Bool
  | [] => []
  | b :: bs => bs.isEmpty :: (lowBits 2 b.type ++ (b.encode ++ encode bs))

def Aligned : Nat → List Block → Prop
  | _, [] => True
  | position, b :: bs =>
    b.Aligned (position + 3) ∧ Aligned (position + 3 + b.encode.length) bs

def expand (out : Bytes) (blocks : List Block) : Option Bytes := blocks.foldlM Block.expand out

/-- `bits` starts with a stream of `size` bits that stands for `out`. -/
structure Stream (bits : List Bool) (size : Nat) (out : Bytes) where
  blocks : List Block
  nonempty : blocks ≠ []
  aligned : Aligned 0 blocks
  starts : encode blocks <+: bits
  length : (encode blocks).length = size
  expands : expand [] blocks = some out

end MoshTcp.Deflate
