import MoshTcp.Lib.ByteOrder
import MoshTcp.Lib.Memory

/-! The deflate decoder of clients/c/puff.c, which the C and the C++ client link. Arrays are
lists of cells, and a cell that nothing was written to has no value: reading one, or any
index outside an array, is undefined here as it is in C. `unsigned long` and `int` are
unbounded numbers; no sum in the file comes near their limits. -/

set_option autoImplicit false

namespace MoshTcp.Puff
open ByteOrder Memory

def maxBits : Nat := 15

def maxLCodes : Nat := 286

def maxDCodes : Nat := 30

def maxCodes : Nat := maxLCodes + maxDCodes

def fixLCodes : Nat := 288

/-- `struct state`; `out` holds the `outcnt` bytes written so far, and `source` is `in` with
its `inlen` bytes. -/
structure State where
  out : Bytes
  outlen : Nat
  source : Bytes
  incnt : Nat
  bitbuf : Nat
  bitcnt : Nat
  deriving DecidableEq, Repr

/-- How a function ends: it returns, it jumps back to `puff` for want of input, it does what C
leaves undefined, or it is still running when the steps it was given are spent. -/
inductive Outcome (α : Type) where
  | ret (value : α) (s : State)
  | jump (s : State)
  | undefined
  | unfinished
  deriving DecidableEq, Repr

def Inflate (α : Type) : Type := State → Outcome α

instance : Monad Inflate where
  pure a := fun s => .ret a s
  bind x f := fun s =>
    match x s with
    | .ret a s => f a s
    | .jump s => .jump s
    | .undefined => .undefined
    | .unfinished => .unfinished

def getState : Inflate State := fun s => .ret s s

def modifyState (f : State → State) : Inflate Unit := fun s => .ret () (f s)

def unfinished {α : Type} : Inflate α := fun _ => .unfinished

/-- An access that may be outside of an array. -/
def defined {α : Type} : Option α → Inflate α
  | some a => pure a
  | none => fun _ => .undefined

abbrev Shorts := Cells Nat

/-- `s->out[s->outcnt++] = b`. -/
def putByte (b : UInt8) : Inflate Unit := fun s =>
  if s.out.length < s.outlen then .ret () { s with out := s.out ++ [b] } else .undefined

/-- The loop of `bits`, over the bytes that are still unread. -/
def loadBits (need : Nat) : Bytes → Nat → Inflate Nat
  | [], val => fun s => if s.bitcnt < need then .jump s else .ret val s
  | b :: unread, val => fun s =>
    if s.bitcnt < need then
      loadBits need unread (val ||| b.toNat <<< s.bitcnt)
        { s with incnt := s.incnt + 1, bitcnt := s.bitcnt + 8 }
    else .ret val s

def bits (need : Nat) : Inflate Nat := do
  let s ← getState
  let val ← loadBits need (s.source.drop s.incnt) s.bitbuf
  modifyState fun s => { s with bitbuf := val >>> need, bitcnt := s.bitcnt - need }
  return val &&& ((1 <<< need) - 1)

/-- `while (len--) s->out[s->outcnt++] = s->in[s->incnt++]`. -/
def copyIn : Nat → Inflate Unit
  | 0 => return ()
  | len + 1 => do
    let s ← getState
    putByte (← defined s.source[s.incnt]?)
    modifyState fun s => { s with incnt := s.incnt + 1 }
    copyIn len

def stored : Inflate Int := do
  modifyState fun s => { s with bitbuf := 0, bitcnt := 0 }
  let s ← getState
  if s.incnt + 4 > s.source.length then return 2
  else do
    let lo ← defined s.source[s.incnt]?
    let hi ← defined s.source[s.incnt + 1]?
    let nlo ← defined s.source[s.incnt + 2]?
    let nhi ← defined s.source[s.incnt + 3]?
    let len : UInt32 := lo.toUInt32 ||| hi.toUInt32 <<< 8
    if nlo.toUInt32 ≠ ~~~len &&& 0xff ∨ nhi.toUInt32 ≠ ~~~len >>> 8 &&& 0xff then return -3
    else do
      modifyState fun s => { s with incnt := s.incnt + 4 }
      let s ← getState
      if s.incnt + len.toNat > s.source.length then return 2
      else if s.out.length + len.toNat > s.outlen then return -1
      else do
        copyIn len.toNat
        return 0

/-! ### Huffman codes -/

structure Huffman where
  count : Shorts
  symbol : Shorts
  deriving DecidableEq, Repr

def decodeLoop (h : Huffman) : List Nat → Nat → Nat → Nat → Inflate Int
  | [], _, _, _ => return -10
  | len :: lens, code, first, index => do
    let code := code ||| (← bits 1)
    let count ← defined (load h.count len)
    if (code : Int) - count < first then
      return (← defined (loadInt h.symbol ((index : Int) + (code - first))) : Nat)
    else decodeLoop h lens (code <<< 1) ((first + count) <<< 1) (index + count)

def decode (h : Huffman) : Inflate Int := decodeLoop h (List.range' 1 maxBits) 0 0 0

def countLengths (length : Shorts) (n : Nat) : Option Shorts :=
  (List.range n).foldlM
    (fun count symbol => do
      let len ← load length symbol
      store count len ((← load count len) + 1))
    (List.replicate (maxBits + 1) (some 0))

/-- The check for an over-subscribed set: the loop is left as soon as `left` is negative. -/
def checkLeft (count : Shorts) : List Nat → Int → Option Int
  | [], left => some left
  | len :: lens, left => do
    let left := left * 2 - (← load count len)
    if left < 0 then return left else checkLeft count lens left

def offsets (count : Shorts) : Option Shorts :=
  (List.range' 1 (maxBits - 1)).foldlM
    (fun offs len => do store offs (len + 1) ((← load offs len) + (← load count len)))
    ((List.replicate (maxBits + 1) none).set 1 (some 0))

def sortSymbols (length : Shorts) (n : Nat) (tables : Shorts × Shorts) : Option (Shorts × Shorts) :=
  (List.range n).foldlM
    (fun (tables : Shorts × Shorts) symbol => do
      let len ← load length symbol
      if len ≠ 0 then
        let place ← load tables.2 len
        return (← store tables.1 place symbol, ← store tables.2 len (place + 1))
      else return tables)
    tables

/-- `h->symbol` is passed in, since the caller provides its memory. -/
def construct (symbol length : Shorts) (n : Nat) : Option (Int × Huffman) := do
  let count ← countLengths length n
  if (← load count 0) = n then return (0, ⟨count, symbol⟩)
  else
    let left ← checkLeft count (List.range' 1 maxBits) 1
    if left < 0 then return (left, ⟨count, symbol⟩)
    else
      let tables ← sortSymbols length n (symbol, ← offsets count)
      return (left, ⟨count, tables.1⟩)

/-! ### Blocks -/

def lens : Shorts :=
  [3, 4, 5, 6, 7, 8, 9, 10, 11, 13, 15, 17, 19, 23, 27, 31, 35, 43, 51, 59, 67, 83, 99, 115, 131,
    163, 195, 227, 258].map some

def lext : Shorts :=
  [0, 0, 0, 0, 0, 0, 0, 0, 1, 1, 1, 1, 2, 2, 2, 2, 3, 3, 3, 3, 4, 4, 4, 4, 5, 5, 5, 5, 0].map some

def dists : Shorts :=
  [1, 2, 3, 4, 5, 7, 9, 13, 17, 25, 33, 49, 65, 97, 129, 193, 257, 385, 513, 769, 1025, 1537, 2049,
    3073, 4097, 6145, 8193, 12289, 16385, 24577].map some

def dext : Shorts :=
  [0, 0, 0, 0, 1, 1, 2, 2, 3, 3, 4, 4, 5, 5, 6, 6, 7, 7, 8, 8, 9, 9, 10, 10, 11, 11, 12, 12, 13,
    13].map some

/-- `while (len--)` of a copy from `dist` bytes back. -/
def copyBack (dist : Nat) : Nat → Inflate Unit
  | 0 => return ()
  | len + 1 => do
    let s ← getState
    putByte (← defined s.out[s.out.length - dist]?)
    copyBack dist len

/-- The body of `codes`. A distance symbol is below 30, so the test for 256 at the end of the
loop only stops at the literal/length symbol. -/
def codesLoop (lencode distcode : Huffman) : Nat → Inflate Int
  | 0 => unfinished
  | fuel + 1 => do
    let symbol ← decode lencode
    if symbol < 0 then return symbol
    else if symbol < 256 then do
      let s ← getState
      if s.out.length ≥ s.outlen then return -1
      else do
        putByte (UInt8.ofNat symbol.toNat)
        codesLoop lencode distcode fuel
    else if symbol > 256 then do
      let symbol := symbol - 257
      if symbol ≥ 29 then return -5
      else do
        let len := (← defined (load lens symbol.toNat)) +
          (← bits (← defined (load lext symbol.toNat)))
        let symbol ← decode distcode
        if symbol < 0 then return symbol
        else do
          let dist := (← defined (load dists symbol.toNat)) +
            (← bits (← defined (load dext symbol.toNat)))
          let s ← getState
          if dist > s.out.length then return -6
          else if s.out.length + len > s.outlen then return -1
          else do
            copyBack dist len
            codesLoop lencode distcode fuel
    else return 0

/-- The bits that are still to be read; every pass of a loop over the input takes one. -/
def State.bitsLeft (s : State) : Nat := s.bitcnt + 8 * (s.source.length - s.incnt)

def codes (lencode distcode : Huffman) : Inflate Int := fun s =>
  codesLoop lencode distcode (s.bitsLeft + 1) s

def fixedLengths : Shorts :=
  List.replicate 144 (some 8) ++ List.replicate 112 (some 9) ++ List.replicate 24 (some 7) ++
    List.replicate 8 (some 8)

/-- The tables are built anew here; the source keeps those of the first call. -/
def fixed : Inflate Int := do
  let lencode ← defined (construct (List.replicate fixLCodes none) fixedLengths fixLCodes)
  let distcode ← defined
    (construct (List.replicate maxDCodes none) (List.replicate maxDCodes (some 5)) maxDCodes)
  codes lencode.2 distcode.2

def order : List Nat := [16, 17, 18, 0, 8, 7, 9, 6, 10, 5, 11, 4, 12, 3, 13, 2, 14, 1, 15]

/-- Code length code lengths: the first `ncode` in `order` are read, the rest are 0. -/
def precodeLengths : Nat → List Nat → Shorts → Inflate Shorts
  | _, [], lengths => return lengths
  | 0, place :: order, lengths => do
    precodeLengths 0 order (← defined (store lengths place 0))
  | ncode + 1, place :: order, lengths => do
    let len ← bits 3
    precodeLengths ncode order (← defined (store lengths place len))

/-- `while (symbol--) lengths[index++] = len`. -/
def fill (len : Nat) : Nat → Nat → Shorts → Option Shorts
  | 0, _, lengths => some lengths
  | times + 1, index, lengths => do fill len times (index + 1) (← store lengths index len)

def repeats (lengths : Shorts) (index : Nat) (symbol : Int) : Inflate (Except Int (Nat × Nat)) :=
  if symbol = 16 then
    if index = 0 then return .error (-4)
    else do
      let len ← defined (load lengths (index - 1))
      return .ok (len, 3 + (← bits 2))
  else if symbol = 17 then do return .ok (0, 3 + (← bits 3))
  else do return .ok (0, 11 + (← bits 7))

/-- The code lengths of both tables; `total` is `nlen + ndist`. -/
def codeLengths (precode : Huffman) (total : Nat) :
    Nat → Nat → Shorts → Inflate (Except Int Shorts)
  | 0, index, lengths => if index < total then unfinished else return .ok lengths
  | fuel + 1, index, lengths =>
    if index < total then do
      let symbol ← decode precode
      if symbol < 0 then return .error symbol
      else if symbol < 16 then do
        codeLengths precode total fuel (index + 1)
          (← defined (store lengths index symbol.toNat))
      else do
        match ← repeats lengths index symbol with
        | .error err => return .error err
        | .ok (len, times) =>
          if index + times > total then return .error (-4)
          else do
            codeLengths precode total fuel (index + times)
              (← defined (fill len times index lengths))
    else return .ok lengths

/-- `err < 0 || (err > 0 && n - h.count[0] != 1)`. -/
def rejects (table : Int × Huffman) (n : Nat) : Inflate Bool := do
  let unused ← defined (load table.2.count 0)
  return table.1 < 0 ∨ (table.1 > 0 ∧ (n : Int) - unused ≠ 1)

def dynamicTables (symbol lengths : Shorts) (nlen ndist : Nat) : Inflate Int := do
  if (← defined (load lengths 256)) = 0 then return -9
  else do
    let lencode ← defined (construct symbol lengths nlen)
    if ← rejects lencode nlen then return -4
    else do
      let distcode ← defined
        (construct (List.replicate maxDCodes none) (lengths.drop nlen) ndist)
      if ← rejects distcode ndist then return -4
      else codes lencode.2 distcode.2

def dynamic : Inflate Int := do
  let nlen := (← bits 5) + 257
  let ndist := (← bits 5) + 1
  let ncode := (← bits 4) + 4
  if nlen > maxLCodes ∨ ndist > maxDCodes then return -4
  else do
    let lengths ← precodeLengths ncode order (List.replicate maxCodes none)
    let precode ← defined (construct (List.replicate maxLCodes none) lengths 19)
    if precode.1 ≠ 0 then return -4
    else do
      match ← codeLengths precode.2 (nlen + ndist) (nlen + ndist) 0 lengths with
      | .error err => return err
      | .ok lengths => dynamicTables precode.2.symbol lengths nlen ndist

def block (type : Nat) : Inflate Int :=
  if type = 0 then stored else if type = 1 then fixed else if type = 2 then dynamic
  else return -2

def blocks : Nat → Inflate Int
  | 0 => unfinished
  | fuel + 1 => do
    let last ← bits 1
    let type ← bits 2
    let err ← block type
    if err = 0 ∧ last = 0 then blocks fuel else return err

def State.start (outlen : Nat) (source : Bytes) : State where
  out := []
  outlen := outlen
  source := source
  incnt := 0
  bitbuf := 0
  bitcnt := 0

/-- What `puff` leaves behind: its return value, `dest` up to `*destlen`, and `*sourcelen`. -/
structure Result where
  err : Int
  dest : Bytes
  sourcelen : Nat
  deriving DecidableEq, Repr

def puff (outlen : Nat) (source : Bytes) : Option Result :=
  match blocks (8 * source.length + 1) (State.start outlen source) with
  | .ret err s => some ⟨err, s.out, s.incnt⟩
  | .jump s => some ⟨2, s.out, s.incnt⟩
  | .undefined => none
  | .unfinished => none

end MoshTcp.Puff
