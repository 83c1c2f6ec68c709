import MoshTcp.Ansi
import MoshTcp.Lib.MarkedWords

/-! The six sequences that switch the alternate screen, as a code over bytes. They are
what src/predictive.rs looks for in a frame and what the server passes on or discards. -/

set_option autoImplicit false

namespace MoshTcp.AltScreen
open ByteOrder MarkedWords

inductive Mode where
  | m1049 | m1047 | m47
  deriving DecidableEq, Repr

def Mode.digits : Mode → Bytes
  | .m1049 => [0x31, 0x30, 0x34, 0x39]
  | .m1047 => [0x31, 0x30, 0x34, 0x37]
  | .m47 => [0x34, 0x37]

structure Switch where
  mode : Mode
  enable : Bool
  deriving DecidableEq, Repr

def Switch.final (s : Switch) : UInt8 := if s.enable then 0x68 else 0x6C

/-- The sequence without its ESC. -/
def Switch.body (s : Switch) : Bytes := [0x5B, 0x3F] ++ s.mode.digits ++ [s.final]

def Switch.all : List Switch :=
  [⟨.m1049, true⟩, ⟨.m1047, true⟩, ⟨.m47, true⟩, ⟨.m1049, false⟩, ⟨.m1047, false⟩, ⟨.m47, false⟩]

theorem Switch.mem_all (s : Switch) : s ∈ Switch.all := by
  obtain ⟨m, e⟩ := s
  cases m <;> cases e <;> decide

def altCode : Code UInt8 Switch where
  all := Switch.all
  mark := 0x1b
  body := Switch.body
  complete := Switch.mem_all
  mark_once := by
    intro s
    obtain ⟨m, e⟩ := s
    cases m <;> cases e <;> decide
  prefix_free := by
    intro s t
    obtain ⟨m, e⟩ := s
    obtain ⟨m', e'⟩ := t
    cases m <;> cases e <;> cases m' <;> cases e' <;> decide

def Switch.bytes (s : Switch) : Bytes := altCode.word s

/-- The last switch in a stream. -/
def lastSwitch (stream : Bytes) : Option Switch := altCode.lastWord stream

/-- Every switch has a question mark. -/
theorem lastSwitch_of_no_question {stream : Bytes} (h : 0x3F ∉ stream) :
    lastSwitch stream = none := by
  refine Code.lastWord_eq_none.2 fun s hs => h (hs.subset ?_)
  simp [Code.word, altCode, Switch.body]

/-- Whether a terminal that received `stream` is on its alternate screen. -/
def altOn (stream : Bytes) : Bool := (lastSwitch stream).any Switch.enable

section Append
variable {stream more : Bytes} {s : Switch}

theorem altOn_append_some (h : lastSwitch more = some s) : altOn (stream ++ more) = s.enable := by
  unfold altOn lastSwitch
  rw [Code.lastWord_append_some h]
  rfl

theorem altOn_append_cut (h : lastSwitch more = none) (hcut : altCode.Cut stream more s) :
    altOn (stream ++ more) = s.enable := by
  unfold altOn lastSwitch
  rw [Code.lastWord_append_cut h hcut]
  rfl

theorem altOn_append_none (h : lastSwitch more = none)
    (hcut : ∀ s, ¬ altCode.Cut stream more s) : altOn (stream ++ more) = altOn stream := by
  unfold lastSwitch at h
  unfold altOn lastSwitch
  rw [Code.lastWord_append hcut, h, Option.none_or]

end Append

example : lastSwitch [0x1b, 0x5B, 0x3F, 0x34, 0x37, 0x68, 0x61, 0x1b, 0x5B, 0x3F, 0x34, 0x37,
    0x6C] = some ⟨.m47, false⟩ := by decide

end MoshTcp.AltScreen
