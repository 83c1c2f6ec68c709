import MoshTcp.Server
import MoshTcp.Lib.Numerals

/-! The argument loop of src/bin/mosh_tcp_server.rs and the arithmetic its rates go through:
the frame period in `run_server`, the byte rate and the frame timer in `handle_client`.
No step on the way checks a value, so each of the three can fail. -/

set_option autoImplicit false

namespace MoshTcp.Server
open ByteOrder Protocol Utf8Lossy Numerals

/-- What `main` hands to `run_server`; socket addresses are left abstract. -/
structure Options (α : Type) where
  bind : α
  fps : UInt64
  maxKbps : UInt64
  stats : Bool
  shell : Option String
  deriving DecidableEq, Repr

def Options.default {α : Type} (bind : α) : Options α where
  bind := bind
  fps := 50
  maxKbps := 6
  stats := false
  shell := none

def parseU64 (s : String) : Option UInt64 := (parseUnsigned (2 ^ 64) (asBytes s)).map UInt64.ofNat

variable {α : Type}

/-- An option with a value: the value is consumed only if there is one and it parses. -/
def takeValue {β : Type} (o : Options α) (next : Option String) (parse : String → Option β)
    (set : β → Options α) : Options α × Bool :=
  match next.bind parse with
  | some value => (set value, true)
  | none => (o, false)

/-- One argument, with the argument behind it; says whether that one was consumed too. After
`--help` the loop is left without a session. -/
def matchArgument (parseAddr : String → Option α) (o : Options α) (arg : String)
    (next : Option String) : Option (Options α × Bool) :=
  if arg = "--bind" ∨ arg = "-b" then
    some (takeValue o next parseAddr fun addr => { o with bind := addr })
  else if arg = "--fps" then some (takeValue o next parseU64 fun val => { o with fps := val })
  else if arg = "--max-kbps" then
    some (takeValue o next parseU64 fun val => { o with maxKbps := val })
  else if arg = "--stats" then some ({ o with stats := true }, false)
  else if arg = "--shell" then some (takeValue o next some fun cmd => { o with shell := some cmd })
  else if arg = "--help" ∨ arg = "-h" then none
  else some (o, false)

def argumentLoop (parseAddr : String → Option α) : Options α → List String → Option (Options α)
  | o, [] => some o
  | o, [arg] => (matchArgument parseAddr o arg none).map Prod.fst
  | o, arg :: next :: rest =>
    match matchArgument parseAddr o arg (some next) with
    | some (o, true) => argumentLoop parseAddr o rest
    | some (o, false) => argumentLoop parseAddr o (next :: rest)
    | none => none

/-- Arithmetic that panics; the product overflows silently in a build without checks. -/
inductive Fault where
  | divideByZero
  | multiplyOverflow
  | zeroPeriod
  deriving DecidableEq, Repr

def divide (a b : UInt64) : Except Fault UInt64 :=
  if b = 0 then .error .divideByZero else .ok (a / b)

def multiply (a b : UInt64) : Except Fault UInt64 :=
  if a.toNat * b.toNat < 2 ^ 64 then .ok (a * b) else .error .multiplyOverflow

/-- `tokio::time::interval`, over a period in milliseconds. -/
def interval (tickDuration : UInt64) : Except Fault UInt64 :=
  if tickDuration = 0 then .error .zeroPeriod else .ok tickDuration

structure Pace where
  bytesPerSec : UInt64
  frameTimer : UInt64
  deriving DecidableEq, Repr

def sendPace (frameMs maxKbps : UInt64) : Except Fault Pace := do
  let bytesPerSec ← multiply maxKbps 1024
  let frameTimer ← interval frameMs
  return ⟨bytesPerSec, frameTimer⟩

/-- A connection accepted by `run_server`, up to the first tick. -/
def sessionPace (o : Options α) : Except Fault Pace := do
  let frameMs ← divide 1000 o.fps
  sendPace frameMs o.maxKbps

theorem parseU64_toString (n : UInt64) : parseU64 (toString n.toNat) = some n := by
  rw [parseU64, asBytes, encode_toString, parseUnsigned_decimalDigits n.toNat_lt, Option.map_some,
    UInt64.ofNat_toNat]

def rateArguments (fps maxKbps : UInt64) : List String :=
  ["--fps", toString fps.toNat, "--max-kbps", toString maxKbps.toNat]

section ArgumentLoop
variable (parseAddr : String → Option α) (o : Options α)

theorem argumentLoop_fps {s : String} {val : UInt64} (h : parseU64 s = some val)
    (rest : List String) :
    argumentLoop parseAddr o ("--fps" :: s :: rest) =
      argumentLoop parseAddr { o with fps := val } rest := by
  simp [argumentLoop, matchArgument, takeValue, h]

theorem argumentLoop_maxKbps {s : String} {val : UInt64} (h : parseU64 s = some val)
    (rest : List String) :
    argumentLoop parseAddr o ("--max-kbps" :: s :: rest) =
      argumentLoop parseAddr { o with maxKbps := val } rest := by
  simp [argumentLoop, matchArgument, takeValue, h]

theorem argumentLoop_rates (fps maxKbps : UInt64) :
    argumentLoop parseAddr o (rateArguments fps maxKbps) =
      some { o with fps := fps, maxKbps := maxKbps } := by
  rw [rateArguments, argumentLoop_fps parseAddr o (parseU64_toString fps),
    argumentLoop_maxKbps parseAddr _ (parseU64_toString maxKbps), argumentLoop]

end ArgumentLoop

/-! ### When the arithmetic holds -/

theorem divide_eq (a b : UInt64) :
    divide a b = if b.toNat = 0 then .error .divideByZero else .ok (a / b) := by
  simp [divide, ← UInt64.toNat_inj]

theorem interval_quotient {fps : UInt64} (hfps : 0 < fps.toNat) :
    interval (1000 / fps) =
      if 1000 < fps.toNat then .error .zeroPeriod else .ok (1000 / fps) := by
  have hzero : 1000 / fps = 0 ↔ 1000 < fps.toNat := by
    rw [← UInt64.toNat_inj, UInt64.toNat_div, UInt64.toNat_zero]
    exact Nat.div_eq_zero_iff_lt hfps
  simp only [interval, hzero]

theorem multiply_kib (maxKbps : UInt64) :
    multiply maxKbps 1024 = if maxKbps.toNat < 2 ^ 54 then .ok (maxKbps * 1024)
      else .error .multiplyOverflow := by
  have hiff : maxKbps.toNat * (1024 : UInt64).toNat < 2 ^ 64 ↔ maxKbps.toNat < 2 ^ 54 := by
    have h1024 : (1024 : UInt64).toNat = 1024 := rfl
    rw [h1024]
    omega
  simp only [multiply, hiff]

theorem sessionPace_eq (o : Options α) :
    sessionPace o =
      if o.fps.toNat = 0 then .error .divideByZero
      else if 2 ^ 54 ≤ o.maxKbps.toNat then .error .multiplyOverflow
      else if 1000 < o.fps.toNat then .error .zeroPeriod
      else .ok ⟨o.maxKbps * 1024, 1000 / o.fps⟩ := by
  rw [sessionPace, divide_eq]
  by_cases hfps : o.fps.toNat = 0
  · rw [if_pos hfps, if_pos hfps]
    rfl
  rw [if_neg hfps, if_neg hfps]
  change sendPace (1000 / o.fps) o.maxKbps = _
  rw [sendPace, multiply_kib, interval_quotient (Nat.pos_of_ne_zero hfps)]
  by_cases hrate : o.maxKbps.toNat < 2 ^ 54
  · rw [if_pos hrate, if_neg (Nat.not_le.2 hrate)]
    by_cases hperiod : 1000 < o.fps.toNat
    · rw [if_pos hperiod, if_pos hperiod]
      rfl
    · rw [if_neg hperiod, if_neg hperiod]
      rfl
  · rw [if_neg hrate, if_pos (Nat.le_of_not_lt hrate)]
    rfl

/-- The session starts with a timer that ticks and with the rate that was asked for. -/
structure SoundPace (o : Options α) (pace : Pace) : Prop where
  started : sessionPace o = .ok pace
  period : 0 < pace.frameTimer.toNat ∧ pace.frameTimer.toNat = 1000 / o.fps.toNat
  rate : pace.bytesPerSec.toNat = o.maxKbps.toNat * 1024

theorem soundPace_iff (o : Options α) :
    (∃ pace, SoundPace o pace) ↔
      1 ≤ o.fps.toNat ∧ o.fps.toNat ≤ 1000 ∧ o.maxKbps.toNat < 2 ^ 54 := by
  constructor
  · rintro ⟨pace, hstarted, -, -⟩
    rw [sessionPace_eq] at hstarted
    split at hstarted
    · cases hstarted
    split at hstarted
    · cases hstarted
    split at hstarted
    · cases hstarted
    omega
  · rintro ⟨hpos, hle, hrate⟩
    refine ⟨⟨o.maxKbps * 1024, 1000 / o.fps⟩, ?_, ?_, ?_⟩
    · rw [sessionPace_eq, if_neg (by omega), if_neg (by omega), if_neg (by omega)]
    · have h1000 : (1000 : UInt64).toNat = 1000 := rfl
      simp only [UInt64.toNat_div, h1000, and_true]
      exact Nat.div_pos hle hpos
    · have h1024 : (1024 : UInt64).toNat = 1024 := rfl
      rw [UInt64.toNat_mul, h1024]
      omega

theorem SoundPace.maxBytesPerSec_eq {o : Options α} {pace : Pace} (h : SoundPace o pace) :
    maxBytesPerSec o.maxKbps = ((o.maxKbps.toNat * 1024 : Nat) : ℚ) := by
  have hstarted := h.started
  rw [sessionPace_eq] at hstarted
  split_ifs at hstarted
  obtain rfl := Except.ok.inj hstarted
  exact congrArg Nat.cast h.rate

/-- The argument loop takes every pair of rates; the session that follows is sound exactly if
a frame lasts between one millisecond and one second and the byte rate fits 64 bits. -/
theorem rate_options_sound_iff (parseAddr : String → Option α) (bind : α)
    (fps maxKbps : UInt64) :
    argumentLoop parseAddr (.default bind) (rateArguments fps maxKbps) =
        some { Options.default bind with fps := fps, maxKbps := maxKbps } ∧
      ∀ (args : List String) (o : Options α),
        argumentLoop parseAddr (.default bind) args = some o → o.fps = fps →
          o.maxKbps = maxKbps →
          ((∃ pace, SoundPace o pace) ↔
            1 ≤ fps.toNat ∧ fps.toNat ≤ 1000 ∧ maxKbps.toNat < 2 ^ 54) := by
  refine ⟨argumentLoop_rates parseAddr _ fps maxKbps, ?_⟩
  rintro args o - rfl rfl
  exact soundPace_iff o

theorem rate_options_sound_iff_slow_link :
    argumentLoop (fun _ => none) (.default ()) ["--fps", "20", "--max-kbps", "64"] =
        some { Options.default () with fps := 20, maxKbps := 64 } ∧
      ∃ pace, SoundPace { Options.default () with fps := 20, maxKbps := 64 } pace := by
  obtain ⟨-, hsound⟩ := rate_options_sound_iff (fun _ => none) () 20 64
  have hparsed : argumentLoop (fun _ => none) (.default ()) ["--fps", "20", "--max-kbps", "64"] =
      some { Options.default () with fps := 20, maxKbps := 64 } := by
    rw [argumentLoop_fps _ _ (by decide : parseU64 "20" = some 20),
      argumentLoop_maxKbps _ _ (by decide : parseU64 "64" = some 64), argumentLoop]
  exact ⟨hparsed, (hsound _ _ hparsed rfl rfl).2 (by decide)⟩

theorem accepted_rates_break_session :
    (argumentLoop (fun _ => none) (.default ()) ["--fps", "0"] =
        some { Options.default () with fps := 0 } ∧
      ¬ ∃ pace, SoundPace { Options.default () with fps := 0 } pace) ∧
    (argumentLoop (fun _ => none) (.default ()) ["--fps", "1001"] =
        some { Options.default () with fps := 1001 } ∧
      ¬ ∃ pace, SoundPace { Options.default () with fps := 1001 } pace) ∧
    argumentLoop (fun _ => none) (.default ()) ["--max-kbps", "18014398509481984"] =
        some { Options.default () with maxKbps := 18014398509481984 } ∧
      ¬ ∃ pace, SoundPace { Options.default () with maxKbps := 18014398509481984 } pace := by
  refine ⟨⟨?_, ?_⟩, ⟨?_, ?_⟩, ?_, ?_⟩
  · rw [argumentLoop_fps _ _ (by decide : parseU64 "0" = some 0), argumentLoop]
  · rw [soundPace_iff]
    decide
  · rw [argumentLoop_fps _ _ (by decide : parseU64 "1001" = some 1001), argumentLoop]
  · rw [soundPace_iff]
    decide
  · rw [argumentLoop_maxKbps _ _
      (by decide : parseU64 "18014398509481984" = some 18014398509481984), argumentLoop]
  · rw [soundPace_iff]
    decide

end MoshTcp.Server
