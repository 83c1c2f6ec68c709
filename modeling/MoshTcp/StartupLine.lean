import MoshTcp.Protocol
import MoshTcp.Lib.Scanf

/-! The line by which a started server tells its launcher where it listens, and the three
scanners that look for it in the launcher's output: `SshTunnel::spawn` of src/client.rs and
the main functions of the C and C++ clients. The Rust scanner splits the line into words,
the other two read it with `sscanf`. -/

set_option autoImplicit false

namespace MoshTcp.StartupLine
open ByteOrder Protocol Utf8Lossy Numerals Words Scanf

def hexDigits (width n : Nat) : List Char := (Nat.toDigits 16 n).leftpad width '0'

/-- `generate_session_key`, at the given time and process id. -/
def generateSessionKey (nanos : BitVec 128) (pid : UInt32) : String :=
  String.ofList (hexDigits 16 nanos.toNat ++ hexDigits 8 pid.toNat ++
    hexDigits 8 (nanos.toNat % 2 ^ 32))

def greeting : String := "MOSH-TCP CONNECT "

def startupLine (port : UInt16) (sessionKey : String) (pid : UInt32) : String :=
  greeting ++ toString port.toNat ++ " " ++ sessionKey ++ " " ++ toString pid.toNat ++ "\n"

def isWhitespace (c : Char) : Bool :=
  let n := c.toNat
  (0x09 ≤ n && n ≤ 0x0D) || n == 0x20 || n == 0x85 || n == 0xA0 || n == 0x1680 ||
    (0x2000 ≤ n && n ≤ 0x200A) || n == 0x2028 || n == 0x2029 || n == 0x202F || n == 0x205F ||
    n == 0x3000

def splitWhitespace (line : String) : List String :=
  (words isWhitespace line.toList).map String.ofList

def fromUtf8 (bs : Bytes) : Option String :=
  if encode (fromUtf8Lossy bs) = bs then some (String.ofList (fromUtf8Lossy bs)) else none

def stripTerminator (record : Bytes) : Bytes :=
  if record.getLast? = some 0x0A then
    if record.dropLast.getLast? = some 0x0D then record.dropLast.dropLast else record.dropLast
  else record

/-- `BufRead::lines`; a line that is not UTF-8 is an error. The terminator is ASCII, so it can
be taken off before the check. -/
def bufReadLines (out : Bytes) : List (Option String) :=
  (records isNewline out).map fun record => fromUtf8 (stripTerminator record)

def parseU16 (s : String) : Option UInt16 := (parseUnsigned (2 ^ 16) (asBytes s)).map UInt16.ofNat

/-- The loop over the lines. A line with three words makes it read a fourth, and without one
`parts[3]` panics: `none`. -/
def spawnLoop (boundPort : UInt16) : List (Option String) → Option (UInt16 × String)
  | [] => some (boundPort, "")
  | none :: rest => spawnLoop boundPort rest
  | some line :: rest =>
    if greeting.toList <+: line.toList then
      match splitWhitespace line with
      | _ :: _ :: port :: more =>
        match more with
        | key :: _ => some ((parseU16 port).getD boundPort, key)
        | [] => none
      | _ => spawnLoop boundPort rest
    else spawnLoop boundPort rest

/-- Remote port and session key as `SshTunnel::spawn` finds them. -/
def spawnScan (remotePort : UInt16) (out : Bytes) : Option (UInt16 × String) :=
  match spawnLoop remotePort (bufReadLines out) with
  | some (boundPort, sessionKey) => some (if boundPort = 0 then 4000 else boundPort, sessionKey)
  | none => none

def connectFormat : List Directive :=
  (asBytes "MOSH-TCP").map .literal ++ .space :: (asBytes "CONNECT").map .literal ++
    [.space, .int, .space, .word 127]

def fgetsLoop (wrap : Int → Int) (startsWith : Bytes → Bool) (boundPort : Int) :
    List Bytes → Int × Bytes
  | [] => (boundPort, [])
  | line :: rest =>
    if startsWith line then
      match sscanf wrap connectFormat line with
      | [.int p, .word keyBuf] => (p, keyBuf)
      | _ => fgetsLoop wrap startsWith boundPort rest
    else fgetsLoop wrap startsWith boundPort rest

def orDefaultPort (boundPort : Int) : Int := if boundPort = 0 then 4000 else boundPort

/-- `strncmp(line, "MOSH-TCP CONNECT ", 17)`, and `strncpy` into 128 bytes. -/
def cScan (wrap : Int → Int) (remotePort : Int) (out : Bytes) : Int × Bytes :=
  let (boundPort, keyBuf) := fgetsLoop wrap (fun line => line.take 17 == asBytes greeting)
    remotePort ((fgetsAll 256 out).map cString)
  (orDefaultPort boundPort, keyBuf.take 127)

def cppScan (wrap : Int → Int) (remotePort : Int) (out : Bytes) : Int × Bytes :=
  let (boundPort, keyBuf) := fgetsLoop wrap (asBytes greeting).isPrefixOf
    remotePort ((fgetsAll 256 out).map cString)
  (orDefaultPort boundPort, keyBuf)

def connectWords : Option String → Option (String × Option String)
  | some line =>
    if greeting.toList <+: line.toList then
      match splitWhitespace line with
      | _ :: _ :: port :: more => some (port, more.head?)
      | _ => none
    else none
  | none => none

def portAndKey : List Field → Option (Int × Bytes)
  | [.int p, .word keyBuf] => some (p, keyBuf)
  | _ => none

def carried (wrap : Int → Int) (line : Bytes) : Option (Int × Bytes) :=
  if asBytes greeting <+: line then portAndKey (sscanf wrap connectFormat line) else none

def firstConnect (out : Bytes) : Option (String × Option String) :=
  (bufReadLines out).findSome? connectWords

def firstCarried (wrap : Int → Int) (out : Bytes) : Option (Int × Bytes) :=
  (records isNewline out).findSome? (carried wrap)

/-- Lines of less than 255 bytes before their newline, and no NUL. -/
structure LauncherOutput (out : Bytes) : Prop where
  short : ∀ record ∈ records isNewline out, record.length < 256
  nulFree : ∀ record ∈ records isNewline out, 0 ∉ record

theorem spawnLoop_eq (boundPort : UInt16) (lines : List (Option String)) :
    spawnLoop boundPort lines =
      match lines.findSome? connectWords with
      | none => some (boundPort, "")
      | some (port, key) => key.map fun key => ((parseU16 port).getD boundPort, key) := by
  induction lines with
  | nil => rfl
  | cons line lines ih =>
    cases line with
    | none =>
      rw [spawnLoop, List.findSome?_cons]
      exact ih
    | some line =>
      rw [spawnLoop, List.findSome?_cons, connectWords]
      split
      · split
        · rename_i port more hwords
          cases more <;> simp
        · exact ih
      · exact ih

theorem fgetsLoop_eq (wrap : Int → Int) {startsWith : Bytes → Bool}
    (hstarts : ∀ line, startsWith line = true ↔ asBytes greeting <+: line) (boundPort : Int)
    (lines : List Bytes) :
    fgetsLoop wrap startsWith boundPort lines =
      (lines.findSome? (carried wrap)).getD (boundPort, []) := by
  induction lines with
  | nil => rfl
  | cons line lines ih =>
    rw [fgetsLoop, List.findSome?_cons, carried, ih]
    by_cases hline : startsWith line = true
    · rw [if_pos hline, if_pos ((hstarts line).1 hline), portAndKey.eq_def]
      split <;> rfl
    · rw [if_neg hline, if_neg (mt (hstarts line).2 hline)]

theorem strncmp_greeting (line : Bytes) :
    (line.take 17 == asBytes greeting) = true ↔ asBytes greeting <+: line := by
  have hlen : (asBytes greeting).length = 17 := by decide
  rw [beq_iff_eq, List.prefix_iff_eq_take, hlen, eq_comm]

theorem carried_key {wrap : Int → Int} {line keyBuf : Bytes} {p : Int}
    (h : carried wrap line = some (p, keyBuf)) : keyBuf ≠ [] ∧ keyBuf.length ≤ 127 := by
  rw [carried] at h
  split at h
  · rw [portAndKey.eq_def] at h
    split at h
    · rename_i hscan
      have hkey := (Prod.mk.inj (Option.some.inj h)).2
      have hmem : Field.word keyBuf ∈ sscanf wrap connectFormat line := by simp [hscan, hkey]
      obtain ⟨hne, width, hwidth, hle⟩ := converted_word wrap hmem
      have h127 : width = 127 := by simpa [connectFormat] using hwidth
      exact ⟨hne, h127 ▸ hle⟩
    · cases h
  · cases h

theorem firstCarried_key {wrap : Int → Int} {out keyBuf : Bytes} {p : Int}
    (h : firstCarried wrap out = some (p, keyBuf)) : keyBuf ≠ [] ∧ keyBuf.length ≤ 127 := by
  obtain ⟨record, -, hrecord⟩ := List.exists_of_findSome?_eq_some h
  exact carried_key hrecord

section Scans
variable {out : Bytes}

theorem fgetsAll_lines (h : LauncherOutput out) :
    (fgetsAll 256 out).map cString = records isNewline out := by
  rw [fgetsAll_eq_records h.short]
  have hline : ∀ record ∈ records isNewline out, cString record = record := fun record hr =>
    cString_of_nul_free (h.nulFree record hr)
  rw [List.map_congr_left hline, List.map_id']

theorem spawnScan_eq (remotePort : UInt16) (out : Bytes) :
    spawnScan remotePort out =
      match firstConnect out with
      | none => some (if remotePort = 0 then 4000 else remotePort, "")
      | some (port, key) => key.map fun key =>
          (if (parseU16 port).getD remotePort = 0 then 4000
            else (parseU16 port).getD remotePort, key) := by
  rw [spawnScan, spawnLoop_eq, ← firstConnect]
  cases firstConnect out with
  | none => rfl
  | some found =>
    obtain ⟨port, key⟩ := found
    cases key <;> rfl

theorem nativeScan_eq (wrap : Int → Int) (h : LauncherOutput out) (remotePort : Int) :
    cScan wrap remotePort out =
        (orDefaultPort ((firstCarried wrap out).getD (remotePort, [])).1,
          ((firstCarried wrap out).getD (remotePort, [])).2) ∧
      cppScan wrap remotePort out = cScan wrap remotePort out := by
  have hshort : ((firstCarried wrap out).getD (remotePort, [])).2.take 127 =
      ((firstCarried wrap out).getD (remotePort, [])).2 := by
    cases hfirst : firstCarried wrap out with
    | none => rfl
    | some found => exact List.take_of_length_le (firstCarried_key hfirst).2
  unfold firstCarried at hshort ⊢
  simp only [cScan, cppScan, fgetsAll_lines h, fgetsLoop_eq wrap strncmp_greeting,
    fgetsLoop_eq wrap fun line => List.isPrefixOf_iff_prefix, hshort, and_self]

end Scans

/-! ### Agreement -/

/-- The Rust scanner does not panic, and all three find this port and key. -/
def AllFind (wrap : Int → Int) (remotePort : UInt16) (out : Bytes) (port : UInt16)
    (key : String) : Prop :=
  spawnScan remotePort out = some (port, key) ∧
    cScan wrap remotePort.toNat out = ((port.toNat : Int), asBytes key) ∧
    cppScan wrap remotePort.toNat out = ((port.toNat : Int), asBytes key)

def ScannersAgree (wrap : Int → Int) (out : Bytes) : Prop :=
  ∀ remotePort : UInt16, ∃ port key, AllFind wrap remotePort out port key

/-- The first line with three words has a fourth and a port for its third, and the first line
that carries a number and a word carries these; or there is no line of either kind. -/
def FirstsMatch (wrap : Int → Int) (out : Bytes) : Prop :=
  match firstConnect out, firstCarried wrap out with
  | none, none => True
  | some (port, key), some (p, keyBuf) =>
    (∃ q, parseU16 port = some q ∧ orDefaultPort q.toNat = orDefaultPort p) ∧
      ∃ k, key = some k ∧ asBytes k = keyBuf
  | _, _ => False

theorem orDefaultPort_toNat (q : UInt16) :
    orDefaultPort q.toNat = (((if q = 0 then 4000 else q) : UInt16).toNat : Int) := by
  unfold orDefaultPort
  by_cases hq : q = 0
  · simp [hq]
  · have hq' : q.toNat ≠ 0 := fun h => hq (UInt16.toNat_inj.1 h)
    simp [hq, hq']

theorem asBytes_ne_nil {s : String} (h : s ≠ "") : asBytes s ≠ [] := by
  intro hs
  apply h
  rw [← fromUtf8LossyString_asBytes s, hs]
  simp [fromUtf8LossyString, fromUtf8Lossy]

theorem connectWords_key {line : Option String} {port key : String}
    (h : connectWords line = some (port, some key)) : key ≠ "" := by
  cases line with
  | none => cases h
  | some line =>
    rw [connectWords] at h
    split at h
    · split at h
      · rename_i more hwords
        have hmore : more.head? = some key := (Prod.mk.inj (Option.some.inj h)).2
        have hmem : key ∈ splitWhitespace line := by
          rw [hwords]
          simp [List.mem_of_head? hmore]
        obtain ⟨w, hw, rfl⟩ := List.mem_map.1 hmem
        intro hkey
        have hnil : w = [] := by simpa using congrArg String.toList hkey
        exact words_ne_nil w hw hnil
      · cases h
    · cases h

theorem firstConnect_key {out : Bytes} {port key : String}
    (h : firstConnect out = some (port, some key)) : asBytes key ≠ [] := by
  obtain ⟨line, -, hline⟩ := List.exists_of_findSome?_eq_some h
  exact asBytes_ne_nil (connectWords_key hline)

theorem found_agree_iff (port : Option UInt16) (key : String) (p : Int) (keyBuf : Bytes) :
    (∀ remotePort : UInt16, ∃ port' key',
        some (if port.getD remotePort = 0 then 4000 else port.getD remotePort, key) =
            some (port', key') ∧
          (orDefaultPort p, keyBuf) = ((port'.toNat : Int), asBytes key')) ↔
      (∃ q, port = some q ∧ orDefaultPort q.toNat = orDefaultPort p) ∧
        ∃ k, some key = some k ∧ asBytes k = keyBuf := by
  have hone : ∀ q : UInt16, (∃ port' key', some (if q = 0 then 4000 else q, key) =
        some (port', key') ∧ (orDefaultPort p, keyBuf) = ((port'.toNat : Int), asBytes key')) ↔
      orDefaultPort p = orDefaultPort q.toNat ∧ keyBuf = asBytes key := by
    intro q
    rw [orDefaultPort_toNat]
    constructor
    · rintro ⟨port', key', hport, hkey⟩
      obtain ⟨rfl, rfl⟩ := Prod.mk.inj (Option.some.inj hport)
      exact Prod.mk.inj hkey
    · rintro ⟨hport, hkey⟩
      exact ⟨_, _, rfl, by rw [hport, hkey]⟩
  simp only [hone]
  cases port with
  | some q => simp [eq_comm]
  | none =>
    refine iff_of_false (fun hagree => ?_) (by simp)
    have hports : orDefaultPort (1 : UInt16).toNat = orDefaultPort (2 : UInt16).toNat :=
      (hagree 1).1.symm.trans (hagree 2).1
    exact absurd hports (by decide)

theorem scannersAgree_iff {wrap : Int → Int} {out : Bytes} (h : LauncherOutput out) :
    ScannersAgree wrap out ↔ FirstsMatch wrap out := by
  have hnative := nativeScan_eq wrap h
  simp only [ScannersAgree, AllFind, FirstsMatch, spawnScan_eq, (hnative _).2, (hnative _).1,
    and_self]
  cases hc : firstConnect out with
  | none =>
    cases hk : firstCarried wrap out with
    | none =>
      refine iff_of_true (fun remotePort => ⟨_, "", rfl, ?_⟩) trivial
      rw [Option.getD_none, orDefaultPort_toNat]
      rfl
    | some found =>
      obtain ⟨p, keyBuf⟩ := found
      refine iff_of_false (fun hagree => ?_) id
      obtain ⟨port, key, hport, hkey⟩ := hagree 0
      obtain ⟨-, rfl⟩ := Prod.mk.inj (Option.some.inj hport)
      exact (firstCarried_key hk).1 (Prod.mk.inj hkey).2
  | some found =>
    obtain ⟨port, key⟩ := found
    cases key with
    | none =>
      have hpanic : ¬ ∃ k, (none : Option String) = some k := by simp
      refine iff_of_false (fun hagree => ?_) ?_
      · obtain ⟨port', key', hport, -⟩ := hagree 0
        cases hport
      · cases firstCarried wrap out with
        | none => exact id
        | some found =>
          rintro ⟨-, k, hk, -⟩
          exact hpanic ⟨k, hk⟩
    | some key =>
      cases hk : firstCarried wrap out with
      | none =>
        refine iff_of_false (fun hagree => ?_) id
        obtain ⟨port', key', hport, hkey⟩ := hagree 0
        obtain ⟨-, rfl⟩ := Prod.mk.inj (Option.some.inj hport)
        exact firstConnect_key hc (Prod.mk.inj hkey).2.symm
      | some found =>
        exact found_agree_iff (parseU16 port) key found.1 found.2

end MoshTcp.StartupLine
