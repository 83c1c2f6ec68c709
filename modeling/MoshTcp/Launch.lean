import MoshTcp.StartupScan

/-! How a client starts a server: the argument loops of src/bin/mosh_tcp_client.rs and of the
main functions of the C and C++ clients, and the two SSH commands they run, the one that
launches the server and the one that forwards a port to it. The Rust client reads the values of
its options at once, the others keep them as strings. Arguments hold no NUL. -/

set_option autoImplicit false

namespace MoshTcp.Launch
open ByteOrder Protocol Utf8Lossy Numerals Words Scanf StartupLine

variable {α : Type}

def dashed (arg : String) : Bool := arg.toList.head? == some '-'

structure ClientOptions (α : Type) where
  connectAddr : Option α
  targetHost : Option String
  predict : Bool
  sshCmd : String
  sshPort : Option UInt16
  remoteServerCmd : String
  remotePort : UInt16
  deriving DecidableEq, Repr

def ClientOptions.default : ClientOptions α where
  connectAddr := none
  targetHost := none
  predict := false
  sshCmd := "ssh"
  sshPort := none
  remoteServerCmd := "mosh-tcp-server"
  remotePort := 0

/-- An option with a value, which is consumed only if it parses. -/
def takeValue {β : Type} (o : ClientOptions α) (next : Option String)
    (parse : String → Option β) (set : β → ClientOptions α) : ClientOptions α × Bool :=
  match next.bind parse with
  | some value => (set value, true)
  | none => (o, false)

/-- One argument, with the argument behind it; says whether that one was consumed too. -/
def matchArgument (parseAddr : String → Option α) (o : ClientOptions α) (arg : String)
    (next : Option String) : Option (ClientOptions α × Bool) :=
  if arg = "--connect" ∨ arg = "-c" then
    some (takeValue o next parseAddr fun addr => { o with connectAddr := some addr })
  else if arg = "--ssh" ∨ arg = "-s" then
    some (takeValue o next some fun cmd => { o with sshCmd := cmd })
  else if arg = "--ssh-port" ∨ arg = "-p" then
    some (takeValue o next parseU16 fun port => { o with sshPort := some port })
  else if arg = "--server" then
    some (takeValue o next some fun cmd => { o with remoteServerCmd := cmd })
  else if arg = "--port" then
    some (takeValue o next parseU16 fun port => { o with remotePort := port })
  else if arg = "--predict" then some ({ o with predict := true }, false)
  else if arg = "--help" ∨ arg = "-h" then none
  else if !dashed arg && o.targetHost.isNone then some ({ o with targetHost := some arg }, false)
  else some (o, false)

def argumentLoop (parseAddr : String → Option α) :
    ClientOptions α → List String → Option (ClientOptions α)
  | o, [] => some o
  | o, [arg] => (matchArgument parseAddr o arg none).map Prod.fst
  | o, arg :: next :: rest =>
    match matchArgument parseAddr o arg (some next) with
    | some (o, true) => argumentLoop parseAddr o rest
    | some (o, false) => argumentLoop parseAddr o (next :: rest)
    | none => none

/-- The two commands that are run, and the key for the handshake. -/
structure Commands where
  launcher : List Bytes
  tunnel : List Bytes
  sessionKey : Bytes
  deriving DecidableEq, Repr

/-- `SshTunnel::spawn`, when the launcher prints `out` and the listener got `localPort`. The scan
of the output may panic. -/
def spawn (sshCmd target : String) (sshPort : Option UInt16) (remoteServerCmd : String)
    (remotePort : UInt16) (out : Bytes) (localPort : UInt16) : Option Commands :=
  let sshPortArgs := match sshPort with
    | some port => ["-p", toString port.toNat]
    | none => []
  let serverArg := if remotePort = 0 then remoteServerCmd ++ " --bind 127.0.0.1:0"
    else remoteServerCmd ++ " --bind 127.0.0.1:" ++ toString remotePort.toNat
  match spawnScan remotePort out with
  | some (boundPort, sessionKey) =>
    some {
      launcher := (sshCmd :: (sshPortArgs ++ [target, serverArg])).map asBytes
      tunnel := (sshCmd :: "-o" :: "ExitOnForwardFailure=yes" :: "-N" :: "-L" ::
        (toString localPort.toNat ++ ":127.0.0.1:" ++ toString boundPort.toNat) ::
        (sshPortArgs ++ [target])).map asBytes
      sessionKey := asBytes sessionKey }
  | none => none

/-- `main` of the Rust client, as far as it launches a server. -/
def rustLaunch (parseAddr : String → Option α) (args : List String) (out : Bytes)
    (localPort : UInt16) : Option Commands :=
  match argumentLoop parseAddr .default args with
  | some o =>
    match o.connectAddr, o.targetHost with
    | none, some target =>
      spawn o.sshCmd target o.sshPort o.remoteServerCmd o.remotePort out localPort
    | _, _ => none
  | none => none

/-! ### The C and C++ clients -/

structure NativeOptions where
  connectArg : Option String
  targetHost : Option String
  sshCmd : String
  sshPortStr : Option String
  serverCmd : String
  remotePort : Int
  deriving DecidableEq, Repr

def NativeOptions.default : NativeOptions where
  connectArg := none
  targetHost := none
  sshCmd := "ssh"
  sshPortStr := none
  serverCmd := "mosh-tcp-server"
  remotePort := 0

/-- `atoi`, where no number is zero. -/
def atoi (wrap : Int → Int) (s : String) : Option Int :=
  match scanInt ((asBytes s).dropWhile isSpace) with
  | some (n, _) => some (wrap n)
  | none => some 0

/-- `std::stoi`, where no number and a number outside `int` are exceptions that nobody
catches. -/
def stoi (s : String) : Option Int :=
  match scanInt ((asBytes s).dropWhile isSpace) with
  | some (n, _) => if -2 ^ 31 ≤ n ∧ n < 2 ^ 31 then some n else none
  | none => none

def keepValue (o : NativeOptions) (next : Option String) (set : String → NativeOptions) :
    NativeOptions × Bool :=
  match next with
  | some value => (set value, true)
  | none => (o, false)

/-- The two clients differ in how they read a number. -/
def matchNative (number : String → Option Int) (o : NativeOptions) (arg : String)
    (next : Option String) : Option (NativeOptions × Bool) :=
  if arg = "--connect" ∨ arg = "-c" then
    some (keepValue o next fun value => { o with connectArg := some value })
  else if arg = "--ssh" ∨ arg = "-s" then
    some (keepValue o next fun value => { o with sshCmd := value })
  else if arg = "--ssh-port" ∨ arg = "-p" then
    some (keepValue o next fun value => { o with sshPortStr := some value })
  else if arg = "--server" then
    some (keepValue o next fun value => { o with serverCmd := value })
  else if arg = "--port" then
    match next with
    | some value => (number value).map fun port => ({ o with remotePort := port }, true)
    | none => some (o, false)
  else if arg = "--help" ∨ arg = "-h" then none
  else if !dashed arg && o.targetHost.isNone then some ({ o with targetHost := some arg }, false)
  else some (o, false)

def nativeLoop (number : String → Option Int) :
    NativeOptions → List String → Option NativeOptions
  | o, [] => some o
  | o, [arg] => (matchNative number o arg none).map Prod.fst
  | o, arg :: next :: rest =>
    match matchNative number o arg (some next) with
    | some (o, true) => nativeLoop number o rest
    | some (o, false) => nativeLoop number o (next :: rest)
    | none => none

def printInt (n : Int) : Bytes := asBytes (toString n)

/-- What `snprintf` leaves in a buffer of `size` bytes. -/
def snprintf (size : Nat) (text : Bytes) : Bytes := text.take (size - 1)

theorem snprintf_eq_iff (n : Nat) {text : Bytes} :
    snprintf (n + 1) text = text ↔ text.length ≤ n := by
  rw [snprintf, Nat.add_sub_cancel, List.take_eq_self_iff]

/-- The branch for a target host, with the client's scan of the launcher's output. -/
def nativeLaunch (number : String → Option Int) (scan : Int → Bytes → Int × Bytes)
    (args : List String) (out : Bytes) (localPort : UInt16) : Option Commands :=
  match nativeLoop number .default args with
  | some o =>
    match o.connectArg, o.targetHost with
    | none, some target =>
      let sshPortArgs := match o.sshPortStr with
        | some port => ["-p", port]
        | none => []
      let remoteCmdBuf := if o.remotePort = 0 then
          snprintf 256 (asBytes o.serverCmd ++ asBytes " --bind 127.0.0.1:0")
        else snprintf 256 (asBytes o.serverCmd ++ asBytes " --bind 127.0.0.1:" ++
          printInt o.remotePort)
      let (boundPort, sessionKey) := scan o.remotePort out
      some {
        launcher := asBytes o.sshCmd :: (sshPortArgs.map asBytes ++
          [asBytes target, remoteCmdBuf])
        tunnel := asBytes o.sshCmd :: asBytes "-o" :: asBytes "ExitOnForwardFailure=yes" ::
          asBytes "-N" :: asBytes "-L" ::
          snprintf 128 (printInt localPort.toNat ++ asBytes ":127.0.0.1:" ++
            printInt boundPort) ::
          (sshPortArgs.map asBytes ++ [asBytes target])
        sessionKey := sessionKey }
    | _, _ => none
  | none => none

def cLaunch (wrap : Int → Int) : List String → Bytes → UInt16 → Option Commands :=
  nativeLaunch (atoi wrap) (cScan wrap)

def cppLaunch (wrap : Int → Int) : List String → Bytes → UInt16 → Option Commands :=
  nativeLaunch stoi (cppScan wrap)

/-! ### Command lines -/

def known : List String :=
  ["--connect", "-c", "--ssh", "-s", "--ssh-port", "-p", "--server", "--port", "--predict",
    "--help", "-h"]

/-- What a complete command line is made of; each option has a value that can be read. -/
inductive Arg (parseAddr : String → Option α) where
  | connect (long : Bool) (value : String) (addr : α) (h : parseAddr value = some addr)
  | ssh (long : Bool) (command : String)
  | sshPort (long : Bool) (value : String) (n : UInt16) (h : parseU16 value = some n)
  | server (command : String)
  | port (value : String) (n : UInt16) (h : parseU16 value = some n)
  | predict
  | other (name : String) (hdashed : dashed name = true) (hother : name ∉ known)
  | host (name : String) (h : dashed name = false)

variable {parseAddr : String → Option α}

def Arg.render : Arg parseAddr → List String
  | .connect long value _ _ => [if long then "--connect" else "-c", value]
  | .ssh long command => [if long then "--ssh" else "-s", command]
  | .sshPort long value _ _ => [if long then "--ssh-port" else "-p", value]
  | .server command => ["--server", command]
  | .port value _ _ => ["--port", value]
  | .predict => ["--predict"]
  | .other name _ _ => [name]
  | .host name _ => [name]

/-- What a command line asks for; the Rust client keeps what it has read, the others the text. -/
structure Request (α : Type) where
  connect : Option (String × α)
  host : Option String
  predict : Bool
  ssh : String
  sshPort : Option (String × UInt16)
  server : String
  port : UInt16

def Request.default : Request α where
  connect := none
  host := none
  predict := false
  ssh := "ssh"
  sshPort := none
  server := "mosh-tcp-server"
  port := 0

/-- The last value of an option counts, but the first host. -/
def Request.add (r : Request α) : Arg parseAddr → Request α
  | .connect _ value addr _ => { r with connect := some (value, addr) }
  | .ssh _ command => { r with ssh := command }
  | .sshPort _ value n _ => { r with sshPort := some (value, n) }
  | .server command => { r with server := command }
  | .port _ n _ => { r with port := n }
  | .predict => { r with predict := true }
  | .other _ _ _ => r
  | .host name _ => { r with host := r.host.or (some name) }

def request (line : List (Arg parseAddr)) : Request α := line.foldl Request.add .default

def Request.client (r : Request α) : ClientOptions α where
  connectAddr := r.connect.map Prod.snd
  targetHost := r.host
  predict := r.predict
  sshCmd := r.ssh
  sshPort := r.sshPort.map Prod.snd
  remoteServerCmd := r.server
  remotePort := r.port

def Request.native (r : Request α) : NativeOptions where
  connectArg := r.connect.map Prod.fst
  targetHost := r.host
  sshCmd := r.ssh
  sshPortStr := r.sshPort.map Prod.fst
  serverCmd := r.server
  remotePort := r.port.toNat

/-! An option with its value, and a single argument, leave the rest of the line. -/

theorem argumentLoop_value {o o' : ClientOptions α} {arg value : String}
    (h : matchArgument parseAddr o arg (some value) = some (o', true)) (rest : List String) :
    argumentLoop parseAddr o (arg :: value :: rest) = argumentLoop parseAddr o' rest := by
  rw [argumentLoop, h]

theorem nativeLoop_value {number : String → Option Int} {o o' : NativeOptions}
    {arg value : String} (h : matchNative number o arg (some value) = some (o', true))
    (rest : List String) :
    nativeLoop number o (arg :: value :: rest) = nativeLoop number o' rest := by
  rw [nativeLoop, h]

theorem argumentLoop_single {o o' : ClientOptions α} {arg : String}
    (h : ∀ next, matchArgument parseAddr o arg next = some (o', false)) (rest : List String) :
    argumentLoop parseAddr o (arg :: rest) = argumentLoop parseAddr o' rest := by
  cases rest with
  | nil => simp only [argumentLoop, h, Option.map_some]
  | cons next rest => rw [argumentLoop, h]

theorem nativeLoop_single {number : String → Option Int} {o o' : NativeOptions} {arg : String}
    (h : ∀ next, matchNative number o arg next = some (o', false)) (rest : List String) :
    nativeLoop number o (arg :: rest) = nativeLoop number o' rest := by
  cases rest with
  | nil => simp only [nativeLoop, h, Option.map_some]
  | cons next rest => rw [nativeLoop, h]

theorem known_dashed : ∀ name ∈ known, dashed name = true := by decide

theorem host_not_known {name : String} (h : dashed name = false) : name ∉ known := fun hknown => by
  rw [known_dashed name hknown] at h
  cases h

theorem matchArgument_unknown {name : String} (h : name ∉ known) (o : ClientOptions α)
    (next : Option String) :
    matchArgument parseAddr o name next =
      if !dashed name && o.targetHost.isNone then some ({ o with targetHost := some name }, false)
      else some (o, false) := by
  simp only [known, List.mem_cons, List.not_mem_nil, or_false, not_or] at h
  simp only [matchArgument, h, or_self, if_false]

theorem matchNative_unknown {name : String} (h : name ∉ known) (number : String → Option Int)
    (o : NativeOptions) (next : Option String) :
    matchNative number o name next =
      if !dashed name && o.targetHost.isNone then some ({ o with targetHost := some name }, false)
      else some (o, false) := by
  simp only [known, List.mem_cons, List.not_mem_nil, or_false, not_or] at h
  simp only [matchNative, h, or_self, if_false]

theorem argumentLoop_arg (r : Request α) (a : Arg parseAddr) (rest : List String) :
    argumentLoop parseAddr r.client (a.render ++ rest) =
      argumentLoop parseAddr (r.add a).client rest := by
  cases a with
  | connect long value addr h =>
    refine argumentLoop_value ?_ rest
    cases long <;> simp [matchArgument, takeValue, h, Request.client, Request.add]
  | ssh long command =>
    refine argumentLoop_value ?_ rest
    cases long <;> simp [matchArgument, takeValue, Request.client, Request.add]
  | sshPort long value n h =>
    refine argumentLoop_value ?_ rest
    cases long <;> simp [matchArgument, takeValue, h, Request.client, Request.add]
  | server command =>
    refine argumentLoop_value ?_ rest
    simp [matchArgument, takeValue, Request.client, Request.add]
  | port value n h =>
    refine argumentLoop_value ?_ rest
    simp [matchArgument, takeValue, h, Request.client, Request.add]
  | predict =>
    refine argumentLoop_single (fun next => ?_) rest
    simp [matchArgument, Request.client, Request.add]
  | other name hdashed hother =>
    refine argumentLoop_single (fun next => ?_) rest
    rw [matchArgument_unknown hother, hdashed]
    rfl
  | host name h =>
    refine argumentLoop_single (fun next => ?_) rest
    rw [matchArgument_unknown (host_not_known h), h]
    cases hhost : r.host <;> simp [Request.client, Request.add, hhost]

/-- Both ways to read a number find the one that the Rust client reads. -/
structure ReadsNumbers (number : String → Option Int) : Prop where
  port : ∀ {s : String} {n : UInt16}, parseU16 s = some n → number s = some n.toNat

theorem dropWhile_numeral {bound p : Nat} {t : Bytes} (h : parseUnsigned bound t = some p) :
    t.dropWhile isSpace = t := by
  obtain ⟨⟨hne, hall⟩, -, -⟩ := parseUnsigned_eq_some.1 h
  unfold stripPlus at hne hall
  split at hne
  · exact List.dropWhile_cons_of_neg (by decide)
  · obtain ⟨d, ds, rfl⟩ := List.exists_cons_of_ne_nil hne
    refine List.dropWhile_cons_of_neg fun hspace => ?_
    have hdigit := hall d (by simp)
    rw [isDigit_of_isSpace hspace] at hdigit
    cases hdigit

theorem scanInt_parseU16 {s : String} {n : UInt16} (h : parseU16 s = some n) :
    scanInt ((asBytes s).dropWhile isSpace) = some ((n.toNat : Int), []) := by
  have hparse := parseU16_eq_some h
  have hscan : scanInt (asBytes s ++ []) = some ((n.toNat : Int), []) :=
    scanInt_numeral hparse (by simp)
  rwa [List.append_nil, ← dropWhile_numeral hparse] at hscan

theorem atoi_readsNumbers {wrap : Int → Int} (hwrap : StoresInt wrap) :
    ReadsNumbers (atoi wrap) := by
  refine ⟨fun {s n} h => ?_⟩
  have hlt := n.toNat_lt
  rw [atoi, scanInt_parseU16 h]
  exact congrArg some (hwrap _ (by omega) (by omega))

theorem stoi_readsNumbers : ReadsNumbers stoi := by
  refine ⟨fun {s n} h => ?_⟩
  have hlt := n.toNat_lt
  rw [stoi, scanInt_parseU16 h]
  exact if_pos ⟨by omega, by omega⟩

theorem nativeLoop_arg {number : String → Option Int} (hnumber : ReadsNumbers number)
    (r : Request α) (a : Arg parseAddr) (rest : List String) :
    nativeLoop number r.native (a.render ++ rest) = nativeLoop number (r.add a).native rest := by
  cases a with
  | connect long value addr h =>
    refine nativeLoop_value ?_ rest
    cases long <;> simp [matchNative, keepValue, Request.native, Request.add]
  | ssh long command =>
    refine nativeLoop_value ?_ rest
    cases long <;> simp [matchNative, keepValue, Request.native, Request.add]
  | sshPort long value n h =>
    refine nativeLoop_value ?_ rest
    cases long <;> simp [matchNative, keepValue, Request.native, Request.add]
  | server command =>
    refine nativeLoop_value ?_ rest
    simp [matchNative, keepValue, Request.native, Request.add]
  | port value n h =>
    refine nativeLoop_value ?_ rest
    simp [matchNative, hnumber.port h, Request.native, Request.add]
  | predict =>
    -- not an option of theirs
    refine nativeLoop_single (fun next => ?_) rest
    simp [matchNative, dashed, Request.native, Request.add]
  | other name hdashed hother =>
    refine nativeLoop_single (fun next => ?_) rest
    rw [matchNative_unknown hother, hdashed]
    rfl
  | host name h =>
    refine nativeLoop_single (fun next => ?_) rest
    rw [matchNative_unknown (host_not_known h), h]
    cases hhost : r.host <;> simp [Request.native, Request.add, hhost]

theorem argumentLoop_line (r : Request α) (line : List (Arg parseAddr)) :
    argumentLoop parseAddr r.client (line.flatMap Arg.render) =
      some (line.foldl Request.add r).client := by
  induction line generalizing r with
  | nil => rfl
  | cons a line ih => rw [List.flatMap_cons, argumentLoop_arg, ih, List.foldl_cons]

theorem nativeLoop_line {number : String → Option Int} (hnumber : ReadsNumbers number)
    (r : Request α) (line : List (Arg parseAddr)) :
    nativeLoop number r.native (line.flatMap Arg.render) =
      some (line.foldl Request.add r).native := by
  induction line generalizing r with
  | nil => rfl
  | cons a line ih => rw [List.flatMap_cons, nativeLoop_arg hnumber, ih, List.foldl_cons]

def Request.sshPortText (r : Request α) : Option String :=
  r.sshPort.map fun port => toString port.2.toNat

/-- How the server is started on the other side. -/
def Request.remoteCommand (r : Request α) : Bytes :=
  asBytes (r.server ++ " --bind 127.0.0.1:" ++ toString r.port.toNat)

/-- The commands for `host`, when the server that `remote` starts listens on `boundPort` and the
SSH server on `sshPort`. -/
def Request.commands (r : Request α) (sshPort : Option String) (remote : Bytes) (host : String)
    (boundPort localPort : UInt16) (key : String) : Commands :=
  let sshPortArgs := match sshPort with
    | some port => [asBytes "-p", asBytes port]
    | none => []
  { launcher := asBytes r.ssh :: (sshPortArgs ++ [asBytes host, remote])
    tunnel := asBytes r.ssh :: asBytes "-o" :: asBytes "ExitOnForwardFailure=yes" ::
      asBytes "-N" :: asBytes "-L" ::
      asBytes (toString localPort.toNat ++ ":127.0.0.1:" ++ toString boundPort.toNat) ::
      (sshPortArgs ++ [asBytes host])
    sessionKey := asBytes key }

theorem asBytes_inj {s t : String} : asBytes s = asBytes t ↔ s = t := by
  constructor
  · intro h
    rw [← fromUtf8LossyString_asBytes s, h, fromUtf8LossyString_asBytes]
  · rintro rfl
    rfl

theorem commands_inj {r : Request α} {port port' : Option String} {remote remote' : Bytes}
    {host key : String} {boundPort localPort : UInt16} :
    r.commands port remote host boundPort localPort key =
      r.commands port' remote' host boundPort localPort key ↔ port = port' ∧ remote = remote' := by
  constructor
  · intro h
    have hlauncher := congrArg Commands.launcher h
    cases port <;> cases port' <;> simp_all [Request.commands, asBytes_inj]
  · rintro ⟨rfl, rfl⟩
    rfl

theorem remoteCommand_eq (r : Request α) :
    asBytes (if r.port = 0 then r.server ++ " --bind 127.0.0.1:0"
      else r.server ++ " --bind 127.0.0.1:" ++ toString r.port.toNat) = r.remoteCommand := by
  rw [Request.remoteCommand]
  split
  · rename_i hport
    rw [hport, String.append_assoc]
    rfl
  · rfl

theorem printInt_natCast (n : Nat) : printInt n = asBytes (toString n) := rfl

theorem remoteCmdBuf_eq (r : Request α) :
    (if (r.port.toNat : Int) = 0 then
        snprintf 256 (asBytes r.server ++ asBytes " --bind 127.0.0.1:0")
      else snprintf 256 (asBytes r.server ++ asBytes " --bind 127.0.0.1:" ++
        printInt r.port.toNat)) = snprintf 256 r.remoteCommand := by
  have hzero : (r.port.toNat : Int) = 0 ↔ r.port = 0 := by
    rw [Int.natCast_eq_zero, ← UInt16.toNat_inj, UInt16.toNat_zero]
  rw [← remoteCommand_eq, printInt_natCast]
  simp only [hzero]
  split
  · rw [asBytes_append]
  · rw [asBytes_append, asBytes_append]

theorem port_length_le (n : UInt16) : (asBytes (toString n.toNat)).length ≤ 5 := by
  have hdigits : ∀ c ∈ Nat.toDigits 10 n.toNat, c.isDigit = true := fun _ hc =>
    Nat.isDigit_of_mem_toDigits (by decide) (by decide) hc
  have hlt : n.toNat < 10 ^ 5 := n.toNat_lt.trans (by decide)
  rw [asBytes, encode_toString, decimalDigits, encode_digits hdigits, List.length_map]
  exact (Nat.length_toDigits_le_iff (by decide) (by decide)).2 hlt

theorem fwdBuf_eq (localPort boundPort : UInt16) :
    snprintf 128 (printInt localPort.toNat ++ asBytes ":127.0.0.1:" ++ printInt boundPort.toNat) =
      asBytes (toString localPort.toNat ++ ":127.0.0.1:" ++ toString boundPort.toNat) := by
  have hlocal := port_length_le localPort
  have hbound := port_length_le boundPort
  have hmiddle : (asBytes ":127.0.0.1:").length = 11 := by decide
  rw [snprintf, printInt_natCast, printInt_natCast, asBytes_append, asBytes_append]
  refine List.take_of_length_le ?_
  rw [List.length_append, List.length_append]
  omega

section Line
variable {r : Request α} {host key : String} {out : Bytes} {boundPort : UInt16}

theorem spawn_commands (hscan : spawnScan r.port out = some (boundPort, key))
    (localPort : UInt16) :
    spawn r.ssh host (r.sshPort.map Prod.snd) r.server r.port out localPort =
      some (r.commands r.sshPortText r.remoteCommand host boundPort localPort key) := by
  have hremote := remoteCommand_eq r
  simp only [spawn, hscan, Request.commands, Request.sshPortText]
  cases hport : r.sshPort with
  | none => simp only [List.map_cons, List.map_nil, List.nil_append, Option.map_none, hremote]
  | some port =>
    simp only [List.map_cons, List.map_nil, List.cons_append, List.nil_append, Option.map_some,
      hremote]

theorem rustLaunch_line (line : List (Arg parseAddr)) (hconnect : (request line).connect = none)
    (hhost : (request line).host = some host)
    (hscan : spawnScan (request line).port out = some (boundPort, key)) (localPort : UInt16) :
    rustLaunch parseAddr (line.flatMap Arg.render) out localPort =
      some ((request line).commands (request line).sshPortText (request line).remoteCommand host
        boundPort localPort key) := by
  have hloop := argumentLoop_line Request.default line
  rw [← request] at hloop
  change argumentLoop parseAddr ClientOptions.default _ = _ at hloop
  simp only [rustLaunch, hloop, Request.client, hconnect, hhost, Option.map_none]
  exact spawn_commands hscan localPort

theorem nativeLaunch_line {number : String → Option Int} (hnumber : ReadsNumbers number)
    {scan : Int → Bytes → Int × Bytes} (line : List (Arg parseAddr))
    (hconnect : (request line).connect = none) (hhost : (request line).host = some host)
    (hscan : scan (request line).port.toNat out = ((boundPort.toNat : Int), asBytes key))
    (localPort : UInt16) :
    nativeLaunch number scan (line.flatMap Arg.render) out localPort =
      some ((request line).commands ((request line).sshPort.map Prod.fst)
        (snprintf 256 (request line).remoteCommand) host boundPort localPort key) := by
  have hloop := nativeLoop_line hnumber Request.default line
  rw [← request] at hloop
  change nativeLoop number NativeOptions.default _ = _ at hloop
  have hremote := remoteCmdBuf_eq (request line)
  simp only [nativeLaunch, hloop, Request.native, hconnect, hhost, Option.map_none, hscan,
    hremote, fwdBuf_eq, Request.commands]
  cases hport : (request line).sshPort with
  | none => rfl
  | some port => rfl

end Line

/-- What the launcher prints: lines of the login shell, the server's line, and what comes
after. -/
def launcherOutput (noise : List Bytes) (port : UInt16) (nanos : BitVec 128) (pid : UInt32)
    (rest : Bytes) : Bytes :=
  unlines noise ++ asBytes (startupLine port (generateSessionKey nanos pid) pid) ++ rest

/-- Whatever a complete command line asks for, the clients forward a port to the server that they
have launched and hold its key; the commands of the C and C++ clients are those of the Rust
client, exactly when the remote command fits their buffer and the port of the SSH server is
written as it is printed. -/
theorem launches_agree_iff (line : List (Arg parseAddr))
    (hconnect : (request line).connect = none) {host : String}
    (hhost : (request line).host = some host) (wrap : Int → Int) (hwrap : StoresInt wrap)
    {noise : List Bytes} (hnoise : Noise noise) {port : UInt16} (hport : port ≠ 0)
    (nanos : BitVec 128) (pid : UInt32) (rest : Bytes)
    (hout : LauncherOutput (launcherOutput noise port nanos pid rest)) (localPort : UInt16) :
    rustLaunch parseAddr (line.flatMap Arg.render)
        (launcherOutput noise port nanos pid rest) localPort =
      some ((request line).commands (request line).sshPortText (request line).remoteCommand host
        port localPort (generateSessionKey nanos pid)) ∧
    cppLaunch wrap (line.flatMap Arg.render)
        (launcherOutput noise port nanos pid rest) localPort =
      cLaunch wrap (line.flatMap Arg.render)
        (launcherOutput noise port nanos pid rest) localPort ∧
    (cLaunch wrap (line.flatMap Arg.render)
        (launcherOutput noise port nanos pid rest) localPort =
      rustLaunch parseAddr (line.flatMap Arg.render)
        (launcherOutput noise port nanos pid rest) localPort ↔
      (request line).remoteCommand.length ≤ 255 ∧
        ∀ value n, (request line).sshPort = some (value, n) → value = toString n.toNat) := by
  obtain ⟨hrust, hc, hcpp⟩ := printed_found hwrap hnoise (generateSessionKey_plain nanos pid)
    port pid hout (request line).port
  rw [if_neg hport] at hrust hc hcpp
  have hr := rustLaunch_line line hconnect hhost hrust localPort
  have hn := nativeLaunch_line (atoi_readsNumbers hwrap) line hconnect hhost hc localPort
  have hp := nativeLaunch_line stoi_readsNumbers line hconnect hhost hcpp localPort
  refine ⟨hr, hp.trans hn.symm, ?_⟩
  rw [launcherOutput, cLaunch, hr, hn, Option.some.injEq, commands_inj, and_comm]
  refine and_congr (snprintf_eq_iff 255) ?_
  rw [Request.sshPortText]
  cases (request line).sshPort with
  | none => simp
  | some port => simp [Prod.ext_iff]

theorem launches_agree_iff_host :
    cLaunch storeLong ["h"] (launcherOutput [] 4000 0 7 []) 5000 =
      rustLaunch (fun _ => (none : Option Unit)) ["h"] (launcherOutput [] 4000 0 7 []) 5000 := by
  have hout : LauncherOutput (launcherOutput [] 4000 0 7 []) :=
    ⟨by decide +kernel, by decide +kernel⟩
  exact (launches_agree_iff [(.host "h" rfl : Arg fun _ => (none : Option Unit))] rfl rfl
    storeLong storeLong_storesInt ⟨by simp, by simp⟩ (by decide) 0 7 [] hout 5000).2.2.2
    ⟨by decide +kernel, fun _ _ h => by cases h⟩

end MoshTcp.Launch
