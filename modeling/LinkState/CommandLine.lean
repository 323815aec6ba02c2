import LinkState.Config
import LinkState.Report

/-!
# The command line

`Options.ofArgs?` reads the arguments of a call, `CommandLine.run` makes the call: it reads the
configuration, then the level, then the topology, runs the search of the root and, if an interface
is to be protected, computes its backups. The texts of the files are arguments, so that nothing
here depends on a file system.
-/

namespace LinkState

/-- The options of a call. -/
structure Options where
  topology : String
  root : String
  config : Option String := none
  level : Option String := none
  protect : Option String := none
  json : Bool := false
  verbose : Bool := false

namespace Options

/-- The options that take a value, by either of their names. -/
def valued : List (String × String) :=
  [("-c", "config"), ("--config", "config"), ("-t", "topology"), ("--topology", "topology"),
    ("-r", "root"), ("--root", "root"), ("-l", "level"), ("--level", "level"),
    ("-p", "protect"), ("--protect", "protect")]

def flags : List (String × String) :=
  [("--json", "json"), ("-v", "verbose"), ("--verbose", "verbose")]

/-- Whether an argument is an option and not a value. -/
def isOption (arg : String) : Bool := arg.toList.head? == some '-' && decide (1 < arg.length)

/-- The options of a row of arguments with their values, flags having none. -/
def pairs? : List String → Option (List (String × String))
  | [] => some []
  | arg :: rest =>
    match flags.find? fun f => f.1 == arg with
    | some (_, name) => (pairs? rest).map ((name, "") :: ·)
    | none =>
      match valued.find? fun v => v.1 == arg, rest with
      | some (_, name), value :: rest =>
        if isOption value then none else (pairs? rest).map ((name, value) :: ·)
      | _, _ => none

/-- The options of a call, unless it is malformed: an option is unknown, given twice or without its
value, or the topology or the root is missing. -/
def ofArgs? (args : List String) : Option Options := do
  let pairs ← pairs? args
  let value? := fun name : String => (pairs.find? fun p => p.1 == name).map (·.2)
  if (pairs.map (·.1)).eraseDups.length < pairs.length then none
  else
    some
      { topology := ← value? "topology"
        root := ← value? "root"
        config := value? "config"
        level := value? "level"
        protect := value? "protect"
        json := (value? "json").isSome
        verbose := (value? "verbose").isSome }

end Options

namespace CommandLine

/-- The text of a file, or why it could not be read. -/
abbrev FileText := Except String String

/-- What a call does. -/
structure Outcome where
  exitCode : Nat
  output : String := ""
  /-- What is said on the error output. -/
  messages : List String := []
  trace : List Event := []

/-- Why a call ends early. -/
inductive Abort where
  | refused (e : Error)
  | badLevel (text : String)
  | fault (f : Fault)

def Abort.ofFailure : Failure → Abort
  | .error e => refused e
  | .fault f => fault f

/-- A violated assertion ends a call without a message and with a code of its own. -/
def Abort.outcome : Abort → Outcome
  | refused e => { exitCode := 1, messages := ["lfasim: " ++ e.message] }
  | badLevel text => { exitCode := 1, messages := ["lfasim: invalid level: " ++ text] }
  | fault _ => { exitCode := 101 }

/-- The level that is asked for: level 1 unless another one is named. -/
def level (o : Options) : Except Abort Level :=
  match o.level with
  | none => .ok .l1
  | some text =>
    match Digits.byte? text.toList with
    | none => .error (.badLevel text)
    | some n =>
      match Level.ofNumber? n with
      | some l => .ok l
      | none => .error (.refused (.invalidLevel n))

/-- What follows the last point of a file name, unless the name has no other part. -/
def extension? (path : String) : Option String :=
  let name := (path.toList.reverse.takeWhile (· != '/')).reverse
  let back := name.reverse
  let stem := (back.dropWhile (· != '.')).drop 1
  if back.contains '.' && !stem.isEmpty && name != ['.', '.'] then
    some (String.ofList (back.takeWhile (· != '.')).reverse)
  else none

/-- The description in a file, in the format that the name of the file says. -/
def description (path : String) (file : FileText) : Except Error Description :=
  match file with
  | .error _ => .error (.description (.unreadable path))
  | .ok text =>
    match extension? path with
    | some "toml" => Description.ofToml text
    | some "json" => Description.ofJson text
    | _ => .error (.description (.unknownFormat path))

def refuse {α : Type} : Except Error α → Except Abort α := Except.mapError .refused

/-- Runs a computation of a session. -/
def compute {α : Type} (s : Session) (c : Topology → Compute α) : Except Abort (α × Session) :=
  match s.compute c with
  | (.ok a, s) => .ok (a, s)
  | (.error failure, _) => .error (Abort.ofFailure failure)

/-- The backups for an interface of the root. -/
def backups (s : Session) (o : Options) (root : NodeId) (l : Level) (ifname : String) :
    Except Abort (Option RepairRecord × Session) :=
  match s.topology.edgeAt? root ifname with
  | none => .error (.refused (.edgeNotFound o.root ifname))
  | some e => compute s fun t => Repair.backups t l root e

/-- The report that is asked for, with the session that made it. -/
def report (o : Options) (settings : Settings) (file : FileText) :
    Except Abort (Report × Session) := do
  let l ← level o
  let d ← refuse (description o.topology file)
  let s ← refuse (Session.ofDescription d settings)
  let root ← refuse (s.topology.lookup o.root)
  let (results, s) ← compute s fun t => Run.run t root l .full
  let (backups, s) ← match o.protect with
    | none => pure (none, s)
    | some ifname => do
      let (record, s) ← backups s o root l ifname
      pure (some record, s)
  let table := ((s.workspace.findings.get l).roots.read root).table
  return ({ root := o.root, level := l, results, routes := table.toList, backups }, s)

/-- What is said of a configuration file that cannot be read. -/
def configMessages (cause : String) : List String :=
  ["Failed to load configuration file: " ++ cause, "Falling back to default configuration..."]

/-- The configuration of a call and what is said about it, unless its file is malformed. -/
def loadConfig : Option FileText → Option (Config × List String)
  | none => some ({}, [])
  | some (.error cause) => some ({}, configMessages cause)
  | some (.ok text) => (Config.ofToml? text).map fun c => (c, [])

/-- Makes a call with the texts of the configuration file, if there is one, and of the topology. -/
def run (o : Options) (config : Option FileText) (topology : FileText) : Outcome :=
  match loadConfig config with
  | none => { exitCode := 101 }
  | some (config, messages) =>
    match report o config.settings topology with
    | .error abort =>
      let outcome := abort.outcome
      { outcome with messages := messages ++ outcome.messages }
    | .ok (report, s) =>
      { exitCode := 0
        output := report.render s.topology o.json
        messages
        trace := if o.verbose || config.trace.enabled then s.workspace.trace else [] }

/-- A malformed call does nothing. -/
def usageError : Outcome := { exitCode := 1 }

end CommandLine

end LinkState
