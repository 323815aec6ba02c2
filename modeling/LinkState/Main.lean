import LinkState.CommandLine

/-!
# The program

Reads the files that a call names and shows what the call does.
-/

open LinkState

/-- The file read when a call names no configuration; it need not exist. -/
def defaultConfig : String := "/etc/lfasim.toml"

def readFile (path : String) : IO CommandLine.FileText := do
  try
    return .ok (← IO.FS.readFile path)
  catch error =>
    match error with
    | .noFileOrDirectory .. => return .error "No such file or directory (os error 2)"
    | _ => return .error (toString error)

/-- An event as a line of the trace. -/
def traceLine (e : Event) : String :=
  e.severity.name ++ " " ++ e.message ++
    String.join (e.fields.map fun (name, value) => " " ++ name ++ "=" ++ value)

def configText (o : Options) : IO (Option CommandLine.FileText) := do
  match o.config with
  | some path => return some (← readFile path)
  | none =>
    match ← readFile defaultConfig with
    | .ok text => return some (.ok text)
    | .error _ => return none

/-- Shows what a call did. -/
def finish (outcome : CommandLine.Outcome) : IO UInt32 := do
  for event in outcome.trace do
    IO.eprintln (traceLine event)
  for message in outcome.messages do
    IO.eprintln message
  IO.print outcome.output
  return UInt32.ofNat outcome.exitCode

def main (args : List String) : IO UInt32 := do
  match Options.ofArgs? args with
  | none => finish CommandLine.usageError
  | some o => finish (CommandLine.run o (← configText o) (← readFile o.topology))
