import LinkState.Description.Reader

/-!
# Configuration files

A configuration file, written in TOML, holds the settings of the computations and says how the
trace is shown.
-/

namespace LinkState

/-- The layout of an event in the trace. -/
inductive TraceStyle where
  | compact
  | full
  | json
  | pretty
deriving DecidableEq

/-- How the trace is shown. -/
structure TraceSettings where
  enabled : Bool := false
  style : TraceStyle := .full
  colors : Bool := false
  showThreadId : Bool := false
  showSource : Bool := false

/-- What a configuration file says. -/
structure Config where
  trace : TraceSettings := {}
  settings : Settings := {}

open Document

def TraceStyle.ofDocument? : Document → Option TraceStyle :=
  choice? .toml [("compact", .compact), ("full", .full), ("json", .json), ("pretty", .pretty)]

def TraceSettings.ofDocument? (d : Document) : Option TraceSettings := do
  match ← fields? .toml ["enabled", "style", "colors", "show_thread_id", "show_source"] d with
  | [enabled, style, colors, showThreadId, showSource] =>
    some
      { enabled := ← withDefault? false bool? enabled
        style := ← withDefault? .full TraceStyle.ofDocument? style
        colors := ← withDefault? false bool? colors
        showThreadId := ← withDefault? false bool? showThreadId
        showSource := ← withDefault? false bool? showSource }
  | _ => none

/-- The destinations of the trace: there is one, the error output. -/
def TraceSettings.ofLogging? (d : Document) : Option TraceSettings := do
  match ← fields? .toml ["stderr"] d with
  | [stderr] => withDefault? {} TraceSettings.ofDocument? stderr
  | _ => none

/-- Reads a configuration: the settings of the trace and those of the computations. -/
def Config.ofDocument? (d : Document) : Option Config := do
  match ← fields? .toml ["logging", "spf"] d with
  | [logging, spf] =>
    some
      { trace := ← withDefault? {} TraceSettings.ofLogging? logging
        settings := ← withDefault? {} (Settings.ofDocument? .toml) spf }
  | _ => none

/-- Reads the text of a configuration file. -/
def Config.ofToml? (s : String) : Option Config := (Toml.read s).bind Config.ofDocument?

end LinkState
