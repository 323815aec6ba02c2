import LinkState.Event
import LinkState.Settings
import LinkState.ShortestPath.Findings

/-!
# The workspace of computations

All computations on a topology share a `Workspace`: what searches found, one frontier that is empty
between searches, the journal, the settings, and the trace of what happened. A `Compute` reads the
topology as an argument and changes the workspace only; one that fails keeps what it has done
so far.
-/

namespace LinkState

/-- What all computations on a topology share. -/
structure Workspace where
  settings : Settings := {}
  findings : PerLevel Findings := .both {}
  frontier : Frontier NodeId := {}
  journal : Journal := {}
  /-- What happened so far, the first event first. -/
  trace : List Event := []

instance : Inhabited Workspace := ⟨{}⟩

/-- A computation on the workspace that may fail. -/
abbrev Compute (α : Type) := EStateM Failure Workspace α

namespace Compute

variable {α : Type}

/-- Adds an event to the trace. -/
def emit (e : Event) : Compute Unit := modify fun w => { w with trace := w.trace ++ [e] }

/-- Refuses the request. -/
def refuse (e : Error) : Compute α := throw (.error e)

/-- The answer, or the refusal, of a check that needs no workspace. -/
def check : Except Error α → Compute α
  | .ok a => pure a
  | .error e => refuse e

/-- The row that a handle names; it is a fault if there is none. -/
def row (o : Option α) : Compute α :=
  match o with
  | some a => pure a
  | none => throw (.fault .noSuchRow)

/-- Runs a computation and returns its refusal as a value. -/
def attempt (c : Compute α) : Compute (Except Error α) := fun w =>
  match c w with
  | .ok a w => .ok (.ok a) w
  | .error (.error e) w => .ok (.error e) w
  | .error (.fault f) w => .error (.fault f) w

/-- What is known at a level. -/
def findings (l : Level) : Compute Findings := do return (← get).findings.get l

/-- Changes what is known at a level. -/
def modifyFindings (l : Level) (f : Findings → Findings) : Compute Unit :=
  modify fun w => { w with findings := w.findings.modify l f }

end Compute

end LinkState
