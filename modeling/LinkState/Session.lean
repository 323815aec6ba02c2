import LinkState.Description.Build
import LinkState.Repair.Backup
import LinkState.Topology.Change

/-!
# Sessions

A `Session` is a topology with the workspace of the computations on it. Changes go to the topology,
computations to the workspace. A request that fails, whether it is refused or ends in a fault, keeps
what it has done so far.

A session can be renewed: it goes on with a new journal and a new frontier. What has been found for
the nodes stays with them.
-/

namespace LinkState

/-- A topology, and the workspace of the computations on it. -/
structure Session where
  topology : Topology := {}
  workspace : Workspace := {}

namespace Session

variable {α : Type}

/-- Adds an event to the trace. -/
def emit (s : Session) (e : Event) : Session :=
  { s with workspace := { s.workspace with trace := s.workspace.trace ++ [e] } }

/-- The trace so far, and the session with an empty one. -/
def takeTrace (s : Session) : List Event × Session :=
  (s.workspace.trace, { s with workspace := { s.workspace with trace := [] } })

/-- The session on the topology of a description. -/
def ofDescription (d : Description) (settings : Settings) : Except Error Session := do
  let topology ← d.build
  let s : Session := { topology, workspace := { settings } }
  return s.emit (.topologyBuilt topology.nodes.size topology.edges.size)

/-- Replaces the settings. -/
def configure (s : Session) (settings : Settings) : Session :=
  { s with workspace := { s.workspace with settings } }

/-- Starts a new journal, with a new frontier and new settings. What was found stays. -/
def renew (s : Session) (settings : Settings) : Session :=
  { s with workspace := { s.workspace with settings, frontier := {}, journal := {} } }

/-- Runs a computation. -/
def compute (s : Session) (c : Topology → Compute α) : Except Failure α × Session :=
  match c s.topology s.workspace with
  | .ok a workspace => (.ok a, { s with workspace })
  | .error failure workspace => (.error failure, { s with workspace })

/-- Carries out a change of the topology. An inversion is told to the trace. -/
def change (s : Session) (c : Change) : Except Failure Created × Session :=
  let (created, topology) := s.topology.apply c
  let s := match c with
    | .invert l => s.emit (.topologyInverted l)
    | _ => s
  (created, { s with topology })

/-- Reads something of a node of the topology. -/
def readNode (s : Session) (n : NodeId) (f : Session → α) : Except Failure α :=
  if s.topology.nodes.contains n then .ok (f s) else .error (.fault .noSuchRow)

end Session

end LinkState
