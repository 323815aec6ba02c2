import LinkState.Workspace

/-!
# Runs

A run computes from a root at a level, after `validate` has accepted the request:

* a full run searches and rebuilds the routing table of the root;
* a forward run searches only, which is also open to pseudo-nodes;
* a partial run rebuilds the routing table from the last search, or is a full run if the root has
  made none.

A full run at level 2 is preceded by one at level 1 when the root takes part in level 1, has made
no full run there, and is not overloaded there. Every run is entered in the journal.
-/

namespace LinkState.Run

variable (t : Topology) (root : NodeId) (l : Level)

/-- The root of a run, if the request is in order. -/
def validate (kind : RunKind) : Except Error Node :=
  match t.nodes.get? root with
  | none => .error (.unknownNode root)
  | some node =>
    if !node.levelType.includes l then .error (.rootLevelMismatch node.name l)
    else if node.isOverloaded l then .error (.rootOverloaded node.name l)
    else if kind != .forward && node.isPseudonode l then .error (.rootPseudonode node.name l)
    else .ok node

/-- A partial run of a root that has made no full run is a full one. -/
def effectiveKind (version : UInt32) : RunKind → RunKind
  | .partialRoutes => if version = 0 then .full else .partialRoutes
  | kind => kind

/-- Whether a run must be preceded by a full run at level 1. -/
def needsLowerLevel (node : Node) (lowerVersion : UInt32) (kind : RunKind) : Bool :=
  kind == .full && l == .l2 && node.levelType.includes .l1 && lowerVersion == 0 &&
    !node.isOverloaded .l1

/-- Searches from the root and stores what was found. -/
def search : Compute Unit := do
  let w ← get
  match Search.run t l root (w.findings.get l).labels w.frontier with
  | .error f => throw (.fault f)
  | .ok s =>
    set { w with
      findings := w.findings.modify l fun f => f.store t l root s
      frontier := s.frontier
      trace := w.trace ++ s.exceeded.map fun n => Event.metricExceeded (t.nameOf n) l }

/-- Rebuilds the routing table of the root. -/
def rebuildTable : Compute Unit := do
  Compute.modifyFindings l fun f => f.rebuildTable t l root
  let f ← Compute.findings l
  Compute.emit (.tableUpdated (t.nameOf root) l (f.roots.read root).table.size)

/-- The work of a run. -/
def work : RunKind → Compute Unit
  | .full => do
    search t root l
    Compute.modifyFindings l fun f => f.bumpVersion root
    rebuildTable t root l
  | .forward => search t root l
  | .partialRoutes => rebuildTable t root l

/-- Makes a run that has been validated and returns the routers reached. -/
def perform (kind : RunKind) : Compute (List Result) := do
  Compute.emit (.runStarted (t.nameOf root) l kind)
  work t root l kind
  let results := (← Compute.findings l).destinations root
  Compute.emit (.runFinished (t.nameOf root) l kind results.length)
  modify fun w =>
    { w with journal := w.journal.record w.settings.journalSize root l kind results.length }
  return results

/-- Makes a run and returns the routers reached, in the order of their metric. -/
def run (kind : RunKind) : Compute (List Result) := do
  let node ← Compute.check (validate t root l kind)
  let kind := effectiveKind ((← Compute.findings l).roots.read root).version kind
  if needsLowerLevel l node ((← Compute.findings .l1).roots.read root).version kind then
    let _ ← Compute.check (validate t root .l1 .full)
    let _ ← perform t root .l1 .full
  perform t root l kind

end LinkState.Run
