import LinkState.Distance

/-!
# Protected edges

The check that an edge may be protected, the destinations that its failure affects, and the
collection of alternates, which tells the trace of every one that is found.
-/

namespace LinkState

/-- A destination whose primary paths use the protected edge. -/
structure Affected where
  node : NodeId
  metric : Metric
  /-- The next-hop nodes over the protected edge. -/
  primaries : List NodeId
  /-- Whether there is more than one next hop. -/
  ecmp : Bool

namespace Repair

variable (t : Topology) (root : NodeId) (e : EdgeId) (l : Level)

/-- The edge to protect, if the request is in order: the root is a router that carries traffic and
owns the edge, which is a unicast edge in use. -/
def protectedEdge : Except Failure Edge :=
  match t.nodes.get? root, t.edges.get? e with
  | none, _ => .error (.error (.unknownNode root))
  | some _, none => .error (.error (.unknownEdge e))
  | some node, some edge =>
    if node.isPseudonode l then .error (.error (.rootPseudonode node.name l))
    else if node.isOverloaded l then .error (.error (.rootOverloaded node.name l))
    else if edge.source.node != root then
      .error (.error (.edgeNotLocal node.name edge.source.ifname))
    else if edge.kind != .unicast then .error (.fault (.tunnelProtected edge.source.ifname))
    else if !edge.isActive l then
      .error (.error (.edgeInactive node.name edge.source.ifname l))
    else .ok edge

/-- `protectedEdge` as a computation. -/
def requireProtected : Compute Edge :=
  match protectedEdge t root e l with
  | .ok edge => pure edge
  | .error failure => throw failure

/-- The destinations of the root whose primary paths use the protected edge, in the order in which
they were reached. -/
def affected (f : Findings) : List Affected :=
  ((f.destinations root).filter fun r => r.node != root && r.nexthops.ip.usesOif e).map fun r =>
    { node := r.node
      metric := r.metric
      primaries := (r.nexthops.ip.members.filter fun n => n.oif == e).map (·.node)
      ecmp := decide (1 < r.nexthops.ip.size) }

/-- Assesses candidates one after the other and collects the alternates found. -/
def collect {α : Type} (assess : α → Except Error (Option Alternate)) :
    List α → Compute (List Alternate)
  | [] => pure []
  | a :: as => do
    match ← Compute.check (assess a) with
    | none => collect assess as
    | some alternate =>
      Compute.emit (.alternateFound (t.nameOf alternate.destination) (t.nameOf alternate.node)
        alternate.kind)
      return alternate :: (← collect assess as)

end Repair

end LinkState
