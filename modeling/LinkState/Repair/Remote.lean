import LinkState.Repair.Space

/-!
# Remote alternates

A node P of the PQ-space of a protected edge is a remote alternate for an affected destination D if
it reaches D without sending traffic back to the root S: `d(P,D) < d(P,S) + d(S,D)`. It is
downstream if `d(P,D) < d(S,D)`. It protects the node E at the far end if the path to P avoids E, D
is not E, and `d(P,D) < d(P,E) + d(E,D)`. Only point-to-point edges are repaired in this way.
-/

namespace LinkState.Repair

variable (t : Topology) (l : Level)

/-- A remote node with its distances. -/
structure RemoteNode where
  node : NodeId
  path : RepairPath
  /-- The metric from the root to the node. -/
  near : Metric
  /-- The metric from the node back to the root. -/
  back : Metric
  /-- The metric from the node to the far end of the protected edge. -/
  toFar : Metric

/-- Whether a remote node protects a destination against the failure of the far end. -/
def remoteProtectsNode (f : Findings) (edge : Edge) (p : RemoteNode) (d : Affected)
    (metric : Metric) : Except Error Bool :=
  if edge.protectsNode && p.path.nodeProtecting && d.node != edge.target.node then do
    let onward ← distance t l f edge.target.node d.node
    return decide (metric < p.toFar + onward)
  else .ok false

/-- The alternate that a remote node gives an affected destination, if any. -/
def assessRemote (f : Findings) (edge : Edge) (strict : Bool) (p : RemoteNode) (d : Affected) :
    Except Error (Option Alternate) := do
  let metric ← distance t l f p.node d.node
  if !decide (metric < p.back + d.metric) then return none
  else if strict && !decide (metric < d.metric) then return none
  else
    let nodeProtecting ← remoteProtectsNode t l f edge p d metric
    let kind := AlternateKind.ofRemote nodeProtecting (decide (metric < d.metric))
    if d.ecmp && !kind.isNodeProtecting then return none
    else return some ⟨p.node, d.node, p.path.nexthop, kind, p.near + metric⟩

/-- The alternates that one remote node after the other gives. -/
def assessRemotes (root : NodeId) (edge : Edge) (strict : Bool) (ds : List Affected) :
    List (NodeId × RepairPath) → Compute (List Alternate)
  | [] => pure []
  | (n, path) :: rest => do
    let _ ← Run.run t n l .forward
    let f ← Compute.findings l
    let near ← Compute.check (distance t l f root n)
    let back ← Compute.check (distance t l f n root)
    let toFar ← Compute.check (distance t l f n edge.target.node)
    let found ← collect t (assessRemote t l f edge strict ⟨n, path, near, back, toFar⟩) ds
    return found ++ (← assessRemotes root edge strict ds rest)

/-- The remote alternates for a protected edge of a root, if there are any. -/
def remote (root : NodeId) (e : EdgeId) (strict : Bool) : Compute (Option RepairRecord) := do
  let edge ← requireProtected t root e l
  if !edge.isProtected then return none
  else if t.isPseudonode edge.target.node l then
    Compute.emit (.lanUnsupported edge.source.ifname)
    return none
  else
    let space ← commonSpace t l root e
    Compute.emit (.repairNodesFound edge.source.ifname space.size)
    let ds := affected root e (← Compute.findings l)
    if space.isEmpty || ds.isEmpty then return none
    else
      let alternates ← assessRemotes t l root edge strict ds space.toList
      return RepairRecord.nonempty? ⟨e, l, alternates⟩

end LinkState.Repair
