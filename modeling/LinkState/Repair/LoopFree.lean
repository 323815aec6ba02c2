import LinkState.Repair.Protected

/-!
# Loop-free alternates

For a protected edge of a root S, a neighbour N is an alternate for an affected destination D if it
reaches D without sending traffic back: `d(N,D) < d(N,S) + d(S,D)`.

* It is downstream if `d(N,D) < d(S,D)`.
* It protects the node if `d(N,D) < d(N,P) + d(P,D)` for every primary next hop P of D, none of
  them D itself (`protectsNode`).
* It avoids the LAN behind the edge if it is reached over another edge and
  `d(N,D) < d(N,L) + d(L,D)` for the pseudo-node L (`avoidsLan`).

Over a point-to-point edge the neighbour at its end is no candidate. Over a LAN the other members
are reached through the LAN itself and can only protect against the failure of the next-hop node.
A destination with several primary next hops takes node-protecting alternates only, since the
failure of one link leaves it a path.
-/

namespace LinkState.Repair

variable (t : Topology) (l : Level)

/-- Whether the path from a neighbour to a destination avoids all primary next-hop nodes. -/
def protectsNode (f : Findings) (n d : NodeId) (metric : Metric) : List NodeId → Except Error Bool
  | [] => .ok true
  | p :: ps =>
    if p = d then .ok false
    else do
      let there ← distance t l f n p
      let onward ← distance t l f p d
      if metric < there + onward then protectsNode f n d metric ps else return false

/-- Whether the path from a neighbour to a destination avoids the LAN behind the protected edge. -/
def avoidsLan (f : Findings) (e : EdgeId) (lan d : NodeId) (c : Nexthop) (metric : Metric) :
    Except Error Bool :=
  if c.oif = e then .ok false
  else do
    let there ← distance t l f c.node lan
    let onward ← distance t l f lan d
    return decide (metric < there + onward)

/-- The kind of the alternate that a loop-free neighbour is, if any. -/
def localKind? (f : Findings) (e : EdgeId) (edge : Edge) (d : Affected) (c : Nexthop)
    (metric : Metric) : Except Error (Option AlternateKind) := do
  let downstream := decide (metric < d.metric)
  let nodeProtecting ←
    if edge.protectsNode then protectsNode t l f c.node d.node metric d.primaries
    else pure false
  if t.isPseudonode edge.target.node l then
    let avoids ← avoidsLan t l f e edge.target.node d.node c metric
    return AlternateKind.ofBroadcast? nodeProtecting downstream avoids
  else return some (AlternateKind.ofPointToPoint nodeProtecting downstream)

/-- The alternate that a candidate next hop gives an affected destination, if any. -/
def assessLocal (f : Findings) (root : NodeId) (e : EdgeId) (edge : Edge) (strict : Bool)
    (d : Affected) (c : Nexthop) : Except Error (Option Alternate) := do
  let near ← distance t l f root c.node
  if near = .infinite then return none
  else
    let metric ← distance t l f c.node d.node
    let back ← distance t l f c.node root
    if !decide (metric < back + d.metric) then return none
    else if strict && !decide (metric < d.metric) then return none
    else
      match ← localKind? t l f e edge d c metric with
      | none => return none
      | some kind =>
        if d.ecmp && !kind.isNodeProtecting then return none
        else return some ⟨c.node, d.node, c, kind, near + metric⟩

/-- The neighbours that may serve as alternates, as next hops of the root. -/
def candidates (root : NodeId) (e : EdgeId) (edge : Edge) : List Nexthop :=
  ((t.logicalNeighbours root l).filter fun n =>
    (t.isPseudonode edge.target.node l || n.out.id != e) && n.node != root &&
      !t.isOverloaded n.node l).map (·.nexthop)

/-- Searches from each node of a list. -/
def computeAllDistances : List NodeId → Compute Unit
  | [] => pure ()
  | n :: ns => do
    computeDistances t l n
    computeAllDistances ns

/-- The alternates for one destination after the other. A destination without one is told. -/
def assessAll (f : Findings) (root : NodeId) (e : EdgeId) (edge : Edge) (strict : Bool)
    (cs : List Nexthop) : List Affected → Compute (List Alternate)
  | [] => pure []
  | d :: ds => do
    let found ← collect t (assessLocal t l f root e edge strict d) cs
    if found.isEmpty then Compute.emit (.noAlternate (t.nameOf d.node))
    return found ++ (← assessAll f root e edge strict cs ds)

/-- The loop-free alternates for a protected edge of a root, if there are any. -/
def loopFree (root : NodeId) (e : EdgeId) (strict : Bool) : Compute (Option RepairRecord) := do
  let edge ← requireProtected t root e l
  if !edge.isProtected then return none
  else
    Compute.emit (.alternatesStarted edge.source.ifname l edge.protection)
    computeDistances t l root
    computeDistances t l edge.target.node
    let ds := affected root e (← Compute.findings l)
    if ds.isEmpty then return none
    else
      let cs := candidates t l root e edge
      computeAllDistances t l (cs.map (·.node)).eraseDups
      let alternates ← assessAll t l (← Compute.findings l) root e edge strict cs ds
      return RepairRecord.nonempty? ⟨e, l, alternates⟩

end LinkState.Repair
