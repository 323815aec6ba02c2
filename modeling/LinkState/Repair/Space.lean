import LinkState.Repair.Protected
import LinkState.Topology.Construct

/-!
# Repair spaces

For a protected edge from S to E, a remote node can take over traffic if S can reach it, and it can
reach E, without the protected edge.

* The P-space of S holds the nodes that S reaches without E on a shortest path (`nearSpace`). The
  extended one adds what a neighbour of S reaches without going back through S, for each neighbour
  that S itself reaches without E (`extendedSpace`).
* The Q-space of E holds the nodes that reach E without going through S (`farSpace`). Distances
  toward a node are those from it on the inverted topology.
* The PQ-space is what both have in common (`commonSpace`).

A member of the P-space comes with the next hop by which S reaches it and with a mark that says
whether the path avoids E as a node; a path with that mark replaces one without.
-/

namespace LinkState

/-- How a root reaches a member of its P-space. -/
structure RepairPath where
  nexthop : Nexthop
  /-- Whether the path avoids the node at the far end of the protected edge. -/
  nodeProtecting : Bool
deriving DecidableEq

/-- Nodes in order of position, with the paths by which they are reached. -/
abbrev RepairSpace := Std.TreeMap NodeId RepairPath

namespace Repair

variable (t : Topology) (l : Level)

/-- Whether a search result may be a member of the P-space of a root. -/
def eligible (root : NodeId) (r : Result) : Bool := r.node != root && !t.isOverloaded r.node l

/-- Adds a result of the root to its P-space, if its path avoids the protected edge. -/
def addNear (f : Findings) (root : NodeId) (e : EdgeId) (far : NodeId) (toFar : Metric)
    (space : RepairSpace) (r : Result) : Except Error RepairSpace :=
  if eligible t l root r then do
    let onward ← distance t l f far r.node
    if r.metric < toFar + onward then
      match r.nexthops.ip.members.find? fun n => n.oif != e with
      | some nexthop => return space.insert r.node ⟨nexthop, r.node != far⟩
      | none => return space
    else return space
  else .ok space

/-- The P-space of a root, from the distances of the root and of the far end. -/
def nearMembers (f : Findings) (root : NodeId) (e : EdgeId) (edge : Edge) :
    Except Error RepairSpace := do
  let toFar ← distance t l f root edge.target.node
  (f.destinations root).foldlM (addNear t l f root e edge.target.node toFar) ∅

/-- The P-space of a root, from the last searches of the root and of the far end. -/
def nearSpace (root : NodeId) (e : EdgeId) : Compute RepairSpace := do
  let edge ← Compute.row (t.edges.get? e)
  Compute.check (nearMembers t l (← Compute.findings l) root e edge)

/-- Whether the root reaches a neighbour without the far end of the protected edge. -/
def helps (f : Findings) (root : NodeId) (e : EdgeId) (far : NodeId) (toFar : Metric)
    (n : LogicalNeighbour) : Except Error Bool :=
  if n.node = far ∨ n.out.id = e ∨ t.isOverloaded n.node l then .ok false
  else do
    let there ← distance t l f root n.node
    let onward ← distance t l f far n.node
    return there != .infinite && decide (there < toFar + onward)

/-- The next hops of the root that lead to helpful neighbours. -/
def helpers (f : Findings) (root : NodeId) (e : EdgeId) (far : NodeId) (toFar : Metric) :
    List LogicalNeighbour → Except Error (List Nexthop)
  | [] => .ok []
  | n :: ns => do
    let useful ← helps t l f root e far toFar n
    let rest ← helpers f root e far toFar ns
    return if useful then n.nexthop :: rest else rest

/-- Adds a path to a space, unless there is one that is as good. -/
def improve (space : RepairSpace) (n : NodeId) (path : RepairPath) : RepairSpace :=
  match space[n]? with
  | none => space.insert n path
  | some current =>
    if path.nodeProtecting && !current.nodeProtecting then space.insert n path else space

/-- Adds a result of a neighbour to the space, if the neighbour does not go through the root. -/
def addThrough (f : Findings) (root far : NodeId) (nexthop : Nexthop) (toRoot toFar : Metric)
    (space : RepairSpace) (r : Result) : Except Error RepairSpace :=
  if eligible t l root r then do
    let fromRoot ← distance t l f root r.node
    if r.metric < toRoot + fromRoot then
      let fromFar ← distance t l f far r.node
      let nodeProtecting := r.node != far && decide (r.metric < toFar + fromFar)
      return improve space r.node ⟨nexthop, nodeProtecting⟩
    else return space
  else .ok space

/-- Adds to a space what each helpful neighbour reaches. -/
def extendThrough (root far : NodeId) (space : RepairSpace) :
    List Nexthop → Compute RepairSpace
  | [] => pure space
  | nexthop :: rest => do
    computeDistances t l nexthop.node
    let f ← Compute.findings l
    let toRoot ← Compute.check (distance t l f nexthop.node root)
    let toFar ← Compute.check (distance t l f nexthop.node far)
    let space ← Compute.check
      ((f.destinations nexthop.node).foldlM (addThrough t l f root far nexthop toRoot toFar) space)
    extendThrough root far space rest

/-- The extended P-space of a root. -/
def extendedSpace (root : NodeId) (e : EdgeId) : Compute RepairSpace := do
  let edge ← Compute.row (t.edges.get? e)
  let far := edge.target.node
  computeDistances t l root
  computeDistances t l far
  let f ← Compute.findings l
  let space ← Compute.check (nearMembers t l f root e edge)
  let toFar ← Compute.check (distance t l f root far)
  let nexthops ← Compute.check (helpers t l f root e far toFar (t.logicalNeighbours root l))
  extendThrough t l root far space nexthops

/-- The distances of all routers toward a node, found by a search on a topology whose metrics are
inverted. -/
def distancesToward (inverted : Topology) (n : NodeId) : Compute (Std.TreeMap NodeId Metric) := do
  let results ← Run.run inverted n l .forward
  return results.foldl (fun m r => m.insert r.node r.metric) ∅

/-- The nodes whose distance toward the far end is less than that of the way through the root. -/
def farMembers (root : NodeId) (towardFar towardRoot : Std.TreeMap NodeId Metric) : NodeSet :=
  let between := towardFar.getD root .infinite
  towardFar.foldl
    (fun set n metric =>
      if !t.isOverloaded n l && decide (metric < towardRoot.getD n .infinite + between) then
        set.insert n
      else set)
    {}

/-- The Q-space of the far end of a protected edge. The searches of the root and of the far end are
made anew afterwards, also when a search on the inverted topology was refused. -/
def farSpace (root : NodeId) (e : EdgeId) : Compute NodeSet := do
  let edge ← Compute.row (t.edges.get? e)
  let far := edge.target.node
  if t.isOverloaded far l then return {}
  else
    let inverted := t.invert l
    Compute.emit (.topologyInverted l)
    let toward ← Compute.attempt do
      let towardFar ← distancesToward l inverted far
      let towardRoot ← distancesToward l inverted root
      return (towardFar, towardRoot)
    Compute.emit (.topologyInverted l)
    let rootAnew ← Compute.attempt (computeDistances t l root)
    let farAnew ← Compute.attempt (computeDistances t l far)
    let (towardFar, towardRoot) ← Compute.check toward
    Compute.check rootAnew
    Compute.check farAnew
    return farMembers t l root towardFar towardRoot

/-- The PQ-space of a protected edge. -/
def commonSpace (root : NodeId) (e : EdgeId) : Compute RepairSpace := do
  let space ← extendedSpace t l root e
  let members ← farSpace t l root e
  return space.filter fun n _ => members.contains n

end Repair

end LinkState
