import LinkState.Topology.Walk

/-!
# Shortest-path search

`Search.run` finds the least metric and the next hops of every node that a root reaches at a level.
Nodes leave the frontier in the order of their tentative metric, pseudo-nodes before routers at the
same metric (`Topology.rank`), and the usable edges of a node are relaxed when it is settled.

* `contribution`: the next hops that an edge brings to its far end. They are those of the node
  itself; the root, and a LAN attached to it, have none, and there the direct next hops of the far
  end that lead over this very edge or LAN are taken.
* `relax`: a path that costs less replaces what is known, one that costs the same adds its next
  hops, as long as the far end has not been settled.

Labels outlive a search, so the first step resets those of all nodes that it can reach.
-/

namespace LinkState

/-- What a search knows about a node. -/
structure Label where
  /-- The least metric found so far. -/
  metric : Metric := .infinite
  /-- The next hops of the paths with that metric. -/
  nexthops : Nexthops := .empty
  /-- The next hops that lead straight from the root to the node, or through one LAN. -/
  direct : Nexthops := .empty
  /-- Whether the node is in the frontier. -/
  queued : Bool := false

instance : Inhabited Label := ⟨{}⟩

/-- The label of each node; a node that no search has touched has the default one. -/
abbrev Labels := HandleMap Label

/-- A node reached from a root. -/
structure Result where
  node : NodeId
  metric : Metric
  nexthops : Nexthops
deriving DecidableEq

namespace Topology

variable (t : Topology)

/-- The place of a node in the frontier: by metric, pseudo-nodes first among equals. -/
def rank (l : Level) (labels : Labels) (n : NodeId) : Nat :=
  2 * (labels.read n).metric.toNat + if t.isPseudonode n l then 0 else 1

/-- The next hops that an edge brings to its far end. -/
def contribution (l : Level) (node : NodeId) (nexthops : Nexthops) (a : Arc) (far : Label) :
    Nexthops :=
  if !nexthops.isEmpty then nexthops
  else if t.isPseudonode a.edge.target.node l then .empty
  else far.direct.filter fun h =>
    h.oif == a.id || (t.edges.get? h.oif).any (·.target.node == node)

end Topology

/-- The state of a search. -/
structure Search where
  labels : Labels
  frontier : Frontier NodeId
  /-- The nodes settled so far, in the order in which they left the frontier. -/
  settled : List Result := []
  /-- The far ends of the edges at which a path became too expensive. -/
  exceeded : List NodeId := []

namespace Search

variable (t : Topology) (l : Level)

/-- Puts a node whose label was improved into the frontier, or moves it up there. -/
def enqueue (labels : Labels) (f : Frontier NodeId) (n : NodeId) (queued : Bool) :
    Except Fault (Frontier NodeId) :=
  (if queued then f.decreaseKey (t.rank l labels) n else f.push (t.rank l labels) n).mapError
    .frontier

/-- Relaxes an edge that leaves a node just settled. -/
def relax (origin : Result) (s : Search) (a : Arc) : Except Fault Search :=
  let n := a.edge.target.node
  let metric := origin.metric + a.edge.cost l
  let label := s.labels.read n
  if metric = .infinite then .ok { s with exceeded := s.exceeded ++ [n] }
  else if label.metric < metric then .ok s
  else
    let nexthops := t.contribution l origin.node origin.nexthops a label
    if metric = label.metric then
      if label.queued then
        let label := { label with nexthops := label.nexthops.extend nexthops }
        .ok { s with labels := s.labels.write n label }
      else .ok s
    else
      let labels := s.labels.write n { label with metric, nexthops, queued := true }
      (enqueue t l labels s.frontier n label.queued).map fun frontier =>
        { s with labels, frontier }

/-- Settles a node that has just left the frontier: records it and relaxes its edges. No edge to
the root is relaxed. -/
def settle (root : NodeId) (s : Search) (n : NodeId) : Except Fault Search :=
  let label := s.labels.read n
  if label.queued then
    let result : Result := ⟨n, label.metric, label.nexthops⟩
    let s := { s with
      labels := s.labels.write n { label with queued := false }
      settled := s.settled ++ [result] }
    ((t.usableArcs l n).filter fun a => a.edge.target.node != root).foldlM (relax t l result) s
  else .error (.notQueued (t.nameOf n))

/-- Settles up to `fuel` nodes, until the frontier is empty. -/
def settleAll (root : NodeId) : Nat → Search → Except Fault Search
  | 0, s => .ok s
  | fuel + 1, s =>
    match s.frontier.popMin? (t.rank l s.labels) with
    | none => .ok s
    | some (n, frontier) => do
      let s ← settle t l root { s with frontier } n
      settleAll root fuel s

/-- Forgets what earlier searches knew about the nodes that the root can reach. -/
def reset (root : NodeId) (labels : Labels) : Labels :=
  (t.reachable root l).toList.foldl (fun labels n => labels.write n {}) labels

/-- Gives each logical neighbour of the root its direct next hops. -/
def seed (root : NodeId) (labels : Labels) : Labels :=
  (t.logicalNeighbours root l).foldl
    (fun labels n => labels.update n.node fun label =>
      { label with direct := label.direct.insert n.out.edge.nexthopKind n.nexthop })
    labels

/-- The labels at the start of a search. -/
def start (root : NodeId) (labels : Labels) : Labels :=
  let labels := (reset t l root labels).update root fun label => { label with metric := 0 }
  (seed t l root labels).update root fun label => { label with queued := true }

/-- Searches from a root. Every node is settled at most once, so the number of nodes bounds the
number of steps. -/
def run (root : NodeId) (labels : Labels) (frontier : Frontier NodeId) : Except Fault Search :=
  if frontier.isEmpty then do
    let labels := start t l root labels
    let frontier ← (frontier.clear.push (t.rank l labels) root).mapError .frontier
    settleAll t l root t.nodes.size { labels, frontier }
  else .error .frontierNotEmpty

end Search

end LinkState
