import LinkState.Topology.Basic

/-!
# Neighbours

`activeArcs` are the edges over which a node reaches its physical neighbours at a level. Seen
logically, a LAN is not a neighbour: the other members of the LAN stand in place of its pseudo-node
(`logicalNeighbours`). `reachable` is the set of nodes joined to a root by active edges.
-/

namespace LinkState

/-- A neighbour of a node, where a LAN has been replaced by its members. -/
structure LogicalNeighbour where
  node : NodeId
  /-- The edge of the node itself. -/
  out : Arc
  /-- The edge from the pseudo-node to the neighbour, if there is a LAN between. -/
  lan : Option Arc

namespace LogicalNeighbour

/-- The neighbour as a next hop: its gateway is the address at the end of the last edge. -/
def nexthop (n : LogicalNeighbour) : Nexthop :=
  ⟨n.node, n.out.id, (n.lan.getD n.out).edge.gateway⟩

end LogicalNeighbour

namespace Topology

variable (t : Topology)

/-- The edges that leave a node and are active at a level, in order of creation. -/
def activeArcs (n : NodeId) (l : Level) : List Arc :=
  (t.arcsFrom n).filter fun a => a.edge.isActive l

/-- The neighbours of a node, where the members of a LAN stand in place of its pseudo-node. -/
def logicalNeighbours (n : NodeId) (l : Level) : List LogicalNeighbour :=
  (t.activeArcs n l).flatMap fun out =>
    let next := out.edge.target.node
    if t.isPseudonode next l then
      ((t.activeArcs next l).filter fun a => a.edge.target.node != n).map fun a =>
        ⟨a.edge.target.node, out, some a⟩
    else [⟨next, out, none⟩]

/-- Whether a neighbour has an active unicast edge back to a node. -/
def hasReturn (n next : NodeId) (l : Level) : Bool :=
  (t.activeArcs next l).any fun a => a.edge.target.node == n && a.edge.kind == .unicast

/-- Adds the members of a list that are new to a set, and says which ones they were. -/
def visit (seen : NodeSet) : List NodeId → NodeSet × List NodeId
  | [] => (seen, [])
  | n :: ns =>
    if seen.contains n then visit seen ns
    else
      let (seen, added) := visit (seen.insert n) ns
      (seen, n :: added)

/-- Visits breadth first what lies behind the nodes of a queue, taking up to `fuel` nodes from
it. -/
def explore (l : Level) : Nat → NodeSet → List NodeId → NodeSet
  | 0, seen, _ => seen
  | _ + 1, seen, [] => seen
  | fuel + 1, seen, n :: queue =>
    let (seen, added) := visit seen ((t.activeArcs n l).map fun a => a.edge.target.node)
    explore l fuel seen (queue ++ added)

/-- The nodes joined to a root by active edges, with the root itself. Each node is queued at most
once, so the number of nodes bounds the number of steps. -/
def reachable (root : NodeId) (l : Level) : NodeSet :=
  t.explore l (t.nodes.size + 1) (({} : NodeSet).insert root) [root]

theorem mem_activeArcs [t.Listed] {n : NodeId} {l : Level} {a : Arc} :
    a ∈ t.activeArcs n l ↔
      t.edges.get? a.id = some a.edge ∧ a.edge.source.node = n ∧ a.edge.isActive l = true := by
  rw [activeArcs, List.mem_filter, mem_arcsFrom, and_assoc]

/-- A logical neighbour is the far end of an active edge, if that is a router, or else another
member of the LAN there. -/
theorem mem_logicalNeighbours {n : NodeId} {l : Level} {nb : LogicalNeighbour} :
    nb ∈ t.logicalNeighbours n l ↔ nb.out ∈ t.activeArcs n l ∧
      (t.isPseudonode nb.out.edge.target.node l = false ∧ nb.lan = none ∧
          nb.node = nb.out.edge.target.node ∨
        t.isPseudonode nb.out.edge.target.node l = true ∧
          ∃ c ∈ t.activeArcs nb.out.edge.target.node l,
            nb.lan = some c ∧ c.edge.target.node ≠ n ∧ nb.node = c.edge.target.node) := by
  obtain ⟨node, out, lan⟩ := nb
  unfold logicalNeighbours
  rw [List.mem_flatMap]
  constructor
  · rintro ⟨a, ha, h⟩
    dsimp only at h
    split at h
    · rename_i hp
      obtain ⟨c, hc, e⟩ := List.mem_map.1 h
      obtain ⟨hc, hne⟩ := List.mem_filter.1 hc
      cases e
      exact ⟨ha, .inr ⟨hp, c, hc, rfl, by simpa using hne, rfl⟩⟩
    · rename_i hp
      cases List.mem_singleton.1 h
      exact ⟨ha, .inl ⟨Bool.eq_false_iff.2 hp, rfl, rfl⟩⟩
  · rintro ⟨ha, ⟨hp, hlan, hnode⟩ | ⟨hp, c, hc, hlan, hne, hnode⟩⟩
    · dsimp only at ha hp hlan hnode
      subst hlan hnode
      exact ⟨out, ha, by simp [hp]⟩
    · dsimp only at ha hp hc hlan hnode
      subst hlan hnode
      refine ⟨out, ha, ?_⟩
      rw [if_pos hp]
      exact List.mem_map.2 ⟨c, List.mem_filter.2 ⟨hc, by simpa using hne⟩, rfl⟩

end Topology

end LinkState
