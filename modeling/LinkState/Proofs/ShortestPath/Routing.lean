import LinkState.Proofs.ShortestPath.Outcome
import LinkState.ShortestPath.Run

/-!
# What searches look at

Announced networks, attached flags and the protection of edges are of no account for a search.
`Topology.routing` is a topology without them. A search on it is the search on the topology itself
(`Search.run_routing`), and it accepts the same requests (`Run.validate_routing`), so topologies
with the same `routing` have the same outcomes (`outcome_congr`).
-/

namespace LinkState

/-- A node without the networks that it announces and without its attached flag. -/
def Node.routing (n : Node) : Node := { n with attached := false, networks := [] }

/-- An edge without its protection. -/
def Edge.routing (e : Edge) : Edge := { e with protection := .none }

def Arc.routing (a : Arc) : Arc := ⟨a.id, a.edge.routing⟩

def LogicalNeighbour.routing (n : LogicalNeighbour) : LogicalNeighbour :=
  ⟨n.node, n.out.routing, n.lan.map Arc.routing⟩

/-- A topology as far as searches look at it. -/
def Topology.routing (t : Topology) : Topology :=
  { t with nodes := t.nodes.map Node.routing, edges := t.edges.map Edge.routing }

theorem Table.map_modify {α β : Type} (t : Table α) (h : Handle) {f : α → α} {g : α → β}
    (hfg : ∀ a, g (f a) = g a) : (t.modify h f).map g = t.map g := by
  unfold modify map
  split
  · congr 1
    refine Array.ext_getElem? fun i => ?_
    simp only [Array.getElem?_map, Array.getElem?_modify]
    split
    · rw [Option.map_map, funext hfg (f := g ∘ f)]
    · rfl
  · rfl

/-- Whether a change changes nothing that searches look at. -/
def Change.sparesSearches : Change → Bool
  | .setProtection .. | .setAttached .. | .setNetworks .. => true
  | _ => false

theorem LogicalNeighbour.nexthop_routing (n : LogicalNeighbour) :
    n.routing.nexthop = n.nexthop := by
  cases h : n.lan <;> simp [nexthop, routing, h, Arc.routing, Edge.routing, Edge.gateway]

namespace Topology

variable {t t' : Topology} {l : Level} {root n : NodeId}

theorem get?_nodes_routing (t : Topology) (n : NodeId) :
    t.routing.nodes.get? n = (t.nodes.get? n).map Node.routing :=
  Table.get?_map ..

@[simp] theorem contains_routing : t.routing.nodes.contains n = t.nodes.contains n :=
  Table.contains_map ..

@[simp] theorem size_routing : t.routing.nodes.size = t.nodes.size := by
  simp [routing, Table.size, Table.map]

@[simp] theorem isPseudonode_routing : t.routing.isPseudonode n l = t.isPseudonode n l := by
  rw [isPseudonode, get?_nodes_routing, Option.any_map]
  rfl

@[simp] theorem isOverloaded_routing : t.routing.isOverloaded n l = t.isOverloaded n l := by
  rw [isOverloaded, get?_nodes_routing, Option.any_map]
  rfl

@[simp] theorem nameOf_routing : t.routing.nameOf n = t.nameOf n := by
  rw [nameOf, get?_nodes_routing, Option.map_map]
  rfl

@[simp] theorem arcsFrom_routing : t.routing.arcsFrom n = (t.arcsFrom n).map Arc.routing := by
  have hedges : ∀ e, t.routing.edges.get? e = (t.edges.get? e).map Edge.routing :=
    fun e => Table.get?_map ..
  simp only [arcsFrom, List.map_filterMap, hedges, Option.map_map]
  rfl

@[simp] theorem activeArcs_routing :
    t.routing.activeArcs n l = (t.activeArcs n l).map Arc.routing := by
  rw [activeArcs, arcsFrom_routing, List.filter_map]
  rfl

@[simp] theorem hasReturn_routing (next : NodeId) :
    t.routing.hasReturn n next l = t.hasReturn n next l := by
  simp only [hasReturn, activeArcs_routing, List.any_map]
  rfl

@[simp] theorem usableArcs_routing :
    t.routing.usableArcs l n = (t.usableArcs l n).map Arc.routing := by
  simp only [usableArcs, isOverloaded_routing, activeArcs_routing, List.filter_map]
  split
  · rfl
  · congr 1
    refine List.filter_congr fun a _ => ?_
    simp [Arc.routing, Edge.routing]

@[simp] theorem logicalNeighbours_routing :
    t.routing.logicalNeighbours n l = (t.logicalNeighbours n l).map LogicalNeighbour.routing := by
  simp only [logicalNeighbours, activeArcs_routing, List.flatMap_map, List.map_flatMap,
    isPseudonode_routing]
  congr 1
  funext a
  change (if t.isPseudonode a.edge.target.node l = true then _ else _) = _
  split
  · simp only [List.filter_map, List.map_map]
    rfl
  · rfl

theorem explore_routing (fuel : Nat) (seen : NodeSet) (queue : List NodeId) :
    t.routing.explore l fuel seen queue = t.explore l fuel seen queue := by
  induction fuel generalizing seen queue with
  | zero => rfl
  | succ fuel ih =>
    cases queue with
    | nil => rfl
    | cons n queue =>
      simp only [explore, activeArcs_routing, List.map_map, ih]
      rfl

@[simp] theorem reachable_routing : t.routing.reachable root l = t.reachable root l := by
  rw [reachable, explore_routing, size_routing]
  rfl

theorem rank_routing : t.routing.rank l = t.rank l := by
  funext labels n
  rw [rank, isPseudonode_routing]
  rfl

theorem contribution_routing (nexthops : Nexthops) (a : Arc) (far : Label) :
    t.routing.contribution l n nexthops a.routing far = t.contribution l n nexthops a far := by
  have hedges : ∀ e : EdgeId, t.routing.edges.get? e = (t.edges.get? e).map Edge.routing :=
    fun e => Table.get?_map ..
  simp only [contribution, isPseudonode_routing, hedges, Option.any_map]
  rfl

theorem routing_contains_congr (h : t.routing = t'.routing) :
    t.nodes.contains n = t'.nodes.contains n := by
  rw [← contains_routing, h, contains_routing]

theorem routing_apply (t : Topology) {c : Change} (h : c.sparesSearches = true) :
    (t.apply c).2.routing = t.routing := by
  have hnode : ∀ n (f : Node → Node), (∀ a, (f a).routing = a.routing) →
      (t.modifyNode n f).routing = t.routing := fun n f hf =>
    congrArg (fun nodes => { t.routing with nodes }) (Table.map_modify t.nodes n hf)
  have hedge : ∀ e (f : Edge → Edge), (∀ a, (f a).routing = a.routing) →
      (t.modifyEdge e f).routing = t.routing := fun e f hf =>
    congrArg (fun edges => { t.routing with edges }) (Table.map_modify t.edges e hf)
  have hchanged : ∀ found t', t'.routing = t.routing →
      (t.changed found t').2.routing = t.routing := fun found t' =>
    changed_keeps (P := fun t' => t'.routing = t.routing) rfl found
  cases c with
  | setProtection e => exact hchanged _ _ (hedge e _ fun _ => rfl)
  | setAttached n => exact hchanged _ _ (hnode n _ fun _ => rfl)
  | setNetworks n => exact hchanged _ _ (hnode n _ fun _ => rfl)
  | _ => cases h

end Topology

namespace Search

open LinkState.Topology

variable {t t' : Topology} {l : Level} {root : NodeId}

theorem relax_routing (origin : Result) (s : Search) (a : Arc) :
    relax t.routing l origin s a.routing = relax t l origin s a := by
  unfold relax
  simp only [contribution_routing, enqueue, rank_routing]
  rfl

theorem settle_routing (s : Search) (n : NodeId) :
    settle t.routing l root s n = settle t l root s n := by
  unfold settle
  simp only [usableArcs_routing, List.filter_map, List.foldlM_map, relax_routing, nameOf_routing]
  rfl

theorem settleAll_routing (fuel : Nat) (s : Search) :
    settleAll t.routing l root fuel s = settleAll t l root fuel s := by
  induction fuel generalizing s with
  | zero => rfl
  | succ fuel ih => simp only [settleAll, rank_routing, settle_routing, ih]

theorem seed_routing (labels : Labels) : seed t.routing l root labels = seed t l root labels := by
  simp only [seed, logicalNeighbours_routing, List.foldl_map, LogicalNeighbour.nexthop_routing]
  rfl

theorem start_routing (labels : Labels) :
    start t.routing l root labels = start t l root labels := by
  simp only [start, seed_routing, reset, reachable_routing]

/-- **A search looks at the routing part of a topology only.** -/
theorem run_routing (labels : Labels) (frontier : Frontier NodeId) :
    run t.routing l root labels frontier = run t l root labels frontier := by
  simp only [run, start_routing, rank_routing, settleAll_routing, size_routing]

/-- Topologies that differ in nothing that searches look at have the same outcomes. -/
theorem outcome_congr (h : t.routing = t'.routing) (l : Level) (root : NodeId) :
    outcome t l root = outcome t' l root := by
  have hrun : run t l root = run t' l root := by
    funext labels frontier
    rw [← run_routing, h, run_routing]
  rw [outcome, outcome, hrun]

end Search

/-- A request for a run is accepted or refused regardless of what searches do not look at. -/
theorem Run.validate_routing {t : Topology} (root : NodeId) (l : Level) (kind : RunKind) :
    validate t.routing root l kind = (validate t root l kind).map Node.routing := by
  unfold validate
  rw [Topology.get?_nodes_routing]
  cases t.nodes.get? root with
  | none => rfl
  | some node =>
    simp only [Option.map_some, apply_ite (Except.map Node.routing)]
    rfl

end LinkState
