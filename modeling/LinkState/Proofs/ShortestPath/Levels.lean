import LinkState.Proofs.ShortestPath.Nexthops
import LinkState.Proofs.ShortestPath.Records

/-!
# Levels

Nodes and edges say for themselves in which levels they take part. A run asks the root whether it
takes part in the level (`participates`) and every edge that it follows, but no other node.

Where no usable edge leads out of the level (`Confined`), no walk does (`Confined.of_visits`), and
so a run stays within the level: in its results and their next hops (`withinLevel_of_confined`), and
in the routes that are made of them (`WithinLevel.route`).
-/

namespace LinkState

namespace Topology

variable {t : Topology} {l : Level} {x y z : NodeId} {as : List Arc}

/-- Whether a node takes part in a level. -/
def participates (t : Topology) (n : NodeId) (l : Level) : Bool :=
  (t.nodes.get? n).any (·.levelType.includes l)

/-- No usable edge leads from a node that takes part in the level to one that does not. -/
def Confined (t : Topology) (l : Level) : Prop :=
  ∀ a, Usable t l a → t.participates a.edge.source.node l = true →
    t.participates a.edge.target.node l = true

/-- A walk from a node of the level comes by nodes of the level only. -/
theorem Confined.of_visits (hc : t.Confined l) (h : Walk t l x as y)
    (hx : t.participates x l = true) (hz : Visits x as z) : t.participates z l = true := by
  induction h with
  | nil n =>
    obtain rfl | ⟨a, ha, -⟩ := hz
    · exact hx
    · cases ha
  | @cons n m a as usable leaves rest ih =>
    have hnext := hc a usable (leaves ▸ hx)
    obtain rfl | ⟨b, hb, rfl⟩ := hz
    · exact hx
    · rcases List.mem_cons.1 hb with rfl | hb
      · exact hnext
      · exact ih hnext (.inr ⟨b, hb, rfl⟩)

/-- The edges of a walk take part in the level. -/
theorem Walk.has_level (h : Walk t l x as y) : ∀ a ∈ as, a.edge.levels.has l = true := by
  intro a ha
  exact (Edge.isActive_iff.1 (h.usable_of_mem ha).active).2

end Topology

/-! ## Routes -/

namespace RoutingTable

variable {t : Topology} {root : NodeId} {l : Level} {results : List Result} {P : Route → Prop}

theorem mem_contributions {c : Network × Route} (h : c ∈ contributions t root l results) :
    ∃ r ∈ results, ∃ isDefault, c.2 = routeOf root l isDefault r := by
  rcases List.mem_append.1 h with h | h
  · obtain ⟨r, hr, hc⟩ := List.mem_flatMap.1 h
    obtain ⟨network, -, rfl⟩ := List.mem_map.1 hc
    exact ⟨r, hr, false, rfl⟩
  · unfold defaults at h
    split at h
    · obtain ⟨r, hr, hc⟩ := List.mem_flatMap.1 h
      have hr : r ∈ results.filter fun r => r.node != root && isAttached t r.node := by
        unfold closestAttached at hr
        split at hr
        · cases hr
        · rename_i first rest hfilter
          rw [hfilter]
          rcases List.mem_cons.1 hr with rfl | hr
          · exact List.mem_cons_self
          · exact List.mem_cons_of_mem _ (List.takeWhile_subset _ hr)
      have hr := (List.mem_filter.1 hr).1
      simp only [List.mem_cons, List.not_mem_nil, or_false] at hc
      rcases hc with rfl | rfl <;> exact ⟨r, hr, true, rfl⟩
    · cases h

/-- Every route that is not stale has a property. -/
def Holds (P : Route → Prop) (table : RoutingTable) : Prop :=
  ∀ (network : Network) (route : Route), table[network]? = some route →
    route.stale = true ∨ P route

theorem Holds.insert {table : RoutingTable} (h : Holds P table) (network : Network) {route : Route}
    (hroute : P route) : Holds P (table.insert network route) := by
  intro n r hr
  rw [Std.TreeMap.getElem?_insert] at hr
  split at hr
  · cases hr
    exact .inr hroute
  · exact h n r hr

theorem Holds.install {table : RoutingTable} (h : Holds P table)
    (hextend : ∀ a b : Route, P a → P b → P { a with nexthops := a.nexthops.extend b.nexthops })
    (network : Network) {route : Route} (hroute : P route) :
    Holds P (install table network route) := by
  unfold RoutingTable.install
  split
  · exact h.insert network hroute
  rename_i current hcurrent
  split
  · exact h.insert network hroute
  rename_i hkeep
  split
  · rw [Bool.or_eq_true, not_or] at hkeep
    exact h.insert network (hextend _ _ ((h network current hcurrent).resolve_left hkeep.1) hroute)
  · exact h

/-- What holds of the routes that results give, and is kept when next hops are added, holds of every
route of a table that has been rebuilt. -/
theorem rebuild_forall (hresults : ∀ r ∈ results, ∀ isDefault, P (routeOf root l isDefault r))
    (hextend : ∀ a b : Route, P a → P b → P { a with nexthops := a.nexthops.extend b.nexthops })
    (old : RoutingTable) (network : Network) (route : Route)
    (h : (rebuild t root l results old)[network]? = some route) : P route := by
  have hstale : Holds P (markStale old) := by
    intro n r hr
    rw [markStale, Std.TreeMap.getElem?_map] at hr
    obtain ⟨r', -, rfl⟩ := Option.map_eq_some_iff.1 hr
    exact .inl rfl
  have hall : Holds P ((contributions t root l results).foldl
      (fun table c => RoutingTable.install table c.1 c.2) (markStale old)) := by
    refine List.foldlRecOn _ _ hstale fun table htable c hc => ?_
    obtain ⟨r, hr, isDefault, hc⟩ := mem_contributions hc
    exact htable.install hextend c.1 (hc ▸ hresults r hr isDefault)
  rw [rebuild, removeStale, Std.TreeMap.getElem?_filter', Option.filter_eq_some_iff,
    Bool.not_eq_true'] at h
  exact (hall network route h.1).resolve_left (by rw [h.2]; exact Bool.false_ne_true)

end RoutingTable

namespace Run

open LinkState.Topology Compute

variable {t : Topology} {root : NodeId} {l : Level} {w w' : Workspace} {rs : List Result}

/-- A full run rebuilds the routing table of its root from its results. -/
theorem table_of_run (hw : t.WellFormed) (hempty : w.frontier.isEmpty = true)
    (h : run t root l .full w = .ok rs w') :
    ∃ old, (w'.record l root).table = RoutingTable.rebuild t root l rs old := by
  have hran := run_ran hw hempty root l .full
  rw [h] at hran
  cases hran with
  | made _ _ performed =>
    rw [performed.record, if_pos ⟨rfl, rfl⟩]
    exact ⟨_, rfl⟩
  | madeAfter _ _ _ _ performed =>
    rw [performed.record, if_pos ⟨rfl, rfl⟩]
    exact ⟨_, rfl⟩

/-- The nodes that a run finds, those on the way to them, and those of their next hops take part in
the level. -/
structure WithinLevel (t : Topology) (l : Level) (root : NodeId) (rs : List Result) : Prop where
  results : ∀ r ∈ rs, t.participates r.node l = true
  walks : ∀ r ∈ rs, ∀ as, Walk t l root as r.node → ∀ a ∈ as,
    t.participates a.edge.target.node l = true
  nexthops : ∀ r ∈ rs, ∀ k, ∀ x ∈ (r.nexthops.get k).members, t.participates x.node l = true

/-- A route leads toward and over nodes that take part in the level. -/
structure RouteWithinLevel (t : Topology) (l : Level) (route : Route) : Prop where
  advertiser : t.participates route.advertiser l = true
  nexthops : ∀ k, ∀ x ∈ (route.nexthops.get k).members, t.participates x.node l = true

theorem withinLevel_of_confined (hc : t.Confined l) (hroot : t.participates root l = true)
    {f : Findings} (hexact : f.Exact t l root) : WithinLevel t l root (f.destinations root) := by
  have hder := fun r (hr : r ∈ f.destinations root) =>
    hexact.derived r (hexact.mem_destinations.1 hr).1
  refine ⟨fun r hr => ?_, fun r hr as hwalk a ha => hc.of_visits hwalk hroot (.inr ⟨a, ha, rfl⟩),
    fun r hr k x hx => ?_⟩
  · obtain ⟨-, as, hwalk, -⟩ := (hder r hr).exists_walk
    exact hc.of_visits hwalk hroot hwalk.visits_end
  · obtain ⟨-, as, hwalk, -, hvisits⟩ := (hder r hr).exists_neighbour hx
    exact hc.of_visits hwalk hroot hvisits

theorem WithinLevel.route (h : WithinLevel t l root rs) {old : RoutingTable} {network : Network}
    {route : Route} (hroute : (RoutingTable.rebuild t root l rs old)[network]? = some route) :
    RouteWithinLevel t l route := by
  refine RoutingTable.rebuild_forall (P := RouteWithinLevel t l)
    (fun r hr _ => ⟨h.results r hr, h.nexthops r hr⟩) (fun a b ha hb => ⟨ha.advertiser, ?_⟩)
    old network route hroute
  intro k x hx
  exact (Nexthops.mem_get_extend_cases hx).elim (ha.nexthops k x) (hb.nexthops k x)

end Run

end LinkState
