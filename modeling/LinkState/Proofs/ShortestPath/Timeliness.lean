import LinkState.Proofs.ShortestPath.Course
import LinkState.Proofs.ShortestPath.Nexthops
import LinkState.Proofs.ShortestPath.Records

/-!
# Contributions arrive in time

What an edge brings to a node at its final metric is merged only as long as the node is in the
frontier, so the near end of a tight edge must leave the frontier before the far end. It does where
the edge costs something. But an edge that leaves a pseudo-node may be free, and then both ends have
the same metric.

* `exists_cheaper_before`: a pseudo-node is brought into the frontier by a router that costs less,
  and so before any node of its own metric is settled. There it has its turn before the routers of
  the same metric.
* `mem_before_of_tight`: the near end of a tight edge is settled before the far end.
* `offers_eq_before`: so nothing that is brought to a node comes after it is settled.

The next hops stored for a node are therefore made up of what *all* tight edges bring
(`contributions_of_run`). This rests on the costs: the edges of routers cost something, and no edge
joins two pseudo-nodes.
-/

namespace LinkState

namespace Search

open LinkState.Topology

/-- All tight edges have brought what they can bring: the near end of each was settled before the
far end, and a settled node has merged what they brought. -/
structure Timely (t : Topology) (l : Level) (root : NodeId) (settled : List Result) : Prop where
  before : ∀ p ∈ settled, ∀ r ∈ settled, r.node ≠ root → ∀ a, Usable t l a →
    a.edge.source.node = p.node → a.edge.target.node = r.node →
      p.metric.toNat + (a.edge.cost l).toNat = r.metric.toNat → [p, r].Sublist settled
  merged : ∀ r ∈ settled, r.node ≠ root → ∀ k, (r.nexthops.get k).members =
    ((offers t l root r.node r.metric settled).flatMap fun c =>
      (c.get k).members).eraseDups.take NexthopSet.width

variable {t : Topology} {l : Level} {root : NodeId}

/-- The root is the first node to be settled. -/
theorem Gathered.head_eq_root {rs : List Result} (h : Gathered t l root rs) :
    ∀ r ∈ rs.head?, r.node = root := by
  induction h with
  | nil => exact fun _ hr => nomatch hr
  | @snoc rs r _ settles ih =>
    cases rs with
    | nil =>
      intro r' hr'
      cases hr'
      by_contra hne
      exact settles.offered hne rfl
    | cons p rs => exact ih

section

variable {f : Findings} (hexact : f.Exact t l root)
include hexact

/-- A node is settled once, so it is known by its name. -/
theorem eq_of_node_eq {p q : Result} (hp : p ∈ (f.roots.read root).settled)
    (hq : q ∈ (f.roots.read root).settled) (h : p.node = q.node) : p = q :=
  List.inj_on_of_nodup_map hexact.nodup hp hq h

/-- The metrics of the ends of a tight edge differ by its cost. -/
theorem toNat_metric_of_tight {p r : Result} (hr : r ∈ (f.roots.read root).settled) {a : Arc}
    (htight : p.metric + a.edge.cost l = r.metric) :
    r.metric.toNat = p.metric.toNat + (a.edge.cost l).toNat :=
  htight ▸ Metric.toNat_add_of_ne_infinite (htight ▸ hexact.ne_infinite hr)

variable (hgathered : Gathered t l root (f.roots.read root).settled) {pre post : List Result}
  {r : Result} (hrow : (f.roots.read root).settled = pre ++ r :: post)
include hgathered hrow

/-- The root is settled before every other node. -/
theorem root_mem_before (settles : Settles t l root pre r) (hne : r.node ≠ root) {p : Result}
    (hp : p ∈ (f.roots.read root).settled) (hroot : p.node = root) : p ∈ pre := by
  cases pre with
  | nil => exact absurd rfl (settles.offered hne)
  | cons q pre =>
    have hq : q ∈ (f.roots.read root).settled := hrow ▸ List.mem_cons_self
    have hfirst := hgathered.head_eq_root q (by rw [hrow]; rfl)
    exact eq_of_node_eq hexact hq hp (hfirst.trans hroot.symm) ▸ List.mem_cons_self

end

/-! ## Tight edges -/

section

variable
  (hpos : ∀ a ∈ t.arcs, a.edge.isActive l = true →
    t.isPseudonode a.edge.source.node l = false → 0 < (a.edge.cost l).toNat)
  (hlans : ∀ a ∈ t.arcs, a.edge.isActive l = true →
    t.isPseudonode a.edge.source.node l = true → t.isPseudonode a.edge.target.node l = false)
  {f : Findings} (hexact : f.Exact t l root)
  (hgathered : Gathered t l root (f.roots.read root).settled)
include hpos hlans hexact hgathered

/-- A pseudo-node other than the root has been reached over a tight edge from a node that costs
less. -/
theorem exists_cheaper_before [t.Listed] {p : Result} (hp : p ∈ (f.roots.read root).settled)
    (hne : p.node ≠ root) (hlan : t.isPseudonode p.node l = true) :
    ∃ q ∈ (f.roots.read root).settled, q.metric < p.metric ∧ ∃ a ∈ outArcs t l root q.node,
      a.edge.target.node = p.node ∧ q.metric + a.edge.cost l = p.metric := by
  obtain ⟨pre, post, hrow, settles⟩ := hgathered.exists_settles hp
  obtain ⟨c, hc⟩ := List.exists_mem_of_ne_nil _ (settles.offered hne)
  obtain ⟨q, hq, a, ha, htarget, htight, -⟩ := mem_offers.1 hc
  refine ⟨q, hrow ▸ List.mem_append_left _ hq, ?_, a, ha, htarget, htight⟩
  have usable := (mem_outArcs.1 ha).1
  have hcost : 0 < (a.edge.cost l).toNat := by
    refine hpos a (mem_arcs.2 usable.stored) usable.active (Bool.eq_false_iff.2 fun h => ?_)
    have hrouter := hlans a (mem_arcs.2 usable.stored) usable.active h
    rw [htarget, hlan] at hrouter
    cases hrouter
  have hsum := toNat_metric_of_tight hexact hp htight
  rw [Metric.lt_iff]
  omega

variable {pre post : List Result} {r : Result}
  (hrow : (f.roots.read root).settled = pre ++ r :: post) (settles : Settles t l root pre r)
include hrow settles

/-- A pseudo-node is settled before the routers of its metric. -/
theorem lan_mem_before [t.Listed] {p : Result} (hp : p ∈ (f.roots.read root).settled)
    (hne : r.node ≠ root) (hlan : t.isPseudonode p.node l = true)
    (hrouter : t.isPseudonode r.node l = false) (hmetric : p.metric = r.metric) : p ∈ pre := by
  by_cases hroot : p.node = root
  · exact root_mem_before hexact hgathered hrow settles hne hp hroot
  obtain ⟨q, hq, hlt, a, ha, htarget, htight⟩ :=
    exists_cheaper_before hpos hlans hexact hgathered hp hroot hlan
  have hbefore : q ∈ pre := mem_before (hrow ▸ hexact.sorted) (hrow ▸ hq) (hmetric ▸ hlt)
  rcases settles.first q hbefore a ha (htight ▸ hexact.ne_infinite hp) with hmem | hle
  · obtain ⟨p', hp', hnode⟩ := List.mem_map.1 hmem
    have hsettled : p' ∈ (f.roots.read root).settled := hrow ▸ List.mem_append_left _ hp'
    exact eq_of_node_eq hexact hsettled hp (hnode.trans htarget) ▸ hp'
  · -- the router cannot have had its turn while the pseudo-node was in the frontier
    rw [htight, htarget, hmetric, place, place, hlan, hrouter] at hle
    simp only [if_true, Bool.false_eq_true, if_false] at hle
    omega

/-- **The near end of a tight edge is settled before the far end.** -/
theorem mem_before_of_tight [t.Listed] {p : Result} (hp : p ∈ (f.roots.read root).settled) {a : Arc}
    (ha : a ∈ outArcs t l root p.node) (htarget : a.edge.target.node = r.node)
    (htight : p.metric + a.edge.cost l = r.metric) : p ∈ pre := by
  have hr : r ∈ (f.roots.read root).settled :=
    hrow ▸ List.mem_append_right _ List.mem_cons_self
  obtain ⟨usable, hsource, hback⟩ := mem_outArcs.1 ha
  have harc : a ∈ t.arcs := mem_arcs.2 usable.stored
  have hsum := toNat_metric_of_tight hexact hr htight
  by_cases hcost : 0 < (a.edge.cost l).toNat
  · refine mem_before (hrow ▸ hexact.sorted) (hrow ▸ hp) ?_
    rw [Metric.lt_iff]
    omega
  -- a free edge leads from a pseudo-node to a router
  have hlan : t.isPseudonode a.edge.source.node l = true := by
    by_contra hrouter
    exact hcost (hpos a harc usable.active (Bool.eq_false_iff.2 hrouter))
  have hrouter := hlans a harc usable.active hlan
  refine lan_mem_before hpos hlans hexact hgathered hrow settles hp (htarget ▸ hback)
    (hsource ▸ hlan) (htarget ▸ hrouter) (Metric.toNat_inj.1 ?_)
  omega

/-- **Nothing that is brought to a node comes after it is settled.** -/
theorem offers_eq_before [t.Listed] :
    offers t l root r.node r.metric (f.roots.read root).settled =
      offers t l root r.node r.metric pre := by
  suffices hlate : offers t l root r.node r.metric (r :: post) = [] by
    rw [hrow, offers, List.flatMap_append, ← offers, ← offers, hlate, List.append_nil]
  refine List.eq_nil_iff_forall_not_mem.2 fun c hc => ?_
  obtain ⟨p, hp, a, ha, htarget, htight, -⟩ := mem_offers.1 hc
  have hbefore := mem_before_of_tight hpos hlans hexact hgathered hrow settles
    (hrow ▸ List.mem_append_right _ hp) ha htarget htight
  have hnodup := hexact.nodup
  rw [hrow, List.map_append, List.nodup_append] at hnodup
  exact hnodup.2.2 _ (List.mem_map_of_mem hbefore) _ (List.mem_map_of_mem hp) rfl

end

/-- **Where edges of routers cost something and no edge joins two pseudo-nodes, no contribution is
late.** -/
theorem timely [t.Listed] {f : Findings} (hexact : f.Exact t l root)
    (hgathered : Gathered t l root (f.roots.read root).settled)
    (hpos : ∀ a ∈ t.arcs, a.edge.isActive l = true →
      t.isPseudonode a.edge.source.node l = false → 0 < (a.edge.cost l).toNat)
    (hlans : ∀ a ∈ t.arcs, a.edge.isActive l = true →
      t.isPseudonode a.edge.source.node l = true → t.isPseudonode a.edge.target.node l = false) :
    Timely t l root (f.roots.read root).settled := by
  constructor
  · intro p hp r hr hne a usable hsource htarget hsum
    obtain ⟨pre, post, hrow, settles⟩ := hgathered.exists_settles hr
    have htight : p.metric + a.edge.cost l = r.metric := by
      refine Metric.toNat_inj.1 ?_
      have hle := Metric.toNat_le r.metric
      rw [Metric.toNat_add]
      omega
    have hbefore := mem_before_of_tight hpos hlans hexact hgathered hrow settles hp
      (mem_outArcs.2 ⟨usable, hsource, htarget ▸ hne⟩) htarget htight
    rw [hrow]
    exact (List.singleton_sublist.2 hbefore).append
      (List.singleton_sublist.2 List.mem_cons_self)
  · intro r hr hne k
    obtain ⟨pre, post, hrow, settles⟩ := hgathered.exists_settles hr
    rw [offers_eq_before hpos hlans hexact hgathered hrow settles, settles.merged hne,
      Nexthops.get_merge, NexthopSet.members_ofList_eraseDups]

end Search

namespace Run

open LinkState.Topology

/-- **Equal-cost contributions always arrive in time**, at a level where the edges of routers cost
something and no edge joins two pseudo-nodes. After a run that searches, the row stored for the root
is timely: the near end of every tight edge stands in it before the far end, and the next hops of a
node are made up of what the tight edges bring, in the order of the row. That is the order in which
nodes leave the frontier in the course of any search from the root. -/
theorem contributions_of_run (history : List Change) (l : Level) (root : NodeId) {kind : RunKind}
    (hkind : kind = .full ∨ kind = .forward)
    (hpos : ∀ a ∈ (after {} history).arcs, a.edge.isActive l = true →
      (after {} history).isPseudonode a.edge.source.node l = false → 0 < (a.edge.cost l).toNat)
    (hlans : ∀ a ∈ (after {} history).arcs, a.edge.isActive l = true →
      (after {} history).isPseudonode a.edge.source.node l = true →
        (after {} history).isPseudonode a.edge.target.node l = false)
    {w w' : Workspace} {rs : List Result}
    (hrun : run (after {} history) root l kind w = .ok rs w') :
    Search.Timely (after {} history) l root (w'.record l root).settled ∧
      ∀ labels frontier s, Search.run (after {} history) l root labels frontier = .ok s →
        ∃ moves origin,
          Search.Course (after {} history) l root labels frontier moves ⟨s, origin, []⟩ ∧
            Search.pops moves = (w'.record l root).settled.map (·.node) := by
  have hw := wellFormed_after history
  have hsearch : kind ≠ .partialRoutes := by
    rcases hkind with rfl | rfl <;> decide
  obtain ⟨⟨hexact, -, hgathered⟩, -⟩ := run_searched hw hsearch hrun
  refine ⟨Search.timely hexact hgathered hpos hlans, fun labels frontier s hs => ?_⟩
  obtain ⟨node, hvalid⟩ := run_validate hrun
  obtain ⟨moves, origin, hcourse⟩ := Search.course_of_run hs
  refine ⟨moves, origin, hcourse, ?_⟩
  rw [hcourse.pops_eq, settled_eq_of_run hw hkind hrun,
    Search.settled_eq_outcome hw (contains_of_validate hvalid) (Search.isEmpty_of_run hs) hs]

/-- The routers of a LAN, two of them with a link that costs as much as the way over the LAN. -/
def linkedLan : List Change :=
  lan ++ [.addLink ⟨⟨0, 0⟩, "tob", none⟩ ⟨⟨1, 0⟩, "toa", none⟩ (.saturate 1) .all]

theorem contributions_of_run_linkedLan : ∃ rs w',
    run (after {} linkedLan) ⟨0, 0⟩ .l1 .full {} = .ok rs w' ∧
      rs.map (fun r => r.nexthops.ip.members.map (·.node.position)) = [[], [1, 1], [2]] ∧
      Search.Timely (after {} linkedLan) .l1 ⟨0, 0⟩ (w'.record .l1 ⟨0, 0⟩).settled ∧
      ∀ labels frontier s,
        Search.run (after {} linkedLan) .l1 ⟨0, 0⟩ labels frontier = .ok s →
          ∃ moves origin,
            Search.Course (after {} linkedLan) .l1 ⟨0, 0⟩ labels frontier moves ⟨s, origin, []⟩ ∧
              Search.pops moves = (w'.record .l1 ⟨0, 0⟩).settled.map (·.node) := by
  obtain ⟨rs, w', hrun, hrs⟩ := Compute.exists_of_yields
    (c := run (after {} linkedLan) ⟨0, 0⟩ .l1 .full) (w := {})
    (p := fun rs => rs.map (fun r => r.nexthops.ip.members.map (·.node.position)) ==
      [[], [1, 1], [2]]) (by decide +kernel)
  exact ⟨rs, w', hrun, by simpa using hrs, contributions_of_run linkedLan .l1 ⟨0, 0⟩ (.inl rfl)
    (by decide +kernel) (by decide +kernel) hrun⟩

end Run

end LinkState
