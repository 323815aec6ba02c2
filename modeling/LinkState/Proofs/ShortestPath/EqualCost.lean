import LinkState.Proofs.ShortestPath.Nexthops
import Mathlib.Data.Finset.Dedup

/-!
# Equal-cost paths between routers

At a level without LANs a next hop is an edge of the root (`Arc.nexthop`), and the direct next hops
of a node are the oldest edges that lead there (`seededArcs`): there is room for
`NexthopSet.width` of each kind, whatever their metrics.

* `exists_start`: a next hop that a search stores for a node is such an edge, and a least walk to
  the node starts with it.
* `isEmpty_eq_false`: a node has a next hop if the edges with which its least walks start have been
  given room, or others that cost as little. A cheaper edge that comes after `NexthopSet.width`
  dearer ones has not, and `no_nexthop_fiveLinks` is a node that is left without a next hop.
* `fills_firstHops`: where every edge costs something and there is room for all edges of the root,
  no first hop of a least walk is lost but for want of room. A set cut short on the way does no
  harm, since it is full, and then so is what it is merged into.
-/

namespace LinkState

/-- An edge to a router, as a next hop of its owner. -/
def Arc.nexthop (a : Arc) : Nexthop := ⟨a.edge.target.node, a.id, a.edge.gateway⟩

/-- A level has no LANs if no node of the table stands for one. -/
theorem Topology.isPseudonode_of_entries {t : Topology} {l : Level}
    (h : ∀ entry ∈ t.nodes.entries, entry.2.isPseudonode l = false) (n : NodeId) :
    t.isPseudonode n l = false := by
  unfold isPseudonode
  cases hn : t.nodes.get? n with
  | none => rfl
  | some node => exact h (n, node) (Table.mem_entries.2 hn)

namespace Search

open LinkState.Topology

variable (t : Topology) (l : Level) (root : NodeId)

/-- The active edges of a kind that lead from the root to a node, in order of creation. -/
def parallelArcs (n : NodeId) (k : NexthopKind) : List Arc :=
  (t.activeArcs root l).filter fun a => a.edge.target.node == n && a.edge.nexthopKind == k

/-- Those of them for which there is room among the direct next hops of the node. -/
def seededArcs (n : NodeId) (k : NexthopKind) : List Arc :=
  (parallelArcs t l root n k).take NexthopSet.width

/-- There is room for an edge of the root, or for a usable one that costs as much beside it. -/
def Seeded (a : Arc) : Prop :=
  ∃ k, ∃ b ∈ seededArcs t l root a.edge.target.node k,
    Usable t l b ∧ b.edge.cost l = a.edge.cost l

open Classical in
/-- The next hops of a kind with which the least walks to a node start. -/
noncomputable def firstHops (k : NexthopKind) (n : NodeId) : Finset Nexthop :=
  (((t.activeArcs root l).filter fun a =>
    a.edge.nexthopKind = k ∧ ∃ as, LeastWalk t l root (a :: as) n).map Arc.nexthop).toFinset

variable {t l root}

theorem mem_firstHops {k : NexthopKind} {n : NodeId} {h : Nexthop} :
    h ∈ firstHops t l root k n ↔ ∃ a ∈ t.activeArcs root l, a.edge.nexthopKind = k ∧
      (∃ as, LeastWalk t l root (a :: as) n) ∧ a.nexthop = h := by
  classical
  simp only [firstHops, List.mem_toFinset, List.mem_map, List.mem_filter, decide_eq_true_eq,
    and_assoc]

theorem mem_seededArcs {n : NodeId} {k : NexthopKind} {a : Arc} (h : a ∈ seededArcs t l root n k) :
    a ∈ t.activeArcs root l ∧ a.edge.target.node = n ∧ a.edge.nexthopKind = k := by
  have hmem := List.mem_of_mem_take h
  rwa [parallelArcs, List.mem_filter, Bool.and_eq_true, beq_iff_eq, beq_iff_eq] at hmem

/-- Where there is room for all edges beside an edge of the root, there is room for it. -/
theorem mem_seededArcs_of_room {a : Arc} (ha : a ∈ t.activeArcs root l)
    (hroom : (parallelArcs t l root a.edge.target.node a.edge.nexthopKind).length ≤
      NexthopSet.width) :
    a ∈ seededArcs t l root a.edge.target.node a.edge.nexthopKind := by
  rw [seededArcs, List.take_of_length_le hroom]
  exact List.mem_filter.2 ⟨ha, by simp⟩

/-! ## Direct next hops -/

section

variable (hrouters : ∀ n, t.isPseudonode n l = false)
include hrouters

theorem logicalNeighbours_of_routers :
    t.logicalNeighbours root l =
      (t.activeArcs root l).map fun a => ⟨a.edge.target.node, a, none⟩ := by
  unfold logicalNeighbours
  simp only [hrouters, Bool.false_eq_true, if_false]
  exact List.flatMap_pure_eq_map _ _

/-- The direct next hops of a router are the edges for which there is room. -/
theorem members_directNexthops [t.Listed] (n : NodeId) (k : NexthopKind) :
    ((directNexthops t l root n).get k).members = (seededArcs t l root n k).map Arc.nexthop := by
  have hnodup : ((parallelArcs t l root n k).map Arc.nexthop).Nodup := by
    refine List.Nodup.of_map Nexthop.oif ?_
    rw [List.map_map]
    exact (activeArcs_nodup t l root).sublist (List.filter_sublist.map _)
  rw [get_directNexthops, logicalNeighbours_of_routers hrouters, List.filter_map, List.map_map,
    seededArcs, List.map_take, ← NexthopSet.members_ofList hnodup]
  rfl

/-- From a node without next hops an edge brings nothing to another node but itself, if it is an
edge of the root for which there is room. -/
theorem mem_contribution_iff [t.Listed] {node n : NodeId} (hloop : node ≠ n) {a : Arc}
    (usable : Usable t l a) {nexthops : Nexthops} (hempty : nexthops.isEmpty = true)
    {k : NexthopKind} {h : Nexthop} :
    h ∈ ((t.contribution l node nexthops a { direct := directNexthops t l root n }).get k).members ↔
      a ∈ seededArcs t l root n k ∧ a.nexthop = h := by
  constructor
  · intro hmem
    obtain hmem | ⟨-, -, hdirect, hpath⟩ := mem_contribution hmem
    · exact absurd hmem (Nexthops.isEmpty_iff.1 hempty k h)
    dsimp only at hdirect
    rw [members_directNexthops hrouters] at hdirect
    obtain ⟨b, hb, rfl⟩ := List.mem_map.1 hdirect
    obtain ⟨hactive, hn, -⟩ := mem_seededArcs hb
    have hstored := ((mem_activeArcs t).1 hactive).1
    rcases hpath with hid | ⟨edge, hedge, hnode⟩
    · have e : b = a := arc_eq hstored usable.stored hid
      exact e ▸ ⟨hb, rfl⟩
    · -- the edge of the next hop would lead to where this edge comes from
      have e : b.edge = edge := Option.some.inj (hstored.symm.trans hedge)
      exact absurd (hnode.symm.trans (e ▸ hn)) hloop
  · rintro ⟨ha, rfl⟩
    refine direct_mem_contribution hempty (hrouters _) ?_ (.inl rfl)
    dsimp only
    rw [members_directNexthops hrouters]
    exact List.mem_map_of_mem ha

end

/-! ## Next hops of a search -/

section

variable {f : Findings} (hexact : f.Exact t l root)
  (hgathered : Gathered t l root (f.roots.read root).settled)
  (hrouters : ∀ n, t.isPseudonode n l = false)
include hexact hgathered hrouters

/-- **A next hop is an edge of the root with which a least walk starts.** -/
theorem exists_start [t.Listed] :
    ∀ r ∈ (f.roots.read root).settled, ∀ k, ∀ h ∈ (r.nexthops.get k).members,
    ∃ a as, LeastWalk t l root (a :: as) r.node ∧
      a ∈ seededArcs t l root a.edge.target.node k ∧ a.nexthop = h := by
  refine hgathered.induction fun pre r post hrow settles ih k h hmem => ?_
  by_cases hne : r.node = root
  · rw [(settles.root_label hne).2] at hmem
    exact absurd hmem (Nexthops.not_mem_empty k h)
  rw [settles.merged hne] at hmem
  obtain ⟨c, hc, hmem⟩ := Nexthops.mem_merge hmem
  obtain ⟨p, hp, a, ha, htarget, htight, rfl⟩ := mem_offers.1 hc
  obtain ⟨usable, hsource, -⟩ := mem_outArcs.1 ha
  cases hempty : p.nexthops.isEmpty with
  | false =>
    rw [contribution_of_ne_empty hempty] at hmem
    obtain ⟨b, as, hw, hseeded⟩ := ih p hp k h hmem
    exact ⟨b, as ++ [a], leastWalk_of_tight hexact hrow hp ha htarget htight _ hw, hseeded⟩
  | true =>
    obtain ⟨hseeded, rfl⟩ := (mem_contribution_iff hrouters (ne_of_mem_before hexact hrow hp)
      usable hempty).1 hmem
    have hroot : p.node = root :=
      hsource.symm.trans ((mem_activeArcs t).1 (mem_seededArcs hseeded).1).2.1
    have hw := leastWalk_of_tight hexact hrow hp ha htarget htight [] (hroot ▸ .nil p.node)
    exact ⟨a, [], hw, htarget ▸ hseeded, rfl⟩

/-- The root brings a next hop to a node over an edge for which there is room, or for one beside
it. -/
theorem exists_offer_of_seeded [t.Listed] {pre post : List Result} {p r : Result}
    (hrow : (f.roots.read root).settled = pre ++ r :: post) (hp : p ∈ pre) (hroot : p.node = root)
    {a : Arc} (htarget : a.edge.target.node = r.node) (htight : p.metric + a.edge.cost l = r.metric)
    (hseeded : Seeded t l root a) :
    ∃ c ∈ offers t l root r.node r.metric pre, c.isEmpty = false := by
  obtain ⟨k, b, hb, usable, hcost⟩ := hseeded
  rw [htarget] at hb
  obtain ⟨hactive, hn, -⟩ := mem_seededArcs hb
  have hsource : b.edge.source.node = p.node :=
    ((mem_activeArcs t).1 hactive).2.1.trans hroot.symm
  have hne := ne_of_mem_before hexact hrow hp
  have hempty := hgathered.isEmpty_of_root (hrow ▸ List.mem_append_left _ hp) hroot
  refine ⟨_, mem_offers.2 ⟨p, hp, b, mem_outArcs.2 ⟨usable, hsource, ?_⟩, hn, hcost ▸ htight, rfl⟩,
    Bool.eq_false_iff.2 fun hnone => Nexthops.isEmpty_iff.1 hnone k b.nexthop ?_⟩
  · rw [hn, ← hroot]
    exact hne.symm
  · exact (mem_contribution_iff hrouters hne usable hempty).2 ⟨hb, rfl⟩

/-- **A node has a next hop** if every least walk to it that does not come back to the root starts
with an edge for which there is room, or beside one that costs as much. -/
theorem isEmpty_eq_false [t.Listed] : ∀ r ∈ (f.roots.read root).settled, r.node ≠ root →
    (∀ a as, LeastWalk t l root (a :: as) r.node → (∀ b ∈ a :: as, b.edge.target.node ≠ root) →
      Seeded t l root a) → r.nexthops.isEmpty = false := by
  refine hgathered.induction fun pre r post hrow settles ih hne hseeded => ?_
  rw [settles.merged hne]
  obtain ⟨c, hc⟩ := List.exists_mem_of_ne_nil _ (settles.offered hne)
  obtain ⟨p, hp, a, ha, htarget, htight, rfl⟩ := mem_offers.1 hc
  have hback := (mem_outArcs.1 ha).2.2
  have hextend := leastWalk_of_tight hexact hrow hp ha htarget htight
  by_cases hroot : p.node = root
  · obtain ⟨c, hc, hsome⟩ := exists_offer_of_seeded hexact hgathered hrouters hrow hp hroot htarget
      htight (hseeded a [] (hextend [] (hroot ▸ .nil p.node)) (by simpa using hback))
    exact Nexthops.isEmpty_merge hc hsome
  · -- a least walk to the node before goes on over the edge
    have hnear : p.nexthops.isEmpty = false := by
      refine ih p hp hroot fun b as hw hbs => hseeded b (as ++ [a]) (hextend _ hw) fun b' hb' => ?_
      rw [← List.cons_append, List.mem_append, List.mem_singleton] at hb'
      rcases hb' with hb' | rfl
      · exact hbs b' hb'
      · exact hback
    exact Nexthops.isEmpty_merge hc (by rwa [contribution_of_ne_empty hnear])

/-- **No edge that starts a least walk is lost** but for want of room, where every edge costs
something: it was among the direct next hops of its far end, and it is handed on over every edge of
the walk. -/
theorem mem_or_full_of_start [t.Listed] (hpos : ∀ a, Usable t l a → 0 < (a.edge.cost l).toNat) :
    ∀ r ∈ (f.roots.read root).settled, r.node ≠ root → ∀ k a as,
      LeastWalk t l root (a :: as) r.node → a ∈ seededArcs t l root a.edge.target.node k →
        a.nexthop ∈ (r.nexthops.get k).members ∨ (r.nexthops.get k).IsFull := by
  refine hgathered.induction fun pre r post hrow settles ih hne k a as hw hseeded => ?_
  obtain hnil | ⟨bs, z, e⟩ := List.eq_nil_or_concat' (a :: as)
  · cases hnil
  rw [e] at hw
  obtain ⟨-, usable, htarget⟩ := hw.walk.of_concat
  obtain ⟨p, hp, hnode, hoffer⟩ := exists_offer hexact hrow hne hw (hpos z usable)
  have hbefore : LeastWalk t l root bs p.node := hnode ▸ hw.of_concat
  rw [settles.merged hne]
  by_cases hroot : p.node = root
  · have hbs : bs = [] := (hroot ▸ hbefore).eq_nil fun a usable _ => hpos a usable
    subst hbs
    cases e
    have hempty := hgathered.isEmpty_of_root (hrow ▸ List.mem_append_left _ hp) hroot
    exact Nexthops.mem_merge_or_full hoffer ((mem_contribution_iff hrouters
      (ne_of_mem_before hexact hrow hp) usable hempty).2 ⟨htarget ▸ hseeded, rfl⟩)
  · cases bs with
    | nil => exact absurd hbefore.walk.eq_of_nil.symm hroot
    | cons b bs =>
      cases e
      have hknown := ih p hp hroot k a bs hbefore hseeded
      have hnear : p.nexthops.isEmpty = false := by
        refine Bool.eq_false_iff.2 fun hempty => ?_
        rcases hknown with hin | hfull
        · exact Nexthops.isEmpty_iff.1 hempty k _ hin
        · exact Nexthops.not_isFull_of_isEmpty hempty k hfull
      rw [contribution_of_ne_empty hnear] at hoffer
      rcases hknown with hin | hfull
      · exact Nexthops.mem_merge_or_full hoffer hin
      · exact .inr (Nexthops.isFull_merge hoffer hfull)

/-- Where there is room for all edges of the root, the first hops of the least walks to a node fill
its set. -/
theorem fills_firstHops [t.Listed] (hpos : ∀ a, Usable t l a → 0 < (a.edge.cost l).toNat)
    (hroom : ∀ a ∈ t.activeArcs root l,
      (parallelArcs t l root a.edge.target.node a.edge.nexthopKind).length ≤ NexthopSet.width)
    {r : Result} (hr : r ∈ (f.roots.read root).settled) (hne : r.node ≠ root) (k : NexthopKind) :
    (r.nexthops.get k).Fills (firstHops t l root k r.node) := by
  constructor
  · intro h hh
    obtain ⟨a, as, hw, hseeded, rfl⟩ := exists_start hexact hgathered hrouters r hr k h hh
    obtain ⟨hactive, -, hkind⟩ := mem_seededArcs hseeded
    exact mem_firstHops.2 ⟨a, hactive, hkind, ⟨as, hw⟩, rfl⟩
  · intro h hh
    obtain ⟨a, hactive, rfl, ⟨as, hw⟩, rfl⟩ := mem_firstHops.1 hh
    exact mem_or_full_of_start hexact hgathered hrouters hpos r hr hne _ a as hw
      (mem_seededArcs_of_room hactive (hroom a hactive))

end

end Search

namespace Run

open LinkState.Topology

/-- **No equal-cost path is lost between routers** but for want of room. After a run at a level
without LANs where every edge costs something, and from a root with room for all its edges, the
next hops of a kind stored for another node are first hops of least walks to it. There are as many
of them as there are first hops of that kind, up to `NexthopSet.width`. -/
theorem equalCost_of_run (history : List Change) (l : Level) (root : NodeId) {kind : RunKind}
    (hkind : kind = .full ∨ kind = .forward)
    (hrouters : ∀ n, (after {} history).isPseudonode n l = false)
    (hpos : ∀ a ∈ (after {} history).arcs, a.edge.isActive l = true → 0 < (a.edge.cost l).toNat)
    (hroom : ∀ a ∈ (after {} history).activeArcs root l,
      (Search.parallelArcs (after {} history) l root a.edge.target.node
        a.edge.nexthopKind).length ≤ NexthopSet.width)
    {w w' : Workspace} {rs : List Result}
    (hrun : run (after {} history) root l kind w = .ok rs w') {r : Result}
    (hr : r ∈ rs ∨ (w'.findings.get l).result? root r.node = some r) (hne : r.node ≠ root)
    (k : NexthopKind) :
    (∀ h ∈ (r.nexthops.get k).members,
        h ∈ Search.firstHops (after {} history) l root k r.node) ∧
      (r.nexthops.get k).members.length =
        min NexthopSet.width (Search.firstHops (after {} history) l root k r.node).card := by
  obtain ⟨hs, hmem⟩ := settled_of_run history hkind hrun hr
  have hfills := Search.fills_firstHops hs.exact hs.gathered hrouters
    (fun a usable => hpos a (mem_arcs.2 usable.stored) usable.active) hroom hmem hne k
  exact ⟨hfills.subset, hfills.length_eq⟩

/-- Five routers between a root and a last router, all links of cost one. -/
def fan : List Change :=
  ((List.range 7).map fun i => .addRouter s!"r{i}" 0 .all) ++
    [1, 2, 3, 4, 5].flatMap fun i =>
      [.addLink ⟨⟨0, 0⟩, s!"to{i}", none⟩ ⟨⟨i, 0⟩, "down", none⟩ (.saturate 1) .all,
        .addLink ⟨⟨i, 0⟩, "up", none⟩ ⟨⟨6, 0⟩, s!"to{i}", none⟩ (.saturate 1) .all]

theorem equalCost_of_run_fan : ∃ rs w',
    run (after {} fan) ⟨0, 0⟩ .l1 .full {} = .ok rs w' ∧
      rs.map (fun r => r.nexthops.ip.members.map (·.node.position)) =
        [[], [1], [5], [2], [4], [3], [1, 5, 2, 4]] ∧
      ∀ r ∈ rs, r.node ≠ ⟨0, 0⟩ → ∀ k, (∀ h ∈ (r.nexthops.get k).members,
          h ∈ Search.firstHops (after {} fan) .l1 ⟨0, 0⟩ k r.node) ∧
        (r.nexthops.get k).members.length =
          min NexthopSet.width (Search.firstHops (after {} fan) .l1 ⟨0, 0⟩ k r.node).card := by
  obtain ⟨rs, w', hrun, hrs⟩ := Compute.exists_of_yields
    (c := run (after {} fan) ⟨0, 0⟩ .l1 .full) (w := {})
    (p := fun rs => rs.map (fun r => r.nexthops.ip.members.map (·.node.position)) ==
      [[], [1], [5], [2], [4], [3], [1, 5, 2, 4]]) (by decide +kernel)
  refine ⟨rs, w', hrun, by simpa using hrs, fun r hr hne k => ?_⟩
  exact equalCost_of_run fan .l1 ⟨0, 0⟩ (.inl rfl) (isPseudonode_of_entries (by decide +kernel))
    (by decide +kernel) (by decide +kernel) hrun (.inl hr) hne k

/-- **Which routers have a next hop**, at a level without LANs. A router reached by a run has one if
every least walk to it that does not come back to the root starts with an edge for which there is
room, or beside one that costs as much. It has none if no least walk to it starts with an edge for
which there is room. -/
theorem nexthop_of_run (history : List Change) (l : Level) (root : NodeId) {kind : RunKind}
    (hkind : kind = .full ∨ kind = .forward)
    (hrouters : ∀ n, (after {} history).isPseudonode n l = false)
    {w w' : Workspace} {rs : List Result}
    (hrun : run (after {} history) root l kind w = .ok rs w') {r : Result} (hr : r ∈ rs)
    (hne : r.node ≠ root) :
    ((∀ a as, LeastWalk (after {} history) l root (a :: as) r.node →
        (∀ b ∈ a :: as, b.edge.target.node ≠ root) → Search.Seeded (after {} history) l root a) →
      r.nexthops.isEmpty = false) ∧
    (r.nexthops.isEmpty = false → ∃ a as k,
      LeastWalk (after {} history) l root (a :: as) r.node ∧
        a ∈ Search.seededArcs (after {} history) l root a.edge.target.node k) := by
  obtain ⟨hs, hmem⟩ := settled_of_run history hkind hrun (.inl hr)
  refine ⟨Search.isEmpty_eq_false hs.exact hs.gathered hrouters r hmem hne, fun hsome => ?_⟩
  by_contra hnone
  refine Bool.eq_false_iff.1 hsome (Nexthops.isEmpty_iff.2 fun k h hh => hnone ?_)
  obtain ⟨a, as, hw, hseeded, -⟩ := Search.exists_start hs.exact hs.gathered hrouters r hmem k h hh
  exact ⟨a, as, k, hw, hseeded⟩

theorem nexthop_of_run_fan : ∃ rs w',
    run (after {} fan) ⟨0, 0⟩ .l1 .full {} = .ok rs w' ∧ rs.length = 7 ∧
      ∀ r ∈ rs, r.node ≠ ⟨0, 0⟩ → r.nexthops.isEmpty = false := by
  obtain ⟨rs, w', hrun, hrs⟩ := Compute.exists_of_yields
    (c := run (after {} fan) ⟨0, 0⟩ .l1 .full) (w := {}) (p := fun rs => rs.length == 7)
    (by decide +kernel)
  have hroom : ∀ a ∈ (after {} fan).activeArcs ⟨0, 0⟩ .l1,
      (Search.parallelArcs (after {} fan) .l1 ⟨0, 0⟩ a.edge.target.node
        a.edge.nexthopKind).length ≤ NexthopSet.width := by decide +kernel
  refine ⟨rs, w', hrun, by simpa using hrs, fun r hr hne => ?_⟩
  refine (nexthop_of_run fan .l1 ⟨0, 0⟩ (.inl rfl) (isPseudonode_of_entries (by decide +kernel))
    hrun hr hne).1 fun a as hw _ => ?_
  cases hw.walk with
  | cons usable leaves _ =>
    have hactive : a ∈ (after {} fan).activeArcs ⟨0, 0⟩ .l1 :=
      leaves ▸ Search.mem_activeArcs_of_usable usable
    exact ⟨_, a, Search.mem_seededArcs_of_room hactive (hroom a hactive), usable, rfl⟩

/-- Two routers with five links between them, the last one cheaper than the others. -/
def fiveLinks : List Change :=
  (["a", "b"].map fun name => .addRouter name 0 .all) ++
    [2, 2, 2, 2, 1].zipIdx.map fun (metric, i) =>
      .addLink ⟨⟨0, 0⟩, s!"eth{i}", none⟩ ⟨⟨1, 0⟩, s!"eth{i}", none⟩ (.saturate metric) .all

/-- A router can be reached and have no next hop: the cheapest link came last. -/
theorem no_nexthop_fiveLinks : (∀ n, (after {} fiveLinks).isPseudonode n .l1 = false) ∧
    ∃ rs w', run (after {} fiveLinks) ⟨0, 0⟩ .l1 .full {} = .ok rs w' ∧
      ∃ r ∈ rs, r.node ≠ ⟨0, 0⟩ ∧ r.nexthops.isEmpty = true := by
  refine ⟨isPseudonode_of_entries (by decide +kernel), ?_⟩
  obtain ⟨rs, w', hrun, hrs⟩ := Compute.exists_of_yields
    (c := run (after {} fiveLinks) ⟨0, 0⟩ .l1 .full) (w := {})
    (p := fun rs => rs.any fun r => r.node != ⟨0, 0⟩ && r.nexthops.isEmpty) (by decide +kernel)
  refine ⟨rs, w', hrun, ?_⟩
  simpa using hrs

end Run

end LinkState
