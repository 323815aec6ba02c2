import LinkState.Proofs.ShortestPath.Nexthops

/-!
# Members of a LAN of the root

A router on a LAN that is attached to the root can be handed traffic over the LAN itself. A search
finds this out only as long as it has no next hops for the LAN: `contribution` passes on what is
known of a node and takes direct next hops where nothing is. So if the LAN is reached at the same
cost by way of another router, the next hops that lead there stand in for the direct one.

* `lan_isEmpty_iff`: a LAN has no next hops exactly if the edge of the root to it is the only least
  walk that leads there.
* `OverLan.mem_or_full`, `OverLan.only_walk_of_mem`: exactly then its members have their direct next
  hops, as far as there is room.

`no_lanNexthop_tiedLan` is a member with a least walk over the LAN that is reached in another way
only.
-/

namespace LinkState

namespace Search

open LinkState.Topology

variable {t : Topology} {l : Level} {root : NodeId}

/-- The way from the root over a LAN to one of its members has a metric. -/
structure OverLan (t : Topology) (l : Level) (root : NodeId) (out last : Arc) (m : Metric) :
    Prop where
  attached : out ∈ t.usableArcs l root
  pseudonode : t.isPseudonode out.edge.target.node l = true
  member : last ∈ t.usableArcs l out.edge.target.node
  router : t.isPseudonode last.edge.target.node l = false
  ne_root : last.edge.target.node ≠ root
  metric_eq : out.edge.cost l + last.edge.cost l = m

theorem OverLan.toNat_metric {out last : Arc} {m : Metric} (h : OverLan t l root out last m)
    (hfin : m ≠ .infinite) : m.toNat = (out.edge.cost l).toNat + (last.edge.cost l).toNat := by
  rw [← h.metric_eq] at hfin ⊢
  exact Metric.toNat_add_of_ne_infinite hfin

/-- Whether some result is that of a member of a LAN of the root, of the metric of the way over the
LAN, and satisfies a condition together with the edge to the LAN. -/
def anyOverLan (t : Topology) (l : Level) (root : NodeId) (p : Arc → Result → Bool)
    (rs : List Result) : Bool :=
  (t.usableArcs l root).any fun out => (t.usableArcs l out.edge.target.node).any fun last =>
    rs.any fun r => decide (t.isPseudonode out.edge.target.node l = true ∧
      t.isPseudonode last.edge.target.node l = false ∧ last.edge.target.node ≠ root ∧
      out.edge.cost l + last.edge.cost l = r.metric ∧ last.edge.target.node = r.node) && p out r

theorem exists_overLan {p : Arc → Result → Bool} {rs : List Result}
    (h : anyOverLan t l root p rs = true) : ∃ r ∈ rs, ∃ out last,
      OverLan t l root out last r.metric ∧ last.edge.target.node = r.node ∧ p out r = true := by
  simp only [anyOverLan, List.any_eq_true, Bool.and_eq_true, decide_eq_true_eq] at h
  obtain ⟨out, hout, last, hlast, r, hr, ⟨hlan, hrouter, hne, hmetric, hnode⟩, hp⟩ := h
  exact ⟨r, hr, out, last, ⟨hout, hlan, hlast, hrouter, hne, hmetric⟩, hnode, hp⟩

/-- A topology is plain if its edges say so and the root has few logical neighbours. -/
theorem plain_of_arcs
    (hlans : ∀ a ∈ t.arcs, a.edge.isActive l = true →
      t.isPseudonode a.edge.source.node l = true → t.isPseudonode a.edge.target.node l = false)
    (hone : ∀ a ∈ t.activeArcs root l, ∀ b ∈ t.activeArcs root l,
      a.edge.target.node = b.edge.target.node → t.isPseudonode a.edge.target.node l = true →
        a.id = b.id)
    (hroom : (t.logicalNeighbours root l).length ≤ NexthopSet.width) : Plain t l root :=
  ⟨fun a ha => hlans a (mem_arcs.2 ha), hone, fun _ _ => (List.length_filter_le ..).trans hroom⟩

theorem Plain.router_of_lan (hplain : Plain t l root) {a : Arc} (usable : Usable t l a)
    (hlan : t.isPseudonode a.edge.target.node l = true) :
    t.isPseudonode a.edge.source.node l = false := by
  refine Bool.eq_false_iff.2 fun hsource => ?_
  rw [hplain.no_lan_to_lan a usable.stored usable.active hsource] at hlan
  cases hlan

/-- A root with an edge to a LAN is a router. -/
theorem Plain.root_router [t.Listed] (hplain : Plain t l root) {out : Arc}
    (hout : out ∈ t.usableArcs l root)
    (hlan : t.isPseudonode out.edge.target.node l = true) : t.isPseudonode root l = false := by
  obtain ⟨usable, hsource⟩ := mem_usableArcs.1 hout
  exact hsource ▸ hplain.router_of_lan usable hlan

theorem Plain.lan_ne_root [t.Listed] (hplain : Plain t l root) {out : Arc}
    (hout : out ∈ t.usableArcs l root)
    (hlan : t.isPseudonode out.edge.target.node l = true) : out.edge.target.node ≠ root := by
  intro e
  have hrouter := hplain.root_router hout hlan
  rw [e, hrouter] at hlan
  cases hlan

/-! ## The next hops of the LAN -/

section

variable {f : Findings} (hexact : f.Exact t l root)
  (hgathered : Gathered t l root (f.roots.read root).settled) (hplain : Plain t l root)
  {q : Result} (hq : q ∈ (f.roots.read root).settled) {out : Arc}
  (hout : out ∈ t.usableArcs l root) (htarget : out.edge.target.node = q.node)
  (hlan : t.isPseudonode q.node l = true)
include hexact hgathered hplain hq hout htarget hlan

/-- If nothing but the edge of the root is a least walk to a LAN, only the root brings anything
there, and it has nothing to bring. -/
theorem lan_isEmpty_of_only_walk [t.Listed]
    (honly : ∀ as, LeastWalk t l root as q.node → as = [out]) :
    q.nexthops.isEmpty = true := by
  obtain ⟨pre, post, hrow, settles⟩ := hgathered.exists_settles hq
  rw [settles.merged (htarget ▸ hplain.lan_ne_root hout (htarget ▸ hlan))]
  refine Nexthops.isEmpty_iff.2 fun k h hh => ?_
  obtain ⟨c, hc, hh⟩ := Nexthops.mem_merge hh
  obtain ⟨p, hp, a, ha, hnode, htight, rfl⟩ := mem_offers.1 hc
  have hpm : p ∈ (f.roots.read root).settled := hrow ▸ List.mem_append_left _ hp
  obtain ⟨as, hw⟩ := exists_leastWalk ((hexact.mem_iff p.node).1 (List.mem_map_of_mem hpm))
  have hlast := honly _ (leastWalk_of_tight hexact hrow hp ha hnode htight as hw)
  have hnil : as = [] := by
    have := congrArg List.length hlast
    rw [List.length_append, List.length_singleton, List.length_singleton] at this
    exact List.length_eq_zero_iff.1 (by omega)
  subst hnil
  have hnone := hgathered.isEmpty_of_root hpm hw.walk.eq_of_nil.symm
  obtain hh | ⟨-, hrouter, -⟩ := mem_contribution hh
  · exact Nexthops.isEmpty_iff.1 hnone k h hh
  · rw [hnode, hlan] at hrouter
    cases hrouter

variable (hpos : ∀ a, Usable t l a → t.isPseudonode a.edge.source.node l = false →
  0 < (a.edge.cost l).toNat)
include hpos

/-- A LAN without next hops is reached over the edge of the root only: any other least walk comes
from a router, which has next hops and has brought them. -/
theorem lan_only_walk_of_isEmpty [t.Listed] (hempty : q.nexthops.isEmpty = true) :
    ∀ as, LeastWalk t l root as q.node → as = [out] := by
  intro as hw
  have hne : q.node ≠ root := htarget ▸ hplain.lan_ne_root hout (htarget ▸ hlan)
  have hroot_router := hplain.root_router hout (htarget ▸ hlan)
  obtain ⟨pre, post, hrow, settles⟩ := hgathered.exists_settles hq
  rw [settles.merged hne] at hempty
  obtain rfl | ⟨bs, z, rfl⟩ := List.eq_nil_or_concat' as
  · exact absurd hw.walk.eq_of_nil.symm hne
  obtain ⟨-, usable, hz⟩ := hw.walk.of_concat
  have hzrouter := hplain.router_of_lan usable (hz ▸ hlan)
  obtain ⟨p, hp, hnode, hoffer⟩ := exists_offer hexact hrow hne hw (hpos z usable hzrouter)
  have hpm : p ∈ (f.roots.read root).settled := hrow ▸ List.mem_append_left _ hp
  have hnone : p.nexthops.isEmpty = true := by
    by_contra hsome
    have hsome := Bool.eq_false_iff.2 hsome
    rw [contribution_of_ne_empty hsome] at hoffer
    exact Bool.eq_false_iff.1 (Nexthops.isEmpty_merge hoffer hsome) hempty
  -- nobody but the root and its LANs is without next hops, and no LAN leads to another
  have hroot : p.node = root := by
    by_contra hroot
    have := (((hexact.derived p hpm).traced hplain).attached hroot hnone).1
    rw [hnode, hzrouter] at this
    cases this
  have hzroot : z.edge.source.node = root := hnode.symm.trans hroot
  have hback : LeastWalk t l root bs root := hzroot ▸ hw.of_concat
  have hbs : bs = [] := hback.eq_nil fun a ha e => hpos a ha (e ▸ hroot_router)
  obtain ⟨hu, hsource⟩ := mem_usableArcs.1 hout
  have hid := hplain.one_edge z (hzroot ▸ mem_activeArcs_of_usable usable) out
    (hsource ▸ mem_activeArcs_of_usable hu) (hz.trans htarget.symm) (hz ▸ hlan)
  rw [hbs, arc_eq usable.stored hu.stored hid, List.nil_append]

/-- **A LAN has no next hops exactly if the edge of the root to it is the only least walk** that
leads there. -/
theorem lan_isEmpty_iff [t.Listed] :
    q.nexthops.isEmpty = true ↔ ∀ as, LeastWalk t l root as q.node → as = [out] :=
  ⟨lan_only_walk_of_isEmpty hexact hgathered hplain hq hout htarget hlan hpos,
    lan_isEmpty_of_only_walk hexact hgathered hplain hq hout htarget hlan⟩

end

/-! ## The next hops of a member -/

section

variable {f : Findings} (hexact : f.Exact t l root) {r : Result}
  (hr : r ∈ (f.roots.read root).settled) {out last : Arc}
  (hover : OverLan t l root out last r.metric) (hnode : last.edge.target.node = r.node)
include hexact hr hover hnode

/-- The way over the LAN is no shorter up to the LAN than a least walk there. -/
theorem OverLan.tight [t.Listed] {q : Result} (hq : q ∈ (f.roots.read root).settled)
    (hqnode : q.node = out.edge.target.node) : q.metric + last.edge.cost l = r.metric := by
  obtain ⟨hu, hsource⟩ := mem_usableArcs.1 hover.attached
  obtain ⟨hv, hlast⟩ := mem_usableArcs.1 hover.member
  have hle : (t.leastMetric l root q.node).toNat ≤ cost l [out] :=
    leastMetric_le (hsource ▸ hqnode ▸ .single hu)
  have hle' : (t.leastMetric l q.node r.node).toNat ≤ cost l [last] :=
    leastMetric_le (hqnode ▸ hlast ▸ hnode ▸ .single hv)
  have htriangle := leastMetric_triangle (t := t) (l := l) root r.node q.node
  have hsum := hover.toNat_metric (hexact.ne_infinite hr)
  have hcap := r.metric.toNat_le
  rw [Metric.le_iff, Metric.toNat_add, ← hexact.metric_eq r hr, ← hexact.metric_eq q hq]
    at htriangle
  rw [← hexact.metric_eq q hq] at hle
  simp only [cost, Nat.add_zero] at hle hle'
  refine Metric.toNat_inj.1 ?_
  rw [Metric.toNat_add]
  omega

variable (hplain : Plain t l root)
  (hpos : ∀ a, Usable t l a → t.isPseudonode a.edge.source.node l = false →
    0 < (a.edge.cost l).toNat)
include hplain

omit hexact hr in
/-- From a LAN without next hops a member has its direct next hop over the LAN. -/
theorem OverLan.direct_mem [t.Listed] {q : Result} (hqnode : q.node = out.edge.target.node)
    (hempty : q.nexthops.isEmpty = true) :
    ∃ h ∈ ((t.contribution l q.node q.nexthops last
        { direct := directNexthops t l root r.node }).get out.edge.nexthopKind).members,
      h.node = r.node ∧ h.oif = out.id := by
  obtain ⟨hu, hsource⟩ := mem_usableArcs.1 hover.attached
  obtain ⟨hv, hlast⟩ := mem_usableArcs.1 hover.member
  let nb : LogicalNeighbour := ⟨last.edge.target.node, out, some last⟩
  have hnb : nb ∈ t.logicalNeighbours root l := (mem_logicalNeighbours t).2
    ⟨hsource ▸ mem_activeArcs_of_usable hu, .inr ⟨hover.pseudonode, last,
      hlast ▸ mem_activeArcs_of_usable hv, rfl, hover.ne_root, rfl⟩⟩
  have hdirect := nexthop_mem_directNexthops hnb (hplain.room _ _)
  rw [← hnode]
  exact ⟨nb.nexthop, direct_mem_contribution hempty hover.router hdirect
    (.inr ⟨out.edge, hu.stored, hqnode.symm⟩), rfl, rfl⟩

include hpos

/-- The LAN is settled before the member: the root comes first, since the edge to the LAN costs
something, and where the way from the LAN costs nothing LANs have precedence. -/
theorem OverLan.exists_lan [t.Listed] {pre post : List Result}
    (hrow : (f.roots.read root).settled = pre ++ r :: post) (settles : Settles t l root pre r) :
    ∃ q ∈ pre, q.node = out.edge.target.node := by
  obtain ⟨hu, hsource⟩ := mem_usableArcs.1 hover.attached
  have hcost := hpos out hu (hplain.router_of_lan hu hover.pseudonode)
  have hsum := hover.toNat_metric (hexact.ne_infinite hr)
  have hlt := Metric.toNat_lt_of_ne_infinite (hexact.ne_infinite hr)
  rw [Metric.toNat_infinite] at hlt
  obtain ⟨p, hp, hproot, hzero⟩ := exists_root_before hexact hrow (by omega)
  have hpath : (p.metric + out.edge.cost l).toNat = (out.edge.cost l).toNat := by
    rw [Metric.toNat_add, hzero, Metric.toNat_zero]
    omega
  have hout : out ∈ outArcs t l root p.node :=
    mem_outArcs.2 ⟨hu, hsource.trans hproot.symm,
      hplain.lan_ne_root hover.attached hover.pseudonode⟩
  have hplace := settles.first p hp out hout fun e => by
    rw [e, Metric.toNat_infinite] at hpath
    omega
  rcases hplace with hmem | hplace
  · exact List.mem_map.1 hmem
  · unfold place at hplace
    rw [hpath, hsum, ← hnode, hover.router, hover.pseudonode, if_pos rfl,
      if_neg Bool.false_ne_true] at hplace
    omega

variable (hgathered : Gathered t l root (f.roots.read root).settled)
include hgathered

/-- **A member of a LAN has its direct next hop over the LAN**, as far as there is room, if the edge
to the LAN is the only least walk there. -/
theorem OverLan.mem_or_full [t.Listed]
    (honly : ∀ as, LeastWalk t l root as out.edge.target.node → as = [out]) :
    (∃ h ∈ (r.nexthops.get out.edge.nexthopKind).members, h.node = r.node ∧ h.oif = out.id) ∨
      (r.nexthops.get out.edge.nexthopKind).IsFull := by
  obtain ⟨pre, post, hrow, settles⟩ := hgathered.exists_settles hr
  obtain ⟨q, hq, hqnode⟩ := hover.exists_lan hexact hr hnode hplain hpos hrow settles
  have hqm : q ∈ (f.roots.read root).settled := hrow ▸ List.mem_append_left _ hq
  have hempty : q.nexthops.isEmpty = true :=
    (lan_isEmpty_iff hexact hgathered hplain hqm hover.attached hqnode.symm
      (hqnode ▸ hover.pseudonode) hpos).2 (hqnode ▸ honly)
  obtain ⟨hv, hlast⟩ := mem_usableArcs.1 hover.member
  have hoffer := mem_offers.2 ⟨q, hq, last,
    mem_outArcs.2 ⟨hv, hlast.trans hqnode.symm, hover.ne_root⟩, hnode,
    hover.tight hexact hr hnode hqm hqnode, rfl⟩
  obtain ⟨h, hh, hfar, hoif⟩ := hover.direct_mem hnode hplain hqnode hempty
  rw [settles.merged (hnode ▸ hover.ne_root)]
  exact (Nexthops.mem_merge_or_full hoffer hh).imp_left fun hin => ⟨h, hin, hfar, hoif⟩

/-- **Only then has it such a next hop.** -/
theorem OverLan.only_walk_of_mem [t.Listed] {k : NexthopKind} {h : Nexthop}
    (hh : h ∈ (r.nexthops.get k).members) (hfar : h.node = r.node) (hoif : h.oif = out.id) :
    ∀ as, LeastWalk t l root as out.edge.target.node → as = [out] := by
  obtain ⟨hu, -⟩ := mem_usableArcs.1 hover.attached
  obtain ⟨pre, post, hrow, settles⟩ := hgathered.exists_settles hr
  rw [settles.merged (hnode ▸ hover.ne_root)] at hh
  obtain ⟨c, hc, hh⟩ := Nexthops.mem_merge hh
  obtain ⟨p, hp, a, ha, htarget, htight, rfl⟩ := mem_offers.1 hc
  have hpm : p ∈ (f.roots.read root).settled := hrow ▸ List.mem_append_left _ hp
  obtain hh | ⟨hempty, hrouter, -, hid | ⟨edge, hedge, hlan⟩⟩ := mem_contribution hh
  · -- a walk to the node before would come by the member, which is not settled yet
    obtain ⟨-, as, hwalk, hcost, hvisits⟩ := (hexact.derived p hpm).exists_neighbour hh
    obtain ⟨bs, cs, rfl, hbs, hcs⟩ := hwalk.split (hfar ▸ hvisits)
    have hle := leastMetric_le hbs
    rw [← hexact.metric_eq r hr, ← htight, Metric.toNat_add_of_ne_infinite
      (htight ▸ hexact.ne_infinite hr)] at hle
    have hne : cs ≠ [] := by
      rintro rfl
      exact ne_of_mem_before hexact hrow hp hcs.eq_of_nil.symm
    have := hcs.cost_pos hne fun b hb e => hpos b hb (e ▸ hnode ▸ hover.router)
    rw [cost_append] at hcost
    omega
  · have e : a = out :=
      arc_eq (mem_outArcs.1 ha).1.stored hu.stored (hid.symm.trans hoif)
    rw [e, hover.pseudonode] at hrouter
    cases hrouter
  · rw [hoif, hu.stored] at hedge
    cases hedge
    rw [hlan]
    exact (lan_isEmpty_iff hexact hgathered hplain hpm hover.attached hlan
      (hlan ▸ hover.pseudonode) hpos).1 hempty

end

end Search

namespace Run

open LinkState.Topology

/-- **When a member of a LAN is handed traffic over the LAN.** Let the way from the root over a LAN
to a member be as short as any. After a run in a plain topology whose routers ask something for
every edge, the member has a next hop that is itself, over the edge to the LAN, if that edge is the
only least walk to the LAN and there is room; and it has one only then. -/
theorem lanNexthop_of_run (history : List Change) (l : Level) (root : NodeId) {kind : RunKind}
    (hkind : kind = .full ∨ kind = .forward)
    (hplain : Search.Plain (after {} history) l root)
    (hpos : ∀ a ∈ (after {} history).arcs, a.edge.isActive l = true →
      (after {} history).isPseudonode a.edge.source.node l = false → 0 < (a.edge.cost l).toNat)
    {w w' : Workspace} {rs : List Result}
    (hrun : run (after {} history) root l kind w = .ok rs w') {r : Result}
    (hr : r ∈ rs ∨ (w'.findings.get l).result? root r.node = some r) {out last : Arc}
    (hover : Search.OverLan (after {} history) l root out last r.metric)
    (hnode : last.edge.target.node = r.node) :
    ((∀ as, LeastWalk (after {} history) l root as out.edge.target.node → as = [out]) →
      (∃ h ∈ (r.nexthops.get out.edge.nexthopKind).members, h.node = r.node ∧ h.oif = out.id) ∨
        (r.nexthops.get out.edge.nexthopKind).members.length = NexthopSet.width) ∧
    ((∃ h ∈ (r.nexthops.get out.edge.nexthopKind).members, h.node = r.node ∧ h.oif = out.id) →
      ∀ as, LeastWalk (after {} history) l root as out.edge.target.node → as = [out]) := by
  obtain ⟨hs, hmem⟩ := settled_of_run history hkind hrun hr
  have hpos' := fun a (usable : Usable (after {} history) l a) =>
    hpos a (mem_arcs.2 usable.stored) usable.active
  refine ⟨hover.mem_or_full hs.exact hmem hnode hplain hpos' hs.gathered, ?_⟩
  rintro ⟨h, hh, hfar, hoif⟩
  exact hover.only_walk_of_mem hs.exact hmem hnode hplain hpos' hs.gathered hh hfar hoif

theorem lanNexthop_of_run_lan : ∃ rs w',
    run (after {} lan) ⟨0, 0⟩ .l1 .full {} = .ok rs w' ∧ ∃ r ∈ rs, ∃ out last,
      Search.OverLan (after {} lan) .l1 ⟨0, 0⟩ out last r.metric ∧
        last.edge.target.node = r.node ∧
        (∃ h ∈ (r.nexthops.get out.edge.nexthopKind).members,
          h.node = r.node ∧ h.oif = out.id) ∧
        ∀ as, LeastWalk (after {} lan) .l1 ⟨0, 0⟩ as out.edge.target.node → as = [out] := by
  obtain ⟨rs, w', hrun, hrs⟩ := Compute.exists_of_yields
    (c := run (after {} lan) ⟨0, 0⟩ .l1 .full) (w := {})
    (p := Search.anyOverLan (after {} lan) .l1 ⟨0, 0⟩ fun out r =>
      (r.nexthops.get out.edge.nexthopKind).members.any fun h =>
        h.node == r.node && h.oif == out.id) (by decide +kernel)
  obtain ⟨r, hr, out, last, hover, hnode, hany⟩ := Search.exists_overLan hrs
  simp only [List.any_eq_true, Bool.and_eq_true, beq_iff_eq] at hany
  have hplain : Search.Plain (after {} lan) .l1 ⟨0, 0⟩ :=
    Search.plain_of_arcs (by decide +kernel) (by decide +kernel) (by decide +kernel)
  have honly := (lanNexthop_of_run lan .l1 ⟨0, 0⟩ (.inl rfl) hplain (by decide +kernel) hrun
    (.inl hr) hover hnode).2 hany
  exact ⟨rs, w', hrun, r, hr, out, last, hover, hnode, hany, honly⟩

/-- A root and two routers on a LAN. The root reaches the LAN at the same cost over a link to the
first of the two. -/
def tiedLan : List Change :=
  (["s", "a", "n"].map fun name => .addRouter name 0 .all) ++ [.addPseudonode "pn" .all] ++
    [2, 1, 1].zipIdx.map (fun (metric, i) =>
      .addLanLink ⟨⟨i, 0⟩, "lan", none⟩ ⟨3, 0⟩ (.saturate metric) .all) ++
    [.addLink ⟨⟨0, 0⟩, "toa", none⟩ ⟨⟨1, 0⟩, "tos", none⟩ (.saturate 1) .all]

/-- The second router is reached over the first one only, although the way over the LAN is as short
and there is room for three more next hops. -/
theorem no_lanNexthop_tiedLan : Search.Plain (after {} tiedLan) .l1 ⟨0, 0⟩ ∧
    (∀ a ∈ (after {} tiedLan).arcs, a.edge.isActive .l1 = true →
      (after {} tiedLan).isPseudonode a.edge.source.node .l1 = false →
        0 < (a.edge.cost .l1).toNat) ∧
    ∃ rs w', run (after {} tiedLan) ⟨0, 0⟩ .l1 .full {} = .ok rs w' ∧ ∃ r ∈ rs, ∃ out last,
      Search.OverLan (after {} tiedLan) .l1 ⟨0, 0⟩ out last r.metric ∧
        last.edge.target.node = r.node ∧ out.edge.kind = .unicast ∧
        r.nexthops.ip.members.length = 1 ∧
        ¬∃ h ∈ r.nexthops.ip.members, h.node = r.node ∧ h.oif = out.id := by
  refine ⟨Search.plain_of_arcs (by decide +kernel) (by decide +kernel) (by decide +kernel),
    by decide +kernel, ?_⟩
  obtain ⟨rs, w', hrun, hrs⟩ := Compute.exists_of_yields
    (c := run (after {} tiedLan) ⟨0, 0⟩ .l1 .full) (w := {})
    (p := Search.anyOverLan (after {} tiedLan) .l1 ⟨0, 0⟩ fun out r =>
      decide (out.edge.kind = .unicast ∧ r.nexthops.ip.members.length = 1 ∧
        ¬∃ h ∈ r.nexthops.ip.members, h.node = r.node ∧ h.oif = out.id)) (by decide +kernel)
  obtain ⟨r, hr, out, last, hover, hnode, hdecided⟩ := Search.exists_overLan hrs
  exact ⟨rs, w', hrun, r, hr, out, last, hover, hnode, of_decide_eq_true hdecided⟩

end Run

end LinkState
