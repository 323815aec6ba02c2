import LinkState.Proofs.Repair.LoopFree
import LinkState.Proofs.Repair.Remote
import LinkState.Proofs.Topology.Pairs

/-!
# The adjacencies of alternates

A search takes a unicast edge only if its far end has an active unicast edge back (`isTwoWay`). The
next hop of an alternate is that of a logical neighbour of the root, and the root reaches it
(`ByNeighbour`): a loop-free alternate is such a neighbour, a member of the P-space has a next hop
of the root's own searches, and what extends the P-space is reached through such a neighbour. From
there the traffic reaches the node of the alternate and its destination (`Returns.leads`). But the
list of neighbours, unlike a search, does not ask whether an edge is two-way, and the neighbour
may be reached over another edge than the one that is listed.

An edge of a link or of a LAN membership is two-way nevertheless, because it has an inverse that is
active whenever it is (`isTwoWay_of_inverse`). So the next hop of an alternate leads over edges that
searches take, unless there is a unicast edge among them that has no inverse
(`twoWay_of_alternate`); over such an edge it may lead without a way back (`no_return_oneWayEdge`).
-/

namespace LinkState

/-- The edges that lead to a neighbour, with the one from the LAN if there is a LAN between. -/
def LogicalNeighbour.arcs (nb : LogicalNeighbour) : List Arc := nb.out :: nb.lan.toList

namespace Topology

variable {t : Topology} {l : Level} {n : NodeId} {nb : LogicalNeighbour} {a : Arc}

/-- Whether a search may take an edge as far as its two ends are concerned: it is a tunnel, or the
far end has an active unicast edge back. -/
def isTwoWay (t : Topology) (l : Level) (a : Arc) : Bool :=
  a.edge.kind == .lsp || t.hasReturn a.edge.source.node a.edge.target.node l

theorem active_of_mem_arcs [t.Listed] (hnb : nb ∈ t.logicalNeighbours n l) (ha : a ∈ nb.arcs) :
    t.edges.get? a.id = some a.edge ∧ a.edge.isActive l = true := by
  obtain ⟨hout, hrest⟩ := (mem_logicalNeighbours t).1 hnb
  have hall : ∀ m, a ∈ t.activeArcs m l →
      t.edges.get? a.id = some a.edge ∧ a.edge.isActive l = true := fun m h => by
    obtain ⟨hstored, -, hactive⟩ := (mem_activeArcs t).1 h
    exact ⟨hstored, hactive⟩
  rcases List.mem_cons.1 ha with rfl | ha
  · exact hall n hout
  · rw [Option.mem_toList] at ha
    rcases hrest with ⟨-, hlan, -⟩ | ⟨-, c, hc, hlan, -, -⟩
    · rw [hlan] at ha
      cases ha
    · rw [hlan] at ha
      cases ha
      exact hall _ hc

/-- An active edge with an inverse is two-way. -/
theorem isTwoWay_of_inverse (hw : t.WellFormed) (hp : t.Paired)
    (hstored : t.edges.get? a.id = some a.edge) (hactive : a.edge.isActive l = true)
    (hinverse : a.edge.inverse ≠ none) : t.isTwoWay l a = true := by
  obtain ⟨i, hi⟩ := Option.ne_none_iff_exists'.1 hinverse
  obtain ⟨back, hback, hpair, hsource, htarget⟩ := hp.exists_back hw hstored hi
  rw [isTwoWay, Bool.or_eq_true, hasReturn_iff]
  refine .inr ⟨⟨i, back⟩, hback, ?_, ?_, ?_, hpair.kind_back⟩
  · rw [hsource]
  · rw [htarget]
  · exact (hpair.isActive_eq l).trans hactive

/-- The edges that lead to a neighbour are two-way, but for unicast edges without an inverse. -/
theorem isTwoWay_or_lone (hw : t.WellFormed) (hp : t.Paired) (hnb : nb ∈ t.logicalNeighbours n l)
    (ha : a ∈ nb.arcs) :
    t.isTwoWay l a = true ∨ a.edge.kind = .unicast ∧ a.edge.inverse = none := by
  obtain ⟨hstored, hactive⟩ := active_of_mem_arcs hnb ha
  by_cases hinverse : a.edge.inverse = none
  · cases hkind : a.edge.kind with
    | unicast => exact .inr ⟨rfl, hinverse⟩
    | lsp => exact .inl (by rw [isTwoWay, hkind]; rfl)
  · exact .inl (isTwoWay_of_inverse hw hp hstored hactive hinverse)

end Topology

namespace Repair

open LinkState.Topology Compute

variable {t : Topology} {root : NodeId} {e : EdgeId} {l : Level} {w w' : Workspace} {strict : Bool}
  {space space' : RepairSpace} {f : Findings}

/-- A next hop of a root: that of a logical neighbour which the root reaches. -/
def ByNeighbour (t : Topology) (l : Level) (root : NodeId) (x : Nexthop) : Prop :=
  ∃ nb ∈ t.logicalNeighbours root l, nb.nexthop = x ∧ t.leastMetric l root nb.node ≠ .infinite

/-- An alternate leads over a neighbour of the root to its node and on to its destination. -/
structure Leads (t : Topology) (l : Level) (root : NodeId) (a : Alternate) : Prop where
  neighbour : ByNeighbour t l root a.nexthop
  tunnel : t.leastMetric l a.nexthop.node a.node ≠ .infinite
  release : t.leastMetric l a.node a.destination ≠ .infinite

/-! ## Loop-free alternates -/

theorem loopFree_leads (hw : t.WellFormed) {rec : RepairRecord}
    (h : loopFree t l root e strict w = .ok (some rec) w') {a : Alternate}
    (ha : a ∈ rec.alternates) : Leads t l root a := by
  have hrun := h
  unfold loopFree at hrun
  obtain ⟨edge, w₁, h₁, hrun⟩ := bind_eq_ok.1 hrun
  obtain ⟨-, horder⟩ := inOrder_of_requireProtected h₁
  split at hrun
  · cases (pure_eq_ok.1 hrun).1
  rename_i hprotected
  rw [Bool.not_eq_true', Bool.not_eq_false] at hprotected
  obtain ⟨-, has⟩ := loopFree_assessed hw horder.stored hprotected h
  obtain ⟨d, hd, c, hc, hassess⟩ := (has.mem_iff a).1 ha
  obtain ⟨r, hr, hr', rfl⟩ := mem_affected.1 hd
  obtain ⟨hsome, hfields⟩ := assessLocal_eq_ok has.root_exact hr hr'
    (has.candidate_known _ hd c hc) has.far_known (has.primary_known horder hr hr') hassess
  obtain ⟨hnode, hdest, hnexthop⟩ := hfields a rfl
  obtain ⟨hnear, hq⟩ := hsome.1 rfl
  obtain ⟨nb, hnb, -, -, -, rfl⟩ := mem_candidates.1 hc
  refine ⟨⟨nb, hnb, hnexthop.symm, hnear⟩, ?_, ?_⟩
  · -- the neighbour is the node that is given the traffic
    rw [hnexthop, hnode, leastMetric_self]
    exact Metric.zero_ne_infinite
  · rw [hnode, hdest]
    exact hq.reaches

/-! ## Remote alternates -/

/-- A next hop of a result of the root's own search is one of a neighbour that the root reaches. -/
theorem byNeighbour_of_result (hroot : f.Exact t l root) {r : Result}
    (hr : r ∈ f.destinations root) {x : Nexthop} (hx : x ∈ r.nexthops.ip.members) :
    ByNeighbour t l root x := by
  have hder := hroot.derived r (hroot.mem_destinations.1 hr).1
  obtain ⟨⟨nb, hnb, -, rfl⟩, as, hwalk, hcost, hvisits⟩ := hder.exists_neighbour (k := .ip) hx
  -- the walk to the result comes by the neighbour, so this is nearer
  obtain ⟨bs, cs, rfl, hbs, -⟩ := hwalk.split hvisits
  refine ⟨nb, hnb, rfl, leastMetric_ne_infinite_iff.2 ⟨bs, hbs, ?_⟩⟩
  have hfinite := Metric.toNat_lt_of_ne_infinite hder.exists_walk.1
  rw [cost_append] at hcost
  omega

/-- Every member of the extended P-space is reached by a neighbour that the root reaches. -/
theorem extendedSpace_byNeighbour (hw : t.WellFormed) {edge : Edge}
    (horder : InOrder t root e l edge) (h : extendedSpace t l root e w = .ok space w') :
    ∀ (n : NodeId) (path : RepairPath), space[n]? = some path →
      ByNeighbour t l root path.nexthop := by
  refine (extendedSpace_induction (P := fun space => ∀ (n : NodeId) (path : RepairPath),
    space[n]? = some path → ByNeighbour t l root path.nexthop) hw horder (by simp) ?_ ?_ h).1
  · intro f hroot hfar r hr s s' hs' hs
    obtain ⟨_, x, -, -, -, hfind, rfl⟩ | ⟨rfl, -⟩ := addNear_cases hs'
    · exact forall_insert (P := fun _ path => ByNeighbour t l root path.nexthop) hs
        (byNeighbour_of_result hroot hr (List.mem_of_find?_eq_some hfind))
    · exact hs
  · intro nb hnb hoif hover hreaches f hn hroot hfar r hr s s' hs' hs
    obtain ⟨_, _, -, -, -, -, rfl⟩ | ⟨rfl, -⟩ := addThrough_cases hs'
    · exact forall_improve (P := fun _ path => ByNeighbour t l root path.nexthop) hs
        ⟨nb, hnb, rfl, hreaches⟩
    · exact hs

theorem remote_leads (hw : t.WellFormed) {rec : RepairRecord}
    (h : remote t l root e strict w = .ok (some rec) w') {a : Alternate}
    (ha : a ∈ rec.alternates) : Leads t l root a := by
  have hrun := h
  unfold remote at hrun
  obtain ⟨edge, w₁, h₁, -⟩ := bind_eq_ok.1 hrun
  obtain ⟨-, horder⟩ := inOrder_of_requireProtected h₁
  obtain ⟨-, space, w₂, hspace, n, path, hn, -, r, -, -, honward⟩ :=
    remote_onward hw horder.stored h ha
  have htunnel := (commonSpace_tunnels hw horder hspace).1 n path hn
  obtain ⟨extended, members, w₃, hextended, -, hpart⟩ := commonSpace_eq_ok hspace
  refine ⟨?_, ?_, ?_⟩
  · rw [honward.nexthop]
    exact extendedSpace_byNeighbour hw horder hextended n path (hpart n path hn)
  · rw [honward.nexthop, honward.node]
    exact htunnel.reaches
  · rw [honward.node, honward.destination]
    exact honward.reaches

/-! ## All alternates -/

/-- A record is returned for a protected edge by one of the three computations of alternates. -/
inductive Returns (t : Topology) (l : Level) (root : NodeId) (e : EdgeId) (w w' : Workspace)
    (rec : RepairRecord) : Prop where
  | loopFree (strict : Bool) (h : loopFree t l root e strict w = .ok (some rec) w')
  | remote (strict : Bool) (h : remote t l root e strict w = .ok (some rec) w')
  | backups (h : backups t l root e w = .ok (some rec) w')

/-- A record of backups is made of loop-free and of remote alternates. -/
theorem mem_backups {rec : RepairRecord} (h : backups t l root e w = .ok (some rec) w')
    {a : Alternate} (ha : a ∈ rec.alternates) :
    ∃ near w₁, loopFree t l root e w.settings.strictDownstream w = .ok near w₁ ∧
      (a ∈ alternatesOf near ∨
        ∃ far w₂, remote t l root e w.settings.strictDownstream w₁ = .ok far w₂ ∧
          a ∈ alternatesOf far) := by
  unfold backups at h
  obtain ⟨w₀, w₁, h₀, h⟩ := bind_eq_ok.1 h
  cases h₀
  obtain ⟨near, w₁, h₁, h⟩ := bind_eq_ok.1 h
  refine ⟨near, w₁, h₁, ?_⟩
  split at h
  · obtain ⟨rfl, -⟩ := pure_eq_ok.1 h
    exact .inl ha
  · obtain ⟨far, w₂, h₂, h⟩ := bind_eq_ok.1 h
    obtain ⟨hrec, -⟩ := pure_eq_ok.1 h
    have hmem : a ∈ alternatesOf (some rec) := ha
    rw [← hrec, alternatesOf_nonempty?] at hmem
    exact (List.mem_append.1 hmem).imp id fun hfar => ⟨far, w₂, h₂, (List.mem_filter.1 hfar).1⟩

theorem Returns.leads (hw : t.WellFormed) {rec : RepairRecord}
    (h : Returns t l root e w w' rec) {a : Alternate} (ha : a ∈ rec.alternates) :
    Leads t l root a := by
  cases h with
  | loopFree strict h => exact loopFree_leads hw h ha
  | remote strict h => exact remote_leads hw h ha
  | backups h =>
    obtain ⟨near, w₁, hnear, ha | ⟨far, w₂, hfar, ha⟩⟩ := mem_backups h ha
    · cases near with
      | none => cases ha
      | some rec' => exact loopFree_leads hw hnear ha
    · cases far with
      | none => cases ha
      | some rec' => exact remote_leads hw hfar ha

/-- **Alternates use adjacencies that searches use, but for edges without an inverse.** In every
topology that can be built, the next hop of an alternate is that of a logical neighbour which the
root reaches, over active edges each of which is a tunnel, or a unicast edge whose far end has an
active unicast edge back, or a unicast edge that was added on its own. -/
theorem twoWay_of_alternate (history : List Change) (l : Level) (root : NodeId) (e : EdgeId)
    {w w' : Workspace} {rec : RepairRecord}
    (h : Returns (after {} history) l root e w w' rec) {a : Alternate}
    (ha : a ∈ rec.alternates) :
    ∃ nb ∈ (after {} history).logicalNeighbours root l, nb.nexthop = a.nexthop ∧
      (after {} history).leastMetric l root nb.node ≠ .infinite ∧
        ∀ b ∈ nb.arcs, (after {} history).isTwoWay l b = true ∨
          b.edge.kind = .unicast ∧ b.edge.inverse = none := by
  have hw := wellFormed_after history
  obtain ⟨nb, hnb, hnexthop, hreaches⟩ := (h.leads hw ha).neighbour
  exact ⟨nb, hnb, hnexthop, hreaches, fun b hb =>
    isTwoWay_or_lone hw (paired_after history) hnb hb⟩

/-- In the ring the first router reaches the alternate for its neighbour over a link. -/
theorem twoWay_of_alternate_pentagon : ∃ rec w' a,
    loopFree (after {} Run.pentagon) .l1 ⟨0, 0⟩ ⟨0, 0⟩ false {} = .ok (some rec) w' ∧
      a ∈ rec.alternates ∧ a.nexthop.oif = ⟨9, 0⟩ ∧
      ∃ nb ∈ (after {} Run.pentagon).logicalNeighbours ⟨0, 0⟩ .l1, nb.nexthop = a.nexthop ∧
        (after {} Run.pentagon).leastMetric .l1 ⟨0, 0⟩ nb.node ≠ .infinite ∧
          ∀ b ∈ nb.arcs, (after {} Run.pentagon).isTwoWay .l1 b = true ∨
            b.edge.kind = .unicast ∧ b.edge.inverse = none := by
  obtain ⟨found, w', h, hany⟩ := exists_of_yields
    (c := loopFree (after {} Run.pentagon) .l1 ⟨0, 0⟩ ⟨0, 0⟩ false) (w := {})
    (p := fun found => found.any fun rec => rec.alternates.any fun a => a.nexthop.oif == ⟨9, 0⟩)
    (by decide +kernel)
  obtain ⟨rec, rfl, hany⟩ := Option.any_eq_true _ _ |>.1 hany
  obtain ⟨a, ha, hoif⟩ := List.any_eq_true.1 hany
  exact ⟨rec, w', a, h, ha, by simpa using hoif,
    twoWay_of_alternate Run.pentagon .l1 ⟨0, 0⟩ ⟨0, 0⟩ (.loopFree false h) ha⟩

/-- Three routers in a row, the first link protected, and an edge from the first router to the third
one, without one back. -/
def oneWayEdge : List Change :=
  (["s", "d", "n"].map fun name => .addRouter name 0 .all) ++
    [.addLink ⟨⟨0, 0⟩, "tod", none⟩ ⟨⟨1, 0⟩, "tos", none⟩ (.saturate 1) .all,
      .addLink ⟨⟨1, 0⟩, "ton", none⟩ ⟨⟨2, 0⟩, "tod", none⟩ (.saturate 1) .all,
      .addEdge ⟨⟨0, 0⟩, "ton", none⟩ ⟨⟨2, 0⟩, "tos", none⟩ (.both (.saturate 1)) .all .unicast,
      .setProtection ⟨0, 0⟩ .link]

/-- The first router reaches the third one over the second one only, and yet an alternate for the
second one leaves over the edge without one back. -/
theorem no_return_oneWayEdge : ∃ rec w' a edge,
    loopFree (after {} oneWayEdge) .l1 ⟨0, 0⟩ ⟨0, 0⟩ false {} = .ok (some rec) w' ∧
      a ∈ rec.alternates ∧ a.destination = ⟨1, 0⟩ ∧ a.nexthop.node = ⟨2, 0⟩ ∧
      (after {} oneWayEdge).edges.get? a.nexthop.oif = some edge ∧ edge.kind = .unicast ∧
      (after {} oneWayEdge).isPseudonode edge.target.node .l1 = false ∧
      (after {} oneWayEdge).hasReturn ⟨0, 0⟩ edge.target.node .l1 = false := by
  obtain ⟨found, w', h, hany⟩ := exists_of_yields
    (c := loopFree (after {} oneWayEdge) .l1 ⟨0, 0⟩ ⟨0, 0⟩ false) (w := {})
    (p := fun found => found.any fun rec => rec.alternates.any fun a =>
      a.destination == ⟨1, 0⟩ && a.nexthop.node == ⟨2, 0⟩ && a.nexthop.oif == ⟨4, 0⟩)
    (by decide +kernel)
  obtain ⟨rec, rfl, hany⟩ := Option.any_eq_true _ _ |>.1 hany
  obtain ⟨a, ha, hfields⟩ := List.any_eq_true.1 hany
  rw [Bool.and_eq_true, Bool.and_eq_true, beq_iff_eq, beq_iff_eq, beq_iff_eq] at hfields
  obtain ⟨⟨hdest, hnode⟩, hoif⟩ := hfields
  have hstored : (((after {} oneWayEdge).edges.get? ⟨4, 0⟩).any fun edge =>
      decide (edge.kind = .unicast) && !(after {} oneWayEdge).isPseudonode edge.target.node .l1 &&
        !(after {} oneWayEdge).hasReturn ⟨0, 0⟩ edge.target.node .l1) = true := by decide +kernel
  obtain ⟨edge, hedge, hlone⟩ := Option.any_eq_true _ _ |>.1 hstored
  rw [Bool.and_eq_true, Bool.and_eq_true, decide_eq_true_iff, Bool.not_eq_true',
    Bool.not_eq_true'] at hlone
  obtain ⟨⟨hkind, hrouter⟩, hreturn⟩ := hlone
  exact ⟨rec, w', a, edge, h, ha, hdest, hnode, hoif ▸ hedge, hkind, hrouter, hreturn⟩

end Repair

end LinkState
