import LinkState.Proofs.Repair.Space
import LinkState.Proofs.Topology.LinkFailure

/-!
# Remote alternates are sound

A remote alternate sends traffic from a next hop to a remote node, and from there on to the
destination. That the first leg is safe comes with the membership of the remote node in the PQ-space
(`Tunnel`); that the second leg is, with the inequalities by which it is assessed against the search
made from the remote node (`Onward`, `assessRemote_onward`). `remote_sound` puts the two together:
neither leg uses the protected edge, and its failure changes the least metric of neither.
-/

namespace LinkState.Repair

open LinkState.Topology Compute

variable {t : Topology} {root far : NodeId} {e : EdgeId} {l : Level} {w w' : Workspace}
  {f : Findings} {edge : Edge} {strict : Bool}

/-- What an alternate says of the way from a remote node on to a destination. -/
structure Onward (t : Topology) (l : Level) (root far : NodeId) (strict : Bool) (n : NodeId)
    (path : RepairPath) (d : Affected) (a : Alternate) : Prop where
  node : a.node = n
  destination : a.destination = d.node
  nexthop : a.nexthop = path.nexthop
  reaches : t.leastMetric l n d.node ≠ .infinite
  avoids : Avoids t l n d.node root
  downstream : strict = true ∨ a.kind = .remoteLinkDownstream →
    t.leastMetric l n d.node < t.leastMetric l root d.node
  protects : a.kind = .remoteLinkAndNode →
    path.nodeProtecting = true ∧ d.node ≠ far ∧ Avoids t l n d.node far

theorem ofRemote_kind (nodeProtecting downstream : Bool) :
    (AlternateKind.ofRemote nodeProtecting downstream = .remoteLinkAndNode →
        nodeProtecting = true) ∧
      (AlternateKind.ofRemote nodeProtecting downstream = .remoteLinkDownstream →
        downstream = true) := by
  cases nodeProtecting <;> cases downstream <;> decide

theorem remoteProtectsNode_eq_true {p : RemoteNode} {d : Affected}
    (hfar : f.Knows t l edge.target.node)
    (htoFar : p.toFar = t.leastMetric l p.node edge.target.node)
    (h : remoteProtectsNode t l f edge p d (t.leastMetric l p.node d.node) = .ok true) :
    p.path.nodeProtecting = true ∧ d.node ≠ edge.target.node ∧
      Avoids t l p.node d.node edge.target.node := by
  unfold remoteProtectsNode at h
  split at h
  · rename_i hall
    rw [Bool.and_eq_true, Bool.and_eq_true, bne_iff_ne] at hall
    obtain ⟨⟨-, hpath⟩, hne⟩ := hall
    obtain ⟨onward, honward, h⟩ := except_bind_eq_ok.1 h
    cases distance_eq hfar honward
    have hlt : t.leastMetric l p.node d.node <
        p.toFar + t.leastMetric l edge.target.node d.node := of_decide_eq_true (Except.ok.inj h)
    rw [htoFar] at hlt
    exact ⟨hpath, hne, (leastMetric_lt_add_iff.1 hlt).2⟩
  · cases h

theorem assessRemote_onward {p : RemoteNode} {d : Affected} (hp : f.Knows t l p.node)
    (hfar : f.Knows t l edge.target.node) (hd : d.metric = t.leastMetric l root d.node)
    (hback : p.back = t.leastMetric l p.node root)
    (htoFar : p.toFar = t.leastMetric l p.node edge.target.node) {a : Alternate}
    (h : assessRemote t l f edge strict p d = .ok (some a)) :
    Onward t l root edge.target.node strict p.node p.path d a := by
  unfold assessRemote at h
  obtain ⟨metric, hmetric, h⟩ := except_bind_eq_ok.1 h
  cases distance_eq hp hmetric
  split at h <;> rename_i hloop
  · cases h
  rw [Bool.not_eq_true', decide_eq_false_iff_not, not_not, hback, hd] at hloop
  obtain ⟨hfin, havoids⟩ := leastMetric_lt_add_iff.1 hloop
  split at h <;> rename_i hstrict
  · cases h
  rw [Bool.and_eq_true, Bool.not_eq_true', decide_eq_false_iff_not, not_and_not_right, hd]
    at hstrict
  obtain ⟨nodeProtecting, hprotects, h⟩ := except_bind_eq_ok.1 h
  dsimp only at h
  split at h
  · cases h
  cases h
  obtain ⟨hnode, hdown⟩ :=
    ofRemote_kind nodeProtecting (decide (t.leastMetric l p.node d.node < d.metric))
  refine ⟨rfl, rfl, rfl, hfin, havoids, ?_, fun hkind => ?_⟩
  · rintro (hs | hkind)
    · exact hstrict hs
    · rw [← hd]
      simpa using hdown hkind
  · rw [hnode hkind] at hprotects
    exact remoteProtectsNode_eq_true hfar htoFar hprotects

/-- Assessing one remote node after the other finds alternates that are sound from there on, and
leaves the results of the root alone. -/
theorem assessRemotes_onward (hw : t.WellFormed) {ds : List Affected}
    (hds : ∀ d ∈ ds, d.metric = t.leastMetric l root d.node) {xs : List (NodeId × RepairPath)}
    (hxs : ∀ x ∈ xs, x.1 ≠ root) (hends : EndsKnown t l root edge.target.node w)
    {as : List Alternate} (h : assessRemotes t l root edge strict ds xs w = .ok as w') :
    (∀ a ∈ as, ∃ x ∈ xs, t.nodes.contains x.1 = true ∧
        ∃ d ∈ ds, Onward t l root edge.target.node strict x.1 x.2 d a) ∧
      (w.findings.get l).SameResults (w'.findings.get l) root := by
  induction xs generalizing w as with
  | nil =>
    obtain ⟨rfl, rfl⟩ := pure_eq_ok.1 h
    exact ⟨by simp, .refl _ root⟩
  | cons x xs ih =>
    obtain ⟨n, path⟩ := x
    obtain ⟨hn, hxs⟩ := List.forall_mem_cons.1 hxs
    unfold assessRemotes at h
    obtain ⟨rs, w₁, h₁, h⟩ := bind_eq_ok.1 h
    obtain ⟨f, w₂, h₂, h⟩ := bind_eq_ok.1 h
    obtain ⟨rfl, rfl⟩ := findings_eq_ok.1 h₂
    obtain ⟨near, w₃, h₃, h⟩ := bind_eq_ok.1 h
    obtain ⟨-, rfl⟩ := check_eq_ok.1 h₃
    obtain ⟨back, w₄, h₄, h⟩ := bind_eq_ok.1 h
    obtain ⟨hback, rfl⟩ := check_eq_ok.1 h₄
    obtain ⟨toFar, w₅, h₅, h⟩ := bind_eq_ok.1 h
    obtain ⟨htoFar, rfl⟩ := check_eq_ok.1 h₅
    obtain ⟨found, w₆, h₆, h⟩ := bind_eq_ok.1 h
    obtain ⟨rest, w₇, h₇, hrest⟩ := bind_eq_ok.1 h
    obtain ⟨rfl, rfl⟩ := pure_eq_ok.1 hrest
    obtain ⟨node, hvalid⟩ := Run.run_validate h₁
    have hcomputed := (Run.run_searched hw (by decide) h₁).1.computed
    have hends₁ := hends.computed hcomputed
    obtain ⟨hsame, -, hfound⟩ := collect_eq_ok h₆
    have hends₆ : EndsKnown t l root edge.target.node w₆ :=
      ⟨hsame ▸ hends₁.root, hsame ▸ hends₁.far⟩
    obtain ⟨hall, hroot⟩ := ih hxs hends₆ h₇
    rw [hsame] at hroot
    refine ⟨fun a ha => ?_, (hcomputed.others root (Ne.symm hn)).trans hroot⟩
    rcases List.mem_append.1 ha with ha | ha
    · obtain ⟨d, hd, ha⟩ := (hfound a).1 ha
      refine ⟨(n, path), List.mem_cons_self, ?_, d, hd, ?_⟩
      · rw [Table.contains, (Run.validate_eq_ok hvalid).1]
        rfl
      · exact assessRemote_onward hcomputed.knows hends₁.far (hds d hd)
          (distance_eq hcomputed.knows hback) (distance_eq hcomputed.knows htoFar) ha
    · obtain ⟨x, hx, hrest⟩ := hall a ha
      exact ⟨x, List.mem_cons_of_mem _ hx, hrest⟩

/-- Each alternate of a record is given by a member of the PQ-space for an affected destination. -/
theorem remote_onward (hw : t.WellFormed) (hedge : t.edges.get? e = some edge)
    {rec : RepairRecord} (h : remote t l root e strict w = .ok (some rec) w') {a : Alternate}
    (ha : a ∈ rec.alternates) :
    InOrder t root e l edge ∧ ∃ space w₁, commonSpace t l root e w = .ok space w₁ ∧
      ∃ n path, space[n]? = some path ∧ t.nodes.contains n = true ∧
        ∃ r ∈ (w'.findings.get l).destinations root, IsAffected root e r ∧
          Onward t l root edge.target.node strict n path (affectedOf e r) a := by
  unfold remote at h
  obtain ⟨edge', w₁, h₁, h⟩ := bind_eq_ok.1 h
  obtain ⟨rfl, rfl, horder⟩ := requireProtected_eq_ok hedge h₁
  split at h
  · cases (pure_eq_ok.1 h).1
  split at h
  · obtain ⟨_, w₂, -, h⟩ := bind_eq_ok.1 h
    cases (pure_eq_ok.1 h).1
  obtain ⟨space, w₂, h₂, h⟩ := bind_eq_ok.1 h
  obtain ⟨_, w₃, h₃, h⟩ := bind_eq_ok.1 h
  obtain ⟨f, w₄, h₄, h⟩ := bind_eq_ok.1 h
  obtain ⟨rfl, rfl⟩ := findings_eq_ok.1 h₄
  split at h
  · cases (pure_eq_ok.1 h).1
  obtain ⟨as, w₅, h₅, h⟩ := bind_eq_ok.1 h
  obtain ⟨hrec, rfl⟩ := pure_eq_ok.1 h
  obtain ⟨htunnels, hends⟩ := commonSpace_tunnels hw horder h₂
  have hemit := findings_of_emit h₃
  have hends₃ : EndsKnown t l root edge.target.node w₃ :=
    ⟨hemit ▸ hends.root, hemit ▸ hends.far⟩
  have hexact := hends₃.root.exact horder.root_forwards
  have hspace : ∀ x ∈ space.toList, space[x.1]? = some x.2 := fun x hx =>
    Std.TreeMap.mem_toList_iff_getElem?_eq_some.1 hx
  have hds : ∀ d ∈ affected root e (w₃.findings.get l),
      d.metric = t.leastMetric l root d.node := by
    intro d hd
    obtain ⟨r, hr, -, rfl⟩ := mem_affected.1 hd
    exact hexact.metric_eq r (hexact.mem_destinations.1 hr).1
  obtain ⟨hall, hsame⟩ := assessRemotes_onward hw hds
    (fun x hx => (htunnels x.1 x.2 (hspace x hx)).ne_root) hends₃ h₅
  have hmem : a ∈ alternatesOf (some rec) := ha
  rw [← hrec, alternatesOf_nonempty?] at hmem
  obtain ⟨x, hx, hn, d, hd, honward⟩ := hall a hmem
  obtain ⟨r, hr, hr', rfl⟩ := mem_affected.1 hd
  exact ⟨horder, space, w₂, h₂, x.1, x.2, hspace x hx, hn, r, hsame.2 ▸ hr, hr', honward⟩

/-! ## Soundness -/

/-- What makes a remote alternate for the failure of a protected edge safe. -/
structure SafeRepair (t : Topology) (l : Level) (root : NodeId) (e : EdgeId) (edge : Edge)
    (strict : Bool) (f : Findings) (a : Alternate) : Prop where
  /-- The destination is affected. -/
  affected : ∃ r ∈ f.destinations root, r.node = a.destination ∧ IsAffected root e r
  other_edge : a.nexthop.oif ≠ e
  /-- The remote node is a router that is not overloaded, and not the root. -/
  ne_root : a.node ≠ root
  router : t.nodes.contains a.node = true ∧ t.isPseudonode a.node l = false ∧
    t.isOverloaded a.node l = false
  /-- The next hop reaches the remote node, and no least walk there takes the protected edge. -/
  tunnel : t.leastMetric l a.nexthop.node a.node ≠ .infinite ∧
    ∀ as, LeastWalk t l a.nexthop.node as a.node → ∀ b ∈ as, b.id ≠ e
  /-- The remote node reaches the destination, and no least walk there comes by the root. -/
  release : t.leastMetric l a.node a.destination ≠ .infinite ∧
    Avoids t l a.node a.destination root
  downstream : strict = true ∨ a.kind = .remoteLinkDownstream →
    t.leastMetric l a.node a.destination < t.leastMetric l root a.destination
  /-- If the alternate protects the far end, no least walk of either leg comes by it. -/
  node_protecting : a.kind = .remoteLinkAndNode → a.destination ≠ edge.target.node ∧
    Avoids t l a.nexthop.node a.node edge.target.node ∧
      Avoids t l a.node a.destination edge.target.node
  /-- When the link fails, the least metrics of both legs stay as they are. -/
  survives : (t.setLinkStatus e false).leastMetric l a.nexthop.node a.node =
      t.leastMetric l a.nexthop.node a.node ∧
    (t.setLinkStatus e false).leastMetric l a.node a.destination =
      t.leastMetric l a.node a.destination

/-- A walk that takes an edge comes by both of its ends, so a least walk that avoids one of them
does not take it. -/
theorem not_takes_of_avoids (horder : InOrder t root e l edge) {x y z : NodeId}
    (hz : z = root ∨ z = edge.target.node) (havoids : Avoids t l x y z) {as : List Arc}
    (has : LeastWalk t l x as y) : ∀ b ∈ as, b.id ≠ e := by
  rintro b hb rfl
  have hstored := (has.walk.usable_of_mem hb).stored
  rw [horder.stored] at hstored
  have hedge : edge = b.edge := Option.some.inj hstored
  refine havoids as has ?_
  rcases hz with rfl | rfl
  · rw [← horder.source, hedge]
    exact has.walk.visits_source hb
  · rw [hedge]
    exact .inr ⟨b, hb, rfl⟩

theorem Tunnel.safeRepair (hw : t.WellFormed) (horder : InOrder t root e l edge) {n : NodeId}
    {path : RepairPath} {r : Result} {a : Alternate}
    (hpath : Tunnel t l root edge.target.node e n path) (hn : t.nodes.contains n = true)
    (hr : r ∈ f.destinations root) (hr' : IsAffected root e r)
    (ha : Onward t l root edge.target.node strict n path (affectedOf e r) a) :
    SafeRepair t l root e edge strict f a := by
  obtain ⟨rfl, hdest, hnexthop, hreaches, havoids, hdown, hprotects⟩ := ha
  have hroot : root = edge.source.node := horder.source.symm
  obtain ⟨z, hz, hfirst⟩ : ∃ z, (z = root ∨ z = edge.target.node) ∧
      Avoids t l a.nexthop.node a.node z := by
    rw [hnexthop]
    rcases hpath.avoids with h | h
    · exact ⟨root, .inl rfl, h⟩
    · exact ⟨edge.target.node, .inr rfl, h⟩
  have htunnel := hpath.reaches
  rw [← hnexthop] at htunnel
  change a.destination = r.node at hdest
  change t.leastMetric l a.node r.node ≠ .infinite at hreaches
  change Avoids t l a.node r.node root at havoids
  rw [← hdest] at hreaches havoids
  exact {
    affected := ⟨r, hr, hdest.symm, hr'⟩
    other_edge := hnexthop ▸ hpath.other_edge
    ne_root := hpath.ne_root
    router := ⟨hn, hpath.router, hpath.forwards⟩
    tunnel := ⟨htunnel, fun as has => not_takes_of_avoids horder hz hfirst has⟩
    release := ⟨hreaches, havoids⟩
    downstream := hdest ▸ hdown
    node_protecting := by
      intro hkind
      obtain ⟨hmark, hne, hlast⟩ := hprotects hkind
      rw [hdest, hnexthop]
      exact ⟨hne, hpath.avoids_far hmark, hlast⟩
    survives := ⟨leastMetric_setLinkStatus hw horder.stored (hroot ▸ hz) htunnel hfirst,
      leastMetric_setLinkStatus hw horder.stored (.inl hroot) hreaches havoids⟩ }

/-- **Remote alternates are sound.** In every topology that can be built, each alternate of a record
returned for a protected edge is safe. -/
theorem remote_sound (history : List Change) (l : Level) (root : NodeId) (e : EdgeId)
    (strict : Bool) {edge : Edge} (hedge : (after {} history).edges.get? e = some edge)
    {w w' : Workspace} {rec : RepairRecord}
    (h : remote (after {} history) l root e strict w = .ok (some rec) w') {a : Alternate}
    (ha : a ∈ rec.alternates) :
    SafeRepair (after {} history) l root e edge strict (w'.findings.get l) a := by
  have hw := wellFormed_after history
  obtain ⟨horder, space, w₁, hspace, n, path, hn, hmem, r, hr, hr', honward⟩ :=
    remote_onward hw hedge h ha
  exact ((commonSpace_tunnels hw horder hspace).1 n path hn).safeRepair hw horder hmem hr hr'
    honward

/-- In the ring the fourth router is a remote alternate of the first one for the third one, and it
protects the second one. -/
theorem remote_sound_pentagon : ∃ edge rec w',
    (after {} Run.pentagon).edges.get? ⟨0, 0⟩ = some edge ∧
      remote (after {} Run.pentagon) .l1 ⟨0, 0⟩ ⟨0, 0⟩ false {} = .ok (some rec) w' ∧
        ∃ a ∈ rec.alternates, a.node = ⟨3, 0⟩ ∧ a.destination = ⟨2, 0⟩ ∧
          a.kind = .remoteLinkAndNode ∧
            SafeRepair (after {} Run.pentagon) .l1 ⟨0, 0⟩ ⟨0, 0⟩ edge false
              (w'.findings.get .l1) a := by
  have hstored : ((after {} Run.pentagon).edges.get? ⟨0, 0⟩).isSome = true := by decide +kernel
  obtain ⟨edge, hedge⟩ := Option.isSome_iff_exists.1 hstored
  obtain ⟨found, w', h, hany⟩ := exists_of_yields
    (c := remote (after {} Run.pentagon) .l1 ⟨0, 0⟩ ⟨0, 0⟩ false) (w := {})
    (p := fun found => found.any fun rec => rec.alternates.any fun a =>
      a.node == ⟨3, 0⟩ && a.destination == ⟨2, 0⟩ && a.kind == .remoteLinkAndNode)
    (by decide +kernel)
  obtain ⟨rec, rfl, hany⟩ := Option.any_eq_true _ _ |>.1 hany
  obtain ⟨a, ha, hfields⟩ := List.any_eq_true.1 hany
  rw [Bool.and_eq_true, Bool.and_eq_true, beq_iff_eq, beq_iff_eq, beq_iff_eq] at hfields
  obtain ⟨⟨hnode, hdest⟩, hkind⟩ := hfields
  exact ⟨edge, rec, w', hedge, h, a, ha, hnode, hdest, hkind,
    remote_sound Run.pentagon .l1 ⟨0, 0⟩ ⟨0, 0⟩ false hedge h ha⟩

end LinkState.Repair
