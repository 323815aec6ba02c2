import LinkState.Proofs.ShortestPath.Runs

/-!
# Where next hops lead

The direct next hops of a node are those of the root's logical neighbours that are this node
(`mem_directNexthops`); none is missing if no more than `NexthopSet.width` of them are of one kind.

* `Derived.exists_neighbour`: every next hop that a search can derive is that of a logical
  neighbour, and a walk of the derived metric comes by that neighbour.
* `Traced`: in a plain topology (`Plain`) there is more to say. Each next hop stands for the start
  of a walk of the derived metric (`Leads`), and only a LAN attached to the root has none.
* `nexthops_of_run`: so each next hop stored by a run stands for the start of a least walk.
-/

namespace LinkState.Search

open LinkState.Topology

variable {t : Topology} {l : Level} {root : NodeId}

/-! ## Direct next hops -/

theorem get_foldl_insert (nbs : List LogicalNeighbour) (n : NodeId) (k : NexthopKind)
    (d : Nexthops) :
    (nbs.foldl (fun d nb =>
        if nb.node = n then d.insert nb.out.edge.nexthopKind nb.nexthop else d) d).get k =
      (d.get k).insertAll ((nbs.filter fun nb =>
        nb.node == n && nb.out.edge.nexthopKind == k).map (·.nexthop)) := by
  induction nbs generalizing d with
  | nil => rfl
  | cons nb nbs ih =>
    rw [List.foldl_cons, ih, List.filter_cons]
    by_cases hn : nb.node = n
    · by_cases hk : nb.out.edge.nexthopKind = k
      · simp [hn, hk, Nexthops.get_insert, NexthopSet.insertAll]
      · simp [hn, hk, Nexthops.get_insert]
    · simp [hn]

theorem get_directNexthops (n : NodeId) (k : NexthopKind) :
    (directNexthops t l root n).get k = .ofList (((t.logicalNeighbours root l).filter fun nb =>
      nb.node == n && nb.out.edge.nexthopKind == k).map (·.nexthop)) := by
  rw [directNexthops, get_foldl_insert, NexthopSet.ofList]
  cases k <;> rfl

theorem mem_directNexthops {n : NodeId} {k : NexthopKind} {h : Nexthop}
    (hmem : h ∈ ((directNexthops t l root n).get k).members) :
    ∃ nb ∈ t.logicalNeighbours root l,
      nb.node = n ∧ nb.out.edge.nexthopKind = k ∧ nb.nexthop = h := by
  rw [get_directNexthops] at hmem
  obtain hempty | hmem := NexthopSet.mem_insertAll hmem
  · cases hempty
  obtain ⟨nb, hnb, rfl⟩ := List.mem_map.1 hmem
  obtain ⟨hnb, hboth⟩ := List.mem_filter.1 hnb
  rw [Bool.and_eq_true, beq_iff_eq, beq_iff_eq] at hboth
  exact ⟨nb, hnb, hboth.1, hboth.2, rfl⟩

/-- If there is room for all, a logical neighbour has its next hop among the direct ones. -/
theorem nexthop_mem_directNexthops {nb : LogicalNeighbour} (hnb : nb ∈ t.logicalNeighbours root l)
    (hroom : ((t.logicalNeighbours root l).filter fun nb' => nb'.node == nb.node &&
      nb'.out.edge.nexthopKind == nb.out.edge.nexthopKind).length ≤ NexthopSet.width) :
    nb.nexthop ∈ ((directNexthops t l root nb.node).get nb.out.edge.nexthopKind).members := by
  rw [get_directNexthops, NexthopSet.mem_ofList_iff (by rwa [List.length_map])]
  exact List.mem_map_of_mem (List.mem_filter.2 ⟨hnb, by simp⟩)

/-! ## Next hops in general -/

/-- Where an edge brings next hops, either they are those of its near end, or the near end has none
and they are direct ones of its far end. -/
theorem mem_contribution {node : NodeId} {nexthops : Nexthops} {a : Arc} {far : Label}
    {k : NexthopKind} {h : Nexthop}
    (hmem : h ∈ ((t.contribution l node nexthops a far).get k).members) :
    h ∈ (nexthops.get k).members ∨ nexthops.isEmpty = true ∧
      t.isPseudonode a.edge.target.node l = false ∧ h ∈ (far.direct.get k).members ∧
        (h.oif = a.id ∨ ∃ edge, t.edges.get? h.oif = some edge ∧ edge.target.node = node) := by
  unfold contribution at hmem
  split at hmem
  · exact .inl hmem
  rename_i hempty
  split at hmem
  · exact absurd hmem (Nexthops.not_mem_empty k h)
  rename_i hpseudo
  obtain ⟨hdirect, hpath⟩ := Nexthops.mem_filter.1 hmem
  rw [Bool.or_eq_true, beq_iff_eq, Option.any_eq_true] at hpath
  simp only [beq_iff_eq] at hpath
  exact .inr ⟨by simpa using hempty, Bool.eq_false_iff.2 hpseudo, hdirect, hpath⟩

/-- From a node without next hops a direct one of a router is taken, if it passes over the edge or
over the LAN that the edge leaves. -/
theorem direct_mem_contribution {node : NodeId} {nexthops : Nexthops} {a : Arc} {far : Label}
    {k : NexthopKind} {h : Nexthop} (hempty : nexthops.isEmpty = true)
    (router : t.isPseudonode a.edge.target.node l = false)
    (hdirect : h ∈ (far.direct.get k).members)
    (hpath : h.oif = a.id ∨ ∃ edge, t.edges.get? h.oif = some edge ∧ edge.target.node = node) :
    h ∈ ((t.contribution l node nexthops a far).get k).members := by
  unfold contribution
  rw [if_neg (by simp [hempty]), if_neg (by simp [router])]
  refine Nexthops.mem_filter.2 ⟨hdirect, ?_⟩
  rw [Bool.or_eq_true, beq_iff_eq, Option.any_eq_true]
  simpa only [beq_iff_eq] using hpath

/-- **Every next hop that can be derived is that of a logical neighbour**, and a walk of the derived
metric comes by that neighbour. -/
theorem Derived.exists_neighbour {n : NodeId} {m : Metric} {nexthops : Nexthops}
    (hder : Derived t l root n m nexthops) {k : NexthopKind} {h : Nexthop}
    (hmem : h ∈ (nexthops.get k).members) :
    (∃ nb ∈ t.logicalNeighbours root l, nb.out.edge.nexthopKind = k ∧ nb.nexthop = h) ∧
      ∃ as, Walk t l root as n ∧ cost l as = m.toNat ∧ Visits root as h.node := by
  induction hder with
  | root => exact absurd hmem (Nexthops.not_mem_empty k h)
  | @step a m nexthops far hder usable ne_root direct finite ih =>
    obtain hmem | ⟨-, -, hdirect, -⟩ := mem_contribution hmem
    · obtain ⟨hnb, as, hwalk, hcost, hvisits⟩ := ih hmem
      refine ⟨hnb, as ++ [a], hwalk.append (.single usable), ?_, hvisits.append_left _⟩
      have := Metric.toNat_add_of_ne_infinite finite
      simp only [cost_append, cost, hcost]
      omega
    · rw [direct] at hdirect
      obtain ⟨nb, hnb, hnode, hkind, rfl⟩ := mem_directNexthops hdirect
      obtain ⟨-, as, hwalk, hcost⟩ :=
        (Derived.step far hder usable ne_root direct finite).exists_walk
      refine ⟨⟨nb, hnb, hkind, rfl⟩, as, hwalk, hcost, ?_⟩
      change Visits root as nb.node
      exact hnode ▸ hwalk.visits_end
  | merge hder hder' ih ih' =>
    rcases Nexthops.mem_get_extend_cases hmem with hmem | hmem
    · exact ih hmem
    · exact ih' hmem

/-! ## Next hops in a plain topology -/

/-- A topology in which the next hops of a root are not ambiguous: no edge joins two LANs, the root
has one edge to a LAN at most, and there is room for all its direct next hops. -/
structure Plain (t : Topology) (l : Level) (root : NodeId) : Prop where
  no_lan_to_lan : ∀ a : Arc, t.edges.get? a.id = some a.edge → a.edge.isActive l = true →
    t.isPseudonode a.edge.source.node l = true → t.isPseudonode a.edge.target.node l = false
  one_edge : ∀ a ∈ t.activeArcs root l, ∀ b ∈ t.activeArcs root l,
    a.edge.target.node = b.edge.target.node → t.isPseudonode a.edge.target.node l = true →
      a.id = b.id
  room : ∀ n k, ((t.logicalNeighbours root l).filter fun nb =>
    nb.node == n && nb.out.edge.nexthopKind == k).length ≤ NexthopSet.width

/-- A next hop of a kind stands for the start of a walk: the walk leaves over the outgoing edge, an
active edge of the root of that kind, and then is at the neighbour. -/
inductive Leads (t : Topology) (l : Level) (root : NodeId) (k : NexthopKind) (h : Nexthop) :
    List Arc → Prop
  /-- The edge leads to the neighbour. -/
  | direct {a : Arc} {as : List Arc} (active : a ∈ t.activeArcs root l) (id : a.id = h.oif)
      (kind : a.edge.nexthopKind = k) (node : a.edge.target.node = h.node)
      (gateway : h.gateway = a.edge.gateway) : Leads t l root k h (a :: as)
  /-- The edge leads to a LAN, and the second edge from there to the neighbour. -/
  | lan {a b : Arc} {as : List Arc} (active : a ∈ t.activeArcs root l) (id : a.id = h.oif)
      (kind : a.edge.nexthopKind = k) (pseudonode : t.isPseudonode a.edge.target.node l = true)
      (node : b.edge.target.node = h.node)
      (gateway : ∃ c ∈ t.activeArcs a.edge.target.node l,
        c.edge.target.node = h.node ∧ h.gateway = c.edge.gateway) :
    Leads t l root k h (a :: b :: as)

theorem Leads.append {k : NexthopKind} {h : Nexthop} {as : List Arc} (hl : Leads t l root k h as)
    (bs : List Arc) : Leads t l root k h (as ++ bs) := by
  cases hl with
  | direct active id kind node gateway => exact .direct active id kind node gateway
  | lan active id kind pseudonode node gateway =>
    exact .lan active id kind pseudonode node gateway

/-- What holds of the next hops that a search gives a node: the root has none, each one stands for
the start of a walk, and another node without any is a LAN attached to the root. -/
structure Traced (t : Topology) (l : Level) (root n : NodeId) (m : Metric)
    (nexthops : Nexthops) : Prop where
  root_empty : n = root → m = 0 ∧ nexthops.isEmpty = true
  leads : ∀ k, ∀ h ∈ (nexthops.get k).members,
    ∃ as, Walk t l root as n ∧ cost l as = m.toNat ∧ Leads t l root k h as
  attached : n ≠ root → nexthops.isEmpty = true → t.isPseudonode n l = true ∧
    ∃ a, Usable t l a ∧ a.edge.source.node = root ∧ a.edge.target.node = n ∧ a.edge.cost l = m

theorem arc_eq {a b : Arc} (ha : t.edges.get? a.id = some a.edge)
    (hb : t.edges.get? b.id = some b.edge) (hid : a.id = b.id) : a = b := by
  obtain ⟨i, e⟩ := a
  obtain ⟨j, e'⟩ := b
  dsimp only at ha hb hid
  subst hid
  rw [ha] at hb
  cases hb
  rfl

theorem mem_activeArcs_of_usable [t.Listed] {a : Arc} (h : Usable t l a) :
    a ∈ t.activeArcs a.edge.source.node l :=
  (mem_activeArcs t).2 ⟨h.stored, rfl, h.active⟩

section

variable {a : Arc} {m : Metric} {nexthops : Nexthops}
  (h : Traced t l root a.edge.source.node m nexthops) (hempty : nexthops.isEmpty = true)
  (usable : Usable t l a) (ne_root : a.edge.target.node ≠ root)
  (router : t.isPseudonode a.edge.target.node l = false)
include h hempty usable ne_root router

/-- Where an edge leads from a node without next hops to a router, a direct next hop of that router
which passes over the edge, or over the LAN that it leaves, stands for the start of a walk. -/
theorem Traced.leads_direct [t.Listed] (hplain : Plain t l root) {nb : LogicalNeighbour}
    (hnb : nb ∈ t.logicalNeighbours root l) (hnode : nb.node = a.edge.target.node)
    (hpath : nb.out.id = a.id ∨
      ∃ edge, t.edges.get? nb.out.id = some edge ∧ edge.target.node = a.edge.source.node) :
    ∃ as, Walk t l root as a.edge.target.node ∧ cost l as = m.toNat + (a.edge.cost l).toNat ∧
      Leads t l root nb.out.edge.nexthopKind nb.nexthop as := by
  obtain ⟨hout, hend⟩ := (mem_logicalNeighbours t).1 hnb
  obtain ⟨hstored, hsource, hactive⟩ := (mem_activeArcs t).1 hout
  rcases hpath with hid | ⟨edge, hedge, htarget⟩
  · -- the edge leaves the root, and there is no LAN between
    have e := arc_eq hstored usable.stored hid
    have hroot : a.edge.source.node = root := e ▸ hsource
    obtain ⟨rfl, -⟩ := h.root_empty hroot
    rcases hend with ⟨-, hlan, hfar⟩ | ⟨hpseudo, -⟩
    · refine ⟨[a], hroot ▸ .single usable, by simp [cost], ?_⟩
      refine .direct (hroot ▸ mem_activeArcs_of_usable usable) hid.symm (by rw [e]) hnode.symm ?_
      simp [LogicalNeighbour.nexthop, hlan, e]
    · rw [e, router] at hpseudo
      cases hpseudo
  · rw [hstored] at hedge
    cases hedge
    have hs : a.edge.source.node ≠ root := by
      -- a loop at the root leads to no neighbour
      intro hs
      rcases hend with ⟨-, -, hfar⟩ | ⟨hpseudo, -⟩
      · exact ne_root (by rw [← hnode, hfar, htarget, hs])
      · have hloop : nb.out.edge.source.node = nb.out.edge.target.node := by
          rw [hsource, htarget, hs]
        have := hplain.no_lan_to_lan nb.out hstored hactive (hloop ▸ hpseudo)
        rw [this] at hpseudo
        cases hpseudo
    obtain ⟨hpseudo, b, hb, hbs, hbt, rfl⟩ := h.attached hs hempty
    have hba : b ∈ t.activeArcs root l := hbs ▸ mem_activeArcs_of_usable hb
    have e := arc_eq hstored hb.stored (hplain.one_edge nb.out hout b hba
      (htarget.trans hbt.symm) (htarget ▸ hpseudo))
    rcases hend with ⟨hrouter, -⟩ | ⟨-, c, hc, hlan, -, hfar⟩
    · rw [htarget, hpseudo] at hrouter
      cases hrouter
    · refine ⟨[b, a], .cons hb hbs (hbt ▸ .single usable), by simp [cost], ?_⟩
      refine .lan hba (by rw [← e]; rfl) (by rw [e]) (hbt ▸ hpseudo) hnode.symm
        ⟨c, e ▸ hc, hfar.symm, ?_⟩
      simp [LogicalNeighbour.nexthop, hlan]

/-- Where an edge leads from a node without next hops to a router, some direct next hop of that
router passes over the edge or over the LAN that it leaves. -/
theorem Traced.exists_direct [t.Listed] : ∃ nb ∈ t.logicalNeighbours root l,
    nb.node = a.edge.target.node ∧ (nb.out.id = a.id ∨
      ∃ edge, t.edges.get? nb.out.id = some edge ∧ edge.target.node = a.edge.source.node) := by
  by_cases hs : a.edge.source.node = root
  · refine ⟨⟨a.edge.target.node, a, none⟩, (mem_logicalNeighbours t).2 ?_, rfl, .inl rfl⟩
    exact ⟨hs ▸ mem_activeArcs_of_usable usable, .inl ⟨router, rfl, rfl⟩⟩
  · obtain ⟨hpseudo, b, hb, hbs, hbt, -⟩ := h.attached hs hempty
    refine ⟨⟨a.edge.target.node, b, some a⟩, (mem_logicalNeighbours t).2 ?_, rfl,
      .inr ⟨b.edge, hb.stored, hbt⟩⟩
    exact ⟨hbs ▸ mem_activeArcs_of_usable hb, .inr ⟨hbt ▸ hpseudo, a,
      hbt ▸ mem_activeArcs_of_usable usable, rfl, ne_root, rfl⟩⟩

end

/-- Relaxing an edge leads from next hops that are traced to such. -/
theorem Traced.step [t.Listed] (hplain : Plain t l root) {a : Arc} {m : Metric}
    {nexthops : Nexthops} {far : Label} (h : Traced t l root a.edge.source.node m nexthops)
    (usable : Usable t l a)
    (ne_root : a.edge.target.node ≠ root)
    (direct : far.direct = directNexthops t l root a.edge.target.node)
    (finite : m + a.edge.cost l ≠ .infinite) :
    Traced t l root a.edge.target.node (m + a.edge.cost l)
      (t.contribution l a.edge.source.node nexthops a far) := by
  have hsum := Metric.toNat_add_of_ne_infinite finite
  refine ⟨fun e => absurd e ne_root, fun k x hmem => ?_, fun _ hempty => ?_⟩
  · rw [hsum]
    obtain hmem | ⟨hempty, router, hdirect, hpath⟩ := mem_contribution hmem
    · obtain ⟨as, hwalk, hcost, hleads⟩ := h.leads k x hmem
      refine ⟨as ++ [a], hwalk.append (.single usable), ?_, hleads.append _⟩
      simp [cost_append, cost, hcost]
    · rw [direct] at hdirect
      obtain ⟨nb, hnb, hnode, rfl, rfl⟩ := mem_directNexthops hdirect
      exact h.leads_direct hempty usable ne_root router hplain hnb hnode hpath
  · cases hnear : nexthops.isEmpty with
    | false =>
      rw [Topology.contribution, hnear] at hempty
      simp [hnear] at hempty
    | true =>
      cases hrouter : t.isPseudonode a.edge.target.node l with
      | false =>
        obtain ⟨nb, hnb, hnode, hpath⟩ := h.exists_direct hnear usable ne_root hrouter
        have hdirect := nexthop_mem_directNexthops hnb (hplain.room _ _)
        rw [hnode, ← direct] at hdirect
        have hmem := direct_mem_contribution hnear hrouter hdirect hpath
        exact absurd hmem (Nexthops.isEmpty_iff.1 hempty _ _)
      | true =>
        have hs : a.edge.source.node = root := by
          by_contra hs
          have := hplain.no_lan_to_lan a usable.stored usable.active (h.attached hs hnear).1
          rw [hrouter] at this
          cases this
        obtain ⟨rfl, -⟩ := h.root_empty hs
        refine ⟨rfl, a, usable, hs, rfl, Metric.toNat_inj.1 ?_⟩
        rw [hsum, Metric.toNat_zero, Nat.zero_add]

/-- Paths of one metric share their next hops. -/
theorem Traced.merge {n : NodeId} {m : Metric} {nexthops nexthops' : Nexthops}
    (h : Traced t l root n m nexthops) (h' : Traced t l root n m nexthops') :
    Traced t l root n m (nexthops.extend nexthops') := by
  refine ⟨fun e => ⟨(h.root_empty e).1, Nexthops.isEmpty_iff.2 fun k x hmem => ?_⟩,
    fun k x hmem => ?_,
    fun hne hempty => h.attached hne (Nexthops.isEmpty_iff.2 fun k x hmem => ?_)⟩
  · rcases Nexthops.mem_get_extend_cases hmem with hmem | hmem
    · exact Nexthops.isEmpty_iff.1 (h.root_empty e).2 k x hmem
    · exact Nexthops.isEmpty_iff.1 (h'.root_empty e).2 k x hmem
  · rcases Nexthops.mem_get_extend_cases hmem with hmem | hmem
    · exact h.leads k x hmem
    · exact h'.leads k x hmem
  · refine Nexthops.isEmpty_iff.1 hempty k x ?_
    rw [Nexthops.get_extend]
    exact NexthopSet.mem_insertAll_of_mem _ hmem

/-- **What can be derived in a plain topology is traced.** -/
theorem Derived.traced [t.Listed] (hplain : Plain t l root) {n : NodeId} {m : Metric}
    {nexthops : Nexthops} (hder : Derived t l root n m nexthops) :
    Traced t l root n m nexthops := by
  induction hder with
  | root =>
    exact ⟨fun _ => ⟨rfl, rfl⟩, fun k h hmem => absurd hmem (Nexthops.not_mem_empty k h),
      fun hne => absurd rfl hne⟩
  | step far _ usable ne_root direct finite ih => exact ih.step hplain usable ne_root direct finite
  | merge _ _ ih ih' => exact ih.merge ih'

end LinkState.Search

namespace LinkState.Run

open LinkState.Topology

/-- **Next hops are sound.** After a run in a plain topology, each next hop stored for a node stands
for the start of a least walk to that node. The next hops of a kind are distinct, and there are at
most `NexthopSet.width` of them. -/
theorem nexthops_of_run (history : List Change) (l : Level) (root : NodeId) {kind : RunKind}
    (hkind : kind = .full ∨ kind = .forward)
    (hplain : Search.Plain (after {} history) l root) {w w' : Workspace} {rs : List Result}
    (hrun : run (after {} history) root l kind w = .ok rs w') {r : Result}
    (hr : r ∈ rs ∨ (w'.findings.get l).result? root r.node = some r) (k : NexthopKind) :
    (∀ h ∈ (r.nexthops.get k).members, ∃ as, LeastWalk (after {} history) l root as r.node ∧
        Search.Leads (after {} history) l root k h as) ∧
      (r.nexthops.get k).members.Nodup ∧
      (r.nexthops.get k).members.length ≤ NexthopSet.width := by
  have hsearch : kind ≠ .partialRoutes := by
    rcases hkind with rfl | rfl <;> decide
  obtain ⟨⟨hexact, -⟩, rfl⟩ := run_searched (wellFormed_after history) hsearch hrun
  have hmem : r ∈ ((w'.findings.get l).roots.read root).settled := by
    rcases hr with hr | hr
    · exact (hexact.mem_destinations.1 hr).1
    · exact (hexact.result?_eq_some_iff.1 hr).1
  refine ⟨fun h hh => ?_, (r.nexthops.get k).nodup, (r.nexthops.get k).length_le⟩
  obtain ⟨as, hwalk, hcost, hleads⟩ := ((hexact.derived r hmem).traced hplain).leads k h hh
  refine ⟨as, hwalk.leastWalk ?_, hleads⟩
  rw [hcost, hexact.metric_eq r hmem]

/-- Three routers on a LAN, the second and the third also joined by a link. -/
def lan : List Change :=
  (["a", "b", "c"].map fun name => .addRouter name 0 .all) ++ [.addPseudonode "p" .all] ++
    [0, 1, 2].map (fun i => .addLanLink ⟨⟨i, 0⟩, "lan", none⟩ ⟨3, 0⟩ (.saturate 1) .all) ++
    [.addLink ⟨⟨1, 0⟩, "toc", none⟩ ⟨⟨2, 0⟩, "tob", none⟩ (.saturate 1) .all]

theorem nexthops_of_run_lan : Search.Plain (after {} lan) .l1 ⟨0, 0⟩ ∧ ∃ rs w',
    run (after {} lan) ⟨0, 0⟩ .l1 .full {} = .ok rs w' ∧
      rs.map (fun r => r.nexthops.ip.members.map (·.node.position)) = [[], [1], [2]] ∧
        ∀ r ∈ rs, ∀ k, (∀ h ∈ (r.nexthops.get k).members,
            ∃ as, LeastWalk (after {} lan) .l1 ⟨0, 0⟩ as r.node ∧
              Search.Leads (after {} lan) .l1 ⟨0, 0⟩ k h as) ∧
          (r.nexthops.get k).members.Nodup ∧
            (r.nexthops.get k).members.length ≤ NexthopSet.width := by
  have hplain : Search.Plain (after {} lan) .l1 ⟨0, 0⟩ := by
    have hlans : ∀ a ∈ (after {} lan).arcs, a.edge.isActive .l1 = true →
        (after {} lan).isPseudonode a.edge.source.node .l1 = true →
          (after {} lan).isPseudonode a.edge.target.node .l1 = false := by decide +kernel
    refine ⟨fun a ha => hlans a (mem_arcs.2 ha), by decide +kernel, fun n k => ?_⟩
    exact (List.length_filter_le ..).trans (by decide +kernel)
  obtain ⟨rs, w', hrun, hrs⟩ := Compute.exists_of_yields
    (c := run (after {} lan) ⟨0, 0⟩ .l1 .full) (w := {})
    (p := fun rs => rs.map (fun r => r.nexthops.ip.members.map (·.node.position)) == [[], [1], [2]])
    (by decide +kernel)
  exact ⟨hplain, rs, w', hrun, by simpa using hrs, fun r hr =>
    nexthops_of_run lan .l1 ⟨0, 0⟩ (.inl rfl) hplain hrun (.inl hr)⟩

end LinkState.Run
