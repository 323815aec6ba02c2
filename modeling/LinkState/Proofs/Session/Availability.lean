import LinkState.Proofs.Computation
import LinkState.Proofs.Repair.Adjacency

/-!
# Where backups can always be computed

A computation of backups makes many runs and asks for many distances, and each of them may be
refused: a run if its root does not take part in the level or is overloaded, a distance if it is one
between two pseudo-nodes. Here it is shown where nothing is refused.

* `InService` is what is asked of the level around a root: the nodes joined to the root take part in
  the level, LANs are not joined to each other, and no pseudo-node is overloaded. Overloaded
  routers, one-way edges and tunnels do no harm.
* Every node of which a distance is asked is then joined to the root, and one of the two is a router
  (`passes_distance_from`, `passes_distance_to`), since neighbours, destinations and members of
  repair spaces are routers.
* Overloaded routers are passed over before every run, and overloaded pseudo-nodes do not occur, so
  no run is refused, on the inverted topology neither (`InService.forward`).
-/

namespace LinkState

open LinkState.Topology Compute Repair

variable {α β : Type} {t : Topology} {l : Level} {root n x y : NodeId} {e : EdgeId} {edge : Edge}
  {strict : Bool} {f : Findings} {w w' : Workspace}

/-! ## Levels in service -/

namespace Topology

/-- A level at which all nodes joined to a root can be worked with: they take part in the level, no
edge joins two pseudo-nodes, and no pseudo-node is overloaded. -/
structure InService (t : Topology) (l : Level) (root : NodeId) : Prop where
  participates : ∀ n node, Joined t l root n → t.nodes.get? n = some node →
    node.levelType.includes l = true
  lans_apart : ∀ a ∈ t.arcs, a.edge.isActive l = true →
    t.isPseudonode a.edge.source.node l = true → t.isPseudonode a.edge.target.node l = false
  lans_forward : ∀ n, Joined t l root n → t.isPseudonode n l = true → t.isOverloaded n l = false

theorem inService_of_entries
    (hlevel : ∀ entry ∈ t.nodes.entries, entry.2.levelType.includes l = true)
    (hlans : ∀ a ∈ t.arcs, a.edge.isActive l = true →
      t.isPseudonode a.edge.source.node l = true → t.isPseudonode a.edge.target.node l = false)
    (hforward : ∀ entry ∈ t.nodes.entries, entry.2.isPseudonode l = true →
      entry.2.isOverloaded l = false) (root : NodeId) : InService t l root where
  participates n node _ hnode := hlevel (n, node) (Table.mem_entries.2 hnode)
  lans_apart := hlans
  lans_forward n _ hlan := by
    unfold isPseudonode at hlan
    unfold isOverloaded
    cases hnode : t.nodes.get? n with
    | none => rfl
    | some node =>
      rw [hnode] at hlan
      exact hforward (n, node) (Table.mem_entries.2 hnode) hlan

/-- A router joined to the root. -/
structure JoinedRouter (t : Topology) (l : Level) (root n : NodeId) : Prop where
  joined : Joined t l root n
  router : t.isPseudonode n l = false

theorem Walk.joined [t.Listed] {as : List Arc} (h : Walk t l x as y) : Joined t l x y := by
  induction h with
  | nil => exact .refl
  | cons usable leaves _ ih => exact .head (leaves ▸ Search.adjacent_of_usable usable) ih

theorem joined_of_leastMetric [t.Listed] (h : t.leastMetric l x y ≠ .infinite) :
    Joined t l x y := by
  obtain ⟨as, hwalk, -⟩ := exists_walk h
  exact hwalk.joined

/-- What a node joined to the root reaches is joined to the root. -/
theorem JoinedRouter.of_destination [t.Listed] (hx : Joined t l root x) (hf : f.Exact t l x)
    {r : Result} (hr : r ∈ f.destinations x) : JoinedRouter t l root r.node := by
  obtain ⟨hmem, hrouter⟩ := hf.mem_destinations.1 hr
  obtain ⟨-, as, hwalk, -⟩ := (hf.derived r hmem).exists_walk
  exact ⟨hx.trans hwalk.joined, hrouter⟩

/-- Logical neighbours are routers where LANs are not joined to each other. -/
theorem InService.neighbour [t.Listed] (hs : InService t l root) {nb : LogicalNeighbour}
    (hnb : nb ∈ t.logicalNeighbours root l) : JoinedRouter t l root nb.node := by
  refine ⟨joined_of_mem_logicalNeighbours hnb, ?_⟩
  obtain ⟨-, ⟨hrouter, -, hnode⟩ | ⟨hlan, c, hc, -, -, hnode⟩⟩ := (mem_logicalNeighbours t).1 hnb
  · exact hnode ▸ hrouter
  · obtain ⟨hstored, hsource, hactive⟩ := (mem_activeArcs t).1 hc
    exact hnode ▸ hs.lans_apart c (mem_arcs.2 hstored) hactive (hsource ▸ hlan)

end Topology

/-! ## Checks that are passed -/

/-- A check that is passed. -/
def Passes (r : Except Error α) : Prop := ∃ a, r = .ok a

namespace Passes

theorem ok (a : α) : Passes (.ok a) := ⟨a, rfl⟩

theorem bind {r : Except Error α} {k : α → Except Error β} (hr : Passes r)
    (hk : ∀ a, r = .ok a → Passes (k a)) : Passes (r >>= k) := by
  obtain ⟨a, rfl⟩ := hr
  exact hk a rfl

theorem foldlM {σ : Type} {step : σ → α → Except Error σ} {as : List α}
    (hstep : ∀ a ∈ as, ∀ s, Passes (step s a)) (s : σ) : Passes (as.foldlM step s) := by
  induction as generalizing s with
  | nil => exact .ok s
  | cons a as ih =>
    obtain ⟨ha, has⟩ := List.forall_mem_cons.1 hstep
    rw [List.foldlM_cons]
    exact (ha s).bind fun s _ => ih has s

end Passes

section

variable (hw : t.WellFormed) (hmem : t.nodes.contains root = true)
include hw hmem

theorem passes_distance_from (hx : JoinedRouter t l root x) (hy : Joined t l root y) :
    Passes (distance t l f x y) :=
  exists_distance (hx.joined.contains hw hmem) (hy.contains hw hmem) fun _ h => by
    rw [hx.router] at h
    cases h

theorem passes_distance_to (hx : Joined t l root x) (hy : JoinedRouter t l root y) :
    Passes (distance t l f x y) :=
  exists_distance (hx.contains hw hmem) (hy.joined.contains hw hmem) fun _ _ => hy.router

/-! ## Loop-free alternates -/

theorem passes_protectsNode {d : NodeId} {metric : Metric} {ps : List NodeId}
    (hn : JoinedRouter t l root n) (hd : JoinedRouter t l root d)
    (hps : ∀ p ∈ ps, Joined t l root p) : Passes (protectsNode t l f n d metric ps) := by
  induction ps with
  | nil => exact .ok true
  | cons p ps ih =>
    obtain ⟨hp, hps⟩ := List.forall_mem_cons.1 hps
    unfold protectsNode
    split
    · exact .ok false
    refine (passes_distance_from hw hmem hn hp).bind fun there _ =>
      (passes_distance_to hw hmem hp hd).bind fun onward _ => ?_
    split
    · exact ih hps
    · exact .ok false

theorem passes_avoidsLan {lan d : NodeId} {c : Nexthop} {metric : Metric}
    (hc : JoinedRouter t l root c.node) (hlan : Joined t l root lan)
    (hd : JoinedRouter t l root d) : Passes (avoidsLan t l f e lan d c metric) := by
  unfold avoidsLan
  split
  · exact .ok false
  · exact (passes_distance_from hw hmem hc hlan).bind fun _ _ =>
      (passes_distance_to hw hmem hlan hd).bind fun _ _ => .ok _

/-- An affected destination that can be assessed. -/
structure Assessable (t : Topology) (l : Level) (root : NodeId) (d : Affected) : Prop where
  node : JoinedRouter t l root d.node
  primaries : ∀ p ∈ d.primaries, Joined t l root p

theorem passes_assessLocal {d : Affected} {c : Nexthop} (hroot : JoinedRouter t l root root)
    (hfar : Joined t l root edge.target.node) (hd : Assessable t l root d)
    (hc : JoinedRouter t l root c.node) :
    Passes (assessLocal t l f root e edge strict d c) := by
  have hkind : ∀ metric, Passes (localKind? t l f e edge d c metric) := by
    intro metric
    rw [localKind?_eq]
    refine Passes.bind ?_ fun nodeProtecting _ => ?_
    · split
      · exact passes_protectsNode hw hmem hc hd.node hd.primaries
      · exact .ok false
    · split
      · exact (passes_avoidsLan hw hmem hc hfar hd.node).bind fun _ _ => .ok _
      · exact .ok _
  unfold assessLocal
  refine (passes_distance_from hw hmem hroot hc.joined).bind fun near _ => ?_
  split
  · exact .ok none
  refine (passes_distance_from hw hmem hc hd.node.joined).bind fun metric _ =>
    (passes_distance_from hw hmem hc hroot.joined).bind fun back _ => ?_
  split
  · exact .ok none
  split
  · exact .ok none
  refine (hkind metric).bind fun kind _ => ?_
  cases kind with
  | none => exact .ok none
  | some kind =>
    dsimp only
    split <;> exact .ok _

/-! ## Repair spaces -/

theorem passes_nearMembers (hroot : JoinedRouter t l root root)
    (hfar : Joined t l root edge.target.node)
    (hdest : ∀ r ∈ f.destinations root, JoinedRouter t l root r.node) :
    Passes (nearMembers t l f root e edge) := by
  refine (passes_distance_from hw hmem hroot hfar).bind fun toFar _ =>
    Passes.foldlM (fun r hr space => ?_) ∅
  unfold addNear
  split
  · refine (passes_distance_to hw hmem hfar (hdest r hr)).bind fun onward _ => ?_
    split
    · split <;> exact .ok _
    · exact .ok _
  · exact .ok _

theorem passes_helpers {far : NodeId} {toFar : Metric} {nbs : List LogicalNeighbour}
    (hroot : JoinedRouter t l root root) (hfar : Joined t l root far)
    (hnbs : ∀ nb ∈ nbs, JoinedRouter t l root nb.node) :
    Passes (helpers t l f root e far toFar nbs) := by
  induction nbs with
  | nil => exact .ok []
  | cons nb nbs ih =>
    obtain ⟨hnb, hnbs⟩ := List.forall_mem_cons.1 hnbs
    unfold helpers
    refine Passes.bind ?_ fun useful _ => (ih hnbs).bind fun rest _ => .ok _
    unfold helps
    split
    · exact .ok false
    · exact (passes_distance_from hw hmem hroot hnb.joined).bind fun _ _ =>
        (passes_distance_to hw hmem hfar hnb).bind fun _ _ => .ok _

theorem passes_addThrough {far : NodeId} {nexthop : Nexthop} {toRoot toFar : Metric} {r : Result}
    {space : RepairSpace} (hroot : JoinedRouter t l root root) (hfar : Joined t l root far)
    (hr : JoinedRouter t l root r.node) :
    Passes (addThrough t l f root far nexthop toRoot toFar space r) := by
  unfold addThrough
  split
  · refine (passes_distance_from hw hmem hroot hr.joined).bind fun _ _ => ?_
    split
    · exact (passes_distance_to hw hmem hfar hr).bind fun _ _ => .ok _
    · exact .ok _
  · exact .ok _

theorem passes_assessRemote {p : RemoteNode} {d : Affected} (hp : Joined t l root p.node)
    (hfar : Joined t l root edge.target.node) (hd : Assessable t l root d) :
    Passes (assessRemote t l f edge strict p d) := by
  unfold assessRemote
  refine (passes_distance_to hw hmem hp hd.node).bind fun metric _ => ?_
  split
  · exact .ok none
  split
  · exact .ok none
  refine Passes.bind ?_ fun nodeProtecting _ => ?_
  · unfold remoteProtectsNode
    split
    · exact (passes_distance_to hw hmem hfar hd.node).bind fun _ _ => .ok _
    · exact .ok false
  · dsimp only
    split <;> exact .ok _

end

/-! ## Computations that succeed -/

namespace Compute

variable {c : Compute α} {k : α → Compute β}

/-- A computation succeeds on a workspace, and no search is under way afterwards. -/
def Succeeds (c : Compute α) (w : Workspace) : Prop :=
  ∃ a w', c w = .ok a w' ∧ w'.frontier.isEmpty = true

namespace Succeeds

theorem pure (a : α) (hempty : w.frontier.isEmpty = true) :
    Succeeds (Pure.pure a : Compute α) w := ⟨a, w, rfl, hempty⟩

theorem bind (hc : Succeeds c w)
    (hk : ∀ a w', c w = .ok a w' → w'.frontier.isEmpty = true → Succeeds (k a) w') :
    Succeeds (c >>= k) w := by
  obtain ⟨a, w', h, hempty⟩ := hc
  obtain ⟨b, w'', hb, hempty⟩ := hk a w' h hempty
  exact ⟨b, w'', bind_eq_ok.2 ⟨a, w', h, hb⟩, hempty⟩

theorem findings {l : Level} {k : Findings → Compute β} (hk : Succeeds (k (w.findings.get l)) w) :
    Succeeds (Compute.findings l >>= k) w := hk

theorem tell {event : Event} {k : Unit → Compute β} (hempty : w.frontier.isEmpty = true)
    (hk : ∀ w', w'.findings = w.findings → w'.frontier.isEmpty = true → Succeeds (k ()) w') :
    Succeeds (Compute.emit event >>= k) w := hk _ rfl hempty

theorem row {a : α} {o : Option α} (h : o = some a) (hk : Succeeds (k a) w) :
    Succeeds (Compute.row o >>= k) w := by
  subst h
  exact hk

theorem check {r : Except Error α} (h : Passes r) (hk : ∀ a, r = .ok a → Succeeds (k a) w) :
    Succeeds (Compute.check r >>= k) w := by
  obtain ⟨a, rfl⟩ := h
  exact hk a rfl

/-- The refusal that is caught does not happen. -/
theorem attempt {k : Except Error α → Compute β} (hc : Succeeds c w)
    (hk : ∀ a w', c w = .ok a w' → w'.frontier.isEmpty = true → Succeeds (k (.ok a)) w') :
    Succeeds (Compute.attempt c >>= k) w := by
  obtain ⟨a, w', h, hempty⟩ := hc
  obtain ⟨b, w'', hb, hempty⟩ := hk a w' h hempty
  exact ⟨b, w'', bind_eq_ok.2 ⟨.ok a, w', attempt_of_ok h, hb⟩, hempty⟩

end Succeeds

end Compute

/-! ## Runs and distances -/

section

variable (hw : t.WellFormed) (hs : InService t l root) (hmem : t.nodes.contains root = true)
include hw hs hmem

/-- **No forward run from a node that is not overloaded is refused**, on a topology with the same
nodes. -/
theorem Topology.InService.forward (hn : Joined t l root n) (hover : t.isOverloaded n l = false)
    {t' : Topology} (hw' : t'.WellFormed) (hnodes : t'.nodes = t.nodes)
    (hempty : w.frontier.isEmpty = true) : Succeeds (Run.run t' n l .forward) w := by
  obtain ⟨node, hnode⟩ := Option.isSome_iff_exists.1 (hn.contains hw hmem)
  have hvalid : Run.validate t' n l .forward = .ok node := by
    rw [Topology.isOverloaded, hnode] at hover
    have hlevel := hs.participates n node hn hnode
    simp_all [Run.validate]
  obtain ⟨e, hrefused, -⟩ | ⟨_, w', -, hrun, performed⟩ := Run.run_alone hw' hempty n (.inl rfl)
  · rw [hvalid] at hrefused
    cases hrefused
  · exact ⟨_, w', hrun, performed.frontier⟩

theorem succeeds_computeDistances (hn : Joined t l root n) (hempty : w.frontier.isEmpty = true) :
    Succeeds (computeDistances t l n) w := by
  obtain ⟨node, hnode⟩ := Option.isSome_iff_exists.1 (hn.contains hw hmem)
  refine Succeeds.row hnode ?_
  split
  · exact .pure () hempty
  rename_i hmade
  have hover : t.isOverloaded n l = false := by
    by_contra hover
    rw [Bool.not_eq_false] at hover
    have hlan : t.isPseudonode n l = true := by
      rw [Topology.isPseudonode, hnode]
      rw [Topology.isOverloaded, hnode] at hover
      simp_all
    rw [hs.lans_forward n hn hlan] at hover
    cases hover
  exact (hs.forward hw hmem hn hover hw rfl hempty).bind fun _ _ _ hempty => .pure () hempty

theorem succeeds_computeAllDistances {ns : List NodeId} (hns : ∀ n ∈ ns, Joined t l root n)
    (hempty : w.frontier.isEmpty = true) : Succeeds (computeAllDistances t l ns) w := by
  induction ns generalizing w with
  | nil => exact .pure () hempty
  | cons n ns ih =>
    obtain ⟨hn, hns⟩ := List.forall_mem_cons.1 hns
    exact (succeeds_computeDistances hw hs hmem hn hempty).bind fun _ _ _ hempty => ih hns hempty

end

/-! ## Collecting alternates -/

theorem succeeds_collect {assess : α → Except Error (Option Alternate)} {as : List α}
    (has : ∀ a ∈ as, Passes (assess a)) (hempty : w.frontier.isEmpty = true) :
    Succeeds (collect t assess as) w := by
  induction as generalizing w with
  | nil => exact .pure [] hempty
  | cons a as ih =>
    obtain ⟨ha, has⟩ := List.forall_mem_cons.1 has
    refine Succeeds.check ha fun found _ => ?_
    cases found with
    | none => exact ih has hempty
    | some alternate =>
      exact .tell hempty fun w₁ _ hempty =>
        (ih has hempty).bind fun _ _ _ hempty => .pure _ hempty

theorem succeeds_assessAll {cs : List Nexthop} {ds : List Affected}
    (hds : ∀ d ∈ ds, ∀ c ∈ cs, Passes (assessLocal t l f root e edge strict d c))
    (hempty : w.frontier.isEmpty = true) :
    Succeeds (assessAll t l f root e edge strict cs ds) w := by
  induction ds generalizing w with
  | nil => exact .pure [] hempty
  | cons d ds ih =>
    obtain ⟨hd, hds⟩ := List.forall_mem_cons.1 hds
    refine (succeeds_collect hd hempty).bind fun found w₁ _ hempty => ?_
    dsimp only
    split
    · exact .tell hempty fun w₂ _ hempty =>
        (ih hds hempty).bind fun _ _ _ hempty => .pure _ hempty
    · exact (ih hds hempty).bind fun _ _ _ hempty => .pure _ hempty

/-! ## Protected edges -/

section

variable (hw : t.WellFormed) (hs : InService t l root) (horder : InOrder t root e l edge)
include horder

theorem Repair.InOrder.joinedRouter : JoinedRouter t l root root := ⟨.refl, horder.root_router⟩

theorem Repair.InOrder.far_joined [t.Listed] : Joined t l root edge.target.node :=
  .single ⟨⟨e, edge⟩, (mem_activeArcs t).2 ⟨horder.stored, horder.source, horder.active⟩, rfl⟩

theorem succeeds_requireProtected (hempty : w.frontier.isEmpty = true) :
    Succeeds (requireProtected t root e l) w := by
  obtain ⟨node, hnode⟩ := Option.isSome_iff_exists.1 horder.root_mem
  have hrouter := horder.root_router
  have hover := horder.root_forwards
  rw [Topology.isPseudonode, hnode] at hrouter
  rw [Topology.isOverloaded, hnode] at hover
  have hedge : protectedEdge t root e l = .ok edge := by
    simp_all [protectedEdge, horder.stored, horder.source, horder.unicast, horder.active]
  exact ⟨edge, w, by rw [requireProtected, hedge]; rfl, hempty⟩

include hs in
theorem assessable_affected [t.Listed] (hf : f.Exact t l root) :
    ∀ d ∈ affected root e f, Assessable t l root d := by
  intro d hd
  obtain ⟨r, hr, -, rfl⟩ := mem_affected.1 hd
  refine ⟨.of_destination .refl hf hr, fun p hp => ?_⟩
  obtain ⟨x, hx, rfl⟩ := List.mem_map.1 hp
  obtain ⟨hx, hoif⟩ := List.mem_filter.1 hx
  obtain ⟨nb, hnb, rfl, -⟩ := primary_neighbour horder hf hr hx (by simpa using hoif)
  exact (hs.neighbour hnb).joined

include hw hs

theorem succeeds_loopFree (hempty : w.frontier.isEmpty = true) :
    Succeeds (loopFree t l root e strict) w := by
  have hmem := horder.root_mem
  unfold loopFree
  refine (succeeds_requireProtected horder hempty).bind fun edge' w₁ h₁ hempty => ?_
  obtain ⟨rfl, rfl, -⟩ := requireProtected_eq_ok horder.stored h₁
  split
  · exact .pure none hempty
  refine Succeeds.tell hempty fun w₁ _ hempty => ?_
  refine (succeeds_computeDistances hw hs hmem .refl hempty).bind fun _ w₂ h₂ hempty => ?_
  have hfar := horder.far_joined
  refine (succeeds_computeDistances hw hs hmem hfar hempty).bind fun _ w₃ h₃ hempty => ?_
  refine Succeeds.findings ?_
  have hroot := (computeDistances_computed hw h₃).keeps (computeDistances_computed hw h₂).knows
  have hds := assessable_affected hs horder (hroot.exact horder.root_forwards)
  dsimp only
  split
  · exact .pure none hempty
  have hcs : ∀ c ∈ candidates t l root e edge, JoinedRouter t l root c.node := by
    intro c hc
    obtain ⟨nb, hnb, -, -, -, rfl⟩ := mem_candidates.1 hc
    exact hs.neighbour hnb
  refine (succeeds_computeAllDistances hw hs hmem (fun n hn => ?_) hempty).bind
    fun _ w₄ _ hempty => ?_
  · obtain ⟨c, hc, rfl⟩ := List.mem_map.1 (List.mem_eraseDups.1 hn)
    exact (hcs c hc).joined
  refine Succeeds.findings ((succeeds_assessAll (fun d hd c hc => ?_) hempty).bind
    fun _ _ _ hempty => .pure _ hempty)
  exact passes_assessLocal hw hmem horder.joinedRouter hfar (hds d hd) (hcs c hc)

/-! ## Repair spaces -/

theorem succeeds_extendThrough {xs : List Nexthop}
    (hxs : ∀ x ∈ xs, JoinedRouter t l root x.node ∧ t.isOverloaded x.node l = false)
    (space : RepairSpace) (hempty : w.frontier.isEmpty = true) :
    Succeeds (extendThrough t l root edge.target.node space xs) w := by
  have hmem := horder.root_mem
  induction xs generalizing w space with
  | nil => exact .pure space hempty
  | cons x xs ih =>
    obtain ⟨⟨hx, hover⟩, hxs⟩ := List.forall_mem_cons.1 hxs
    refine (succeeds_computeDistances hw hs hmem hx.joined hempty).bind fun _ w₁ h₁ hempty => ?_
    have hexact := (computeDistances_computed hw h₁).knows.exact hover
    refine Succeeds.findings ?_
    refine Succeeds.check (passes_distance_from hw hmem hx .refl) fun toRoot _ => ?_
    refine Succeeds.check (passes_distance_from hw hmem hx horder.far_joined) fun toFar _ => ?_
    refine Succeeds.check (Passes.foldlM (fun r hr space => ?_) space) fun space _ =>
      ih hxs space hempty
    exact passes_addThrough hw hmem horder.joinedRouter horder.far_joined
      (.of_destination hx.joined hexact hr)

theorem succeeds_extendedSpace (hempty : w.frontier.isEmpty = true) :
    Succeeds (extendedSpace t l root e) w := by
  have hmem := horder.root_mem
  refine Succeeds.row horder.stored ?_
  refine (succeeds_computeDistances hw hs hmem .refl hempty).bind fun _ w₁ h₁ hempty => ?_
  have hself := horder.joinedRouter
  have hfar := horder.far_joined
  refine (succeeds_computeDistances hw hs hmem hfar hempty).bind fun _ w₂ h₂ hempty => ?_
  have hroot := (computeDistances_computed hw h₂).keeps (computeDistances_computed hw h₁).knows
  refine Succeeds.findings ?_
  refine Succeeds.check (passes_nearMembers hw hmem hself hfar fun r hr =>
    .of_destination .refl (hroot.exact horder.root_forwards) hr) fun space _ => ?_
  refine Succeeds.check (passes_distance_from hw hmem hself hfar) fun toFar _ => ?_
  refine Succeeds.check (passes_helpers hw hmem hself hfar fun nb hnb => hs.neighbour hnb)
    fun xs hxs => ?_
  refine succeeds_extendThrough hw hs horder (fun x hx => ?_) space hempty
  obtain ⟨nb, hnb, hhelps, rfl⟩ := mem_helpers hxs x hx
  exact ⟨hs.neighbour hnb, (helps_eq_true hhelps).2.1⟩

theorem succeeds_farSpace (hempty : w.frontier.isEmpty = true) :
    Succeeds (farSpace t l root e) w := by
  have hmem := horder.root_mem
  have htoward : ∀ n w, Joined t l root n → t.isOverloaded n l = false →
      w.frontier.isEmpty = true → Succeeds (distancesToward l (t.invert l) n) w :=
    fun n w hn hover hempty => (hs.forward hw hmem hn hover (hw.invert l) rfl hempty).bind
      fun _ _ _ hempty => .pure _ hempty
  refine Succeeds.row horder.stored ?_
  dsimp only
  split
  · exact .pure _ hempty
  rename_i hover
  rw [Bool.not_eq_true] at hover
  refine Succeeds.tell hempty fun w₁ _ hempty => ?_
  refine Succeeds.attempt ?_ fun toward w₂ _ hempty => Succeeds.tell hempty fun w₃ _ hempty => ?_
  · exact (htoward _ _ horder.far_joined hover hempty).bind fun _ _ _ hempty =>
      (htoward root _ .refl horder.root_forwards hempty).bind fun _ _ _ hempty => .pure _ hempty
  refine Succeeds.attempt (succeeds_computeDistances hw hs hmem .refl hempty)
    fun _ w₄ _ hempty => ?_
  refine Succeeds.attempt (succeeds_computeDistances hw hs hmem horder.far_joined hempty)
    fun _ w₅ _ hempty => ?_
  exact .check (.ok _) fun _ _ => .check (.ok _) fun _ _ => .check (.ok _) fun _ _ =>
    .pure _ hempty

theorem succeeds_commonSpace (hempty : w.frontier.isEmpty = true) :
    Succeeds (commonSpace t l root e) w :=
  (succeeds_extendedSpace hw hs horder hempty).bind fun _ _ _ hempty =>
    (succeeds_farSpace hw hs horder hempty).bind fun _ _ _ hempty => .pure _ hempty

/-! ## Remote alternates -/

theorem succeeds_assessRemotes {ds : List Affected} (hds : ∀ d ∈ ds, Assessable t l root d)
    {xs : List (NodeId × RepairPath)}
    (hxs : ∀ x ∈ xs, JoinedRouter t l root x.1 ∧ t.isOverloaded x.1 l = false)
    (hempty : w.frontier.isEmpty = true) :
    Succeeds (assessRemotes t l root edge strict ds xs) w := by
  have hmem := horder.root_mem
  induction xs generalizing w with
  | nil => exact .pure [] hempty
  | cons x xs ih =>
    obtain ⟨⟨hx, hover⟩, hxs⟩ := List.forall_mem_cons.1 hxs
    refine (hs.forward hw hmem hx.joined hover hw rfl hempty).bind fun _ w₁ _ hempty => ?_
    refine Succeeds.findings ?_
    refine Succeeds.check (passes_distance_to hw hmem .refl hx) fun near _ => ?_
    refine Succeeds.check (passes_distance_from hw hmem hx .refl) fun back _ => ?_
    refine Succeeds.check (passes_distance_from hw hmem hx horder.far_joined) fun toFar _ => ?_
    refine (succeeds_collect (fun d hd => ?_) hempty).bind fun found w₂ _ hempty =>
      (ih hxs hempty).bind fun _ _ _ hempty => .pure _ hempty
    exact passes_assessRemote hw hmem hx.joined horder.far_joined (hds d hd)

/-- The members of the PQ-space are routers joined to the root. -/
theorem joinedRouter_of_commonSpace {space : RepairSpace}
    (h : commonSpace t l root e w = .ok space w') {path : RepairPath}
    (hn : space[n]? = some path) : JoinedRouter t l root n ∧ t.isOverloaded n l = false := by
  have htunnel := (commonSpace_tunnels hw horder h).1 n path hn
  obtain ⟨extended, members, w₁, hextended, -, hpart⟩ := commonSpace_eq_ok h
  obtain ⟨nb, hnb, hnexthop, -⟩ :=
    extendedSpace_byNeighbour hw horder hextended n path (hpart n path hn)
  have hjoined := (hs.neighbour hnb).joined
  have hreaches := joined_of_leastMetric htunnel.reaches
  rw [← hnexthop] at hreaches
  exact ⟨⟨hjoined.trans hreaches, htunnel.router⟩, htunnel.forwards⟩

theorem succeeds_remote (hempty : w.frontier.isEmpty = true) :
    Succeeds (remote t l root e strict) w := by
  unfold remote
  refine (succeeds_requireProtected horder hempty).bind fun edge' w₁ h₁ hempty => ?_
  obtain ⟨rfl, rfl, -⟩ := requireProtected_eq_ok horder.stored h₁
  split
  · exact .pure none hempty
  split
  · exact .tell hempty fun _ _ hempty => .pure none hempty
  refine (succeeds_commonSpace hw hs horder hempty).bind fun space w₂ h₂ hempty => ?_
  refine Succeeds.tell hempty fun w₃ hsame hempty => Succeeds.findings ?_
  have hroot := (commonSpace_tunnels hw horder h₂).2.root.exact horder.root_forwards
  have hds := assessable_affected hs horder (hsame ▸ hroot)
  dsimp only
  split
  · exact .pure none hempty
  refine (succeeds_assessRemotes hw hs horder hds (fun x hx => ?_) hempty).bind
    fun _ _ _ hempty => .pure _ hempty
  exact joinedRouter_of_commonSpace hw hs horder h₂
    (Std.TreeMap.mem_toList_iff_getElem?_eq_some.1 hx)

theorem succeeds_backups (hempty : w.frontier.isEmpty = true) :
    Succeeds (backups t l root e) w := by
  have hget : Succeeds (get : Compute Workspace) w := ⟨w, w, rfl, hempty⟩
  refine hget.bind fun w₀ w₁ _ hempty =>
    (succeeds_loopFree hw hs horder hempty).bind fun near w₂ _ hempty => ?_
  split
  · exact .pure near hempty
  · exact (succeeds_remote hw hs horder hempty).bind fun _ _ _ hempty => .pure _ hempty

end

namespace Session

/-- A computation of alternates for a protected edge. -/
inductive AsksForBackups (root : NodeId) (e : EdgeId) (l : Level) : Computation → Prop
  | loopFree (strict : Bool) : AsksForBackups root e l (.loopFree root e l strict)
  | remote (strict : Bool) : AsksForBackups root e l (.remote root e l strict)
  | backups : AsksForBackups root e l (.backups root e l)

/-- **Backups can be computed wherever the level is in service.** After every history, whatever the
settings and the requests before, the alternates for a protected edge of a router that is not
overloaded are found or there are none: the computation is not refused, and it comes to no fault. -/
theorem backups_available (history : List Request) (l : Level) (root : NodeId) (e : EdgeId)
    {edge : Edge} (horder : InOrder (after {} history).topology root e l edge)
    (hs : (after {} history).topology.InService l root) {c : Computation}
    (hc : AsksForBackups root e l c) :
    ∃ rec, ((after {} history).serve (.compute c)).1 = .ok (.record rec) := by
  have hsound := sound_after history
  generalize after {} history = s at hsound horder hs
  have hw := hsound.wellFormed
  have answered : ∀ {b : Compute (Option RepairRecord)},
      c.on s.topology = Answer.record <$> b → Succeeds b s.workspace →
        ∃ rec, (s.serve (.compute c)).1 = .ok (.record rec) := by
    rintro b hb ⟨rec, w', h, -⟩
    have hon : c.on s.topology s.workspace = .ok (.record rec) w' :=
      hb ▸ map_eq_ok.2 ⟨rec, h, rfl⟩
    have hserved : s.serve (.compute c) = (.ok (.record rec), ⟨s.topology, w'⟩) :=
      serve_eq_ok.2 ⟨rfl, hon⟩
    exact ⟨rec, congrArg Prod.fst hserved⟩
  cases hc with
  | loopFree strict => exact answered rfl (succeeds_loopFree hw hs horder hsound.frontier)
  | remote strict => exact answered rfl (succeeds_remote hw hs horder hsound.frontier)
  | backups => exact answered rfl (succeeds_backups hw hs horder hsound.frontier)

/-- The routers of a LAN, two of them with a link that is protected and the third one overloaded,
with an edge to it that leads one way. -/
def guardedLan : List Change :=
  Run.lan ++
    [.addLink ⟨⟨0, 0⟩, "tob", none⟩ ⟨⟨1, 0⟩, "toa", none⟩ (.saturate 1) .all,
      .addEdge ⟨⟨0, 0⟩, "toc", none⟩ ⟨⟨2, 0⟩, "toa", none⟩ (.both (.saturate 1)) .all .unicast,
      .setOverload ⟨2, 0⟩ .l1 true, .setProtection ⟨8, 0⟩ .linkAndNode]

theorem backups_available_guardedLan : ∃ edge,
    InOrder (after {} (guardedLan.map .change)).topology ⟨0, 0⟩ ⟨8, 0⟩ .l1 edge ∧
      (after {} (guardedLan.map .change)).topology.InService .l1 ⟨0, 0⟩ ∧
      ∃ rec, ((after {} (guardedLan.map .change)).serve
        (.compute (.backups ⟨0, 0⟩ ⟨8, 0⟩ .l1))).1 = .ok (.record rec) := by
  have hs : (after {} (guardedLan.map .change)).topology.InService .l1 ⟨0, 0⟩ :=
    inService_of_entries (by decide +kernel) (by decide +kernel) (by decide +kernel) _
  have hok : (protectedEdge (after {} (guardedLan.map .change)).topology ⟨0, 0⟩ ⟨8, 0⟩
      .l1).isOk = true := by decide +kernel
  cases hedge : protectedEdge (after {} (guardedLan.map .change)).topology ⟨0, 0⟩ ⟨8, 0⟩ .l1 with
  | error failure =>
    rw [hedge] at hok
    cases hok
  | ok edge =>
    have horder := protectedEdge_eq_ok hedge
    exact ⟨edge, horder, hs, backups_available (guardedLan.map .change) .l1 ⟨0, 0⟩ ⟨8, 0⟩ horder hs
      .backups⟩

end Session

end LinkState
