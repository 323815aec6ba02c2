import LinkState.Proofs.Repair.Protected
import LinkState.Proofs.Topology.LeastMetric

/-!
# Repair spaces

Each member of the P-space of a root comes with a next hop from which it is safely reached
(`Tunnel`). There are two reasons for it, which every step that builds the space respects:

* a member of the plain P-space lies behind its next hop on a least walk of the root, and no such
  walk comes by the far end of the protected edge (`addNear_tunnels`);
* what is added through a neighbour has the neighbour as its next hop, and no least walk from there
  comes by the root (`addThrough_tunnels`).

All that a step does is said once (`addNear_cases`, `addThrough_cases`, `helps_cases`). Both go by
one induction over the steps (`extendedSpace_induction`), which says what is known when a step is
made. `commonSpace_tunnels` carries them to the PQ-space. The searches on the inverted topology that
it takes spoil the results of the root and of the far end for a while, but both are known again at
the end (`farSpace_knows`).
-/

namespace LinkState.Repair

open LinkState.Topology Compute

variable {t : Topology} {root far : NodeId} {e : EdgeId} {l : Level} {w w' : Workspace}
  {f : Findings} {space space' : RepairSpace}

/-- A router that is reached from the next hop of a path without the protected edge: no least walk
comes by the root, or none by the far end. The latter holds in any case if the path is marked. -/
structure Tunnel (t : Topology) (l : Level) (root far : NodeId) (e : EdgeId) (n : NodeId)
    (path : RepairPath) : Prop where
  ne_root : n ≠ root
  forwards : t.isOverloaded n l = false
  router : t.isPseudonode n l = false
  other_edge : path.nexthop.oif ≠ e
  reaches : t.leastMetric l path.nexthop.node n ≠ .infinite
  avoids : Avoids t l path.nexthop.node n root ∨ Avoids t l path.nexthop.node n far
  avoids_far : path.nodeProtecting = true → Avoids t l path.nexthop.node n far

/-- Every member of a space is safely reached. -/
def Tunnels (t : Topology) (l : Level) (root far : NodeId) (e : EdgeId) (space : RepairSpace) :
    Prop :=
  ∀ n path, space[n]? = some path → Tunnel t l root far e n path

theorem tunnels_empty : Tunnels t l root far e ∅ := by
  intro n path h
  simp at h

/-- What holds of all members of a space and of a new one holds of all members then. -/
theorem forall_insert {P : NodeId → RepairPath → Prop}
    (hs : ∀ n path, space[n]? = some path → P n path) {n : NodeId} {path : RepairPath}
    (hn : P n path) : ∀ m path', (space.insert n path)[m]? = some path' → P m path' := by
  intro m path' h
  rw [Std.TreeMap.getElem?_insert] at h
  split at h
  · rename_i hm
    cases Std.LawfulEqOrd.compare_eq_iff_eq.1 hm
    cases h
    exact hn
  · exact hs m path' h

theorem forall_improve {P : NodeId → RepairPath → Prop}
    (hs : ∀ n path, space[n]? = some path → P n path) {n : NodeId} {path : RepairPath}
    (hn : P n path) : ∀ m path', (improve space n path)[m]? = some path' → P m path' := by
  unfold improve
  split
  · exact forall_insert hs hn
  · split
    · exact forall_insert hs hn
    · exact hs

theorem Tunnels.insert (hs : Tunnels t l root far e space) {n : NodeId} {path : RepairPath}
    (hn : Tunnel t l root far e n path) : Tunnels t l root far e (space.insert n path) :=
  forall_insert hs hn

theorem Tunnels.improve (hs : Tunnels t l root far e space) {n : NodeId} {path : RepairPath}
    (hn : Tunnel t l root far e n path) : Tunnels t l root far e (Repair.improve space n path) :=
  forall_improve hs hn

theorem eligible_iff {r : Result} :
    eligible t l root r = true ↔ r.node ≠ root ∧ t.isOverloaded r.node l = false := by
  rw [eligible, Bool.and_eq_true, bne_iff_ne, Bool.not_eq_true']

/-! ## Steps -/

/-- All that a result of the root does to a space: it is entered, or there is no next hop for it, or
it is not the root's to enter. -/
theorem addNear_cases {toFar : Metric} {r : Result}
    (h : addNear t l f root e far toFar space r = .ok space') :
    (∃ onward x, eligible t l root r = true ∧ distance t l f far r.node = .ok onward ∧
        r.metric < toFar + onward ∧ r.nexthops.ip.members.find? (·.oif != e) = some x ∧
        space' = space.insert r.node ⟨x, r.node != far⟩) ∨
      space' = space ∧ (eligible t l root r = true → ∃ onward,
        distance t l f far r.node = .ok onward ∧ (r.metric < toFar + onward →
          r.nexthops.ip.members.find? (·.oif != e) = none)) := by
  unfold addNear at h
  split at h
  · rename_i heligible
    obtain ⟨onward, honward, h⟩ := except_bind_eq_ok.1 h
    split at h
    · rename_i hlt
      split at h
      · rename_i x hfind
        cases h
        exact .inl ⟨onward, x, heligible, honward, hlt, hfind, rfl⟩
      · rename_i hfind
        cases h
        exact .inr ⟨rfl, fun _ => ⟨onward, honward, fun _ => hfind⟩⟩
    · rename_i hlt
      cases h
      exact .inr ⟨rfl, fun _ => ⟨onward, honward, fun h => absurd h hlt⟩⟩
  · rename_i heligible
    cases h
    exact .inr ⟨rfl, fun h => absurd h heligible⟩

/-- All that a result of a neighbour does to a space: it improves an entry, or it is not eligible or
not reached without the root. -/
theorem addThrough_cases {nexthop : Nexthop} {toRoot toFar : Metric} {r : Result}
    (h : addThrough t l f root far nexthop toRoot toFar space r = .ok space') :
    (∃ fromRoot fromFar, eligible t l root r = true ∧
        distance t l f root r.node = .ok fromRoot ∧ r.metric < toRoot + fromRoot ∧
        distance t l f far r.node = .ok fromFar ∧
        space' = improve space r.node
          ⟨nexthop, r.node != far && decide (r.metric < toFar + fromFar)⟩) ∨
      space' = space ∧ (eligible t l root r = true → ∃ fromRoot,
        distance t l f root r.node = .ok fromRoot ∧ ¬r.metric < toRoot + fromRoot) := by
  unfold addThrough at h
  split at h
  · rename_i heligible
    obtain ⟨fromRoot, hfromRoot, h⟩ := except_bind_eq_ok.1 h
    split at h
    · rename_i hlt
      obtain ⟨fromFar, hfromFar, h⟩ := except_bind_eq_ok.1 h
      cases h
      exact .inl ⟨fromRoot, fromFar, heligible, hfromRoot, hlt, hfromFar, rfl⟩
    · rename_i hlt
      cases h
      exact .inr ⟨rfl, fun _ => ⟨fromRoot, hfromRoot, hlt⟩⟩
  · rename_i heligible
    cases h
    exact .inr ⟨rfl, fun h => absurd h heligible⟩

/-- When a neighbour helps: it may be used at all, and the root reaches it without the far end. -/
theorem helps_cases {toFar : Metric} {nb : LogicalNeighbour} {b : Bool}
    (h : helps t l f root e far toFar nb = .ok b) :
    (nb.node ≠ far ∧ nb.out.id ≠ e ∧ t.isOverloaded nb.node l = false ∧
        ∃ there onward, distance t l f root nb.node = .ok there ∧
          distance t l f far nb.node = .ok onward ∧
          b = (there != .infinite && decide (there < toFar + onward))) ∨
      (nb.node = far ∨ nb.out.id = e ∨ t.isOverloaded nb.node l = true) ∧ b = false := by
  unfold helps at h
  split at h
  · rename_i hno
    cases h
    exact .inr ⟨hno, rfl⟩
  · rename_i hno
    rw [not_or, not_or, Bool.not_eq_true] at hno
    obtain ⟨there, hthere, h⟩ := except_bind_eq_ok.1 h
    obtain ⟨onward, honward, h⟩ := except_bind_eq_ok.1 h
    cases h
    exact .inl ⟨hno.1, hno.2.1, hno.2.2, there, onward, hthere, honward, rfl⟩

/-- A neighbour that helps is reached over another edge, carries traffic, and is within reach. -/
theorem helps_eq_true {toFar : Metric} {nb : LogicalNeighbour}
    (h : helps t l f root e far toFar nb = .ok true) :
    nb.out.id ≠ e ∧ t.isOverloaded nb.node l = false ∧
      ∃ there, distance t l f root nb.node = .ok there ∧ there ≠ .infinite := by
  obtain ⟨-, hoif, hover, there, _, hthere, -, hb⟩ | ⟨-, habsurd⟩ := helps_cases h
  · have hreaches := hb.symm
    rw [Bool.and_eq_true, bne_iff_ne] at hreaches
    exact ⟨hoif, hover, there, hthere, hreaches.1⟩
  · cases habsurd

/-! ## The plain P-space -/

/-- A result of the root whose least walks do not come by the far end is safely reached from each of
its next hops. -/
theorem addNear_tunnels (hroot : f.Exact t l root) (hfar : f.Knows t l far) {r : Result}
    (hr : r ∈ f.destinations root)
    (h : addNear t l f root e far (t.leastMetric l root far) space r = .ok space')
    (hs : Tunnels t l root far e space) : Tunnels t l root far e space' := by
  obtain ⟨hmem, hrouter⟩ := hroot.mem_destinations.1 hr
  have hmetric := hroot.metric_eq r hmem
  obtain ⟨onward, x, heligible, honward, hlt, hfind, rfl⟩ | ⟨rfl, -⟩ := addNear_cases h
  · obtain ⟨hne, hover⟩ := eligible_iff.1 heligible
    cases distance_eq hfar honward
    rw [hmetric] at hlt
    obtain ⟨hfin, havoids⟩ := leastMetric_lt_add_iff.1 hlt
    obtain ⟨-, as, hwalk, hcost, hvisits⟩ := (hroot.derived r hmem).exists_neighbour
      (k := .ip) (List.mem_of_find?_eq_some hfind)
    rw [hmetric] at hcost
    obtain ⟨hreaches, hrest⟩ := havoids.of_visits hfin hwalk hcost hvisits
    exact hs.insert ⟨hne, hover, hrouter, by simpa using List.find?_some hfind, hreaches,
      .inr hrest, fun _ => hrest⟩
  · exact hs

/-! ## The extended P-space -/

/-- A result of a neighbour whose least walks do not come by the root is safely reached from that
neighbour. -/
theorem addThrough_tunnels {nexthop : Nexthop} (hoif : nexthop.oif ≠ e)
    (hn : f.Exact t l nexthop.node) (hroot : f.Knows t l root) (hfar : f.Knows t l far) {r : Result}
    (hr : r ∈ f.destinations nexthop.node)
    (h : addThrough t l f root far nexthop (t.leastMetric l nexthop.node root)
      (t.leastMetric l nexthop.node far) space r = .ok space')
    (hs : Tunnels t l root far e space) : Tunnels t l root far e space' := by
  obtain ⟨hmem, hrouter⟩ := hn.mem_destinations.1 hr
  have hmetric := hn.metric_eq r hmem
  obtain ⟨fromRoot, fromFar, heligible, hfromRoot, hlt, hfromFar, rfl⟩ | ⟨rfl, -⟩ :=
    addThrough_cases h
  · obtain ⟨hne, hover⟩ := eligible_iff.1 heligible
    cases distance_eq hroot hfromRoot
    cases distance_eq hfar hfromFar
    rw [hmetric] at hlt
    obtain ⟨hfin, havoids⟩ := leastMetric_lt_add_iff.1 hlt
    refine hs.improve ⟨hne, hover, hrouter, hoif, hfin, .inl havoids, fun hprotects => ?_⟩
    rw [Bool.and_eq_true, decide_eq_true_iff, hmetric] at hprotects
    exact (leastMetric_lt_add_iff.1 hprotects.2).2
  · exact hs

/-- The neighbours that help. -/
theorem mem_helpers {toFar : Metric} {nbs : List LogicalNeighbour} {xs : List Nexthop}
    (h : helpers t l f root e far toFar nbs = .ok xs) :
    ∀ x ∈ xs, ∃ nb ∈ nbs, helps t l f root e far toFar nb = .ok true ∧ nb.nexthop = x := by
  induction nbs generalizing xs with
  | nil =>
    cases h
    simp
  | cons nb nbs ih =>
    unfold helpers at h
    obtain ⟨useful, huseful, h⟩ := except_bind_eq_ok.1 h
    obtain ⟨rest, hrest, h⟩ := except_bind_eq_ok.1 h
    cases h
    have hrest : ∀ x ∈ rest, ∃ nb' ∈ nb :: nbs,
        helps t l f root e far toFar nb' = .ok true ∧ nb'.nexthop = x := fun x hx => by
      obtain ⟨nb', hnb', hx⟩ := ih hrest x hx
      exact ⟨nb', List.mem_cons_of_mem _ hnb', hx⟩
    split
    · rename_i hyes
      subst hyes
      exact List.forall_mem_cons.2 ⟨⟨nb, List.mem_cons_self, huseful, rfl⟩, hrest⟩
    · exact hrest

/-- The neighbours that help are reached over other edges than the protected one, and they are not
overloaded. -/
theorem helpers_eq_ok {toFar : Metric} {nbs : List LogicalNeighbour} {xs : List Nexthop}
    (h : helpers t l f root e far toFar nbs = .ok xs) :
    ∀ x ∈ xs, x.oif ≠ e ∧ t.isOverloaded x.node l = false := by
  intro x hx
  obtain ⟨nb, -, hhelps, rfl⟩ := mem_helpers h x hx
  obtain ⟨hoif, hover, -⟩ := helps_eq_true hhelps
  exact ⟨hoif, hover⟩

/-- What is known of the two ends of the protected edge between two steps. -/
structure EndsKnown (t : Topology) (l : Level) (root far : NodeId) (w : Workspace) : Prop where
  root : (w.findings.get l).Knows t l root
  far : (w.findings.get l).Knows t l far

theorem EndsKnown.computed {n : NodeId} (hends : EndsKnown t l root far w)
    (h : Computed t l n w w') : EndsKnown t l root far w' :=
  ⟨h.keeps hends.root, h.keeps hends.far⟩

/-- Adding what one neighbour after the other reaches begins with a search from the first one. -/
theorem extendThrough_cons_eq_ok {x : Nexthop} {xs : List Nexthop}
    (h : extendThrough t l root far space (x :: xs) w = .ok space' w') :
    ∃ w₁ toRoot toFar space₁, computeDistances t l x.node w = .ok () w₁ ∧
      distance t l (w₁.findings.get l) x.node root = .ok toRoot ∧
      distance t l (w₁.findings.get l) x.node far = .ok toFar ∧
      ((w₁.findings.get l).destinations x.node).foldlM
        (addThrough t l (w₁.findings.get l) root far x toRoot toFar) space = .ok space₁ ∧
      extendThrough t l root far space₁ xs w₁ = .ok space' w' := by
  unfold extendThrough at h
  obtain ⟨_, w₁, h₁, h⟩ := bind_eq_ok.1 h
  obtain ⟨f, w₂, h₂, h⟩ := bind_eq_ok.1 h
  obtain ⟨rfl, rfl⟩ := findings_eq_ok.1 h₂
  obtain ⟨toRoot, w₃, h₃, h⟩ := bind_eq_ok.1 h
  obtain ⟨htoRoot, rfl⟩ := check_eq_ok.1 h₃
  obtain ⟨toFar, w₄, h₄, h⟩ := bind_eq_ok.1 h
  obtain ⟨htoFar, rfl⟩ := check_eq_ok.1 h₄
  obtain ⟨space₁, w₅, h₅, h₆⟩ := bind_eq_ok.1 h
  obtain ⟨hfold, rfl⟩ := check_eq_ok.1 h₅
  exact ⟨_, toRoot, toFar, space₁, h₁, htoRoot, htoFar, hfold, h₆⟩

/-- What adding a result of one of some neighbours keeps, adding all of them keeps. -/
theorem extendThrough_induction {P : RepairSpace → Prop} (hw : t.WellFormed) {xs : List Nexthop}
    (hthrough : ∀ x ∈ xs, ∀ f : Findings, f.Knows t l x.node → f.Knows t l root →
      f.Knows t l far → ∀ r ∈ f.destinations x.node, ∀ s s',
        addThrough t l f root far x (t.leastMetric l x.node root) (t.leastMetric l x.node far) s r =
          .ok s' → P s → P s')
    (hends : EndsKnown t l root far w) (hs : P space)
    (h : extendThrough t l root far space xs w = .ok space' w') :
    P space' ∧ EndsKnown t l root far w' := by
  induction xs generalizing w space with
  | nil =>
    obtain ⟨rfl, rfl⟩ := pure_eq_ok.1 h
    exact ⟨hs, hends⟩
  | cons x xs ih =>
    obtain ⟨hfirst, hrest⟩ := List.forall_mem_cons.1 hthrough
    obtain ⟨w₁, _, _, space₁, h₁, htoRoot, htoFar, hfold, h⟩ := extendThrough_cons_eq_ok h
    have hx := computeDistances_computed hw h₁
    have hends₁ := hends.computed hx
    cases distance_eq hx.knows htoRoot
    cases distance_eq hx.knows htoFar
    have hs₁ := except_foldlM_induction (hfirst _ hx.knows hends₁.root hends₁.far) hfold hs
    exact ih hrest hends₁ hs₁ h

/-- The extended P-space is made of the plain one and of what helpful neighbours reach, after
searches from both ends of the protected edge. -/
theorem extendedSpace_eq_ok {edge : Edge} (hedge : t.edges.get? e = some edge)
    (h : extendedSpace t l root e w = .ok space w') :
    ∃ w₁ w₂ near toFar xs, computeDistances t l root w = .ok () w₁ ∧
      computeDistances t l edge.target.node w₁ = .ok () w₂ ∧
      nearMembers t l (w₂.findings.get l) root e edge = .ok near ∧
      distance t l (w₂.findings.get l) root edge.target.node = .ok toFar ∧
      helpers t l (w₂.findings.get l) root e edge.target.node toFar
        (t.logicalNeighbours root l) = .ok xs ∧
      extendThrough t l root edge.target.node near xs w₂ = .ok space w' := by
  unfold extendedSpace at h
  obtain ⟨edge', w₁, h₁, h⟩ := bind_eq_ok.1 h
  obtain ⟨hedge', rfl⟩ := row_eq_ok.1 h₁
  rw [hedge] at hedge'
  cases hedge'
  obtain ⟨_, w₂, h₂, h⟩ := bind_eq_ok.1 h
  obtain ⟨_, w₃, h₃, h⟩ := bind_eq_ok.1 h
  obtain ⟨f, w₄, h₄, h⟩ := bind_eq_ok.1 h
  obtain ⟨rfl, rfl⟩ := findings_eq_ok.1 h₄
  obtain ⟨near, w₅, h₅, h⟩ := bind_eq_ok.1 h
  obtain ⟨hmembers, rfl⟩ := check_eq_ok.1 h₅
  obtain ⟨toFar, w₆, h₆, h⟩ := bind_eq_ok.1 h
  obtain ⟨htoFar, rfl⟩ := check_eq_ok.1 h₆
  obtain ⟨xs, w₇, h₇, h⟩ := bind_eq_ok.1 h
  obtain ⟨hxs, rfl⟩ := check_eq_ok.1 h₇
  exact ⟨w₂, _, near, toFar, xs, h₂, h₃, hmembers, htoFar, hxs, h⟩

/-- What holds of the empty space and is kept when a result of the root or of a helpful neighbour is
added holds of the extended P-space. -/
theorem extendedSpace_induction {P : RepairSpace → Prop} (hw : t.WellFormed) {edge : Edge}
    (horder : InOrder t root e l edge) (hempty : P ∅)
    (hnear : ∀ f : Findings, f.Exact t l root → f.Knows t l edge.target.node →
      ∀ r ∈ f.destinations root, ∀ s s',
        addNear t l f root e edge.target.node (t.leastMetric l root edge.target.node) s r = .ok s' →
          P s → P s')
    (hthrough : ∀ nb ∈ t.logicalNeighbours root l, nb.out.id ≠ e →
      t.isOverloaded nb.node l = false → t.leastMetric l root nb.node ≠ .infinite →
      ∀ f : Findings, f.Knows t l nb.node → f.Knows t l root → f.Knows t l edge.target.node →
      ∀ r ∈ f.destinations nb.node, ∀ s s',
        addThrough t l f root edge.target.node nb.nexthop (t.leastMetric l nb.node root)
          (t.leastMetric l nb.node edge.target.node) s r = .ok s' → P s → P s')
    (h : extendedSpace t l root e w = .ok space w') :
    P space ∧ EndsKnown t l root edge.target.node w' := by
  obtain ⟨w₁, w₂, near, _, xs, h₁, h₂, hmembers, -, hxs, h⟩ := extendedSpace_eq_ok horder.stored h
  have hroot := computeDistances_computed hw h₁
  have hfar := computeDistances_computed hw h₂
  have hends : EndsKnown t l root edge.target.node w₂ := ⟨hfar.keeps hroot.knows, hfar.knows⟩
  unfold nearMembers at hmembers
  obtain ⟨toFar, htoFar, hmembers⟩ := except_bind_eq_ok.1 hmembers
  cases distance_eq hends.root htoFar
  have hs := except_foldlM_induction
    (hnear _ (hends.root.exact horder.root_forwards) hends.far) hmembers hempty
  refine extendThrough_induction hw (fun x hx => ?_) hends hs h
  obtain ⟨nb, hnb, hhelps, rfl⟩ := mem_helpers hxs x hx
  obtain ⟨hoif, hover, there, hthere, hreaches⟩ := helps_eq_true hhelps
  cases distance_eq hends.root hthere
  exact hthrough nb hnb hoif hover hreaches

theorem extendedSpace_tunnels (hw : t.WellFormed) {edge : Edge} (horder : InOrder t root e l edge)
    (h : extendedSpace t l root e w = .ok space w') :
    Tunnels t l root edge.target.node e space ∧ EndsKnown t l root edge.target.node w' :=
  extendedSpace_induction hw horder tunnels_empty
    (fun _ hroot hfar _ hr _ _ => addNear_tunnels hroot hfar hr)
    (fun _ _ hoif hover _ _ hn hroot hfar _ hr _ _ =>
      addThrough_tunnels hoif (hn.exact hover) hroot hfar hr) h

/-! ## The PQ-space -/

/-- Whatever the searches on the inverted topology do, both ends of the protected edge are known
afterwards. -/
theorem farSpace_knows (hw : t.WellFormed) {edge : Edge} (horder : InOrder t root e l edge)
    {members : NodeSet} (hends : EndsKnown t l root edge.target.node w)
    (h : farSpace t l root e w = .ok members w') : EndsKnown t l root edge.target.node w' := by
  unfold farSpace at h
  obtain ⟨edge', w₁, h₁, h⟩ := bind_eq_ok.1 h
  obtain ⟨hedge, rfl⟩ := row_eq_ok.1 h₁
  rw [horder.stored] at hedge
  cases hedge
  dsimp only at h
  split at h
  · obtain ⟨-, rfl⟩ := pure_eq_ok.1 h
    exact hends
  obtain ⟨_, w₂, -, h⟩ := bind_eq_ok.1 h
  obtain ⟨toward, w₃, -, h⟩ := bind_eq_ok.1 h
  obtain ⟨_, w₄, -, h⟩ := bind_eq_ok.1 h
  obtain ⟨rootAnew, w₅, h₅, h⟩ := bind_eq_ok.1 h
  obtain ⟨farAnew, w₆, h₆, h⟩ := bind_eq_ok.1 h
  obtain ⟨both, w₇, h₇, h⟩ := bind_eq_ok.1 h
  obtain ⟨-, rfl⟩ := check_eq_ok.1 h₇
  obtain ⟨_, w₈, h₈, h⟩ := bind_eq_ok.1 h
  obtain ⟨rfl, rfl⟩ := check_eq_ok.1 h₈
  obtain ⟨_, w₉, h₉, h⟩ := bind_eq_ok.1 h
  obtain ⟨rfl, rfl⟩ := check_eq_ok.1 h₉
  obtain ⟨-, rfl⟩ := pure_eq_ok.1 h
  obtain ⟨_, -, hroot⟩ | ⟨_, habsurd, -⟩ := attempt_eq_ok.1 h₅
  · obtain ⟨_, -, hfar⟩ | ⟨_, habsurd, -⟩ := attempt_eq_ok.1 h₆
    · have hroot := computeDistances_computed hw hroot
      have hfar := computeDistances_computed hw hfar
      exact ⟨hfar.keeps hroot.knows, hfar.knows⟩
    · cases habsurd
  · cases habsurd

/-- The PQ-space is a part of the extended P-space. -/
theorem commonSpace_eq_ok (h : commonSpace t l root e w = .ok space w') :
    ∃ extended members w₁,
      extendedSpace t l root e w = .ok extended w₁ ∧
        farSpace t l root e w₁ = .ok members w' ∧
          ∀ (n : NodeId) (path : RepairPath), space[n]? = some path → extended[n]? = some path := by
  unfold commonSpace at h
  obtain ⟨extended, w₁, h₁, h⟩ := bind_eq_ok.1 h
  obtain ⟨members, w₂, h₂, h⟩ := bind_eq_ok.1 h
  obtain ⟨rfl, rfl⟩ := pure_eq_ok.1 h
  refine ⟨extended, members, w₁, h₁, h₂, fun n path hn => ?_⟩
  rw [Std.TreeMap.getElem?_filter', Option.filter_eq_some_iff] at hn
  exact hn.1

/-- **Every member of the PQ-space is safely reached**, and both ends of the protected edge are
known once it has been found. -/
theorem commonSpace_tunnels (hw : t.WellFormed) {edge : Edge} (horder : InOrder t root e l edge)
    (h : commonSpace t l root e w = .ok space w') :
    Tunnels t l root edge.target.node e space ∧ EndsKnown t l root edge.target.node w' := by
  obtain ⟨extended, members, w₁, hextended, hmembers, hpart⟩ := commonSpace_eq_ok h
  obtain ⟨hs, hends⟩ := extendedSpace_tunnels hw horder hextended
  exact ⟨fun n path hn => hs n path (hpart n path hn), farSpace_knows hw horder hends hmembers⟩

end LinkState.Repair
