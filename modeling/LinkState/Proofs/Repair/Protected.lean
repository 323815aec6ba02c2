import LinkState.Proofs.Distance
import LinkState.Proofs.ShortestPath.Nexthops
import LinkState.Repair.Backup

/-!
# Protected edges and what their failure affects

What an accepted request says of the protected edge (`requireProtected_eq_ok`), which destinations
are affected (`mem_affected`), and where their primary next hops lead (`primary_neighbour`): to
logical neighbours of the root over the protected edge. `collect_eq_ok` says that the alternates
collected are those that the assessment of some candidate gives.
-/

namespace LinkState.Repair

open LinkState.Topology Compute

variable {t : Topology} {root : NodeId} {e : EdgeId} {l : Level} {w w' : Workspace} {edge : Edge}

/-- A request that is in order: the root is a router that is not overloaded, and the edge is an
active unicast edge of it. -/
structure InOrder (t : Topology) (root : NodeId) (e : EdgeId) (l : Level) (edge : Edge) : Prop where
  stored : t.edges.get? e = some edge
  root_mem : t.nodes.contains root = true
  root_router : t.isPseudonode root l = false
  root_forwards : t.isOverloaded root l = false
  source : edge.source.node = root
  unicast : edge.kind = .unicast
  active : edge.isActive l = true

theorem protectedEdge_eq_ok (h : protectedEdge t root e l = .ok edge) :
    InOrder t root e l edge := by
  unfold protectedEdge at h
  split at h
  · cases h
  · cases h
  rename_i node edge' hnode hedge
  split at h
  · cases h
  rename_i hpseudo
  split at h
  · cases h
  rename_i hover
  split at h
  · cases h
  rename_i hsource
  split at h
  · cases h
  rename_i hkind
  split at h
  · cases h
  rename_i hactive
  cases h
  exact {
    stored := hedge
    root_mem := by
      rw [Table.contains, hnode]
      rfl
    root_router := by
      rw [Topology.isPseudonode, hnode]
      exact Bool.eq_false_iff.2 hpseudo
    root_forwards := by
      rw [Topology.isOverloaded, hnode]
      exact Bool.eq_false_iff.2 hover
    source := by simpa using hsource
    unicast := by simpa using hkind
    active := by simpa using hactive }

theorem inOrder_of_requireProtected (h : requireProtected t root e l w = .ok edge w') :
    w = w' ∧ InOrder t root e l edge := by
  unfold requireProtected at h
  cases hp : protectedEdge t root e l with
  | error failure =>
    rw [hp] at h
    cases h
  | ok found =>
    rw [hp] at h
    obtain ⟨rfl, rfl⟩ := pure_eq_ok.1 h
    exact ⟨rfl, protectedEdge_eq_ok hp⟩

theorem requireProtected_eq_ok (hedge : t.edges.get? e = some edge) {edge' : Edge}
    (h : requireProtected t root e l w = .ok edge' w') :
    edge = edge' ∧ w = w' ∧ InOrder t root e l edge := by
  obtain ⟨hw', horder⟩ := inOrder_of_requireProtected h
  obtain rfl := Option.some.inj (hedge.symm.trans horder.stored)
  exact ⟨rfl, hw', horder⟩

/-! ## Affected destinations -/

/-- A result of the root with a next hop that leaves through the protected edge. -/
structure IsAffected (root : NodeId) (e : EdgeId) (r : Result) : Prop where
  ne_root : r.node ≠ root
  uses : ∃ h ∈ r.nexthops.ip.members, h.oif = e

theorem IsAffected.single_iff {r : Result} (h : IsAffected root e r) :
    ¬1 < r.nexthops.ip.size ↔ r.nexthops.ip.members.length = 1 := by
  obtain ⟨x, hx, -⟩ := h.uses
  have := List.length_pos_of_mem hx
  rw [NexthopSet.size]
  omega

/-- What is kept of an affected result. -/
def affectedOf (e : EdgeId) (r : Result) : Affected :=
  { node := r.node
    metric := r.metric
    primaries := (r.nexthops.ip.members.filter fun n => n.oif == e).map (·.node)
    ecmp := decide (1 < r.nexthops.ip.size) }

theorem mem_affected {f : Findings} {d : Affected} :
    d ∈ affected root e f ↔
      ∃ r ∈ f.destinations root, IsAffected root e r ∧ d = affectedOf e r := by
  unfold affected
  simp only [List.mem_map, List.mem_filter, Bool.and_eq_true, bne_iff_ne, NexthopSet.usesOif,
    List.any_eq_true, beq_iff_eq]
  constructor
  · rintro ⟨r, ⟨hr, hne, huses⟩, rfl⟩
    exact ⟨r, hr, ⟨hne, huses⟩, rfl⟩
  · rintro ⟨r, hr, ⟨hne, huses⟩, rfl⟩
    exact ⟨r, ⟨hr, hne, huses⟩, rfl⟩

/-- A primary next hop over the protected edge is that of a logical neighbour over this edge. -/
theorem primary_neighbour [t.Listed] (horder : InOrder t root e l edge) {f : Findings}
    (hf : f.Exact t l root) {r : Result} (hr : r ∈ f.destinations root) {h : Nexthop}
    (hh : h ∈ r.nexthops.ip.members) (hoif : h.oif = e) :
    ∃ nb ∈ t.logicalNeighbours root l, nb.nexthop = h ∧ nb.out = ⟨e, edge⟩ := by
  have hder := hf.derived r (hf.mem_destinations.1 hr).1
  obtain ⟨⟨nb, hnb, -, hnexthop⟩, -⟩ := hder.exists_neighbour (k := .ip) hh
  refine ⟨nb, hnb, hnexthop, ?_⟩
  have hstored := ((Topology.mem_activeArcs t).1 ((mem_logicalNeighbours t).1 hnb).1).1
  have hid : nb.out.id = e := by
    rw [← hoif, ← hnexthop]
    rfl
  exact Search.arc_eq hstored horder.stored hid

/-! ## Collecting alternates -/

/-- A record is left out only if it is empty. -/
theorem alternatesOf_nonempty? (r : RepairRecord) : alternatesOf r.nonempty? = r.alternates := by
  unfold RepairRecord.nonempty?
  split
  · rename_i h
    exact (List.isEmpty_iff.1 h).symm
  · rfl

theorem collect_eq_ok {α : Type} {assess : α → Except Error (Option Alternate)} {cs : List α}
    {as : List Alternate} (h : collect t assess cs w = .ok as w') :
    w'.findings = w.findings ∧ (∀ c ∈ cs, ∃ o, assess c = .ok o) ∧
      ∀ a, a ∈ as ↔ ∃ c ∈ cs, assess c = .ok (some a) := by
  induction cs generalizing w as with
  | nil =>
    obtain ⟨rfl, rfl⟩ := pure_eq_ok.1 h
    simp
  | cons c cs ih =>
    unfold collect at h
    obtain ⟨o, w₁, h₁, h⟩ := bind_eq_ok.1 h
    obtain ⟨hc, rfl⟩ := check_eq_ok.1 h₁
    cases o with
    | none =>
      obtain ⟨hfindings, hall, hmem⟩ := ih h
      refine ⟨hfindings, ?_, fun a => ?_⟩
      · exact List.forall_mem_cons.2 ⟨⟨_, hc⟩, hall⟩
      · rw [hmem, List.exists_mem_cons_iff, hc]
        simp
    | some b =>
      obtain ⟨_, w₂, h₂, h⟩ := bind_eq_ok.1 h
      obtain ⟨bs, w₃, h₃, h⟩ := bind_eq_ok.1 h
      obtain ⟨rfl, rfl⟩ := pure_eq_ok.1 h
      obtain ⟨hfindings, hall, hmem⟩ := ih h₃
      refine ⟨hfindings.trans (findings_of_emit h₂), ?_, fun a => ?_⟩
      · exact List.forall_mem_cons.2 ⟨⟨_, hc⟩, hall⟩
      · rw [List.mem_cons, hmem, List.exists_mem_cons_iff, hc]
        simp [eq_comm]

end LinkState.Repair
