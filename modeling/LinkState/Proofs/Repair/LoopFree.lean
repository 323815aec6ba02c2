import LinkState.Proofs.Repair.Protected
import LinkState.Proofs.Topology.LeastMetric

/-!
# Loop-free alternates are exact

The inequalities between distances by which a candidate is assessed say that no least walk comes by
a node (`leastMetric_lt_add_iff`), since all distances used have been computed anew: those of the
root, of the far end, of the candidates, and of the primary next hops, which are either the far end
or members of the LAN there and so candidates themselves (`Assessed.primary_known`).

* `protectsNode_eq_ok`, `avoidsLan_eq_ok`, `localKind?_eq_ok` and `assessLocal_eq_ok` say this of
  one candidate and one destination (`Qualifies`).
* `loopFree_assessed` says that the alternates are those found by assessing every candidate for
  every affected destination.
* `mem_loopFree_iff` puts them together.
-/

namespace LinkState.Repair

open LinkState.Topology Compute

variable {t : Topology} {root : NodeId} {e : EdgeId} {l : Level} {w w' : Workspace} {edge : Edge}
  {f : Findings} {strict : Bool}

/-! ## Assessing a candidate -/

theorem protectsNode_eq_ok {n d : NodeId} (hn : f.Knows t l n)
    (hfin : t.leastMetric l n d ≠ .infinite) {ps : List NodeId} (hps : ∀ p ∈ ps, f.Knows t l p)
    {b : Bool} (h : protectsNode t l f n d (t.leastMetric l n d) ps = .ok b) :
    b = true ↔ ∀ p ∈ ps, p ≠ d ∧ Avoids t l n d p := by
  induction ps with
  | nil =>
    cases h
    simp
  | cons p ps ih =>
    obtain ⟨hp, hps⟩ := List.forall_mem_cons.1 hps
    unfold protectsNode at h
    split at h
    · rename_i hpd
      cases h
      simp [hpd]
    rename_i hpd
    obtain ⟨there, hthere, h⟩ := except_bind_eq_ok.1 h
    obtain ⟨onward, honward, h⟩ := except_bind_eq_ok.1 h
    rw [List.forall_mem_cons, and_iff_right hpd]
    split at h <;> rename_i hlt <;>
      rw [distance_eq hn hthere, distance_eq hp honward, leastMetric_lt_add_iff,
        and_iff_right hfin] at hlt
    · rw [ih hps h, and_iff_right hlt]
    · cases h
      simp [hlt]

theorem avoidsLan_eq_ok {lan d : NodeId} {c : Nexthop} (hc : f.Knows t l c.node)
    (hlan : f.Knows t l lan) (hfin : t.leastMetric l c.node d ≠ .infinite) {b : Bool}
    (h : avoidsLan t l f e lan d c (t.leastMetric l c.node d) = .ok b) :
    b = true ↔ c.oif ≠ e ∧ Avoids t l c.node d lan := by
  unfold avoidsLan at h
  split at h
  · rename_i hoif
    cases h
    simp [hoif]
  rename_i hoif
  obtain ⟨there, hthere, h⟩ := except_bind_eq_ok.1 h
  obtain ⟨onward, honward, h⟩ := except_bind_eq_ok.1 h
  cases h
  rw [distance_eq hc hthere, distance_eq hlan honward, decide_eq_true_iff, leastMetric_lt_add_iff,
    and_iff_right hfin, and_iff_right hoif]

/-- The node is protected: the protection asks for it, and no least walk from the candidate to the
destination comes by a primary next-hop node, none of which is the destination. -/
def NodeProtecting (t : Topology) (l : Level) (e : EdgeId) (edge : Edge) (r : Result)
    (n : NodeId) : Prop :=
  edge.protection = .linkAndNode ∧
    ∀ h ∈ r.nexthops.ip.members, h.oif = e → h.node ≠ r.node ∧ Avoids t l n r.node h.node

/-- The LAN behind the protected edge is avoided: the candidate is reached over another edge, and no
least walk from it to the destination comes by the LAN. -/
def LanAvoiding (t : Topology) (l : Level) (e : EdgeId) (edge : Edge) (r : Result) (n : NodeId)
    (oif : EdgeId) : Prop :=
  t.isPseudonode edge.target.node l = true ∧ oif ≠ e ∧ Avoids t l n r.node edge.target.node

theorem isNodeProtecting_ofPointToPoint (nodeProtecting downstream : Bool) :
    (AlternateKind.ofPointToPoint nodeProtecting downstream).isNodeProtecting = nodeProtecting := by
  cases nodeProtecting <;> cases downstream <;> rfl

theorem ofBroadcast?_eq_some (nodeProtecting downstream avoidsLan : Bool) :
    ((AlternateKind.ofBroadcast? nodeProtecting downstream avoidsLan).isSome = true ↔
        avoidsLan = true ∨ nodeProtecting = true) ∧
      ∀ k, AlternateKind.ofBroadcast? nodeProtecting downstream avoidsLan = some k →
        k.isNodeProtecting = nodeProtecting := by
  cases nodeProtecting <;> cases downstream <;> cases avoidsLan <;>
    simp [AlternateKind.ofBroadcast?, AlternateKind.isNodeProtecting]

theorem localKind?_eq (d : Affected) (c : Nexthop) (metric : Metric) :
    localKind? t l f e edge d c metric =
      (if edge.protectsNode then protectsNode t l f c.node d.node metric d.primaries
        else pure false) >>= fun nodeProtecting =>
      if t.isPseudonode edge.target.node l then
        avoidsLan t l f e edge.target.node d.node c metric >>= fun avoids =>
          pure (AlternateKind.ofBroadcast? nodeProtecting (decide (metric < d.metric)) avoids)
      else
        pure (some (AlternateKind.ofPointToPoint nodeProtecting (decide (metric < d.metric)))) := by
  unfold localKind?
  cases edge.protectsNode <;> rfl

theorem nodeProtecting_eq_ok {r : Result} {c : Nexthop} (hc : f.Knows t l c.node)
    (hprimaries : ∀ h ∈ r.nexthops.ip.members, h.oif = e → f.Knows t l h.node)
    (hfin : t.leastMetric l c.node r.node ≠ .infinite) {b : Bool}
    (h : (if edge.protectsNode then
        protectsNode t l f c.node r.node (t.leastMetric l c.node r.node) (affectedOf e r).primaries
      else pure false) = .ok b) :
    b = true ↔ NodeProtecting t l e edge r c.node := by
  have hps : ∀ p ∈ (affectedOf e r).primaries, f.Knows t l p := by
    intro p hp
    obtain ⟨x, hx, rfl⟩ := List.mem_map.1 hp
    obtain ⟨hx, hoif⟩ := List.mem_filter.1 hx
    exact hprimaries x hx (by simpa using hoif)
  unfold NodeProtecting
  split at h
  · rename_i hprot
    rw [protectsNode_eq_ok hc hfin hps h,
      and_iff_right (by simpa [Edge.protectsNode] using hprot)]
    simp only [affectedOf, List.mem_map, List.mem_filter, beq_iff_eq]
    constructor
    · exact fun hall x hx hoif => hall x.node ⟨x, ⟨hx, hoif⟩, rfl⟩
    · rintro hall p ⟨x, ⟨hx, hoif⟩, rfl⟩
      exact hall x hx hoif
  · rename_i hprot
    cases h
    simp only [Bool.false_eq_true, false_iff, not_and]
    exact fun hp => absurd (by simp [Edge.protectsNode, hp]) hprot

/-- The kind of a loop-free candidate: there is one unless the LAN behind the edge is neither
avoided nor made up for by protecting the node, and it tells whether the node is protected. -/
theorem localKind?_eq_ok {r : Result} {c : Nexthop} (hc : f.Knows t l c.node)
    (hfar : f.Knows t l edge.target.node)
    (hprimaries : ∀ h ∈ r.nexthops.ip.members, h.oif = e → f.Knows t l h.node)
    (hfin : t.leastMetric l c.node r.node ≠ .infinite) {o : Option AlternateKind}
    (h : localKind? t l f e edge (affectedOf e r) c (t.leastMetric l c.node r.node) = .ok o) :
    (o.isSome = true ↔ (t.isPseudonode edge.target.node l = true →
        LanAvoiding t l e edge r c.node c.oif ∨ NodeProtecting t l e edge r c.node)) ∧
      ∀ k, o = some k → (k.isNodeProtecting = true ↔ NodeProtecting t l e edge r c.node) := by
  rw [localKind?_eq] at h
  obtain ⟨np, hnp, h⟩ := except_bind_eq_ok.1 h
  have hnode : np = true ↔ NodeProtecting t l e edge r c.node :=
    nodeProtecting_eq_ok hc hprimaries hfin hnp
  split at h
  · rename_i hlan
    obtain ⟨avoids, havoids, h⟩ := except_bind_eq_ok.1 h
    cases h
    have hav := avoidsLan_eq_ok hc hfar hfin havoids
    obtain ⟨hsome, hkind⟩ := ofBroadcast?_eq_some np
      (decide (t.leastMetric l c.node r.node < (affectedOf e r).metric)) avoids
    refine ⟨?_, fun k hk => ?_⟩
    · rw [hsome, hav, hnode, LanAvoiding, and_iff_right hlan]
      exact ⟨fun h _ => h, fun h => h hlan⟩
    · rw [hkind k hk, hnode]
  · rename_i hlan
    cases h
    refine ⟨?_, fun k hk => ?_⟩
    · simp [hlan]
    · cases hk
      rw [isNodeProtecting_ofPointToPoint, hnode]

/-- What makes a candidate an alternate for an affected destination. -/
structure Qualifies (t : Topology) (l : Level) (root : NodeId) (e : EdgeId) (edge : Edge)
    (strict : Bool) (r : Result) (n : NodeId) (oif : EdgeId) : Prop where
  reaches : t.leastMetric l n r.node ≠ .infinite
  loop_free : Avoids t l n r.node root
  downstream : strict = true → t.leastMetric l n r.node < t.leastMetric l root r.node
  lan : t.isPseudonode edge.target.node l = true →
    LanAvoiding t l e edge r n oif ∨ NodeProtecting t l e edge r n
  single : r.nexthops.ip.members.length = 1 ∨ NodeProtecting t l e edge r n

theorem refused {P : Prop} {Q : Alternate → Prop} (h : ¬P) :
    ((none : Option Alternate).isSome = true ↔ P) ∧ ∀ a, (none : Option Alternate) = some a → Q a :=
  ⟨by simp [h], by rintro a ⟨⟩⟩

/-- **The assessment of a candidate is exact.** -/
theorem assessLocal_eq_ok {r : Result} {c : Nexthop} (hroot : f.Exact t l root)
    (hr : r ∈ f.destinations root) (hr' : IsAffected root e r) (hc : f.Knows t l c.node)
    (hfar : f.Knows t l edge.target.node)
    (hprimaries : ∀ h ∈ r.nexthops.ip.members, h.oif = e → f.Knows t l h.node)
    {o : Option Alternate}
    (h : assessLocal t l f root e edge strict (affectedOf e r) c = .ok o) :
    (o.isSome = true ↔ t.leastMetric l root c.node ≠ .infinite ∧
        Qualifies t l root e edge strict r c.node c.oif) ∧
      ∀ a, o = some a → a.node = c.node ∧ a.destination = r.node ∧ a.nexthop = c := by
  have hmetric : (affectedOf e r).metric = t.leastMetric l root r.node :=
    hroot.metric_eq r (hroot.mem_destinations.1 hr).1
  unfold assessLocal at h
  obtain ⟨near, hnear, h⟩ := except_bind_eq_ok.1 h
  cases distance_eq (.inr hroot) hnear
  split at h
  · rename_i hinf
    cases h
    exact refused fun hq => hq.1 hinf
  rename_i hnear
  rw [and_iff_right hnear]
  obtain ⟨metric, hdist, h⟩ := except_bind_eq_ok.1 h
  obtain ⟨back, hback, h⟩ := except_bind_eq_ok.1 h
  cases distance_eq hc hdist
  cases distance_eq hc hback
  split at h <;> rename_i hloop <;>
    rw [Bool.not_eq_true', decide_eq_false_iff_not, hmetric] at hloop
  · cases h
    exact refused fun hq => hloop (leastMetric_lt_add_iff.2 ⟨hq.reaches, hq.loop_free⟩)
  obtain ⟨hfin, havoids⟩ := leastMetric_lt_add_iff.1 (Decidable.not_not.1 hloop)
  split at h <;> rename_i hstrict <;>
    rw [Bool.and_eq_true, Bool.not_eq_true', decide_eq_false_iff_not, hmetric] at hstrict
  · cases h
    exact refused fun hq => hstrict.2 (hq.downstream hstrict.1)
  rw [not_and_not_right] at hstrict
  obtain ⟨kind, hkind, h⟩ := except_bind_eq_ok.1 h
  obtain ⟨hsome, hprotects⟩ := localKind?_eq_ok hc hfar hprimaries hfin hkind
  cases kind with
  | none =>
    cases h
    exact refused fun hq => by simpa using hsome.2 hq.lan
  | some kind =>
    have hnode := hprotects kind rfl
    dsimp only at h
    split at h <;> rename_i hecmp <;>
      rw [Bool.and_eq_true, Bool.not_eq_true', ← Bool.not_eq_true, hnode] at hecmp
    · cases h
      have hmany : 1 < r.nexthops.ip.size := by simpa [affectedOf] using hecmp.1
      exact refused fun hq => hq.single.elim (fun h => hr'.single_iff.2 h hmany) hecmp.2
    · cases h
      refine ⟨iff_of_true rfl ⟨hfin, havoids, hstrict, hsome.1 rfl, ?_⟩, ?_⟩
      · rw [← hr'.single_iff]
        by_cases hmany : 1 < r.nexthops.ip.size
        · exact .inr (not_and_not_right.1 hecmp (by simpa [affectedOf] using hmany))
        · exact .inl hmany
      · rintro a ⟨⟩
        exact ⟨rfl, rfl, rfl⟩

/-! ## The run -/

theorem mem_candidates {c : Nexthop} : c ∈ candidates t l root e edge ↔
    ∃ nb ∈ t.logicalNeighbours root l,
      (t.isPseudonode edge.target.node l = true ∨ nb.out.id ≠ e) ∧ nb.node ≠ root ∧
        t.isOverloaded nb.node l = false ∧ nb.nexthop = c := by
  simp only [candidates, List.mem_map, List.mem_filter, Bool.and_eq_true, Bool.or_eq_true,
    bne_iff_ne, Bool.not_eq_true']
  constructor
  · rintro ⟨nb, ⟨hnb, ⟨hedge, hne⟩, hover⟩, rfl⟩
    exact ⟨nb, hnb, hedge, hne, hover, rfl⟩
  · rintro ⟨nb, hnb, hedge, hne, hover, rfl⟩
    exact ⟨nb, ⟨hnb, ⟨hedge, hne⟩, hover⟩, rfl⟩

theorem root_not_mem_candidates (t : Topology) (l : Level) (root : NodeId) (e : EdgeId)
    (edge : Edge) : root ∉ ((candidates t l root e edge).map (·.node)).eraseDups := by
  rw [List.mem_eraseDups, List.mem_map]
  rintro ⟨c, hc, hcr⟩
  obtain ⟨nb, -, -, hne, -, rfl⟩ := mem_candidates.1 hc
  exact hne hcr

/-- Searching from each node of a list makes them all known. -/
theorem computeAllDistances_computed (hw : t.WellFormed) {ns : List NodeId}
    (h : computeAllDistances t l ns w = .ok () w') :
    (∀ n ∈ ns, (w'.findings.get l).Knows t l n) ∧
      (∀ x, (w.findings.get l).Knows t l x → (w'.findings.get l).Knows t l x) ∧
        ∀ x, x ∉ ns → (w.findings.get l).SameResults (w'.findings.get l) x := by
  induction ns generalizing w with
  | nil =>
    obtain ⟨-, rfl⟩ := pure_eq_ok.1 h
    exact ⟨by simp, fun x hx => hx, fun x _ => .refl _ x⟩
  | cons n ns ih =>
    unfold computeAllDistances at h
    obtain ⟨_, w₁, h₁, h⟩ := bind_eq_ok.1 h
    have hn := computeDistances_computed hw h₁
    obtain ⟨hall, hkeeps, hothers⟩ := ih h
    refine ⟨List.forall_mem_cons.2 ⟨hkeeps n hn.knows, hall⟩, fun x hx => hkeeps x (hn.keeps hx),
      fun x hx => ?_⟩
    rw [List.mem_cons, not_or] at hx
    exact (hn.others x hx.1).trans (hothers x hx.2)

theorem assessAll_eq_ok {cs : List Nexthop} {ds : List Affected} {as : List Alternate}
    (h : assessAll t l f root e edge strict cs ds w = .ok as w') :
    w'.findings = w.findings ∧
      (∀ d ∈ ds, ∀ c ∈ cs, ∃ o, assessLocal t l f root e edge strict d c = .ok o) ∧
        ∀ a, a ∈ as ↔
          ∃ d ∈ ds, ∃ c ∈ cs, assessLocal t l f root e edge strict d c = .ok (some a) := by
  induction ds generalizing w as with
  | nil =>
    obtain ⟨rfl, rfl⟩ := pure_eq_ok.1 h
    simp
  | cons d ds ih =>
    unfold assessAll at h
    obtain ⟨found, w₁, h₁, h⟩ := bind_eq_ok.1 h
    obtain ⟨hfound, hall, hmem⟩ := collect_eq_ok h₁
    have hrest : ∃ w₂ bs, w₂.findings = w₁.findings ∧
        assessAll t l f root e edge strict cs ds w₂ = .ok bs w' ∧ found ++ bs = as := by
      dsimp only at h
      split at h
      · obtain ⟨_, w₂, h₂, h⟩ := bind_eq_ok.1 h
        obtain ⟨bs, w₃, h₃, h⟩ := bind_eq_ok.1 h
        obtain ⟨rfl, rfl⟩ := pure_eq_ok.1 h
        exact ⟨w₂, bs, findings_of_emit h₂, h₃, rfl⟩
      · obtain ⟨bs, w₃, h₃, h⟩ := bind_eq_ok.1 h
        obtain ⟨rfl, rfl⟩ := pure_eq_ok.1 h
        exact ⟨w₁, bs, rfl, h₃, rfl⟩
    obtain ⟨w₂, bs, hw₂, h₂, rfl⟩ := hrest
    obtain ⟨hfound', hall', hmem'⟩ := ih h₂
    refine ⟨hfound'.trans (hw₂.trans hfound), List.forall_mem_cons.2 ⟨hall, hall'⟩, fun a => ?_⟩
    rw [List.mem_append, hmem, hmem', List.exists_mem_cons_iff]

/-- The alternates of a record are those found by assessing every candidate for every affected
destination, and all distances that this takes are known. -/
structure Assessed (t : Topology) (l : Level) (root : NodeId) (e : EdgeId) (edge : Edge)
    (strict : Bool) (f : Findings) (as : List Alternate) : Prop where
  root_exact : f.Exact t l root
  far_known : f.Knows t l edge.target.node
  candidate_known : ∀ d ∈ affected root e f, ∀ c ∈ candidates t l root e edge, f.Knows t l c.node
  succeeds : ∀ d ∈ affected root e f, ∀ c ∈ candidates t l root e edge,
    ∃ o, assessLocal t l f root e edge strict d c = .ok o
  mem_iff : ∀ a, a ∈ as ↔ ∃ d ∈ affected root e f, ∃ c ∈ candidates t l root e edge,
    assessLocal t l f root e edge strict d c = .ok (some a)

theorem loopFree_assessed (hw : t.WellFormed) (hedge : t.edges.get? e = some edge)
    (hprotected : edge.isProtected = true) {rec : Option RepairRecord}
    (h : loopFree t l root e strict w = .ok rec w') :
    InOrder t root e l edge ∧
      Assessed t l root e edge strict (w'.findings.get l) (alternatesOf rec) := by
  unfold loopFree at h
  obtain ⟨edge', w₁, h₁, h⟩ := bind_eq_ok.1 h
  obtain ⟨rfl, rfl, horder⟩ := requireProtected_eq_ok hedge h₁
  refine ⟨horder, ?_⟩
  rw [hprotected] at h
  obtain ⟨_, w₂, h₂, h⟩ := bind_eq_ok.1 h
  obtain ⟨_, w₃, h₃, h⟩ := bind_eq_ok.1 h
  obtain ⟨_, w₄, h₄, h⟩ := bind_eq_ok.1 h
  obtain ⟨f, w₅, h₅, h⟩ := bind_eq_ok.1 h
  obtain ⟨rfl, rfl⟩ := findings_eq_ok.1 h₅
  have hroot := computeDistances_computed hw h₃
  have hfar := computeDistances_computed hw h₄
  have hexact : (w₄.findings.get l).Exact t l root :=
    (hfar.keeps hroot.knows).exact horder.root_forwards
  dsimp only at h
  split at h
  · rename_i hempty
    obtain ⟨rfl, rfl⟩ := pure_eq_ok.1 h
    have hnone : affected root e (w₄.findings.get l) = [] := List.isEmpty_iff.1 hempty
    exact ⟨hexact, hfar.knows, by simp [hnone], by simp [hnone], by simp [hnone, alternatesOf]⟩
  · obtain ⟨_, w₅, h₅, h⟩ := bind_eq_ok.1 h
    obtain ⟨f, w₆, h₆, h⟩ := bind_eq_ok.1 h
    obtain ⟨rfl, rfl⟩ := findings_eq_ok.1 h₆
    obtain ⟨as, w₇, h₇, h⟩ := bind_eq_ok.1 h
    obtain ⟨rfl, rfl⟩ := pure_eq_ok.1 h
    obtain ⟨hall, hkeeps, hothers⟩ := computeAllDistances_computed hw h₅
    obtain ⟨hsame, hsucceeds, hmem⟩ := assessAll_eq_ok h₇
    have hroot' := hothers root (root_not_mem_candidates t l root e edge)
    have haffected : affected root e (w₅.findings.get l) = affected root e (w₄.findings.get l) := by
      rw [affected, affected, hroot'.2]
    rw [hsame, alternatesOf_nonempty?]
    refine ⟨hexact.congr hroot', hkeeps _ hfar.knows, fun d _ c hc => ?_, ?_, ?_⟩
    · exact hall c.node (List.mem_eraseDups.2 (List.mem_map_of_mem hc))
    · rw [haffected]
      exact hsucceeds
    · rw [haffected]
      exact hmem

/-- A primary next-hop node is the far end or a candidate, or it is overloaded. -/
theorem primary_candidate [t.Listed] (horder : InOrder t root e l edge)
    (hroot : f.Exact t l root) {r : Result} (hr : r ∈ f.destinations root) {x : Nexthop}
    (hx : x ∈ r.nexthops.ip.members) (hoif : x.oif = e) :
    x.node = edge.target.node ∨ t.isOverloaded x.node l = true ∨
      x ∈ candidates t l root e edge := by
  obtain ⟨nb, hnb, rfl, hout⟩ := primary_neighbour horder hroot hr hx hoif
  rcases ((mem_logicalNeighbours t).1 hnb).2 with ⟨-, -, hnode⟩ | ⟨hlan, c, -, -, hne, hnode⟩
  · exact .inl (hnode.trans (by rw [hout]))
  · rw [hout] at hlan
    cases hover : t.isOverloaded nb.node l with
    | true => exact .inr (.inl hover)
    | false => exact .inr (.inr (mem_candidates.2 ⟨nb, hnb, .inl hlan, hnode ▸ hne, hover, rfl⟩))

theorem Assessed.primary_known [t.Listed] {as : List Alternate}
    (h : Assessed t l root e edge strict f as) (horder : InOrder t root e l edge) {r : Result}
    (hr : r ∈ f.destinations root) (hr' : IsAffected root e r) :
    ∀ x ∈ r.nexthops.ip.members, x.oif = e → f.Knows t l x.node := by
  intro x hx hoif
  rcases primary_candidate horder h.root_exact hr hx hoif with hfar | hover | hc
  · exact hfar ▸ h.far_known
  · exact .inl hover
  · exact h.candidate_known _ (mem_affected.2 ⟨r, hr, hr', rfl⟩) x hc

/-! ## Exactness -/

/-- A neighbour that may serve as an alternate, reached over an edge of the root: it is not
overloaded, it can be reached, and the edge is not the protected one unless that leads to a LAN. -/
structure IsCandidate (t : Topology) (l : Level) (root : NodeId) (e : EdgeId) (edge : Edge)
    (n : NodeId) (oif : EdgeId) : Prop where
  neighbour : ∃ nb ∈ t.logicalNeighbours root l, nb.node = n ∧ nb.out.id = oif
  ne_root : n ≠ root
  forwards : t.isOverloaded n l = false
  near : t.leastMetric l root n ≠ .infinite
  other_edge : oif ≠ e ∨ t.isPseudonode edge.target.node l = true

/-- **Loop-free alternates are exact in terms of paths.** In every topology that can be built, the
record for a protected edge holds an alternate for a destination that is a given node, reached over
a given edge, if and only if the destination is affected, the node is a candidate, it reaches the
destination, none of its least walks there comes by the root, it is nearer to the destination than
the root if that is asked for, over a LAN it avoids the LAN or protects the node, and it protects
the node unless the destination has a single next hop. -/
theorem mem_loopFree_iff (history : List Change) (l : Level) (root : NodeId) (e : EdgeId)
    (strict : Bool) {edge : Edge} (hedge : (after {} history).edges.get? e = some edge)
    (hprotected : edge.isProtected = true) {w w' : Workspace} {rec : Option RepairRecord}
    (h : loopFree (after {} history) l root e strict w = .ok rec w') (n d : NodeId)
    (oif : EdgeId) :
    (∃ a ∈ alternatesOf rec, a.node = n ∧ a.nexthop.oif = oif ∧ a.destination = d) ↔
      ∃ r ∈ (w'.findings.get l).destinations root, r.node = d ∧ IsAffected root e r ∧
        IsCandidate (after {} history) l root e edge n oif ∧
          Qualifies (after {} history) l root e edge strict r n oif := by
  obtain ⟨horder, has⟩ := loopFree_assessed (wellFormed_after history) hedge hprotected h
  have hassess : ∀ r ∈ (w'.findings.get l).destinations root, IsAffected root e r →
      ∀ c ∈ candidates (after {} history) l root e edge, ∀ o,
        assessLocal (after {} history) l (w'.findings.get l) root e edge strict (affectedOf e r) c =
            .ok o → _ := fun r hr hr' c hc o =>
    assessLocal_eq_ok has.root_exact hr hr'
      (has.candidate_known _ (mem_affected.2 ⟨r, hr, hr', rfl⟩) c hc) has.far_known
      (has.primary_known horder hr hr')
  constructor
  · rintro ⟨a, ha, rfl, rfl, rfl⟩
    obtain ⟨d, hd, c, hc, ha⟩ := (has.mem_iff a).1 ha
    obtain ⟨r, hr, hr', rfl⟩ := mem_affected.1 hd
    obtain ⟨hsome, hfields⟩ := hassess r hr hr' c hc _ ha
    obtain ⟨hnode, hdest, hnexthop⟩ := hfields a rfl
    obtain ⟨hnear, hq⟩ := hsome.1 rfl
    obtain ⟨nb, hnb, hother, hne, hover, rfl⟩ := mem_candidates.1 hc
    rw [hnode, hdest, hnexthop]
    exact ⟨r, hr, rfl, hr', ⟨⟨nb, hnb, rfl, rfl⟩, hne, hover, hnear, hother.symm⟩, hq⟩
  · rintro ⟨r, hr, rfl, hr', ⟨⟨nb, hnb, rfl, rfl⟩, hne, hover, hnear, hother⟩, hq⟩
    have hc : nb.nexthop ∈ candidates (after {} history) l root e edge :=
      mem_candidates.2 ⟨nb, hnb, hother.symm, hne, hover, rfl⟩
    have hd : affectedOf e r ∈ affected root e (w'.findings.get l) :=
      mem_affected.2 ⟨r, hr, hr', rfl⟩
    obtain ⟨o, ho⟩ := has.succeeds _ hd _ hc
    obtain ⟨hsome, hfields⟩ := hassess r hr hr' _ hc _ ho
    obtain ⟨a, rfl⟩ := Option.isSome_iff_exists.1 (hsome.2 ⟨hnear, hq⟩)
    obtain ⟨hnode, hdest, hnexthop⟩ := hfields a rfl
    exact ⟨a, (has.mem_iff a).2 ⟨_, hd, _, hc, ho⟩, hnode, by rw [hnexthop]; rfl, hdest⟩

/-- In the ring the fifth router is an alternate of the first one for the third one, and it protects
the second one. -/
theorem mem_loopFree_iff_pentagon : ∃ edge rec w',
    (after {} Run.pentagon).edges.get? ⟨0, 0⟩ = some edge ∧ edge.isProtected = true ∧
      loopFree (after {} Run.pentagon) .l1 ⟨0, 0⟩ ⟨0, 0⟩ false {} = .ok rec w' ∧
        ∃ r ∈ (w'.findings.get .l1).destinations ⟨0, 0⟩, r.node = ⟨2, 0⟩ ∧
          IsAffected ⟨0, 0⟩ ⟨0, 0⟩ r ∧
            IsCandidate (after {} Run.pentagon) .l1 ⟨0, 0⟩ ⟨0, 0⟩ edge ⟨4, 0⟩ ⟨9, 0⟩ ∧
              Qualifies (after {} Run.pentagon) .l1 ⟨0, 0⟩ ⟨0, 0⟩ edge false r ⟨4, 0⟩ ⟨9, 0⟩ := by
  have hprotected : ((after {} Run.pentagon).edges.get? ⟨0, 0⟩).any (·.isProtected) = true := by
    decide +kernel
  rw [Option.any_eq_true] at hprotected
  obtain ⟨edge, hedge, hprotected⟩ := hprotected
  obtain ⟨rec, w', h, hany⟩ := exists_of_yields
    (c := loopFree (after {} Run.pentagon) .l1 ⟨0, 0⟩ ⟨0, 0⟩ false) (w := {})
    (p := fun rec => (alternatesOf rec).any fun a =>
      a.node == ⟨4, 0⟩ && a.nexthop.oif == ⟨9, 0⟩ && a.destination == ⟨2, 0⟩) (by decide +kernel)
  rw [List.any_eq_true] at hany
  obtain ⟨a, ha, hfields⟩ := hany
  rw [Bool.and_eq_true, Bool.and_eq_true, beq_iff_eq, beq_iff_eq, beq_iff_eq] at hfields
  obtain ⟨⟨hnode, hoif⟩, hdest⟩ := hfields
  exact ⟨edge, rec, w', hedge, hprotected, h,
    (mem_loopFree_iff Run.pentagon .l1 ⟨0, 0⟩ ⟨0, 0⟩ false hedge hprotected h ⟨4, 0⟩ ⟨2, 0⟩
      ⟨9, 0⟩).1 ⟨a, ha, hnode, hoif, hdest⟩⟩

end LinkState.Repair
