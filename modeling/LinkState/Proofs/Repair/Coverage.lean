import LinkState.Proofs.Repair.LoopFree
import Mathlib.Data.List.Nodup

/-!
# Which destinations have an alternate

When a link fails, a destination is lost if all its next hops leave through that link. A neighbour
over another link `TakesOver` if it brings the traffic there without the root and, where the link
leads to a LAN, without the LAN. Such a neighbour is an alternate if the destination has a single
next hop, which it always has over a point-to-point link (`single_of_router`).

Over a LAN it may have several: one interface, but several members of the LAN. To the assessment
that looks like a destination which the failure of one link leaves a path, and only an alternate
that protects all those members is accepted. `hasAlternate_iff` says that this is the one thing that
can be in the way, and `no_alternate_sharedLan` shows a destination that is left without an
alternate for this reason.
-/

namespace LinkState.Repair

open LinkState.Topology Compute

variable {t : Topology} {root : NodeId} {e : EdgeId} {l : Level} {w w' : Workspace} {edge : Edge}
  {f : Findings} {strict : Bool} {r : Result}

/-- A neighbour that can take over the traffic for a destination when the link behind the protected
edge fails: it is reached over another edge, and none of its least walks to the destination comes by
the root or by the LAN to which the edge leads. -/
structure TakesOver (t : Topology) (l : Level) (root : NodeId) (e : EdgeId) (edge : Edge)
    (d : NodeId) (nb : LogicalNeighbour) : Prop where
  neighbour : nb ∈ t.logicalNeighbours root l
  other_edge : nb.out.id ≠ e
  ne_root : nb.node ≠ root
  forwards : t.isOverloaded nb.node l = false
  near : t.leastMetric l root nb.node ≠ .infinite
  reaches : t.leastMetric l nb.node d ≠ .infinite
  loop_free : Avoids t l nb.node d root
  avoids_lan : t.isPseudonode edge.target.node l = true → Avoids t l nb.node d edge.target.node

theorem TakesOver.isCandidate {d : NodeId} {nb : LogicalNeighbour}
    (h : TakesOver t l root e edge d nb) : IsCandidate t l root e edge nb.node nb.out.id :=
  ⟨⟨nb, h.neighbour, rfl, rfl⟩, h.ne_root, h.forwards, h.near, .inl h.other_edge⟩

/-- A neighbour that takes over qualifies for a destination with a single next hop. -/
theorem TakesOver.qualifies {nb : LogicalNeighbour} (h : TakesOver t l root e edge r.node nb)
    (hsingle : r.nexthops.ip.members.length = 1) :
    Qualifies t l root e edge false r nb.node nb.out.id :=
  ⟨h.reaches, h.loop_free, nofun, fun hlan => .inl ⟨hlan, h.other_edge, h.avoids_lan hlan⟩,
    .inl hsingle⟩

/-- The candidates as nodes reached over edges of the root. -/
theorem exists_candidate_iff {P : NodeId → EdgeId → Prop} :
    (∃ c ∈ candidates t l root e edge, t.leastMetric l root c.node ≠ .infinite ∧ P c.node c.oif) ↔
      ∃ n oif, IsCandidate t l root e edge n oif ∧ P n oif := by
  constructor
  · rintro ⟨c, hc, hnear, h⟩
    obtain ⟨nb, hnb, hother, hne, hover, rfl⟩ := mem_candidates.1 hc
    exact ⟨nb.node, nb.out.id, ⟨⟨nb, hnb, rfl, rfl⟩, hne, hover, hnear, hother.symm⟩, h⟩
  · rintro ⟨n, oif, ⟨⟨nb, hnb, rfl, rfl⟩, hne, hover, hnear, hother⟩, h⟩
    exact ⟨nb.nexthop, mem_candidates.2 ⟨nb, hnb, hother.symm, hne, hover, rfl⟩, hnear, h⟩

/-- **An affected destination has an alternate if and only if some candidate qualifies.** -/
theorem Assessed.exists_alternate_iff [t.Listed] {as : List Alternate}
    (h : Assessed t l root e edge strict f as) (horder : InOrder t root e l edge)
    (hr : r ∈ f.destinations root) (hr' : IsAffected root e r) :
    (∃ a ∈ as, a.destination = r.node) ↔ ∃ n oif, IsCandidate t l root e edge n oif ∧
      Qualifies t l root e edge strict r n oif := by
  have hd : affectedOf e r ∈ affected root e f := mem_affected.2 ⟨r, hr, hr', rfl⟩
  have hassess : ∀ r' ∈ f.destinations root, IsAffected root e r' →
      ∀ c ∈ candidates t l root e edge, ∀ o,
        assessLocal t l f root e edge strict (affectedOf e r') c = .ok o → _ :=
    fun r' hmem haff c hc o => assessLocal_eq_ok h.root_exact hmem haff
      (h.candidate_known _ (mem_affected.2 ⟨r', hmem, haff, rfl⟩) c hc) h.far_known
      (h.primary_known horder hmem haff)
  rw [← exists_candidate_iff]
  constructor
  · rintro ⟨a, ha, hdest⟩
    obtain ⟨d, hd, c, hc, ha⟩ := (h.mem_iff a).1 ha
    obtain ⟨r', hmem, haff, rfl⟩ := mem_affected.1 hd
    obtain ⟨hsome, hfields⟩ := hassess r' hmem haff c hc _ ha
    -- a node is found once, so the alternate was given to this very result
    have hsame : r' = r := List.inj_on_of_nodup_map h.root_exact.nodup
      (h.root_exact.mem_destinations.1 hmem).1 (h.root_exact.mem_destinations.1 hr).1
      ((hfields a rfl).2.1.symm.trans hdest)
    exact ⟨c, hc, hsame ▸ hsome.1 rfl⟩
  · rintro ⟨c, hc, hqualifies⟩
    obtain ⟨o, ho⟩ := h.succeeds _ hd c hc
    obtain ⟨hsome, hfields⟩ := hassess r hr hr' c hc o ho
    obtain ⟨a, rfl⟩ := Option.isSome_iff_exists.1 (hsome.2 hqualifies)
    exact ⟨a, (h.mem_iff a).2 ⟨_, hd, c, hc, ho⟩, (hfields a rfl).2.1⟩

/-- Over a link to a router there is one next hop only. -/
theorem single_of_router [t.Listed] (horder : InOrder t root e l edge) (hf : f.Exact t l root)
    (hr : r ∈ f.destinations root) (hr' : IsAffected root e r)
    (hfar : t.isPseudonode edge.target.node l = false)
    (hall : ∀ h ∈ r.nexthops.ip.members, h.oif = e) : r.nexthops.ip.members.length = 1 := by
  have hsame : ∀ h ∈ r.nexthops.ip.members,
      h = (⟨edge.target.node, ⟨e, edge⟩, none⟩ : LogicalNeighbour).nexthop := by
    intro h hh
    obtain ⟨nb, hnb, rfl, hout⟩ := primary_neighbour horder hf hr hh (hall h hh)
    rcases ((mem_logicalNeighbours t).1 hnb).2 with ⟨-, hlan, hnode⟩ | ⟨hlan, -⟩
    · rw [LogicalNeighbour.nexthop, LogicalNeighbour.nexthop, hnode, hlan, hout]
    · rw [hout, hfar] at hlan
      cases hlan
  have hnodup := r.nexthops.ip.nodup
  rw [List.eq_replicate_of_mem hsame, List.nodup_replicate] at hnodup
  obtain ⟨x, hx, -⟩ := hr'.uses
  have := List.length_pos_of_mem hx
  omega

/-- **Which destinations have an alternate when the link fails.** Let all next hops of an affected
destination leave through the protected edge, and let some neighbour take over. If the edge leads to
a router, the destination has a single next hop. In any case it has an alternate if and only if it
has a single next hop or some candidate protects all the next hops that share the edge. -/
theorem hasAlternate_iff (history : List Change) (l : Level) (root : NodeId) (e : EdgeId)
    {edge : Edge} (hedge : (after {} history).edges.get? e = some edge)
    (hprotected : edge.isProtected = true) {w w' : Workspace} {rec : Option RepairRecord}
    (h : loopFree (after {} history) l root e false w = .ok rec w') {r : Result}
    (hr : r ∈ (w'.findings.get l).destinations root) (hr' : IsAffected root e r)
    (hall : ∀ h ∈ r.nexthops.ip.members, h.oif = e) {nb : LogicalNeighbour}
    (hnb : TakesOver (after {} history) l root e edge r.node nb) :
    ((after {} history).isPseudonode edge.target.node l = false →
      r.nexthops.ip.members.length = 1) ∧
    ((∃ a ∈ alternatesOf rec, a.destination = r.node) ↔
      r.nexthops.ip.members.length = 1 ∨
        ∃ n oif, IsCandidate (after {} history) l root e edge n oif ∧
          (after {} history).leastMetric l n r.node ≠ .infinite ∧
          Avoids (after {} history) l n r.node root ∧
          NodeProtecting (after {} history) l e edge r n) := by
  obtain ⟨horder, has⟩ := loopFree_assessed (wellFormed_after history) hedge hprotected h
  refine ⟨fun hfar => single_of_router horder has.root_exact hr hr' hfar hall, ?_⟩
  rw [has.exists_alternate_iff horder hr hr']
  constructor
  · rintro ⟨n, oif, hc, hq⟩
    exact hq.single.imp_right fun hnode => ⟨n, oif, hc, hq.reaches, hq.loop_free, hnode⟩
  · rintro (hsingle | ⟨n, oif, hc, hreaches, havoids, hnode⟩)
    · exact ⟨nb.node, nb.out.id, hnb.isCandidate, hnb.qualifies hsingle⟩
    · exact ⟨n, oif, hc, hreaches, havoids, nofun, fun _ => .inr hnode, .inr hnode⟩

/-! ## Ways round a node -/

/-- Searches from two nodes, and asks whether the way from the first one to a destination is shorter
than the way through the second one. -/
def detour (t : Topology) (l : Level) (x y z : NodeId) : Compute Bool := do
  computeDistances t l x
  computeDistances t l z
  let f ← Compute.findings l
  let direct ← Compute.check (distance t l f x y)
  let there ← Compute.check (distance t l f x z)
  let onward ← Compute.check (distance t l f z y)
  return decide (direct < there + onward)

theorem avoids_of_detour (hw : t.WellFormed) {x y z : NodeId}
    (h : (detour t l x y z).yields w id = true) :
    t.leastMetric l x y ≠ .infinite ∧ Avoids t l x y z := by
  obtain ⟨b, w', h, hb⟩ := exists_of_yields h
  unfold detour at h
  obtain ⟨_, w₁, h₁, h⟩ := bind_eq_ok.1 h
  obtain ⟨_, w₂, h₂, h⟩ := bind_eq_ok.1 h
  obtain ⟨f, w₃, h₃, h⟩ := bind_eq_ok.1 h
  obtain ⟨rfl, rfl⟩ := findings_eq_ok.1 h₃
  obtain ⟨direct, w₄, h₄, h⟩ := bind_eq_ok.1 h
  obtain ⟨hdirect, rfl⟩ := check_eq_ok.1 h₄
  obtain ⟨there, w₅, h₅, h⟩ := bind_eq_ok.1 h
  obtain ⟨hthere, rfl⟩ := check_eq_ok.1 h₅
  obtain ⟨onward, w₆, h₆, h⟩ := bind_eq_ok.1 h
  obtain ⟨honward, rfl⟩ := check_eq_ok.1 h₆
  obtain ⟨rfl, rfl⟩ := pure_eq_ok.1 h
  have hz := computeDistances_computed hw h₂
  have hx := hz.keeps (computeDistances_computed hw h₁).knows
  rw [id, decide_eq_true_iff, distance_eq hx hdirect, distance_eq hx hthere,
    distance_eq hz.knows honward] at hb
  exact leastMetric_lt_add_iff.1 hb

/-- A neighbour takes over if the ways to the destination through the root and through the far end
are detours. -/
theorem exists_takesOver (hw : t.WellFormed) {n d : NodeId}
    (hnb : ((t.logicalNeighbours root l).any fun nb => nb.node == n && nb.out.id != e) = true)
    (hne : n ≠ root) (hover : t.isOverloaded n l = false)
    (hnear : (detour t l root n edge.target.node).yields w id = true)
    (hback : (detour t l n d root).yields w id = true)
    (hlan : (detour t l n d edge.target.node).yields w id = true) :
    ∃ nb, TakesOver t l root e edge d nb := by
  simp only [List.any_eq_true, Bool.and_eq_true, beq_iff_eq, bne_iff_ne] at hnb
  obtain ⟨nb, hnb, rfl, hother⟩ := hnb
  obtain ⟨hreaches, hback⟩ := avoids_of_detour hw hback
  exact ⟨nb, hnb, hother, hne, hover, (avoids_of_detour hw hnear).1, hreaches, hback,
    fun _ => (avoids_of_detour hw hlan).2⟩

/-- The loop-free alternates for a protected edge, and the destinations of the root. -/
def loopFreeResults (t : Topology) (l : Level) (root : NodeId) (e : EdgeId) :
    Compute (Option RepairRecord × List Result) := do
  let rec ← loopFree t l root e false
  return (rec, (← Compute.findings l).destinations root)

theorem exists_loopFree {p : Option RepairRecord → Result → Bool} (root : NodeId)
    (h : (loopFreeResults t l root e).yields w (fun x => x.2.any (p x.1)) = true) :
    ∃ rec w', loopFree t l root e false w = .ok rec w' ∧
      ∃ r ∈ (w'.findings.get l).destinations root, p rec r = true := by
  obtain ⟨x, w', h, hx⟩ := exists_of_yields h
  unfold loopFreeResults at h
  obtain ⟨rec, w₁, h₁, h⟩ := bind_eq_ok.1 h
  obtain ⟨f, w₂, h₂, h⟩ := bind_eq_ok.1 h
  obtain ⟨rfl, rfl⟩ := findings_eq_ok.1 h₂
  obtain ⟨rfl, rfl⟩ := pure_eq_ok.1 h
  exact ⟨rec, _, h₁, List.any_eq_true.1 hx⟩

/-- All next hops of a result of another node than the root leave through an edge, and there is
one. -/
def onlyThrough (root : NodeId) (e : EdgeId) (r : Result) : Bool :=
  r.node != root && r.nexthops.ip.usesOif e && r.nexthops.ip.members.all fun h => h.oif == e

theorem onlyThrough_iff : onlyThrough root e r = true ↔
    IsAffected root e r ∧ ∀ h ∈ r.nexthops.ip.members, h.oif = e := by
  simp only [onlyThrough, NexthopSet.usesOif, Bool.and_eq_true, bne_iff_ne, List.any_eq_true,
    List.all_eq_true, beq_iff_eq]
  constructor
  · rintro ⟨⟨hne, huses⟩, hall⟩
    exact ⟨⟨hne, huses⟩, hall⟩
  · rintro ⟨⟨hne, huses⟩, hall⟩
    exact ⟨⟨hne, huses⟩, hall⟩

/-- In the ring the fifth router takes over for the third one, which has one next hop and so an
alternate. -/
theorem hasAlternate_iff_pentagon : ∃ edge rec w',
    (after {} Run.pentagon).edges.get? ⟨0, 0⟩ = some edge ∧ edge.isProtected = true ∧
      loopFree (after {} Run.pentagon) .l1 ⟨0, 0⟩ ⟨0, 0⟩ false {} = .ok rec w' ∧
        ∃ r ∈ (w'.findings.get .l1).destinations ⟨0, 0⟩, r.node = ⟨2, 0⟩ ∧
          IsAffected ⟨0, 0⟩ ⟨0, 0⟩ r ∧ (∀ h ∈ r.nexthops.ip.members, h.oif = ⟨0, 0⟩) ∧
            (∃ nb, TakesOver (after {} Run.pentagon) .l1 ⟨0, 0⟩ ⟨0, 0⟩ edge r.node nb) ∧
              ∃ a ∈ alternatesOf rec, a.destination = r.node := by
  have hstored : (((after {} Run.pentagon).edges.get? ⟨0, 0⟩).any fun edge =>
      edge.isProtected && edge.target.node == ⟨1, 0⟩) = true := by decide +kernel
  obtain ⟨edge, hedge, hfields⟩ := Option.any_eq_true _ _ |>.1 hstored
  rw [Bool.and_eq_true, beq_iff_eq] at hfields
  obtain ⟨hprotected, hfar⟩ := hfields
  obtain ⟨rec, w', h, r, hr, hresult⟩ := exists_loopFree (t := after {} Run.pentagon) (l := .l1)
    (e := ⟨0, 0⟩) (w := {}) (p := fun _ r => r.node == ⟨2, 0⟩ && onlyThrough ⟨0, 0⟩ ⟨0, 0⟩ r)
    ⟨0, 0⟩ (by decide +kernel)
  rw [Bool.and_eq_true, beq_iff_eq, onlyThrough_iff] at hresult
  obtain ⟨hnode, hr', hall⟩ := hresult
  obtain ⟨nb, hnb⟩ : ∃ nb, TakesOver (after {} Run.pentagon) .l1 ⟨0, 0⟩ ⟨0, 0⟩ edge r.node nb := by
    rw [hnode]
    exact exists_takesOver (n := ⟨4, 0⟩) (w := {}) (wellFormed_after _) (by decide +kernel)
      (by decide) (by decide +kernel) (by rw [hfar]; decide +kernel) (by decide +kernel)
      (by rw [hfar]; decide +kernel)
  obtain ⟨hsingle, halternate⟩ :=
    hasAlternate_iff Run.pentagon .l1 ⟨0, 0⟩ ⟨0, 0⟩ hedge hprotected h hr hr' hall hnb
  exact ⟨edge, rec, w', hedge, hprotected, h, r, hr, hnode, hr', hall, ⟨nb, hnb⟩,
    halternate.2 (.inl (hsingle (by rw [hfar]; decide +kernel)))⟩

/-- A root with two routers on a LAN, which both lead on to a fourth router at the same cost. A
fifth router leads there as well, at a greater cost, from a link of the root outside the LAN. -/
def sharedLan : List Change :=
  (["s", "a", "b", "d", "n"].map fun name => .addRouter name 0 .all) ++
    [.addPseudonode "pn" .all] ++
    (List.range 3).map (fun i => .addLanLink ⟨⟨i, 0⟩, "lan", none⟩ ⟨5, 0⟩ (.saturate 1) .all) ++
    [(1, 3, 1), (2, 3, 1), (0, 4, 2), (4, 3, 3)].map (fun (i, j, metric) =>
      .addLink ⟨⟨i, 0⟩, s!"to{j}", none⟩ ⟨⟨j, 0⟩, s!"to{i}", none⟩ (.saturate metric) .all) ++
    [.setProtection ⟨0, 0⟩ .link]

/-- Both next hops of the fourth router leave through the LAN, and the fifth one takes over when the
link to the LAN fails; yet the fourth router has no alternate. -/
theorem no_alternate_sharedLan : ∃ edge rec w',
    (after {} sharedLan).edges.get? ⟨0, 0⟩ = some edge ∧ edge.isProtected = true ∧
      loopFree (after {} sharedLan) .l1 ⟨0, 0⟩ ⟨0, 0⟩ false {} = .ok rec w' ∧
        ∃ r ∈ (w'.findings.get .l1).destinations ⟨0, 0⟩, r.node = ⟨3, 0⟩ ∧
          IsAffected ⟨0, 0⟩ ⟨0, 0⟩ r ∧ (∀ h ∈ r.nexthops.ip.members, h.oif = ⟨0, 0⟩) ∧
            (∃ nb, TakesOver (after {} sharedLan) .l1 ⟨0, 0⟩ ⟨0, 0⟩ edge r.node nb) ∧
              ¬∃ a ∈ alternatesOf rec, a.destination = r.node := by
  have hstored : (((after {} sharedLan).edges.get? ⟨0, 0⟩).any fun edge =>
      edge.isProtected && edge.target.node == ⟨5, 0⟩) = true := by decide +kernel
  obtain ⟨edge, hedge, hfields⟩ := Option.any_eq_true _ _ |>.1 hstored
  rw [Bool.and_eq_true, beq_iff_eq] at hfields
  obtain ⟨hprotected, hfar⟩ := hfields
  obtain ⟨rec, w', h, r, hr, hresult⟩ := exists_loopFree (t := after {} sharedLan) (l := .l1)
    (e := ⟨0, 0⟩) (w := {}) (p := fun rec r =>
      (r.node == ⟨3, 0⟩ && onlyThrough ⟨0, 0⟩ ⟨0, 0⟩ r) &&
        decide (¬∃ a ∈ alternatesOf rec, a.destination = r.node)) ⟨0, 0⟩ (by decide +kernel)
  rw [Bool.and_eq_true, Bool.and_eq_true, beq_iff_eq, onlyThrough_iff, decide_eq_true_iff]
    at hresult
  obtain ⟨⟨hnode, hr', hall⟩, hnone⟩ := hresult
  refine ⟨edge, rec, w', hedge, hprotected, h, r, hr, hnode, hr', hall, ?_, hnone⟩
  rw [hnode]
  exact exists_takesOver (n := ⟨4, 0⟩) (w := {}) (wellFormed_after _) (by decide +kernel)
    (by decide) (by decide +kernel) (by rw [hfar]; decide +kernel) (by decide +kernel)
    (by rw [hfar]; decide +kernel)

end LinkState.Repair
