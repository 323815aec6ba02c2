import LinkState.Proofs.Repair.LoopFree

/-!
# What a backup path costs

The metric of a loop-free alternate is `d(S,N) + d(N,D)`: the cost of the least way to the
destination that comes by the neighbour (`assessLocal_metric`). But traffic is handed to the
neighbour over one edge of the root, the one that the next hop names, and that is `pathMetric`.

The two agree where the edge is itself a least way to the neighbour, and otherwise only if both are
too much for a metric (`metric_of_alternate`). Where the neighbour is nearer over other edges, be it
over the protected one, the metric is too low: in `dearLink` an alternate over a link of cost ten is
rated at three, and preferred to a cheaper one.
-/

namespace LinkState

/-- The least of some metrics, `infinite` if there are none. -/
def Metric.least : List Metric → Metric
  | [] => .infinite
  | m :: ms => if m < least ms then m else least ms

/-- Adding to two metrics keeps them apart, unless both sums are too much for a metric. -/
theorem Metric.add_right_eq_iff {a b c : Metric} :
    a + c = b + c ↔ b = a ∨ a + c = .infinite ∧ b + c = .infinite := by
  constructor
  · intro h
    by_cases hinf : a + c = .infinite
    · exact .inr ⟨hinf, h ▸ hinf⟩
    · have ha := toNat_add_of_ne_infinite hinf
      have hb := toNat_add_of_ne_infinite (h ▸ hinf)
      rw [h] at ha
      exact .inl (toNat_inj.1 (by omega))
  · rintro (rfl | ⟨ha, hb⟩)
    · rfl
    · rw [ha, hb]

namespace Repair

open LinkState.Topology Compute

variable (t : Topology) (l : Level)

/-- What it costs to hand traffic to a neighbour over an edge: the metric of the edge and, if that
leads to a LAN, of the cheapest active edge from the LAN to the neighbour. -/
def handover (out : Edge) (n : NodeId) : Metric :=
  out.cost l + if t.isPseudonode out.target.node l then
    Metric.least (((t.activeArcs out.target.node l).filter fun a => a.edge.target.node == n).map
      fun a => a.edge.cost l)
  else 0

/-- The cost of the backup path that starts with an edge and goes on from the alternate on a least
walk. -/
noncomputable def pathMetric (out : Edge) (a : Alternate) : Metric :=
  handover t l out a.node + t.leastMetric l a.node a.destination

variable {t l} {root : NodeId} {e : EdgeId} {edge : Edge} {strict : Bool} {f : Findings}
  {w w' : Workspace}

/-- **The metric of an alternate is that of the least way by the neighbour.** -/
theorem assessLocal_metric {d : Affected} {c : Nexthop} {a : Alternate} (hroot : f.Exact t l root)
    (hc : f.Knows t l c.node)
    (h : assessLocal t l f root e edge strict d c = .ok (some a)) :
    a.nexthop = c ∧
      a.metric = t.leastMetric l root a.node + t.leastMetric l a.node a.destination := by
  unfold assessLocal at h
  obtain ⟨near, hnear, h⟩ := except_bind_eq_ok.1 h
  cases distance_eq (.inr hroot) hnear
  split at h
  · cases h
  obtain ⟨metric, hdist, h⟩ := except_bind_eq_ok.1 h
  obtain ⟨back, -, h⟩ := except_bind_eq_ok.1 h
  cases distance_eq hc hdist
  split at h
  · cases h
  split at h
  · cases h
  obtain ⟨kind, -, h⟩ := except_bind_eq_ok.1 h
  cases kind with
  | none => cases h
  | some kind =>
    dsimp only at h
    split at h
    · cases h
    · cases h
      exact ⟨rfl, rfl⟩

/-- An alternate of a record comes from a candidate that has been assessed. -/
theorem exists_assessLocal (hw : t.WellFormed) {rec : Option RepairRecord}
    (h : loopFree t l root e strict w = .ok rec w') {a : Alternate} (ha : a ∈ alternatesOf rec) :
    ∃ edge, ∃ d ∈ affected root e (w'.findings.get l), ∃ c ∈ candidates t l root e edge,
      (w'.findings.get l).Exact t l root ∧ (w'.findings.get l).Knows t l c.node ∧
        assessLocal t l (w'.findings.get l) root e edge strict d c = .ok (some a) := by
  have hrun := h
  unfold loopFree at hrun
  obtain ⟨edge, w₁, h₁, hrun⟩ := bind_eq_ok.1 hrun
  obtain ⟨-, horder⟩ := inOrder_of_requireProtected h₁
  split at hrun
  · obtain ⟨rfl, -⟩ := pure_eq_ok.1 hrun
    cases ha
  rename_i hprotected
  rw [Bool.not_eq_true', Bool.not_eq_false] at hprotected
  obtain ⟨-, has⟩ := loopFree_assessed hw horder.stored hprotected h
  obtain ⟨d, hd, c, hc, hassess⟩ := (has.mem_iff a).1 ha
  exact ⟨edge, d, hd, c, hc, has.root_exact, has.candidate_known d hd c hc, hassess⟩

/-- **What the metric of an alternate stands for.** In every topology that can be built it is the
cost of the least way to the destination by the neighbour. That is the cost of the backup path,
which starts with the edge of the next hop, if and only if handing over to the neighbour on this
edge costs as little as any other way there, or both are too much for a metric; and it is not more
than the backup path costs, provided that traffic can be handed over. -/
theorem metric_of_alternate (history : List Change) (l : Level) (root : NodeId) (e : EdgeId)
    (strict : Bool) {w w' : Workspace} {rec : Option RepairRecord}
    (h : loopFree (after {} history) l root e strict w = .ok rec w') {a : Alternate}
    (ha : a ∈ alternatesOf rec) :
    a.metric = (after {} history).leastMetric l root a.node +
        (after {} history).leastMetric l a.node a.destination ∧
      ∃ out, (after {} history).edges.get? a.nexthop.oif = some out ∧ out.source.node = root ∧
        (a.metric = pathMetric (after {} history) l out a ↔
          handover (after {} history) l out a.node =
              (after {} history).leastMetric l root a.node ∨
            a.metric = .infinite ∧ pathMetric (after {} history) l out a = .infinite) ∧
        ((∃ as, Walk (after {} history) l root as a.node ∧
            cost l as = (handover (after {} history) l out a.node).toNat) →
          a.metric ≤ pathMetric (after {} history) l out a) := by
  obtain ⟨edge, d, -, c, hc, hroot, hknown, hassess⟩ :=
    exists_assessLocal (wellFormed_after history) h ha
  obtain ⟨rfl, hmetric⟩ := assessLocal_metric hroot hknown hassess
  obtain ⟨nb, hnb, -, -, -, hnexthop⟩ := mem_candidates.1 hc
  have hout := (Topology.mem_activeArcs _).1 ((mem_logicalNeighbours _).1 hnb).1
  have hoif : nb.out.id = a.nexthop.oif := by
    rw [← hnexthop]
    rfl
  refine ⟨hmetric, nb.out.edge, hoif ▸ hout.1, hout.2.1, ?_, ?_⟩
  · rw [hmetric, pathMetric]
    exact Metric.add_right_eq_iff
  · rintro ⟨as, hwalk, hcost⟩
    have hle := leastMetric_le hwalk
    rw [hmetric, pathMetric, Metric.le_iff, Metric.toNat_add, Metric.toNat_add]
    omega

/-- In the ring the fifth router takes over the traffic for the third one, over a link that is the
least way to it. -/
theorem metric_of_alternate_pentagon : ∃ rec w' a,
    loopFree (after {} Run.pentagon) .l1 ⟨0, 0⟩ ⟨0, 0⟩ false {} = .ok rec w' ∧
      a ∈ alternatesOf rec ∧ a.node = ⟨4, 0⟩ ∧ a.destination = ⟨2, 0⟩ ∧
      a.metric = (after {} Run.pentagon).leastMetric .l1 ⟨0, 0⟩ a.node +
          (after {} Run.pentagon).leastMetric .l1 a.node a.destination ∧
        ∃ out, (after {} Run.pentagon).edges.get? a.nexthop.oif = some out ∧
          out.source.node = ⟨0, 0⟩ ∧
          (a.metric = pathMetric (after {} Run.pentagon) .l1 out a ↔
            handover (after {} Run.pentagon) .l1 out a.node =
                (after {} Run.pentagon).leastMetric .l1 ⟨0, 0⟩ a.node ∨
              a.metric = .infinite ∧ pathMetric (after {} Run.pentagon) .l1 out a = .infinite) ∧
          ((∃ as, Walk (after {} Run.pentagon) .l1 ⟨0, 0⟩ as a.node ∧
              cost .l1 as = (handover (after {} Run.pentagon) .l1 out a.node).toNat) →
            a.metric ≤ pathMetric (after {} Run.pentagon) .l1 out a) := by
  obtain ⟨rec, w', h, hany⟩ := exists_of_yields
    (c := loopFree (after {} Run.pentagon) .l1 ⟨0, 0⟩ ⟨0, 0⟩ false) (w := {})
    (p := fun rec => (alternatesOf rec).any fun a =>
      a.node == ⟨4, 0⟩ && a.destination == ⟨2, 0⟩) (by decide +kernel)
  obtain ⟨a, ha, hfields⟩ := List.any_eq_true.1 hany
  rw [Bool.and_eq_true, beq_iff_eq, beq_iff_eq] at hfields
  exact ⟨rec, w', a, h, ha, hfields.1, hfields.2,
    metric_of_alternate Run.pentagon .l1 ⟨0, 0⟩ ⟨0, 0⟩ false h ha⟩

/-- A root with three neighbours, of which it reaches the second one at the least cost through the
first one, over the protected link. -/
def dearLink : List Change :=
  (["s", "x", "n", "m"].map fun name => .addRouter name 0 .all) ++
    [(0, 1, 1), (1, 2, 1), (0, 2, 10), (0, 3, 4), (3, 1, 4)].map (fun (i, j, metric) =>
      .addLink ⟨⟨i, 0⟩, s!"to{j}", none⟩ ⟨⟨j, 0⟩, s!"to{i}", none⟩ (.saturate metric) .all) ++
    [.setProtection ⟨0, 0⟩ .link]

/-- The alternate preferred for the first neighbour is rated below the link over which it is
reached, and another one of the same kind costs less. -/
theorem metric_ne_pathMetric_dearLink : ∃ rec w',
    loopFree (after {} dearLink) .l1 ⟨0, 0⟩ ⟨0, 0⟩ false {} = .ok (some rec) w' ∧
      ∃ a out, rec.best? ⟨1, 0⟩ = some a ∧
        (after {} dearLink).edges.get? a.nexthop.oif = some out ∧
        a.metric ≠ pathMetric (after {} dearLink) .l1 out a ∧
          ∃ b ∈ rec.alternates, b.destination = ⟨1, 0⟩ ∧ b.kind = a.kind ∧
            ∃ out', (after {} dearLink).edges.get? b.nexthop.oif = some out' ∧
              pathMetric (after {} dearLink) .l1 out' b <
                pathMetric (after {} dearLink) .l1 out a := by
  obtain ⟨found, w', h, hfound⟩ := exists_of_yields
    (c := loopFree (after {} dearLink) .l1 ⟨0, 0⟩ ⟨0, 0⟩ false) (w := {})
    (p := fun found => found.any fun rec => (rec.best? ⟨1, 0⟩).any fun a =>
      ((after {} dearLink).edges.get? a.nexthop.oif).any fun out => rec.alternates.any fun b =>
        ((after {} dearLink).edges.get? b.nexthop.oif).any fun out' => decide (
          a.metric.toNat < 10 ∧ 10 ≤ (handover (after {} dearLink) .l1 out a.node).toNat ∧
          (handover (after {} dearLink) .l1 out' b.node).toNat ≤ 4 ∧ b.node = ⟨3, 0⟩ ∧
          b.destination = ⟨1, 0⟩ ∧ b.kind = a.kind)) (by decide +kernel)
  obtain ⟨rec, rfl, hrec⟩ := (Option.any_eq_true _ _).1 hfound
  obtain ⟨a, hbest, ha⟩ := (Option.any_eq_true _ _).1 hrec
  obtain ⟨out, hout, hcheaper⟩ := (Option.any_eq_true _ _).1 ha
  obtain ⟨b, hb, hb'⟩ := List.any_eq_true.1 hcheaper
  obtain ⟨out', hout', hfields⟩ := (Option.any_eq_true _ _).1 hb'
  obtain ⟨hrated, hlink, hdetour, hnode, hdest, hkind⟩ := of_decide_eq_true hfields
  obtain ⟨c, hc, hcost⟩ : ∃ c ∈ (after {} dearLink).usableArcs .l1 ⟨3, 0⟩,
      c.edge.target.node = ⟨1, 0⟩ ∧ (c.edge.cost .l1).toNat ≤ 4 := by decide +kernel
  obtain ⟨usable, hsource⟩ := mem_usableArcs.1 hc
  have honward := leastMetric_le (hcost.1 ▸ hsource ▸ Walk.single usable)
  have hpath := Metric.le_add (handover (after {} dearLink) .l1 out a.node)
    ((after {} dearLink).leastMetric .l1 a.node a.destination)
  rw [← pathMetric, Metric.le_iff] at hpath
  rw [cost, cost, Nat.add_zero, ← hnode] at honward
  refine ⟨rec, w', h, a, out, hbest, hout, ?_, b, hb, hdest, hkind, out', hout', ?_⟩
  · intro e
    rw [e] at hrated
    omega
  · have hpath' : (pathMetric (after {} dearLink) .l1 out' b).toNat ≤ 8 := by
      rw [pathMetric, hdest, Metric.toNat_add]
      omega
    rw [Metric.lt_iff]
    omega

end Repair

end LinkState
