import LinkState.Proofs.Repair.Adjacency
import LinkState.Proofs.ShortestPath.Levels

/-!
# Alternates and levels

Over an edge that takes part in a level a run reaches a router that does not
(`no_participation_mixedLink`), and so may an alternate. Where no usable edge leads out of the level
neither does: an alternate takes the traffic along walks, to a neighbour of the root, on to its own
node and from there to the destination (`Returns.leads`), and no walk leaves the level. With what
`WithinLevel` says of results and routes this is `participates_of_run`.
-/

namespace LinkState

open LinkState.Topology Compute

variable {t : Topology} {l : Level} {root x y : NodeId}

/-- What a node of the level reaches takes part in the level. -/
theorem Topology.Confined.of_leastMetric (hc : t.Confined l) (hx : t.participates x l = true)
    (hxy : t.leastMetric l x y ≠ .infinite) : t.participates y l = true := by
  obtain ⟨as, hwalk, -⟩ := exists_walk hxy
  exact hc.of_visits hwalk hx hwalk.visits_end

namespace Repair

/-- An alternate takes traffic to and over nodes that take part in the level, on whatever walks its
next hop may send it to the node of the alternate, and this to the destination. -/
structure AlternateWithinLevel (t : Topology) (l : Level) (a : Alternate) : Prop where
  nexthop : t.participates a.nexthop.node l = true
  node : t.participates a.node l = true
  destination : t.participates a.destination l = true
  tunnel : ∀ as, Walk t l a.nexthop.node as a.node → ∀ b ∈ as,
    t.participates b.edge.target.node l = true
  release : ∀ as, Walk t l a.node as a.destination → ∀ b ∈ as,
    t.participates b.edge.target.node l = true

theorem Leads.withinLevel (hc : t.Confined l) (hroot : t.participates root l = true)
    {a : Alternate} (h : Leads t l root a) : AlternateWithinLevel t l a := by
  obtain ⟨⟨nb, -, hnexthop, hreaches⟩, htunnel, hrelease⟩ := h
  have hnext : t.participates a.nexthop.node l = true := by
    rw [← hnexthop]
    exact hc.of_leastMetric hroot hreaches
  have hnode := hc.of_leastMetric hnext htunnel
  exact {
    nexthop := hnext
    node := hnode
    destination := hc.of_leastMetric hnode hrelease
    tunnel := fun as hwalk b hb => hc.of_visits hwalk hnext (.inr ⟨b, hb, rfl⟩)
    release := fun as hwalk b hb => hc.of_visits hwalk hnode (.inr ⟨b, hb, rfl⟩) }

end Repair

namespace Run

open LinkState.Repair

variable {w w' : Workspace} {rs : List Result}

/-- **A run stays within the level unless an edge leads out of it.** In every topology that can be
built, a full or a forward run is made only from a root that takes part in the level, and each of
its results ends a least walk along edges that take part in it. If no usable edge leads from a node
of the level to one that does not take part in it, then all nodes that the run finds take part, a
full run between two searches leaves a table with routes toward and over such nodes only, and the
alternates that are found for an edge of the root, at any time, lead to and over such nodes only. -/
theorem participates_of_run (history : List Change) (l : Level) (root : NodeId) {kind : RunKind}
    (hkind : kind = .full ∨ kind = .forward) {w w' : Workspace} {rs : List Result}
    (h : run (after {} history) root l kind w = .ok rs w') :
    (after {} history).participates root l = true ∧
      (∀ r ∈ rs, ∃ as, LeastWalk (after {} history) l root as r.node ∧
        ∀ a ∈ as, a.edge.levels.has l = true) ∧
      ((after {} history).Confined l → WithinLevel (after {} history) l root rs ∧
        (kind = .full → w.frontier.isEmpty = true → ∀ (network : Network) (route : Route),
          (w'.record l root).table[network]? = some route →
            RouteWithinLevel (after {} history) l route) ∧
        ∀ e v v' rec, Returns (after {} history) l root e v v' rec → ∀ a ∈ rec.alternates,
          AlternateWithinLevel (after {} history) l a) := by
  have hw := wellFormed_after history
  generalize after {} history = t at hw h ⊢
  have hsearch : kind ≠ .partialRoutes := by
    rcases hkind with rfl | rfl <;> decide
  obtain ⟨node, hvalid⟩ := run_validate h
  have hroot : t.participates root l = true := by
    obtain ⟨hnode, hlevel, -⟩ := validate_eq_ok hvalid
    rw [participates, hnode]
    exact hlevel
  obtain ⟨hs, hrs⟩ := run_searched hw hsearch h
  refine ⟨hroot, fun r hr => ?_, fun hc => ?_⟩
  · rw [hrs] at hr
    have hsettled := (hs.exact.mem_destinations.1 hr).1
    obtain ⟨as, has⟩ := exists_leastWalk
      ((hs.exact.mem_iff r.node).1 (List.mem_map_of_mem hsettled))
    exact ⟨as, has, has.walk.has_level⟩
  · have hwithin := withinLevel_of_confined hc hroot hs.exact
    rw [← hrs] at hwithin
    refine ⟨hwithin, fun hfull hempty network route hroute => ?_, fun e v v' rec hrec a ha => ?_⟩
    · subst hfull
      obtain ⟨old, htable⟩ := table_of_run hw hempty h
      rw [htable] at hroute
      exact hwithin.route hroute
    · exact (hrec.leads hw ha).withinLevel hc hroot

theorem confined_of_arcs (h : ∀ a ∈ t.arcs, t.participates a.edge.target.node l = true) :
    t.Confined l :=
  fun a usable _ => h a (mem_arcs.2 usable.stored)

/-- The ring of five routers, the third of which announces a network. -/
def servedPentagon : List Change := pentagon ++ [.setNetworks ⟨2, 0⟩ [.host (.v4 0x0a000003)]]

theorem participates_of_run_servedPentagon : ∃ rs w' route rec v' a,
    run (after {} servedPentagon) ⟨0, 0⟩ .l1 .full {} = .ok rs w' ∧ rs.length = 5 ∧
      (after {} servedPentagon).Confined .l1 ∧
      (after {} servedPentagon).participates ⟨0, 0⟩ .l1 = true ∧
      (∀ r ∈ rs, ∃ as, LeastWalk (after {} servedPentagon) .l1 ⟨0, 0⟩ as r.node ∧
        ∀ a ∈ as, a.edge.levels.has .l1 = true) ∧
      WithinLevel (after {} servedPentagon) .l1 ⟨0, 0⟩ rs ∧
      (w'.record .l1 ⟨0, 0⟩).table[Network.host (.v4 0x0a000003)]? = some route ∧
      RouteWithinLevel (after {} servedPentagon) .l1 route ∧
      loopFree (after {} servedPentagon) .l1 ⟨0, 0⟩ ⟨0, 0⟩ false {} = .ok (some rec) v' ∧
      a ∈ rec.alternates ∧ AlternateWithinLevel (after {} servedPentagon) .l1 a := by
  obtain ⟨⟨rs, w'⟩, w₁, hboth, hfound⟩ := exists_of_yields (c := do
      let rs ← run (after {} servedPentagon) ⟨0, 0⟩ .l1 .full
      return (rs, ← get)) (w := {})
    (p := fun (rs, w) => rs.length == 5 &&
      ((w.record .l1 ⟨0, 0⟩).table[Network.host (.v4 0x0a000003)]?).isSome) (by decide +kernel)
  obtain ⟨rs₁, w₂, h, hrest⟩ := bind_eq_ok.1 hboth
  cases hrest
  rw [Bool.and_eq_true, beq_iff_eq] at hfound
  obtain ⟨route, hroute⟩ := Option.isSome_iff_exists.1 hfound.2
  have hconfined : (after {} servedPentagon).Confined .l1 := confined_of_arcs (by decide +kernel)
  obtain ⟨hroot, hwalks, hwithin⟩ := participates_of_run servedPentagon .l1 ⟨0, 0⟩ (.inl rfl) h
  obtain ⟨hresults, hroutes, halternates⟩ := hwithin hconfined
  obtain ⟨found, v', hrepair, hany⟩ := exists_of_yields
    (c := loopFree (after {} servedPentagon) .l1 ⟨0, 0⟩ ⟨0, 0⟩ false) (w := {})
    (p := fun found => found.any fun rec => rec.alternates.any fun _ => true) (by decide +kernel)
  obtain ⟨rec, rfl, hany⟩ := Option.any_eq_true _ _ |>.1 hany
  obtain ⟨a, ha, -⟩ := List.any_eq_true.1 hany
  exact ⟨rs, w', route, rec, v', a, h, hfound.1, hconfined, hroot, hwalks, hresults, hroute,
    hroutes rfl rfl _ route hroute, hrepair, ha,
    halternates _ _ _ _ (.loopFree false hrepair) a ha⟩

/-- A link that takes part in both levels, from a router of both levels to one of level 2 only. -/
def mixedLink : List Change :=
  [.addRouter "a" 0 .all, .addRouter "b" 0 .l2,
    .addLink ⟨⟨0, 0⟩, "tob", none⟩ ⟨⟨1, 0⟩, "toa", none⟩ (.saturate 1) .all]

/-- At level 1 the first router reaches the second one, from which no run is made at that level. -/
theorem no_participation_mixedLink : ∃ rs w',
    run (after {} mixedLink) ⟨0, 0⟩ .l1 .full {} = .ok rs w' ∧
      (∃ r ∈ rs, r.node = ⟨1, 0⟩ ∧ r.metric = .saturate 1) ∧
      (after {} mixedLink).participates ⟨1, 0⟩ .l1 = false ∧
      ∀ kind w, run (after {} mixedLink) ⟨1, 0⟩ .l1 kind w =
        .error (.error (.rootLevelMismatch "b" .l1)) w := by
  obtain ⟨rs, w', h, hany⟩ := exists_of_yields (c := run (after {} mixedLink) ⟨0, 0⟩ .l1 .full)
    (w := {}) (p := fun rs => rs.any fun r => r.node == ⟨1, 0⟩ && r.metric == .saturate 1)
    (by decide +kernel)
  obtain ⟨r, hr, hfields⟩ := List.any_eq_true.1 hany
  rw [Bool.and_eq_true, beq_iff_eq, beq_iff_eq] at hfields
  refine ⟨rs, w', h, ⟨r, hr, hfields⟩, by decide +kernel, fun kind w => run_refused ?_⟩
  rfl

end Run

end LinkState
