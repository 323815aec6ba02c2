import LinkState.Proofs.Distance
import LinkState.Proofs.Session.FarSpace

/-!
# Results stay fresh

What a search has found for a root can be relied on for as long as nothing changes that searches
look at, whatever else is computed in the meantime. `Steady` says this of the requests since, and
`Steady.standing` what follows from it for a root from which a run has ended:

* `distance_eq_leastMetric`: the distances from the root are least metrics;
* `tableAfter_partialRoutes`: a partial run of the root leaves the table that a full one would
  leave.

Both ask that no request since is for the Q-space of a root that does not exist. Such a request is a
fault, and comes to one before the far end has been searched from again: what is kept for the far
end is left to be that of the inverted topology (`spoilt_distance`), and a partial run takes its
table from there (`spoilt_table`).
-/

namespace LinkState

open Compute Run

/-- Whether an event says that a run of a kind, from the root of a name, has ended. -/
def Event.endsRunOf (name : String) (l : Level) (kind : RunKind) : Event → Bool
  | .runFinished root l' kind' _ => root == name && l' == l && kind' == kind
  | _ => false

theorem Event.endsRunOf_iff {name : String} {l : Level} {kind : RunKind} {e : Event} :
    e.endsRunOf name l kind = true ↔ ∃ count, e = .runFinished name l kind count := by
  cases e with
  | runFinished root l' kind' count => simp [endsRunOf, and_assoc]
  | _ => simp [endsRunOf]

/-- Whether a request changes nothing that searches look at. -/
def Request.sparesSearches : Request → Bool
  | .change c => c.sparesSearches
  | _ => true

/-- Whether a request, if it is for a Q-space, is for that of a root that exists. -/
def Request.rootExists (t : Topology) : Request → Bool
  | .compute (.farSpace root _ _) => t.nodes.contains root
  | _ => true

variable {t : Topology} {l : Level} {x y root : NodeId} {kind : RunKind} {w : Workspace}

/-! ## What can be relied on -/

/-- The distances from a root whose record is fresh are least metrics. -/
theorem RootRecord.Fresh.distance_eq (hw : t.WellFormed) (hx : t.nodes.contains x = true)
    (hy : t.nodes.contains y = true)
    (hpair : x ≠ y → t.isPseudonode x l = true → t.isPseudonode y l = false)
    (h : (w.record l x).Fresh t l x) :
    distance t l (w.findings.get l) x y = .ok (t.leastMetric l x y) := by
  obtain ⟨m, hm⟩ := exists_distance (l := l) (f := w.findings.get l) hx hy hpair
  rw [hm, LinkState.distance_eq (.inr (h.exact hw hx)) hm]

/-- After a full run every partial or full one is made. One at level 1 before it, should that be
necessary, leaves the record at level 2 alone. -/
theorem Standing.record_of_run (hw : t.WellFormed) (hempty : w.frontier.isEmpty = true)
    (h : Standing t l root w .full) (hkind : kind ≠ .forward) :
    ∃ rs w', run t root l kind w = .ok rs w' ∧ w'.record l root =
      (w.record l root).afterRun t root l (effectiveKind (w.record l root).version kind) := by
  obtain ⟨-, node, hvalid, hlower⟩ := h
  have hvalid : validate t root l kind = .ok node := by
    cases kind with
    | forward => exact absurd rfl hkind
    | _ => exact hvalid
  have hran := run_ran hw hempty root l kind
  generalize run t root l kind w = result at hran ⊢
  cases hran with
  | refused e h =>
    obtain h | ⟨node', h, hneeds, hrefused⟩ := h
    · cases hvalid.symm.trans h
    · cases hvalid.symm.trans h
      rw [kind_of_needsLowerLevel hneeds] at hneeds
      obtain ⟨node', hvalid'⟩ := hlower hneeds
      cases hvalid'.symm.trans hrefused
  | made _ _ performed =>
    exact ⟨_, _, rfl, (performed.record l root).trans (if_pos ⟨rfl, rfl⟩)⟩
  | madeAfter _ lower _ performed' performed =>
    refine ⟨_, _, rfl, (performed.record l root).trans ?_⟩
    obtain rfl := level_of_needsLowerLevel lower
    rw [if_pos ⟨rfl, rfl⟩, performed'.record, if_neg nofun]

/-- A partial run and a full one rebuild the table from the same results. -/
theorem RootRecord.Fresh.table_eq {r : RootRecord} (h : r.Fresh t l root) :
    (r.afterRun t root l .partialRoutes).table = (r.afterRun t root l .full).table :=
  congrArg (RoutingTable.rebuild t root l · _) h.destinations

namespace Session

/-- Whether a run from a root has ended between two sessions, the second of which continues the
first. -/
def ranSince (s s' : Session) (root : NodeId) (l : Level) (kind : RunKind) : Bool :=
  (s'.workspace.trace.drop s.workspace.trace.length).any
    (·.endsRunOf (s'.topology.nameOf root) l kind)

/-- The table that a run leaves its root, if the run is made. -/
def tableAfter (s : Session) (root : NodeId) (l : Level) (kind : RunKind) : Option RoutingTable :=
  match s.serve (.compute (.run root l kind)) with
  | (.ok _, s') => some (s'.workspace.record l root).table
  | (.error _, _) => none

/-- To searches the topology is the same after the requests, and at every computation among them, as
it is before. -/
structure Steady (s : Session) (requests : List Request) : Prop where
  computations : ∀ served c, served ++ [.compute c] <+: requests →
    (s.after served).topology.routing = s.topology.routing
  last : (s.after requests).topology.routing = s.topology.routing

variable {s : Session} {requests : List Request} {r : Request}

/-- A request advances the workspace if what it computes is computed on a topology that is to
searches the given one. -/
theorem Sound.advances (hs : s.Sound)
    (hrouting : ∀ c, r = .compute c → s.topology.routing = t.routing)
    (hroot : r.rootExists t = true) : Advances t s.workspace (s.serve r).2.workspace := by
  have h := chained_advances t
  cases r with
  | change c =>
    cases c with
    | invert l => exact h.emit s.workspace (.topologyInverted l) rfl
    | _ => exact h.refl s.workspace
  | configure settings =>
    exact fun hempty => ⟨hempty, fun _ _ => .inl rfl, fun _ _ k hs => hs.transfer id
      fun _ => .inl rfl, [], (List.append_nil _).symm, by simp⟩
  | renew settings =>
    exact fun _ => ⟨rfl, fun _ _ => .inl rfl, fun _ _ k hs => hs.transfer id fun _ => .inl rfl, [],
      (List.append_nil _).symm, by simp⟩
  | compute c =>
    have ht := hrouting c rfl
    have hc := (closed_advances hs.wellFormed hs.names).on c fun root e l hc => by
      subst hc
      exact advances_farSpace hs.wellFormed hs.names root e l
        ((Topology.routing_contains_congr ht).trans hroot)
    have hserve : (s.serve (.compute c)).2.workspace = (c.on s.topology).after s.workspace :=
      s.workspace_compute fun t => c.on t
    rw [hserve]
    exact fun hempty => (hc s.workspace hempty).congr ht

/-- **Steady requests advance the workspace**, unless one is for the Q-space of a root that does not
exist. -/
theorem Steady.advances (hs : s.Sound) (h : s.Steady requests)
    (hroots : ∀ r ∈ requests, r.rootExists s.topology = true) :
    Advances s.topology s.workspace (s.after requests).workspace := by
  suffices ∀ served, served <+: requests →
      Advances s.topology s.workspace (s.after served).workspace from this _ (List.prefix_refl _)
  intro served hserved
  induction served using List.reverseRecOn with
  | nil => exact (chained_advances s.topology).refl s.workspace
  | append_singleton served r ih =>
    refine (chained_advances s.topology).trans
      (ih ((List.prefix_append served [r]).trans hserved)) ?_
    rw [after_concat]
    refine (hs.after served).advances (fun c hc => ?_)
      (hroots r (hserved.subset List.mem_concat_self))
    exact h.computations served c (hc ▸ hserved)

/-- A run that has ended makes its kind of standing true of its root, and steady requests keep
it. -/
theorem Steady.standing (hs : s.Sound) (h : s.Steady requests)
    (hroots : ∀ r ∈ requests, r.rootExists s.topology = true)
    (hx : (s.after requests).topology.nodes.contains x = true)
    (hran : s.ranSince (s.after requests) x l kind = true) :
    Standing (s.after requests).topology l x (s.after requests).workspace kind := by
  have hadvance := (h.advances hs hroots hs.frontier).congr h.last.symm
  obtain ⟨es, hes, hends⟩ := hadvance.trace
  rw [ranSince, hes, List.drop_left, List.any_eq_true] at hran
  obtain ⟨event, hmem, hevent⟩ := hran
  obtain ⟨count, rfl⟩ := Event.endsRunOf_iff.1 hevent
  exact hends x l kind count hx hmem

/-! ## Requests that change nothing for searches -/

theorem routing_serve (h : r.sparesSearches = true) :
    (s.serve r).2.topology.routing = s.topology.routing := by
  cases r with
  | change c => exact s.topology.routing_apply h
  | configure settings => rfl
  | renew settings => rfl
  | compute c => exact congrArg Topology.routing (topology_compute s fun t => c.on t)

/-- Requests that change nothing that searches look at are steady. -/
theorem steady_of_spares (h : ∀ r ∈ requests, r.sparesSearches = true) : s.Steady requests := by
  have hafter : ∀ served, served <+: requests →
      (s.after served).topology.routing = s.topology.routing := by
    intro served hserved
    induction served using List.reverseRecOn with
    | nil => rfl
    | append_singleton served r ih =>
      rw [after_concat, routing_serve (h r (hserved.subset List.mem_concat_self)),
        ih ((List.prefix_append served [r]).trans hserved)]
  exact ⟨fun served c hserved => hafter served ((List.prefix_append served _).trans hserved),
    hafter requests (List.prefix_refl _)⟩

/-! ## Distances -/

variable {s' : Session}

/-- **Distances stay least metrics.** Let a full or forward run from `x` have ended, in any session,
since the last change of something that searches look at, and let every Q-space asked for since have
been that of a root that exists. Then the distance from `x` to any node, unless both are different
pseudo-nodes, is the least metric of a walk along usable edges, whatever else has been computed, and
whether or not it was refused. -/
theorem distance_eq_leastMetric (before since : List Request) (hs : s = after {} before)
    (hs' : s' = s.after since) (hsteady : s.Steady since)
    (hroots : ∀ r ∈ since, r.rootExists s.topology = true) (hkind : kind ≠ .partialRoutes)
    (hran : s.ranSince s' x l kind = true) (hx : s'.topology.nodes.contains x = true)
    (hy : s'.topology.nodes.contains y = true)
    (hpair : x ≠ y → s'.topology.isPseudonode x l = true →
      s'.topology.isPseudonode y l = false) :
    distance s'.topology l (s'.workspace.findings.get l) x y =
      .ok (s'.topology.leastMetric l x y) := by
  have hsound : s.Sound := hs ▸ sound_after before
  subst hs'
  have hstanding := hsteady.standing hsound hroots hx hran
  exact (hstanding.fresh hkind).distance_eq (hsound.after since).wellFormed hx hy hpair

/-- The ring of five routers. -/
def ring : Session := after {} (pentagon.map .change)

/-- Requests after which the first router of the ring has been searched from, the last time on the
ring as it is, and not on the inverted one. -/
def ringRequests : List Request :=
  [.compute (.run ⟨0, 0⟩ .l1 .full), .change (.setAttached ⟨2, 0⟩ true),
    .compute (.farSpace ⟨0, 0⟩ ⟨0, 0⟩ .l1), .compute (.remote ⟨0, 0⟩ ⟨0, 0⟩ .l1 false),
    .compute (.run ⟨7, 0⟩ .l2 .forward)]

theorem steady_ringRequests : ring.Steady ringRequests := steady_of_spares (by decide)

theorem rootExists_ringRequests : ∀ r ∈ ringRequests, r.rootExists ring.topology = true := by
  decide +kernel

theorem ranSince_ringRequests :
    ring.ranSince (ring.after ringRequests) ⟨0, 0⟩ .l1 .full = true := by
  decide +kernel

theorem distance_eq_leastMetric_ring : ∃ s s' : Session,
    s = after {} (pentagon.map .change) ∧ s' = s.after ringRequests ∧ s.Steady ringRequests ∧
      (∀ r ∈ ringRequests, r.rootExists s.topology = true) ∧
      s.ranSince s' ⟨0, 0⟩ .l1 .full = true ∧ s'.topology.nodes.contains ⟨0, 0⟩ = true ∧
      s'.topology.nodes.contains ⟨2, 0⟩ = true ∧ s'.topology.isPseudonode ⟨2, 0⟩ .l1 = false ∧
      distance s'.topology .l1 (s'.workspace.findings.get .l1) ⟨0, 0⟩ ⟨2, 0⟩ =
        .ok (s'.topology.leastMetric .l1 ⟨0, 0⟩ ⟨2, 0⟩) := by
  have hx : (ring.after ringRequests).topology.nodes.contains ⟨0, 0⟩ = true := by decide +kernel
  have hy : (ring.after ringRequests).topology.nodes.contains ⟨2, 0⟩ = true := by decide +kernel
  have hrouter : (ring.after ringRequests).topology.isPseudonode ⟨2, 0⟩ .l1 = false := by
    decide +kernel
  exact ⟨ring, ring.after ringRequests, rfl, rfl, steady_ringRequests, rootExists_ringRequests,
    ranSince_ringRequests, hx, hy, hrouter,
    distance_eq_leastMetric (pentagon.map .change) ringRequests rfl rfl steady_ringRequests
      rootExists_ringRequests (show RunKind.full ≠ .partialRoutes by decide) ranSince_ringRequests
      hx hy fun _ _ => hrouter⟩

/-- Two routers and a link that is cheap from the first to the second one, which announces
10.0.0.1/32, and dear in the other direction. -/
def slantedPair : Session :=
  after {} (([.addRouter "a" 0 .all, .addRouter "b" 0 .all,
    .setNetworks ⟨0, 0⟩ [.host (.v4 0x0a000001)],
    .addLink ⟨⟨0, 0⟩, "tob", none⟩ ⟨⟨1, 0⟩, "toa", none⟩ (.saturate 1) .all,
    .setMetric ⟨1, 0⟩ .l1 (.saturate 5)] : List Change).map .change)

/-- A full run from the second router, and the Q-space of the link for a router that does not
exist. -/
def strayRequests : List Request :=
  [.compute (.run ⟨1, 0⟩ .l1 .full), .compute (.farSpace ⟨99, 0⟩ ⟨0, 0⟩ .l1)]

theorem steady_strayRequests : slantedPair.Steady strayRequests := steady_of_spares (by decide)

/-- The Q-space of a router that does not exist spoils the distances of the far end: they are found
to be those toward it. -/
theorem spoilt_distance : ∃ s s' : Session,
    s = slantedPair ∧ s' = s.after strayRequests ∧ s.Steady strayRequests ∧
      s.ranSince s' ⟨1, 0⟩ .l1 .full = true ∧ s'.topology.nodes.contains ⟨1, 0⟩ = true ∧
      s'.topology.nodes.contains ⟨0, 0⟩ = true ∧ s'.topology.isPseudonode ⟨0, 0⟩ .l1 = false ∧
      distance s'.topology .l1 (s'.workspace.findings.get .l1) ⟨1, 0⟩ ⟨0, 0⟩ ≠
        .ok (s'.topology.leastMetric .l1 ⟨1, 0⟩ ⟨0, 0⟩) := by
  refine ⟨slantedPair, slantedPair.after strayRequests, rfl, rfl, steady_strayRequests,
    by decide +kernel, by decide +kernel, by decide +kernel, by decide +kernel, fun hstray => ?_⟩
  -- before the second request the distance was the least metric, and it was another one
  let first : List Request := [.compute (.run ⟨1, 0⟩ .l1 .full)]
  have hsound : slantedPair.Sound := sound_after _
  have hstanding : Standing (slantedPair.after first).topology .l1 ⟨1, 0⟩
      (slantedPair.after first).workspace .full :=
    (steady_of_spares (by decide)).standing hsound (by decide +kernel) (by decide +kernel)
      (by decide +kernel)
  have hfirst := hstanding.1.distance_eq (hsound.after first).wellFormed (x := ⟨1, 0⟩)
    (y := ⟨0, 0⟩) (by decide +kernel) (by decide +kernel) fun _ _ => by decide +kernel
  have htopology : (slantedPair.after strayRequests).topology =
      (slantedPair.after first).topology := topology_compute ..
  rw [htopology, ← hfirst, ← htopology] at hstray
  have hdiffer : (distance (slantedPair.after strayRequests).topology .l1
      ((slantedPair.after strayRequests).workspace.findings.get .l1) ⟨1, 0⟩ ⟨0, 0⟩).toOption ≠
    (distance (slantedPair.after strayRequests).topology .l1
      ((slantedPair.after first).workspace.findings.get .l1) ⟨1, 0⟩ ⟨0, 0⟩).toOption := by
    decide +kernel
  exact hdiffer (congrArg Except.toOption hstray)

/-! ## Routing tables -/

theorem tableAfter_of_run {rs : List Result} {w' : Workspace}
    (h : run s.topology root l kind s.workspace = .ok rs w') :
    s.tableAfter root l kind = some (w'.record l root).table := by
  have hserve : Computation.on s.topology (.run root l kind) s.workspace =
      .ok (.results rs) w' := by
    change EStateM.map _ _ _ = _
    rw [EStateM.map, h]
  simp only [tableAfter, serve, compute, hserve]

/-- **A partial run agrees with a full one.** Let a full run from a root have ended, in any session,
since the last change of something that searches look at, and let every Q-space asked for since have
been that of a root that exists. Then a partial run of the root and a full one are both made, and
leave the root the same table. -/
theorem tableAfter_partialRoutes (before since : List Request) (hs : s = after {} before)
    (hs' : s' = s.after since) (hsteady : s.Steady since)
    (hroots : ∀ r ∈ since, r.rootExists s.topology = true)
    (hran : s.ranSince s' root l .full = true) (hroot : s'.topology.nodes.contains root = true) :
    ∃ table, s'.tableAfter root l .partialRoutes = some table ∧
      s'.tableAfter root l .full = some table := by
  have hsound : s.Sound := hs ▸ sound_after before
  subst hs'
  have hstanding := hsteady.standing hsound hroots hroot hran
  have hsound' := hsound.after since
  obtain ⟨rs₁, w₁, hrun₁, h₁⟩ := hstanding.record_of_run hsound'.wellFormed hsound'.frontier
    (nofun : RunKind.partialRoutes ≠ .forward)
  obtain ⟨rs₂, w₂, hrun₂, h₂⟩ := hstanding.record_of_run hsound'.wellFormed hsound'.frontier
    (nofun : RunKind.full ≠ .forward)
  have htable : (w₁.record l root).table = (w₂.record l root).table := by
    rw [h₁, h₂]
    -- when the count of full runs has come to 0 again, a partial run is a full one
    obtain hkind | hkind := effectiveKind_partialRoutes
      ((s.after since).workspace.record l root).version
    · rw [hkind]
      exact hstanding.1.table_eq
    · rw [hkind]
      rfl
  exact ⟨_, tableAfter_of_run hrun₁, htable ▸ tableAfter_of_run hrun₂⟩

theorem tableAfter_partialRoutes_ring : ∃ s s' : Session,
    s = after {} (pentagon.map .change) ∧ s' = s.after ringRequests ∧ s.Steady ringRequests ∧
      (∀ r ∈ ringRequests, r.rootExists s.topology = true) ∧
      s.ranSince s' ⟨0, 0⟩ .l1 .full = true ∧ s'.topology.nodes.contains ⟨0, 0⟩ = true ∧
      ∃ table, s'.tableAfter ⟨0, 0⟩ .l1 .partialRoutes = some table ∧
        s'.tableAfter ⟨0, 0⟩ .l1 .full = some table := by
  have hroot : (ring.after ringRequests).topology.nodes.contains ⟨0, 0⟩ = true := by
    decide +kernel
  exact ⟨ring, ring.after ringRequests, rfl, rfl, steady_ringRequests, rootExists_ringRequests,
    ranSince_ringRequests, hroot,
    tableAfter_partialRoutes (pentagon.map .change) ringRequests rfl rfl steady_ringRequests
      rootExists_ringRequests ranSince_ringRequests hroot⟩

/-- After the Q-space of a router that does not exist, a partial run of the far end makes its table
from what was found on the inverted topology. -/
theorem spoilt_table : ∃ s s' : Session,
    s = slantedPair ∧ s' = s.after strayRequests ∧ s.Steady strayRequests ∧
      s.ranSince s' ⟨1, 0⟩ .l1 .full = true ∧ s'.topology.nodes.contains ⟨1, 0⟩ = true ∧
      s'.tableAfter ⟨1, 0⟩ .l1 .partialRoutes ≠ s'.tableAfter ⟨1, 0⟩ .l1 .full := by
  refine ⟨slantedPair, slantedPair.after strayRequests, rfl, rfl, steady_strayRequests,
    by decide +kernel, by decide +kernel, fun h => ?_⟩
  have hdiffer : ((slantedPair.after strayRequests).tableAfter ⟨1, 0⟩ .l1 .partialRoutes).map
      (fun table => table.values.map (·.metric)) ≠
    ((slantedPair.after strayRequests).tableAfter ⟨1, 0⟩ .l1 .full).map
      (fun table => table.values.map (·.metric)) := by decide +kernel
  exact hdiffer (congrArg (Option.map _) h)

end Session

end LinkState
