import LinkState.Proofs.RoutingTable.Contenders
import LinkState.Proofs.Session.Standing

/-!
# The routing tables of a session

A run that rebuilds a routing table makes it from the routers that are stored for its root, be it
that it has just found them or that an earlier run did. Whichever search stored them, and on
whichever topology, it stored them by their metric (`Session.sorted_after`). So the table is exact
with regard to what is stored, and the one before it is of no account
(`Session.table_exact_of_run`).
-/

namespace LinkState

open Compute Run

variable {t : Topology} {l : Level} {root : NodeId} {kind : RunKind} {w w' : Workspace}

/-- The routers that a search finds come by their metric. -/
theorem Search.sorted_routers (hw : t.WellFormed) (hroot : t.nodes.contains root = true) :
    (routers t l (outcome t l root)).Pairwise fun r r' => r.metric ≤ r'.metric := by
  have hempty : ({} : Frontier NodeId).isEmpty = true := rfl
  obtain ⟨s, hs, hcomplete⟩ := run_complete (l := l) hw hroot ∅ hempty
  rw [← settled_eq_outcome hw hroot hempty hs]
  exact hcomplete.invariant.settled_sorted.filter _

/-- No search is under way, and the routers that are stored for a root come by their metric. -/
structure Workspace.Sorted (w : Workspace) : Prop where
  frontier : w.frontier.isEmpty = true
  destinations : ∀ l root,
    (w.record l root).destinations.Pairwise fun r r' => r.metric ≤ r'.metric

/-- What is sorted stays sorted. -/
def StaysSorted (w w' : Workspace) : Prop := w.Sorted → w'.Sorted

theorem Run.Performed.sorted (h : Performed t root l kind w w') (hw : t.WellFormed)
    (hroot : t.nodes.contains root = true) (hs : w.Sorted) : w'.Sorted := by
  refine ⟨h.frontier, fun l' x => ?_⟩
  rw [h.record]
  split
  · cases kind with
    | partialRoutes => exact hs.destinations l root
    | _ => exact Search.sorted_routers hw hroot
  · exact hs.destinations l' x

theorem running_staysSorted (hw : t.WellFormed) : Running t StaysSorted where
  refl _ := id
  trans h h' := h' ∘ h
  emit _ _ _ hs := ⟨hs.frontier, hs.destinations⟩
  run root l kind w hs := by
    have hran := run_ran hw hs.frontier root l kind
    rw [Compute.after]
    generalize Run.run t root l kind w = result at hran ⊢
    cases hran with
    | refused => exact hs
    | made valid _ performed => exact performed.sorted hw (contains_of_validate valid) hs
    | madeAfter valid _ _ performed' performed =>
      have hroot := contains_of_validate valid
      exact performed.sorted hw hroot (performed'.sorted hw hroot hs)

theorem closed_staysSorted (hw : t.WellFormed) : Closed t StaysSorted where
  toRunning := running_staysSorted hw
  farSpace root e l _ :=
    (running_staysSorted hw).farSpace (running_staysSorted (hw.invert l)) root e

/-- A run that rebuilds the table of its root makes it from what is stored afterwards. -/
theorem Run.Performed.exact (h : Performed t root l kind w w') (hkind : kind ≠ .forward)
    (hs : w'.Sorted) :
    RoutingTable.Exact t root l (w'.record l root).destinations (w'.record l root).table := by
  have htable : ∃ old, (w'.record l root).table =
      RoutingTable.rebuild t root l (w'.record l root).destinations old := by
    rw [h.record, if_pos ⟨rfl, rfl⟩]
    cases kind with
    | forward => exact absurd rfl hkind
    | _ => exact ⟨_, rfl⟩
  obtain ⟨old, htable⟩ := htable
  rw [htable]
  exact RoutingTable.rebuild_exact (hs.destinations l root) old

theorem effectiveKind_ne_forward (version : UInt32) (hkind : kind ≠ .forward) :
    effectiveKind version kind ≠ .forward := by
  cases kind with
  | full => exact hkind
  | forward => exact absurd rfl hkind
  | partialRoutes =>
    rw [effectiveKind]
    split <;> decide

/-- A run leaves an exact table at its level, and at level 1 if it was preceded by a run there. -/
theorem Run.tables_of_run (hw : t.WellFormed) (hs : w.Sorted) (hkind : kind ≠ .forward)
    {rs : List Result} (h : run t root l kind w = .ok rs w') :
    (w'.record l root).destinations = rs ∧ ∀ l',
      (l' = l ∨ (w'.record l' root).version ≠ (w.record l' root).version) →
        RoutingTable.Exact t root l' (w'.record l' root).destinations
          (w'.record l' root).table := by
  have hs' : w'.Sorted := by
    have hkeeps := (running_staysSorted hw).run root l kind w hs
    rwa [after_of_ok h] at hkeeps
  have hran := run_ran hw hs.frontier root l kind
  rw [h] at hran
  cases hran with
  | made _ _ performed =>
    refine ⟨rfl, fun l' hl' => ?_⟩
    by_cases e : l' = l
    · subst e
      exact performed.exact (effectiveKind_ne_forward _ hkind) hs'
    · have hversion := hl'.resolve_left e
      rw [performed.record, if_neg fun h => e h.1] at hversion
      exact absurd rfl hversion
  | madeAfter valid lower _ performed' performed =>
    refine ⟨rfl, fun l' hl' => ?_⟩
    by_cases e : l' = l
    · subst e
      exact performed.exact (effectiveKind_ne_forward _ hkind) hs'
    · -- the run at level 2 leaves alone what the one before it made
      obtain rfl : l' = .l1 := by
        rw [level_of_needsLowerLevel lower] at e
        cases l' with
        | l1 => rfl
        | l2 => exact absurd rfl e
      have hroot := contains_of_validate valid
      have hfirst := performed'.exact nofun (performed'.sorted hw hroot hs)
      rwa [performed.record, if_neg fun h => e h.1]

namespace Session

variable {s s' : Session}

theorem sorted_after (history : List Request) : (after {} history).workspace.Sorted := by
  have hkeep : ∀ (s : Session) (r : Request), s.Sound ∧ s.workspace.Sorted →
      (s.serve r).2.Sound ∧ (s.serve r).2.workspace.Sorted := by
    rintro s r ⟨hsound, hs⟩
    refine ⟨hsound.serve r, ?_⟩
    cases r with
    | change c => cases c <;> exact ⟨hs.frontier, hs.destinations⟩
    | configure settings => exact ⟨hs.frontier, hs.destinations⟩
    | renew settings => exact ⟨rfl, hs.destinations⟩
    | compute c =>
      have hw := hsound.wellFormed
      have hkeeps := (closed_staysSorted hw).on c fun root e l _ =>
        (running_staysSorted hw).farSpace (running_staysSorted (hw.invert l)) root e
      have hserve : (s.serve (.compute c)).2.workspace = (c.on s.topology).after s.workspace :=
        s.workspace_compute fun t => c.on t
      rw [hserve]
      exact hkeeps s.workspace hs
  refine (after_induction hkeep ⟨⟨⟨[], rfl⟩, rfl⟩, rfl, fun l root => ?_⟩ history).2
  cases l <;> exact .nil

/-- **Routing tables are exact.** In every session, let a full or a partial run from a root be asked
for and made. Then the table of the root at that level holds, for each network, what the contenders
among the stored results amount to, whatever was in the table before; and so does the table at
level 1 if a run was made there first. -/
theorem table_exact_of_run (history : List Request) (root : NodeId) (l : Level)
    (hkind : kind = .full ∨ kind = .partialRoutes) {rs : List Result}
    (h : (after {} history).serve (.compute (.run root l kind)) = (.ok (.results rs), s')) :
    (s'.workspace.record l root).destinations = rs ∧ ∀ l',
      (l' = l ∨ (s'.workspace.record l' root).version ≠
        ((after {} history).workspace.record l' root).version) →
          RoutingTable.Exact s'.topology root l' (s'.workspace.record l' root).destinations
            (s'.workspace.record l' root).table := by
  obtain ⟨htopology, hserved⟩ := serve_eq_ok.1 h
  obtain ⟨rs', hrun, hrs⟩ := map_eq_ok.1 hserved
  cases hrs
  have hsearch : kind ≠ .forward := by
    rcases hkind with rfl | rfl <;> decide
  rw [htopology]
  exact Run.tables_of_run (sound_after history).wellFormed (sorted_after history) hsearch hrun

/-- A router of level 1 with links to two attached routers, which announce the same network, the
first one of them twice and with the network of the default routes of version 4. The first router
announces a network of its own only after its full run. -/
def attachedPair : List Request :=
  ([.addRouter "a" 0 .l1, .addRouter "b" 0 .all, .addRouter "c" 0 .all,
    .addLink ⟨⟨0, 0⟩, "tob", none⟩ ⟨⟨1, 0⟩, "toa", none⟩ (.saturate 1) .l1,
    .addLink ⟨⟨0, 0⟩, "toc", none⟩ ⟨⟨2, 0⟩, "toa", none⟩ (.saturate 1) .l1,
    .setNetworks ⟨1, 0⟩ [.host (.v4 0x0a000002), .anyV4, .host (.v4 0x0a000002)],
    .setNetworks ⟨2, 0⟩ [.host (.v4 0x0a000002)], .setAttached ⟨1, 0⟩ true,
    .setAttached ⟨2, 0⟩ true] : List Change).map .change ++
  [.compute (.run ⟨0, 0⟩ .l1 .full), .change (.setNetworks ⟨0, 0⟩ [.host (.v4 0x0a000001)])]

/-- The announced default route of version 4 stays, with the next hops of the other router. -/
theorem table_exact_of_run_attachedPair : ∃ rs s' announced default,
    (after {} attachedPair).serve (.compute (.run ⟨0, 0⟩ .l1 .partialRoutes)) =
      (.ok (.results rs), s') ∧
    (s'.workspace.record .l1 ⟨0, 0⟩).table[Network.anyV4]? = some announced ∧
    announced.isDefault = false ∧ announced.nexthops.ip.size = 2 ∧
    (s'.workspace.record .l1 ⟨0, 0⟩).table[Network.anyV6]? = some default ∧
    default.isDefault = true ∧ default.nexthops.ip.size = 2 ∧
    RoutingTable.Exact s'.topology ⟨0, 0⟩ .l1 rs (s'.workspace.record .l1 ⟨0, 0⟩).table := by
  obtain ⟨a, s', hserved, -, hroutes⟩ := exists_served (s := after {} attachedPair)
    (c := .run ⟨0, 0⟩ .l1 .partialRoutes) (p := fun _ => true)
    (q := fun s' =>
      ((s'.workspace.record .l1 ⟨0, 0⟩).table[Network.anyV4]?.any fun route =>
        !route.isDefault && route.nexthops.ip.size == 2) &&
      ((s'.workspace.record .l1 ⟨0, 0⟩).table[Network.anyV6]?.any fun route =>
        route.isDefault && route.nexthops.ip.size == 2))
    (by decide +kernel) (by decide +kernel)
  obtain ⟨rs, -, rfl⟩ := map_eq_ok.1 (serve_eq_ok.1 hserved).2
  obtain ⟨h4, h6⟩ := (Bool.and_eq_true _ _).mp hroutes
  obtain ⟨announced, h4, hannounced⟩ := (Option.any_eq_true _ _).1 h4
  obtain ⟨default, h6, hdefault⟩ := (Option.any_eq_true _ _).1 h6
  rw [Bool.and_eq_true, Bool.not_eq_true', beq_iff_eq] at hannounced
  rw [Bool.and_eq_true, beq_iff_eq] at hdefault
  obtain ⟨hrs, hexact⟩ := table_exact_of_run attachedPair ⟨0, 0⟩ .l1 (.inr rfl) hserved
  have htable := hexact .l1 (.inl rfl)
  rw [hrs] at htable
  exact ⟨rs, s', announced, default, hserved, h4, hannounced.1, hannounced.2, h6, hdefault.1,
    hdefault.2, htable⟩

end Session

end LinkState
