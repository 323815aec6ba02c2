import LinkState.Proofs.Session.Lockstep

/-!
# Answers do not depend on what was computed before

A computation that makes all the searches itself whose results it uses gives the same answer in any
two sessions with the same topology and the same settings, or fails in the same way in both
(`answer_eq`), no matter what is left in the workspaces: `matching_on` puts together what is known
of each computation in lockstep.

It is not so for the extended P-space of an overloaded router, and for what is built on it. Such a
router is not searched from, and what an earlier search has left is taken instead
(`answer_ne_overloaded`).
-/

namespace LinkState

open Compute Repair Run

/-- Whether a computation makes all the searches itself whose results it uses. A partial run does
not, nor does a P-space, nor a full run at level 2, which may be preceded by one at level 1. An
overloaded router is not searched from. -/
def Computation.searchesAnew (t : Topology) : Computation → Bool
  | .run _ l kind => kind == .forward || kind == .full && l == .l1
  | .nearSpace .. => false
  | .extendedSpace root _ l => !t.isOverloaded root l || t.isPseudonode root l
  | .commonSpace root _ l => !t.isOverloaded root l || t.isPseudonode root l
  | _ => true

/-- The level of a computation. -/
def Computation.level : Computation → Level
  | .run _ l _ | .nearSpace _ _ l | .extendedSpace _ _ l | .farSpace _ _ l | .commonSpace _ _ l
  | .loopFree _ _ l _ | .remote _ _ l _ | .backups _ _ l => l

variable {t : Topology} {c : Computation} {w w' : Workspace}

/-- **A computation that makes its searches itself runs in lockstep on any two workspaces** with the
same settings between which no search is under way. -/
theorem matching_on (hw : t.WellFormed) (hc : c.searchesAnew t = true)
    (h : Alike t c.level [] w w') : Matching t c.level [] (c.on t w) (c.on t w') := by
  have hnil : ∀ {e : EdgeId} {root : NodeId} (edge : Edge), t.edges.get? e = some edge →
      ([] : List NodeId) ⊆ [edge.target.node, root] := fun _ _ => List.nil_subset _
  cases c with
  | run root l kind =>
    have hkind : kind = .forward ∨ kind = .full ∧ l = .l1 := by
      simpa [Computation.searchesAnew] using hc
    exact ((matching_run hw hkind h).mono (List.nil_subset _)).map _
  | nearSpace => cases hc
  | extendedSpace root e l =>
    have hroot : t.isOverloaded root l = true → t.isPseudonode root l = true := by
      intro hover
      simpa [Computation.searchesAnew, hover] using hc
    exact (matching_extendedSpace hw hroot hnil h).map _
  | farSpace root e l => exact (matching_farSpace hw hnil h).map _
  | commonSpace root e l =>
    have hroot : t.isOverloaded root l = true → t.isPseudonode root l = true := by
      intro hover
      simpa [Computation.searchesAnew, hover] using hc
    exact (matching_commonSpace hw hroot hnil h).map _
  | loopFree root e l strict => exact (matching_loopFree hw h).map _
  | remote root e l strict => exact (matching_remote hw h).map _
  | backups root e l => exact (matching_backups hw h).map _

namespace Session

/-- Where the outcomes of a computation match, the answers of the sessions are the same. -/
theorem answer_eq_of_matching {s s' : Session} {l : Level} {ns : List NodeId} {α : Type}
    {f : Topology → Compute α}
    (h : Matching t l ns (f s.topology s.workspace) (f s'.topology s'.workspace)) :
    (s'.compute f).1 = (s.compute f).1 := by
  unfold compute
  generalize f s.topology s.workspace = r at h ⊢
  generalize f s'.topology s'.workspace = r' at h ⊢
  cases h <;> rfl

/-- **Answers do not depend on history.** Let two sessions have come about by any requests, of which
some may have renewed them, and let them have the same topology and the same settings. A forward
run, a full run at level 1, a Q-space, the loop-free, the remote and all alternates have the same
answer in both, or fail for the same reason, and so do the extended P-space and the PQ-space of a
root that is not an overloaded router. -/
theorem answer_eq (history history' : List Request) (c : Computation)
    (htopology : (after {} history').topology = (after {} history).topology)
    (hsettings : (after {} history').workspace.settings = (after {} history).workspace.settings)
    (hc : c.searchesAnew (after {} history).topology = true) :
    ((after {} history').serve (.compute c)).1 = ((after {} history).serve (.compute c)).1 := by
  have hs := sound_after history
  have hs' := sound_after history'
  have hmatching : Matching (after {} history).topology c.level []
      (c.on (after {} history).topology (after {} history).workspace)
      (c.on (after {} history').topology (after {} history').workspace) := by
    rw [htopology]
    exact matching_on hs.wellFormed hc ⟨hsettings, hs.frontier, hs'.frontier, by simp⟩
  exact answer_eq_of_matching (f := fun t => c.on t) hmatching

/-- A history of the ring of five routers in which searches have been made, from the first router
also on the inverted ring, settings have come and gone, and the session was renewed. -/
def busyRing : List Request :=
  pentagon.map .change ++ [.compute (.run ⟨1, 0⟩ .l2 .full),
    .configure { strictDownstream := true }, .compute (.remote ⟨0, 0⟩ ⟨0, 0⟩ .l1 false),
    .compute (.farSpace ⟨99, 0⟩ ⟨0, 0⟩ .l1), .renew {}]

theorem answer_eq_ring :
    (after {} busyRing).topology = (after {} (pentagon.map .change)).topology ∧
      (after {} busyRing).workspace.settings =
        (after {} (pentagon.map .change)).workspace.settings ∧
      (Computation.backups ⟨0, 0⟩ ⟨0, 0⟩ .l1).searchesAnew
        (after {} (pentagon.map .change)).topology = true ∧
      ((after {} busyRing).serve (.compute (.backups ⟨0, 0⟩ ⟨0, 0⟩ .l1))).1 =
        ((after {} (pentagon.map .change)).serve (.compute (.backups ⟨0, 0⟩ ⟨0, 0⟩ .l1))).1 := by
  have htopology : (after {} busyRing).topology = (after {} (pentagon.map .change)).topology := by
    rw [topology_after, topology_after]
    rfl
  have hsettings : (after {} busyRing).workspace.settings =
      (after {} (pentagon.map .change)).workspace.settings := by decide +kernel
  exact ⟨htopology, hsettings, rfl, answer_eq _ _ _ htopology hsettings rfl⟩

/-- A router with a link to each of two others, which becomes overloaded after some requests. -/
def overloadedAfter (requests : List Request) : Session :=
  after {} (([.addRouter "s" 0 .all, .addRouter "e" 0 .all, .addRouter "f" 0 .all,
      .addLink ⟨⟨0, 0⟩, "toe", none⟩ ⟨⟨1, 0⟩, "tos", none⟩ (.saturate 1) .all,
      .addLink ⟨⟨0, 0⟩, "tof", none⟩ ⟨⟨2, 0⟩, "tos", none⟩ (.saturate 1) .all] : List Change).map
    .change ++ (requests ++ [.change (.setOverload ⟨0, 0⟩ .l1 true)]))

/-- The members of a space that has been asked for. -/
def membersOf : Except Failure Answer → Option (List NodeId)
  | .ok (.space space) => some (space.toList.map (·.1))
  | _ => none

/-- The extended P-space of an overloaded router holds what was found when it was not. -/
theorem answer_ne_overloaded : ∃ s s' : Session,
    s = overloadedAfter [] ∧ s' = overloadedAfter [.compute (.run ⟨0, 0⟩ .l1 .forward)] ∧
      s'.topology = s.topology ∧ s'.workspace.settings = s.workspace.settings ∧
      (s'.serve (.compute (.extendedSpace ⟨0, 0⟩ ⟨0, 0⟩ .l1))).1 ≠
        (s.serve (.compute (.extendedSpace ⟨0, 0⟩ ⟨0, 0⟩ .l1))).1 := by
  refine ⟨_, _, rfl, rfl, ?_, by decide +kernel, fun h => ?_⟩
  · rw [overloadedAfter, overloadedAfter, topology_after, topology_after]
    rfl
  · have hdiffer : membersOf ((overloadedAfter [.compute (.run ⟨0, 0⟩ .l1 .forward)]).serve
        (.compute (.extendedSpace ⟨0, 0⟩ ⟨0, 0⟩ .l1))).1 ≠
      membersOf ((overloadedAfter []).serve (.compute (.extendedSpace ⟨0, 0⟩ ⟨0, 0⟩ .l1))).1 := by
      decide +kernel
    exact hdiffer (congrArg membersOf h)

end Session

end LinkState
