import LinkState.Proofs.Repair.Dependence
import LinkState.Proofs.Repair.LoopFree
import LinkState.Proofs.Repair.Space
import LinkState.Proofs.Session.Standing

/-!
# Computations in lockstep

Two workspaces are `Alike` to some nodes if the settings are the same, no search is under way in
either, and what they hold of searches from these nodes is the same; of other nodes they may hold
anything. One computation on both is in lockstep: after each step either both go on with the same
value, in workspaces alike to the nodes that have been searched from by then, or both fail in the
same way (`Matching`).

Runs match whatever has been searched before (`matching_run`), since the outcome of a search is a
matter of the topology. What is computed from distances matches as long as the distances are from
nodes that have been searched from, and it is the point of this module that they are:
`matching_loopFree`, `matching_extendedSpace`, `matching_farSpace` and `matching_remote` start from
workspaces that are alike to no node at all.
-/

namespace LinkState

open Compute Findings

/-- What two workspaces hold of searches from some nodes is the same. -/
structure Alike (t : Topology) (l : Level) (ns : List NodeId) (w w' : Workspace) : Prop where
  settings : w'.settings = w.settings
  frontier : w.frontier.isEmpty = true
  frontier' : w'.frontier.isEmpty = true
  sameAt : ∀ n ∈ ns, SameAt t l (w.findings.get l) (w'.findings.get l) n

/-- Two outcomes of a computation match: the answers are the same, in workspaces alike to some
nodes, or the failures are. -/
inductive Matching {α : Type} (t : Topology) (l : Level) (ns : List NodeId) :
    EStateM.Result Failure Workspace α → EStateM.Result Failure Workspace α → Prop
  | ok (a : α) {w w' : Workspace} (h : Alike t l ns w w') : Matching t l ns (.ok a w) (.ok a w')
  | error (e : Failure) {w w' : Workspace} (h : Alike t l [] w w') :
    Matching t l ns (.error e w) (.error e w')

variable {α β : Type} {t t₀ : Topology} {l : Level} {ns ms : List NodeId} {n root far : NodeId}
  {e : EdgeId} {edge : Edge} {strict : Bool} {kind : RunKind} {w w' v v' : Workspace}
  {c c' : Compute α} {k k' : α → Compute β}

theorem Alike.mono (h : Alike t l ns w w') (hsub : ms ⊆ ns) : Alike t l ms w w' :=
  ⟨h.settings, h.frontier, h.frontier', fun n hn => h.sameAt n (hsub hn)⟩

theorem Alike.base (h : Alike t l ns w w') : Alike t l [] w w' := h.mono (List.nil_subset _)

theorem Alike.emit (h : Alike t l ns w w') (e : Event) :
    Alike t l ns { w with trace := w.trace ++ [e] } { w' with trace := w'.trace ++ [e] } :=
  ⟨h.settings, h.frontier, h.frontier', h.sameAt⟩

namespace Matching

theorem mono {r r' : EStateM.Result Failure Workspace α} (h : Matching t l ns r r')
    (hsub : ms ⊆ ns) : Matching t l ms r r' := by
  cases h with
  | ok a h => exact .ok a (h.mono hsub)
  | error e h => exact .error e h

theorem bind (h : Matching t l ns (c w) (c' w'))
    (hk : ∀ a v v', c w = .ok a v → Alike t l ns v v' → Matching t l ms (k a v) (k' a v')) :
    Matching t l ms ((c >>= k) w) ((c' >>= k') w') := by
  generalize hr : c w = r at h
  generalize hr' : c' w' = r' at h
  cases h with
  | ok a h =>
    rw [bind_of_ok hr, bind_of_ok hr']
    exact hk a _ _ hr h
  | error e h =>
    rw [bind_of_error hr, bind_of_error hr']
    exact .error e h

theorem pure (h : Alike t l ns w w') (a : α) :
    Matching t l ns ((Pure.pure a : Compute α) w) ((Pure.pure a : Compute α) w') :=
  .ok a h

theorem emit (h : Alike t l ns w w') (e : Event) :
    Matching t l ns (Compute.emit e w) (Compute.emit e w') :=
  .ok () (h.emit e)

theorem check (h : Alike t l ns w w') (r : Except Error α) :
    Matching t l ns (Compute.check r w) (Compute.check r w') := by
  cases r with
  | ok a => exact .ok a h
  | error e => exact .error _ h.base

theorem row (h : Alike t l ns w w') (o : Option α) :
    Matching t l ns (Compute.row o w) (Compute.row o w') := by
  cases o with
  | some a => exact .ok a h
  | none => exact .error _ h.base

/-- Reading the findings gives different ones, each of its own workspace. -/
theorem findings {k k' : Findings → Compute β}
    (h : Matching t l ns (k (w.findings.get l) w) (k' (w'.findings.get l) w')) :
    Matching t l ns ((Compute.findings l >>= k) w) ((Compute.findings l >>= k') w') := by
  rw [bind_of_ok (c := Compute.findings l) rfl, bind_of_ok (c := Compute.findings l) rfl]
  exact h

theorem map (f : α → β) (h : Matching t l ns (c w) (c' w')) :
    Matching t l ns ((f <$> c) w) ((f <$> c') w') := by
  rw [← bind_pure_comp, ← bind_pure_comp]
  exact h.bind fun a v v' _ h => .pure h _

/-- A computation whose refusal is caught goes on from what it has left. -/
theorem attempt {k k' : Except Error α → Compute β} (h : Matching t l ns (c w) (c' w'))
    (hok : ∀ a v v', Alike t l ns v v' → Matching t l ms (k (.ok a) v) (k' (.ok a) v'))
    (herror : ∀ e v v', Alike t l [] v v' →
      Matching t l ms (k (.error e) v) (k' (.error e) v')) :
    Matching t l ms ((Compute.attempt c >>= k) w) ((Compute.attempt c' >>= k') w') := by
  generalize hr : c w = r at h
  generalize hr' : c' w' = r' at h
  cases h with
  | ok a h =>
    rw [bind_of_ok (attempt_of_ok hr), bind_of_ok (attempt_of_ok hr')]
    exact hok a _ _ h
  | error e h =>
    cases e with
    | error e =>
      rw [bind_of_ok (attempt_of_error hr), bind_of_ok (attempt_of_error hr')]
      exact herror e _ _ h
    | fault f =>
      rw [bind_of_error (attempt_of_fault hr), bind_of_error (attempt_of_fault hr')]
      exact .error _ h

theorem attempt_any {k k' : Except Error α → Compute β} (h : Matching t l ns (c w) (c' w'))
    (hk : ∀ r v v', Alike t l [] v v' → Matching t l ms (k r v) (k' r v')) :
    Matching t l ms ((Compute.attempt c >>= k) w) ((Compute.attempt c' >>= k') w') :=
  h.attempt (fun a v v' h => hk (.ok a) v v' h.base) fun e v v' h => hk (.error e) v v' h

end Matching

/-! ## Runs -/

/-- Searching runs from one root make workspaces alike to it. -/
theorem Alike.performed (h : Alike t₀ l ns w w') (hkind : kind ≠ .partialRoutes)
    (hv : Run.Performed t root l kind w v) (hv' : Run.Performed t root l kind w' v') :
    Alike t₀ l (root :: ns) v v' := by
  refine ⟨(hv'.settings.trans h.settings).trans hv.settings.symm, hv.frontier, hv'.frontier,
    fun n hn => ?_⟩
  by_cases e : n = root
  · subst e
    have hfresh := hv.fresh hkind
    have hfresh' := hv'.fresh hkind
    exact .inr ⟨hfresh'.settled.trans hfresh.settled.symm,
      hfresh'.destinations.trans hfresh.destinations.symm⟩
  · have hrecord : v.record l n = w.record l n := (hv.record l n).trans (if_neg fun h => e h.2)
    have hrecord' : v'.record l n = w'.record l n := (hv'.record l n).trans (if_neg fun h => e h.2)
    refine (h.sameAt n ((List.mem_cons.1 hn).resolve_left e)).imp_right fun hsame => ?_
    exact ⟨(congrArg RootRecord.settled hrecord').trans
        (hsame.1.trans (congrArg RootRecord.settled hrecord).symm),
      (congrArg RootRecord.destinations hrecord').trans
        (hsame.2.trans (congrArg RootRecord.destinations hrecord).symm)⟩

/-- **Runs match**, if they search and are not preceded by others. -/
theorem matching_run (hw : t.WellFormed) (hkind : kind = .forward ∨ kind = .full ∧ l = .l1)
    (h : Alike t₀ l ns w w') :
    Matching t₀ l (root :: ns) (Run.run t root l kind w) (Run.run t root l kind w') := by
  have hsearches : kind ≠ .partialRoutes := by
    rcases hkind with rfl | ⟨rfl, -⟩ <;> decide
  obtain ⟨e, hvalid, hrun⟩ | ⟨node, v, hvalid, hrun, hv⟩ :=
      Run.run_alone hw h.frontier root hkind <;>
    obtain ⟨e', hvalid', hrun'⟩ | ⟨node', v', hvalid', hrun', hv'⟩ :=
      Run.run_alone hw h.frontier' root hkind <;>
    cases hvalid.symm.trans hvalid'
  · rw [hrun, hrun']
    exact .error _ h.base
  · have hdest : (v'.record l root).destinations = (v.record l root).destinations :=
      (hv'.fresh hsearches).destinations.trans (hv.fresh hsearches).destinations.symm
    rw [hrun, hrun', hdest]
    exact .ok _ (h.performed hsearches hv hv')

theorem matching_computeDistances (hw : t.WellFormed) (h : Alike t l ns w w') :
    Matching t l (n :: ns) (computeDistances t l n w) (computeDistances t l n w') := by
  unfold computeDistances
  refine (Matching.row h _).bind fun node v v' hnode h => ?_
  obtain ⟨hnode, -⟩ := row_eq_ok.1 hnode
  split
  · rename_i hover
    -- no distance from an overloaded router is ever looked up
    rw [Bool.and_eq_true] at hover
    refine .ok () ⟨h.settings, h.frontier, h.frontier', List.forall_mem_cons.2 ⟨.inl ?_, h.sameAt⟩⟩
    rw [Topology.isOverloaded, hnode]
    exact hover.1
  · exact (matching_run hw (.inl rfl) h).bind fun _ _ _ _ h => .pure h ()

theorem matching_computeAllDistances (hw : t.WellFormed) (ms : List NodeId)
    (h : Alike t l ns w w') :
    Matching t l (ms ++ ns) (Repair.computeAllDistances t l ms w)
      (Repair.computeAllDistances t l ms w') := by
  induction ms generalizing ns w w' with
  | nil => exact .pure h ()
  | cons m ms ih =>
    refine (matching_computeDistances hw h).bind fun _ v v' _ h => (ih h).mono ?_
    rw [List.cons_append]
    exact List.cons_subset.2 ⟨by simp, fun x hx => by
      rw [List.mem_append] at hx ⊢
      exact hx.imp_right (List.mem_cons_of_mem m)⟩

namespace Repair

/-! ## Loop-free alternates -/

theorem matching_requireProtected (h : Alike t l ns w w') :
    Matching t l ns (requireProtected t root e l w) (requireProtected t root e l w') := by
  unfold requireProtected
  cases protectedEdge t root e l with
  | ok edge => exact .ok edge h
  | error failure => exact .error failure h.base

theorem matching_collect (assess : α → Except Error (Option Alternate)) (as : List α)
    (h : Alike t l ns w w') : Matching t l ns (collect t assess as w) (collect t assess as w') := by
  induction as generalizing w w' with
  | nil => exact .pure h []
  | cons a as ih =>
    unfold collect
    refine (Matching.check h _).bind fun found v v' _ h => ?_
    cases found with
    | none => exact ih h
    | some alternate =>
      exact (Matching.emit h _).bind fun _ v v' _ h =>
        (ih h).bind fun _ v v' _ h => .pure h _

theorem matching_assessAll (f : Findings) (cs : List Nexthop) (ds : List Affected)
    (h : Alike t l ns w w') :
    Matching t l ns (assessAll t l f root e edge strict cs ds w)
      (assessAll t l f root e edge strict cs ds w') := by
  induction ds generalizing w w' with
  | nil => exact .pure h []
  | cons d ds ih =>
    unfold assessAll
    refine (matching_collect _ cs h).bind fun found v v' _ h => ?_
    dsimp only
    split
    · exact (Matching.emit h _).bind fun _ v v' _ h =>
        (ih h).bind fun _ v v' _ h => .pure h _
    · exact (ih h).bind fun _ v v' _ h => .pure h _

theorem matching_loopFree (hw : t.WellFormed) (h : Alike t l ns w w') :
    Matching t l [] (loopFree t l root e strict w) (loopFree t l root e strict w') := by
  unfold loopFree
  refine (matching_requireProtected h).bind fun edge w₁ w₁' hedge h => ?_
  have horder := (inOrder_of_requireProtected hedge).2
  split
  · exact .pure h.base none
  refine (Matching.emit h _).bind fun _ w₂ w₂' _ h => ?_
  refine (matching_computeDistances hw h).bind fun _ w₃ w₃' hroot h => ?_
  refine (matching_computeDistances hw h).bind fun _ w₄ w₄' hfar h => .findings ?_
  have hroot := computeDistances_computed hw hroot
  have hfar := computeDistances_computed hw hfar
  have hexact : (w₄.findings.get l).Exact t l root :=
    (hfar.keeps hroot.knows).exact horder.root_forwards
  have hsame := (h.sameAt root (by simp)).sameResults horder.root_forwards
  rw [affected_congr hsame]
  dsimp only
  split
  · exact .pure h.base none
  refine (matching_computeAllDistances hw _ h).bind fun _ w₅ w₅' _ h₅ => .findings ?_
  have hassess : ∀ d ∈ affected root e (w₄.findings.get l), ∀ c ∈ candidates t l root e edge,
      assessLocal t l (w₅'.findings.get l) root e edge strict d c =
        assessLocal t l (w₅.findings.get l) root e edge strict d c := by
    intro d hd c hc
    obtain ⟨r, hr, -, rfl⟩ := mem_affected.1 hd
    have hcandidate : ∀ c ∈ candidates t l root e edge,
        SameAt t l (w₅.findings.get l) (w₅'.findings.get l) c.node := fun c hc =>
      h₅.sameAt c.node (List.mem_append_left _ (List.mem_eraseDups.2 (List.mem_map_of_mem hc)))
    refine assessLocal_congr (h₅.sameAt root (by simp)) (hcandidate c hc) (h₅.sameAt _ (by simp))
      fun p hp => ?_
    obtain ⟨x, hx, rfl⟩ := List.mem_map.1 hp
    obtain ⟨hx, hoif⟩ := List.mem_filter.1 hx
    rcases primary_candidate horder hexact hr hx (by simpa using hoif) with heq | hover | hx
    · rw [heq]
      exact h₅.sameAt _ (by simp)
    · exact .inl hover
    · exact hcandidate x hx
  rw [assessAll_congr hassess]
  exact (matching_assessAll _ _ _ h₅).bind fun _ v v' _ h => .pure h.base _

/-! ## Repair spaces -/

theorem matching_extendThrough (hw : t.WellFormed) {nexthops : List Nexthop}
    (hforwards : ∀ x ∈ nexthops, t.isOverloaded x.node l = false) (space : RepairSpace)
    (h : Alike t l [far, root] w w') :
    Matching t l [far, root] (extendThrough t l root far space nexthops w)
      (extendThrough t l root far space nexthops w') := by
  induction nexthops generalizing w w' space with
  | nil => exact .pure h space
  | cons x xs ih =>
    obtain ⟨hx, hxs⟩ := List.forall_mem_cons.1 hforwards
    unfold extendThrough
    refine (matching_computeDistances hw h).bind fun _ v v' _ h => .findings ?_
    have hsame := h.sameAt x.node (by simp)
    simp only [distance_congr hsame, (hsame.sameResults hx).2,
      addThrough_congr (h.sameAt root (by simp)) (h.sameAt far (by simp))]
    refine (Matching.check h _).bind fun toRoot v v' _ h => ?_
    refine (Matching.check h _).bind fun toFar v v' _ h => ?_
    exact (Matching.check h _).bind fun space v v' _ h => ih hxs space (h.mono (by simp))

/-- A node from which a search has been accepted is not overloaded. -/
theorem forwards_of_computeDistances
    (hn : t.isOverloaded n l = true → t.isPseudonode n l = true)
    (h : computeDistances t l n w = .ok () v) : t.isOverloaded n l = false := by
  unfold computeDistances at h
  obtain ⟨node, w₁, h₁, h⟩ := bind_eq_ok.1 h
  obtain ⟨hnode, rfl⟩ := row_eq_ok.1 h₁
  rw [Topology.isOverloaded, Topology.isPseudonode, hnode] at hn
  split at h
  · rename_i hover
    rw [Bool.and_eq_true, Bool.not_eq_true'] at hover
    cases hover.2.symm.trans (hn hover.1)
  · obtain ⟨rs, w₂, h₂, -⟩ := bind_eq_ok.1 h
    obtain ⟨node', hvalid⟩ := Run.run_validate h₂
    obtain ⟨hnode', -, hover, -⟩ := Run.validate_eq_ok hvalid
    rw [Topology.isOverloaded, hnode']
    exact hover

/-- The extended P-space matches unless its root is an overloaded router. Such a root is not
searched from, but what is left of an earlier search from it would be taken for the P-space. -/
theorem matching_extendedSpace (hw : t.WellFormed)
    (hroot : t.isOverloaded root l = true → t.isPseudonode root l = true)
    (hns : ∀ edge, t.edges.get? e = some edge → ns ⊆ [edge.target.node, root])
    (h : Alike t l [] w w') :
    Matching t l ns (extendedSpace t l root e w) (extendedSpace t l root e w') := by
  unfold extendedSpace
  refine (Matching.row h _).bind fun edge w₁ w₁' hrow h => ?_
  have hns := hns edge (row_eq_ok.1 hrow).1
  refine (matching_computeDistances hw h).bind fun _ w₂ w₂' hcomputed h => ?_
  have hforwards := forwards_of_computeDistances hroot hcomputed
  refine (matching_computeDistances hw h).bind fun _ w₃ w₃' _ h => .findings ?_
  have hroot := h.sameAt root (by simp)
  have hfar := h.sameAt edge.target.node (by simp)
  rw [nearMembers_congr (hroot.sameResults hforwards) hfar, distance_congr hroot]
  refine (Matching.check h _).bind fun space w₄ w₄' _ h => ?_
  refine (Matching.check h _).bind fun toFar w₅ w₅' _ h => ?_
  rw [helpers_congr hroot hfar]
  refine (Matching.check h _).bind fun nexthops w₆ w₆' hhelpers h => ?_
  obtain ⟨hhelpers, -⟩ := check_eq_ok.1 hhelpers
  exact (matching_extendThrough hw (fun x hx => (helpers_eq_ok hhelpers x hx).2) space h).mono hns

theorem matching_distancesToward (hw : t.WellFormed) (h : Alike t₀ l ns w w') :
    Matching t₀ l (n :: ns) (distancesToward l t n w) (distancesToward l t n w') :=
  (matching_run hw (.inl rfl) h).bind fun _ _ _ _ h => .pure h _

/-- The Q-space matches, and workspaces that are alike to both ends of the edge stay so. -/
theorem matching_farSpace (hw : t.WellFormed)
    (hns : ∀ edge, t.edges.get? e = some edge → ns ⊆ [edge.target.node, root])
    (h : Alike t l ns w w') :
    Matching t l ns (farSpace t l root e w) (farSpace t l root e w') := by
  unfold farSpace
  refine (Matching.row h _).bind fun edge w₁ w₁' hrow h => ?_
  have hns := hns edge (row_eq_ok.1 hrow).1
  dsimp only
  split
  · exact .pure h _
  refine (Matching.emit h.base _).bind fun _ w₂ w₂' _ h => ?_
  refine Matching.attempt_any
    ((matching_distancesToward (hw.invert l) h).bind fun towardFar v v' _ h =>
      (matching_distancesToward (hw.invert l) h).bind fun towardRoot v v' _ h => .pure h _)
    fun toward w₃ w₃' h => ?_
  refine (Matching.emit h _).bind fun _ w₄ w₄' _ h => ?_
  -- whether a search was refused is told last, and an answer is only given if none was
  refine (matching_computeDistances hw h).attempt (fun _ w₅ w₅' h => ?_) fun error w₅ w₅' h => ?_
  · refine (matching_computeDistances hw h).attempt (fun _ w₆ w₆' h => ?_)
      fun error w₆ w₆' h => ?_
    · cases toward with
      | ok toward => exact .ok _ (h.mono hns)
      | error e => exact .error _ h.base
    · cases toward with
      | ok toward => exact .error (.error error) h
      | error e => exact .error _ h
  · refine (matching_computeDistances hw h).attempt_any fun farAnew w₆ w₆' h => ?_
    cases toward with
    | ok toward => exact .error (.error error) h
    | error e => exact .error _ h

theorem matching_commonSpace (hw : t.WellFormed)
    (hroot : t.isOverloaded root l = true → t.isPseudonode root l = true)
    (hns : ∀ edge, t.edges.get? e = some edge → ns ⊆ [edge.target.node, root])
    (h : Alike t l [] w w') :
    Matching t l ns (commonSpace t l root e w) (commonSpace t l root e w') :=
  (matching_extendedSpace hw hroot hns h).bind fun _ _ _ _ h =>
    (matching_farSpace hw hns h).bind fun _ _ _ _ h => .pure h _

/-! ## Remote alternates -/

theorem matching_assessRemotes (hw : t.WellFormed) (ds : List Affected)
    (nodes : List (NodeId × RepairPath)) (h : Alike t l [edge.target.node, root] w w') :
    Matching t l [edge.target.node, root] (assessRemotes t l root edge strict ds nodes w)
      (assessRemotes t l root edge strict ds nodes w') := by
  induction nodes generalizing w w' with
  | nil => exact .pure h []
  | cons x xs ih =>
    obtain ⟨n, path⟩ := x
    unfold assessRemotes
    refine (matching_run hw (.inl rfl) h).bind fun _ v v' _ h => .findings ?_
    have hn := h.sameAt n (by simp)
    have hfar := h.sameAt edge.target.node (by simp)
    simp only [distance_congr (h.sameAt root (by simp)), distance_congr hn]
    refine (Matching.check h _).bind fun near v v' _ h => ?_
    refine (Matching.check h _).bind fun back v v' _ h => ?_
    refine (Matching.check h _).bind fun toFar v v' _ h => ?_
    rw [assessRemote_congr (p := ⟨n, path, near, back, toFar⟩) hn hfar]
    refine (matching_collect _ ds h).bind fun found v v' _ h => ?_
    exact (ih (h.mono (by simp))).bind fun _ v v' _ h => .pure h _

theorem matching_remote (hw : t.WellFormed) (h : Alike t l ns w w') :
    Matching t l [] (remote t l root e strict w) (remote t l root e strict w') := by
  unfold remote
  refine (matching_requireProtected h).bind fun edge w₁ w₁' hedge h => ?_
  have horder := (inOrder_of_requireProtected hedge).2
  have hforwards := horder.root_forwards
  split
  · exact .pure h.base none
  split
  · exact (Matching.emit h.base _).bind fun _ v v' _ h => .pure h none
  have hends : ∀ edge', t.edges.get? e = some edge' →
      [edge.target.node, root] ⊆ [edge'.target.node, root] := by
    intro edge' hedge'
    cases horder.stored.symm.trans hedge'
    exact List.Subset.refl _
  refine (matching_commonSpace hw (by simp [hforwards]) hends h.base).bind
    fun space w₂ w₂' _ h => ?_
  refine (Matching.emit h _).bind fun _ w₃ w₃' _ h => .findings ?_
  rw [affected_congr ((h.sameAt root (by simp)).sameResults hforwards)]
  split
  · exact .pure h.base none
  · exact (matching_assessRemotes hw _ _ h).bind fun _ v v' _ h => .pure h.base _

theorem matching_backups (hw : t.WellFormed) (h : Alike t l ns w w') :
    Matching t l [] (backups t l root e w) (backups t l root e w') := by
  have hget : ∀ (w : Workspace), (get : Compute Workspace) w = .ok w w := fun _ => rfl
  unfold backups
  rw [bind_of_ok (hget w), bind_of_ok (hget w'), h.settings]
  refine (matching_loopFree hw h).bind fun near v v' _ h => ?_
  split
  · exact .pure h near
  · exact (matching_remote hw h).bind fun far v v' _ h => .pure h _

end Repair

end LinkState
