import LinkState.Proofs.Repair.LoopFree
import LinkState.Proofs.Repair.Space
import LinkState.Proofs.Session.FarSpace

/-!
# Computations without faults

A fault is a violated assertion: a search met a state that it must never meet, a handle named no row
where one was needed, or the edge to protect was a tunnel. While no search is under way, a
computation whose root exists, and whose protected edge exists and is a unicast one, comes to no
fault (`safe_on`), though it may be refused. The searches themselves are safe whatever they are
asked for; what remains is that every node from which distances are computed exists, for which the
neighbours of the root have to be followed.
-/

namespace LinkState

open Compute

variable {α β : Type} {t : Topology} {l : Level} {n root : NodeId} {e : EdgeId} {edge : Edge}
  {strict : Bool} {c : Compute α} {k : α → Compute β}

theorem Topology.contains_of_mem_logicalNeighbours (hw : t.WellFormed) {nb : LogicalNeighbour}
    (hnb : nb ∈ t.logicalNeighbours n l) : t.nodes.contains nb.node = true := by
  have htarget : ∀ m a, a ∈ t.activeArcs m l → t.nodes.contains a.edge.target.node = true :=
    fun m a ha => hw.target_mem _ _ ((mem_activeArcs t).1 ha).1
  obtain ⟨hout, ⟨-, -, hnode⟩ | ⟨-, c, hc, -, -, hnode⟩⟩ := (mem_logicalNeighbours t).1 hnb
  · exact hnode ▸ htarget _ _ hout
  · exact hnode ▸ htarget _ _ hc

/-! ## Safe computations -/

namespace Compute

/-- While no search is under way a computation succeeds or is refused, and then none is under way
again. -/
def Safe (c : Compute α) : Prop :=
  ∀ w, w.frontier.isEmpty = true → c.Faultless w ∧ (c.after w).frontier.isEmpty = true

namespace Safe

/-- In a sequence the second part need only be safe for the answers of the first one. -/
theorem bindOn (hc : Safe c) (hk : ∀ a w w', c w = .ok a w' → Safe (k a)) : Safe (c >>= k) := by
  intro w hempty
  obtain ⟨hfaultless, hafter⟩ := hc w hempty
  cases hw : c w with
  | ok a w' =>
    rw [after_of_ok hw] at hafter
    have hrest := hk a w w' hw w' hafter
    refine ⟨hfaultless.bind fun b v h => ?_, after_bind_of_ok hw ▸ hrest.2⟩
    cases hw.symm.trans h
    exact hrest.1
  | error failure w' =>
    refine ⟨hfaultless.bind fun b v h => ?_, ?_⟩
    · cases hw.symm.trans h
    · rw [after_bind_of_error hw, ← after_of_error hw]
      exact hafter

theorem bind (hc : Safe c) (hk : ∀ a, Safe (k a)) : Safe (c >>= k) :=
  hc.bindOn fun a _ _ _ => hk a

theorem pure (a : α) : Safe (Pure.pure a : Compute α) := fun _ hempty => ⟨nofun, hempty⟩

theorem findings (l : Level) : Safe (Compute.findings l) := fun _ hempty => ⟨nofun, hempty⟩

theorem tell (e : Event) : Safe (Compute.emit e) := fun _ hempty => ⟨nofun, hempty⟩

theorem check (r : Except Error α) : Safe (Compute.check r) := by
  intro w hempty
  cases r <;> exact ⟨nofun, hempty⟩

theorem row {a : α} {o : Option α} (h : o = some a) : Safe (Compute.row o) := by
  subst h
  exact pure a

theorem map (f : α → β) (hc : Safe c) : Safe (f <$> c) := by
  rw [← bind_pure_comp]
  exact hc.bind fun a => pure (f a)

theorem attempt (hc : Safe c) : Safe (Compute.attempt c) := by
  intro w hempty
  obtain ⟨hfaultless, hafter⟩ := hc w hempty
  obtain ⟨r, hr⟩ := hfaultless.attempt_eq_ok
  refine ⟨fun f w' h => ?_, after_attempt c w ▸ hafter⟩
  cases hr.symm.trans h

end Safe

end Compute

section

variable (hw : t.WellFormed)

include hw

theorem safe_run (n : NodeId) (l : Level) (kind : RunKind) : Safe (Run.run t n l kind) :=
  fun w hempty => ⟨run_faultless hw hempty kind, (running_staysEmpty hw).run n l kind w hempty⟩

theorem safe_computeDistances (hn : t.nodes.contains n = true) :
    Safe (LinkState.computeDistances t l n) := fun w hempty =>
  ⟨computeDistances_faultless hw hn hempty, (running_staysEmpty hw).computeDistances n w hempty⟩

theorem safe_computeAllDistances {ns : List NodeId} (hns : ∀ n ∈ ns, t.nodes.contains n = true) :
    Safe (Repair.computeAllDistances t l ns) := by
  induction ns with
  | nil => exact .pure ()
  | cons n ns ih =>
    obtain ⟨hn, hns⟩ := List.forall_mem_cons.1 hns
    exact (safe_computeDistances hw hn).bind fun _ => ih hns

omit hw in
theorem safe_collect (assess : α → Except Error (Option Alternate)) (as : List α) :
    Safe (Repair.collect t assess as) := by
  induction as with
  | nil => exact .pure []
  | cons a as ih =>
    unfold Repair.collect
    refine (Safe.check _).bind fun found => ?_
    cases found with
    | none => exact ih
    | some alternate => exact (Safe.tell _).bind fun _ => ih.bind fun _ => .pure _

omit hw in
theorem safe_assessAll (f : Findings) (cs : List Nexthop) (ds : List Affected) :
    Safe (Repair.assessAll t l f root e edge strict cs ds) := by
  induction ds with
  | nil => exact .pure []
  | cons d ds ih =>
    unfold Repair.assessAll
    refine (safe_collect _ cs).bind fun found => ?_
    dsimp only
    split
    · exact (Safe.tell _).bind fun _ => ih.bind fun _ => .pure _
    · exact ih.bind fun _ => .pure _

omit hw in
/-- A unicast edge that exists is protected or refused. -/
theorem safe_requireProtected (hedge : t.edges.get? e = some edge) (hkind : edge.kind = .unicast) :
    Safe (Repair.requireProtected t root e l) := by
  intro w hempty
  unfold Repair.requireProtected
  cases h : Repair.protectedEdge t root e l with
  | ok edge' => exact ⟨nofun, hempty⟩
  | error failure =>
    refine ⟨fun f w' hf => ?_, hempty⟩
    cases hf
    unfold Repair.protectedEdge at h
    split at h
    · cases h
    · cases h
    rename_i node edge' _ hedge'
    cases hedge.symm.trans hedge'
    split at h
    · cases h
    split at h
    · cases h
    split at h
    · cases h
    split at h
    · rename_i hne
      rw [hkind] at hne
      cases hne
    split at h <;> cases h

theorem safe_loopFree (hedge : t.edges.get? e = some edge) (hkind : edge.kind = .unicast) :
    Safe (Repair.loopFree t l root e strict) := by
  unfold Repair.loopFree
  refine (safe_requireProtected hedge hkind).bindOn fun _ w w' h => ?_
  obtain ⟨rfl, -, horder⟩ := Repair.requireProtected_eq_ok hedge h
  split
  · exact .pure none
  refine (Safe.tell _).bind fun _ => (safe_computeDistances hw horder.root_mem).bind fun _ =>
    (safe_computeDistances hw (hw.target_mem e edge hedge)).bind fun _ =>
      (Safe.findings l).bind fun f => ?_
  dsimp only
  split
  · exact .pure none
  refine (safe_computeAllDistances hw fun n hn => ?_).bind fun _ =>
    (Safe.findings l).bind fun f => (safe_assessAll f _ _).bind fun _ => .pure _
  obtain ⟨x, hx, rfl⟩ := List.mem_map.1 (List.mem_eraseDups.1 hn)
  obtain ⟨nb, hnb, -, -, -, rfl⟩ := Repair.mem_candidates.1 hx
  exact Topology.contains_of_mem_logicalNeighbours hw hnb

omit hw in
theorem safe_nearSpace (hedge : t.edges.get? e = some edge) : Safe (Repair.nearSpace t l root e) :=
  (Safe.row hedge).bind fun _ => (Safe.findings l).bind fun _ => .check _

theorem safe_extendThrough {far : NodeId} {nexthops : List Nexthop}
    (hnexthops : ∀ x ∈ nexthops, t.nodes.contains x.node = true) (space : RepairSpace) :
    Safe (Repair.extendThrough t l root far space nexthops) := by
  induction nexthops generalizing space with
  | nil => exact .pure space
  | cons x xs ih =>
    obtain ⟨hx, hxs⟩ := List.forall_mem_cons.1 hnexthops
    exact (safe_computeDistances hw hx).bind fun _ => (Safe.findings l).bind fun _ =>
      (Safe.check _).bind fun _ => (Safe.check _).bind fun _ =>
        (Safe.check _).bind fun space => ih hxs space

theorem safe_extendedSpace (hroot : t.nodes.contains root = true)
    (hedge : t.edges.get? e = some edge) : Safe (Repair.extendedSpace t l root e) := by
  unfold Repair.extendedSpace
  refine (Safe.row hedge).bindOn fun edge' w w' h => ?_
  obtain ⟨hedge', -⟩ := row_eq_ok.1 h
  refine (safe_computeDistances hw hroot).bind fun _ =>
    (safe_computeDistances hw (hw.target_mem e edge' hedge')).bind fun _ =>
      (Safe.findings l).bind fun f => (Safe.check _).bind fun space =>
        (Safe.check _).bind fun toFar => (Safe.check _).bindOn fun xs w w' h => ?_
  refine safe_extendThrough hw (fun x hx => ?_) space
  obtain ⟨nb, hnb, -, rfl⟩ := Repair.mem_helpers (check_eq_ok.1 h).1 x hx
  exact Topology.contains_of_mem_logicalNeighbours hw hnb

theorem safe_farSpace (hroot : t.nodes.contains root = true) (hedge : t.edges.get? e = some edge) :
    Safe (Repair.farSpace t l root e) := by
  have htoward : ∀ n, Safe (Repair.distancesToward l (t.invert l) n) := fun n =>
    (safe_run (hw.invert l) n l .forward).bind fun _ => .pure _
  unfold Repair.farSpace
  refine (Safe.row hedge).bindOn fun edge' w w' h => ?_
  have hfar := hw.target_mem e edge' (row_eq_ok.1 h).1
  dsimp only
  split
  · exact .pure _
  exact (Safe.tell _).bind fun _ =>
    ((htoward _).bind fun _ => (htoward root).bind fun _ => .pure _).attempt.bind fun _ =>
      (Safe.tell _).bind fun _ => (safe_computeDistances hw hroot).attempt.bind fun _ =>
        (safe_computeDistances hw hfar).attempt.bind fun _ => (Safe.check _).bind fun _ =>
          (Safe.check _).bind fun _ => (Safe.check _).bind fun _ => .pure _

theorem safe_commonSpace (hroot : t.nodes.contains root = true)
    (hedge : t.edges.get? e = some edge) : Safe (Repair.commonSpace t l root e) :=
  (safe_extendedSpace hw hroot hedge).bind fun _ =>
    (safe_farSpace hw hroot hedge).bind fun _ => .pure _

theorem safe_assessRemotes (ds : List Affected) (xs : List (NodeId × RepairPath)) :
    Safe (Repair.assessRemotes t l root edge strict ds xs) := by
  induction xs with
  | nil => exact .pure []
  | cons x xs ih =>
    exact (safe_run hw x.1 l .forward).bind fun _ => (Safe.findings l).bind fun _ =>
      (Safe.check _).bind fun _ => (Safe.check _).bind fun _ =>
        (Safe.check _).bind fun _ => (safe_collect _ ds).bind fun _ => ih.bind fun _ => .pure _

theorem safe_remote (hedge : t.edges.get? e = some edge) (hkind : edge.kind = .unicast) :
    Safe (Repair.remote t l root e strict) := by
  unfold Repair.remote
  refine (safe_requireProtected hedge hkind).bindOn fun _ w w' h => ?_
  have horder := (Repair.inOrder_of_requireProtected h).2
  split
  · exact .pure none
  split
  · exact (Safe.tell _).bind fun _ => .pure none
  refine (safe_commonSpace hw horder.root_mem hedge).bind fun space => (Safe.tell _).bind fun _ =>
    (Safe.findings l).bind fun f => ?_
  dsimp only
  split
  · exact .pure none
  · exact (safe_assessRemotes hw _ _).bind fun _ => .pure _

theorem safe_backups (hedge : t.edges.get? e = some edge) (hkind : edge.kind = .unicast) :
    Safe (Repair.backups t l root e) := by
  have hget : Safe (get : Compute Workspace) := fun _ hempty => ⟨nofun, hempty⟩
  unfold Repair.backups
  refine hget.bind fun w => (safe_loopFree hw hedge hkind).bind fun near => ?_
  split
  · exact .pure near
  · exact (safe_remote hw hedge hkind).bind fun _ => .pure _

end

/-- Whether the root that a computation is for exists, and with it the protected edge, if any, as a
unicast edge. -/
def Computation.wellAddressed (t : Topology) : Computation → Bool
  | .run root _ _ => t.nodes.contains root
  | .nearSpace root e _ | .extendedSpace root e _ | .farSpace root e _ | .commonSpace root e _
  | .loopFree root e _ _ | .remote root e _ _ | .backups root e _ =>
    t.nodes.contains root && (t.edges.get? e).any (·.kind == .unicast)

/-- **A computation whose root and edge exist comes to no fault.** -/
theorem safe_on (hw : t.WellFormed) {c : Computation} (hc : c.wellAddressed t = true) :
    Safe (c.on t) := by
  have hsplit : ∀ {root e}, (t.nodes.contains root && (t.edges.get? e).any (·.kind == .unicast)) =
      true → t.nodes.contains root = true ∧
        ∃ edge, t.edges.get? e = some edge ∧ edge.kind = .unicast := by
    intro root e h
    rw [Bool.and_eq_true, Option.any_eq_true] at h
    obtain ⟨hroot, edge, hedge, hkind⟩ := h
    exact ⟨hroot, edge, hedge, by simpa using hkind⟩
  cases c with
  | run root l kind => exact (safe_run hw root l kind).map _
  | nearSpace root e l =>
    obtain ⟨-, edge, hedge, -⟩ := hsplit hc
    exact (safe_nearSpace hedge).map _
  | extendedSpace root e l =>
    obtain ⟨hroot, edge, hedge, -⟩ := hsplit hc
    exact (safe_extendedSpace hw hroot hedge).map _
  | farSpace root e l =>
    obtain ⟨hroot, edge, hedge, -⟩ := hsplit hc
    exact (safe_farSpace hw hroot hedge).map _
  | commonSpace root e l =>
    obtain ⟨hroot, edge, hedge, -⟩ := hsplit hc
    exact (safe_commonSpace hw hroot hedge).map _
  | loopFree root e l strict =>
    obtain ⟨-, edge, hedge, hkind⟩ := hsplit hc
    exact (safe_loopFree hw hedge hkind).map _
  | remote root e l strict =>
    obtain ⟨-, edge, hedge, hkind⟩ := hsplit hc
    exact (safe_remote hw hedge hkind).map _
  | backups root e l =>
    obtain ⟨-, edge, hedge, hkind⟩ := hsplit hc
    exact (safe_backups hw hedge hkind).map _

end LinkState
