import LinkState.Proofs.ShortestPath.Outcome
import LinkState.Proofs.ShortestPath.Runs

/-!
# What a run does to the records

A workspace keeps a `RootRecord` for every root at every level. A run changes one of them, or two if
it is preceded by a run at level 1, and what it makes of it is a function of the topology and of the
record before (`RootRecord.afterRun`). `run_ran` says all that a run can do while the frontier is
empty: it is refused and changes nothing, or it succeeds, and the frontier is empty again.

So one run never meets another one's labels, and no run ends in a fault.
-/

namespace LinkState

/-- The routers among the results of a search. -/
def Search.routers (t : Topology) (l : Level) (rs : List Result) : List Result :=
  rs.filter fun r => !t.isPseudonode r.node l

/-- What is kept for a root after a run. -/
def RootRecord.afterRun (t : Topology) (root : NodeId) (l : Level) (r : RootRecord) :
    RunKind → RootRecord
  | .full =>
    { settled := Search.outcome t l root
      destinations := Search.routers t l (Search.outcome t l root)
      version := r.version + 1
      table :=
        RoutingTable.rebuild t root l (Search.routers t l (Search.outcome t l root)) r.table }
  | .forward =>
    { r with
      settled := Search.outcome t l root
      destinations := Search.routers t l (Search.outcome t l root) }
  | .partialRoutes => { r with table := RoutingTable.rebuild t root l r.destinations r.table }

/-- What a workspace keeps for a root at a level. -/
def Workspace.record (w : Workspace) (l : Level) (root : NodeId) : RootRecord :=
  (w.findings.get l).roots.read root

/-- Whether an event says that a run has ended. -/
def Event.endsRun : Event → Bool
  | .runFinished .. => true
  | _ => false

/-- Computations that leave the settings alone, keep the frontier empty, and tell the trace of no
run that has ended. -/
structure Quiet (w w' : Workspace) : Prop where
  settings : w'.settings = w.settings
  frontier : w'.frontier.isEmpty = w.frontier.isEmpty
  trace : ∃ es, w'.trace = w.trace ++ es ∧ ∀ e ∈ es, e.endsRun = false

variable {t : Topology} {root : NodeId} {l : Level} {kind : RunKind} {w w' w'' : Workspace}

theorem Quiet.trans (h : Quiet w w') (h' : Quiet w' w'') : Quiet w w'' := by
  obtain ⟨es, hes, hquiet⟩ := h.trace
  obtain ⟨es', hes', hquiet'⟩ := h'.trace
  refine ⟨h'.settings.trans h.settings, h'.frontier.trans h.frontier, es ++ es', ?_, ?_⟩
  · rw [hes', hes, List.append_assoc]
  · intro e he
    exact (List.mem_append.1 he).elim (hquiet e) (hquiet' e)

theorem quiet_emit {e : Event} (he : e.endsRun = false) :
    Quiet w { w with trace := w.trace ++ [e] } :=
  ⟨rfl, rfl, [e], rfl, by simpa using he⟩

namespace Run

open LinkState.Topology Compute

/-- A step changes the record of one root at one level by a function, and no other record. -/
structure Updates (l : Level) (root : NodeId) (f : RootRecord → RootRecord)
    (w w' : Workspace) : Prop where
  quiet : Quiet w w'
  record : ∀ l' x, w'.record l' x =
    if l' = l ∧ x = root then f (w.record l root) else w.record l' x

theorem Updates.trans {f g : RootRecord → RootRecord} (h : Updates l root f w w')
    (h' : Updates l root g w' w'') : Updates l root (g ∘ f) w w'' := by
  refine ⟨h.quiet.trans h'.quiet, fun l' x => ?_⟩
  rw [h'.record, h.record, h.record]
  split <;> simp

/-- A change of the findings at one level that touches the record of one root only. -/
theorem updates_of_modify {f : Findings → Findings} {g : RootRecord → RootRecord}
    (hquiet : Quiet w w') (hw' : w'.findings = w.findings.modify l f)
    (h : ∀ x, (f (w.findings.get l)).roots.read x =
      if x = root then g (w.record l root) else w.record l x) : Updates l root g w w' := by
  refine ⟨hquiet, fun l' x => ?_⟩
  rw [Workspace.record, hw', PerLevel.modify, PerLevel.get_set]
  by_cases hl : l = l'
  · subst hl
    rw [if_pos rfl, h]
    simp
  · rw [if_neg hl, if_neg fun h => hl h.1.symm]
    rfl

variable (hw : t.WellFormed) (hroot : t.nodes.contains root = true)
  (hempty : w.frontier.isEmpty = true)

include hw hroot hempty in
theorem search_updates : ∃ w', search t root l w = .ok () w' ∧
    Updates l root (fun r => r.afterRun t root l .forward) w w' := by
  obtain ⟨s, hs, hcomplete⟩ :=
    Search.run_complete (l := l) hw hroot (w.findings.get l).labels hempty
  have hsettled := Search.settled_eq_outcome hw hroot hempty hs
  refine ⟨{ w with
    findings := w.findings.modify l fun f => f.store t l root s
    frontier := s.frontier
    trace := w.trace ++ s.exceeded.map fun n => Event.metricExceeded (t.nameOf n) l },
    bind_eq_ok.2 ⟨w, w, rfl, ?_⟩,
    updates_of_modify (f := fun f => f.store t l root s) ⟨rfl, ?_, _, rfl, ?_⟩ rfl fun x => ?_⟩
  · rw [hs]
    rfl
  · rw [hcomplete.isEmpty, hempty]
  · intro e he
    obtain ⟨n, -, rfl⟩ := List.mem_map.1 he
    rfl
  · rw [Findings.store, HandleMap.read_update]
    by_cases e : root = x
    · subst e
      rw [if_pos rfl, if_pos rfl, hsettled]
      rfl
    · rw [if_neg e, if_neg (Ne.symm e)]
      rfl

theorem bumpVersion_updates (l : Level) (root : NodeId) (w : Workspace) :
    ∃ w', modifyFindings l (fun f => f.bumpVersion root) w = .ok () w' ∧
      Updates l root (fun r => { r with version := r.version + 1 }) w w' := by
  refine ⟨_, rfl, updates_of_modify (f := fun f => f.bumpVersion root)
    ⟨rfl, rfl, [], by simp, by simp⟩ rfl fun x => ?_⟩
  rw [Findings.bumpVersion, HandleMap.read_update]
  by_cases e : root = x
  · subst e
    simp [Workspace.record]
  · rw [if_neg e, if_neg (Ne.symm e)]
    rfl

theorem rebuildTable_updates (t : Topology) (l : Level) (root : NodeId) (w : Workspace) :
    ∃ w', rebuildTable t root l w = .ok () w' ∧
      Updates l root (fun r => r.afterRun t root l .partialRoutes) w w' := by
  have h : Updates l root (fun r => r.afterRun t root l .partialRoutes) w
      { w with findings := w.findings.modify l fun f => f.rebuildTable t l root } := by
    refine updates_of_modify (f := fun f => f.rebuildTable t l root)
      ⟨rfl, rfl, [], by simp, by simp⟩ rfl fun x => ?_
    rw [Findings.rebuildTable, HandleMap.read_update]
    by_cases e : root = x
    · subst e
      simp [Workspace.record, RootRecord.afterRun]
    · rw [if_neg e, if_neg (Ne.symm e)]
      rfl
  exact ⟨_, rfl, h.quiet.trans (quiet_emit rfl), h.record⟩

include hw hroot hempty in
theorem work_updates (l : Level) (kind : RunKind) : ∃ w', work t root l kind w = .ok () w' ∧
    Updates l root (fun r => r.afterRun t root l kind) w w' := by
  cases kind with
  | forward => exact search_updates hw hroot hempty
  | partialRoutes => exact rebuildTable_updates t l root w
  | full =>
    obtain ⟨w₁, hs, h₁⟩ := search_updates (l := l) hw hroot hempty
    obtain ⟨w₂, hv, h₂⟩ := bumpVersion_updates l root w₁
    obtain ⟨w₃, ht, h₃⟩ := rebuildTable_updates t l root w₂
    exact ⟨w₃, bind_eq_ok.2 ⟨_, _, hs, bind_eq_ok.2 ⟨_, _, hv, ht⟩⟩, (h₁.trans h₂).trans h₃⟩

/-- What a run that is made does: it changes the record of its root, and its end is the last thing
that it tells the trace. -/
structure Performed (t : Topology) (root : NodeId) (l : Level) (kind : RunKind)
    (w w' : Workspace) : Prop where
  settings : w'.settings = w.settings
  frontier : w'.frontier.isEmpty = true
  record : ∀ l' x, w'.record l' x =
    if l' = l ∧ x = root then (w.record l root).afterRun t root l kind else w.record l' x
  trace : ∃ es n, w'.trace = w.trace ++ (es ++ [.runFinished (t.nameOf root) l kind n]) ∧
    ∀ e ∈ es, e.endsRun = false

include hw hroot hempty in
theorem perform_performed (l : Level) (kind : RunKind) :
    ∃ w', perform t root l kind w = .ok (w'.record l root).destinations w' ∧
      Performed t root l kind w w' := by
  have hstart := quiet_emit (w := w) (e := .runStarted (t.nameOf root) l kind) rfl
  obtain ⟨w₁, hwork, h₁⟩ := work_updates (w := { w with
    trace := w.trace ++ [.runStarted (t.nameOf root) l kind] }) hw hroot hempty l kind
  have hquiet := hstart.trans h₁.quiet
  obtain ⟨es, hes, hends⟩ := hquiet.trace
  let count := (w₁.record l root).destinations.length
  refine ⟨{ w₁ with
    trace := w₁.trace ++ [.runFinished (t.nameOf root) l kind count]
    journal := w₁.journal.record w₁.settings.journalSize root l kind count },
    bind_eq_ok.2 ⟨(), _, rfl, bind_eq_ok.2 ⟨(), w₁, hwork, rfl⟩⟩, hquiet.settings,
    hquiet.frontier.trans hempty, h₁.record, es, count, ?_, hends⟩
  rw [hes, List.append_assoc]

/-- All that a run can do while the frontier is empty. -/
inductive Ran (t : Topology) (root : NodeId) (l : Level) (kind : RunKind) (w : Workspace) :
    EStateM.Result Failure Workspace (List Result) → Prop
  /-- The run is refused, or the run at level 1 that must precede it. -/
  | refused (e : Error) (h : validate t root l kind = .error e ∨ ∃ node,
      validate t root l kind = .ok node ∧
      needsLowerLevel l node (w.record .l1 root).version
        (effectiveKind (w.record l root).version kind) = true ∧
      validate t root .l1 .full = .error e) :
    Ran t root l kind w (.error (.error e) w)
  /-- The run is made. -/
  | made {node : Node} {w' : Workspace} (valid : validate t root l kind = .ok node)
      (alone : needsLowerLevel l node (w.record .l1 root).version
        (effectiveKind (w.record l root).version kind) = false)
      (performed : Performed t root l (effectiveKind (w.record l root).version kind) w w') :
    Ran t root l kind w (.ok (w'.record l root).destinations w')
  /-- The run is made after a run at level 1. -/
  | madeAfter {node node' : Node} {w₁ w' : Workspace} (valid : validate t root l kind = .ok node)
      (lower : needsLowerLevel l node (w.record .l1 root).version
        (effectiveKind (w.record l root).version kind) = true)
      (valid' : validate t root .l1 .full = .ok node')
      (performed' : Performed t root .l1 .full w w₁)
      (performed : Performed t root l (effectiveKind (w.record l root).version kind) w₁ w') :
    Ran t root l kind w (.ok (w'.record l root).destinations w')

/-- Only a run at level 2 is preceded by one at level 1. -/
theorem level_of_needsLowerLevel {node : Node} {v : UInt32}
    (h : needsLowerLevel l node v kind = true) : l = .l2 := by
  cases l with
  | l1 => simp [needsLowerLevel] at h
  | l2 => rfl

/-- Only a full run is preceded by one at level 1. -/
theorem kind_of_needsLowerLevel {node : Node} {v : UInt32}
    (h : needsLowerLevel l node v kind = true) : kind = .full := by
  cases kind with
  | full => rfl
  | _ => simp [needsLowerLevel] at h

theorem effectiveKind_partialRoutes (v : UInt32) :
    effectiveKind v .partialRoutes = .partialRoutes ∨ effectiveKind v .partialRoutes = .full := by
  rw [effectiveKind]
  split
  · exact .inr rfl
  · exact .inl rfl

theorem contains_of_validate {node : Node} (h : validate t root l kind = .ok node) :
    t.nodes.contains root = true := by
  rw [Table.contains, (validate_eq_ok h).1]
  rfl

theorem run_eq {node : Node} (hvalid : validate t root l kind = .ok node) :
    run t root l kind w =
      (do
        if needsLowerLevel l node (w.record .l1 root).version
            (effectiveKind (w.record l root).version kind) then
          let _ ← Compute.check (validate t root .l1 .full)
          let _ ← perform t root .l1 .full
        perform t root l (effectiveKind (w.record l root).version kind)) w := by
  unfold run
  rw [hvalid]
  rfl

theorem run_refused {e : Error} (h : validate t root l kind = .error e) :
    run t root l kind w = .error (.error e) w := by
  unfold run
  rw [h]
  rfl

include hw hempty in
/-- **A run from an empty frontier is refused and changes nothing, or it succeeds** and leaves the
frontier empty. -/
theorem run_ran (root : NodeId) (l : Level) (kind : RunKind) :
    Ran t root l kind w (run t root l kind w) := by
  cases hvalid : validate t root l kind with
  | error e =>
    rw [run_refused hvalid]
    exact .refused e (.inl hvalid)
  | ok node =>
    have hroot := contains_of_validate hvalid
    rw [run_eq hvalid]
    split
    · rename_i hlower
      cases hvalid' : validate t root .l1 .full with
      | error e => exact .refused e (.inr ⟨node, hvalid, hlower, hvalid'⟩)
      | ok node' =>
        obtain ⟨w₁, hrun₁, h₁⟩ := perform_performed hw hroot hempty .l1 .full
        obtain ⟨w₂, hrun₂, h₂⟩ := perform_performed hw hroot h₁.frontier l
          (effectiveKind (w.record l root).version kind)
        have hall : (do
            let _ ← Compute.check (.ok node')
            let _ ← perform t root .l1 .full
            perform t root l (effectiveKind (w.record l root).version kind)) w =
              .ok (w₂.record l root).destinations w₂ :=
          bind_eq_ok.2 ⟨_, _, rfl, bind_eq_ok.2 ⟨_, _, hrun₁, hrun₂⟩⟩
        exact hall ▸ .madeAfter hvalid hlower hvalid' h₁ h₂
    · rename_i hlower
      obtain ⟨w₁, hrun, h⟩ := perform_performed hw hroot hempty l
        (effectiveKind (w.record l root).version kind)
      change Ran t root l kind w (perform t root l _ w)
      exact hrun ▸ .made hvalid (Bool.eq_false_iff.2 hlower) h

include hw hempty in
/-- A forward run, or a full one at level 1, has no run before it. -/
theorem run_alone (root : NodeId) (hkind : kind = .forward ∨ kind = .full ∧ l = .l1) :
    (∃ e, validate t root l kind = .error e ∧ run t root l kind w = .error (.error e) w) ∨
      ∃ node w', validate t root l kind = .ok node ∧
        run t root l kind w = .ok (w'.record l root).destinations w' ∧
          Performed t root l kind w w' := by
  have heffective : ∀ version, effectiveKind version kind = kind := by
    rcases hkind with rfl | ⟨rfl, -⟩ <;> exact fun _ => rfl
  have halone : ∀ node version, needsLowerLevel l node version kind = false := by
    rcases hkind with rfl | ⟨rfl, rfl⟩ <;> simp [needsLowerLevel]
  have hran := run_ran hw hempty root l kind
  generalize run t root l kind w = result at hran ⊢
  cases hran with
  | refused e h =>
    obtain h | ⟨node, -, h, -⟩ := h
    · exact .inl ⟨e, h, rfl⟩
    · rw [heffective, halone] at h
      cases h
  | made valid _ performed => exact .inr ⟨_, _, valid, rfl, heffective _ ▸ performed⟩
  | madeAfter _ lower =>
    rw [heffective, halone] at lower
    cases lower

/-! ## Runs that search -/

theorem isEmpty_of_search (h : search t root l w = .ok () w') : w.frontier.isEmpty = true := by
  unfold search at h
  obtain ⟨_, _, hget, h⟩ := bind_eq_ok.1 h
  cases hget
  cases hs : Search.run t l root (w.findings.get l).labels w.frontier with
  | ok s => exact Search.isEmpty_of_run hs
  | error fault =>
    rw [hs] at h
    cases h

theorem isEmpty_of_perform (hkind : kind ≠ .partialRoutes) {rs : List Result}
    (h : perform t root l kind w = .ok rs w') : w.frontier.isEmpty = true := by
  unfold perform at h
  obtain ⟨_, w₁, h₁, h⟩ := bind_eq_ok.1 h
  obtain ⟨_, w₂, h₂, -⟩ := bind_eq_ok.1 h
  rw [emit_eq_ok] at h₁
  subst h₁
  cases kind with
  | partialRoutes => exact absurd rfl hkind
  | forward => exact (isEmpty_of_search h₂ :)
  | full =>
    obtain ⟨_, _, h₃, -⟩ := bind_eq_ok.1 h₂
    exact (isEmpty_of_search h₃ :)

/-- Only from an empty frontier does a run that searches succeed. -/
theorem isEmpty_of_run (hkind : kind = .full ∨ kind = .forward) {rs : List Result}
    (h : run t root l kind w = .ok rs w') : w.frontier.isEmpty = true := by
  obtain ⟨node, hvalid⟩ := run_validate h
  have heffective : effectiveKind (w.record l root).version kind = kind := by
    rcases hkind with rfl | rfl <;> rfl
  have hsearch : kind ≠ .partialRoutes := by
    rcases hkind with rfl | rfl <;> decide
  rw [run_eq hvalid, heffective] at h
  split at h
  · obtain ⟨_, w₁, h₁, h⟩ := bind_eq_ok.1 h
    obtain ⟨-, rfl⟩ := check_eq_ok.1 h₁
    obtain ⟨_, _, h₂, -⟩ := bind_eq_ok.1 h
    exact isEmpty_of_perform (by decide) h₂
  · exact isEmpty_of_perform hsearch h

include hw in
/-- What a run that searches stores for its root is what the search finds. -/
theorem settled_eq_of_run (hkind : kind = .full ∨ kind = .forward) {rs : List Result}
    (h : run t root l kind w = .ok rs w') :
    (w'.record l root).settled = Search.outcome t l root := by
  have hran := run_ran hw (isEmpty_of_run hkind h) root l kind
  rw [h] at hran
  cases hran with
  | made _ _ performed | madeAfter _ _ _ _ performed =>
    rw [performed.record, if_pos ⟨rfl, rfl⟩]
    rcases hkind with rfl | rfl <;> rfl

end Run

end LinkState
