import LinkState.Proofs.Session.Faults
import LinkState.Proofs.ShortestPath.Course

/-!
# Searches are safe

Whatever a computation is for, and be it refused or even a fault, all searches that it makes are
orderly. Its workspaces make up a chain (`Conducted`) of runs, each of which starts while no search
is under way and searches in good order, and of parts in which no run ends and no search touches the
frontier or a label. What the chain asks of the first workspace, that the frontier is empty and no
node is marked as a member of it (`Workspace.Idle`), holds of the last one again, and so between any
two requests of a session (`Session.idle_after`).

With what is known of faults this makes up `Session.serves_safely`.
-/

namespace LinkState

open Compute

variable {t : Topology} {l : Level} {root : NodeId} {kind : RunKind} {w w' w'' : Workspace}

/-- No search is under way: the frontier is empty, and no node is marked as a member of it. -/
structure Workspace.Idle (w : Workspace) : Prop where
  frontier : w.frontier.isEmpty = true
  unmarked : ∀ l n, ((w.findings.get l).labels.read n).queued = false

/-- No search touches the frontier or a label. -/
structure SameMarks (w w' : Workspace) : Prop where
  frontier : w'.frontier = w.frontier
  labels : ∀ l, (w'.findings.get l).labels = (w.findings.get l).labels

/-- The frontier and the labels at a level are those with which a search ends. -/
def SearchMarks (t : Topology) (l : Level) (root : NodeId) (w w' : Workspace) : Prop :=
  ∃ s, Search.run t l root (w.findings.get l).labels w.frontier = .ok s ∧
    w'.frontier = s.frontier ∧ ∀ l', (w'.findings.get l').labels =
      if l = l' then s.labels else (w.findings.get l').labels

theorem chained_sameMarks : Chained SameMarks where
  refl _ := ⟨rfl, fun _ => rfl⟩
  trans h h' := ⟨h'.frontier.trans h.frontier, fun l => (h'.labels l).trans (h.labels l)⟩
  emit _ _ _ := ⟨rfl, fun _ => rfl⟩

theorem SameMarks.idle (h : SameMarks w w') (hw : w.Idle) : w'.Idle :=
  ⟨h.frontier ▸ hw.frontier, fun l n => h.labels l ▸ hw.unmarked l n⟩

theorem SearchMarks.congr {v v' : Workspace} (h : SearchMarks t l root w w')
    (hbefore : SameMarks v w) (hafter : SameMarks w' v') : SearchMarks t l root v v' := by
  obtain ⟨s, hs, hfrontier, hlabels⟩ := h
  rw [hbefore.labels, hbefore.frontier] at hs
  refine ⟨s, hs, hafter.frontier.trans hfrontier, fun l' => ?_⟩
  rw [hafter.labels, hlabels, hbefore.labels]

namespace Run

theorem labels_modify {f : Findings → Findings} (l' : Level) :
    ((w.findings.modify l f).get l').labels =
      if l = l' then (f (w.findings.get l)).labels else (w.findings.get l').labels := by
  rw [PerLevel.modify, PerLevel.get_set]
  split <;> rfl

theorem sameMarks_modify {f : Findings → Findings} (hf : ∀ g, (f g).labels = g.labels) :
    Keeps SameMarks (modifyFindings l f) := by
  refine fun w => ⟨rfl, fun l' => (labels_modify l').trans ?_⟩
  split
  · rename_i hl
    rw [hf, hl]
  · rfl

theorem sameMarks_rebuildTable (t : Topology) (root : NodeId) (l : Level) :
    Keeps SameMarks (rebuildTable t root l) :=
  chained_sameMarks.bind (sameMarks_modify fun _ => rfl) fun _ =>
    chained_sameMarks.bind (chained_sameMarks.findings l) fun _ => chained_sameMarks.tell rfl

theorem search_marks (h : search t root l w = .ok () w') : SearchMarks t l root w w' := by
  unfold search at h
  obtain ⟨w₁, w₂, hget, h⟩ := bind_eq_ok.1 h
  cases hget
  cases hs : Search.run t l root (w.findings.get l).labels w.frontier with
  | error f =>
    rw [hs] at h
    cases h
  | ok s =>
    rw [hs] at h
    cases h
    exact ⟨s, hs, rfl, labels_modify⟩

/-- The work of a run searches, or it touches no label. -/
theorem work_marks (h : work t root l kind w = .ok () w') :
    kind = .partialRoutes ∧ SameMarks w w' ∨ SearchMarks t l root w w' := by
  cases kind with
  | forward => exact .inr (search_marks h)
  | partialRoutes => exact .inl ⟨rfl, after_of_ok h ▸ sameMarks_rebuildTable t root l w⟩
  | full =>
    unfold work at h
    obtain ⟨_, w₁, h₁, h⟩ := bind_eq_ok.1 h
    have hbump : Keeps SameMarks (modifyFindings l fun f => f.bumpVersion root) :=
      sameMarks_modify fun _ => rfl
    have hrest := chained_sameMarks.bind hbump (fun _ => sameMarks_rebuildTable t root l) w₁
    rw [after_of_ok h] at hrest
    exact .inr ((search_marks h₁).congr (chained_sameMarks.refl w) hrest)

theorem perform_marks {rs : List Result} (h : perform t root l kind w = .ok rs w') :
    kind = .partialRoutes ∧ SameMarks w w' ∨ SearchMarks t l root w w' := by
  unfold perform at h
  obtain ⟨_, w₁, h₁, h⟩ := bind_eq_ok.1 h
  obtain ⟨_, w₂, h₂, h⟩ := bind_eq_ok.1 h
  obtain ⟨f, w₃, h₃, h⟩ := bind_eq_ok.1 h
  obtain ⟨_, w₄, h₄, h⟩ := bind_eq_ok.1 h
  obtain ⟨_, w₅, h₅, h⟩ := bind_eq_ok.1 h
  obtain ⟨-, rfl⟩ := pure_eq_ok.1 h
  obtain ⟨-, rfl⟩ := findings_eq_ok.1 h₃
  cases h₁
  cases h₄
  cases h₅
  exact (work_marks h₂).imp (fun ⟨hkind, hsame⟩ => ⟨hkind, hsame.frontier, hsame.labels⟩)
    fun hsearch => hsearch.congr ⟨rfl, fun _ => rfl⟩ ⟨rfl, fun _ => rfl⟩

end Run

/-- The workspaces of a computation on a topology make up a chain of runs, on the topology or on an
inverted one, each of which starts while no search is under way and searches in good order, and of
parts that touch neither the frontier nor a label and in which no run ends. -/
inductive Conducted (t : Topology) : Workspace → Workspace → Prop
  | done (w : Workspace) : Conducted t w w
  | aside {w w' w'' : Workspace} (same : SameMarks w w')
      (trace : ∃ es, w'.trace = w.trace ++ es ∧ ∀ e ∈ es, e.endsRun = false)
      (rest : Conducted t w' w'') : Conducted t w w''
  | run {w w' w'' : Workspace} {t' : Topology} {root : NodeId} {l : Level} {kind : RunKind}
      {rs : List Result} (on : t' = t ∨ ∃ l', t' = t.invert l') (idle : w.Idle)
      (performed : Run.perform t' root l kind w = .ok rs w')
      (search : kind ≠ .partialRoutes →
        ∃ s, Search.run t' l root (w.findings.get l).labels w.frontier = .ok s ∧
          Search.Orderly t' l root (w.findings.get l).labels w.frontier s)
      (rest : Conducted t w' w'') : Conducted t w w''

theorem Conducted.trans (h : Conducted t w w') (h' : Conducted t w' w'') : Conducted t w w'' := by
  induction h with
  | done => exact h'
  | aside same trace _ ih => exact .aside same trace (ih h')
  | run on idle performed search _ ih => exact .run on idle performed search (ih h')

/-- From an idle workspace a chain leads to an idle one. -/
def Conducts (t : Topology) (w w' : Workspace) : Prop := w.Idle → Conducted t w w' ∧ w'.Idle

theorem chained_conducts (t : Topology) : Chained (Conducts t) where
  refl w hidle := ⟨.done w, hidle⟩
  trans h h' hidle := by
    obtain ⟨h, hidle⟩ := h hidle
    exact (h' hidle).imp_left h.trans
  emit w e he hidle := by
    have hsame : SameMarks w { w with trace := w.trace ++ [e] } := ⟨rfl, fun _ => rfl⟩
    exact ⟨.aside hsame ⟨[e], rfl, by simpa using he⟩ (.done _), hsame.idle hidle⟩

/-- A run that has been validated starts in an idle workspace and leaves one. -/
theorem conducts_perform {t' : Topology} (on : t' = t ∨ ∃ l', t' = t.invert l')
    (hw : t'.WellFormed) (hroot : t'.nodes.contains root = true) (l : Level) (kind : RunKind) :
    Keeps (Conducts t) (Run.perform t' root l kind) := by
  intro w hidle
  obtain ⟨w', hrun, hperformed⟩ := Run.perform_performed hw hroot hidle.frontier l kind
  have hsearch := Search.run_orderly (l := l) hw hroot hidle.frontier (hidle.unmarked l)
  rw [after_of_ok hrun]
  refine ⟨.run on hidle hrun (fun _ => hsearch) (.done w'), ?_⟩
  obtain ⟨-, hsame⟩ | ⟨s, hs, -, hlabels⟩ := Run.perform_marks hrun
  · exact hsame.idle hidle
  · obtain ⟨s', hs', horderly⟩ := hsearch
    cases hs.symm.trans hs'
    refine ⟨hperformed.frontier, fun l' n => ?_⟩
    rw [hlabels]
    split
    · exact horderly.unmarked n
    · exact hidle.unmarked l' n

theorem running_conducts {t' : Topology} (on : t' = t ∨ ∃ l', t' = t.invert l')
    (hw : t'.WellFormed) : Running t' (Conducts t) where
  toChained := chained_conducts t
  run root l kind := by
    have h := chained_conducts t
    unfold Run.run
    refine h.bindOn (h.check _) fun node w w' hvalid => ?_
    have hperform := conducts_perform on hw (Run.contains_of_validate (check_eq_ok.1 hvalid).1)
    refine h.bind (h.findings l) (fun f => h.bind (h.findings .l1) fun f' => ?_) w'
    dsimp only
    split
    · exact h.bind (h.check _) fun _ => h.bind (hperform .l1 .full) fun _ => hperform l _
    · exact hperform l _

theorem closed_conducts (hw : t.WellFormed) : Closed t (Conducts t) where
  toRunning := running_conducts (.inl rfl) hw
  farSpace root e l _ := (running_conducts (.inl rfl) hw).farSpace
    (running_conducts (.inr ⟨l, rfl⟩) (hw.invert l)) root e

namespace Session

/-- Every computation, be it answered or not, leaves an idle workspace. -/
theorem conducts_compute {s : Session} (hs : s.Sound) (c : Computation) :
    Conducts s.topology s.workspace (s.serve (.compute c)).2.workspace := by
  have h := (closed_conducts hs.wellFormed).on c fun root e l _ =>
    (running_conducts (.inl rfl) hs.wellFormed).farSpace
      (running_conducts (.inr ⟨l, rfl⟩) (hs.wellFormed.invert l)) root e
  change Conducts s.topology s.workspace (s.compute fun t => c.on t).2.workspace
  rw [workspace_compute]
  exact h s.workspace

/-- **After every history the workspace is idle.** -/
theorem idle_after (history : List Request) : (after {} history).workspace.Idle := by
  have hstart : ({} : Workspace).Idle := ⟨rfl, fun l n => by cases l <;> rfl⟩
  refine (after_induction (P := fun s => s.Sound ∧ s.workspace.Idle)
    (fun s r ⟨hs, hidle⟩ => ⟨hs.serve r, ?_⟩) ⟨sound_after [], hstart⟩ history).2
  cases r with
  | change c => cases c <;> exact ⟨hidle.frontier, hidle.unmarked⟩
  | configure settings => exact ⟨hidle.frontier, hidle.unmarked⟩
  | renew settings => exact ⟨rfl, hidle.unmarked⟩
  | compute c => exact (conducts_compute hs c hidle).2

/-- A computation is served without a fault, by searches in good order only. -/
structure ServesSafely (s : Session) (c : Computation) : Prop where
  no_fault : ∀ f, (s.serve (.compute c)).1 ≠ .error (.fault f)
  idle : s.workspace.Idle
  conducted : Conducted s.topology s.workspace (s.serve (.compute c)).2.workspace
  idle_again : (s.serve (.compute c)).2.workspace.Idle

/-- **Searches are safe and end.** After every history, also one with requests that have failed, a
computation whose root exists, and whose protected edge exists and is a unicast one, comes to no
fault. All its searches are orderly: a node is marked at the level of the search if and only if it
is in the frontier, at every moment; no node enters or leaves the frontier twice, so the loop ends
after as many rounds as there are nodes at most; and in the end the frontier is empty and no node is
marked. -/
theorem serves_safely (history : List Request) (c : Computation)
    (hc : c.wellAddressed (after {} history).topology = true) :
    (after {} history).ServesSafely c := by
  have hs := sound_after history
  have hidle := idle_after history
  generalize after {} history = s at hs hidle hc
  obtain ⟨hconducted, hagain⟩ := conducts_compute hs c hidle
  refine ⟨fun f hf => ?_, hidle, hconducted, hagain⟩
  have hfaultless := (safe_on hs.wellFormed hc s.workspace hs.frontier).1
  unfold serve compute at hf
  dsimp only at hf
  cases hrun : c.on s.topology s.workspace with
  | ok a w' =>
    rw [hrun] at hf
    cases hf
  | error failure w' =>
    rw [hrun] at hf
    cases hf
    exact hfaultless f w' hrun

/-- In the ring of five routers the backups are found without a fault, after a request that was
one. -/
theorem serves_safely_ring :
    (Computation.backups ⟨0, 0⟩ ⟨0, 0⟩ .l1).wellAddressed (after {} (Run.pentagon.map .change ++
        [.compute (.farSpace ⟨99, 0⟩ ⟨0, 0⟩ .l1)])).topology = true ∧
      (after {} (Run.pentagon.map .change ++
        [.compute (.farSpace ⟨99, 0⟩ ⟨0, 0⟩ .l1)])).ServesSafely
          (.backups ⟨0, 0⟩ ⟨0, 0⟩ .l1) := by
  have hc : (Computation.backups ⟨0, 0⟩ ⟨0, 0⟩ .l1).wellAddressed
      (after {} (Run.pentagon.map .change ++
        [.compute (.farSpace ⟨99, 0⟩ ⟨0, 0⟩ .l1)])).topology = true := by
    decide +kernel
  exact ⟨hc, serves_safely _ _ hc⟩

end Session

end LinkState
