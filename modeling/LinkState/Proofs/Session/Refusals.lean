import LinkState.Proofs.Session.Ledger
import LinkState.Proofs.Session.Standing

/-!
# When a run is refused

A request for a run is looked at in full before anything is done for it. `Run.Invalid` lists the
causes for which it is refused at its own level, each with those before it not being given;
`Run.Refused` adds the one cause that a run at level 1 before it can still have. A run is refused
for these causes only, and then nothing has changed (`Run.run_eq_error_iff`).

A run that is not refused is made, alone or after a full run of the root at level 1
(`Run.Answered`, `Run.answered_of_run`), and each run is counted once.
-/

namespace LinkState

namespace Run

open Compute

/-- The causes for which a root does not take a run at a level, in the order in which they are
looked at. -/
inductive Invalid (t : Topology) (root : NodeId) (l : Level) (kind : RunKind) : Error → Prop
  | unknown (h : t.nodes.get? root = none) : Invalid t root l kind (.unknownNode root)
  | mismatch {node : Node} (hnode : t.nodes.get? root = some node)
      (h : node.levelType.includes l = false) :
      Invalid t root l kind (.rootLevelMismatch node.name l)
  | overloaded {node : Node} (hnode : t.nodes.get? root = some node)
      (hlevel : node.levelType.includes l = true) (h : node.isOverloaded l = true) :
      Invalid t root l kind (.rootOverloaded node.name l)
  | pseudonode {node : Node} (hnode : t.nodes.get? root = some node)
      (hlevel : node.levelType.includes l = true) (hover : node.isOverloaded l = false)
      (hkind : kind ≠ .forward) (h : node.isPseudonode l = true) :
      Invalid t root l kind (.rootPseudonode node.name l)

/-- The run needs a full one at level 1 before it: it amounts to a full run at level 2, of a root
that takes part in level 1, has made no full run there and is not overloaded there. -/
structure Nested (w : Workspace) (root : NodeId) (node : Node) (l : Level) (kind : RunKind) :
    Prop where
  level : l = .l2
  full : kind = .full ∨ kind = .partialRoutes ∧ (w.record .l2 root).version = 0
  lower : node.levelType.includes .l1 = true
  version : (w.record .l1 root).version = 0
  notOverloaded : node.isOverloaded .l1 = false

/-- The causes for which a run is refused. -/
inductive Refused (t : Topology) (w : Workspace) (root : NodeId) (l : Level) (kind : RunKind) :
    Error → Prop
  | invalid {e : Error} (h : Invalid t root l kind e) : Refused t w root l kind e
  /-- The root is a pseudo-node at level 1, where a full run would have to come first. -/
  | nested {node : Node} (valid : ∀ e, ¬Invalid t root l kind e)
      (hnode : t.nodes.get? root = some node) (h : Nested w root node l kind)
      (pseudonode : node.isPseudonode .l1 = true) :
      Refused t w root l kind (.rootPseudonode node.name .l1)

variable {t : Topology} {root : NodeId} {l : Level} {kind : RunKind} {node : Node} {e : Error}
  {w w' : Workspace} {rs : List Result}

theorem validate_eq_error_iff : validate t root l kind = .error e ↔ Invalid t root l kind e := by
  constructor
  · intro h
    unfold validate at h
    split at h
    · cases h
      exact .unknown ‹_›
    rename_i node hnode
    split at h
    · cases h
      exact .mismatch hnode (by simpa using ‹(!_) = true›)
    rename_i hlevel
    have hlevel : node.levelType.includes l = true := by simpa using hlevel
    split at h
    · cases h
      exact .overloaded hnode hlevel ‹_›
    rename_i hover
    split at h
    · cases h
      rename_i hpseudo
      rw [Bool.and_eq_true, bne_iff_ne] at hpseudo
      exact .pseudonode hnode hlevel (Bool.eq_false_iff.2 hover) hpseudo.1 hpseudo.2
    · cases h
  · intro h
    unfold validate
    cases h with
    | unknown h => rw [h]
    | mismatch hnode h => simp [hnode, h]
    | overloaded hnode hlevel h => simp [hnode, hlevel, h]
    | pseudonode hnode hlevel hover hkind h => simp [hnode, hlevel, hover, hkind, h]

theorem not_invalid_of_validate (h : validate t root l kind = .ok node) (e : Error) :
    ¬Invalid t root l kind e := by
  rw [← validate_eq_error_iff, h]
  exact nofun

theorem not_invalid_of_isOk (h : (validate t root l kind).isOk = true) (e : Error) :
    ¬Invalid t root l kind e := by
  rw [← validate_eq_error_iff]
  intro hinvalid
  rw [hinvalid] at h
  cases h

theorem exists_validate (h : ∀ e, ¬Invalid t root l kind e)
    (hnode : t.nodes.get? root = some node) : validate t root l kind = .ok node := by
  cases hvalid : validate t root l kind with
  | error e => exact absurd (validate_eq_error_iff.1 hvalid) (h e)
  | ok node' =>
    obtain rfl := Option.some.inj (hnode.symm.trans (validate_eq_ok hvalid).1)
    rfl

theorem effectiveKind_eq_full_iff {version : UInt32} :
    effectiveKind version kind = .full ↔ kind = .full ∨ kind = .partialRoutes ∧ version = 0 := by
  cases kind with
  | partialRoutes =>
    by_cases h : version = 0 <;> simp [effectiveKind, h]
  | _ => simp [effectiveKind]

theorem nested_iff : Nested w root node l kind ↔
    needsLowerLevel l node (w.record .l1 root).version
      (effectiveKind (w.record l root).version kind) = true := by
  simp only [needsLowerLevel, Bool.and_eq_true, beq_iff_eq, Bool.not_eq_true',
    effectiveKind_eq_full_iff]
  constructor
  · rintro ⟨rfl, hfull, hlower, hversion, hover⟩
    exact ⟨⟨⟨⟨hfull, rfl⟩, hlower⟩, hversion⟩, hover⟩
  · rintro ⟨⟨⟨⟨hfull, rfl⟩, hlower⟩, hversion⟩, hover⟩
    exact ⟨rfl, hfull, hlower, hversion, hover⟩

/-- What a nested run amounts to. -/
theorem Nested.effectiveKind_eq (h : Nested w root node l kind) :
    effectiveKind (w.record l root).version kind = .full := by
  obtain rfl := h.level
  exact effectiveKind_eq_full_iff.2 h.full

/-- At level 1, the root of a nested run can only be refused as a pseudo-node. -/
theorem Nested.invalid_iff (h : Nested w root node l kind)
    (hnode : t.nodes.get? root = some node) :
    Invalid t root .l1 .full e ↔
      node.isPseudonode .l1 = true ∧ e = .rootPseudonode node.name .l1 := by
  constructor
  · intro hinvalid
    cases hinvalid with
    | unknown hnone => cases hnone.symm.trans hnode
    | mismatch hnode' hlevel =>
      cases hnode.symm.trans hnode'
      cases hlevel.symm.trans h.lower
    | overloaded hnode' _ hover =>
      cases hnode.symm.trans hnode'
      cases hover.symm.trans h.notOverloaded
    | pseudonode hnode' _ _ _ hpseudo =>
      cases hnode.symm.trans hnode'
      exact ⟨hpseudo, rfl⟩
  · rintro ⟨hpseudo, rfl⟩
    exact .pseudonode hnode h.lower h.notOverloaded nofun hpseudo

/-- **A run is refused for its causes only, and changes nothing then.** -/
theorem run_eq_error_iff (hw : t.WellFormed) (hempty : w.frontier.isEmpty = true) {f : Failure} :
    run t root l kind w = .error f w' ↔
      w' = w ∧ ∃ e, f = .error e ∧ Refused t w root l kind e := by
  have hran := run_ran hw hempty root l kind
  constructor
  · intro h
    rw [h] at hran
    cases hran with
    | refused e hcause =>
      refine ⟨rfl, e, rfl, ?_⟩
      rcases hcause with hvalid | ⟨node, hvalid, hlower, hvalid'⟩
      · exact .invalid (validate_eq_error_iff.1 hvalid)
      · have hnode := (validate_eq_ok hvalid).1
        have hnested := nested_iff.2 hlower
        obtain ⟨hpseudo, rfl⟩ := (hnested.invalid_iff hnode).1 (validate_eq_error_iff.1 hvalid')
        exact .nested (not_invalid_of_validate hvalid) hnode hnested hpseudo
  · rintro ⟨rfl, e, rfl, h⟩
    cases h with
    | invalid h => exact run_refused (validate_eq_error_iff.2 h)
    | nested valid hnode h hpseudo =>
      have hlower := validate_eq_error_iff.2 ((h.invalid_iff hnode).2 ⟨hpseudo, rfl⟩)
      rw [run_eq (exists_validate valid hnode), if_pos (nested_iff.1 h), hlower]
      rfl

/-! ## Runs that are made -/

/-- What a run that is not refused does, and what it adds to the numbers of runs. -/
structure Answered (t : Topology) (w : Workspace) (root : NodeId) (node : Node) (l : Level)
    (kind : RunKind) (rs : List Result) (w' : Workspace) : Prop where
  /-- It is made after a full run at level 1, as a full run. -/
  nested : Nested w root node l kind → ∃ rs₁ w₁,
    run t root .l1 .full w = .ok rs₁ w₁ ∧ run t root .l2 .full w₁ = .ok rs w'
  /-- It is made alone. -/
  alone : ¬Nested w root node l kind →
    perform t root l (effectiveKind (w.record l root).version kind) w = .ok rs w'
  own : w'.journal.counts.get l = w.journal.counts.get l + 1
  other : ∀ l', l' ≠ l →
    (Nested w root node l kind → w'.journal.counts.get l' = w.journal.counts.get l' + 1) ∧
    (¬Nested w root node l kind → w'.journal.counts.get l' = w.journal.counts.get l')
  lastId : w'.journal.lastId = w.journal.lastId +
    ((w'.journal.counts.l1 - w.journal.counts.l1) +
      (w'.journal.counts.l2 - w.journal.counts.l2)).toUInt32

theorem add_one_sub_self (n : UInt64) : n + 1 - n = 1 := by
  rw [UInt64.add_comm, UInt64.add_sub_cancel]

theorem counts_of_perform (h : perform t root l kind w = .ok rs w') (l' : Level) :
    w'.journal.counts.get l' =
      if l = l' then w.journal.counts.get l' + 1 else w.journal.counts.get l' := by
  rw [(perform_journal h).1]
  simp only [Journal.record, PerLevel.modify, PerLevel.get_set]
  split
  · rename_i e
    rw [e]
  · rfl

theorem lastId_of_perform (h : perform t root l kind w = .ok rs w') :
    w'.journal.lastId = w.journal.lastId + 1 := by
  rw [(perform_journal h).1]
  rfl

/-- A run that is made alone. -/
theorem run_eq_perform (hvalid : validate t root l kind = .ok node)
    (h : ¬Nested w root node l kind) :
    run t root l kind w =
      perform t root l (effectiveKind (w.record l root).version kind) w := by
  rw [run_eq hvalid, if_neg fun hlower => h (nested_iff.2 hlower)]

/-- A run that is made after one at level 1. -/
theorem exists_perform_lower (hvalid : validate t root l kind = .ok node)
    (h : Nested w root node l kind) (hrun : run t root l kind w = .ok rs w') :
    ∃ node' rs₁ w₁, validate t root .l1 .full = .ok node' ∧
      perform t root .l1 .full w = .ok rs₁ w₁ ∧ perform t root .l2 .full w₁ = .ok rs w' := by
  have hfull := h.effectiveKind_eq
  obtain rfl := h.level
  rw [run_eq hvalid, if_pos (nested_iff.1 h), hfull] at hrun
  obtain ⟨node', _, hcheck, hrun⟩ := bind_eq_ok.1 hrun
  obtain ⟨hvalid', rfl⟩ := check_eq_ok.1 hcheck
  obtain ⟨rs₁, w₁, hlower, hrun⟩ := bind_eq_ok.1 hrun
  exact ⟨node', rs₁, w₁, hvalid', hlower, hrun⟩

/-- Once the root has made a full run at level 1, a full run at level 2 is made alone. -/
theorem run_after_lower (hw : t.WellFormed) (hempty : w.frontier.isEmpty = true)
    (hvalid : validate t root l kind = .ok node) (h : Nested w root node l kind)
    {rs₁ : List Result} {w₁ : Workspace} (hlower : perform t root .l1 .full w = .ok rs₁ w₁) :
    run t root .l2 .full w₁ = perform t root .l2 .full w₁ := by
  have hversion : (w₁.record .l1 root).version ≠ 0 := by
    obtain ⟨_, hlower', hperformed⟩ :=
      perform_performed hw (contains_of_validate hvalid) hempty .l1 .full
    cases hlower.symm.trans hlower'
    rw [hperformed.record, if_pos ⟨rfl, rfl⟩]
    show (w.record .l1 root).version + 1 ≠ 0
    rw [h.version]
    decide
  have hupper : validate t root .l2 .full = .ok node := by
    obtain rfl := h.level
    rw [← h.effectiveKind_eq, validate_effectiveKind]
    exact hvalid
  exact run_eq_perform hupper fun h => hversion h.version

theorem answered_nested (hw : t.WellFormed) (hempty : w.frontier.isEmpty = true)
    (hvalid : validate t root l kind = .ok node) (h : Nested w root node l kind)
    (hrun : run t root l kind w = .ok rs w') : Answered t w root node l kind rs w' := by
  obtain ⟨node', rs₁, w₁, hvalid', hlower, hupper⟩ := exists_perform_lower hvalid h hrun
  have hafter := (run_after_lower hw hempty hvalid h hlower).trans hupper
  obtain rfl := h.level
  have hl1 : w'.journal.counts.l1 = w.journal.counts.l1 + 1 :=
    (counts_of_perform hupper .l1).trans (counts_of_perform hlower .l1)
  have hl2 : w'.journal.counts.l2 = w.journal.counts.l2 + 1 :=
    (counts_of_perform hupper .l2).trans
      (congrArg (· + 1) (counts_of_perform hlower .l2))
  have hlast := (lastId_of_perform hupper).trans (congrArg (· + 1) (lastId_of_perform hlower))
  refine ⟨fun _ => ⟨rs₁, w₁, ?_, hafter⟩, fun halone => absurd h halone, hl2, fun l' hl' => ?_,
    ?_⟩
  · rw [run_eq_perform hvalid' fun h => nomatch h.level]
    exact hlower
  · cases l' with
    | l1 => exact ⟨fun _ => hl1, fun halone => absurd h halone⟩
    | l2 => exact absurd rfl hl'
  · rw [hlast, hl1, hl2, add_one_sub_self, add_one_sub_self, UInt32.add_assoc]
    rfl

theorem answered_alone (hvalid : validate t root l kind = .ok node)
    (h : ¬Nested w root node l kind) (hrun : run t root l kind w = .ok rs w') :
    Answered t w root node l kind rs w' := by
  rw [run_eq_perform hvalid h] at hrun
  have hcounts := counts_of_perform hrun
  have hlast := lastId_of_perform hrun
  refine ⟨fun hnested => absurd hnested h, fun _ => hrun, ?_, fun l' hl' => ?_, ?_⟩
  · rw [hcounts, if_pos rfl]
  · refine ⟨fun hnested => absurd hnested h, fun _ => ?_⟩
    rw [hcounts, if_neg (Ne.symm hl')]
  · have hl1 := hcounts .l1
    have hl2 := hcounts .l2
    simp only [PerLevel.get] at hl1 hl2
    cases l with
    | l1 =>
      rw [hlast, hl1, hl2, if_pos rfl, if_neg nofun, add_one_sub_self, UInt64.sub_self]
      rfl
    | l2 =>
      rw [hlast, hl1, hl2, if_neg nofun, if_pos rfl, add_one_sub_self, UInt64.sub_self]
      rfl

/-- **What an answered run has done.** -/
theorem answered_of_run (hw : t.WellFormed) (hempty : w.frontier.isEmpty = true)
    (hrun : run t root l kind w = .ok rs w') :
    ∃ node, t.nodes.get? root = some node ∧ Answered t w root node l kind rs w' := by
  obtain ⟨node, hvalid⟩ := run_validate hrun
  refine ⟨node, (validate_eq_ok hvalid).1, ?_⟩
  by_cases h : Nested w root node l kind
  · exact answered_nested hw hempty hvalid h hrun
  · exact answered_alone hvalid h hrun

end Run

namespace Session

open Compute

/-- **A run is refused exactly when it should be, and nothing has changed then.** In a session with
any history, the request for a run fails with an error that names its cause, for a cause of
`Run.Refused` and no other, and the session is the same as before: the topology, what searches
found, the routing tables, the journal, the frontier and the trace. Whenever the request is
answered, the run is counted once at its level; at the other level one more run is counted if and
only if a full run at level 1 had to come first, and the last number grows by both. -/
theorem run_outcome (history : List Request) (root : NodeId) (l : Level) (kind : RunKind) :
    (∀ f s', (after {} history).serve (.compute (.run root l kind)) = (.error f, s') ↔
      s' = after {} history ∧ ∃ e, f = .error e ∧
        Run.Refused (after {} history).topology (after {} history).workspace root l kind e) ∧
    ∀ a s', (after {} history).serve (.compute (.run root l kind)) = (.ok a, s') →
      s'.topology = (after {} history).topology ∧ ∃ rs node, a = .results rs ∧
        (after {} history).topology.nodes.get? root = some node ∧
        Run.Answered (after {} history).topology (after {} history).workspace root node l kind rs
          s'.workspace := by
  have hs := sound_after history
  generalize after {} history = s at hs
  refine ⟨fun f s' => ?_, fun a s' hserved => ?_⟩
  · have hon : (Computation.run root l kind).on s.topology s.workspace = .error f s'.workspace ↔
        Run.run s.topology root l kind s.workspace = .error f s'.workspace := map_eq_error
    rw [serve_eq_error, hon, Run.run_eq_error_iff hs.wellFormed hs.frontier, ← and_assoc]
    refine and_congr_left fun _ => ⟨fun ⟨htopology, hworkspace⟩ => ?_, ?_⟩
    · cases s
      cases s'
      cases htopology
      cases hworkspace
      rfl
    · rintro rfl
      exact ⟨rfl, rfl⟩
  · obtain ⟨htopology, hon⟩ := serve_eq_ok.1 hserved
    obtain ⟨rs, hrun, rfl⟩ := map_eq_ok.1 hon
    obtain ⟨node, hnode, hanswered⟩ := Run.answered_of_run hs.wellFormed hs.frontier hrun
    exact ⟨htopology, rs, node, rfl, hnode, hanswered⟩

/-- The ring of five routers, of which the second is a pseudo-node at level 1. -/
def mixedRing : List Request :=
  (Run.pentagon ++ [Change.setKind ⟨1, 0⟩ .l1 .pseudonode]).map .change

theorem refused_mixedRing : Run.Refused (after {} mixedRing).topology
    (after {} mixedRing).workspace ⟨1, 0⟩ .l2 .partialRoutes (.rootPseudonode "b" .l1) := by
  have hmixed : ((after {} mixedRing).topology.nodes.get? ⟨1, 0⟩).any (fun node =>
      node.name == "b" && node.levelType.includes .l1 && !node.isOverloaded .l1 &&
        node.isPseudonode .l1) = true := by
    decide +kernel
  obtain ⟨node, hnode, hmixed⟩ := (Option.any_eq_true _ _).1 hmixed
  simp only [Bool.and_eq_true, beq_iff_eq, Bool.not_eq_true'] at hmixed
  obtain ⟨⟨⟨hname, hlower⟩, hover⟩, hpseudo⟩ := hmixed
  have hnested : Run.Nested (after {} mixedRing).workspace ⟨1, 0⟩ node .l2 .partialRoutes :=
    ⟨rfl, .inr ⟨rfl, by decide +kernel⟩, hlower, by decide +kernel, hover⟩
  have hvalid : ∀ e, ¬Run.Invalid (after {} mixedRing).topology ⟨1, 0⟩ .l2 .partialRoutes e :=
    Run.not_invalid_of_isOk (by decide +kernel)
  exact hname ▸ .nested hvalid hnode hnested hpseudo

/-- At level 2, a partial run is refused because of level 1, and another one is made as a full run
after one at level 1. -/
theorem run_outcome_mixedRing :
    ((after {} mixedRing).serve (.compute (.run ⟨1, 0⟩ .l2 .partialRoutes)) =
      (.error (.error (.rootPseudonode "b" .l1)), after {} mixedRing)) ∧
    ∃ rs s', (after {} mixedRing).serve (.compute (.run ⟨0, 0⟩ .l2 .partialRoutes)) =
        (.ok (.results rs), s') ∧
      s'.workspace.journal.counts = ⟨1, 1⟩ ∧ s'.workspace.journal.lastId = 2 := by
  have hplain : ((after {} mixedRing).topology.nodes.get? ⟨0, 0⟩).all (fun node =>
      node.levelType.includes .l1 && !node.isOverloaded .l1) = true := by
    decide +kernel
  obtain ⟨a, s', hserved, -⟩ := exists_served (s := after {} mixedRing)
    (c := .run ⟨0, 0⟩ .l2 .partialRoutes) (p := fun _ => true) (q := fun _ => true)
    (by decide +kernel) rfl
  obtain ⟨-, rs, node, rfl, hnode, hanswered⟩ :=
    (run_outcome mixedRing ⟨0, 0⟩ .l2 .partialRoutes).2 a s' hserved
  rw [hnode, Option.all_some, Bool.and_eq_true, Bool.not_eq_true'] at hplain
  have hnested : Run.Nested (after {} mixedRing).workspace ⟨0, 0⟩ node .l2 .partialRoutes :=
    ⟨rfl, .inr ⟨rfl, by decide +kernel⟩, hplain.1, by decide +kernel, hplain.2⟩
  have hl2 := hanswered.own
  have hl1 := (hanswered.other .l1 nofun).1 hnested
  have hlast := hanswered.lastId
  have hstart : (after {} mixedRing).workspace.journal = {} := by
    decide +kernel
  rw [hstart] at hl1 hl2 hlast
  have hcounts : s'.workspace.journal.counts = ⟨1, 1⟩ :=
    PerLevel.ext_get fun | .l1 => hl1 | .l2 => hl2
  refine ⟨((run_outcome mixedRing ⟨1, 0⟩ .l2 .partialRoutes).1 _ _).2
    ⟨rfl, _, rfl, refused_mixedRing⟩, rs, s', hserved, hcounts, ?_⟩
  rw [hlast, hcounts]
  rfl

end Session

end LinkState
