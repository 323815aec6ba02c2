import LinkState.Proofs.Compute
import LinkState.Proofs.ShortestPath.Exactness
import LinkState.Proofs.ShortestPath.Gathered
import LinkState.ShortestPath.Run
import Mathlib.Order.Bounds.Basic

/-!
# What a run leaves behind

A run that searches leaves exact results for its root and does not touch those of the others
(`Searched`, `run_searched`); it answers with the destinations of the root. The history of the
workspace is of no account: no labels of an earlier search and no results of an earlier run get into
a later one.

`shortestPaths_of_run` says the same in terms of walks, for every topology that can be built.
-/

namespace LinkState.Run

open LinkState.Topology Compute

variable {t : Topology} {root : NodeId} {l : Level} {kind : RunKind} {w w' : Workspace}

theorem validate_eq_ok {node : Node} (h : validate t root l kind = .ok node) :
    t.nodes.get? root = some node ∧ node.levelType.includes l = true ∧
      node.isOverloaded l = false ∧ (kind = .forward ∨ node.isPseudonode l = false) := by
  unfold validate at h
  split at h
  · cases h
  rename_i node' hnode
  split at h
  · cases h
  split at h
  · cases h
  split at h
  · cases h
  cases h
  rename_i hlevel hover hpseudo
  refine ⟨hnode, by simpa using hlevel, Bool.eq_false_iff.2 hover, ?_⟩
  rw [Bool.and_eq_true, bne_iff_ne, not_and_or, not_not, Bool.not_eq_true] at hpseudo
  exact hpseudo

/-- What a search from a root does to the results at its level. -/
structure Searched (t : Topology) (l : Level) (root : NodeId) (w w' : Workspace) : Prop where
  exact : (w'.findings.get l).Exact t l root
  others : ∀ x, x ≠ root → (w.findings.get l).SameResults (w'.findings.get l) x
  gathered : Search.Gathered t l root ((w'.findings.get l).roots.read root).settled

theorem Searched.congr {v v' : Workspace} (h : Searched t l root w w')
    (hv : ∀ x, x ≠ root → (v.findings.get l).SameResults (w.findings.get l) x)
    (hv' : ∀ x, (w'.findings.get l).SameResults (v'.findings.get l) x) :
    Searched t l root v v' :=
  ⟨h.exact.congr (hv' root), fun x hx => ((hv x hx).trans (h.others x hx)).trans (hv' x),
    (hv' root).1 ▸ h.gathered⟩

/-- Changing what is known at one level leaves what is known at the other alone. -/
theorem get_modify_of_ne {p : PerLevel Findings} {l l' : Level} (f : Findings → Findings)
    (h : l' ≠ l) : (p.modify l f).get l' = p.get l' := by
  rw [PerLevel.modify, PerLevel.get_set, if_neg h.symm]

theorem get_modify_self {p : PerLevel Findings} {l : Level} (f : Findings → Findings) :
    (p.modify l f).get l = f (p.get l) := by
  rw [PerLevel.modify, PerLevel.get_set_self]

theorem search_searched (hw : t.WellFormed) (hroot : t.nodes.contains root = true)
    (h : search t root l w = .ok () w') :
    Searched t l root w w' ∧ ∀ l', l' ≠ l → w'.findings.get l' = w.findings.get l' := by
  unfold search at h
  obtain ⟨w₁, w₂, hget, h⟩ := bind_eq_ok.1 h
  cases hget
  cases hempty : w.frontier.isEmpty with
  | false =>
    rw [Search.run, hempty] at h
    cases h
  | true =>
    obtain ⟨s, hs, hcomplete⟩ :=
      Search.run_complete (l := l) hw hroot (w.findings.get l).labels hempty
    rw [hs] at h
    cases h
    refine ⟨⟨?_, fun x hx => ?_, ?_⟩, fun l' hl' => get_modify_of_ne _ hl'⟩
    · dsimp only
      rw [get_modify_self]
      exact Findings.exact_store hcomplete
    · dsimp only
      rw [get_modify_self]
      exact Findings.sameResults_store hx
    · dsimp only
      rw [get_modify_self, Findings.store, HandleMap.read_update, if_pos rfl]
      exact Search.run_gathered hw hs

theorem rebuildTable_same (h : rebuildTable t root l w = .ok () w') :
    (∀ x, (w.findings.get l).SameResults (w'.findings.get l) x) ∧
      ∀ l', l' ≠ l → w'.findings.get l' = w.findings.get l' := by
  unfold rebuildTable at h
  obtain ⟨_, w₁, h₁, h⟩ := bind_eq_ok.1 h
  obtain ⟨f, w₂, h₂, h₃⟩ := bind_eq_ok.1 h
  obtain ⟨-, rfl⟩ := findings_eq_ok.1 h₂
  rw [findings_of_emit h₃, ← modifyFindings_eq_ok.1 h₁]
  refine ⟨fun x => ?_, fun l' hl' => get_modify_of_ne _ hl'⟩
  dsimp only
  rw [get_modify_self]
  exact Findings.sameResults_rebuildTable x

theorem work_searched (hw : t.WellFormed) (hroot : t.nodes.contains root = true)
    (hkind : kind ≠ .partialRoutes) (h : work t root l kind w = .ok () w') :
    Searched t l root w w' ∧ ∀ l', l' ≠ l → w'.findings.get l' = w.findings.get l' := by
  cases kind with
  | partialRoutes => exact absurd rfl hkind
  | forward => exact search_searched hw hroot h
  | full =>
    unfold work at h
    obtain ⟨_, w₁, h₁, h⟩ := bind_eq_ok.1 h
    obtain ⟨_, w₂, h₂, h₃⟩ := bind_eq_ok.1 h
    obtain ⟨hs, hl₁⟩ := search_searched hw hroot h₁
    obtain ⟨hsame, hl₃⟩ := rebuildTable_same h₃
    rw [modifyFindings_eq_ok] at h₂
    subst h₂
    dsimp only at hsame hl₃
    refine ⟨hs.congr (fun x _ => .refl _ x) fun x => ?_, fun l' hl' => ?_⟩
    · refine .trans ?_ (hsame x)
      rw [get_modify_self]
      exact Findings.sameResults_bumpVersion x
    · rw [hl₃ l' hl', get_modify_of_ne _ hl', hl₁ l' hl']

theorem perform_searched (hw : t.WellFormed) (hroot : t.nodes.contains root = true)
    (hkind : kind ≠ .partialRoutes) {rs : List Result} (h : perform t root l kind w = .ok rs w') :
    Searched t l root w w' ∧ rs = (w'.findings.get l).destinations root ∧
      ∀ l', l' ≠ l → w'.findings.get l' = w.findings.get l' := by
  unfold perform at h
  obtain ⟨_, w₁, h₁, h⟩ := bind_eq_ok.1 h
  obtain ⟨_, w₂, h₂, h⟩ := bind_eq_ok.1 h
  obtain ⟨f, w₃, h₃, h⟩ := bind_eq_ok.1 h
  obtain ⟨_, w₄, h₄, h⟩ := bind_eq_ok.1 h
  obtain ⟨_, w₅, h₅, h⟩ := bind_eq_ok.1 h
  obtain ⟨rfl, rfl⟩ := pure_eq_ok.1 h
  cases h₅
  have hf₁ := findings_of_emit h₁
  have hf₄ := findings_of_emit h₄
  obtain ⟨rfl, rfl⟩ := findings_eq_ok.1 h₃
  obtain ⟨hs, hl⟩ := work_searched hw hroot hkind h₂
  rw [hf₁] at hl
  dsimp only
  rw [hf₄]
  refine ⟨hs.congr (fun x _ => hf₁ ▸ .refl _ x) fun x => hf₄ ▸ .refl _ x, rfl, hl⟩

theorem run_validate {rs : List Result} (h : run t root l kind w = .ok rs w') :
    ∃ node, validate t root l kind = .ok node := by
  unfold run at h
  obtain ⟨node, w₁, h₁, -⟩ := bind_eq_ok.1 h
  exact ⟨node, (check_eq_ok.1 h₁).1⟩

/-- **A run that searches leaves exact results** for its root and does not touch the others, and its
answer is the destinations of the root. -/
theorem run_searched (hw : t.WellFormed) (hkind : kind ≠ .partialRoutes) {rs : List Result}
    (h : run t root l kind w = .ok rs w') :
    Searched t l root w w' ∧ rs = (w'.findings.get l).destinations root := by
  obtain ⟨node, hvalid⟩ := run_validate h
  have hroot : t.nodes.contains root = true := by
    rw [Table.contains, (validate_eq_ok hvalid).1]
    rfl
  unfold run at h
  obtain ⟨node, w₁, h₁, h⟩ := bind_eq_ok.1 h
  obtain ⟨-, rfl⟩ := check_eq_ok.1 h₁
  have heffective : ∀ v, effectiveKind v kind = kind := by
    intro v
    cases kind with
    | partialRoutes => exact absurd rfl hkind
    | _ => rfl
  obtain ⟨f, w₂, h₂, h⟩ := bind_eq_ok.1 h
  obtain ⟨rfl, rfl⟩ := findings_eq_ok.1 h₂
  obtain ⟨f, w₃, h₃, h⟩ := bind_eq_ok.1 h
  obtain ⟨rfl, rfl⟩ := findings_eq_ok.1 h₃
  dsimp only at h
  rw [heffective] at h
  split at h
  · rename_i hlower
    obtain ⟨_, w₄, h₄, h⟩ := bind_eq_ok.1 h
    obtain ⟨_, rfl⟩ := check_eq_ok.1 h₄
    obtain ⟨_, w₅, h₅, h⟩ := bind_eq_ok.1 h
    have hl : l ≠ .l1 := by
      rintro rfl
      simp [needsLowerLevel] at hlower
    obtain ⟨-, -, hsame⟩ := perform_searched hw hroot (by decide) h₅
    obtain ⟨hs, hrs, -⟩ := perform_searched hw hroot hkind h
    exact ⟨hs.congr (fun x _ => hsame l hl ▸ .refl _ x) fun x => .refl _ x, hrs⟩
  · obtain ⟨hs, hrs, -⟩ := perform_searched hw hroot hkind h
    exact ⟨hs, hrs⟩

/-- What a run answers or stores for a node was settled by the search from the root. -/
theorem settled_of_run (history : List Change) (hkind : kind = .full ∨ kind = .forward)
    {rs : List Result} (h : run (after {} history) root l kind w = .ok rs w') {r : Result}
    (hr : r ∈ rs ∨ (w'.findings.get l).result? root r.node = some r) :
    Searched (after {} history) l root w w' ∧
      r ∈ ((w'.findings.get l).roots.read root).settled := by
  have hsearch : kind ≠ .partialRoutes := by
    rcases hkind with rfl | rfl <;> decide
  obtain ⟨hs, rfl⟩ := run_searched (wellFormed_after history) hsearch h
  refine ⟨hs, ?_⟩
  rcases hr with hr | hr
  · exact (hs.exact.mem_destinations.1 hr).1
  · exact (hs.exact.result?_eq_some_iff.1 hr).1

/-! ## Shortest paths -/

/-- The results stored for a root, and the list of its destinations, are those of the walks that
cost least. -/
structure ShortestPaths (t : Topology) (l : Level) (root : NodeId) (f : Findings)
    (rs : List Result) : Prop where
  found : ∀ v, (f.result? root v).isSome = true ↔
    v = root ∨ ∃ as, Walk t l root as v ∧ cost l as < Metric.infinite.toNat
  least : ∀ v r, f.result? root v = some r →
    r.node = v ∧ IsLeast {c | ∃ as, Walk t l root as v ∧ cost l as = c} r.metric.toNat
  root_zero : ∃ r, f.result? root root = some r ∧ r.metric = 0
  stored : f.destinations root = rs
  listed : ∀ r, r ∈ rs ↔ f.result? root r.node = some r ∧ t.isPseudonode r.node l = false
  once : (rs.map (·.node)).Nodup
  sorted : rs.Pairwise fun r r' => r.metric ≤ r'.metric

/-- **A full or a forward run finds the shortest paths**, in every topology that can be built and
whatever earlier computations have left in the workspace. -/
theorem shortestPaths_of_run (history : List Change) (l : Level) (root : NodeId) {kind : RunKind}
    (hkind : kind = .full ∨ kind = .forward) {w w' : Workspace} {rs : List Result}
    (h : run (after {} history) root l kind w = .ok rs w') :
    ShortestPaths (after {} history) l root (w'.findings.get l) rs := by
  have hsearch : kind ≠ .partialRoutes := by
    rcases hkind with rfl | rfl <;> decide
  obtain ⟨⟨hexact, -⟩, rfl⟩ := run_searched (wellFormed_after history) hsearch h
  have hlisted := fun r => hexact.mem_destinations (r := r)
  exact {
    found := by
      intro v
      have hroot : v = root → (after {} history).leastMetric l root v ≠ .infinite := by
        rintro rfl
        rw [leastMetric_self]
        exact Metric.zero_ne_infinite
      rw [hexact.isSome_result?_iff, leastMetric_ne_infinite_iff]
      constructor
      · exact .inr
      · rintro (rfl | hwalk)
        · exact leastMetric_ne_infinite_iff.1 (hroot rfl)
        · exact hwalk
    least := by
      intro v r hr
      obtain ⟨hmem, rfl⟩ := hexact.result?_eq_some_iff.1 hr
      have hmetric := hexact.metric_eq r hmem
      have hfin := hexact.ne_infinite hmem
      rw [hmetric] at hfin
      refine ⟨rfl, ?_, ?_⟩
      · rw [hmetric]
        exact exists_walk hfin
      · rintro c ⟨as, hwalk, rfl⟩
        rw [hmetric]
        exact leastMetric_le hwalk
    root_zero := hexact.result?_root
    stored := rfl
    listed := by
      intro r
      rw [hlisted, hexact.result?_eq_some_iff, and_iff_left rfl]
    once := by
      rw [hexact.destinations_eq]
      exact hexact.nodup.sublist (List.filter_sublist.map _)
    sorted := by
      rw [hexact.destinations_eq]
      exact hexact.sorted.sublist List.filter_sublist }

/-- Five routers in a ring of links of cost one, the first link protected. -/
def pentagon : List Change :=
  (["a", "b", "c", "d", "e"].map fun name => .addRouter name 0 .all) ++
    [(0, 1), (1, 2), (2, 3), (3, 4), (4, 0)].map (fun (i, j) =>
      .addLink ⟨⟨i, 0⟩, s!"to{j}", none⟩ ⟨⟨j, 0⟩, s!"to{i}", none⟩ (.saturate 1) .all) ++
    [.setProtection ⟨0, 0⟩ .linkAndNode]

theorem shortestPaths_of_run_pentagon : ∃ rs w',
    run (after {} pentagon) ⟨0, 0⟩ .l1 .full {} = .ok rs w' ∧
      ShortestPaths (after {} pentagon) .l1 ⟨0, 0⟩ (w'.findings.get .l1) rs ∧
      rs.map (fun r => (r.node.position, r.metric.toNat)) =
        [(0, 0), (1, 1), (4, 1), (2, 2), (3, 2)] := by
  obtain ⟨rs, w', h, hrs⟩ := exists_of_yields (c := run (after {} pentagon) ⟨0, 0⟩ .l1 .full)
    (w := {}) (p := fun rs => rs.map (fun r => (r.node.position, r.metric.toNat)) ==
      [(0, 0), (1, 1), (4, 1), (2, 2), (3, 2)]) (by decide +kernel)
  exact ⟨rs, w', h, shortestPaths_of_run pentagon .l1 ⟨0, 0⟩ (.inl rfl) h, by simpa using hrs⟩

end LinkState.Run
