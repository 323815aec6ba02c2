import LinkState.Proofs.ShortestPath.Runs
import LinkState.Proofs.Topology.Inversion
import LinkState.Repair.Space

/-!
# The Q-space is exact

Distances toward a node are found by a search from that node on the inverted topology. The map that
such a search leaves holds the least metrics of the inverted topology (`distancesToward_eq_ok`), and
by `leastMetric_invert` these are the least metrics toward the node on the topology itself, as long
as all active edges come in pairs and both ends may forward.

* `contains_farMembers`: the members of the Q-space are read off two such maps.
* `mem_farSpace_iff`: they are the routers which reach the far end of the protected edge, and none
  of whose least walks there comes by the root.
-/

namespace LinkState.Repair

open LinkState.Topology Compute

variable {t : Topology} {l : Level} {root : NodeId} {e : EdgeId} {edge : Edge} {w w' : Workspace}

/-! ## Maps of distances -/

/-- A map made of results of distinct nodes holds the metric of each. -/
theorem getElem?_foldl_insert {rs : List Result} (hnodup : (rs.map (·.node)).Nodup)
    (toward : Std.TreeMap NodeId Metric) (n : NodeId) (m : Metric) :
    (rs.foldl (fun toward r => toward.insert r.node r.metric) toward)[n]? = some m ↔
      (∃ r ∈ rs, r.node = n ∧ r.metric = m) ∨ n ∉ rs.map (·.node) ∧ toward[n]? = some m := by
  induction rs generalizing toward with
  | nil => simp
  | cons r rs ih =>
    rw [List.map_cons, List.nodup_cons] at hnodup
    rw [List.foldl_cons, ih hnodup.2, Std.TreeMap.getElem?_insert]
    simp only [Std.LawfulEqOrd.compare_eq_iff_eq, List.mem_cons, List.map_cons, exists_eq_or_imp]
    by_cases e : r.node = n
    · subst e
      -- no later result replaces the one inserted
      have hnot : ¬∃ r' ∈ rs, r'.node = r.node ∧ r'.metric = m := fun ⟨r', hr', hn, _⟩ =>
        hnodup.1 (List.mem_map.2 ⟨r', hr', hn⟩)
      simp [hnot, hnodup.1]
    · simp [e, Ne.symm e]

/-- The map that a search from a node leaves holds the least metrics of the routers it reaches. -/
theorem distancesToward_eq_ok (hw : t.WellFormed) {n : NodeId}
    {toward : Std.TreeMap NodeId Metric} (h : distancesToward l t n w = .ok toward w') :
    t.isOverloaded n l = false ∧ ∀ y m, toward[y]? = some m ↔
      t.isPseudonode y l = false ∧ m ≠ .infinite ∧ t.leastMetric l n y = m := by
  unfold distancesToward at h
  obtain ⟨rs, w₁, h₁, h⟩ := bind_eq_ok.1 h
  obtain ⟨rfl, rfl⟩ := pure_eq_ok.1 h
  obtain ⟨node, hvalid⟩ := Run.run_validate h₁
  obtain ⟨hnode, -, hover, -⟩ := Run.validate_eq_ok hvalid
  obtain ⟨hsearched, rfl⟩ := Run.run_searched hw (by decide) h₁
  have hexact := hsearched.exact
  refine ⟨?_, fun y m => ?_⟩
  · rw [Topology.isOverloaded, hnode]
    exact hover
  rw [getElem?_foldl_insert hexact.nodup_destinations]
  have hempty : (∅ : Std.TreeMap NodeId Metric)[y]? ≠ some m := by simp
  rw [or_iff_left fun h => hempty h.2]
  constructor
  · rintro ⟨r, hr, rfl, rfl⟩
    obtain ⟨hmem, hrouter⟩ := hexact.mem_destinations.1 hr
    exact ⟨hrouter, hexact.ne_infinite hmem, (hexact.metric_eq r hmem).symm⟩
  · rintro ⟨hrouter, hfin, rfl⟩
    obtain ⟨r, hr, rfl⟩ := List.mem_map.1 ((hexact.mem_iff y).2 hfin)
    exact ⟨r, hexact.mem_destinations.2 ⟨hr, hrouter⟩, rfl, hexact.metric_eq r hr⟩

/-- An absent entry stands for a router that is not reached. -/
theorem distancesToward_getD {n : NodeId} {toward : Std.TreeMap NodeId Metric}
    (h : ∀ y m, toward[y]? = some m ↔
      t.isPseudonode y l = false ∧ m ≠ .infinite ∧ t.leastMetric l n y = m) {y : NodeId}
    (hy : t.isPseudonode y l = false) : toward.getD y .infinite = t.leastMetric l n y := by
  rw [Std.TreeMap.getD_eq_getD_getElem?]
  cases hentry : toward[y]? with
  | some m => exact ((h y m).1 hentry).2.2.symm
  | none =>
    by_contra hne
    have := (h y _).2 ⟨hy, Ne.symm hne, rfl⟩
    rw [hentry] at this
    cases this

/-! ## Members -/

theorem contains_foldl_insert {α : Type} {p : α → Bool} {k : α → NodeId} (xs : List α)
    (set : NodeSet) (n : NodeId) :
    (xs.foldl (fun set x => if p x then set.insert (k x) else set) set).contains n = true ↔
      set.contains n = true ∨ ∃ x ∈ xs, p x = true ∧ k x = n := by
  induction xs generalizing set with
  | nil => simp
  | cons x xs ih =>
    rw [List.foldl_cons, ih]
    by_cases hp : p x = true
    · simp only [hp, if_true, Std.TreeSet.contains_insert, Bool.or_eq_true, beq_iff_eq,
        Std.LawfulEqOrd.compare_eq_iff_eq, List.mem_cons, exists_eq_or_imp, true_and]
      tauto
    · simp [hp]

/-- A member is not overloaded, and its distance toward the far end is less than that of the way
through the root. -/
theorem contains_farMembers {towardFar towardRoot : Std.TreeMap NodeId Metric} {y : NodeId} :
    (farMembers t l root towardFar towardRoot).contains y = true ↔
      ∃ m, towardFar[y]? = some m ∧ t.isOverloaded y l = false ∧
        m < towardRoot.getD y .infinite + towardFar.getD root .infinite := by
  unfold farMembers
  rw [Std.TreeMap.foldl_eq_foldl_toList, contains_foldl_insert (k := Prod.fst)
    (p := fun x => !t.isOverloaded x.1 l &&
      decide (x.2 < towardRoot.getD x.1 .infinite + towardFar.getD root .infinite))]
  simp only [Bool.and_eq_true, Bool.not_eq_true', decide_eq_true_iff]
  constructor
  · rintro (h | ⟨⟨n, m⟩, hmem, hm, rfl⟩)
    · simp at h
    · exact ⟨m, Std.TreeMap.mem_toList_iff_getElem?_eq_some.1 hmem, hm⟩
  · rintro ⟨m, hmem, hm⟩
    exact .inr ⟨(y, m), Std.TreeMap.mem_toList_iff_getElem?_eq_some.2 hmem, hm, rfl⟩

/-- The Q-space of a far end that may forward comes from two searches on the inverted topology. -/
theorem farSpace_eq_ok (hedge : t.edges.get? e = some edge)
    (hfar : t.isOverloaded edge.target.node l = false) {members : NodeSet}
    (h : farSpace t l root e w = .ok members w') :
    ∃ towardFar towardRoot w₁ w₂ w₃,
      distancesToward l (t.invert l) edge.target.node w₁ = .ok towardFar w₂ ∧
        distancesToward l (t.invert l) root w₂ = .ok towardRoot w₃ ∧
          members = farMembers t l root towardFar towardRoot := by
  unfold farSpace at h
  obtain ⟨edge', w₁, h₁, h⟩ := bind_eq_ok.1 h
  obtain ⟨hedge', rfl⟩ := row_eq_ok.1 h₁
  rw [hedge] at hedge'
  cases hedge'
  dsimp only at h
  rw [hfar, if_neg Bool.false_ne_true] at h
  obtain ⟨_, w₂, -, h⟩ := bind_eq_ok.1 h
  obtain ⟨toward, w₃, htoward, h⟩ := bind_eq_ok.1 h
  obtain ⟨_, w₄, -, h⟩ := bind_eq_ok.1 h
  obtain ⟨rootAnew, w₅, -, h⟩ := bind_eq_ok.1 h
  obtain ⟨farAnew, w₆, -, h⟩ := bind_eq_ok.1 h
  obtain ⟨⟨towardFar, towardRoot⟩, w₇, h₇, h⟩ := bind_eq_ok.1 h
  obtain ⟨rfl, rfl⟩ := check_eq_ok.1 h₇
  obtain ⟨_, w₈, -, h⟩ := bind_eq_ok.1 h
  obtain ⟨_, w₉, -, h⟩ := bind_eq_ok.1 h
  obtain ⟨rfl, -⟩ := pure_eq_ok.1 h
  obtain ⟨both, hboth, h⟩ | ⟨_, habsurd, -⟩ := attempt_eq_ok.1 htoward
  · cases hboth
    obtain ⟨_, w₁₀, hFar, h⟩ := bind_eq_ok.1 h
    obtain ⟨_, w₁₁, hRoot, h⟩ := bind_eq_ok.1 h
    obtain ⟨hboth, -⟩ := pure_eq_ok.1 h
    cases hboth
    exact ⟨towardFar, towardRoot, _, _, _, hFar, hRoot, rfl⟩
  · cases habsurd

/-- **The Q-space is exact.** In every topology that can be built in which all active edges of the
level come in pairs, traffic may take every active edge whose owner is not overloaded, and the
Q-space for an edge from a router holds exactly the routers that are not overloaded, reach the far
end, and are closer to it than by the way through the root; or, which is the same, none of whose
least walks to the far end comes by the root. -/
theorem mem_farSpace_iff (history : List Change) (l : Level) (root : NodeId) (e : EdgeId)
    {edge : Edge} (hedge : (after {} history).edges.get? e = some edge)
    (hduplex : Duplex (after {} history) l)
    (hroot : (after {} history).isPseudonode root l = false)
    (hfar : (after {} history).isOverloaded edge.target.node l = false)
    {w w' : Workspace} {members : NodeSet}
    (h : farSpace (after {} history) l root e w = .ok members w') :
    (∀ a : Arc, Usable (after {} history) l a ↔
      (after {} history).edges.get? a.id = some a.edge ∧ a.edge.isActive l = true ∧
        (after {} history).isOverloaded a.edge.source.node l = false) ∧
    (∀ y, members.contains y = true ↔
      (after {} history).isPseudonode y l = false ∧ (after {} history).isOverloaded y l = false ∧
        (after {} history).leastMetric l y edge.target.node ≠ .infinite ∧
        (after {} history).leastMetric l y edge.target.node <
          (after {} history).leastMetric l y root +
            (after {} history).leastMetric l root edge.target.node) ∧
    ∀ y, members.contains y = true ↔
      (after {} history).isPseudonode y l = false ∧ (after {} history).isOverloaded y l = false ∧
        (after {} history).leastMetric l y edge.target.node ≠ .infinite ∧
        Avoids (after {} history) l y edge.target.node root := by
  have hw := wellFormed_after history
  have hp := paired_after history
  generalize after {} history = t at *
  obtain ⟨towardFar, towardRoot, _, _, _, hFar, hRoot, rfl⟩ := farSpace_eq_ok hedge hfar h
  obtain ⟨-, hFar⟩ := distancesToward_eq_ok (hw.invert l) hFar
  obtain ⟨hover, hRoot⟩ := distancesToward_eq_ok (hw.invert l) hRoot
  have hover : t.isOverloaded root l = false := hover
  have hbetween : towardFar.getD root .infinite = t.leastMetric l root edge.target.node := by
    rw [distancesToward_getD hFar hroot, leastMetric_invert hduplex hw hp hover hfar]
  have hmem : ∀ y, (farMembers t l root towardFar towardRoot).contains y = true ↔
      t.isPseudonode y l = false ∧ t.isOverloaded y l = false ∧
        t.leastMetric l y edge.target.node ≠ .infinite ∧
        t.leastMetric l y edge.target.node <
          t.leastMetric l y root + t.leastMetric l root edge.target.node := by
    intro y
    rw [contains_farMembers, hbetween]
    constructor
    · rintro ⟨m, hm, hforwards, hlt⟩
      obtain ⟨hrouter, hfin, rfl⟩ := (hFar y m).1 hm
      rw [distancesToward_getD hRoot hrouter, leastMetric_invert hduplex hw hp hforwards hover,
        leastMetric_invert hduplex hw hp hforwards hfar] at hlt
      rw [leastMetric_invert hduplex hw hp hforwards hfar] at hfin
      exact ⟨hrouter, hforwards, hfin, hlt⟩
    · rintro ⟨hrouter, hforwards, hfin, hlt⟩
      refine ⟨t.leastMetric l y edge.target.node, (hFar y _).2 ⟨hrouter, hfin, ?_⟩, hforwards, ?_⟩
      · rw [leastMetric_invert hduplex hw hp hforwards hfar]
      · rw [distancesToward_getD hRoot hrouter, leastMetric_invert hduplex hw hp hforwards hover]
        exact hlt
  refine ⟨fun a => hduplex.usable_iff hw hp, hmem, fun y => ?_⟩
  rw [hmem y, leastMetric_lt_add_iff]
  tauto

/-- The ring of five routers, with a dear link from the second to the third one. It is as cheap as
before in the opposite direction, which is what counts for the Q-space of the second one. -/
def slantedPentagon : List Change := Run.pentagon ++ [.setMetric ⟨2, 0⟩ .l1 (.saturate 5)]

theorem mem_farSpace_iff_slantedPentagon : ∃ edge members w',
    (after {} slantedPentagon).edges.get? ⟨0, 0⟩ = some edge ∧
      Duplex (after {} slantedPentagon) .l1 ∧
      (after {} slantedPentagon).isPseudonode ⟨0, 0⟩ .l1 = false ∧
      (after {} slantedPentagon).isOverloaded edge.target.node .l1 = false ∧
      farSpace (after {} slantedPentagon) .l1 ⟨0, 0⟩ ⟨0, 0⟩ {} = .ok members w' ∧
      members.toList.map (·.position) = [1, 2, 3] ∧
      ∀ y, members.contains y = true ↔
        (after {} slantedPentagon).isPseudonode y .l1 = false ∧
          (after {} slantedPentagon).isOverloaded y .l1 = false ∧
          (after {} slantedPentagon).leastMetric .l1 y edge.target.node ≠ .infinite ∧
          Avoids (after {} slantedPentagon) .l1 y edge.target.node ⟨0, 0⟩ := by
  have hduplex : Duplex (after {} slantedPentagon) .l1 := by
    have hall : ∀ a ∈ (after {} slantedPentagon).arcs,
        a.edge.kind ≠ .lsp ∧ a.edge.inverse ≠ none := by decide +kernel
    exact ⟨fun e edge h _ => (hall ⟨e, edge⟩ (mem_arcs.2 h)).1,
      fun e edge h _ _ => (hall ⟨e, edge⟩ (mem_arcs.2 h)).2⟩
  have hstored : (((after {} slantedPentagon).edges.get? ⟨0, 0⟩).any fun edge =>
      !(after {} slantedPentagon).isOverloaded edge.target.node .l1) = true := by decide +kernel
  obtain ⟨edge, hedge, hfar⟩ := Option.any_eq_true _ _ |>.1 hstored
  rw [Bool.not_eq_true'] at hfar
  have hroot : (after {} slantedPentagon).isPseudonode ⟨0, 0⟩ .l1 = false := by decide +kernel
  obtain ⟨members, w', h, hmembers⟩ := exists_of_yields
    (c := farSpace (after {} slantedPentagon) .l1 ⟨0, 0⟩ ⟨0, 0⟩) (w := {})
    (p := fun members => members.toList.map (·.position) == [1, 2, 3]) (by decide +kernel)
  exact ⟨edge, members, w', hedge, hduplex, hroot, hfar, h, by simpa using hmembers,
    (mem_farSpace_iff slantedPentagon .l1 ⟨0, 0⟩ ⟨0, 0⟩ hedge hduplex hroot hfar h).2.2⟩

end LinkState.Repair
