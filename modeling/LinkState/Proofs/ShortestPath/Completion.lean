import LinkState.Proofs.ShortestPath.Invariant
import Mathlib.Data.List.Perm.Subperm

/-!
# A search runs to its end

`run_complete`: in a well-formed topology a search from a node succeeds, and when it ends the
invariant holds and the frontier is empty (`Complete`).

* The labels of all nodes joined to the root are in order at the start (`read_start`), whatever
  earlier searches have left there, so the invariant holds (`invariant_start`).
* The settled nodes are distinct nodes of the topology. After as many steps as there are nodes none
  is left that could be in the frontier (`Invariant.settled_full`), so the fuel lasts.
-/

namespace LinkState.Search

open LinkState.Topology

variable {t : Topology} {l : Level} {root : NodeId}

/-- What holds of a search that has ended. -/
structure Complete (t : Topology) (l : Level) (root : NodeId) (s : Search) : Prop where
  invariant : Invariant t l root [] s
  isEmpty : s.frontier.isEmpty = true

/-! ## The labels at the start -/

theorem read_foldl_write (ns : List NodeId) (labels : Labels) (n : NodeId) :
    (ns.foldl (fun labels n => labels.write n {}) labels).read n =
      if n ∈ ns then {} else labels.read n := by
  induction ns generalizing labels with
  | nil => simp
  | cons m ns ih =>
    rw [List.foldl_cons, ih, HandleMap.read_write]
    by_cases e : m = n
    · simp [e]
    · simp [e, Ne.symm e]

theorem read_reset (hw : t.WellFormed) (labels : Labels) {n : NodeId} (hn : Joined t l root n) :
    (reset t l root labels).read n = {} := by
  rw [reset, read_foldl_write, if_pos]
  exact Std.TreeSet.mem_toList.2 ((contains_reachable_iff hw n).2 hn)

theorem read_foldl_seed (nbs : List LogicalNeighbour) (labels : Labels) (n : NodeId) :
    (nbs.foldl (fun labels nb => labels.update nb.node fun label =>
        { label with direct := label.direct.insert nb.out.edge.nexthopKind nb.nexthop })
      labels).read n =
      { labels.read n with
        direct := nbs.foldl (fun d nb =>
          if nb.node = n then d.insert nb.out.edge.nexthopKind nb.nexthop else d)
          (labels.read n).direct } := by
  induction nbs generalizing labels with
  | nil => rfl
  | cons nb nbs ih =>
    rw [List.foldl_cons, ih, HandleMap.read_update, List.foldl_cons]
    split <;> rfl

theorem read_seed (labels : Labels) {n : NodeId} (h : (labels.read n).direct = .empty) :
    (seed t l root labels).read n =
      { labels.read n with direct := directNexthops t l root n } := by
  rw [seed, read_foldl_seed, h, directNexthops]

/-- At the start the root has the metric zero and is queued, no other node is reached, and nobody
has next hops but for the direct ones. -/
theorem read_start (hw : t.WellFormed) (labels : Labels) {n : NodeId} (hn : Joined t l root n) :
    (start t l root labels).read n =
      { metric := if n = root then 0 else .infinite
        direct := directNexthops t l root n
        queued := decide (n = root) } := by
  have hread :
      ((reset t l root labels).update root fun label => { label with metric := 0 }).read n =
      { metric := if n = root then 0 else .infinite } := by
    rw [HandleMap.read_update, read_reset hw labels hn]
    by_cases e : root = n
    · simp [e]
    · simp [e, Ne.symm e]
  rw [start, HandleMap.read_update, read_seed _ (by rw [hread]), hread]
  by_cases e : root = n
  · simp [e]
  · simp [e, Ne.symm e]

/-- The invariant holds at the start, with the root alone in the frontier. -/
theorem invariant_start (hw : t.WellFormed) (l : Level) (root : NodeId) (labels : Labels)
    (frontier : Frontier NodeId) :
    ∃ f, frontier.clear.push (t.rank l (start t l root labels)) root = .ok f ∧
      Invariant t l root [] { labels := start t l root labels, frontier := f } := by
  have hclear : frontier.clear.Valid (t.rank l (start t l root labels)) :=
    Frontier.clear_valid frontier
  obtain ⟨f, hf, hvalid, hmem⟩ := Frontier.push_valid hclear (Frontier.contains_clear frontier root)
  have hmem : ∀ n, f.contains n = true ↔ n = root := by
    intro n
    rw [hmem, Frontier.contains_clear]
    simp
  have hself := read_start hw labels (.refl : Joined t l root root)
  refine ⟨f, hf, ?_⟩
  exact {
    valid := hvalid
    queued_joined := fun n hn => (hmem n).1 hn ▸ .refl
    contains_eq := by
      intro n hn
      rw [read_start hw labels hn, Bool.eq_iff_iff, hmem, decide_eq_true_iff]
    direct := by
      intro n hn
      rw [read_start hw labels hn]
    root_label := by
      rw [hself]
      exact ⟨if_pos rfl, rfl⟩
    settled_joined := by simp
    settled_label := by simp
    settled_nodup := by simp
    settled_sorted := by simp
    settled_le := by simp
    reached := by
      intro n hn
      rw [read_start hw labels hn, hmem]
      by_cases e : n = root
      · simp only [e, if_true, List.map_nil, List.not_mem_nil, or_false, iff_true]
        exact Metric.zero_ne_infinite
      · simp [e]
    derived := by
      intro n hn hfin
      rw [read_start hw labels hn] at hfin ⊢
      by_cases e : n = root
      · subst e
        rw [if_pos rfl]
        exact .root
      · exact absurd (if_neg e) hfin
    relaxed := by simp }

/-! ## The steps until the end -/

variable {s : Search}

/-- When as many nodes are settled as there are, the frontier is empty. -/
theorem Invariant.settled_full (h : Invariant t l root [] s) (hw : t.WellFormed)
    (hroot : t.nodes.contains root = true) (hfull : t.nodes.size ≤ s.settled.length) (n : NodeId) :
    s.frontier.contains n = false := by
  refine Bool.eq_false_iff.2 fun hn => ?_
  have hjoined := h.queued_joined n hn
  have hnew : n ∉ s.settled.map (·.node) := by
    intro hm
    obtain ⟨r, hr, e⟩ := List.mem_map.1 hm
    exact h.ne_of_queued (h.contains_eq n hjoined ▸ hn) r hr e
  have hlength := Table.length_le_size (List.nodup_cons.2 ⟨hnew, h.settled_nodup⟩)
    (List.forall_mem_cons.2 ⟨hjoined.contains hw hroot, fun m hm => by
      obtain ⟨r, hr, rfl⟩ := List.mem_map.1 hm
      exact (h.settled_joined r hr).contains hw hroot⟩)
  rw [List.length_cons, List.length_map] at hlength
  omega

/-- With fuel for every node that is not settled yet a search reaches its end. -/
theorem Invariant.settleAll (hw : t.WellFormed) (hroot : t.nodes.contains root = true) {fuel : Nat}
    (h : Invariant t l root [] s) (hfuel : t.nodes.size ≤ fuel + s.settled.length) :
    ∃ s', Search.settleAll t l root fuel s = .ok s' ∧ Complete t l root s' := by
  induction fuel generalizing s with
  | zero =>
    refine ⟨s, rfl, h, Frontier.isEmpty_iff h.valid.indexed |>.2 ?_⟩
    exact h.settled_full hw hroot (by omega)
  | succ fuel ih =>
    unfold Search.settleAll
    cases hpop : s.frontier.popMin? (t.rank l s.labels) with
    | none =>
      refine ⟨s, rfl, h, Frontier.isEmpty_iff h.valid.indexed |>.2 ?_⟩
      exact (Frontier.popMin?_eq_none_iff h.valid.indexed).1 hpop
    | some top =>
      obtain ⟨n, frontier⟩ := top
      obtain ⟨s₁, hs₁, h₁, hsettled⟩ := h.settle hpop
      obtain ⟨s', hs', h'⟩ := ih h₁ (by
        rw [hsettled, List.length_append, List.length_singleton]
        omega)
      refine ⟨s', ?_, h'⟩
      simp only [hs₁]
      exact hs'

/-- **A search from a node succeeds and runs to its end**, if the frontier that it is given is
empty. -/
theorem run_complete (hw : t.WellFormed) (hroot : t.nodes.contains root = true) (labels : Labels)
    {frontier : Frontier NodeId} (hfrontier : frontier.isEmpty = true) :
    ∃ s, run t l root labels frontier = .ok s ∧ Complete t l root s := by
  obtain ⟨f, hf, h⟩ := invariant_start hw l root labels frontier
  obtain ⟨s, hs, hcomplete⟩ := h.settleAll hw hroot (Nat.le_add_right t.nodes.size _)
  refine ⟨s, ?_, hcomplete⟩
  simp only [run, hfrontier, if_true, hf]
  exact hs

end LinkState.Search
