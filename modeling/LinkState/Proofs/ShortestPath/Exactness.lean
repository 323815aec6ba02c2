import LinkState.Proofs.ShortestPath.Completion
import LinkState.Proofs.Topology.LeastMetric
import LinkState.ShortestPath.Findings

/-!
# What a search finds is exact

A search that has ended has settled exactly the nodes whose least metric is not `infinite`, each
with that metric (`Complete.mem_settled_iff`, `Complete.metric_eq`). Two facts make it so:

* every metric that can be derived is the cost of a walk (`Derived.exists_walk`);
* from a settled node no walk leads to a node that is not settled with at most its cost, unless the
  cost is too much for a metric (`Complete.exists_of_walk`, by induction along the walk).

`Findings.Exact` says that what is stored for a root is exact in this sense, and
`Findings.exact_store` that a search that has ended leaves it so.
-/

namespace LinkState

open LinkState.Topology

variable {t : Topology} {l : Level} {root : NodeId}

namespace Search

/-- Every metric that a search can give a node is the cost of a walk. -/
theorem Derived.exists_walk {n : NodeId} {m : Metric} {nexthops : Nexthops}
    (h : Derived t l root n m nexthops) :
    m ≠ .infinite ∧ ∃ as, Walk t l root as n ∧ cost l as = m.toNat := by
  induction h with
  | root => exact ⟨Metric.zero_ne_infinite, [], .nil root, rfl⟩
  | @step a m nexthops far h usable ne_root direct finite ih =>
    obtain ⟨-, as, hwalk, hcost⟩ := ih
    refine ⟨finite, as ++ [a], hwalk.append (.single usable), ?_⟩
    have := Metric.toNat_add_of_ne_infinite finite
    simp only [cost_append, cost, hcost]
    omega
  | merge h h' ih => exact ih

variable {s : Search}

namespace Complete

/-- Once a search has ended, the nodes with a metric are the settled ones. -/
theorem mem_settled_of_ne_infinite (h : Complete t l root s) {n : NodeId} (hn : Joined t l root n)
    (hfin : (s.labels.read n).metric ≠ .infinite) :
    ∃ r ∈ s.settled, r.node = n ∧ r.metric = (s.labels.read n).metric := by
  have hempty := (Frontier.isEmpty_iff h.invariant.valid.indexed).1 h.isEmpty n
  rcases (h.invariant.reached n hn).1 hfin with hc | hm
  · rw [hempty] at hc
    cases hc
  · obtain ⟨r, hr, rfl⟩ := List.mem_map.1 hm
    exact ⟨r, hr, rfl, (h.invariant.settled_label r hr).1.symm⟩

theorem root_settled (h : Complete t l root s) :
    ∃ r ∈ s.settled, r.node = root ∧ r.metric = 0 := by
  have hzero := h.invariant.root_label.1
  obtain ⟨r, hr, hnode, hmetric⟩ := h.mem_settled_of_ne_infinite .refl (by
    rw [hzero]
    exact Metric.zero_ne_infinite)
  exact ⟨r, hr, hnode, hmetric.trans hzero⟩

/-- A walk from a settled node ends at a settled node, whose metric is at most what the walk adds,
unless that is too much for a metric. -/
theorem exists_of_walk [t.Listed] (h : Complete t l root s) {n m : NodeId} {as : List Arc}
    (hwalk : Walk t l n as m) {r : Result} (hr : r ∈ s.settled) (hn : r.node = n)
    (hlt : r.metric.toNat + cost l as < Metric.infinite.toNat) :
    ∃ r' ∈ s.settled, r'.node = m ∧ r'.metric.toNat ≤ r.metric.toNat + cost l as := by
  induction hwalk generalizing r with
  | nil => exact ⟨r, hr, hn, Nat.le_add_right ..⟩
  | @cons n m a as usable leaves rest ih =>
    rw [cost] at hlt ⊢
    by_cases hroot : a.edge.target.node = root
    · -- no edge to the root is relaxed, but the root costs nothing
      obtain ⟨r₀, hr₀, hnode, hzero⟩ := h.root_settled
      obtain ⟨r', hr', hm, hle⟩ := ih hr₀ (hnode.trans hroot.symm) (by
        rw [hzero, Metric.toNat_zero]
        omega)
      rw [hzero, Metric.toNat_zero] at hle
      exact ⟨r', hr', hm, by omega⟩
    · have ha : a ∈ outArcs t l root r.node := mem_outArcs.2 ⟨usable, leaves.trans hn.symm, hroot⟩
      have hsum := Metric.toNat_add r.metric (a.edge.cost l)
      rw [Metric.toNat_infinite] at hlt
      have hfin : r.metric + a.edge.cost l ≠ .infinite := fun e => by
        rw [e, Metric.toNat_infinite] at hsum
        omega
      have hle := h.invariant.relaxed r hr a ha (by simp) hfin
      rw [Metric.le_iff] at hle
      have hjoined : Joined t l root a.edge.target.node :=
        (h.invariant.settled_joined r hr).tail (hn ▸ leaves ▸ adjacent_of_usable usable)
      obtain ⟨r₁, hr₁, hnode, hmetric⟩ := h.mem_settled_of_ne_infinite hjoined fun e => by
        rw [e, Metric.toNat_infinite] at hle
        omega
      obtain ⟨r', hr', hm, hle'⟩ := ih hr₁ hnode (by
        rw [hmetric, Metric.toNat_infinite]
        omega)
      rw [hmetric] at hle'
      exact ⟨r', hr', hm, by omega⟩

theorem derived (h : Complete t l root s) {r : Result} (hr : r ∈ s.settled) :
    Derived t l root r.node r.metric r.nexthops := by
  have hjoined := h.invariant.settled_joined r hr
  obtain ⟨hmetric, hnexthops, -⟩ := h.invariant.settled_label r hr
  have hfin := (h.invariant.reached _ hjoined).2 (.inr (List.mem_map_of_mem hr))
  have hder := h.invariant.derived _ hjoined hfin
  rwa [hmetric, hnexthops] at hder

/-- **A settled node has its least metric.** -/
theorem metric_eq [t.Listed] (h : Complete t l root s) {r : Result} (hr : r ∈ s.settled) :
    r.metric = t.leastMetric l root r.node := by
  obtain ⟨hfin, hwalk⟩ := (h.derived hr).exists_walk
  have hlt := Metric.toNat_lt_of_ne_infinite hfin
  obtain ⟨r₀, hr₀, hnode, hzero⟩ := h.root_settled
  refine (leastMetric_eq (fun as has => ?_) fun _ => hwalk).symm
  by_cases hcost : cost l as < Metric.infinite.toNat
  · obtain ⟨r', hr', hm, hle⟩ := h.exists_of_walk has hr₀ hnode (by
      rw [hzero, Metric.toNat_zero]
      omega)
    have hsame : r'.metric = r.metric := by
      rw [← (h.invariant.settled_label r' hr').1, hm, (h.invariant.settled_label r hr).1]
    rw [hzero, Metric.toNat_zero, hsame] at hle
    omega
  · omega

/-- **Exactly the nodes with a least metric below `infinite` are settled.** -/
theorem mem_settled_iff [t.Listed] (h : Complete t l root s) {n : NodeId} :
    n ∈ s.settled.map (·.node) ↔ t.leastMetric l root n ≠ .infinite := by
  constructor
  · intro hn
    obtain ⟨r, hr, rfl⟩ := List.mem_map.1 hn
    rw [← h.metric_eq hr]
    exact (h.derived hr).exists_walk.1
  · intro hfin
    obtain ⟨as, hwalk, hcost⟩ := exists_walk hfin
    obtain ⟨r₀, hr₀, hnode, hzero⟩ := h.root_settled
    obtain ⟨r, hr, hn, -⟩ := h.exists_of_walk hwalk hr₀ hnode (by
      rw [hzero, Metric.toNat_zero, hcost, Nat.zero_add]
      exact Metric.toNat_lt_of_ne_infinite hfin)
    exact List.mem_map.2 ⟨r, hr, hn⟩

end Complete

end Search

namespace Findings

/-- What is stored for a root is what the topology says: the nodes that the root can reach, in the
order of their least metrics, each with next hops that a search can derive. -/
structure Exact (f : Findings) (t : Topology) (l : Level) (root : NodeId) : Prop where
  mem_iff : ∀ n, n ∈ (f.roots.read root).settled.map (·.node) ↔ t.leastMetric l root n ≠ .infinite
  metric_eq : ∀ r ∈ (f.roots.read root).settled, r.metric = t.leastMetric l root r.node
  derived : ∀ r ∈ (f.roots.read root).settled,
    Search.Derived t l root r.node r.metric r.nexthops
  nodup : ((f.roots.read root).settled.map (·.node)).Nodup
  sorted : (f.roots.read root).settled.Pairwise fun r r' => r.metric ≤ r'.metric
  destinations_eq : f.destinations root =
    (f.roots.read root).settled.filter fun r => !t.isPseudonode r.node l

/-- What two findings say of a root is the same, but for its version and its routing table. -/
def SameResults (f f' : Findings) (root : NodeId) : Prop :=
  (f'.roots.read root).settled = (f.roots.read root).settled ∧
    f'.destinations root = f.destinations root

variable {f f' f'' : Findings}

theorem SameResults.refl (f : Findings) (root : NodeId) : SameResults f f root := ⟨rfl, rfl⟩

theorem SameResults.trans (h : SameResults f f' root) (h' : SameResults f' f'' root) :
    SameResults f f'' root :=
  ⟨h'.1.trans h.1, h'.2.trans h.2⟩

theorem Exact.congr (h : Exact f t l root) (hs : SameResults f f' root) : Exact f' t l root := by
  obtain ⟨hsettled, hdest⟩ := hs
  exact {
    mem_iff := fun n => hsettled ▸ h.mem_iff n
    metric_eq := hsettled ▸ h.metric_eq
    derived := hsettled ▸ h.derived
    nodup := hsettled ▸ h.nodup
    sorted := hsettled ▸ h.sorted
    destinations_eq := by
      rw [hdest, hsettled]
      exact h.destinations_eq }

/-- Entering a search leaves alone what is stored for other roots. -/
theorem sameResults_store {s : Search} {x : NodeId} (hx : x ≠ root) :
    SameResults f (f.store t l root s) x := by
  unfold SameResults store destinations
  dsimp only
  rw [HandleMap.read_update, if_neg hx.symm]
  exact ⟨rfl, rfl⟩

theorem sameResults_bumpVersion (x : NodeId) : SameResults f (f.bumpVersion root) x := by
  unfold SameResults bumpVersion destinations
  dsimp only
  rw [HandleMap.read_update]
  split <;> exact ⟨rfl, rfl⟩

theorem sameResults_rebuildTable (x : NodeId) : SameResults f (f.rebuildTable t l root) x := by
  unfold SameResults rebuildTable destinations
  dsimp only
  rw [HandleMap.read_update]
  split <;> exact ⟨rfl, rfl⟩

/-- **Entering a search that has ended makes what is stored for its root exact.** -/
theorem exact_store [t.Listed] {s : Search} (h : s.Complete t l root) :
    Exact (f.store t l root s) t l root := by
  have hread : ((f.store t l root s).roots.read root).settled = s.settled := by
    rw [store, HandleMap.read_update, if_pos rfl]
  have hdest : (f.store t l root s).destinations root =
      s.settled.filter fun r => !t.isPseudonode r.node l := by
    rw [destinations, store, HandleMap.read_update, if_pos rfl]
  exact {
    mem_iff := fun n => hread ▸ h.mem_settled_iff
    metric_eq := fun r hr => h.metric_eq (hread ▸ hr)
    derived := fun r hr => h.derived (hread ▸ hr)
    nodup := hread ▸ h.invariant.settled_nodup
    sorted := hread ▸ h.invariant.settled_sorted
    destinations_eq := by rw [hdest, hread] }

namespace Exact

variable (h : Exact f t l root)
include h

theorem ne_infinite {r : Result} (hr : r ∈ (f.roots.read root).settled) : r.metric ≠ .infinite := by
  rw [h.metric_eq r hr, ← h.mem_iff]
  exact List.mem_map_of_mem hr

theorem result?_eq_some_iff {n : NodeId} {r : Result} :
    f.result? root n = some r ↔ r ∈ (f.roots.read root).settled ∧ r.node = n := by
  have hnodup := h.nodup
  unfold result?
  generalize (f.roots.read root).settled = rs at hnodup ⊢
  constructor
  · intro hf
    exact ⟨List.mem_of_find?_eq_some hf, by simpa using List.find?_some hf⟩
  · rintro ⟨hr, rfl⟩
    obtain ⟨r', hr'⟩ := Option.isSome_iff_exists.1
      (List.find?_isSome (p := fun r' : Result => r'.node == r.node) |>.2 ⟨r, hr, by simp⟩)
    have hmem := List.mem_of_find?_eq_some hr'
    have hnode : r'.node = r.node := by simpa using List.find?_some hr'
    rw [hr', List.inj_on_of_nodup_map hnodup hmem hr hnode]

theorem isSome_result?_iff {n : NodeId} :
    (f.result? root n).isSome = true ↔ t.leastMetric l root n ≠ .infinite := by
  rw [← h.mem_iff, Option.isSome_iff_exists, List.mem_map]
  exact exists_congr fun r => h.result?_eq_some_iff

theorem mem_destinations {r : Result} : r ∈ f.destinations root ↔
    r ∈ (f.roots.read root).settled ∧ t.isPseudonode r.node l = false := by
  rw [h.destinations_eq, List.mem_filter, Bool.not_eq_true']

theorem nodup_destinations : ((f.destinations root).map (·.node)).Nodup := by
  rw [h.destinations_eq]
  exact h.nodup.sublist (List.filter_sublist.map _)

/-- The destinations are the routers that the root can reach. -/
theorem mem_map_destinations {n : NodeId} : n ∈ (f.destinations root).map (·.node) ↔
    t.isPseudonode n l = false ∧ t.leastMetric l root n ≠ .infinite := by
  rw [← h.mem_iff]
  constructor
  · intro hn
    obtain ⟨r, hr, rfl⟩ := List.mem_map.1 hn
    obtain ⟨hmem, hrouter⟩ := h.mem_destinations.1 hr
    exact ⟨hrouter, List.mem_map_of_mem hmem⟩
  · rintro ⟨hrouter, hn⟩
    obtain ⟨r, hr, rfl⟩ := List.mem_map.1 hn
    exact List.mem_map_of_mem (h.mem_destinations.2 ⟨hr, hrouter⟩)

/-- A root finds itself, at no cost. -/
theorem result?_root : ∃ r, f.result? root root = some r ∧ r.metric = 0 := by
  have hzero := leastMetric_self (t := t) (l := l) root
  have hmem := (h.mem_iff root).2 (by
    rw [hzero]
    exact Metric.zero_ne_infinite)
  obtain ⟨r, hr, hn⟩ := List.mem_map.1 hmem
  refine ⟨r, h.result?_eq_some_iff.2 ⟨hr, hn⟩, ?_⟩
  rw [h.metric_eq r hr, hn, hzero]

/-- The metric stored for a node is its least metric, also if it is `infinite` and none is
stored. -/
theorem metric_getD (n : NodeId) :
    ((f.result? root n).map (·.metric)).getD .infinite = t.leastMetric l root n := by
  cases hr : f.result? root n with
  | some r =>
    obtain ⟨hmem, rfl⟩ := h.result?_eq_some_iff.1 hr
    exact h.metric_eq r hmem
  | none =>
    by_contra hne
    obtain ⟨r, hmem, rfl⟩ := List.mem_map.1 ((h.mem_iff n).2 (Ne.symm hne))
    rw [h.result?_eq_some_iff.2 ⟨hmem, rfl⟩] at hr
    cases hr

/-- A router is a destination exactly if it is found. -/
theorem destination?_eq {n : NodeId} (hn : t.isPseudonode n l = false) :
    f.destination? root n = f.result? root n := by
  unfold destination? result?
  rw [h.destinations_eq, List.find?_filter]
  congr 1
  funext r
  by_cases e : r.node = n
  · simp [e, hn]
  · simp [e]

end Exact

end Findings

end LinkState
