import LinkState.Proofs.NexthopMerge
import LinkState.Proofs.ShortestPath.Exactness

/-!
# How next hops are gathered

`Invariant` bounds what a search can find, but it does not say that nothing is lost. Here it is
followed which next hops are brought to a node, and by whom.

* `offers` are the contributions that the nodes settled so far have made to a node at a metric, in
  the order in which their edges were relaxed.
* `Settles`: a node that leaves the frontier has been offered something, has merged all that it was
  offered, and has its turn before everything else that an edge of a settled node leads to.
* `Gathered` says so of a whole row of settled nodes, and `run_gathered` of every search.

While the edges of a node are relaxed the labels of the queued nodes stand for what they have been
offered so far (`Holds`); the four outcomes of `Relaxed` keep it so (`Relaxing.holds`).
-/

namespace LinkState.Search

open LinkState.Topology

variable (t : Topology) (l : Level) (root : NodeId)

/-- The place in the frontier of a node with a metric. -/
def place (n : NodeId) (m : Metric) : Nat := 2 * m.toNat + if t.isPseudonode n l then 0 else 1

/-- What some edges of a settled node bring to a node at a metric. -/
def brought (n : NodeId) (m : Metric) (origin : Result) (arcs : List Arc) : List Nexthops :=
  (arcs.filter fun a => a.edge.target.node == n && origin.metric + a.edge.cost l == m).map fun a =>
    t.contribution l origin.node origin.nexthops a { direct := directNexthops t l root n }

/-- What the edges of the nodes settled so far bring to a node at a metric. -/
def offers (n : NodeId) (m : Metric) (rs : List Result) : List Nexthops :=
  rs.flatMap fun r => brought t l root n m r (outArcs t l root r.node)

/-- What holds of a node that leaves the frontier after others have been settled. -/
structure Settles (rs : List Result) (r : Result) : Prop where
  root_label : r.node = root → r.metric = 0 ∧ r.nexthops = .empty
  offered : r.node ≠ root → offers t l root r.node r.metric rs ≠ []
  merged : r.node ≠ root → r.nexthops = .merge (offers t l root r.node r.metric rs)
  first : ∀ p ∈ rs, ∀ a ∈ outArcs t l root p.node, p.metric + a.edge.cost l ≠ .infinite →
    a.edge.target.node ∈ rs.map (·.node) ∨
      place t l r.node r.metric ≤ place t l a.edge.target.node (p.metric + a.edge.cost l)

/-- Nodes in the order in which they left the frontier. -/
inductive Gathered : List Result → Prop
  | nil : Gathered []
  | snoc {rs : List Result} {r : Result} (prior : Gathered rs) (settles : Settles t l root rs r) :
    Gathered (rs ++ [r])

/-- The labels stand for what the nodes have been offered: none is above an offer, and a queued node
has merged all that it was offered at its metric. -/
structure Holds (offered : NodeId → Metric → List Nexthops) (s : Search) : Prop where
  low : ∀ n m, offered n m ≠ [] → (s.labels.read n).metric ≤ m
  queued : ∀ n, Joined t l root n → n ≠ root → (s.labels.read n).queued = true →
    offered n (s.labels.read n).metric ≠ [] ∧
      (s.labels.read n).nexthops = .merge (offered n (s.labels.read n).metric)

variable {t l root}

theorem rank_eq_place (labels : Labels) (n : NodeId) :
    t.rank l labels n = place t l n (labels.read n).metric := rfl

/-- Of the far end an edge takes nothing into account but its direct next hops. -/
theorem contribution_eq {node : NodeId} {nexthops direct : Nexthops} {a : Arc} {far : Label}
    (h : far.direct = direct) :
    t.contribution l node nexthops a far = t.contribution l node nexthops a { direct } := by
  unfold contribution
  rw [h]

theorem contribution_of_ne_empty {node : NodeId} {nexthops : Nexthops} {a : Arc} {far : Label}
    (h : nexthops.isEmpty = false) : t.contribution l node nexthops a far = nexthops := by
  rw [contribution, h]
  rfl

theorem mem_brought {n : NodeId} {m : Metric} {origin : Result} {arcs : List Arc}
    {c : Nexthops} : c ∈ brought t l root n m origin arcs ↔
      ∃ a ∈ arcs, a.edge.target.node = n ∧ origin.metric + a.edge.cost l = m ∧
        t.contribution l origin.node origin.nexthops a { direct := directNexthops t l root n } =
          c := by
  simp only [brought, List.mem_map, List.mem_filter, Bool.and_eq_true, beq_iff_eq, and_assoc]

theorem mem_offers {n : NodeId} {m : Metric} {rs : List Result} {c : Nexthops} :
    c ∈ offers t l root n m rs ↔ ∃ p ∈ rs, ∃ a ∈ outArcs t l root p.node,
      a.edge.target.node = n ∧ p.metric + a.edge.cost l = m ∧
        t.contribution l p.node p.nexthops a { direct := directNexthops t l root n } = c := by
  simp only [offers, List.mem_flatMap, mem_brought]

theorem offers_concat (n : NodeId) (m : Metric) (rs : List Result) (r : Result) :
    offers t l root n m (rs ++ [r]) =
      offers t l root n m rs ++ brought t l root n m r (outArcs t l root r.node) := by
  rw [offers, List.flatMap_append, List.flatMap_singleton, offers]

theorem brought_cons (n : NodeId) (m : Metric) (origin : Result) (a : Arc) (arcs : List Arc) :
    brought t l root n m origin (a :: arcs) =
      brought t l root n m origin [a] ++ brought t l root n m origin arcs := by
  rw [brought, brought, brought, ← List.map_append, ← List.filter_append, List.singleton_append]

/-! ## While edges are relaxed -/

variable {s s' : Search} {origin : Result} {a : Arc} {pending : List Arc} {n : NodeId}
  {offered : NodeId → Metric → List Nexthops}

theorem brought_eq_nil {m : Metric}
    (h : a.edge.target.node = n → origin.metric + a.edge.cost l ≠ m) :
    brought t l root n m origin [a] = [] := by
  refine List.map_eq_nil_iff.2 (List.filter_eq_nil_iff.2 fun b hb => ?_)
  rw [List.mem_singleton.1 hb, Bool.and_eq_true, beq_iff_eq, beq_iff_eq]
  exact fun ⟨hn, hm⟩ => h hn hm

theorem brought_target :
    brought t l root a.edge.target.node (origin.metric + a.edge.cost l) origin [a] =
      [t.contribution l origin.node origin.nexthops a
        { direct := directNexthops t l root a.edge.target.node }] := by
  simp [brought]

theorem Relaxed.metric_le (h : Relaxed t l origin a s s') (n : NodeId) :
    (s'.labels.read n).metric ≤ (s.labels.read n).metric := by
  by_cases hn : a.edge.target.node = n
  · subst hn
    cases h with
    | exceeded | kept => exact Nat.le_refl _
    | tied =>
      rw [HandleMap.read_write, if_pos rfl]
      exact Nat.le_refl _
    | improved hlt labels _ labels_eq =>
      rw [labels_eq, HandleMap.read_write, if_pos rfl]
      exact Nat.le_of_lt hlt
  · rw [h.read_of_ne hn]
    exact Nat.le_refl _

/-- Once an edge is relaxed, its far end costs no more than the path over it. -/
theorem Relaxed.target_le (h : Relaxed t l origin a s s') :
    (s'.labels.read a.edge.target.node).metric ≤ origin.metric + a.edge.cost l := by
  cases h with
  | exceeded e => exact e ▸ Metric.toNat_le _
  | kept hle => exact hle
  | tied _ heq =>
    rw [HandleMap.read_write, if_pos rfl]
    exact heq ▸ Nat.le_refl _
  | improved _ labels _ labels_eq =>
    rw [labels_eq, HandleMap.read_write, if_pos rfl]
    exact Nat.le_refl _

theorem Invariant.ne_infinite_of_queued (h : Invariant t l root pending s)
    (hn : Joined t l root n) (hq : (s.labels.read n).queued = true) :
    (s.labels.read n).metric ≠ .infinite :=
  (h.reached n hn).2 (.inl ((h.contains_eq n hn).trans hq))

/-- If the far end of an edge is queued once the edge is relaxed, it has merged what the edge
brings. -/
theorem Relaxing.merged_target [t.Listed] (h : Relaxing t l root origin a pending s)
    (ho : Holds t l root offered s) (hr : Relaxed t l origin a s s')
    (hroot : a.edge.target.node ≠ root)
    (hq : (s'.labels.read a.edge.target.node).queued = true) {m : Metric}
    (hm : (s'.labels.read a.edge.target.node).metric = m) :
    offered a.edge.target.node m ++ brought t l root a.edge.target.node m origin [a] ≠ [] ∧
      (s'.labels.read a.edge.target.node).nexthops = .merge
        (offered a.edge.target.node m ++ brought t l root a.edge.target.node m origin [a]) := by
  subst hm
  have hdirect := h.invariant.direct _ h.joined
  cases hr with
  | exceeded e =>
    have hfin := h.invariant.ne_infinite_of_queued h.joined hq
    dsimp only
    rw [brought_eq_nil fun _ => e ▸ hfin.symm, List.append_nil]
    exact ho.queued _ h.joined hroot hq
  | kept _ settled =>
    rw [brought_eq_nil fun _ e => absurd hq (Bool.eq_false_iff.1 (settled e.symm)),
      List.append_nil]
    exact ho.queued _ h.joined hroot hq
  | tied _ heq hqueued =>
    obtain ⟨-, hmerged⟩ := ho.queued _ h.joined hroot hqueued
    dsimp only
    rw [HandleMap.read_write, if_pos rfl]
    dsimp only
    rw [heq, brought_target, Nexthops.merge_concat, ← heq, ← hmerged, heq,
      contribution_eq hdirect]
    exact ⟨List.append_ne_nil_of_right_ne_nil _ (List.cons_ne_nil _ _), rfl⟩
  | improved hlt labels frontier labels_eq =>
    -- an offer at this metric would have brought the label down to it
    have hnew : offered a.edge.target.node (origin.metric + a.edge.cost l) = [] := by
      by_contra hold
      exact absurd hlt (Nat.not_lt.2 (ho.low _ _ hold))
    dsimp only
    rw [labels_eq, HandleMap.read_write, if_pos rfl]
    dsimp only
    rw [hnew, List.nil_append, brought_target, Nexthops.merge_singleton, contribution_eq hdirect]
    exact ⟨List.cons_ne_nil _ _, rfl⟩

/-- **Relaxing an edge adds to the labels what the edge brings.** -/
theorem Relaxing.holds [t.Listed] (h : Relaxing t l root origin a pending s)
    (ho : Holds t l root offered s) (hr : Relaxed t l origin a s s') :
    Holds t l root (fun n m => offered n m ++ brought t l root n m origin [a]) s' := by
  constructor
  · intro n m hne
    by_cases hm : offered n m = []
    · by_contra hlt
      refine hne ?_
      rw [hm, List.nil_append, brought_eq_nil]
      rintro rfl rfl
      exact hlt hr.target_le
    · exact Nat.le_trans (hr.metric_le n) (ho.low n m hm)
  · intro n hn hroot hq
    by_cases hne : a.edge.target.node = n
    · subst hne
      exact h.merged_target ho hr hroot hq rfl
    · rw [hr.read_of_ne hne] at hq ⊢
      rw [brought_eq_nil fun e => absurd e hne, List.append_nil]
      exact ho.queued n hn hroot hq

/-- Relaxing edges one after the other adds to the labels what all of them bring. -/
theorem Invariant.holds_relaxAll [t.Listed] {arcs : List Arc} (h : Invariant t l root arcs s)
    (hmem : origin ∈ s.settled) (hlast : ∀ r ∈ s.settled, r.metric ≤ origin.metric)
    (harcs : ∀ a ∈ arcs, a ∈ outArcs t l root origin.node) (ho : Holds t l root offered s)
    (hs : arcs.foldlM (Search.relax t l origin) s = .ok s') :
    Holds t l root (fun n m => offered n m ++ brought t l root n m origin arcs) s' := by
  induction arcs generalizing s offered with
  | nil =>
    cases hs
    simpa [brought] using ho
  | cons a arcs ih =>
    have hrelaxing : Relaxing t l root origin a arcs s :=
      ⟨h, hmem, hlast, harcs a List.mem_cons_self⟩
    obtain ⟨s₁, hs₁, hrelaxed, h₁⟩ := hrelaxing.relax
    rw [List.foldlM_cons, hs₁] at hs
    have hsettled := hrelaxed.settled_eq
    have := ih h₁ (hsettled ▸ hmem) (hsettled ▸ hlast)
      (fun b hb => harcs b (List.mem_cons_of_mem _ hb)) (hrelaxing.holds ho hrelaxed) hs
    simpa only [List.append_assoc, ← brought_cons] using this

/-! ## While nodes are settled -/

/-- What holds between two steps of a search of the nodes that it has settled. -/
structure Gathering (t : Topology) (l : Level) (root : NodeId) (s : Search) : Prop where
  invariant : Invariant t l root [] s
  gathered : Gathered t l root s.settled
  holds : Holds t l root (fun n m => offers t l root n m s.settled) s

variable {frontier : Frontier NodeId}

/-- Recording a node takes it out of the queue and leaves the other labels alone. -/
theorem Holds.record (h : Holds t l root offered s) :
    Holds t l root offered (s.record n frontier) := by
  constructor
  · intro m metric hne
    rw [metric_record]
    exact h.low m metric hne
  · intro m hm hroot hq
    rw [read_record] at hq ⊢
    by_cases e : n = m
    · rw [if_pos e] at hq
      cases hq
    · rw [if_neg e] at hq ⊢
      exact h.queued m hm hroot hq

/-- The node at the top of the frontier has its turn before what the edges of the settled nodes lead
to. -/
theorem Gathering.settles [t.Listed] (h : Gathering t l root s)
    (hpop : s.frontier.popMin? (t.rank l s.labels) = some (n, frontier)) :
    Settles t l root s.settled (s.resultOf n) := by
  obtain ⟨hn, hleast, -, -⟩ := Frontier.popMin?_valid h.invariant.valid hpop
  have hjoined := h.invariant.queued_joined n hn
  have hq : (s.labels.read n).queued = true := (h.invariant.contains_eq n hjoined) ▸ hn
  exact {
    root_label := by
      rintro rfl
      exact h.invariant.root_label
    offered := fun hroot => (h.holds.queued n hjoined hroot hq).1
    merged := fun hroot => (h.holds.queued n hjoined hroot hq).2
    first := by
      intro p hp a ha hfin
      obtain ⟨usable, hsource, -⟩ := mem_outArcs.1 ha
      have htarget : Joined t l root a.edge.target.node :=
        (h.invariant.settled_joined p hp).tail (hsource ▸ adjacent_of_usable usable)
      have hle := h.invariant.relaxed p hp a ha List.not_mem_nil hfin
      have hreached : (s.labels.read a.edge.target.node).metric ≠ .infinite := by
        rintro e
        rw [e] at hle
        exact hfin (Metric.toNat_inj.1 (Nat.le_antisymm (Metric.toNat_le _) hle))
      refine ((h.invariant.reached _ htarget).1 hreached).symm.imp_right fun hc => ?_
      have hrank := hleast _ hc
      rw [rank_eq_place, rank_eq_place] at hrank
      refine hrank.trans ?_
      rw [Metric.le_iff] at hle
      unfold place
      omega }

/-- **Settling the node at the top of the frontier** leaves the settled nodes gathered. -/
theorem Gathering.settle [t.Listed] (h : Gathering t l root s)
    (hpop : s.frontier.popMin? (t.rank l s.labels) = some (n, frontier)) :
    ∃ s', Search.settle t l root { s with frontier } n = .ok s' ∧ Gathering t l root s' := by
  obtain ⟨s', hs', hi, hsettled⟩ := h.invariant.settle hpop
  refine ⟨s', hs', hi, ?_, ?_⟩
  · rw [hsettled]
    exact .snoc h.gathered (h.settles hpop)
  · obtain ⟨hrecord, hq, hle⟩ := h.invariant.record hpop
    rw [settle_eq hq] at hs'
    have := hrecord.holds_relaxAll (by simp [Search.record]) (fun r hr => ?_) (fun a ha => ha)
      h.holds.record hs'
    · simp only [hsettled, offers_concat]
      exact this
    · rcases List.mem_append.1 hr with hr | hr
      · exact hle r hr
      · exact List.mem_singleton.1 hr ▸ Nat.le_refl _

theorem Gathering.settleAll [t.Listed] {fuel : Nat} (h : Gathering t l root s)
    (hs : Search.settleAll t l root fuel s = .ok s') : Gathering t l root s' := by
  induction fuel generalizing s with
  | zero =>
    cases hs
    exact h
  | succ fuel ih =>
    unfold Search.settleAll at hs
    split at hs
    · cases hs
      exact h
    · rename_i n frontier hpop
      obtain ⟨s₁, hs₁, h₁⟩ := h.settle hpop
      rw [hs₁] at hs
      exact ih h₁ hs

/-- **A search gathers next hops**: each node that it settles has merged what was brought to it by
the nodes settled before. -/
theorem run_gathered (hw : t.WellFormed) {labels : Labels}
    (hs : run t l root labels frontier = .ok s) : Gathered t l root s.settled := by
  unfold run at hs
  split at hs
  · obtain ⟨f, hf, h⟩ := invariant_start hw l root labels frontier
    simp only [hf] at hs
    refine (Gathering.settleAll ⟨h, .nil, ?_, ?_⟩ hs).gathered
    · exact fun n m hne => absurd rfl hne
    · intro n hn hroot hq
      rw [read_start hw labels hn] at hq
      exact absurd (of_decide_eq_true hq) hroot
  · cases hs

/-! ## Induction over the settled nodes -/

/-- What holds of a node as soon as it holds of those settled before it holds of all nodes. -/
theorem Gathered.induction {P : Result → Prop} {rs : List Result} (h : Gathered t l root rs)
    (step : ∀ pre r post, rs = pre ++ r :: post → Settles t l root pre r →
      (∀ p ∈ pre, P p) → P r) : ∀ r ∈ rs, P r := by
  suffices hpre : ∀ pre, Gathered t l root pre → ∀ post, rs = pre ++ post → ∀ p ∈ pre, P p from
    hpre rs h [] (List.append_nil rs).symm
  intro pre hpre
  induction hpre with
  | nil => exact fun _ _ p hp => absurd hp List.not_mem_nil
  | @snoc pre r _ settles ih =>
    intro post e p hp
    rw [List.append_assoc, List.singleton_append] at e
    rcases List.mem_append.1 hp with hp | hp
    · exact ih (r :: post) e p hp
    · exact List.mem_singleton.1 hp ▸ step pre r post e settles (ih (r :: post) e)

/-- Each settled node stands between those settled before and those settled after it. -/
theorem Gathered.exists_settles {rs : List Result} (h : Gathered t l root rs) {r : Result}
    (hr : r ∈ rs) : ∃ pre post, rs = pre ++ r :: post ∧ Settles t l root pre r :=
  h.induction (P := fun r => ∃ pre post, rs = pre ++ r :: post ∧ Settles t l root pre r)
    (fun pre _ post e settles _ => ⟨pre, post, e, settles⟩) r hr

theorem Gathered.root_label {rs : List Result} (h : Gathered t l root rs) {r : Result}
    (hr : r ∈ rs) (hroot : r.node = root) : r.metric = 0 ∧ r.nexthops = .empty := by
  obtain ⟨_, _, -, settles⟩ := h.exists_settles hr
  exact settles.root_label hroot

theorem Gathered.isEmpty_of_root {rs : List Result} (h : Gathered t l root rs) {r : Result}
    (hr : r ∈ rs) (hroot : r.node = root) : r.nexthops.isEmpty = true := by
  rw [(h.root_label hr hroot).2]
  rfl

/-! ## The last edges of least walks -/

/-- In a row by metric a node that costs less stands before one that costs more. -/
theorem mem_before {pre post : List Result} {r p : Result}
    (hsorted : (pre ++ r :: post).Pairwise fun r r' => r.metric ≤ r'.metric)
    (hp : p ∈ pre ++ r :: post) (hlt : p.metric < r.metric) : p ∈ pre := by
  obtain ⟨-, hsorted, -⟩ := List.pairwise_append.1 hsorted
  rcases List.mem_append.1 hp with hp | hp
  · exact hp
  rcases List.mem_cons.1 hp with rfl | hp
  · exact absurd hlt (Nat.lt_irrefl _)
  · exact absurd hlt (Nat.not_lt.2 ((List.pairwise_cons.1 hsorted).1 p hp))

section

variable {f : Findings} (hexact : f.Exact t l root) {pre post : List Result} {r : Result}
  (hrow : (f.roots.read root).settled = pre ++ r :: post)
include hexact hrow

/-- No node is settled twice. -/
theorem ne_of_mem_before {p : Result} (hp : p ∈ pre) : p.node ≠ r.node := by
  have hnodup := hexact.nodup
  rw [hrow, List.map_append, List.nodup_append] at hnodup
  exact hnodup.2.2 _ (List.mem_map_of_mem hp) _ (List.mem_map_of_mem List.mem_cons_self)

/-- The root is settled before every node that costs something. -/
theorem exists_root_before (hpos : 0 < r.metric.toNat) :
    ∃ p ∈ pre, p.node = root ∧ p.metric = 0 := by
  obtain ⟨p, hp, hzero⟩ := hexact.result?_root
  obtain ⟨hp, hroot⟩ := hexact.result?_eq_some_iff.1 hp
  refine ⟨p, mem_before (hrow ▸ hexact.sorted) (hrow ▸ hp) ?_, hroot, hzero⟩
  rwa [Metric.lt_iff, hzero, Metric.toNat_zero]

/-- An edge that brings something to a node ends a least walk to it. -/
theorem leastWalk_of_tight [t.Listed] {p : Result} (hp : p ∈ pre) {a : Arc}
    (ha : a ∈ outArcs t l root p.node) (htarget : a.edge.target.node = r.node)
    (htight : p.metric + a.edge.cost l = r.metric) (as : List Arc)
    (hw : LeastWalk t l root as p.node) : LeastWalk t l root (as ++ [a]) r.node := by
  have hpm : p ∈ (f.roots.read root).settled := hrow ▸ List.mem_append_left _ hp
  have hrm : r ∈ (f.roots.read root).settled :=
    hrow ▸ List.mem_append_right _ List.mem_cons_self
  obtain ⟨usable, hsource, -⟩ := mem_outArcs.1 ha
  have hwalk : Walk t l root (as ++ [a]) r.node :=
    hw.walk.append (hsource ▸ htarget ▸ .single usable)
  refine hwalk.leastWalk ?_
  have hfin := hexact.ne_infinite hrm
  have hcost := hw.cost_eq ((hexact.mem_iff p.node).1 (List.mem_map_of_mem hpm))
  rw [← htight] at hfin
  rw [cost_append, hcost, ← hexact.metric_eq r hrm, ← htight, ← hexact.metric_eq p hpm,
    Metric.toNat_add_of_ne_infinite hfin]
  exact Nat.le_refl _

/-- An edge that ends a least walk to a node, and costs something, has brought to the node what it
could bring before the node was settled. -/
theorem exists_offer [t.Listed] (hne : r.node ≠ root) {a : Arc} {as : List Arc}
    (hw : LeastWalk t l root (as ++ [a]) r.node) (hpos : 0 < (a.edge.cost l).toNat) :
    ∃ p ∈ pre, p.node = a.edge.source.node ∧
      t.contribution l p.node p.nexthops a { direct := directNexthops t l root r.node } ∈
        offers t l root r.node r.metric pre := by
  have hrm : r ∈ (f.roots.read root).settled :=
    hrow ▸ List.mem_append_right _ List.mem_cons_self
  obtain ⟨hwalk, usable, htarget⟩ := hw.walk.of_concat
  have hcost := hw.cost_eq ((hexact.mem_iff r.node).1 (List.mem_map_of_mem hrm))
  rw [← hexact.metric_eq r hrm, cost_append, cost, cost, Nat.add_zero] at hcost
  have hlt := Metric.toNat_lt_of_ne_infinite (hexact.ne_infinite hrm)
  have hfin : t.leastMetric l root a.edge.source.node ≠ .infinite :=
    leastMetric_ne_infinite_iff.2 ⟨as, hwalk, by omega⟩
  obtain ⟨p, hp, hnode⟩ := List.mem_map.1 ((hexact.mem_iff _).2 hfin)
  have hmetric : cost l as = p.metric.toNat := by
    rw [hw.of_concat.cost_eq hfin, hexact.metric_eq p hp, hnode]
  have htight : p.metric + a.edge.cost l = r.metric := by
    refine Metric.toNat_inj.1 ?_
    rw [Metric.toNat_infinite] at hlt
    rw [Metric.toNat_add]
    omega
  have hbefore : p ∈ pre := by
    refine mem_before (hrow ▸ hexact.sorted) (hrow ▸ hp) ?_
    rw [Metric.lt_iff]
    omega
  refine ⟨p, hbefore, hnode, mem_offers.2 ⟨p, hbefore, a, ?_, htarget, htight, rfl⟩⟩
  exact mem_outArcs.2 ⟨usable, hnode.symm, htarget ▸ hne⟩

end

end LinkState.Search
