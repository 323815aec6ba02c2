import LinkState.Proofs.Frontier.PriorityQueue
import LinkState.Proofs.Topology.Reachability
import LinkState.ShortestPath.Search
import Mathlib.Data.Nat.Basic

/-!
# What a search keeps

Between two steps of a search every node that the root can reach is settled, queued or untouched.
`Invariant` says so, with what holds of the labels of each: a settled node keeps the label with
which it left the frontier, no queued node has a lesser metric than a settled one, and an edge that
leaves a settled node and has been relaxed offers its far end no lesser metric than the label has.
The edges of the node settled last that are still to be relaxed are named as `pending`.

* `Relaxed` says all that relaxing an edge can do (`relax_eq_ok`).
* `Relaxing.relax` and `Invariant.settle` are the two steps: each one succeeds and keeps the
  invariant.
* `Derived` is the least relation between nodes, metrics and next hops that the steps respect, so
  what an induction on it shows holds of every label (`Invariant.derived`).
-/

namespace LinkState.Search

open LinkState.Topology

variable (t : Topology) (l : Level) (root : NodeId)

/-- The edges that are relaxed when a node is settled. -/
def outArcs (n : NodeId) : List Arc :=
  (t.usableArcs l n).filter fun a => a.edge.target.node != root

/-- The direct next hops that a search gives a node at its start. -/
def directNexthops (n : NodeId) : Nexthops :=
  (t.logicalNeighbours root l).foldl
    (fun d nb => if nb.node = n then d.insert nb.out.edge.nexthopKind nb.nexthop else d) .empty

/-- The metrics and next hops that a search can give a node: the root has none, an edge brings what
`contribution` says to its far end, and paths of one metric share their next hops. -/
inductive Derived : NodeId → Metric → Nexthops → Prop
  | root : Derived root 0 .empty
  | step {a : Arc} {m : Metric} {nexthops : Nexthops} (far : Label)
      (h : Derived a.edge.source.node m nexthops) (usable : Usable t l a)
      (ne_root : a.edge.target.node ≠ root)
      (direct : far.direct = directNexthops t l root a.edge.target.node)
      (finite : m + a.edge.cost l ≠ .infinite) :
    Derived a.edge.target.node (m + a.edge.cost l)
      (t.contribution l a.edge.source.node nexthops a far)
  | merge {n : NodeId} {m : Metric} {nexthops nexthops' : Nexthops} (h : Derived n m nexthops)
      (h' : Derived n m nexthops') : Derived n m (nexthops.extend nexthops')

/-- What holds between two steps of a search. -/
structure Invariant (pending : List Arc) (s : Search) : Prop where
  valid : s.frontier.Valid (t.rank l s.labels)
  queued_joined : ∀ n, s.frontier.contains n = true → Joined t l root n
  contains_eq : ∀ n, Joined t l root n → s.frontier.contains n = (s.labels.read n).queued
  direct : ∀ n, Joined t l root n → (s.labels.read n).direct = directNexthops t l root n
  root_label : (s.labels.read root).metric = 0 ∧ (s.labels.read root).nexthops = .empty
  settled_joined : ∀ r ∈ s.settled, Joined t l root r.node
  settled_label : ∀ r ∈ s.settled, (s.labels.read r.node).metric = r.metric ∧
    (s.labels.read r.node).nexthops = r.nexthops ∧ (s.labels.read r.node).queued = false
  settled_nodup : (s.settled.map (·.node)).Nodup
  settled_sorted : s.settled.Pairwise fun r r' => r.metric ≤ r'.metric
  settled_le : ∀ r ∈ s.settled, ∀ n, s.frontier.contains n = true →
    r.metric ≤ (s.labels.read n).metric
  reached : ∀ n, Joined t l root n → ((s.labels.read n).metric ≠ .infinite ↔
    s.frontier.contains n = true ∨ n ∈ s.settled.map (·.node))
  derived : ∀ n, Joined t l root n → (s.labels.read n).metric ≠ .infinite →
    Derived t l root n (s.labels.read n).metric (s.labels.read n).nexthops
  relaxed : ∀ r ∈ s.settled, ∀ a ∈ outArcs t l root r.node, a ∉ pending →
    r.metric + a.edge.cost l ≠ .infinite →
      (s.labels.read a.edge.target.node).metric ≤ r.metric + a.edge.cost l

variable {t l root}

theorem mem_outArcs [t.Listed] {n : NodeId} {a : Arc} :
    a ∈ outArcs t l root n ↔ Usable t l a ∧ a.edge.source.node = n ∧ a.edge.target.node ≠ root := by
  rw [outArcs, List.mem_filter, mem_usableArcs, bne_iff_ne, and_assoc]

theorem adjacent_of_usable [t.Listed] {a : Arc} (h : Usable t l a) :
    Adjacent t l a.edge.source.node a.edge.target.node :=
  ⟨a, (mem_activeArcs t).2 ⟨h.stored, rfl, h.active⟩, rfl⟩

/-! ## Relaxing an edge -/

/-- What relaxing an edge does to a search. -/
inductive Relaxed (t : Topology) (l : Level) (origin : Result) (a : Arc) (s : Search) :
    Search → Prop
  /-- The path is too expensive. -/
  | exceeded (h : origin.metric + a.edge.cost l = .infinite) :
    Relaxed t l origin a s { s with exceeded := s.exceeded ++ [a.edge.target.node] }
  /-- A cheaper path is known, or one as cheap to a far end that has been settled. -/
  | kept (h : (s.labels.read a.edge.target.node).metric ≤ origin.metric + a.edge.cost l)
      (settled : (s.labels.read a.edge.target.node).metric = origin.metric + a.edge.cost l →
        (s.labels.read a.edge.target.node).queued = false) :
    Relaxed t l origin a s s
  /-- A path as cheap is known, and the far end is queued: the next hops are added. -/
  | tied (finite : origin.metric + a.edge.cost l ≠ .infinite)
      (h : (s.labels.read a.edge.target.node).metric = origin.metric + a.edge.cost l)
      (queued : (s.labels.read a.edge.target.node).queued = true) :
    Relaxed t l origin a s { s with
      labels := s.labels.write a.edge.target.node { s.labels.read a.edge.target.node with
        nexthops := (s.labels.read a.edge.target.node).nexthops.extend
          (t.contribution l origin.node origin.nexthops a (s.labels.read a.edge.target.node)) } }
  /-- The path is cheaper than what is known. -/
  | improved (h : origin.metric + a.edge.cost l < (s.labels.read a.edge.target.node).metric)
      (labels : Labels) (frontier : Frontier NodeId)
      (labels_eq : labels = s.labels.write a.edge.target.node
        { s.labels.read a.edge.target.node with
          metric := origin.metric + a.edge.cost l
          nexthops := t.contribution l origin.node origin.nexthops a
            (s.labels.read a.edge.target.node)
          queued := true })
      (enqueued : enqueue t l labels s.frontier a.edge.target.node
        (s.labels.read a.edge.target.node).queued = .ok frontier) :
    Relaxed t l origin a s { s with labels, frontier }

theorem relax_eq_ok {origin : Result} {s s' : Search} {a : Arc}
    (h : relax t l origin s a = .ok s') : Relaxed t l origin a s s' := by
  unfold relax at h
  dsimp only at h
  split at h
  · cases h
    exact .exceeded ‹_›
  rename_i hfin
  split at h
  · rename_i hlt
    cases h
    exact .kept (Nat.le_of_lt hlt) fun e => absurd hlt (e ▸ Nat.lt_irrefl _)
  rename_i hnlt
  split at h
  · rename_i heq
    split at h <;> cases h
    · exact .tied hfin heq.symm ‹_›
    · exact .kept (heq ▸ Nat.le_refl _) fun _ => Bool.eq_false_iff.2 ‹_›
  · rename_i hne
    have hlt : origin.metric + a.edge.cost l < (s.labels.read a.edge.target.node).metric := by
      have := Metric.toNat_inj.not.2 hne
      rw [Metric.lt_iff] at hnlt ⊢
      omega
    cases henq : enqueue t l _ s.frontier a.edge.target.node
        (s.labels.read a.edge.target.node).queued with
    | error e =>
      rw [henq] at h
      cases h
    | ok frontier =>
      rw [henq] at h
      cases h
      exact .improved hlt _ frontier rfl henq

theorem Relaxed.settled_eq {origin : Result} {s s' : Search} {a : Arc}
    (h : Relaxed t l origin a s s') : s'.settled = s.settled := by
  cases h <;> rfl

/-- Relaxing an edge touches no label but that of its far end. -/
theorem Relaxed.read_of_ne {origin : Result} {s s' : Search} {a : Arc} {n : NodeId}
    (h : Relaxed t l origin a s s') (hn : a.edge.target.node ≠ n) :
    s'.labels.read n = s.labels.read n := by
  cases h with
  | exceeded | kept => rfl
  | tied => rw [HandleMap.read_write, if_neg hn]
  | improved _ labels _ labels_eq => rw [labels_eq, HandleMap.read_write, if_neg hn]

/-- Relaxing an edge can only fail where the far end is put into the frontier. -/
theorem exists_relax_eq_ok {origin : Result} {s : Search} {a : Arc}
    (h : origin.metric + a.edge.cost l < (s.labels.read a.edge.target.node).metric →
      ∀ labels, labels = s.labels.write a.edge.target.node
        { s.labels.read a.edge.target.node with
          metric := origin.metric + a.edge.cost l
          nexthops := t.contribution l origin.node origin.nexthops a
            (s.labels.read a.edge.target.node)
          queued := true } →
      ∃ f, enqueue t l labels s.frontier a.edge.target.node
        (s.labels.read a.edge.target.node).queued = .ok f) :
    ∃ s', relax t l origin s a = .ok s' := by
  unfold relax
  dsimp only
  split
  · exact ⟨_, rfl⟩
  split
  · exact ⟨_, rfl⟩
  rename_i hnlt
  split
  · split <;> exact ⟨_, rfl⟩
  · rename_i hne
    have := Metric.toNat_inj.not.2 hne
    rw [Metric.lt_iff] at hnlt
    obtain ⟨f, hf⟩ := h (by rw [Metric.lt_iff]; omega) _ rfl
    exact ⟨_, by rw [hf]; rfl⟩

/-! ## Ranks -/

theorem rank_congr {labels labels' : Labels} {n : NodeId}
    (h : (labels'.read n).metric = (labels.read n).metric) :
    t.rank l labels' n = t.rank l labels n := by
  rw [Topology.rank, Topology.rank, h]

theorem metric_le_of_rank_le {labels : Labels} {n m : NodeId}
    (h : t.rank l labels n ≤ t.rank l labels m) :
    (labels.read n).metric ≤ (labels.read m).metric := by
  unfold Topology.rank at h
  rw [Metric.le_iff]
  split at h <;> split at h <;> omega

theorem rank_le_of_metric_le {labels labels' : Labels} {n : NodeId}
    (h : (labels'.read n).metric ≤ (labels.read n).metric) :
    t.rank l labels' n ≤ t.rank l labels n := by
  rw [Metric.le_iff] at h
  unfold Topology.rank
  omega

/-! ## Keeping the invariant while an edge is relaxed -/

variable {s : Search} {origin : Result} {a : Arc} {pending : List Arc} {n : NodeId}

/-- A queued node has not been settled. -/
theorem Invariant.ne_of_queued (h : Invariant t l root pending s)
    (hq : (s.labels.read n).queued = true) : ∀ r ∈ s.settled, r.node ≠ n := by
  rintro r hr rfl
  rw [(h.settled_label r hr).2.2] at hq
  cases hq

/-- A node just settled with an edge that is still to be relaxed. -/
structure Relaxing (t : Topology) (l : Level) (root : NodeId) (origin : Result) (a : Arc)
    (pending : List Arc) (s : Search) : Prop where
  invariant : Invariant t l root (a :: pending) s
  origin_mem : origin ∈ s.settled
  origin_last : ∀ r ∈ s.settled, r.metric ≤ origin.metric
  mem : a ∈ outArcs t l root origin.node

namespace Relaxing

theorem joined [t.Listed] (h : Relaxing t l root origin a pending s) :
    Joined t l root a.edge.target.node := by
  obtain ⟨hu, hsrc, -⟩ := mem_outArcs.1 h.mem
  exact (h.invariant.settled_joined _ h.origin_mem).tail (hsrc ▸ adjacent_of_usable hu)

/-- Only the node just settled relaxes the edge. -/
theorem metric_eq [t.Listed] (h : Relaxing t l root origin a pending s) {r : Result}
    (hr : r ∈ s.settled) (ha : a ∈ outArcs t l root r.node) : r.metric = origin.metric := by
  have hn : r.node = origin.node := by
    rw [← (mem_outArcs.1 ha).2.1, ← (mem_outArcs.1 h.mem).2.1]
  rw [← (h.invariant.settled_label r hr).1, ← (h.invariant.settled_label _ h.origin_mem).1, hn]

/-- The far end of a path that is an improvement has not been settled. -/
theorem not_settled (h : Relaxing t l root origin a pending s)
    (hlt : origin.metric + a.edge.cost l < (s.labels.read a.edge.target.node).metric) :
    ∀ r ∈ s.settled, r.node ≠ a.edge.target.node := by
  intro r hr e
  have hle := h.origin_last r hr
  rw [← (h.invariant.settled_label r hr).1, e] at hle
  exact absurd hlt (Nat.not_lt.2 (Nat.le_trans hle (Metric.le_add _ _)))

/-- What the edge brings to its far end can be derived. -/
theorem derived [t.Listed] (h : Relaxing t l root origin a pending s)
    (hfin : origin.metric + a.edge.cost l ≠ .infinite) :
    Derived t l root a.edge.target.node (origin.metric + a.edge.cost l)
      (t.contribution l origin.node origin.nexthops a (s.labels.read a.edge.target.node)) := by
  obtain ⟨hu, hsrc, hroot⟩ := mem_outArcs.1 h.mem
  obtain ⟨hmetric, hnexthops, -⟩ := h.invariant.settled_label _ h.origin_mem
  have horigin : (s.labels.read origin.node).metric ≠ .infinite := by
    rintro e
    rw [← hmetric, e, Metric.infinite_add] at hfin
    exact hfin rfl
  have hder := h.invariant.derived _ (h.invariant.settled_joined _ h.origin_mem) horigin
  rw [hmetric, hnexthops, ← hsrc] at hder
  rw [← hsrc]
  exact .step _ hder hu hroot (h.invariant.direct _ h.joined) hfin

/-- Once the label of the far end is as good as the path, the edge has been relaxed. -/
theorem done [t.Listed] (h : Relaxing t l root origin a pending s)
    (hle : origin.metric + a.edge.cost l ≠ .infinite →
      (s.labels.read a.edge.target.node).metric ≤ origin.metric + a.edge.cost l) :
    Invariant t l root pending s := by
  refine { h.invariant with relaxed := fun r hr b hb hbp hfin => ?_ }
  by_cases hba : b = a
  · subst hba
    rw [h.metric_eq hr hb] at hfin ⊢
    exact hle hfin
  · exact h.invariant.relaxed r hr b hb (by simp [hba, hbp]) hfin

/-- The far end of an improved path can be put into the frontier or moved up there. -/
theorem enqueue_eq_ok [t.Listed] (h : Relaxing t l root origin a pending s) {labels : Labels}
    {label : Label} (hlabels : labels = s.labels.write a.edge.target.node label)
    (hlt : label.metric < (s.labels.read a.edge.target.node).metric) :
    ∃ f, enqueue t l labels s.frontier a.edge.target.node
        (s.labels.read a.edge.target.node).queued = .ok f ∧ f.Valid (t.rank l labels) ∧
      ∀ n, f.contains n = true ↔ n = a.edge.target.node ∨ s.frontier.contains n = true := by
  have hread : ∀ n, n ≠ a.edge.target.node → labels.read n = s.labels.read n := by
    intro n hn
    rw [hlabels, HandleMap.read_write, if_neg hn.symm]
  have hself : labels.read a.edge.target.node = label := by
    rw [hlabels, HandleMap.read_write, if_pos rfl]
  have hrank : ∀ n, n ≠ a.edge.target.node → t.rank l labels n = t.rank l s.labels n := fun n hn =>
    rank_congr (by rw [hread n hn])
  have hcontains := h.invariant.contains_eq _ h.joined
  cases hq : (s.labels.read a.edge.target.node).queued with
  | true =>
    rw [hq] at hcontains
    obtain ⟨f, hf, hvalid, hmem⟩ := Frontier.decreaseKey_valid h.invariant.valid hcontains
      (fun n hn _ => hrank n hn) (rank_le_of_metric_le (by rw [hself]; exact Nat.le_of_lt hlt))
    refine ⟨f, ?_, hvalid, fun n => ?_⟩
    · simp only [enqueue, if_true, hf]
      rfl
    · rw [hmem]
      exact ⟨.inr, fun hn => hn.elim (fun e => e ▸ hcontains) id⟩
  | false =>
    rw [hq] at hcontains
    have hne : ∀ n, s.frontier.contains n = true → n ≠ a.edge.target.node := by
      rintro n hn rfl
      rw [hcontains] at hn
      cases hn
    obtain ⟨f, hf, hvalid, hmem⟩ := Frontier.push_valid (h.invariant.valid.congr
      fun n hn => hrank n (hne n hn)) hcontains
    refine ⟨f, ?_, hvalid, hmem⟩
    simp only [enqueue, Bool.false_eq_true, if_false, hf]
    rfl

/-- Giving the far end the metric of the path keeps the invariant, if no lesser one is known and the
far end has not been settled. -/
theorem relabelled [t.Listed] (h : Relaxing t l root origin a pending s) {nexthops : Nexthops}
    (hle : origin.metric + a.edge.cost l ≤ (s.labels.read a.edge.target.node).metric)
    (hfin : origin.metric + a.edge.cost l ≠ .infinite)
    (hnew : ∀ r ∈ s.settled, r.node ≠ a.edge.target.node)
    (hder : Derived t l root a.edge.target.node (origin.metric + a.edge.cost l) nexthops)
    {labels : Labels} {frontier : Frontier NodeId}
    (hlabels : labels = s.labels.write a.edge.target.node
      { s.labels.read a.edge.target.node with
        metric := origin.metric + a.edge.cost l, nexthops, queued := true })
    (hvalid : frontier.Valid (t.rank l labels))
    (hmem : ∀ n, frontier.contains n = true ↔
      n = a.edge.target.node ∨ s.frontier.contains n = true) :
    Invariant t l root pending { s with labels, frontier } := by
  have hi := h.invariant
  have hread : ∀ n, labels.read n = if a.edge.target.node = n then
      { s.labels.read n with metric := origin.metric + a.edge.cost l, nexthops, queued := true }
      else s.labels.read n := fun n =>
    hlabels ▸ HandleMap.read_update s.labels a.edge.target.node n fun label =>
      { label with metric := origin.metric + a.edge.cost l, nexthops, queued := true }
  have hself := (hread a.edge.target.node).trans (if_pos rfl)
  have hother : ∀ n, n ≠ a.edge.target.node → labels.read n = s.labels.read n := fun n hn =>
    (hread n).trans (if_neg hn.symm)
  have hmetric : ∀ n, (labels.read n).metric ≤ (s.labels.read n).metric := by
    intro n
    by_cases e : n = a.edge.target.node
    · rw [e, hself]
      exact hle
    · rw [hother n e]
      exact Nat.le_refl _
  exact { hi with
    valid := hvalid
    queued_joined := by
      intro n hn
      rcases (hmem n).1 hn with rfl | hn
      · exact h.joined
      · exact hi.queued_joined n hn
    contains_eq := by
      intro n hn
      rw [Bool.eq_iff_iff, hmem, hi.contains_eq n hn]
      by_cases e : n = a.edge.target.node
      · simp [e, hself]
      · simp [e, hother n e]
    direct := by
      intro n hn
      rw [← hi.direct n hn, hread]
      split <;> rfl
    root_label := by
      rw [hother root (mem_outArcs.1 h.mem).2.2.symm]
      exact hi.root_label
    settled_label := by
      intro r hr
      rw [hother r.node (hnew r hr)]
      exact hi.settled_label r hr
    settled_le := by
      intro r hr n hn
      by_cases e : n = a.edge.target.node
      · rw [e, hself]
        exact Nat.le_trans (h.origin_last r hr) (Metric.le_add _ _)
      · rw [hother n e]
        exact hi.settled_le r hr n (((hmem n).1 hn).resolve_left e)
    reached := by
      intro n hn
      rw [hmem]
      by_cases e : n = a.edge.target.node
      · rw [e, hself]
        exact ⟨fun _ => .inl (.inl rfl), fun _ => hfin⟩
      · rw [hother n e, hi.reached n hn]
        simp [e]
    derived := by
      intro n hn
      by_cases e : n = a.edge.target.node
      · rw [e, hself]
        exact fun _ => hder
      · rw [hother n e]
        exact hi.derived n hn
    relaxed := by
      intro r hr b hb hbp hfin
      by_cases hba : b = a
      · subst hba
        rw [hself, h.metric_eq hr hb]
        exact Nat.le_refl _
      · exact Nat.le_trans (hmetric _) (hi.relaxed r hr b hb (by simp [hba, hbp]) hfin) }

/-- Adding next hops to a queued node keeps the invariant. -/
theorem tied [t.Listed] (h : Relaxing t l root origin a pending s) {nexthops : Nexthops}
    (heq : (s.labels.read a.edge.target.node).metric = origin.metric + a.edge.cost l)
    (hfin : origin.metric + a.edge.cost l ≠ .infinite)
    (hq : (s.labels.read a.edge.target.node).queued = true)
    (hder : Derived t l root a.edge.target.node (origin.metric + a.edge.cost l) nexthops) :
    Invariant t l root pending { s with
      labels := s.labels.write a.edge.target.node
        { s.labels.read a.edge.target.node with nexthops } } := by
  have hi := h.invariant
  refine h.relabelled (heq ▸ Nat.le_refl _) hfin (hi.ne_of_queued hq) hder
    (by rw [← heq, ← hq]) (hi.valid.congr fun n _ => rank_congr ?_)
    fun n => ⟨.inr, fun hn => hn.elim (fun e => ?_) id⟩
  · rw [HandleMap.read_write]
    split
    · rename_i e
      rw [e]
    · rfl
  · rw [e, hi.contains_eq _ h.joined, hq]

/-- **Relaxing an edge succeeds and keeps the invariant.** -/
theorem relax [t.Listed] (h : Relaxing t l root origin a pending s) :
    ∃ s', Search.relax t l origin s a = .ok s' ∧ Relaxed t l origin a s s' ∧
      Invariant t l root pending s' := by
  obtain ⟨s', hs'⟩ := exists_relax_eq_ok (t := t) (l := l) fun hlt labels hlabels =>
    (h.enqueue_eq_ok hlabels hlt).imp fun _ hf => hf.1
  refine ⟨s', hs', relax_eq_ok hs', ?_⟩
  cases relax_eq_ok hs' with
  | exceeded e => exact { h.done (absurd e) with }
  | kept hle => exact h.done fun _ => hle
  | tied hfin heq hq =>
    have hknown := h.invariant.derived _ h.joined (heq ▸ hfin)
    exact h.tied heq hfin hq (.merge (heq ▸ hknown) (h.derived hfin))
  | improved hlt labels frontier hlabels henq =>
    obtain ⟨f, hf, hvalid, hmem⟩ := h.enqueue_eq_ok hlabels hlt
    rw [henq] at hf
    cases hf
    have hfin := Metric.ne_infinite_of_lt hlt
    exact h.relabelled (Nat.le_of_lt hlt) hfin (h.not_settled hlt) (h.derived hfin) hlabels hvalid
      hmem

end Relaxing

/-! ## Settling a node -/

/-- What the label of a node says of it. -/
def resultOf (s : Search) (n : NodeId) : Result :=
  ⟨n, (s.labels.read n).metric, (s.labels.read n).nexthops⟩

/-- The search once a node that has left the frontier is recorded, before its edges are relaxed. -/
def record (s : Search) (n : NodeId) (frontier : Frontier NodeId) : Search :=
  { s with
    labels := s.labels.write n { s.labels.read n with queued := false }
    frontier
    settled := s.settled ++ [s.resultOf n] }

variable {frontier : Frontier NodeId}

theorem settle_eq (hq : (s.labels.read n).queued = true) :
    settle t l root { s with frontier } n =
      (outArcs t l root n).foldlM (Search.relax t l (s.resultOf n)) (s.record n frontier) := by
  unfold settle
  dsimp only
  rw [if_pos hq]
  rfl

theorem read_record (m : NodeId) : (s.record n frontier).labels.read m =
    if n = m then { s.labels.read m with queued := false } else s.labels.read m :=
  HandleMap.read_update s.labels n m fun label => { label with queued := false }

theorem metric_record (m : NodeId) :
    ((s.record n frontier).labels.read m).metric = (s.labels.read m).metric := by
  rw [read_record]
  split <;> rfl

/-- Recording the node at the top of the frontier keeps the invariant, with the edges of that node
still to be relaxed. -/
theorem Invariant.record (h : Invariant t l root [] s)
    (hpop : s.frontier.popMin? (t.rank l s.labels) = some (n, frontier)) :
    Invariant t l root (outArcs t l root n) (s.record n frontier) ∧
      (s.labels.read n).queued = true ∧ ∀ r ∈ s.settled, r.metric ≤ (s.resultOf n).metric := by
  obtain ⟨hn, hleast, hvalid, hmem⟩ := Frontier.popMin?_valid h.valid hpop
  have hjoined := h.queued_joined n hn
  have hq : (s.labels.read n).queued = true := (h.contains_eq n hjoined) ▸ hn
  have hnew := h.ne_of_queued hq
  have hnexthops : ∀ m,
      ((s.record n frontier).labels.read m).nexthops = (s.labels.read m).nexthops := by
    intro m
    rw [read_record]
    split <;> rfl
  have hsettled : ∀ r, r ∈ (s.record n frontier).settled ↔ r ∈ s.settled ∨ r = s.resultOf n := by
    intro r
    simp [Search.record]
  have hle := fun r hr => h.settled_le r hr n hn
  refine ⟨?_, hq, hle⟩
  exact {
    valid := hvalid.congr fun m _ => rank_congr (metric_record m)
    queued_joined := fun m hm => h.queued_joined m ((hmem m).1 hm).1
    contains_eq := by
      intro m hm
      rw [Bool.eq_iff_iff, read_record]
      refine (hmem m).trans ?_
      rw [h.contains_eq m hm]
      by_cases e : n = m
      · simp [e]
      · simp [e, Ne.symm e]
    direct := by
      intro m hm
      rw [← h.direct m hm, read_record]
      split <;> rfl
    root_label := by
      rw [metric_record, hnexthops]
      exact h.root_label
    settled_joined := by
      intro r hr
      rcases (hsettled r).1 hr with hr | rfl
      · exact h.settled_joined r hr
      · exact hjoined
    settled_label := by
      intro r hr
      rcases (hsettled r).1 hr with hr | rfl
      · rw [read_record, if_neg (hnew r hr).symm]
        exact h.settled_label r hr
      · rw [read_record]
        simp [resultOf]
    settled_nodup := by
      rw [Search.record, List.map_append, List.nodup_append]
      refine ⟨h.settled_nodup, by simp, fun m hm m' hm' => ?_⟩
      obtain ⟨r, hr, rfl⟩ := List.mem_map.1 hm
      rw [List.map_singleton, List.mem_singleton] at hm'
      exact hm' ▸ hnew r hr
    settled_sorted := by
      rw [Search.record, List.pairwise_append]
      refine ⟨h.settled_sorted, List.pairwise_singleton .., fun r hr r' hr' => ?_⟩
      exact List.mem_singleton.1 hr' ▸ hle r hr
    settled_le := by
      intro r hr m hm
      rw [metric_record]
      have hm := ((hmem m).1 hm).1
      rcases (hsettled r).1 hr with hr | rfl
      · exact h.settled_le r hr m hm
      · exact metric_le_of_rank_le (hleast m hm)
    reached := by
      intro m hm
      rw [metric_record, h.reached m hm, Search.record, List.map_append, List.mem_append]
      change _ ↔ frontier.contains m = true ∨ _
      rw [hmem]
      by_cases e : m = n
      · simp [e, resultOf, hn]
      · simp [e, resultOf]
    derived := by
      intro m hm hfin
      rw [metric_record] at hfin ⊢
      rw [hnexthops]
      exact h.derived m hm hfin
    relaxed := by
      intro r hr a ha hpending hfin
      rw [metric_record]
      rcases (hsettled r).1 hr with hr | rfl
      · exact h.relaxed r hr a ha (by simp) hfin
      · exact absurd ha hpending }

/-- Relaxing all pending edges of a node just settled. -/
theorem Invariant.relaxAll [t.Listed] {arcs : List Arc} (h : Invariant t l root arcs s)
    (hmem : origin ∈ s.settled) (hlast : ∀ r ∈ s.settled, r.metric ≤ origin.metric)
    (harcs : ∀ a ∈ arcs, a ∈ outArcs t l root origin.node) :
    ∃ s', arcs.foldlM (Search.relax t l origin) s = .ok s' ∧ Invariant t l root [] s' ∧
      s'.settled = s.settled := by
  induction arcs generalizing s with
  | nil => exact ⟨s, rfl, h, rfl⟩
  | cons a arcs ih =>
    obtain ⟨s₁, hs₁, hrelaxed, h₁⟩ :=
      Relaxing.relax ⟨h, hmem, hlast, harcs a List.mem_cons_self⟩
    have hsettled := hrelaxed.settled_eq
    obtain ⟨s', hs', h', hsettled'⟩ := ih h₁ (hsettled ▸ hmem) (hsettled ▸ hlast)
      fun b hb => harcs b (List.mem_cons_of_mem _ hb)
    refine ⟨s', ?_, h', hsettled'.trans hsettled⟩
    rw [List.foldlM_cons, hs₁]
    exact hs'

/-- **Settling the node at the top of the frontier succeeds and keeps the invariant.** -/
theorem Invariant.settle [t.Listed] (h : Invariant t l root [] s)
    (hpop : s.frontier.popMin? (t.rank l s.labels) = some (n, frontier)) :
    ∃ s', Search.settle t l root { s with frontier } n = .ok s' ∧ Invariant t l root [] s' ∧
      s'.settled = s.settled ++ [s.resultOf n] := by
  obtain ⟨h', hq, hle⟩ := h.record hpop
  rw [settle_eq hq]
  refine h'.relaxAll (by simp [Search.record]) (fun r hr => ?_) fun a ha => ha
  rcases List.mem_append.1 hr with hr | hr
  · exact hle r hr
  · exact List.mem_singleton.1 hr ▸ Nat.le_refl _

end LinkState.Search
