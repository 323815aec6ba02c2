import LinkState.Proofs.Compute
import LinkState.Proofs.ShortestPath.Outcome

/-!
# The course of a search

A search is followed here from one moment to the next, without the fuel that its loop is given. A
`Moment` is either between two nodes or among the edges of the node settled last, a `Step` takes a
node from the frontier or relaxes one edge, and the `Course` of a search are the moments that it
comes to, with the moves that it has made in the frontier. The loop follows the course
(`course_of_run`).

`Underway` is what holds at every moment, whatever the labels were before the search.

Whether a node is in the frontier is kept twice, by the frontier and by a mark in the label, and a
search looks at the mark. `Account` says that the two agree at every moment, of nodes that the root
cannot reach as well, if no node is marked at the start; that the nodes which have been pushed are
those in the frontier and those which have been settled, each once; and that the nodes which have
left the frontier are those which have been settled. Every step keeps the account (`Account.step`),
and a step can be made until the frontier is empty (`Account.proceeds`). So a search is `Orderly`.
-/

namespace LinkState.Search

open LinkState.Topology

/-! ## Moments and steps -/

/-- What a search does to the frontier. -/
inductive Move where
  | push (n : NodeId)
  | raise (n : NodeId)
  | pop (n : NodeId)

/-- The nodes that are put into the frontier, in order. -/
def pushes (moves : List Move) : List NodeId :=
  moves.filterMap fun
    | .push n => some n
    | _ => none

/-- The nodes that leave the frontier, in order. -/
def pops (moves : List Move) : List NodeId :=
  moves.filterMap fun
    | .pop n => some n
    | _ => none

theorem pushes_append (moves moves' : List Move) :
    pushes (moves ++ moves') = pushes moves ++ pushes moves' := List.filterMap_append

theorem pops_append (moves moves' : List Move) :
    pops (moves ++ moves') = pops moves ++ pops moves' := List.filterMap_append

/-- A moment of a search, with the node settled last and those of its edges that are still to be
relaxed. -/
structure Moment where
  search : Search
  origin : Result
  pending : List Arc

variable (t : Topology) (l : Level) (root : NodeId)

/-- A step of a search from one moment to the next, with what it does to the frontier. -/
inductive Step : Moment → List Move → Moment → Prop
  /-- The node at the top of the frontier, which is marked, is settled. -/
  | pop {s : Search} {origin : Result} {n : NodeId} {frontier : Frontier NodeId}
      (popped : s.frontier.popMin? (t.rank l s.labels) = some (n, frontier))
      (marked : (s.labels.read n).queued = true) :
    Step ⟨s, origin, []⟩ [.pop n] ⟨s.record n frontier, s.resultOf n, outArcs t l root n⟩
  /-- An edge is relaxed that does not offer a cheaper path. -/
  | still {s s' : Search} {origin : Result} {a : Arc} {arcs : List Arc}
      (le : (s.labels.read a.edge.target.node).metric ≤ origin.metric + a.edge.cost l)
      (relaxed : relax t l origin s a = .ok s') (same : s'.frontier = s.frontier) :
    Step ⟨s, origin, a :: arcs⟩ [] ⟨s', origin, arcs⟩
  /-- An edge offers a cheaper path, and its far end, which is not marked, is put into the
  frontier. -/
  | push {s s' : Search} {origin : Result} {a : Arc} {arcs : List Arc}
      (lt : origin.metric + a.edge.cost l < (s.labels.read a.edge.target.node).metric)
      (unmarked : (s.labels.read a.edge.target.node).queued = false)
      (relaxed : relax t l origin s a = .ok s')
      (pushed : s.frontier.push (t.rank l s'.labels) a.edge.target.node = .ok s'.frontier) :
    Step ⟨s, origin, a :: arcs⟩ [.push a.edge.target.node] ⟨s', origin, arcs⟩
  /-- An edge offers a cheaper path, and its far end, which is marked, moves up in the frontier. -/
  | raise {s s' : Search} {origin : Result} {a : Arc} {arcs : List Arc}
      (lt : origin.metric + a.edge.cost l < (s.labels.read a.edge.target.node).metric)
      (marked : (s.labels.read a.edge.target.node).queued = true)
      (relaxed : relax t l origin s a = .ok s')
      (raised : s.frontier.decreaseKey (t.rank l s'.labels) a.edge.target.node =
        .ok s'.frontier) :
    Step ⟨s, origin, a :: arcs⟩ [.raise a.edge.target.node] ⟨s', origin, arcs⟩

/-- The moments that a search comes to, each with what has been done to the frontier until then. -/
inductive Course (labels : Labels) (frontier : Frontier NodeId) : List Move → Moment → Prop
  | start {f : Frontier NodeId}
      (pushed : frontier.clear.push (t.rank l (start t l root labels)) root = .ok f) :
    Course labels frontier [.push root]
      ⟨{ labels := start t l root labels, frontier := f }, ⟨root, 0, .empty⟩, []⟩
  | step {moves moves' : List Move} {m m' : Moment} (h : Course labels frontier moves m)
      (step : Step t l root m moves' m') : Course labels frontier (moves ++ moves') m'

variable {t l root}
variable {s s' : Search} {origin : Result} {a : Arc} {arcs : List Arc} {n : NodeId}
  {m m' : Moment} {moves moves' : List Move} {labels : Labels} {frontier f : Frontier NodeId}

/-! ## A search follows its course -/

/-- Relaxing an edge is a step. -/
theorem exists_step (h : relax t l origin s a = .ok s') (arcs : List Arc) :
    ∃ moves, Step t l root ⟨s, origin, a :: arcs⟩ moves ⟨s', origin, arcs⟩ := by
  cases relax_eq_ok h with
  | exceeded e => exact ⟨_, .still (e ▸ Metric.toNat_le _) h rfl⟩
  | kept le => exact ⟨_, .still le h rfl⟩
  | tied _ e => exact ⟨_, .still (e ▸ Nat.le_refl _) h rfl⟩
  | improved lt labels f _ enqueued =>
    rw [enqueue_eq_ok] at enqueued
    cases hmark : (s.labels.read a.edge.target.node).queued with
    | true =>
      rw [hmark, if_pos rfl] at enqueued
      exact ⟨_, .raise lt hmark h enqueued⟩
    | false =>
      rw [hmark, if_neg Bool.false_ne_true] at enqueued
      exact ⟨_, .push lt hmark h enqueued⟩

theorem Course.relaxAll (h : Course t l root labels frontier moves ⟨s, origin, arcs⟩)
    (hs : arcs.foldlM (relax t l origin) s = .ok s') :
    ∃ moves', Course t l root labels frontier moves' ⟨s', origin, []⟩ := by
  induction arcs generalizing s moves with
  | nil =>
    cases hs
    exact ⟨moves, h⟩
  | cons a arcs ih =>
    rw [List.foldlM_cons] at hs
    obtain ⟨s₁, hs₁, hs⟩ := except_bind_eq_ok.1 hs
    obtain ⟨_, hstep⟩ := exists_step hs₁ arcs
    exact ih (h.step hstep) hs

theorem Course.settle (h : Course t l root labels frontier moves ⟨s, origin, []⟩)
    (hpop : s.frontier.popMin? (t.rank l s.labels) = some (n, f))
    (hs : settle t l root { s with frontier := f } n = .ok s') :
    ∃ moves' origin', Course t l root labels frontier moves' ⟨s', origin', []⟩ := by
  cases hmark : (s.labels.read n).queued with
  | true =>
    rw [settle_eq hmark] at hs
    obtain ⟨moves', h'⟩ := (h.step (.pop hpop hmark)).relaxAll hs
    exact ⟨moves', _, h'⟩
  | false =>
    unfold Search.settle at hs
    dsimp only at hs
    rw [hmark, if_neg Bool.false_ne_true] at hs
    cases hs

theorem Course.settleAll {fuel : Nat}
    (h : Course t l root labels frontier moves ⟨s, origin, []⟩)
    (hs : settleAll t l root fuel s = .ok s') :
    ∃ moves' origin', Course t l root labels frontier moves' ⟨s', origin', []⟩ := by
  induction fuel generalizing s origin moves with
  | zero =>
    cases hs
    exact ⟨moves, origin, h⟩
  | succ fuel ih =>
    unfold Search.settleAll at hs
    split at hs
    · cases hs
      exact ⟨moves, origin, h⟩
    · rename_i n f hpop
      obtain ⟨s₁, hs₁, hs⟩ := except_bind_eq_ok.1 hs
      obtain ⟨_, _, h₁⟩ := h.settle hpop hs₁
      exact ih h₁ hs

/-- **A search follows its course.** -/
theorem course_of_run (h : run t l root labels frontier = .ok s) :
    ∃ moves origin, Course t l root labels frontier moves ⟨s, origin, []⟩ := by
  unfold run at h
  split at h
  · obtain ⟨f, hf, h⟩ := except_bind_eq_ok.1 h
    cases hpush : frontier.clear.push (t.rank l (start t l root labels)) root with
    | error misuse =>
      rw [hpush] at hf
      cases hf
    | ok f' =>
      rw [hpush] at hf
      cases hf
      exact (Course.start hpush).settleAll h
  · cases h

/-- The nodes that have left the frontier are those that have been settled, in this order. -/
theorem Course.pops_eq (h : Course t l root labels frontier moves m) :
    pops moves = m.search.settled.map (·.node) := by
  induction h with
  | start => rfl
  | step _ step ih =>
    rw [pops_append, ih]
    cases step with
    | pop => simp [pops, record, resultOf]
    | still _ relaxed | push _ _ relaxed | raise _ _ relaxed =>
      rw [(relax_eq_ok relaxed).settled_eq]
      simp [pops]

/-! ## What holds at every moment -/

/-- What holds at a moment of a search, whatever the labels were before it. -/
structure Underway (t : Topology) (l : Level) (root : NodeId) (m : Moment) : Prop where
  invariant : Invariant t l root m.pending m.search
  origin_mem : m.pending ≠ [] → m.origin ∈ m.search.settled
  origin_last : m.pending ≠ [] → ∀ r ∈ m.search.settled, r.metric ≤ m.origin.metric
  pending_mem : ∀ a ∈ m.pending, a ∈ outArcs t l root m.origin.node

namespace Underway

theorem relaxing (h : Underway t l root ⟨s, origin, a :: arcs⟩) :
    Relaxing t l root origin a arcs s where
  invariant := h.invariant
  origin_mem := h.origin_mem (List.cons_ne_nil _ _)
  origin_last := h.origin_last (List.cons_ne_nil _ _)
  mem := h.pending_mem a List.mem_cons_self

theorem relaxed [t.Listed] (h : Underway t l root ⟨s, origin, a :: arcs⟩)
    (hs : Search.relax t l origin s a = .ok s') : Underway t l root ⟨s', origin, arcs⟩ := by
  obtain ⟨s₁, hs₁, hrelaxed, hinvariant⟩ := h.relaxing.relax
  cases hs₁.symm.trans hs
  have hsettled : s'.settled = s.settled := hrelaxed.settled_eq
  exact {
    invariant := hinvariant
    origin_mem := fun _ => hsettled ▸ h.relaxing.origin_mem
    origin_last := fun _ => hsettled ▸ h.relaxing.origin_last
    pending_mem := fun b hb => h.pending_mem b (List.mem_cons_of_mem _ hb) }

theorem popped (h : Underway t l root ⟨s, origin, []⟩)
    (hpop : s.frontier.popMin? (t.rank l s.labels) = some (n, f)) :
    Underway t l root ⟨s.record n f, s.resultOf n, outArcs t l root n⟩ := by
  obtain ⟨hinvariant, -, hle⟩ := h.invariant.record hpop
  exact {
    invariant := hinvariant
    origin_mem := fun _ => List.mem_append_right _ (List.mem_singleton_self _)
    origin_last := fun _ r hr => by
      rcases List.mem_append.1 hr with hr | hr
      · exact hle r hr
      · exact List.mem_singleton.1 hr ▸ Nat.le_refl _
    pending_mem := fun a ha => ha }

/-- Every step leaves a search under way. -/
theorem step [t.Listed] (h : Underway t l root m) (hstep : Step t l root m moves m') :
    Underway t l root m' := by
  cases hstep with
  | pop popped => exact h.popped popped
  | still _ relaxed | push _ _ relaxed | raise _ _ relaxed => exact h.relaxed relaxed

end Underway

theorem underway_start (hw : t.WellFormed)
    (hf : frontier.clear.push (t.rank l (start t l root labels)) root = .ok f) :
    Underway t l root
      ⟨{ labels := start t l root labels, frontier := f }, ⟨root, 0, .empty⟩, []⟩ := by
  obtain ⟨g, hg, hinvariant⟩ := invariant_start hw l root labels frontier
  cases hf.symm.trans hg
  exact {
    invariant := hinvariant
    origin_mem := (absurd rfl ·)
    origin_last := (absurd rfl ·)
    pending_mem := by simp }

/-- A search is under way throughout its course. -/
theorem Course.underway (hw : t.WellFormed) (h : Course t l root labels frontier moves m) :
    Underway t l root m := by
  induction h with
  | start pushed => exact underway_start hw pushed
  | step _ step ih => exact ih.step step

/-! ## The account of a search -/

/-- What holds at a moment of a search, given the moves made until then. -/
structure Account (t : Topology) (l : Level) (root : NodeId) (moves : List Move)
    (m : Moment) : Prop extends Underway t l root m where
  /-- No node out of reach is marked. -/
  unmarked : ∀ n, ¬Joined t l root n → (m.search.labels.read n).queued = false
  pops_eq : pops moves = m.search.settled.map (·.node)
  pushes_nodup : (pushes moves).Nodup
  mem_pushes : ∀ n, n ∈ pushes moves ↔
    m.search.frontier.contains n = true ∨ n ∈ m.search.settled.map (·.node)

/-- **The marks agree with the frontier.** -/
theorem Account.contains_eq (h : Account t l root moves m) (n : NodeId) :
    m.search.frontier.contains n = (m.search.labels.read n).queued := by
  by_cases hn : Joined t l root n
  · exact h.invariant.contains_eq n hn
  · rw [h.unmarked n hn]
    exact Bool.eq_false_iff.2 fun hq => hn (h.invariant.queued_joined n hq)

/-- Where an edge offers a cheaper path, its far end is in the frontier afterwards. -/
theorem Relaxing.contains_iff [t.Listed] (h : Relaxing t l root origin a arcs s)
    (hlt : origin.metric + a.edge.cost l < (s.labels.read a.edge.target.node).metric)
    (hs : Search.relax t l origin s a = .ok s') (n : NodeId) :
    s'.frontier.contains n = true ↔ n = a.edge.target.node ∨ s.frontier.contains n = true := by
  cases relax_eq_ok hs with
  | exceeded e => exact absurd e (Metric.ne_infinite_of_lt hlt)
  | kept le => exact absurd hlt (Nat.not_lt.2 le)
  | tied _ e => exact absurd hlt (e ▸ Nat.lt_irrefl _)
  | improved _ labels f labels_eq enqueued =>
    obtain ⟨g, hg, -, hmem⟩ := h.enqueue_eq_ok labels_eq hlt
    rw [enqueued] at hg
    cases hg
    exact hmem n

/-- Relaxing an edge keeps the account, if what is known of the frontier is brought up to date. -/
theorem Account.relaxed [t.Listed] (h : Account t l root moves ⟨s, origin, a :: arcs⟩)
    (hs : relax t l origin s a = .ok s') (hpops : pops moves' = [])
    (hnodup : (pushes (moves ++ moves')).Nodup)
    (hmem : ∀ n, s'.frontier.contains n = true ↔
      n ∈ pushes moves' ∨ s.frontier.contains n = true) :
    Account t l root (moves ++ moves') ⟨s', origin, arcs⟩ := by
  have hrelaxed := relax_eq_ok hs
  have hsettled : s'.settled = s.settled := hrelaxed.settled_eq
  exact { h.toUnderway.relaxed hs with
    unmarked := fun n hn => by
      have hne : a.edge.target.node ≠ n := fun e => hn (e ▸ h.relaxing.joined)
      exact (congrArg Label.queued (hrelaxed.read_of_ne hne)).trans (h.unmarked n hn)
    pops_eq := by
      rw [pops_append, hpops, List.append_nil, h.pops_eq, hsettled]
    pushes_nodup := hnodup
    mem_pushes := fun n => by
      rw [pushes_append, List.mem_append, h.mem_pushes, hmem, hsettled]
      tauto }

/-- Settling the node at the top of the frontier keeps the account. -/
theorem Account.popped (h : Account t l root moves ⟨s, origin, []⟩)
    (hpop : s.frontier.popMin? (t.rank l s.labels) = some (n, f)) :
    Account t l root (moves ++ [.pop n])
      ⟨s.record n f, s.resultOf n, outArcs t l root n⟩ := by
  obtain ⟨hn, -, -, hmem⟩ := Frontier.popMin?_valid h.invariant.valid hpop
  have hsettled : (s.record n f).settled.map (·.node) = s.settled.map (·.node) ++ [n] :=
    List.map_append
  have hpushes : pushes (moves ++ [.pop n]) = pushes moves := by
    rw [pushes_append]
    exact List.append_nil _
  exact { h.toUnderway.popped hpop with
    unmarked := fun x hx => by
      rw [read_record]
      split
      · rfl
      · exact h.unmarked x hx
    pops_eq := by
      rw [pops_append, h.pops_eq, hsettled]
      rfl
    pushes_nodup := hpushes ▸ h.pushes_nodup
    mem_pushes := fun x => by
      rw [hpushes, h.mem_pushes, hsettled, List.mem_append, List.mem_singleton]
      change _ ↔ f.contains x = true ∨ _
      rw [hmem]
      by_cases e : x = n
      · simp [e, hn]
      · simp [e] }

/-- **Every step keeps the account.** -/
theorem Account.step [t.Listed] (h : Account t l root moves m) (hstep : Step t l root m moves' m') :
    Account t l root (moves ++ moves') m' := by
  cases hstep with
  | pop popped => exact h.popped popped
  | still _ relaxed same =>
    refine h.relaxed relaxed rfl ?_ fun n => by rw [same]; simp [pushes]
    rw [List.append_nil]
    exact h.pushes_nodup
  | @push s s' origin a arcs lt unmarked relaxed =>
    -- the far end is in the frontier for the first time
    have hnew : a.edge.target.node ∉ pushes moves := by
      rw [h.mem_pushes, not_or, h.contains_eq, unmarked]
      refine ⟨Bool.false_ne_true, fun hmem => ?_⟩
      obtain ⟨r, hr, e⟩ := List.mem_map.1 hmem
      exact h.relaxing.not_settled lt r hr e
    refine h.relaxed relaxed rfl ?_ fun n => ?_
    · rw [pushes_append]
      exact h.pushes_nodup.append (List.nodup_singleton _) (List.disjoint_singleton.2 hnew)
    · rw [h.relaxing.contains_iff lt relaxed]
      simp [pushes]
  | raise lt marked relaxed =>
    refine h.relaxed relaxed rfl ?_ fun n => ?_
    · rw [pushes_append]
      exact (List.append_nil _).symm ▸ h.pushes_nodup
    · rw [h.relaxing.contains_iff lt relaxed]
      refine ⟨fun hn => .inr (hn.elim (fun e => ?_) id), fun hn => .inr (hn.resolve_left ?_)⟩
      · rw [e, h.contains_eq, marked]
      · exact List.not_mem_nil

/-! ## From the start to the end -/

/-- A search marks nobody out of reach when it starts. -/
theorem queued_start (hw : t.WellFormed) (labels : Labels) (hn : ¬Joined t l root n) :
    ((start t l root labels).read n).queued = (labels.read n).queued := by
  have hne : root ≠ n := by
    rintro rfl
    exact hn .refl
  have hreset : (reset t l root labels).read n = labels.read n := by
    rw [reset, read_foldl_write, if_neg]
    exact fun hmem => hn ((contains_reachable_iff hw n).1 (Std.TreeSet.mem_toList.1 hmem))
  rw [start, HandleMap.read_update, if_neg hne, seed, read_foldl_seed]
  dsimp only
  rw [HandleMap.read_update, if_neg hne, hreset]

theorem account_start (hw : t.WellFormed) (hlabels : ∀ n, (labels.read n).queued = false)
    (hf : frontier.clear.push (t.rank l (start t l root labels)) root = .ok f) :
    Account t l root [.push root]
      ⟨{ labels := start t l root labels, frontier := f }, ⟨root, 0, .empty⟩, []⟩ := by
  have hclear : frontier.clear.Valid (t.rank l (start t l root labels)) :=
    Frontier.clear_valid frontier
  obtain ⟨g, hg, -, hmem⟩ := Frontier.push_valid hclear (Frontier.contains_clear frontier root)
  cases hf.symm.trans hg
  exact { underway_start hw hf with
    unmarked := fun n hn => (queued_start hw labels hn).trans (hlabels n)
    pops_eq := rfl
    pushes_nodup := List.nodup_singleton _
    mem_pushes := fun n => by
      change n ∈ [root] ↔ f.contains n = true ∨ n ∈ []
      rw [hmem, Frontier.contains_clear]
      simp }

/-- The account holds throughout the course of a search. -/
theorem Course.account (hw : t.WellFormed) (hlabels : ∀ n, (labels.read n).queued = false)
    (h : Course t l root labels frontier moves m) : Account t l root moves m := by
  induction h with
  | start pushed => exact account_start hw hlabels pushed
  | step _ step ih => exact ih.step step

/-- **A step can be made** unless all edges are relaxed and the frontier is empty. -/
theorem Account.proceeds [t.Listed] (h : Account t l root moves m) :
    m.pending = [] ∧ m.search.frontier.isEmpty = true ∨
      ∃ moves' m', Step t l root m moves' m' := by
  obtain ⟨s, origin, pending⟩ := m
  cases pending with
  | cons a arcs =>
    obtain ⟨s', hs', -⟩ := h.relaxing.relax
    exact .inr ((exists_step hs' arcs).imp fun _ hstep => ⟨_, hstep⟩)
  | nil =>
    cases hpop : s.frontier.popMin? (t.rank l s.labels) with
    | none =>
      refine .inl ⟨rfl, (Frontier.isEmpty_iff h.invariant.valid.indexed).2 ?_⟩
      exact (Frontier.popMin?_eq_none_iff h.invariant.valid.indexed).1 hpop
    | some top =>
      obtain ⟨n, f⟩ := top
      exact .inr ⟨_, _, .pop hpop (h.invariant.record hpop).2.1⟩

/-- No more nodes leave the frontier than there are. -/
theorem Account.length_pops_le (h : Account t l root moves m) (hw : t.WellFormed)
    (hroot : t.nodes.contains root = true) : (pops moves).length ≤ t.nodes.size := by
  have hnodup : (pops moves).Nodup := h.pops_eq ▸ h.invariant.settled_nodup
  refine Table.length_le_size hnodup fun n hn => ?_
  rw [h.pops_eq] at hn
  obtain ⟨r, hr, rfl⟩ := List.mem_map.1 hn
  exact (h.invariant.settled_joined r hr).contains hw hroot

/-- A search that has ended in good order. -/
structure Orderly (t : Topology) (l : Level) (root : NodeId) (labels : Labels)
    (frontier : Frontier NodeId) (s : Search) : Prop where
  /-- The search is at the end of its course. -/
  ends : ∃ moves origin, Course t l root labels frontier moves ⟨s, origin, []⟩
  isEmpty : s.frontier.isEmpty = true
  unmarked : ∀ n, (s.labels.read n).queued = false
  /-- At every moment the marks agree with the frontier. -/
  agrees : ∀ moves m, Course t l root labels frontier moves m → ∀ n,
    (m.search.labels.read n).queued = m.search.frontier.contains n
  pushed_once : ∀ moves m, Course t l root labels frontier moves m → (pushes moves).Nodup
  popped_once : ∀ moves m, Course t l root labels frontier moves m → (pops moves).Nodup
  bounded : ∀ moves m, Course t l root labels frontier moves m →
    (pops moves).length ≤ t.nodes.size
  /-- No step fails: one can be made at every moment but the last. -/
  proceeds : ∀ moves m, Course t l root labels frontier moves m →
    m.pending = [] ∧ m.search.frontier.isEmpty = true ∨ ∃ moves' m', Step t l root m moves' m'

/-- **A search succeeds and is orderly**, if no node is in the frontier that it is given and none is
marked. -/
theorem run_orderly (hw : t.WellFormed) (hroot : t.nodes.contains root = true)
    (hfrontier : frontier.isEmpty = true) (hlabels : ∀ n, (labels.read n).queued = false) :
    ∃ s, run t l root labels frontier = .ok s ∧ Orderly t l root labels frontier s := by
  obtain ⟨s, hs, hcomplete⟩ := run_complete (l := l) hw hroot labels hfrontier
  obtain ⟨moves, origin, hend⟩ := course_of_run hs
  have haccount := fun moves m (h : Course t l root labels frontier moves m) =>
    h.account hw hlabels
  refine ⟨s, hs, ⟨moves, origin, hend⟩, hcomplete.isEmpty, fun n => ?_,
    fun moves m h n => ((haccount moves m h).contains_eq n).symm,
    fun moves m h => (haccount moves m h).pushes_nodup,
    fun moves m h => (haccount moves m h).pops_eq ▸ (haccount moves m h).invariant.settled_nodup,
    fun moves m h => (haccount moves m h).length_pops_le hw hroot,
    fun moves m h => (haccount moves m h).proceeds⟩
  rw [← (haccount _ _ hend).contains_eq n]
  exact (Frontier.isEmpty_iff hcomplete.invariant.valid.indexed).1 hcomplete.isEmpty n

end LinkState.Search
