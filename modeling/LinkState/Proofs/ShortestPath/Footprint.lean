import LinkState.Proofs.ShortestPath.Course

/-!
# The footprint of a search

Labels outlive a search, and the next one resets only those of the nodes that its root can reach by
active edges. That is enough if a search never goes beyond these nodes. It might: it gives direct
next hops to the members of a LAN that the root only sees through the pseudo-node, and relaxes edges
of nodes that it has come to by way of others.

* `startWrites` are the writes to labels that a search makes before it takes the first node from the
  frontier, and `Moment.writes` those of the step that it makes next. They account for all that
  happens to the labels (`start_eq`, `Step.labels_eq`).
* All writes are made to nodes joined to the root, and so are all labels that are looked at
  (`joined_of_mem_startWrites`, `takesPart_of_mem_writes`, `joined_of_takesPart`).

So the nodes that the root can reach cover a search (`reachable_covers`): the label of no other node
is touched, and what earlier searches have left in the labels of these is forgotten.
-/

namespace LinkState.Search

open LinkState.Topology

/-- A write to the label of a node. -/
structure Write where
  node : NodeId
  change : Label → Label

/-- The labels after a write. -/
def Write.apply (labels : Labels) (w : Write) : Labels := labels.update w.node w.change

/-- What a search writes at its start: it resets the nodes that the root can reach, gives the root
its metric, seeds the logical neighbours of the root, and marks the root. -/
def startWrites (t : Topology) (l : Level) (root : NodeId) : List Write :=
  (t.reachable root l).toList.map (fun n => ⟨n, fun _ => {}⟩) ++
    [⟨root, fun label => { label with metric := 0 }⟩] ++
    (t.logicalNeighbours root l).map (fun nb => ⟨nb.node, fun label =>
      { label with direct := label.direct.insert nb.out.edge.nexthopKind nb.nexthop }⟩) ++
    [⟨root, fun label => { label with queued := true }⟩]

/-- What relaxing an edge writes: the label of the far end, if the path is cheaper, or else the next
hops there, if it is as cheap and the far end is queued. -/
def relaxWrites (t : Topology) (l : Level) (s : Search) (origin : Result) (a : Arc) : List Write :=
  let n := a.edge.target.node
  let metric := origin.metric + a.edge.cost l
  let label := s.labels.read n
  let nexthops := t.contribution l origin.node origin.nexthops a label
  if metric < label.metric then
    [⟨n, fun label => { label with metric, nexthops, queued := true }⟩]
  else if metric = label.metric ∧ metric ≠ .infinite ∧ label.queued = true then
    [⟨n, fun label => { label with nexthops := label.nexthops.extend nexthops }⟩]
  else []

/-- What the next step of a search writes. -/
def Moment.writes (t : Topology) (l : Level) (m : Moment) : List Write :=
  match m.pending with
  | a :: _ => relaxWrites t l m.search m.origin a
  | [] =>
    match m.search.frontier.popMin? (t.rank l m.search.labels) with
    | some (n, _) => [⟨n, fun label => { label with queued := false }⟩]
    | none => []

/-- The nodes that take part in a search at a moment: those in the frontier, those settled, and the
far ends of the edges that are still to be relaxed. -/
def Moment.TakesPart (m : Moment) (n : NodeId) : Prop :=
  m.search.frontier.contains n = true ∨ n ∈ m.search.settled.map (·.node) ∨
    ∃ a ∈ m.pending, a.edge.target.node = n

variable {t : Topology} {l : Level} {root : NodeId} {s s' : Search} {origin : Result} {a : Arc}
  {n : NodeId} {m m' : Moment} {moves : List Move} {labels : Labels} {frontier : Frontier NodeId}
  {w : Write}

/-! ## The writes account for the labels -/

theorem start_eq (t : Topology) (l : Level) (root : NodeId) (labels : Labels) :
    start t l root labels = (startWrites t l root).foldl Write.apply labels := by
  simp only [startWrites, List.foldl_append, List.foldl_map, List.foldl_cons, List.foldl_nil]
  rfl

theorem relax_labels (h : relax t l origin s a = .ok s') :
    s'.labels = (relaxWrites t l s origin a).foldl Write.apply s.labels := by
  unfold relaxWrites
  dsimp only
  cases relax_eq_ok h with
  | exceeded e =>
    have hle : ¬origin.metric + a.edge.cost l < (s.labels.read a.edge.target.node).metric :=
      e ▸ Nat.not_lt.2 (Metric.toNat_le _)
    rw [if_neg hle, if_neg fun h => h.2.1 e]
    rfl
  | kept le settled =>
    have hle : ¬origin.metric + a.edge.cost l < (s.labels.read a.edge.target.node).metric :=
      Nat.not_lt.2 le
    rw [if_neg hle, if_neg]
    · rfl
    · rintro ⟨heq, -, hqueued⟩
      exact Bool.noConfusion (hqueued.symm.trans (settled heq.symm))
  | tied finite eq queued =>
    have hle : ¬origin.metric + a.edge.cost l < (s.labels.read a.edge.target.node).metric :=
      eq ▸ Nat.lt_irrefl _
    rw [if_neg hle, if_pos ⟨eq.symm, finite, queued⟩]
    rfl
  | improved lt labels f labels_eq =>
    rw [if_pos lt]
    exact labels_eq

/-- Every step makes the writes that are said of the moment before it, and no others. -/
theorem Step.labels_eq {moves : List Move} (h : Step t l root m moves m') :
    m'.search.labels = (m.writes t l).foldl Write.apply m.search.labels := by
  cases h with
  | pop popped =>
    unfold Moment.writes
    dsimp only
    rw [popped]
    rfl
  | still _ relaxed | push _ _ relaxed | raise _ _ relaxed => exact relax_labels relaxed

/-- Writes to other nodes leave a label alone. -/
theorem read_foldl_apply {ws : List Write} (h : ∀ w ∈ ws, w.node ≠ n) (labels : Labels) :
    (ws.foldl Write.apply labels).read n = labels.read n := by
  induction ws generalizing labels with
  | nil => rfl
  | cons w ws ih =>
    obtain ⟨hw, hws⟩ := List.forall_mem_cons.1 h
    rw [List.foldl_cons, ih hws, Write.apply, HandleMap.read_update, if_neg hw]

/-! ## The writes stay within reach -/

theorem joined_of_mem_startWrites (hw : t.WellFormed) (h : w ∈ startWrites t l root) :
    Joined t l root w.node := by
  simp only [startWrites, List.mem_append, List.mem_map, List.mem_singleton] at h
  obtain ((⟨n, hn, rfl⟩ | rfl) | ⟨nb, hnb, rfl⟩) | rfl := h
  · exact (contains_reachable_iff hw n).1 (Std.TreeSet.mem_toList.1 hn)
  · exact .refl
  · exact joined_of_mem_logicalNeighbours hnb
  · exact .refl

theorem node_of_mem_relaxWrites (h : w ∈ relaxWrites t l s origin a) :
    w.node = a.edge.target.node := by
  unfold relaxWrites at h
  dsimp only at h
  split at h
  · rw [List.mem_singleton.1 h]
  · split at h
    · rw [List.mem_singleton.1 h]
    · cases h

namespace Underway

/-- An edge that is to be relaxed leads from a settled node to one that is joined to the root. -/
theorem joined_of_pending [t.Listed] (h : Underway t l root m) (ha : a ∈ m.pending) :
    Joined t l root a.edge.target.node := by
  obtain ⟨usable, hsource, -⟩ := mem_outArcs.1 (h.pending_mem a ha)
  have horigin := h.invariant.settled_joined _ (h.origin_mem (List.ne_nil_of_mem ha))
  exact horigin.tail (hsource ▸ adjacent_of_usable usable)

/-- Whatever takes part in a search is joined to the root. -/
theorem joined_of_takesPart [t.Listed] (h : Underway t l root m) (hn : m.TakesPart n) :
    Joined t l root n := by
  obtain hn | hn | ⟨a, ha, rfl⟩ := hn
  · exact h.invariant.queued_joined n hn
  · obtain ⟨r, hr, rfl⟩ := List.mem_map.1 hn
    exact h.invariant.settled_joined r hr
  · exact h.joined_of_pending ha

/-- A step writes to a node that takes part. -/
theorem takesPart_of_mem_writes (h : Underway t l root m) (hmem : w ∈ m.writes t l) :
    m.TakesPart w.node := by
  unfold Moment.writes at hmem
  split at hmem
  · rename_i a arcs hpending
    rw [node_of_mem_relaxWrites hmem]
    exact .inr (.inr ⟨a, hpending ▸ List.mem_cons_self, rfl⟩)
  · split at hmem
    · rename_i n f hpop
      rw [List.mem_singleton.1 hmem]
      exact .inl (Frontier.popMin?_valid h.invariant.valid hpop).1
    · cases hmem

end Underway

/-- Out of reach the labels stay as they were. -/
theorem Course.read_of_not_joined (hw : t.WellFormed)
    (h : Course t l root labels frontier moves m) (hn : ¬Joined t l root n) :
    m.search.labels.read n = labels.read n := by
  have hne : ∀ w : Write, Joined t l root w.node → w.node ≠ n := fun _ hjoined e => hn (e ▸ hjoined)
  induction h with
  | start =>
    dsimp only
    rw [start_eq]
    exact read_foldl_apply (fun w hmem => hne w (joined_of_mem_startWrites hw hmem)) labels
  | step h step ih =>
    have hunderway := h.underway hw
    rw [step.labels_eq, ← ih]
    exact read_foldl_apply (fun w hmem => hne w
      (hunderway.joined_of_takesPart (hunderway.takesPart_of_mem_writes hmem))) _

/-- A set of nodes covers the searches from a root, started with some labels and a frontier. -/
structure Covers (t : Topology) (l : Level) (root : NodeId) (reach : NodeSet) (labels : Labels)
    (frontier : Frontier NodeId) : Prop where
  /-- Given an empty frontier the search comes to its end, and is on its course until then. -/
  ends : frontier.isEmpty = true → ∃ s moves origin,
    run t l root labels frontier = .ok s ∧ Course t l root labels frontier moves ⟨s, origin, []⟩
  /-- The course starts with the labels given, after the writes of the start. -/
  start_labels : start t l root labels = (startWrites t l root).foldl Write.apply labels
  start_writes : ∀ w ∈ startWrites t l root, reach.contains w.node = true
  step_labels : ∀ moves m moves' m', Course t l root labels frontier moves m →
    Step t l root m moves' m' → m'.search.labels = (m.writes t l).foldl Write.apply m.search.labels
  step_writes : ∀ moves m, Course t l root labels frontier moves m →
    ∀ w ∈ m.writes t l, reach.contains w.node = true
  takesPart : ∀ moves m, Course t l root labels frontier moves m →
    ∀ n, m.TakesPart n → reach.contains n = true
  untouched : ∀ moves m, Course t l root labels frontier moves m →
    ∀ n, reach.contains n = false → m.search.labels.read n = labels.read n
  /-- After the reset the nodes of the set have blank labels. -/
  cleared : ∀ n, reach.contains n = true → (reset t l root labels).read n = {}
  /-- Had there been other labels, the search would have come to the same. -/
  forgotten : ∀ labels' frontier' s s', run t l root labels frontier = .ok s →
    run t l root labels' frontier' = .ok s' →
      s'.settled = s.settled ∧ ∀ n, reach.contains n = true → s'.labels.read n = s.labels.read n

/-- The nodes that the root can reach cover its searches. -/
theorem covers_reachable (hw : t.WellFormed) (l : Level) (hroot : t.nodes.contains root = true)
    (labels : Labels) (frontier : Frontier NodeId) :
    Covers t l root (t.reachable root l) labels frontier := by
  have hreach : ∀ n, (t.reachable root l).contains n = true ↔ Joined t l root n :=
    contains_reachable_iff hw
  exact {
    ends := fun hempty => by
      obtain ⟨s, hs, -⟩ := run_complete hw hroot labels hempty
      obtain ⟨moves, origin, hcourse⟩ := course_of_run hs
      exact ⟨s, moves, origin, hs, hcourse⟩
    start_labels := start_eq t l root labels
    start_writes := fun _ hmem => (hreach _).2 (joined_of_mem_startWrites hw hmem)
    step_labels := fun _ _ _ _ _ step => step.labels_eq
    step_writes := fun _ _ h _ hmem => (hreach _).2
      ((h.underway hw).joined_of_takesPart ((h.underway hw).takesPart_of_mem_writes hmem))
    takesPart := fun _ _ h _ hn => (hreach _).2 ((h.underway hw).joined_of_takesPart hn)
    untouched := fun _ _ h _ hn => h.read_of_not_joined hw fun hjoined =>
      Bool.noConfusion (hn.symm.trans ((hreach _).2 hjoined))
    cleared := fun _ hn => read_reset hw labels ((hreach _).1 hn)
    forgotten := fun _ _ _ _ hs hs' => by
      have htwin := twin_of_run hw (isEmpty_of_run hs) (isEmpty_of_run hs') hs hs'
      exact ⟨htwin.settled, fun n hn => htwin.labels n ((hreach n).1 hn)⟩ }

/-- **The nodes that a root can reach are found, and they cover its searches.** In every topology
that can be built the loop that looks for them ends, after one round for each; they are the nodes
joined to the root by active edges; and a search from the root writes to the labels of no other
node, whatever labels it starts from, and has blank labels for all that takes part in it. -/
theorem reachable_covers (history : List Change) (l : Level) {root : NodeId}
    (hroot : (after {} history).nodes.contains root = true) :
    (∃ taken, Explores (after {} history) l (({} : NodeSet).insert root) [root] taken
        ((after {} history).reachable root l) ∧ taken.Nodup ∧
      (∀ n, n ∈ taken ↔ ((after {} history).reachable root l).contains n = true) ∧
      taken.length ≤ (after {} history).nodes.size) ∧
    (∀ n, ((after {} history).reachable root l).contains n = true ↔
      Joined (after {} history) l root n) ∧
    ∀ labels frontier,
      Covers (after {} history) l root ((after {} history).reachable root l) labels frontier := by
  have hw := wellFormed_after history
  refine ⟨?_, contains_reachable_iff hw, covers_reachable hw l hroot⟩
  obtain ⟨taken, hexplores, hnodup, hmem⟩ := explores_reachable (l := l) hw root
  refine ⟨taken, hexplores, hnodup, hmem, Table.length_le_size hnodup fun n hn => ?_⟩
  exact ((contains_reachable_iff hw n).1 ((hmem n).1 hn)).contains hw hroot

/-- Two routers on a LAN, an edge without return to a third one, and a link from there that is
down. -/
def oneWayBranch : List Change :=
  (["a", "b", "c", "d"].map fun name => .addRouter name 0 .all) ++
    [.addPseudonode "p" .all, .addLanLink ⟨⟨0, 0⟩, "lan", none⟩ ⟨4, 0⟩ (.saturate 1) .all,
      .addLanLink ⟨⟨1, 0⟩, "lan", none⟩ ⟨4, 0⟩ (.saturate 1) .all,
      .addEdge ⟨⟨1, 0⟩, "toc", none⟩ ⟨⟨2, 0⟩, "tob", none⟩ (.both (.saturate 1)) .all .unicast,
      .addLink ⟨⟨2, 0⟩, "tod", none⟩ ⟨⟨3, 0⟩, "toc", none⟩ (.saturate 1) .all,
      .setLinkStatus ⟨5, 0⟩ false]

/-- The third router is found and reset although no search settles it. The fourth one is not. -/
theorem reachable_covers_oneWayBranch :
    (after {} oneWayBranch).nodes.contains ⟨0, 0⟩ = true ∧
      ((after {} oneWayBranch).reachable ⟨0, 0⟩ .l1).toList.map (·.position) = [0, 1, 2, 4] ∧
      (outcome (after {} oneWayBranch) .l1 ⟨0, 0⟩).map (·.node.position) = [0, 4, 1] ∧
      Joined (after {} oneWayBranch) .l1 ⟨0, 0⟩ ⟨2, 0⟩ ∧
      ¬Joined (after {} oneWayBranch) .l1 ⟨0, 0⟩ ⟨3, 0⟩ ∧
      ∀ labels frontier, Covers (after {} oneWayBranch) .l1 ⟨0, 0⟩
        ((after {} oneWayBranch).reachable ⟨0, 0⟩ .l1) labels frontier := by
  have hroot : (after {} oneWayBranch).nodes.contains ⟨0, 0⟩ = true := by decide +kernel
  obtain ⟨-, hjoined, hcovers⟩ := reachable_covers oneWayBranch .l1 hroot
  refine ⟨hroot, by decide +kernel, by decide +kernel, (hjoined _).1 (by decide +kernel),
    fun h => ?_, hcovers⟩
  have hout : ((after {} oneWayBranch).reachable ⟨0, 0⟩ .l1).contains ⟨3, 0⟩ = false := by
    decide +kernel
  exact Bool.noConfusion (hout.symm.trans ((hjoined _).2 h))

end LinkState.Search
