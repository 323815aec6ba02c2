import LinkState.Topology.Change

/-!
# Topologies that can be built

`Becomes` says once what a change may make of a topology, whether it succeeds or not. An invariant
of topologies is kept by each of its cases, and by every history then (`becomes_induction`).

A topology that was built step by step is `WellFormed`: the list of a node holds the edges that it
owns, every edge joins two nodes of the topology, and an edge that is the inverse of another one
leads between the same two ends, in the opposite direction (`wellFormed_after`).

What the lists of edges should hold depends on the sources of the edges only (`Listed.of_sources`).
An edge that is stored is listed with its owner at once (`Listed.pushEdge`), and it is never given
another one.
-/

namespace LinkState.Topology

/-- Edges are listed with their owners and join nodes of the topology, and inverse edges join the
same two ends. -/
class WellFormed (t : Topology) : Prop extends t.Listed where
  source_mem : ∀ e edge, t.edges.get? e = some edge → t.nodes.contains edge.source.node = true
  target_mem : ∀ e edge, t.edges.get? e = some edge → t.nodes.contains edge.target.node = true
  inverse : ∀ e edge i, t.edges.get? e = some edge → edge.inverse = some i →
    ∃ back, t.edges.get? i = some back ∧ back.source = edge.target ∧ back.target = edge.source

/-- An edge with the same ends and the same inverse. -/
structure SameCourse (a b : Edge) : Prop where
  source : b.source = a.source
  target : b.target = a.target
  inverse : b.inverse = a.inverse

variable {t : Topology}

/-! ## Lists of edges -/

/-- The edges that a node owns, told from the sources of all edges. -/
theorem ids_filter_arcs (t : Topology) (n : NodeId) :
    (t.arcs.filter fun a => a.edge.source.node == n).map (·.id) =
      ((t.edges.map (·.source)).entries.filter fun entry => entry.2.node == n).map (·.1) := by
  simp only [arcs, Table.entries_map, List.filter_map, List.map_map, Function.comp_def]

theorem map_source_eq {t' : Topology}
    (h : ∀ e, (t'.edges.get? e).map (·.source) = (t.edges.get? e).map (·.source)) :
    t'.edges.map (·.source) = t.edges.map (·.source) := by
  refine Table.ext_get? fun e => ?_
  rw [Table.get?_map, Table.get?_map]
  exact h e

/-- Edges with the same sources are listed in the same way. -/
theorem Listed.of_sources (h : t.Listed) {t' : Topology} (houtgoing : t'.outgoing = t.outgoing)
    (hsources : ∀ e, (t'.edges.get? e).map (·.source) = (t.edges.get? e).map (·.source)) :
    t'.Listed := by
  constructor
  intro n
  rw [houtgoing, h.outgoing, ids_filter_arcs, ids_filter_arcs, map_source_eq hsources]

theorem arcs_pushEdge (t : Topology) (edge : Edge) :
    (t.pushEdge edge).arcs = t.arcs ++ [⟨t.edges.nextHandle, edge⟩] := by
  rw [arcs, edges_pushEdge, Table.entries_push, List.map_append]
  rfl

/-- An edge that is stored comes last in the list of its owner and is in no other list. -/
theorem Listed.pushEdge (h : t.Listed) (edge : Edge) : (t.pushEdge edge).Listed := by
  constructor
  intro n
  rw [arcs_pushEdge, List.filter_append, List.map_append, Topology.pushEdge, HandleMap.read_update,
    h.outgoing n]
  by_cases howner : edge.source.node = n <;> simp [howner]

theorem Listed.modifyEdge (h : t.Listed) (e : EdgeId) {f : Edge → Edge}
    (hf : ∀ edge, (f edge).source = edge.source) : (t.modifyEdge e f).Listed := by
  refine h.of_sources rfl fun i => ?_
  rw [Topology.modifyEdge, Table.get?_modify]
  split
  · rw [Option.map_map]
    exact congrArg (Option.map · _) (funext hf)
  · rfl

/-! ## What a change does -/

/-- What a change may make of a topology, one that fails included. -/
inductive Becomes (t : Topology) : Topology → Prop where
  | same : Becomes t t
  | nodeAdded {node : Node} {n : NodeId} {t' : Topology} (h : t.insertNode node = .ok (n, t')) :
    Becomes t t'
  | edgeAdded {source target : Endpoint} {metric : PerLevel Metric} {levelType : LevelType}
    {kind : EdgeKind} {e : EdgeId} {t' : Topology}
    (h : t.addEdge source target metric levelType kind = .ok (e, t')) : Becomes t t'
  /-- Two edges, or only the first one if the second one is refused. -/
  | pairAdded (a b : Endpoint) (there back : Metric) (levelType : LevelType) :
    Becomes t (t.addPair a b there back levelType).2
  /-- No change renames a node. -/
  | nodeChanged (n : NodeId) (f : Node → Node) (hf : ∀ node, (f node).name = node.name) :
    Becomes t (t.modifyNode n f)
  | metricSet (e : EdgeId) (l : Level) (m : Metric) : Becomes t (t.setMetric e l m)
  | protectionSet (e : EdgeId) (p : Protection) : Becomes t (t.setProtection e p)
  | statusSet (e : EdgeId) (up : Bool) : Becomes t (t.setLinkStatus e up)
  | inverted (l : Level) : Becomes t (t.invert l)

/-- A property of topologies is kept where something is added, if the addition keeps it. -/
theorem added_keeps {P : Topology → Prop} {α : Type} (h : P t) (created : α → Created)
    {r : Except Error (α × Topology)} (hr : ∀ a t', r = .ok (a, t') → P t') :
    P (t.added created r).2 := by
  rcases r with _ | ⟨a, t'⟩
  · exact h
  · exact hr a t' rfl

theorem addedPair_snd (r : Except Error (EdgeId × EdgeId) × Topology) : (addedPair r).2 = r.2 := by
  rcases r with ⟨_ | ⟨a, b⟩, t⟩ <;> rfl

theorem changed_keeps {P : Topology → Prop} (h : P t) (found : Bool) {t' : Topology} (h' : P t') :
    P (t.changed found t').2 := by
  unfold Topology.changed
  split
  · exact h'
  · exact h

theorem becomes_addLanLink (t : Topology) (member : Endpoint) (pseudonode : NodeId)
    (metric : Metric) (levelType : LevelType) :
    t.Becomes (t.addLanLink member pseudonode metric levelType).2 := by
  unfold Topology.addLanLink
  split
  · exact .same
  · exact .same
  · exact .pairAdded ..

theorem becomes_apply (t : Topology) (c : Change) : t.Becomes (t.apply c).2 := by
  cases c with
  | addRouter => exact added_keeps .same _ fun _ _ => .nodeAdded
  | addPseudonode => exact added_keeps .same _ fun _ _ => .nodeAdded
  | addEdge => exact added_keeps .same _ fun _ _ => .edgeAdded
  | addLink => exact addedPair_snd _ ▸ .pairAdded ..
  | addLanLink => exact addedPair_snd _ ▸ becomes_addLanLink ..
  | addLsp => exact added_keeps .same _ fun _ _ => .edgeAdded
  | setMetric e l m => exact changed_keeps .same _ (.metricSet e l m)
  | setLinkStatus e up => exact changed_keeps .same _ (.statusSet e up)
  | setProtection e p => exact changed_keeps .same _ (.protectionSet e p)
  | setOverload n => exact changed_keeps .same _ (.nodeChanged n _ fun _ => rfl)
  | setLevelType n => exact changed_keeps .same _ (.nodeChanged n _ fun _ => rfl)
  | setKind n => exact changed_keeps .same _ (.nodeChanged n _ fun _ => rfl)
  | setAttached n => exact changed_keeps .same _ (.nodeChanged n _ fun _ => rfl)
  | setNetworks n => exact changed_keeps .same _ (.nodeChanged n _ fun _ => rfl)
  | invert l => exact .inverted l

/-- What one change keeps is kept by every history. -/
theorem becomes_induction {P : Topology → Prop} (keep : ∀ t t', t.Becomes t' → P t → P t')
    {t : Topology} (h : P t) (history : List Change) : P (t.after history) :=
  after_induction (fun t c => keep t _ (t.becomes_apply c)) h history

/-! ## Well-formed topologies -/

theorem wellFormed_empty : WellFormed {} where
  outgoing _ := HandleMap.read_empty _
  source_mem e edge := by simp [Table.get?]
  target_mem e edge := by simp [Table.get?]
  inverse e edge := by simp [Table.get?]

/-- A topology with edges of the same course is as good. -/
theorem WellFormed.of_sameCourse (h : t.WellFormed) {t' : Topology}
    (houtgoing : t'.outgoing = t.outgoing)
    (hn : ∀ n, t.nodes.contains n = true → t'.nodes.contains n = true)
    (he : ∀ e edge, t'.edges.get? e = some edge →
      ∃ old, t.edges.get? e = some old ∧ SameCourse old edge)
    (ht : ∀ e edge, t.edges.get? e = some edge →
      ∃ new, t'.edges.get? e = some new ∧ SameCourse edge new) :
    t'.WellFormed := by
  have hsources : ∀ e, (t'.edges.get? e).map (·.source) = (t.edges.get? e).map (·.source) := by
    intro e
    cases hold : t.edges.get? e with
    | some old =>
      obtain ⟨new, hnew, same⟩ := ht e old hold
      rw [hnew, Option.map_some, Option.map_some, same.source]
    | none =>
      cases hnew : t'.edges.get? e with
      | none => rfl
      | some new =>
        obtain ⟨old, hold', -⟩ := he e new hnew
        cases hold.symm.trans hold'
  exact {
    toListed := h.toListed.of_sources houtgoing hsources
    source_mem := by
      intro e edge hedge
      obtain ⟨old, hold, same⟩ := he e edge hedge
      exact hn _ (same.source ▸ h.source_mem e old hold)
    target_mem := by
      intro e edge hedge
      obtain ⟨old, hold, same⟩ := he e edge hedge
      exact hn _ (same.target ▸ h.target_mem e old hold)
    inverse := by
      intro e edge i hedge hi
      obtain ⟨old, hold, same⟩ := he e edge hedge
      obtain ⟨back, hback, hs, ht'⟩ := h.inverse e old i hold (same.inverse ▸ hi)
      obtain ⟨new, hnew, same'⟩ := ht i back hback
      exact ⟨new, hnew, by rw [same'.source, hs, same.target],
        by rw [same'.target, ht', same.source]⟩ }

theorem WellFormed.modifyEdge (h : t.WellFormed) (e : EdgeId) {f : Edge → Edge}
    (hf : ∀ edge, SameCourse edge (f edge)) : (t.modifyEdge e f).WellFormed := by
  refine h.of_sameCourse rfl (fun _ hn => hn) (fun i edge hi => ?_) (fun i edge hi => ?_)
  · rw [Topology.modifyEdge, Table.get?_modify] at hi
    split at hi
    · obtain ⟨old, hold, rfl⟩ := Option.map_eq_some_iff.1 hi
      exact ⟨old, hold, hf old⟩
    · exact ⟨edge, hi, rfl, rfl, rfl⟩
  · rw [Topology.modifyEdge, Table.get?_modify, hi]
    split
    · exact ⟨_, rfl, hf edge⟩
    · exact ⟨_, rfl, rfl, rfl, rfl⟩

theorem WellFormed.modifyNode (h : t.WellFormed) (n : NodeId) (f : Node → Node) :
    (t.modifyNode n f).WellFormed :=
  h.of_sameCourse rfl (fun _ hn => by rw [Topology.modifyNode, Table.contains_modify]; exact hn)
    (fun _ edge he => ⟨edge, he, rfl, rfl, rfl⟩) (fun _ edge he => ⟨edge, he, rfl, rfl, rfl⟩)

theorem WellFormed.insertNode (h : t.WellFormed) {node : Node} {n : NodeId} {t' : Topology}
    (ht : t.insertNode node = .ok (n, t')) : t'.WellFormed := by
  unfold Topology.insertNode at ht
  split at ht <;> cases ht
  exact h.of_sameCourse rfl (fun _ hn => Table.contains_push.2 (.inr hn))
    (fun _ edge he => ⟨edge, he, rfl, rfl, rfl⟩) (fun _ edge he => ⟨edge, he, rfl, rfl, rfl⟩)

/-- What adding an edge does: the ends exist, and the new edge has no inverse. -/
theorem addEdge_eq_ok {source target : Endpoint} {metric : PerLevel Metric}
    {levelType : LevelType} {kind : EdgeKind} {e : EdgeId} {t' : Topology}
    (h : t.addEdge source target metric levelType kind = .ok (e, t')) :
    t.nodes.contains source.node = true ∧ t.nodes.contains target.node = true ∧
      e = t.edges.nextHandle ∧
        t' = t.pushEdge { source, target, metric, levels := .ofType levelType, kind } := by
  unfold Topology.addEdge at h
  split at h
  · cases h
  rename_i owner howner
  split at h
  · cases h
  rename_i htarget
  split at h <;> cases h
  exact ⟨by simp [Table.contains, howner], by simpa using htarget, rfl, rfl⟩

theorem Listed.addEdge (h : t.Listed) {source target : Endpoint} {metric : PerLevel Metric}
    {levelType : LevelType} {kind : EdgeKind} {e : EdgeId} {t' : Topology}
    (ht : t.addEdge source target metric levelType kind = .ok (e, t')) : t'.Listed := by
  obtain ⟨-, -, -, rfl⟩ := addEdge_eq_ok ht
  exact h.pushEdge _

theorem WellFormed.addEdge (h : t.WellFormed) {source target : Endpoint} {metric : PerLevel Metric}
    {levelType : LevelType} {kind : EdgeKind} {e : EdgeId} {t' : Topology}
    (ht : t.addEdge source target metric levelType kind = .ok (e, t')) : t'.WellFormed := by
  have hlisted := h.toListed.addEdge ht
  obtain ⟨hs, htgt, rfl, rfl⟩ := addEdge_eq_ok ht
  exact {
    toListed := hlisted
    source_mem := by
      intro e edge he
      rw [edges_pushEdge, Table.get?_push] at he
      split at he
      · cases he
        exact hs
      · exact h.source_mem e edge he
    target_mem := by
      intro e edge he
      rw [edges_pushEdge, Table.get?_push] at he
      split at he
      · cases he
        exact htgt
      · exact h.target_mem e edge he
    inverse := by
      intro e edge i he hi
      rw [edges_pushEdge, Table.get?_push] at he
      split at he
      · cases he
        cases hi
      · obtain ⟨back, hback, hends⟩ := h.inverse e edge i he hi
        refine ⟨back, ?_, hends⟩
        rw [edges_pushEdge, Table.get?_push, if_neg]
        · exact hback
        · rintro rfl
          rw [Table.get?_nextHandle] at hback
          cases hback }

/-- The edges after two of them have been made each other's inverse. -/
theorem get?_join {a b : EdgeId} {ea eb : Edge} (hab : a ≠ b) (ha : t.edges.get? a = some ea)
    (hb : t.edges.get? b = some eb) (e : EdgeId) :
    (t.join a b).edges.get? e = if e = a then some { ea with inverse := some b }
      else if e = b then some { eb with inverse := some a } else t.edges.get? e := by
  simp only [Topology.join, Topology.modifyEdge, Table.get?_modify]
  grind

theorem WellFormed.join (h : t.WellFormed) {a b : EdgeId} {ea eb : Edge} (hab : a ≠ b)
    (ha : t.edges.get? a = some ea) (hb : t.edges.get? b = some eb) (hs : eb.source = ea.target)
    (ht : eb.target = ea.source) : (t.join a b).WellFormed := by
  have get := get?_join hab ha hb
  have hsource : ∀ i (e : Edge), { e with inverse := some i }.source = e.source := fun _ _ => rfl
  have hold : ∀ e edge, (t.join a b).edges.get? e = some edge →
      ∃ i old, t.edges.get? i = some old ∧ edge.source = old.source ∧
        edge.target = old.target := by
    intro e edge he
    rw [get] at he
    split at he
    · cases he
      exact ⟨a, ea, ha, rfl, rfl⟩
    · split at he
      · cases he
        exact ⟨b, eb, hb, rfl, rfl⟩
      · exact ⟨e, edge, he, rfl, rfl⟩
  exact {
    toListed := (h.toListed.modifyEdge a (hsource b)).modifyEdge b (hsource a)
    source_mem := by
      intro e edge he
      obtain ⟨i, old, hi, hsource, -⟩ := hold e edge he
      exact hsource ▸ h.source_mem i old hi
    target_mem := by
      intro e edge he
      obtain ⟨i, old, hi, -, htarget⟩ := hold e edge he
      exact htarget ▸ h.target_mem i old hi
    inverse := by
      intro e edge i he hi
      rw [get] at he
      rw [get]
      split at he
      · cases he
        cases hi
        exact ⟨{ eb with inverse := some a }, by rw [if_neg hab.symm, if_pos rfl], hs, ht⟩
      · split at he
        · cases he
          cases hi
          exact ⟨{ ea with inverse := some b }, by rw [if_pos rfl], ht.symm, hs.symm⟩
        · obtain ⟨back, hback, hends⟩ := h.inverse e edge i he hi
          split
          · subst i
            rw [ha] at hback
            cases hback
            exact ⟨_, rfl, hends⟩
          · split
            · subst i
              rw [hb] at hback
              cases hback
              exact ⟨_, rfl, hends⟩
            · exact ⟨back, hback, hends⟩ }

/-- What adding two edges one after the other does: both handles are new, they differ, and no other
edge has changed. -/
theorem addEdge_twice {a b a' b' : Endpoint} {metric metric' : PerLevel Metric}
    {levelType levelType' : LevelType} {kind kind' : EdgeKind} {ab ba : EdgeId} {t₁ t₂ : Topology}
    (h₁ : t.addEdge a b metric levelType kind = .ok (ab, t₁))
    (h₂ : t₁.addEdge a' b' metric' levelType' kind' = .ok (ba, t₂)) :
    ab ≠ ba ∧ t.edges.get? ab = none ∧ t.edges.get? ba = none ∧
      ∀ e, t₂.edges.get? e =
        if e = ba then some ⟨a', b', metric', .ofType levelType', true, .none, none, kind'⟩
        else if e = ab then some ⟨a, b, metric, .ofType levelType, true, .none, none, kind⟩
        else t.edges.get? e := by
  obtain ⟨-, -, rfl, rfl⟩ := addEdge_eq_ok h₁
  obtain ⟨-, -, rfl, rfl⟩ := addEdge_eq_ok h₂
  refine ⟨?_, Table.get?_nextHandle _, ?_, fun e => ?_⟩
  · simp [Table.nextHandle, Table.push, Table.size]
  · simp [Table.get?, Table.nextHandle, Table.push, Table.size]
  · rw [edges_pushEdge, Table.get?_push, edges_pushEdge, Table.get?_push]

theorem WellFormed.addPair (h : t.WellFormed) (a b : Endpoint) (there back : Metric)
    (levelType : LevelType) : (t.addPair a b there back levelType).2.WellFormed := by
  unfold Topology.addPair
  split
  · exact h
  rename_i ab t₁ h₁
  have w₁ := h.addEdge h₁
  split
  · exact w₁
  rename_i ba t₂ h₂
  obtain ⟨hne, -, -, get⟩ := addEdge_twice h₁ h₂
  exact (w₁.addEdge h₂).join hne (by rw [get, if_neg hne, if_pos rfl]) (by rw [get, if_pos rfl])
    rfl rfl

theorem WellFormed.setLinkStatus (h : t.WellFormed) (e : EdgeId) (up : Bool) :
    (t.setLinkStatus e up).WellFormed := by
  have same : ∀ edge : Edge, SameCourse edge { edge with up } := fun _ => ⟨rfl, rfl, rfl⟩
  unfold Topology.setLinkStatus
  split
  · exact (h.modifyEdge e same).modifyEdge _ same
  · exact h.modifyEdge e same

theorem sameCourse_inverted (l : Level) (e : Edge) : SameCourse e
    (match e.inverse.bind t.edges.get? with
      | some i =>
        if e.levels.has l && i.levels.has l then { e with metric := e.metric.set l (i.cost l) }
        else e
      | none => e) := by
  split
  · split <;> exact ⟨rfl, rfl, rfl⟩
  · exact ⟨rfl, rfl, rfl⟩

theorem WellFormed.invert (h : t.WellFormed) (l : Level) : (t.invert l).WellFormed := by
  refine h.of_sameCourse rfl (fun _ hn => hn) (fun e edge he => ?_) (fun e edge he => ?_)
  · rw [Topology.invert, Table.get?_map] at he
    obtain ⟨old, hold, rfl⟩ := Option.map_eq_some_iff.1 he
    exact ⟨old, hold, sameCourse_inverted l old⟩
  · rw [Topology.invert, Table.get?_map, he]
    exact ⟨_, rfl, sameCourse_inverted l edge⟩

/-- Every change keeps a topology well-formed, also one that fails. -/
theorem WellFormed.becomes (h : t.WellFormed) {t' : Topology} (ht : t.Becomes t') :
    t'.WellFormed := by
  cases ht with
  | same => exact h
  | nodeAdded ht => exact h.insertNode ht
  | edgeAdded ht => exact h.addEdge ht
  | pairAdded => exact h.addPair ..
  | nodeChanged n f => exact h.modifyNode n f
  | metricSet e => exact h.modifyEdge e fun _ => ⟨rfl, rfl, rfl⟩
  | protectionSet e => exact h.modifyEdge e fun _ => ⟨rfl, rfl, rfl⟩
  | statusSet e up => exact h.setLinkStatus e up
  | inverted l => exact h.invert l

/-- **Every topology that can be built is well-formed.** -/
theorem wellFormed_after (history : List Change) : (after {} history).WellFormed :=
  becomes_induction (fun _ _ ht h => h.becomes ht) wellFormed_empty history

instance (history : List Change) : (after {} history).Listed := (wellFormed_after history).toListed

end LinkState.Topology
