import LinkState.Proofs.Topology.Pairs

/-!
# Interfaces tell unicast edges apart

In a topology that was built step by step a unicast edge is found by its interface
(`InterfacesFound`): its owner has no older edge there, since a unicast edge is refused where one
has been added, be it a tunnel or not. A younger one can only be a tunnel, and `edgeAt?` answers
with the oldest. Every change keeps this, whether it succeeds or not (`InterfacesFound.becomes`):
what is added comes last (`edgeAt?_pushEdge`), and no change gives an edge another source or another
kind.
-/

namespace LinkState.Topology

/-- Every unicast edge is the one that its interface leads to. -/
structure InterfacesFound (t : Topology) : Prop where
  found : ∀ e edge, t.edges.get? e = some edge → edge.kind = .unicast →
    t.edgeAt? edge.source.node edge.source.ifname = some e

/-- An edge of the same kind with the same source. -/
structure SameInterface (a b : Edge) : Prop where
  source : b.source = a.source
  kind : b.kind = a.kind

variable {t : Topology}

/-! ## Looking up an interface -/

/-- The edge at an interface is the oldest one whose source has it. -/
theorem edgeAt?_eq [t.Listed] (n : NodeId) (ifname : String) :
    t.edgeAt? n ifname = ((t.edges.map (·.source)).entries.find? fun entry =>
      entry.2.node == n && entry.2.ifname == ifname).map (·.1) := by
  rw [edgeAt?, arcsFrom_eq]
  simp only [arcs, Table.entries_map, List.find?_filter, List.find?_map, Option.map_map,
    Function.comp_def, Bool.decide_and, Bool.decide_eq_true]

/-- Edges with the same sources are found in the same way. -/
theorem edgeAt?_congr [h : t.Listed] {t' : Topology} (houtgoing : t'.outgoing = t.outgoing)
    (hsources : ∀ e, (t'.edges.get? e).map (·.source) = (t.edges.get? e).map (·.source))
    (n : NodeId) (ifname : String) : t'.edgeAt? n ifname = t.edgeAt? n ifname := by
  have := h.of_sources houtgoing hsources
  rw [edgeAt?_eq, edgeAt?_eq, map_source_eq hsources]

/-- An edge that is added is found only where there was none. -/
theorem edgeAt?_pushEdge [h : t.Listed] (edge : Edge) (n : NodeId) (ifname : String) :
    (t.pushEdge edge).edgeAt? n ifname =
      (t.edgeAt? n ifname).or
        (if edge.source.node = n ∧ edge.source.ifname = ifname then some t.edges.nextHandle
          else none) := by
  have := h.pushEdge edge
  rw [edgeAt?, edgeAt?, arcsFrom_eq, arcsFrom_eq, arcs_pushEdge, List.filter_append,
    List.find?_append]
  by_cases howner : edge.source.node = n <;> by_cases hname : edge.source.ifname = ifname <;>
    cases List.find? _ (t.arcs.filter _) <;> simp [howner, hname]

/-! ## Changes -/

theorem interfacesFound_empty : InterfacesFound {} := by
  constructor
  intro e edge h
  simp [Table.get?] at h

/-- Edges may be replaced by edges with the same interface. -/
theorem InterfacesFound.of_sameInterface [t.Listed] (h : t.InterfacesFound) {t' : Topology}
    (houtgoing : t'.outgoing = t.outgoing) (f : EdgeId → Edge → Edge)
    (hf : ∀ e edge, SameInterface edge (f e edge))
    (get : ∀ e, t'.edges.get? e = (t.edges.get? e).map (f e)) : t'.InterfacesFound := by
  constructor
  intro e edge he hkind
  rw [get] at he
  obtain ⟨old, hold, rfl⟩ := Option.map_eq_some_iff.1 he
  have hsources : ∀ i, (t'.edges.get? i).map (·.source) = (t.edges.get? i).map (·.source) := by
    intro i
    rw [get, Option.map_map]
    congr 1
    funext edge
    exact (hf i edge).source
  rw [edgeAt?_congr houtgoing hsources, (hf e old).source]
  exact h.found e old hold ((hf e old).kind ▸ hkind)

theorem InterfacesFound.of_edges_eq [t.Listed] (h : t.InterfacesFound) {t' : Topology}
    (he : t'.edges = t.edges) (houtgoing : t'.outgoing = t.outgoing) : t'.InterfacesFound := by
  refine h.of_sameInterface houtgoing (fun _ edge => edge) (fun _ _ => ⟨rfl, rfl⟩) fun e => ?_
  rw [he, Option.map_id']

theorem InterfacesFound.modifyEdge [t.Listed] (h : t.InterfacesFound) (e : EdgeId) {f : Edge → Edge}
    (hf : ∀ edge, SameInterface edge (f edge)) : (t.modifyEdge e f).InterfacesFound := by
  refine h.of_sameInterface rfl (fun i edge => if e = i then f edge else edge) (fun i edge => ?_)
    fun i => ?_
  · split
    · exact hf edge
    · exact ⟨rfl, rfl⟩
  · rw [Topology.modifyEdge, Table.get?_modify]
    split <;> simp

theorem InterfacesFound.insertNode [t.Listed] (h : t.InterfacesFound) {node : Node} {n : NodeId}
    {t' : Topology} (ht : t.insertNode node = .ok (n, t')) : t'.InterfacesFound := by
  unfold Topology.insertNode at ht
  split at ht <;> cases ht
  exact h.of_edges_eq rfl rfl

/-- A unicast edge is added only at an interface where there is none. -/
theorem edgeAt?_of_addEdge {source target : Endpoint} {metric : PerLevel Metric}
    {levelType : LevelType} {e : EdgeId} {t' : Topology}
    (h : t.addEdge source target metric levelType .unicast = .ok (e, t')) :
    t.edgeAt? source.node source.ifname = none := by
  unfold Topology.addEdge at h
  split at h
  · cases h
  split at h
  · cases h
  split at h
  · cases h
  · rename_i hfree
    simpa using hfree

theorem InterfacesFound.addEdge [t.Listed] (h : t.InterfacesFound) {source target : Endpoint}
    {metric : PerLevel Metric} {levelType : LevelType} {kind : EdgeKind} {e : EdgeId}
    {t' : Topology} (ht : t.addEdge source target metric levelType kind = .ok (e, t')) :
    t'.InterfacesFound := by
  obtain ⟨-, -, -, rfl⟩ := addEdge_eq_ok ht
  constructor
  intro i edge hi hkind
  rw [edgeAt?_pushEdge]
  rw [edges_pushEdge, Table.get?_push] at hi
  split at hi
  · -- the new edge, for which its interface was free
    rename_i hnew
    cases hi
    cases hkind
    rw [edgeAt?_of_addEdge ht, hnew]
    simp
  · rw [h.found i edge hi hkind, Option.some_or]

theorem InterfacesFound.join [ht : t.Listed] (h : t.InterfacesFound) (a b : EdgeId) :
    (t.join a b).InterfacesFound := by
  have same : ∀ (edge : Edge) i, SameInterface edge { edge with inverse := some i } :=
    fun _ _ => ⟨rfl, rfl⟩
  have := ht.modifyEdge a fun edge => (same edge b).source
  exact (h.modifyEdge a fun edge => same edge b).modifyEdge b fun edge => same edge a

theorem InterfacesFound.addPair [ht : t.Listed] (h : t.InterfacesFound) (a b : Endpoint)
    (there back : Metric) (levelType : LevelType) :
    (t.addPair a b there back levelType).2.InterfacesFound := by
  unfold Topology.addPair
  split
  · exact h
  rename_i h₁
  have h₁' := ht.addEdge h₁
  split
  · exact h.addEdge h₁
  rename_i h₂
  have h₂' := h₁'.addEdge h₂
  exact ((h.addEdge h₁).addEdge h₂).join ..

theorem InterfacesFound.setLinkStatus [ht : t.Listed] (h : t.InterfacesFound) (e : EdgeId)
    (up : Bool) : (t.setLinkStatus e up).InterfacesFound := by
  have same : ∀ edge : Edge, SameInterface edge { edge with up } := fun _ => ⟨rfl, rfl⟩
  unfold Topology.setLinkStatus
  split
  · have := ht.modifyEdge e fun edge => (same edge).source
    exact (h.modifyEdge e same).modifyEdge _ same
  · exact h.modifyEdge e same

theorem InterfacesFound.invert [t.Listed] (h : t.InterfacesFound) (l : Level) :
    (t.invert l).InterfacesFound := by
  refine h.of_sameInterface rfl _ (fun e edge => ?_) fun e => Table.get?_map _ _ e
  split
  · split <;> exact ⟨rfl, rfl⟩
  · exact ⟨rfl, rfl⟩

/-- Every change leaves unicast edges where their interfaces lead, also one that fails. -/
theorem InterfacesFound.becomes [t.Listed] (h : t.InterfacesFound) {t' : Topology}
    (ht : t.Becomes t') : t'.InterfacesFound := by
  cases ht with
  | same => exact h
  | nodeAdded ht => exact h.insertNode ht
  | edgeAdded ht => exact h.addEdge ht
  | pairAdded => exact h.addPair ..
  | nodeChanged => exact h.of_edges_eq rfl rfl
  | metricSet e => exact h.modifyEdge e fun _ => ⟨rfl, rfl⟩
  | protectionSet e => exact h.modifyEdge e fun _ => ⟨rfl, rfl⟩
  | statusSet e up => exact h.setLinkStatus e up
  | inverted l => exact h.invert l

/-- **In every topology that can be built a unicast edge is found by its interface.** -/
theorem interfacesFound_after (history : List Change) : (after {} history).InterfacesFound :=
  (becomes_induction (P := fun t => t.WellFormed ∧ t.InterfacesFound)
    (fun _ _ ht ⟨hw, h⟩ => ⟨hw.becomes ht, h.becomes ht⟩) ⟨wellFormed_empty, interfacesFound_empty⟩
    history).2

end LinkState.Topology
