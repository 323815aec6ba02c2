import LinkState.Proofs.Topology.Interfaces
import LinkState.Proofs.Topology.Names
import LinkState.Proofs.Topology.Reachability
import Mathlib.Data.String.Basic

/-!
# What a topology keeps in order

A topology stores its nodes and edges in tables, and beside them an index of the names and a list of
edges for each node. `Represented` says that these hold what the tables say: a name leads to the
node that has it, the list of nodes by name is in ascending order, every edge joins two nodes and
stands once in the list of its owner and in no other list, a unicast edge is found by its interface,
and an edge with an inverse is one of a pair that joins the same two ends.

None of this comes with the data. Each part is an invariant of its own that every change keeps, also
one that fails after it has stored the first of two edges: `NamesFound`, `WellFormed` with the lists
of edges, `InterfacesFound` and `Paired`. `represented_after` puts them together for every topology
that can be built.
-/

namespace LinkState.Topology

variable {t : Topology}

/-! ## Reading by name -/

/-- A name leads to the node that has it. -/
theorem NamesFound.lookup_eq_ok_iff (h : t.NamesFound) {name : String} {n : NodeId} :
    t.lookup name = .ok n ↔ ∃ node, t.nodes.get? n = some node ∧ node.name = name := by
  rw [← h.found]
  unfold lookup nodeNamed?
  cases t.names[name]? <;> simp

/-- An entry of the index is listed with the node that it leads to. -/
theorem mem_nodesByName {n : NodeId} {node : Node} : (n, node) ∈ t.nodesByName ↔
    t.nodes.get? n = some node ∧ ∃ name : String, t.names[name]? = some n := by
  simp only [nodesByName, List.mem_filterMap, Prod.exists, Option.map_eq_some_iff, Prod.mk.injEq,
    Std.TreeMap.mem_toList_iff_getElem?_eq_some]
  constructor
  · rintro ⟨name, m, hname, a, ha, rfl, rfl⟩
    exact ⟨ha, name, hname⟩
  · rintro ⟨hnode, name, hname⟩
    exact ⟨name, n, hname, node, hnode, rfl, rfl⟩

theorem NamesFound.mem_nodesByName_iff (h : t.NamesFound) {n : NodeId} {node : Node} :
    (n, node) ∈ t.nodesByName ↔ t.nodes.get? n = some node := by
  rw [mem_nodesByName, and_iff_left_iff_imp]
  exact fun hnode => ⟨node.name, (h.found node.name n).2 ⟨node, hnode, rfl⟩⟩

/-- The nodes listed by name are in ascending order, so that none is listed twice. -/
theorem NamesFound.nodesByName_sorted (h : t.NamesFound) :
    t.nodesByName.Pairwise fun a b => a.2.name < b.2.name := by
  have hname : ∀ entry ∈ t.names.toList, ∀ a,
      (t.nodes.get? entry.2).map (entry.2, ·) = some a → a.2.name = entry.1 := by
    rintro ⟨name, n⟩ hentry a ha
    obtain ⟨node, hnode, rfl⟩ := Option.map_eq_some_iff.1 ha
    obtain ⟨node', hnode', rfl⟩ :=
      (h.found name n).1 (Std.TreeMap.mem_toList_iff_getElem?_eq_some.1 hentry)
    cases hnode.symm.trans hnode'
    rfl
  refine List.pairwise_filterMap.2 (Std.TreeMap.ordered_keys_toList.imp_of_mem ?_)
  intro x y hx hy hlt a ha b hb
  rw [hname x hx a ha, hname y hy b hb]
  exact compare_lt_iff_lt.1 hlt

/-! ## Reading by owner -/

/-- The list of a node holds stored edges that it owns. -/
theorem Listed.mem_outgoing (h : t.Listed) {n : NodeId} {e : EdgeId} : e ∈ t.outgoing.read n ↔
    ∃ edge, t.edges.get? e = some edge ∧ edge.source.node = n := by
  rw [h.outgoing, List.mem_map]
  constructor
  · rintro ⟨a, ha, rfl⟩
    obtain ⟨ha, howner⟩ := List.mem_filter.1 ha
    exact ⟨a.edge, mem_arcs.1 ha, eq_of_beq howner⟩
  · rintro ⟨edge, hedge, howner⟩
    exact ⟨⟨e, edge⟩, List.mem_filter.2 ⟨mem_arcs.2 hedge, beq_iff_eq.2 howner⟩, rfl⟩

/-- A stored edge stands once in the list of its owner and in no other one. -/
theorem Listed.count_outgoing (h : t.Listed) {e : EdgeId} {edge : Edge}
    (he : t.edges.get? e = some edge) (n : NodeId) :
    (t.outgoing.read n).count e = if n = edge.source.node then 1 else 0 := by
  have hmem : e ∈ t.outgoing.read n ↔ n = edge.source.node := by
    rw [h.mem_outgoing, he]
    simp [eq_comm]
  have hnodup : (t.outgoing.read n).Nodup := by
    rw [h.outgoing]
    exact t.arcs_nodup.sublist (List.filter_sublist.map _)
  split
  · rename_i hn
    exact List.count_eq_one_of_mem hnodup (hmem.2 hn)
  · rename_i hn
    exact List.count_eq_zero.2 (mt hmem.1 hn)

/-! ## All views -/

/-- The indexes of a topology agree with its tables, and so does all that is read from them. -/
structure Represented (t : Topology) : Prop where
  /-- A name and the node that has it lead to each other. -/
  lookup : ∀ name n, t.lookup name = .ok n ↔ ∃ node, t.nodes.get? n = some node ∧ node.name = name
  names : t.NamesDistinct
  /-- The list by name holds all nodes. -/
  listed : ∀ n node, (n, node) ∈ t.nodesByName ↔ t.nodes.get? n = some node
  ascending : t.nodesByName.Pairwise fun a b => a.2.name < b.2.name
  ends : ∀ e edge, t.edges.get? e = some edge →
    t.nodes.contains edge.source.node = true ∧ t.nodes.contains edge.target.node = true
  /-- The list of a node holds stored edges that the node owns, and no other handles. -/
  owned : ∀ n, ∀ e ∈ t.outgoing.read n,
    ∃ edge, t.edges.get? e = some edge ∧ edge.source.node = n
  /-- Every edge stands once in the list of its owner, and in no other list. -/
  once : ∀ e edge, t.edges.get? e = some edge → ∀ n,
    (t.outgoing.read n).count e = if n = edge.source.node then 1 else 0
  interface : ∀ e edge, t.edges.get? e = some edge → edge.kind = .unicast →
    t.edgeAt? edge.source.node edge.source.ifname = some e
  inverse : ∀ e edge i, t.edges.get? e = some edge → edge.inverse = some i →
    ∃ back, t.edges.get? i = some back ∧ PairedWith e i edge back ∧
      back.source = edge.target ∧ back.target = edge.source

/-- **In every topology that can be built the indexes agree with the tables.** -/
theorem represented_after (history : List Change) : (after {} history).Represented := by
  have hw := wellFormed_after history
  have hnames := namesFound_after history
  exact {
    lookup := fun _ _ => hnames.lookup_eq_ok_iff
    names := hnames.distinct
    listed := fun _ _ => hnames.mem_nodesByName_iff
    ascending := hnames.nodesByName_sorted
    ends := fun e edge h => ⟨hw.source_mem e edge h, hw.target_mem e edge h⟩
    owned := fun _ _ => hw.toListed.mem_outgoing.1
    once := fun _ _ => hw.toListed.count_outgoing
    interface := (interfacesFound_after history).found
    inverse := fun _ _ _ => (paired_after history).exists_back hw }

end LinkState.Topology
