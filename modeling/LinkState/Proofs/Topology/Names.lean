import LinkState.Proofs.Topology.WellFormed

/-!
# Names tell nodes apart

In a topology that was built step by step the index of names leads from a name to the node that has
it, and holds no other names (`NamesFound`): a node is entered when it is stored, which it is only
if its name is not in the index, and no change renames a node. Every change keeps this, whether it
succeeds or not (`NamesFound.becomes`).

So no two nodes have the same name (`namesDistinct_after`), and an event, which tells of a node by
its name, tells of that node only (`NamesDistinct.nameOf_inj`).
-/

namespace LinkState.Topology

/-- The index of names holds the name of every node, and nothing else. -/
structure NamesFound (t : Topology) : Prop where
  found : ∀ name n, t.names[name]? = some n ↔ ∃ node, t.nodes.get? n = some node ∧ node.name = name

/-- No two nodes have the same name. -/
def NamesDistinct (t : Topology) : Prop :=
  ∀ n m a b, t.nodes.get? n = some a → t.nodes.get? m = some b → a.name = b.name → n = m

variable {t : Topology}

theorem NamesDistinct.nameOf_inj (h : t.NamesDistinct) {n m : NodeId}
    (hn : t.nodes.contains n = true) (hm : t.nodes.contains m = true)
    (hname : t.nameOf n = t.nameOf m) : n = m := by
  obtain ⟨a, ha⟩ := Option.isSome_iff_exists.1 hn
  obtain ⟨b, hb⟩ := Option.isSome_iff_exists.1 hm
  refine h n m a b ha hb ?_
  simpa [nameOf, ha, hb] using hname

/-- A name leads to one node. -/
theorem NamesFound.distinct (h : t.NamesFound) : t.NamesDistinct := by
  intro n m a b ha hb hab
  have hn := (h.found a.name n).2 ⟨a, ha, rfl⟩
  have hm := (h.found a.name m).2 ⟨b, hb, hab.symm⟩
  exact Option.some.inj (hn.symm.trans hm)

/-! ## Changes -/

theorem namesFound_empty : NamesFound {} := by
  constructor
  intro name n
  simp [Table.get?]

theorem NamesFound.of_eq (h : t.NamesFound) {t' : Topology} (hnodes : t'.nodes = t.nodes)
    (hnames : t'.names = t.names) : t'.NamesFound := by
  constructor
  rw [hnodes, hnames]
  exact h.found

/-- Nodes may be replaced by nodes with the same names. -/
theorem NamesFound.modifyNode (h : t.NamesFound) (n : NodeId) {f : Node → Node}
    (hf : ∀ a, (f a).name = a.name) : (t.modifyNode n f).NamesFound := by
  constructor
  intro name m
  rw [Topology.modifyNode, Table.get?_modify, h.found]
  split
  · cases t.nodes.get? m <;> simp [hf]
  · rfl

/-- A new node is entered under a name that is not in the index yet. -/
theorem NamesFound.insertNode (h : t.NamesFound) {node : Node} {n : NodeId} {t' : Topology}
    (ht : t.insertNode node = .ok (n, t')) : t'.NamesFound := by
  unfold Topology.insertNode at ht
  split at ht <;> cases ht
  rename_i hnew
  have hother : ∀ m a, t.nodes.get? m = some a → a.name ≠ node.name := by
    intro m a ha hname
    rw [nodeNamed?, (h.found node.name m).2 ⟨a, ha, hname⟩] at hnew
    cases hnew
  constructor
  intro name m
  rw [Topology.pushNode, Std.TreeMap.getElem?_insert, Table.get?_push]
  simp only [Std.LawfulEqOrd.compare_eq_iff_eq]
  by_cases hname : node.name = name <;> by_cases hm : m = t.nodes.nextHandle
  · simp [hname, hm]
  · -- the name leads to the new node and is the name of no other one
    rw [if_pos hname, if_neg hm, Option.some.injEq]
    refine ⟨fun e => absurd e.symm hm, ?_⟩
    rintro ⟨a, ha, rfl⟩
    exact absurd hname.symm (hother m a ha)
  · rw [if_neg hname, if_pos hm, h.found, hm, Table.get?_nextHandle]
    simp [hname]
  · rw [if_neg hname, if_neg hm, h.found]

theorem NamesFound.addEdge (h : t.NamesFound) {source target : Endpoint} {metric : PerLevel Metric}
    {levelType : LevelType} {kind : EdgeKind} {e : EdgeId} {t' : Topology}
    (ht : t.addEdge source target metric levelType kind = .ok (e, t')) : t'.NamesFound := by
  obtain ⟨-, -, -, rfl⟩ := addEdge_eq_ok ht
  exact h.of_eq rfl rfl

theorem NamesFound.addPair (h : t.NamesFound) (a b : Endpoint) (there back : Metric)
    (levelType : LevelType) : (t.addPair a b there back levelType).2.NamesFound := by
  unfold Topology.addPair
  split
  · exact h
  rename_i h₁
  split
  · exact h.addEdge h₁
  rename_i h₂
  exact ((h.addEdge h₁).addEdge h₂).of_eq rfl rfl

theorem NamesFound.setLinkStatus (h : t.NamesFound) (e : EdgeId) (up : Bool) :
    (t.setLinkStatus e up).NamesFound := by
  unfold Topology.setLinkStatus
  split <;> exact h.of_eq rfl rfl

/-- Every change keeps the index of names right, also one that fails. -/
theorem NamesFound.becomes (h : t.NamesFound) {t' : Topology} (ht : t.Becomes t') :
    t'.NamesFound := by
  cases ht with
  | same => exact h
  | nodeAdded ht => exact h.insertNode ht
  | edgeAdded ht => exact h.addEdge ht
  | pairAdded => exact h.addPair ..
  | nodeChanged n _ hf => exact h.modifyNode n hf
  | metricSet => exact h.of_eq rfl rfl
  | protectionSet => exact h.of_eq rfl rfl
  | statusSet e up => exact h.setLinkStatus e up
  | inverted => exact h.of_eq rfl rfl

/-- **In every topology that can be built the index of names leads to the nodes.** -/
theorem namesFound_after (history : List Change) : (after {} history).NamesFound :=
  becomes_induction (fun _ _ ht h => h.becomes ht) namesFound_empty history

/-- **Names tell the nodes of every topology that can be built apart.** -/
theorem namesDistinct_after (history : List Change) : (after {} history).NamesDistinct :=
  (namesFound_after history).distinct

end LinkState.Topology
