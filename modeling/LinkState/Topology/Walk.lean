import LinkState.Topology.Neighbours

/-!
# Usable edges and walks

The edges that traffic may take at a level, and the walks along them.

* `Usable`: an edge is usable if it is active, its owner is not overloaded, since such a node
  carries no transit traffic, and it is a tunnel or its far end has an active unicast edge back.
* `usableArcs` lists the usable edges of a node (`mem_usableArcs`).
* `Walk` joins two nodes by usable edges; `cost` is the exact sum of their metrics, which may exceed
  what a metric can hold. Walks compose (`Walk.append`) and costs add up (`cost_append`).
-/

namespace LinkState.Topology

variable (t : Topology) (l : Level)

/-- The usable edges of a node, in order of creation. -/
def usableArcs (n : NodeId) : List Arc :=
  if t.isOverloaded n l then []
  else (t.activeArcs n l).filter fun a =>
    a.edge.kind == .lsp || t.hasReturn n a.edge.target.node l

/-- An edge that traffic may take at a level. -/
structure Usable (a : Arc) : Prop where
  stored : t.edges.get? a.id = some a.edge
  active : a.edge.isActive l = true
  forwards : t.isOverloaded a.edge.source.node l = false
  returns : a.edge.kind = .lsp ∨ ∃ b : Arc,
    t.edges.get? b.id = some b.edge ∧ b.edge.source.node = a.edge.target.node ∧
      b.edge.target.node = a.edge.source.node ∧ b.edge.isActive l = true ∧ b.edge.kind = .unicast

/-- A walk along usable edges from one node to another. -/
inductive Walk : NodeId → List Arc → NodeId → Prop
  | nil (n : NodeId) : Walk n [] n
  | cons {n m : NodeId} {a : Arc} {as : List Arc} (usable : Usable t l a)
      (leaves : a.edge.source.node = n) (rest : Walk a.edge.target.node as m) : Walk n (a :: as) m

/-- The sum of the metrics of some edges at a level. -/
def cost : List Arc → Nat
  | [] => 0
  | a :: as => (a.edge.cost l).toNat + cost as

variable {t l}

theorem hasReturn_iff [t.Listed] {n next : NodeId} :
    t.hasReturn n next l = true ↔ ∃ b : Arc, t.edges.get? b.id = some b.edge ∧
      b.edge.source.node = next ∧ b.edge.target.node = n ∧ b.edge.isActive l = true ∧
        b.edge.kind = .unicast := by
  unfold hasReturn
  simp only [List.any_eq_true, mem_activeArcs, Bool.and_eq_true, beq_iff_eq]
  constructor
  · rintro ⟨b, ⟨hb, hs, ha⟩, ht, hk⟩
    exact ⟨b, hb, hs, ht, ha, hk⟩
  · rintro ⟨b, hb, hs, ht, ha, hk⟩
    exact ⟨b, ⟨hb, hs, ha⟩, ht, hk⟩

theorem mem_usableArcs [t.Listed] {n : NodeId} {a : Arc} :
    a ∈ t.usableArcs l n ↔ Usable t l a ∧ a.edge.source.node = n := by
  unfold usableArcs
  constructor
  · intro h
    split at h
    · cases h
    · rename_i hn
      obtain ⟨hm, hr⟩ := List.mem_filter.1 h
      obtain ⟨hs, rfl, ha⟩ := mem_activeArcs t |>.1 hm
      rw [Bool.or_eq_true, beq_iff_eq, hasReturn_iff] at hr
      exact ⟨⟨hs, ha, by simpa using hn, hr⟩, rfl⟩
  · rintro ⟨h, rfl⟩
    rw [if_neg (by simp [h.forwards])]
    refine List.mem_filter.2 ⟨(mem_activeArcs t).2 ⟨h.stored, rfl, h.active⟩, ?_⟩
    rw [Bool.or_eq_true, beq_iff_eq, hasReturn_iff]
    exact h.returns

theorem Walk.append {n m k : NodeId} {as bs : List Arc} (h : Walk t l n as m)
    (h' : Walk t l m bs k) : Walk t l n (as ++ bs) k := by
  induction h with
  | nil => exact h'
  | cons usable leaves _ ih => exact .cons usable leaves (ih h')

theorem cost_append (as bs : List Arc) : cost l (as ++ bs) = cost l as + cost l bs := by
  induction as with
  | nil => simp [cost]
  | cons a as ih => simp [cost, ih, Nat.add_assoc]

end LinkState.Topology
