import LinkState.Proofs.Topology.WellFormed

/-!
# Edges in pairs

A link and a LAN membership are pairs of edges. In a topology that was built step by step an edge
with an inverse is always one of such a pair (`Paired`): the two are each other's inverse, both are
unicast, take part in the same levels, and are up or down together. Changes may give them different
metrics and protections, but no change takes a pair apart (`Paired.becomes`), so it holds after
every history of changes (`paired_after`).
-/

namespace LinkState.Topology

/-- What an edge and its inverse have in common. -/
structure PairedWith (e i : EdgeId) (edge back : Edge) : Prop where
  ne : i ≠ e
  inverse : back.inverse = some e
  kind : edge.kind = .unicast
  kind_back : back.kind = .unicast
  levels : back.levels = edge.levels
  up : back.up = edge.up

/-- Every edge with an inverse is one of a pair. -/
structure Paired (t : Topology) : Prop where
  pair : ∀ e edge i, t.edges.get? e = some edge → edge.inverse = some i →
    ∃ back, t.edges.get? i = some back ∧ PairedWith e i edge back

/-- An edge with the same inverse that may be used whenever the other one may. -/
structure SameStanding (a b : Edge) : Prop where
  inverse : b.inverse = a.inverse
  kind : b.kind = a.kind
  levels : b.levels = a.levels
  up : b.up = a.up

variable {t : Topology}

theorem SameStanding.refl (a : Edge) : SameStanding a a := ⟨rfl, rfl, rfl, rfl⟩

theorem PairedWith.congr {e i : EdgeId} {a a' b b' : Edge} (h : PairedWith e i a b)
    (ha : SameStanding a a') (hb : SameStanding b b') : PairedWith e i a' b' :=
  ⟨h.ne, hb.inverse.trans h.inverse, ha.kind.trans h.kind, hb.kind.trans h.kind_back,
    by rw [hb.levels, h.levels, ha.levels], by rw [hb.up, h.up, ha.up]⟩

theorem paired_empty : Paired {} := by
  constructor
  intro e edge i h
  simp [Table.get?] at h

/-- Edges may be replaced by edges of the same standing. -/
theorem Paired.of_sameStanding (h : t.Paired) {t' : Topology} (f : EdgeId → Edge → Edge)
    (hf : ∀ e edge, SameStanding edge (f e edge))
    (get : ∀ e, t'.edges.get? e = (t.edges.get? e).map (f e)) : t'.Paired := by
  constructor
  intro e edge i he hi
  rw [get] at he
  obtain ⟨old, hold, rfl⟩ := Option.map_eq_some_iff.1 he
  obtain ⟨back, hback, hpair⟩ := h.pair e old i hold ((hf e old).inverse ▸ hi)
  exact ⟨f i back, by rw [get, hback]; rfl, hpair.congr (hf e old) (hf i back)⟩

theorem Paired.modifyEdge (h : t.Paired) (e : EdgeId) {f : Edge → Edge}
    (hf : ∀ edge, SameStanding edge (f edge)) : (t.modifyEdge e f).Paired := by
  refine h.of_sameStanding (fun i edge => if e = i then f edge else edge) (fun i edge => ?_)
    fun i => ?_
  · split
    · exact hf edge
    · exact .refl edge
  · rw [Topology.modifyEdge, Table.get?_modify]
    split <;> simp

/-- A table of nodes has nothing to do with pairs of edges. -/
theorem Paired.of_edges_eq (h : t.Paired) {t' : Topology} (he : t'.edges = t.edges) :
    t'.Paired := by
  constructor
  rw [he]
  exact h.pair

theorem Paired.insertNode (h : t.Paired) {node : Node} {n : NodeId} {t' : Topology}
    (ht : t.insertNode node = .ok (n, t')) : t'.Paired := by
  unfold Topology.insertNode at ht
  split at ht <;> cases ht
  exact h.of_edges_eq rfl

theorem Paired.addEdge (h : t.Paired) {source target : Endpoint} {metric : PerLevel Metric}
    {levelType : LevelType} {kind : EdgeKind} {e : EdgeId} {t' : Topology}
    (ht : t.addEdge source target metric levelType kind = .ok (e, t')) : t'.Paired := by
  obtain ⟨-, -, rfl, rfl⟩ := addEdge_eq_ok ht
  constructor
  intro e edge i he hi
  rw [edges_pushEdge, Table.get?_push] at he
  split at he
  · -- the new edge has no inverse
    cases he
    cases hi
  · obtain ⟨back, hback, hpair⟩ := h.pair e edge i he hi
    refine ⟨back, ?_, hpair⟩
    rw [edges_pushEdge, Table.get?_push, if_neg, hback]
    rintro rfl
    rw [Table.get?_nextHandle] at hback
    cases hback

theorem Paired.addPair (h : t.Paired) (a b : Endpoint) (there back : Metric)
    (levelType : LevelType) : (t.addPair a b there back levelType).2.Paired := by
  unfold Topology.addPair
  split
  · exact h
  rename_i ab t₁ h₁
  split
  · exact h.addEdge h₁
  rename_i ba t₂ h₂
  obtain ⟨hne, hab, hba, get⟩ := addEdge_twice h₁ h₂
  have hget := get?_join hne (by rw [get, if_neg hne, if_pos rfl]) (by rw [get, if_pos rfl])
  constructor
  intro e edge i he hi
  dsimp only at he ⊢
  rw [hget] at he
  split at he
  · rename_i e'
    subst e'
    cases he
    cases hi
    exact ⟨_, (hget ba).trans ((if_neg hne.symm).trans (if_pos rfl)), hne.symm, rfl, rfl, rfl, rfl,
      rfl⟩
  split at he
  · rename_i e'
    subst e'
    cases he
    cases hi
    exact ⟨_, (hget ab).trans (if_pos rfl), hne, rfl, rfl, rfl, rfl, rfl⟩
  · -- an old edge, whose inverse is also old
    rename_i hea heb
    rw [get, if_neg heb, if_neg hea] at he
    obtain ⟨back, hback, hpair⟩ := h.pair e edge i he hi
    have hia : i ≠ ab := by
      rintro rfl
      rw [hab] at hback
      cases hback
    have hib : i ≠ ba := by
      rintro rfl
      rw [hba] at hback
      cases hback
    exact ⟨back, by rw [hget, if_neg hia, if_neg hib, get, if_neg hib, if_neg hia, hback], hpair⟩

/-- Edges may be taken up or down, as long as an edge is changed whenever its inverse is. -/
theorem Paired.setUp (h : t.Paired) {t' : Topology} (S : EdgeId → Prop) [DecidablePred S]
    (up : Bool) (hS : ∀ e edge i, t.edges.get? e = some edge → edge.inverse = some i → (S e ↔ S i))
    (get : ∀ e, t'.edges.get? e =
      (t.edges.get? e).map fun edge => if S e then { edge with up } else edge) : t'.Paired := by
  constructor
  intro e edge i he hi
  rw [get] at he
  obtain ⟨old, hold, rfl⟩ := Option.map_eq_some_iff.1 he
  have hi : old.inverse = some i := by
    rw [← hi]
    split <;> rfl
  obtain ⟨back, hback, hpair⟩ := h.pair e old i hold hi
  refine ⟨_, by rw [get, hback]; rfl, ?_⟩
  have hboth := hS e old i hold hi
  dsimp only
  by_cases he : S e
  · rw [if_pos he, if_pos (hboth.1 he)]
    exact ⟨hpair.ne, hpair.inverse, hpair.kind, hpair.kind_back, hpair.levels, rfl⟩
  · rw [if_neg he, if_neg (mt hboth.2 he)]
    exact hpair

theorem Paired.setLinkStatus (h : t.Paired) (e : EdgeId) (up : Bool) :
    (t.setLinkStatus e up).Paired := by
  unfold Topology.setLinkStatus
  split
  · rename_i i hi
    obtain ⟨edge, hedge, hedge'⟩ := Option.bind_eq_some_iff.1 hi
    obtain ⟨back, hback, hpair⟩ := h.pair e edge i hedge hedge'
    refine h.setUp (fun x => e = x ∨ i = x) up (fun x old y hx hy => ?_) fun x => ?_
    · obtain ⟨backX, hbackX, hpairX⟩ := h.pair x old y hx hy
      have := hpair.inverse
      have := hpairX.inverse
      grind
    · simp only [Topology.modifyEdge, Table.get?_modify]
      by_cases he : e = x <;> by_cases hi : i = x <;> cases t.edges.get? x <;> simp [he, hi]
  · rename_i hnone
    refine h.setUp (fun x => e = x) up (fun x old y hx hy => ?_) fun x => ?_
    · -- an edge without an inverse is no edge's inverse
      obtain ⟨backX, hbackX, hpairX⟩ := h.pair x old y hx hy
      have := hpairX.inverse
      grind
    · simp only [Topology.modifyEdge, Table.get?_modify]
      by_cases he : e = x <;> simp [he]

theorem Paired.invert (h : t.Paired) (l : Level) : (t.invert l).Paired := by
  refine h.of_sameStanding _ (fun e edge => ?_) fun e => Table.get?_map _ _ e
  split
  · split <;> exact ⟨rfl, rfl, rfl, rfl⟩
  · exact ⟨rfl, rfl, rfl, rfl⟩

/-- No change takes a pair of edges apart, also one that fails. -/
theorem Paired.becomes (h : t.Paired) {t' : Topology} (ht : t.Becomes t') : t'.Paired := by
  cases ht with
  | same => exact h
  | nodeAdded ht => exact h.insertNode ht
  | edgeAdded ht => exact h.addEdge ht
  | pairAdded => exact h.addPair ..
  | nodeChanged => exact h.of_edges_eq rfl
  | metricSet e => exact h.modifyEdge e fun _ => ⟨rfl, rfl, rfl, rfl⟩
  | protectionSet e => exact h.modifyEdge e fun _ => ⟨rfl, rfl, rfl, rfl⟩
  | statusSet e up => exact h.setLinkStatus e up
  | inverted l => exact h.invert l

/-- **In every topology that can be built an edge with an inverse is one of a pair.** -/
theorem paired_after (history : List Change) : (after {} history).Paired :=
  becomes_induction (fun _ _ ht h => h.becomes ht) paired_empty history

/-! ## Both edges of a pair -/

/-- The edges of a pair lead to and fro between the same ends. -/
theorem Paired.exists_back (hp : t.Paired) (hw : t.WellFormed) {e i : EdgeId} {edge : Edge}
    (h : t.edges.get? e = some edge) (hi : edge.inverse = some i) :
    ∃ back, t.edges.get? i = some back ∧ PairedWith e i edge back ∧
      back.source = edge.target ∧ back.target = edge.source := by
  obtain ⟨back, hback, hpair⟩ := hp.pair e edge i h hi
  obtain ⟨back', hback', hends⟩ := hw.inverse e edge i h hi
  cases hback.symm.trans hback'
  exact ⟨back, hback, hpair, hends⟩

theorem PairedWith.isActive_eq {e i : EdgeId} {edge back : Edge} (h : PairedWith e i edge back)
    (l : Level) : back.isActive l = edge.isActive l := by
  rw [Edge.isActive, Edge.isActive, h.up, h.levels]

end LinkState.Topology
