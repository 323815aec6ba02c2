import LinkState.Proofs.Topology.LeastMetric
import LinkState.Proofs.Topology.Pairs
import LinkState.Proofs.Topology.Reachability

/-!
# Walks backwards

The inversion of a topology gives each edge of a pair the metric of the other one and changes
nothing else (`Inverts`), so it is undone by a second inversion (`invert_invert`). Since an edge is
in one pair at most, it does not matter that all edges are inverted at once: swapping the metrics of
one pair after the other comes to the same (`Paired.invertInTurn_eq`).

In a `Duplex` topology all active edges of a level come in pairs. Traffic may then take every active
edge whose owner is not overloaded (`Duplex.usable_iff`), and a walk can be taken back: the inverse
edges make a walk of the same cost on the inverted topology (`Walk.reverse`). Overload is seen from
the other end there, since a node that may end a walk may not forward on the way back; between two
nodes that are not overloaded nothing is lost, and the least metric on the inverted topology is the
least metric in the opposite direction (`leastMetric_invert`).
-/

namespace LinkState

namespace Topology

variable {t : Topology} {l : Level} {e i : EdgeId} {edge back : Edge} {x y : NodeId}
  {as : List Arc}

/-! ## Inversion -/

/-- An edge of a pair takes over the metric of the other one. -/
theorem get?_invert_of_inverse (h : t.edges.get? e = some edge) (hi : edge.inverse = some i)
    (hback : t.edges.get? i = some back) (hl : edge.levels.has l = true)
    (hl' : back.levels.has l = true) : (t.invert l).edges.get? e =
      some { edge with metric := edge.metric.set l (back.cost l) } := by
  simp [invert, Table.get?_map, h, hi, hback, hl, hl']

/-- An edge without an inverse, or with one that does not take part in the level, is left alone. -/
theorem get?_invert_of_not (h : t.edges.get? e = some edge)
    (hnot : ∀ i back, edge.inverse = some i → t.edges.get? i = some back →
      edge.levels.has l = true → back.levels.has l = false) :
    (t.invert l).edges.get? e = some edge := by
  rw [invert, Table.get?_map, h, Option.map_some]
  split
  · rename_i back hback
    obtain ⟨i, hi, hback⟩ := Option.bind_eq_some_iff.1 hback
    split
    · rename_i hl
      rw [Bool.and_eq_true] at hl
      rw [hnot i back hi hback hl.1] at hl
      cases hl.2
    · rfl
  · rfl

theorem get?_invert_eq_none (h : t.edges.get? e = none) : (t.invert l).edges.get? e = none := by
  rw [invert, Table.get?_map, h, Option.map_none]

/-- What an inversion does: an edge takes over the metric of its inverse if both take part in the
level, and nothing else changes. -/
structure Inverts (t : Topology) (l : Level) (t' : Topology) : Prop where
  nodes : t'.nodes = t.nodes
  names : t'.names = t.names
  outgoing : t'.outgoing = t.outgoing
  swapped : ∀ e edge i back, t.edges.get? e = some edge → edge.inverse = some i →
    t.edges.get? i = some back → edge.levels.has l = true → back.levels.has l = true →
    t'.edges.get? e = some { edge with metric := edge.metric.set l (back.cost l) }
  kept : ∀ e, (∀ edge i back, t.edges.get? e = some edge → edge.inverse = some i →
    t.edges.get? i = some back → edge.levels.has l = true → back.levels.has l = false) →
    t'.edges.get? e = t.edges.get? e

theorem inverts_invert (t : Topology) (l : Level) : Inverts t l (t.invert l) where
  nodes := rfl
  names := rfl
  outgoing := rfl
  swapped _ _ _ _ := get?_invert_of_inverse
  kept e hnot := by
    cases h : t.edges.get? e with
    | none => exact get?_invert_eq_none h
    | some edge => exact get?_invert_of_not h fun i back => hnot edge i back h

/-- Two topologies that differ in their edges at most are the same if the edges are. -/
theorem eq_of_get? {t' : Topology} (hrest : t' = { t with edges := t'.edges })
    (hedges : ∀ e, t'.edges.get? e = t.edges.get? e) : t' = t := by
  rw [Table.ext_get? hedges] at hrest
  exact hrest

/-- **A second inversion undoes the first one.** -/
theorem invert_invert (hp : t.Paired) (l : Level) : (t.invert l).invert l = t := by
  refine eq_of_get? rfl fun e => ?_
  cases hedge : t.edges.get? e with
  | none => exact get?_invert_eq_none (get?_invert_eq_none hedge)
  | some edge =>
    by_cases hpair : ∃ i, edge.inverse = some i ∧ edge.levels.has l = true
    · obtain ⟨i, hi, hl⟩ := hpair
      obtain ⟨back, hback, hpair⟩ := hp.pair e edge i hedge hi
      have hl' : back.levels.has l = true := hpair.levels ▸ hl
      rw [get?_invert_of_inverse (get?_invert_of_inverse hedge hi hback hl hl') hi
        (get?_invert_of_inverse hback hpair.inverse hedge hl' hl) hl hl']
      simp only [Edge.cost, PerLevel.get_set_self, PerLevel.set_set, PerLevel.set_get]
    · refine get?_invert_of_not (get?_invert_of_not hedge ?_) ?_ <;>
        exact fun i back hi _ hl => absurd ⟨i, hi, hl⟩ hpair

/-! ## Inversion pair by pair -/

/-- The pairs of edges at a level, the older edge first. -/
def pairs (t : Topology) (l : Level) : List (EdgeId × EdgeId) :=
  ((t.arcs.filter (·.edge.levels.has l)).filterMap fun a => a.edge.inverse.map (a.id, ·)).filter
    fun p => (compare p.1 p.2).isLT

/-- Swaps the metrics of two edges, if the second one takes part in the level. -/
def swapMetrics (t : Topology) (l : Level) (p : EdgeId × EdgeId) : Topology :=
  match t.edges.get? p.1, t.edges.get? p.2 with
  | some edge, some back =>
    if back.levels.has l then (t.setMetric p.1 l (back.cost l)).setMetric p.2 l (edge.cost l)
    else t
  | _, _ => t

/-- Inverts a topology in place, one pair of edges after the other. -/
def invertInTurn (t : Topology) (l : Level) : Topology :=
  (t.pairs l).foldl (fun t p => t.swapMetrics l p) t

theorem mem_pairs : (e, i) ∈ t.pairs l ↔ ∃ edge, t.edges.get? e = some edge ∧
    edge.levels.has l = true ∧ edge.inverse = some i ∧ compare e i = .lt := by
  simp only [pairs, List.mem_filter, List.mem_filterMap, mem_arcs, Option.map_eq_some_iff,
    Prod.mk.injEq, Ordering.isLT_iff_eq_lt]
  constructor
  · rintro ⟨⟨⟨_, edge⟩, ⟨h, hl⟩, _, hi, rfl, rfl⟩, hlt⟩
    exact ⟨edge, h, hl, hi, hlt⟩
  · rintro ⟨edge, h, hl, hi, hlt⟩
    exact ⟨⟨⟨e, edge⟩, ⟨h, hl⟩, i, hi, rfl, rfl⟩, hlt⟩

/-- No edge is the first one of two pairs. -/
theorem pairs_pairwise (t : Topology) (l : Level) :
    (t.pairs l).Pairwise fun p q => p.1 ≠ q.1 := by
  have harcs : t.arcs.Pairwise fun a b => a.id ≠ b.id := List.pairwise_map.1 t.arcs_nodup
  refine List.Pairwise.filter _ (List.pairwise_filterMap.2 ((harcs.filter _).imp ?_))
  intro a b hne p hp q hq
  obtain ⟨_, -, rfl⟩ := Option.map_eq_some_iff.1 hp
  obtain ⟨_, -, rfl⟩ := Option.map_eq_some_iff.1 hq
  exact hne

/-- Two pairs with different first edges have no edge in common. -/
theorem Paired.pairs_disjoint (hp : t.Paired) {a b c d : EdgeId} (h : (a, b) ∈ t.pairs l)
    (h' : (c, d) ∈ t.pairs l) (hne : a ≠ c) : c ≠ b ∧ d ≠ a ∧ d ≠ b := by
  obtain ⟨edge, hedge, -, hi, hlt⟩ := mem_pairs.1 h
  obtain ⟨edge', hedge', -, hi', hlt'⟩ := mem_pairs.1 h'
  obtain ⟨back, hback, hpair⟩ := hp.pair a edge b hedge hi
  obtain ⟨back', hback', hpair'⟩ := hp.pair c edge' d hedge' hi'
  refine ⟨?_, ?_, ?_⟩
  · rintro rfl
    -- the pairs would be one pair, listed from both ends
    cases hback.symm.trans hedge'
    cases hpair.inverse.symm.trans hi'
    exact absurd (Std.OrientedCmp.gt_of_lt hlt) (by rw [hlt']; decide)
  · rintro rfl
    cases hback'.symm.trans hedge
    cases hpair'.inverse.symm.trans hi
    exact absurd (Std.OrientedCmp.gt_of_lt hlt) (by rw [hlt']; decide)
  · rintro rfl
    cases hback.symm.trans hback'
    cases hpair.inverse.symm.trans hpair'.inverse
    exact hne rfl

/-- Swapping metrics changes edges only. -/
theorem swapMetrics_rest (t : Topology) (l : Level) (p : EdgeId × EdgeId) :
    t.swapMetrics l p = { t with edges := (t.swapMetrics l p).edges } := by
  unfold swapMetrics
  split
  · split <;> rfl
  · rfl

theorem foldl_swapMetrics_rest (t : Topology) (l : Level) (ps : List (EdgeId × EdgeId)) :
    ps.foldl (fun t p => t.swapMetrics l p) t =
      { t with edges := (ps.foldl (fun t p => t.swapMetrics l p) t).edges } := by
  induction ps generalizing t with
  | nil => rfl
  | cons p ps ih =>
    rw [List.foldl_cons, swapMetrics_rest]
    exact ih _

theorem get?_swapMetrics {a b : EdgeId} (hne : a ≠ b) (ha : t.edges.get? a = some edge)
    (hb : t.edges.get? b = some back) (hl : back.levels.has l = true) (e : EdgeId) :
    (t.swapMetrics l (a, b)).edges.get? e =
      if e = a then some { edge with metric := edge.metric.set l (back.cost l) }
      else if e = b then some { back with metric := back.metric.set l (edge.cost l) }
      else t.edges.get? e := by
  simp only [swapMetrics, ha, hb, hl, if_true, setMetric, modifyEdge, Table.get?_modify]
  by_cases hea : e = a
  · subst hea
    rw [if_neg hne.symm, if_pos rfl, if_pos rfl, ha, Option.map_some]
  · rw [if_neg hea]
    by_cases heb : e = b
    · subst heb
      rw [if_pos rfl, if_neg hne, if_pos rfl, hb, Option.map_some]
    · rw [if_neg (Ne.symm heb), if_neg (Ne.symm hea), if_neg heb]

/-- The rest of an inversion, where the edges of the pairs ahead are as they were and all others are
inverted. -/
theorem get?_foldl_swapMetrics (hp : t.Paired) {ps : List (EdgeId × EdgeId)}
    (hmem : ∀ p ∈ ps, p ∈ t.pairs l) (hps : ps.Pairwise fun p q => p.1 ≠ q.1) {t' : Topology}
    (ahead : ∀ p ∈ ps, t'.edges.get? p.1 = t.edges.get? p.1 ∧
      t'.edges.get? p.2 = t.edges.get? p.2)
    (behind : ∀ e, (∀ p ∈ ps, e ≠ p.1 ∧ e ≠ p.2) →
      t'.edges.get? e = (t.invert l).edges.get? e) (e : EdgeId) :
    (ps.foldl (fun t p => t.swapMetrics l p) t').edges.get? e = (t.invert l).edges.get? e := by
  induction ps generalizing t' with
  | nil => exact behind e fun p hp => absurd hp List.not_mem_nil
  | cons p ps ih =>
    obtain ⟨a, b⟩ := p
    obtain ⟨hab, hmem⟩ := List.forall_mem_cons.1 hmem
    obtain ⟨⟨ha, hb⟩, ahead⟩ := List.forall_mem_cons.1 ahead
    obtain ⟨hfirst, hps⟩ := List.pairwise_cons.1 hps
    obtain ⟨edge, hedge, hl, hi, -⟩ := mem_pairs.1 hab
    obtain ⟨back, hback, hpair⟩ := hp.pair a edge b hedge hi
    have hl' : back.levels.has l = true := hpair.levels ▸ hl
    have get := get?_swapMetrics hpair.ne.symm (ha.trans hedge) (hb.trans hback) hl'
    refine ih hmem hps (fun q hq => ?_) fun x hx => ?_
    · obtain ⟨hcb, hda, hdb⟩ := hp.pairs_disjoint hab (hmem q hq) (hfirst q hq)
      rw [get, get, if_neg (hfirst q hq).symm, if_neg hcb, if_neg hda, if_neg hdb]
      exact ahead q hq
    · rw [get]
      split
      · rename_i hxa
        rw [hxa, get?_invert_of_inverse hedge hi hback hl hl']
      split
      · rename_i hxb
        rw [hxb, get?_invert_of_inverse hback hpair.inverse hedge hl' hl]
      · rename_i hxa hxb
        exact behind x (List.forall_mem_cons.2 ⟨⟨hxa, hxb⟩, hx⟩)

/-- **The inversion pair by pair is the inversion of all edges at once.** -/
theorem Paired.invertInTurn_eq (hp : t.Paired) (l : Level) : t.invertInTurn l = t.invert l := by
  refine eq_of_get? ?_ (get?_foldl_swapMetrics hp (fun _ h => h) (pairs_pairwise t l)
    (fun _ _ => ⟨rfl, rfl⟩) fun e he => ?_)
  · exact foldl_swapMetrics_rest t l _
  · -- an edge of a pair at the level is in the list, first or second
    refine ((inverts_invert t l).kept e fun edge i back h hi hback hl => ?_).symm
    obtain ⟨back', hback', hpair⟩ := hp.pair e edge i h hi
    cases hback.symm.trans hback'
    cases hcmp : compare e i with
    | lt => exact absurd rfl (he _ (mem_pairs.2 ⟨edge, h, hl, hi, hcmp⟩)).1
    | eq => exact absurd (Std.LawfulEqCmp.eq_of_compare hcmp).symm hpair.ne
    | gt =>
      refine absurd rfl (he _ (mem_pairs.2 ⟨back, hback, hpair.levels ▸ hl, hpair.inverse, ?_⟩)).2
      exact Std.OrientedCmp.lt_of_gt hcmp

/-! ## Duplex topologies -/

/-- At a level every active edge is a unicast edge with an inverse. -/
structure Duplex (t : Topology) (l : Level) : Prop where
  no_tunnel : ∀ e edge, t.edges.get? e = some edge → edge.isActive l = true → edge.kind ≠ .lsp
  has_inverse : ∀ e edge, t.edges.get? e = some edge → edge.isActive l = true →
    edge.kind = .unicast → edge.inverse ≠ none

/-- An active edge has an active inverse with the opposite ends. -/
theorem Duplex.exists_back (hd : t.Duplex l) (hw : t.WellFormed) (hp : t.Paired)
    (h : t.edges.get? e = some edge) (hactive : edge.isActive l = true) :
    ∃ i back, edge.inverse = some i ∧ t.edges.get? i = some back ∧ PairedWith e i edge back ∧
      back.source = edge.target ∧ back.target = edge.source ∧ back.isActive l = true := by
  have hkind : edge.kind = .unicast := by
    cases hk : edge.kind with
    | unicast => rfl
    | lsp => exact absurd hk (hd.no_tunnel e edge h hactive)
  obtain ⟨i, hi⟩ := Option.ne_none_iff_exists'.1 (hd.has_inverse e edge h hactive hkind)
  obtain ⟨back, hback, hpair, hs, ht⟩ := hp.exists_back hw h hi
  exact ⟨i, back, hi, hback, hpair, hs, ht, (hpair.isActive_eq l).trans hactive⟩

/-- Traffic may take every active edge whose owner is not overloaded. -/
theorem Duplex.usable_iff (hd : t.Duplex l) (hw : t.WellFormed) (hp : t.Paired) {a : Arc} :
    Usable t l a ↔ t.edges.get? a.id = some a.edge ∧ a.edge.isActive l = true ∧
      t.isOverloaded a.edge.source.node l = false := by
  refine ⟨fun h => ⟨h.stored, h.active, h.forwards⟩, fun ⟨hstored, hactive, hforwards⟩ => ?_⟩
  obtain ⟨i, back, -, hback, hpair, hs, ht, hback'⟩ := hd.exists_back hw hp hstored hactive
  exact ⟨hstored, hactive, hforwards,
    .inr ⟨⟨i, back⟩, hback, by rw [hs], by rw [ht], hback', hpair.kind_back⟩⟩

theorem Duplex.invert (hd : t.Duplex l) (l' : Level) : (t.invert l').Duplex l := by
  have hold : ∀ e edge, (t.invert l').edges.get? e = some edge → ∃ old, t.edges.get? e = some old ∧
      SameStanding old edge := by
    intro e edge he
    rw [Topology.invert, Table.get?_map] at he
    obtain ⟨old, hold, rfl⟩ := Option.map_eq_some_iff.1 he
    refine ⟨old, hold, ?_⟩
    split
    · split <;> exact ⟨rfl, rfl, rfl, rfl⟩
    · exact .refl old
  have hactive : ∀ {old edge : Edge}, SameStanding old edge → edge.isActive l = true →
      old.isActive l = true := by
    intro old edge same h
    rw [Edge.isActive, ← same.up, ← same.levels]
    exact h
  exact {
    no_tunnel := by
      intro e edge he ha
      obtain ⟨old, hold, same⟩ := hold e edge he
      rw [same.kind]
      exact hd.no_tunnel e old hold (hactive same ha)
    has_inverse := by
      intro e edge he ha hk
      obtain ⟨old, hold, same⟩ := hold e edge he
      rw [same.inverse]
      exact hd.has_inverse e old hold (hactive same ha) (same.kind ▸ hk) }

/-! ## Walks -/

/-- The edge that leads back over a usable edge on the inverted topology: it has the same cost, and
may be used if the far end of the edge may forward. -/
theorem Usable.exists_reverse (hd : t.Duplex l) (hw : t.WellFormed) (hp : t.Paired) {a : Arc}
    (ha : Usable t l a) (htarget : t.isOverloaded a.edge.target.node l = false) :
    ∃ b : Arc, Usable (t.invert l) l b ∧ b.edge.source.node = a.edge.target.node ∧
      b.edge.target.node = a.edge.source.node ∧ b.edge.cost l = a.edge.cost l := by
  obtain ⟨i, back, hi, hback, hpair, hs, ht, hactive⟩ :=
    hd.exists_back hw hp ha.stored ha.active
  have hl : a.edge.levels.has l = true := (Edge.isActive_iff.1 ha.active).2
  refine ⟨⟨i, { back with metric := back.metric.set l (a.edge.cost l) }⟩,
    ((hd.invert l).usable_iff (hw.invert l) (hp.invert l)).2 ⟨?_, hactive, ?_⟩, by rw [hs],
    by rw [ht], PerLevel.get_set_self ..⟩
  · exact get?_invert_of_inverse hback hpair.inverse ha.stored (hpair.levels ▸ hl) hl
  · rw [hs]
    exact htarget

/-- Whoever starts a walk to a node that is not overloaded is not overloaded either. -/
theorem Walk.start_forwards (h : Walk t l x as y) (hy : t.isOverloaded y l = false) :
    t.isOverloaded x l = false := by
  cases h with
  | nil => exact hy
  | cons usable leaves => exact leaves ▸ usable.forwards

/-- A walk to a node that is not overloaded can be taken back on the inverted topology. -/
theorem Walk.reverse (hd : t.Duplex l) (hw : t.WellFormed) (hp : t.Paired) (h : Walk t l x as y)
    (hy : t.isOverloaded y l = false) :
    ∃ bs, Walk (t.invert l) l y bs x ∧ cost l bs = cost l as := by
  induction h with
  | nil n => exact ⟨[], .nil n, rfl⟩
  | cons usable leaves rest ih =>
    obtain ⟨bs, hbs, hcost⟩ := ih hy
    obtain ⟨b, hb, hs, ht, hbcost⟩ := usable.exists_reverse hd hw hp (rest.start_forwards hy)
    refine ⟨bs ++ [b], hbs.append (hs ▸ leaves ▸ ht ▸ .single hb), ?_⟩
    rw [cost_append, hcost, cost, cost, cost, hbcost, Nat.add_zero, Nat.add_comm]

theorem leastMetric_invert_le (hd : t.Duplex l) (hw : t.WellFormed) (hp : t.Paired)
    (hy : t.isOverloaded y l = false) :
    (t.invert l).leastMetric l y x ≤ t.leastMetric l x y := by
  rw [Metric.le_iff]
  by_cases hfin : t.leastMetric l x y = .infinite
  · rw [hfin]
    exact Metric.toNat_le _
  · obtain ⟨as, has, hcost⟩ := exists_walk hfin
    obtain ⟨bs, hbs, hbcost⟩ := has.reverse hd hw hp hy
    rw [← hcost, ← hbcost]
    exact leastMetric_le hbs

/-- **On the inverted topology the least metric is that of the opposite direction**, between nodes
that are not overloaded. -/
theorem leastMetric_invert (hd : t.Duplex l) (hw : t.WellFormed) (hp : t.Paired)
    (hx : t.isOverloaded x l = false) (hy : t.isOverloaded y l = false) :
    (t.invert l).leastMetric l y x = t.leastMetric l x y := by
  refine Metric.toNat_inj.1 (Nat.le_antisymm (leastMetric_invert_le hd hw hp hy) ?_)
  have := leastMetric_invert_le (x := y) (hd.invert l) (hw.invert l) (hp.invert l) hx
  rwa [invert_invert hp l] at this

end Topology

end LinkState
