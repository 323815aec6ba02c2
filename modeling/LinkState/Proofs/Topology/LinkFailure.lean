import LinkState.Proofs.Topology.LeastMetric
import LinkState.Proofs.Topology.WellFormed
import Mathlib.Tactic.Common

/-!
# What the failure of a link leaves alone

When a link is taken down, the edges that are no longer usable all join its two ends: they are the
edge, its inverse, and unicast edges between the two that have lost their way back
(`Usable.setLinkStatus`). So a least walk that does not come by one of the ends is still there, and
since no new walk appears the least metric is as before (`leastMetric_setLinkStatus`).
-/

namespace LinkState.Topology

variable {t : Topology} {l : Level} {e i : EdgeId} {edge x : Edge}

/-- An edge that joins the two ends of another one, in one direction or the other. -/
def JoinsEnds (edge x : Edge) : Prop :=
  x.source.node = edge.source.node ∧ x.target.node = edge.target.node ∨
    x.source.node = edge.target.node ∧ x.target.node = edge.source.node

theorem setLinkStatus_nodes (e : EdgeId) (up : Bool) : (t.setLinkStatus e up).nodes = t.nodes := by
  unfold setLinkStatus
  split <;> rfl

theorem get?_of_modifyEdge_down
    (h : (t.modifyEdge e fun edge => { edge with up := false }).edges.get? i = some x)
    (hup : x.up = true) : t.edges.get? i = some x := by
  rw [modifyEdge, Table.get?_modify] at h
  split at h
  · obtain ⟨old, -, rfl⟩ := Option.map_eq_some_iff.1 h
    cases hup
  · exact h

/-- An edge that is up after a link was taken down has not been changed. -/
theorem get?_of_setLinkStatus (h : (t.setLinkStatus e false).edges.get? i = some x)
    (hup : x.up = true) : t.edges.get? i = some x := by
  unfold setLinkStatus at h
  split at h
  · exact get?_of_modifyEdge_down (get?_of_modifyEdge_down h hup) hup
  · exact get?_of_modifyEdge_down h hup

/-- An edge that does not join the ends of the link is not changed. -/
theorem get?_setLinkStatus_of_not_joinsEnds (hw : t.WellFormed) (hedge : t.edges.get? e = some edge)
    (h : t.edges.get? i = some x) (hx : ¬JoinsEnds edge x) :
    (t.setLinkStatus e false).edges.get? i = some x := by
  have he : e ≠ i := by
    rintro rfl
    rw [hedge] at h
    cases h
    exact hx (.inl ⟨rfl, rfl⟩)
  unfold setLinkStatus
  rw [hedge, Option.bind_some]
  split
  · rename_i inverse hinv
    have hi : inverse ≠ i := by
      rintro rfl
      obtain ⟨back, hback, hs, ht⟩ := hw.inverse e edge inverse hedge hinv
      rw [hback] at h
      cases h
      exact hx (.inr ⟨by rw [hs], by rw [ht]⟩)
    simp only [modifyEdge, Table.get?_modify, if_neg hi, if_neg he, h]
  · simp only [modifyEdge, Table.get?_modify, if_neg he, h]

/-- Taking a link down makes no edge usable. -/
theorem Usable.of_setLinkStatus {a : Arc} (h : Usable (t.setLinkStatus e false) l a) :
    Usable t l a := by
  obtain ⟨hstored, hactive, hforwards, hreturns⟩ := h
  refine ⟨get?_of_setLinkStatus hstored (Edge.isActive_iff.1 hactive).1, hactive, ?_, ?_⟩
  · rw [isOverloaded, setLinkStatus_nodes] at hforwards
    exact hforwards
  · refine hreturns.imp_right ?_
    rintro ⟨b, hb, hs, ht, hactive, hkind⟩
    exact ⟨b, get?_of_setLinkStatus hb (Edge.isActive_iff.1 hactive).1, hs, ht, hactive, hkind⟩

/-- A usable edge that does not join the ends of the link stays usable. -/
theorem Usable.setLinkStatus (hw : t.WellFormed) (hedge : t.edges.get? e = some edge) {a : Arc}
    (h : Usable t l a) (ha : ¬JoinsEnds edge a.edge) : Usable (t.setLinkStatus e false) l a := by
  obtain ⟨hstored, hactive, hforwards, hreturns⟩ := h
  refine ⟨get?_setLinkStatus_of_not_joinsEnds hw hedge hstored ha, hactive, ?_, ?_⟩
  · rw [isOverloaded, setLinkStatus_nodes]
    exact hforwards
  · refine hreturns.imp_right ?_
    rintro ⟨b, hb, hs, ht, hrest⟩
    refine ⟨b, get?_setLinkStatus_of_not_joinsEnds hw hedge hb ?_, hs, ht, hrest⟩
    -- the way back joins the same nodes
    unfold JoinsEnds at ha ⊢
    rw [hs, ht]
    tauto

theorem Walk.of_setLinkStatus {n m : NodeId} {as : List Arc}
    (h : Walk (t.setLinkStatus e false) l n as m) : Walk t l n as m := by
  induction h with
  | nil n => exact .nil n
  | cons usable leaves _ ih => exact .cons usable.of_setLinkStatus leaves ih

/-- A walk that does not come by one of the ends of the link is still there. -/
theorem Walk.setLinkStatus (hw : t.WellFormed) (hedge : t.edges.get? e = some edge) {z : NodeId}
    (hz : z = edge.source.node ∨ z = edge.target.node) {n m : NodeId} {as : List Arc}
    (h : Walk t l n as m) (havoids : ¬Visits n as z) : Walk (t.setLinkStatus e false) l n as m := by
  induction h with
  | nil n => exact .nil n
  | @cons n m a as usable leaves _ ih =>
    have hsource : a.edge.source.node ≠ z := fun e => havoids (.inl (e.symm.trans leaves))
    have htarget : a.edge.target.node ≠ z := fun e => havoids (.inr ⟨a, List.mem_cons_self, e⟩)
    refine .cons (usable.setLinkStatus hw hedge ?_) leaves (ih fun hv => ?_)
    · rintro (⟨hs, ht⟩ | ⟨hs, ht⟩) <;> rcases hz with rfl | rfl
      · exact hsource hs
      · exact htarget ht
      · exact htarget ht
      · exact hsource hs
    · rcases hv with hv | ⟨b, hb, hbz⟩
      · exact htarget hv.symm
      · exact havoids (.inr ⟨b, List.mem_cons_of_mem _ hb, hbz⟩)

/-- **Where no least walk comes by one of its ends, the failure of a link leaves the least metric as
it was.** -/
theorem leastMetric_setLinkStatus (hw : t.WellFormed) (hedge : t.edges.get? e = some edge)
    {n m z : NodeId} (hz : z = edge.source.node ∨ z = edge.target.node)
    (hfin : t.leastMetric l n m ≠ .infinite) (havoids : Avoids t l n m z) :
    (t.setLinkStatus e false).leastMetric l n m = t.leastMetric l n m := by
  obtain ⟨as, has⟩ := exists_leastWalk hfin
  refine leastMetric_eq (fun bs hb => leastMetric_le hb.of_setLinkStatus) fun _ => ?_
  exact ⟨as, has.walk.setLinkStatus hw hedge hz (havoids as has), has.cost_eq hfin⟩

end LinkState.Topology
