import LinkState.Topology.Walk
import Mathlib.Data.Nat.Find
import Mathlib.Order.Basic

/-!
# Least metrics of walks

* `leastMetric` is the least cost of a walk between two nodes, as a metric: `infinite` if every walk
  costs that much or there is none. It is the only metric that no walk beats and, unless it is
  `infinite`, some walk attains (`leastMetric_eq`), and it obeys the triangle inequality
  (`leastMetric_triangle`).
* `LeastWalk` is a walk than which none costs less, `Visits` says that a walk comes by a node, and
  `Avoids` that no least walk between two nodes comes by a third one.

The comparison on which all repair rests is `leastMetric_lt_add_iff`: the way through a node is
dearer than the least one if and only if no least walk visits that node. Saturation does no harm,
since the two sides can only be compared strictly where the left one is a cost.
-/

namespace LinkState.Topology

variable (t : Topology) (l : Level)

open Classical in
/-- The least metric of a walk from one node to another, `infinite` if there is none below it. -/
noncomputable def leastMetric (x y : NodeId) : Metric :=
  if h : ∃ n as, Walk t l x as y ∧ cost l as = n then .saturate (Nat.find h) else .infinite

/-- A walk than which none between the same nodes costs less. -/
structure LeastWalk (x : NodeId) (as : List Arc) (y : NodeId) : Prop where
  walk : Walk t l x as y
  least : ∀ bs, Walk t l x bs y → cost l as ≤ cost l bs

/-- A walk along some edges comes by a node, be it its first one. -/
def Visits (x : NodeId) (as : List Arc) (z : NodeId) : Prop :=
  z = x ∨ ∃ a ∈ as, a.edge.target.node = z

/-- No least walk from `x` to `y` comes by `z`. -/
def Avoids (x y z : NodeId) : Prop := ∀ as, LeastWalk t l x as y → ¬Visits x as z

variable {t l} {x y z : NodeId} {as bs : List Arc}

/-! ## Walks -/

theorem Walk.single {a : Arc} (h : Usable t l a) :
    Walk t l a.edge.source.node [a] a.edge.target.node :=
  .cons h rfl (.nil _)

/-- A walk that comes by a node is one to it and one from it. -/
theorem Walk.split (h : Walk t l x as y) (hz : Visits x as z) :
    ∃ bs cs, as = bs ++ cs ∧ Walk t l x bs z ∧ Walk t l z cs y := by
  induction h with
  | nil n =>
    obtain rfl | ⟨a, ha, -⟩ := hz
    · exact ⟨[], [], rfl, .nil z, .nil z⟩
    · cases ha
  | @cons n m a as usable leaves rest ih =>
    obtain rfl | ⟨b, hb, hbz⟩ := hz
    · exact ⟨[], a :: as, rfl, .nil z, .cons usable leaves rest⟩
    · have hz : Visits a.edge.target.node as z := by
        rcases List.mem_cons.1 hb with rfl | hb
        · exact .inl hbz.symm
        · exact .inr ⟨b, hb, hbz⟩
      obtain ⟨bs, cs, rfl, hbs, hcs⟩ := ih hz
      exact ⟨a :: bs, cs, rfl, .cons usable leaves hbs, hcs⟩

theorem Walk.eq_of_nil (h : Walk t l x [] y) : x = y := by
  cases h
  rfl

theorem Walk.of_concat {a : Arc} (h : Walk t l x (as ++ [a]) y) :
    Walk t l x as a.edge.source.node ∧ Usable t l a ∧ a.edge.target.node = y := by
  induction as generalizing x with
  | nil =>
    cases h with
    | cons usable leaves rest =>
      cases rest
      exact ⟨leaves ▸ .nil _, usable, rfl⟩
  | cons b bs ih =>
    cases h with
    | cons usable leaves rest =>
      obtain ⟨hwalk, hlast⟩ := ih rest
      exact ⟨.cons usable leaves hwalk, hlast⟩

theorem Walk.visits_end (h : Walk t l x as y) : Visits x as y := by
  induction h with
  | nil n => exact .inl rfl
  | @cons n m a as usable leaves rest ih =>
    obtain h | ⟨b, hb, hbm⟩ := ih
    · exact .inr ⟨a, List.mem_cons_self, h.symm⟩
    · exact .inr ⟨b, List.mem_cons_of_mem _ hb, hbm⟩

theorem Walk.usable_of_mem (h : Walk t l x as y) {a : Arc} (ha : a ∈ as) : Usable t l a := by
  induction h with
  | nil => cases ha
  | cons usable leaves rest ih =>
    rcases List.mem_cons.1 ha with rfl | ha
    · exact usable
    · exact ih ha

theorem Walk.visits_source (h : Walk t l x as y) {a : Arc} (ha : a ∈ as) :
    Visits x as a.edge.source.node := by
  induction h with
  | nil => cases ha
  | @cons n m b as usable leaves rest ih =>
    rcases List.mem_cons.1 ha with rfl | ha
    · exact .inl leaves
    · rcases ih ha with h | ⟨c, hc, hca⟩
      · exact .inr ⟨b, List.mem_cons_self, h.symm⟩
      · exact .inr ⟨c, List.mem_cons_of_mem _ hc, hca⟩

theorem Visits.append_left (h : Visits x as z) (bs : List Arc) : Visits x (as ++ bs) z := by
  obtain h | ⟨a, ha, haz⟩ := h
  · exact .inl h
  · exact .inr ⟨a, List.mem_append_left _ ha, haz⟩

/-- A walk that goes on after a visited node visits what the rest of it visits. -/
theorem Visits.append_right (h : Walk t l x as y) (hz : Visits y bs z) :
    Visits x (as ++ bs) z := by
  obtain rfl | ⟨b, hb, hbz⟩ := hz
  · exact h.visits_end.append_left bs
  · exact .inr ⟨b, List.mem_append_right _ hb, hbz⟩

/-- An overloaded node carries no traffic, so only the empty walk leaves it. -/
theorem Walk.eq_of_overloaded (h : Walk t l x as y) (hx : t.isOverloaded x l = true) : x = y := by
  cases h with
  | nil => rfl
  | cons usable leaves =>
    have := usable.forwards
    rw [leaves, hx] at this
    cases this

/-! ## The least metric -/

theorem leastMetric_le (h : Walk t l x as y) : (t.leastMetric l x y).toNat ≤ cost l as := by
  classical
  have hex : ∃ n as, Walk t l x as y ∧ cost l as = n := ⟨_, as, h, rfl⟩
  rw [leastMetric, dif_pos hex, Metric.toNat_saturate]
  exact (Nat.min_le_left _ _).trans (Nat.find_le ⟨as, h, rfl⟩)

theorem exists_walk (h : t.leastMetric l x y ≠ .infinite) :
    ∃ as, Walk t l x as y ∧ cost l as = (t.leastMetric l x y).toNat := by
  classical
  by_cases hex : ∃ n as, Walk t l x as y ∧ cost l as = n
  · obtain ⟨as, hw, hc⟩ := Nat.find_spec hex
    have hfind : t.leastMetric l x y = .saturate (Nat.find hex) := dif_pos hex
    have := Metric.toNat_lt_of_ne_infinite h
    rw [hfind, Metric.toNat_saturate, Metric.toNat_infinite] at this
    refine ⟨as, hw, ?_⟩
    rw [hc, hfind, Metric.toNat_saturate]
    omega
  · exact absurd (dif_neg hex) h

theorem leastMetric_ne_infinite_iff : t.leastMetric l x y ≠ .infinite ↔
    ∃ as, Walk t l x as y ∧ cost l as < Metric.infinite.toNat := by
  constructor
  · intro h
    obtain ⟨as, hw, hc⟩ := exists_walk h
    exact ⟨as, hw, hc ▸ Metric.toNat_lt_of_ne_infinite h⟩
  · rintro ⟨as, hw, hc⟩ e
    have := leastMetric_le hw
    rw [e] at this
    omega

/-- The least metric is the only one that no walk beats and, unless it is infinite, some walk
attains. -/
theorem leastMetric_eq {m : Metric} (hle : ∀ as, Walk t l x as y → m.toNat ≤ cost l as)
    (hex : m ≠ .infinite → ∃ as, Walk t l x as y ∧ cost l as = m.toNat) :
    t.leastMetric l x y = m := by
  refine Metric.toNat_inj.1 (Nat.le_antisymm ?_ ?_)
  · by_cases hm : m = .infinite
    · exact hm ▸ Metric.toNat_le _
    · obtain ⟨as, hw, hc⟩ := hex hm
      exact hc ▸ leastMetric_le hw
  · by_cases hd : t.leastMetric l x y = .infinite
    · exact hd ▸ m.toNat_le
    · obtain ⟨as, hw, hc⟩ := exists_walk hd
      exact hc ▸ hle as hw

theorem leastMetric_self (x : NodeId) : t.leastMetric l x x = 0 :=
  leastMetric_eq (fun _ _ => Nat.zero_le _) fun _ => ⟨[], .nil x, rfl⟩

theorem leastMetric_of_overloaded (hx : t.isOverloaded x l = true) (hxy : x ≠ y) :
    t.leastMetric l x y = .infinite :=
  leastMetric_eq (fun _ h => absurd (h.eq_of_overloaded hx) hxy) fun h => absurd rfl h

theorem leastMetric_triangle (x y z : NodeId) :
    t.leastMetric l x y ≤ t.leastMetric l x z + t.leastMetric l z y := by
  rw [Metric.le_iff, Metric.toNat_add]
  have hle := (t.leastMetric l x y).toNat_le
  by_cases hxz : t.leastMetric l x z = .infinite
  · rw [hxz, Metric.toNat_infinite]
    omega
  by_cases hzy : t.leastMetric l z y = .infinite
  · rw [hzy, Metric.toNat_infinite]
    omega
  obtain ⟨as, ha, hac⟩ := exists_walk hxz
  obtain ⟨bs, hb, hbc⟩ := exists_walk hzy
  have := leastMetric_le (ha.append hb)
  rw [cost_append] at this
  omega

/-! ## Least walks -/

theorem LeastWalk.cost_eq (h : LeastWalk t l x as y) (hd : t.leastMetric l x y ≠ .infinite) :
    cost l as = (t.leastMetric l x y).toNat := by
  obtain ⟨bs, hb, hbc⟩ := exists_walk hd
  exact Nat.le_antisymm (hbc ▸ h.least bs hb) (leastMetric_le h.walk)

theorem Walk.leastWalk (h : Walk t l x as y) (hc : cost l as ≤ (t.leastMetric l x y).toNat) :
    LeastWalk t l x as y :=
  ⟨h, fun _ hb => hc.trans (leastMetric_le hb)⟩

theorem exists_leastWalk (h : t.leastMetric l x y ≠ .infinite) : ∃ as, LeastWalk t l x as y := by
  obtain ⟨as, hw, hc⟩ := exists_walk h
  exact ⟨as, hw.leastWalk hc.le⟩

/-- Staying at a node costs nothing. -/
theorem LeastWalk.nil (x : NodeId) : LeastWalk t l x [] x := ⟨.nil x, fun _ _ => Nat.zero_le _⟩

/-- A least walk is least up to its last edge. -/
theorem LeastWalk.of_concat {a : Arc} (h : LeastWalk t l x (as ++ [a]) y) :
    LeastWalk t l x as a.edge.source.node := by
  obtain ⟨hwalk, usable, rfl⟩ := h.walk.of_concat
  refine ⟨hwalk, fun bs hb => ?_⟩
  have := h.least _ (hb.append (.single usable))
  rw [cost_append, cost_append] at this
  omega

/-- A walk along some edge costs something if the edges that leave its start do. -/
theorem Walk.cost_pos (h : Walk t l x as y) (hne : as ≠ [])
    (hpos : ∀ a, Usable t l a → a.edge.source.node = x → 0 < (a.edge.cost l).toNat) :
    0 < cost l as := by
  cases h with
  | nil => exact absurd rfl hne
  | cons usable leaves => exact Nat.add_pos_left (hpos _ usable leaves) _

/-- Where the edges that leave a node cost something, no least walk comes back to it. -/
theorem LeastWalk.eq_nil (h : LeastWalk t l x as x)
    (hpos : ∀ a, Usable t l a → a.edge.source.node = x → 0 < (a.edge.cost l).toNat) : as = [] := by
  by_contra hne
  exact absurd (h.walk.cost_pos hne hpos) (Nat.not_lt.2 (h.least [] (.nil x)))

/-- On a least walk that comes by a node the two parts are least, and their metrics add up. -/
theorem LeastWalk.add_eq (h : LeastWalk t l x as y) (hd : t.leastMetric l x y ≠ .infinite)
    (hz : Visits x as z) :
    (t.leastMetric l x z).toNat + (t.leastMetric l z y).toNat = (t.leastMetric l x y).toNat := by
  obtain ⟨bs, cs, rfl, hb, hc⟩ := h.walk.split hz
  have := h.cost_eq hd
  rw [cost_append] at this
  have := leastMetric_le hb
  have := leastMetric_le hc
  have := leastMetric_triangle (t := t) (l := l) x y z
  rw [Metric.le_iff, Metric.toNat_add] at this
  have := Metric.toNat_lt_of_ne_infinite hd
  rw [Metric.toNat_infinite] at this
  omega

/-- **The way through a node is dearer if and only if no least walk takes it.** -/
theorem leastMetric_lt_add_iff :
    t.leastMetric l x y < t.leastMetric l x z + t.leastMetric l z y ↔
      t.leastMetric l x y ≠ .infinite ∧ Avoids t l x y z := by
  constructor
  · intro h
    have hd := Metric.ne_infinite_of_lt h
    refine ⟨hd, fun as has hz => ?_⟩
    have := has.add_eq hd hz
    rw [Metric.lt_iff, Metric.toNat_add] at h
    omega
  · rintro ⟨hd, h⟩
    have hlt := Metric.toNat_lt_of_ne_infinite hd
    rw [Metric.toNat_infinite] at hlt
    rw [Metric.lt_iff, Metric.toNat_add]
    by_contra hge
    -- the two least parts would make a least walk through the node
    have hxz : t.leastMetric l x z ≠ .infinite := fun e => by
      rw [e, Metric.toNat_infinite] at hge
      omega
    have hzy : t.leastMetric l z y ≠ .infinite := fun e => by
      rw [e, Metric.toNat_infinite] at hge
      omega
    obtain ⟨bs, hb, hbc⟩ := exists_walk hxz
    obtain ⟨cs, hc, hcc⟩ := exists_walk hzy
    refine h (bs ++ cs) ((hb.append hc).leastWalk ?_) (hb.visits_end.append_left cs)
    rw [cost_append]
    omega

/-- What the least walks between two nodes avoid is also avoided from any node of one of them on. -/
theorem Avoids.of_visits {v : NodeId} (h : Avoids t l x y z) (hd : t.leastMetric l x y ≠ .infinite)
    (hw : Walk t l x as y) (hc : cost l as = (t.leastMetric l x y).toNat) (hv : Visits x as v) :
    t.leastMetric l v y ≠ .infinite ∧ Avoids t l v y z := by
  obtain ⟨bs, cs, rfl, hb, hr⟩ := hw.split hv
  rw [cost_append] at hc
  constructor
  · intro hinf
    have := leastMetric_le hr
    have := Metric.toNat_lt_of_ne_infinite hd
    rw [hinf] at *
    omega
  · intro ds hds hz
    have := hds.least cs hr
    refine h (bs ++ ds) ((hb.append hds.walk).leastWalk ?_) (hz.append_right hb)
    rw [cost_append]
    omega

end LinkState.Topology
