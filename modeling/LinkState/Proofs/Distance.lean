import LinkState.Distance
import LinkState.Proofs.ShortestPath.Runs

/-!
# Distances are least metrics

`Findings.Knows` says of a node that its distances can be trusted: what is stored for it is exact,
or it is overloaded and reaches nothing but itself. The distances from such a node are its least
metrics (`distance_eq`), and `computeDistances` makes a node known without touching what is stored
for the others (`Computed`).
-/

namespace LinkState

open LinkState.Topology Compute

variable {t : Topology} {l : Level}

/-- The distances from a node can be trusted. -/
def Findings.Knows (f : Findings) (t : Topology) (l : Level) (x : NodeId) : Prop :=
  t.isOverloaded x l = true ∨ f.Exact t l x

theorem Findings.Knows.congr {f f' : Findings} {x : NodeId} (h : f.Knows t l x)
    (hs : f.SameResults f' x) : f'.Knows t l x :=
  h.imp_right fun h => h.congr hs

/-- **The distance from a known node is the least metric.** -/
theorem distance_eq {f : Findings} {x y : NodeId} {m : Metric} (hx : f.Knows t l x)
    (h : distance t l f x y = .ok m) : m = t.leastMetric l x y := by
  unfold distance at h
  split at h
  · cases h
  · cases h
  rename_i source target hsource htarget
  split at h
  · rename_i e
    cases h
    rw [e, leastMetric_self]
  rename_i hxy
  split at h
  · cases h
  have hover : t.isOverloaded x l = source.isOverloaded l := by
    rw [Topology.isOverloaded, hsource]
    rfl
  have hpseudo : t.isPseudonode y l = target.isPseudonode l := by
    rw [Topology.isPseudonode, htarget]
    rfl
  split at h
  · rename_i ho
    cases h
    rw [leastMetric_of_overloaded (hover.trans ho) hxy]
  rename_i ho
  have hexact : f.Exact t l x := hx.resolve_left (by rw [hover]; exact ho)
  cases h
  rw [← hexact.metric_getD]
  split
  · rfl
  · rename_i hp
    rw [hexact.destination?_eq (hpseudo.trans (Bool.eq_false_iff.2 hp))]

/-- There is a distance between two nodes unless they are different pseudo-nodes. -/
theorem exists_distance {f : Findings} {x y : NodeId} (hx : t.nodes.contains x = true)
    (hy : t.nodes.contains y = true)
    (hpair : x ≠ y → t.isPseudonode x l = true → t.isPseudonode y l = false) :
    ∃ m, distance t l f x y = .ok m := by
  obtain ⟨source, hsource⟩ := Option.isSome_iff_exists.1 hx
  obtain ⟨target, htarget⟩ := Option.isSome_iff_exists.1 hy
  rw [Topology.isPseudonode, Topology.isPseudonode, hsource, htarget] at hpair
  simp only [distance, hsource, htarget]
  split
  · exact ⟨_, rfl⟩
  rename_i hxy
  split
  · rename_i hboth
    rw [Bool.and_eq_true] at hboth
    exact absurd hboth.2 (by rw [show target.isPseudonode l = false from hpair hxy hboth.1]; decide)
  split <;> exact ⟨_, rfl⟩

/-- What searching from a node does to the results at a level: the node is known, and nothing else
has changed. -/
structure Computed (t : Topology) (l : Level) (n : NodeId) (w w' : Workspace) : Prop where
  knows : (w'.findings.get l).Knows t l n
  others : ∀ x, x ≠ n → (w.findings.get l).SameResults (w'.findings.get l) x

variable {n : NodeId} {w w' : Workspace}

/-- What is known stays known. -/
theorem Computed.keeps (h : Computed t l n w w') {x : NodeId}
    (hx : (w.findings.get l).Knows t l x) : (w'.findings.get l).Knows t l x := by
  by_cases e : x = n
  · exact e ▸ h.knows
  · exact hx.congr (h.others x e)

theorem Run.Searched.computed {root : NodeId} (h : Run.Searched t l root w w') :
    Computed t l root w w' :=
  ⟨.inr h.exact, h.others⟩

theorem computeDistances_computed (hw : t.WellFormed) (h : computeDistances t l n w = .ok () w') :
    Computed t l n w w' := by
  unfold computeDistances at h
  obtain ⟨node, w₁, h₁, h⟩ := bind_eq_ok.1 h
  obtain ⟨hnode, rfl⟩ := row_eq_ok.1 h₁
  split at h
  · rename_i hover
    obtain ⟨-, rfl⟩ := pure_eq_ok.1 h
    rw [Bool.and_eq_true] at hover
    refine ⟨.inl ?_, fun x _ => .refl _ x⟩
    rw [Topology.isOverloaded, hnode]
    exact hover.1
  · obtain ⟨rs, w₂, h₂, h⟩ := bind_eq_ok.1 h
    obtain ⟨-, rfl⟩ := pure_eq_ok.1 h
    exact (Run.run_searched hw (by decide) h₂).1.computed

/-- An overloaded node is known anyway, so its results do not count; the results of a node that is
not overloaded are exact once it is known. -/
theorem Findings.Knows.exact {f : Findings} {x : NodeId} (h : f.Knows t l x)
    (hx : t.isOverloaded x l = false) : f.Exact t l x :=
  h.resolve_left (by rw [hx]; exact Bool.false_ne_true)

end LinkState
