import LinkState.Proofs.ShortestPath.Exactness
import LinkState.Repair.Space

/-!
# Paths to the members of the extended P-space

For each node there is a list of paths on offer (`offers`): the one that the root itself has
(`Plain`), and one for each neighbour that takes part (`Extends`) and does not go back through the
root (`Through`). The space keeps the best one (`best`): the first one that avoids the far end of
the protected edge, or else the first one. What that means is read off the offers by
`exists_offer_iff` and `first_offer`, whether or not the path has to avoid the far end.
-/

namespace LinkState.Repair

open LinkState.Topology

variable {t : Topology} {l : Level} {root far y : NodeId} {e : EdgeId} {f : Findings} {x : Nexthop}
  {p : RepairPath} {ps : List RepairPath} {space : RepairSpace}

/-! ## Paths on offer -/

/-- A router other than the root that carries traffic. -/
structure Carrier (t : Topology) (l : Level) (root y : NodeId) : Prop where
  ne_root : y ≠ root
  router : t.isPseudonode y l = false
  forwards : t.isOverloaded y l = false

/-- The root reaches a node by a next hop of its own that is not over the protected edge, the first
one of these, and none of its least walks comes by the far end. -/
structure Plain (t : Topology) (l : Level) (f : Findings) (root far : NodeId) (e : EdgeId)
    (y : NodeId) (x : Nexthop) : Prop where
  reaches : t.leastMetric l root y ≠ .infinite
  avoids : Avoids t l root y far
  first : ∃ r, f.result? root y = some r ∧ r.nexthops.ip.members.find? (·.oif != e) = some x

/-- A neighbour takes part: it is not the far end nor reached over the protected edge, it carries
traffic, and none of the least walks of the root to it comes by the far end. -/
structure Extends (t : Topology) (l : Level) (root far : NodeId) (e : EdgeId)
    (nb : LogicalNeighbour) : Prop where
  ne_far : nb.node ≠ far
  other_edge : nb.out.id ≠ e
  forwards : t.isOverloaded nb.node l = false
  reaches : t.leastMetric l root nb.node ≠ .infinite
  avoids : Avoids t l root nb.node far

/-- A node is reached from another one, from which no least walk comes by the root. -/
structure Through (t : Topology) (l : Level) (root n y : NodeId) : Prop where
  reaches : t.leastMetric l n y ≠ .infinite
  avoids : Avoids t l n y root

open Classical in
/-- The path to a node that the root has itself. -/
noncomputable def plainPath (t : Topology) (l : Level) (f : Findings) (root far : NodeId)
    (e : EdgeId) (y : NodeId) : Option RepairPath :=
  if Carrier t l root y ∧ t.leastMetric l root y ≠ .infinite ∧ Avoids t l root y far then
    ((f.result? root y).bind fun r => r.nexthops.ip.members.find? (·.oif != e)).map (⟨·, true⟩)
  else none

open Classical in
/-- The path to a node that a next hop offers. -/
noncomputable def throughPath (t : Topology) (l : Level) (root far y : NodeId) (x : Nexthop) :
    Option RepairPath :=
  if Carrier t l root y ∧ Through t l root x.node y then
    some ⟨x, decide (y ≠ far ∧ Avoids t l x.node y far)⟩
  else none

theorem plainPath_eq_some_iff : plainPath t l f root far e y = some p ↔
    Carrier t l root y ∧ Plain t l f root far e y p.nexthop ∧ p.nodeProtecting = true := by
  unfold plainPath
  split
  · rename_i h
    obtain ⟨hcarrier, hreaches, havoids⟩ := h
    rw [Option.map_eq_some_iff]
    constructor
    · rintro ⟨x, hx, rfl⟩
      exact ⟨hcarrier, ⟨hreaches, havoids, Option.bind_eq_some_iff.1 hx⟩, rfl⟩
    · rintro ⟨-, hplain, hprotects⟩
      exact ⟨p.nexthop, Option.bind_eq_some_iff.2 hplain.first, by rw [← hprotects]⟩
  · rename_i h
    exact ⟨nofun, fun ⟨hcarrier, hplain, _⟩ => absurd ⟨hcarrier, hplain.reaches, hplain.avoids⟩ h⟩

/-- An overloaded root has no path to anything. -/
theorem plainPath_of_overloaded (hover : t.isOverloaded root l = true) :
    plainPath t l f root far e y = none :=
  if_neg fun h => h.2.1 (leastMetric_of_overloaded hover h.1.ne_root.symm)

open Classical in
theorem throughPath_eq_some_iff : throughPath t l root far y x = some p ↔
    Carrier t l root y ∧ Through t l root x.node y ∧ p.nexthop = x ∧
      (p.nodeProtecting = true ↔ y ≠ far ∧ Avoids t l x.node y far) := by
  unfold throughPath
  split
  · rename_i h
    rw [Option.some.injEq]
    constructor
    · rintro rfl
      exact ⟨h.1, h.2, rfl, by rw [decide_eq_true_iff]⟩
    · rintro ⟨-, -, rfl, hmark⟩
      obtain ⟨nexthop, mark⟩ := p
      rw [RepairPath.mk.injEq, Bool.eq_iff_iff, hmark, decide_eq_true_iff]
      exact ⟨rfl, Iff.rfl⟩
  · rename_i h
    exact ⟨nofun, fun ⟨hcarrier, hthrough, _⟩ => absurd ⟨hcarrier, hthrough⟩ h⟩

open Classical in
/-- The path to a node that a neighbour of the root offers, if it takes part. -/
noncomputable def neighbourPath (t : Topology) (l : Level) (root far : NodeId) (e : EdgeId)
    (y : NodeId) (nb : LogicalNeighbour) : Option RepairPath :=
  if Extends t l root far e nb then throughPath t l root far y nb.nexthop else none

theorem neighbourPath_eq_some_iff {nb : LogicalNeighbour} :
    neighbourPath t l root far e y nb = some p ↔
      Carrier t l root y ∧ Extends t l root far e nb ∧ Through t l root nb.node y ∧
        nb.nexthop = p.nexthop ∧
          (p.nodeProtecting = true ↔ y ≠ far ∧ Avoids t l nb.node y far) := by
  unfold neighbourPath
  split
  · rename_i hext
    rw [throughPath_eq_some_iff]
    exact ⟨fun ⟨hcarrier, hthrough, hx, hmark⟩ => ⟨hcarrier, hext, hthrough, hx.symm, hmark⟩,
      fun ⟨hcarrier, _, hthrough, hx, hmark⟩ => ⟨hcarrier, hthrough, hx.symm, hmark⟩⟩
  · rename_i hext
    exact ⟨nofun, fun h => absurd h.2.1 hext⟩

/-- All paths to a node that are on offer, in the order in which they are considered. -/
noncomputable def offers (t : Topology) (l : Level) (f : Findings) (root far : NodeId) (e : EdgeId)
    (y : NodeId) : List RepairPath :=
  (plainPath t l f root far e y).toList ++
    (t.logicalNeighbours root l).filterMap (neighbourPath t l root far e y)

/-! ## Paths that are good enough -/

/-- Whether a path avoids the far end, if that is required. -/
def suits (required : Bool) (p : RepairPath) : Bool := !required || p.nodeProtecting

@[simp] theorem suits_true : suits true = RepairPath.nodeProtecting := rfl

@[simp] theorem suits_false : suits false = fun _ => true := rfl

theorem suits_eq_true_iff {c : Bool} :
    suits c p = true ↔ (c = true → p.nodeProtecting = true) := by
  cases c <;> simp

theorem exists_plainPath_iff {c : Bool} :
    (∃ p, plainPath t l f root far e y = some p ∧ suits c p = true) ↔
      Carrier t l root y ∧ ∃ x, Plain t l f root far e y x := by
  simp only [plainPath_eq_some_iff, suits_eq_true_iff]
  constructor
  · rintro ⟨p, ⟨hcarrier, hplain, -⟩, -⟩
    exact ⟨hcarrier, p.nexthop, hplain⟩
  · rintro ⟨hcarrier, x, hplain⟩
    exact ⟨⟨x, true⟩, ⟨hcarrier, hplain, rfl⟩, fun _ => rfl⟩

theorem exists_neighbourPath_iff {c : Bool} {nb : LogicalNeighbour} :
    (∃ p, neighbourPath t l root far e y nb = some p ∧ suits c p = true) ↔
      Carrier t l root y ∧ Extends t l root far e nb ∧ Through t l root nb.node y ∧
        (c = true → y ≠ far ∧ Avoids t l nb.node y far) := by
  classical
  simp only [neighbourPath_eq_some_iff, suits_eq_true_iff]
  constructor
  · rintro ⟨p, ⟨hcarrier, hext, hthrough, -, hmark⟩, hc⟩
    exact ⟨hcarrier, hext, hthrough, fun h => hmark.1 (hc h)⟩
  · rintro ⟨hcarrier, hext, hthrough, hc⟩
    exact ⟨⟨nb.nexthop, decide (y ≠ far ∧ Avoids t l nb.node y far)⟩,
      ⟨hcarrier, hext, hthrough, rfl, decide_eq_true_iff⟩, fun h => decide_eq_true (hc h)⟩

/-- **When there is a path on offer**, or one that avoids the far end if that is required. -/
theorem exists_offer_iff (c : Bool) :
    (∃ p ∈ offers t l f root far e y, suits c p = true) ↔ Carrier t l root y ∧
      ((∃ x, Plain t l f root far e y x) ∨ ∃ nb ∈ t.logicalNeighbours root l,
        Extends t l root far e nb ∧ Through t l root nb.node y ∧
          (c = true → y ≠ far ∧ Avoids t l nb.node y far)) := by
  have hsplit : (∃ p ∈ offers t l f root far e y, suits c p = true) ↔
      (∃ p, plainPath t l f root far e y = some p ∧ suits c p = true) ∨
        ∃ nb ∈ t.logicalNeighbours root l,
          ∃ p, neighbourPath t l root far e y nb = some p ∧ suits c p = true := by
    simp only [offers, List.mem_append, Option.mem_toList, List.mem_filterMap, or_and_right,
      exists_or]
    refine or_congr Iff.rfl ⟨?_, ?_⟩
    · rintro ⟨p, ⟨nb, hnb, hp⟩, hc⟩
      exact ⟨nb, hnb, p, hp, hc⟩
    · rintro ⟨nb, hnb, p, hp, hc⟩
      exact ⟨p, ⟨nb, hnb, hp⟩, hc⟩
  rw [hsplit, exists_plainPath_iff]
  simp only [exists_neighbourPath_iff]
  constructor
  · rintro (⟨hcarrier, hplain⟩ | ⟨nb, hnb, hcarrier, hoffer⟩)
    · exact ⟨hcarrier, .inl hplain⟩
    · exact ⟨hcarrier, .inr ⟨nb, hnb, hoffer⟩⟩
  · rintro ⟨hcarrier, hplain | ⟨nb, hnb, hoffer⟩⟩
    · exact .inl ⟨hcarrier, hplain⟩
    · exact .inr ⟨nb, hnb, hcarrier, hoffer⟩

/-- The first element of a list with a property. -/
def First {α : Type} (P : α → Prop) (as : List α) (a : α) : Prop :=
  ∃ before behind, as = before ++ a :: behind ∧ P a ∧ ∀ b ∈ before, ¬P b

/-- The first path on offer that is good enough is that of the root, or else that of the first
neighbour with such a path. -/
theorem first_offer {c : Bool} (h : (offers t l f root far e y).find? (suits c) = some p) :
    plainPath t l f root far e y = some p ∨ plainPath t l f root far e y = none ∧
      ∃ nb, neighbourPath t l root far e y nb = some p ∧
        First (fun nb => ∃ p', neighbourPath t l root far e y nb = some p' ∧ suits c p' = true)
          (t.logicalNeighbours root l) nb := by
  unfold offers at h
  cases hplain : plainPath t l f root far e y with
  | some p₀ =>
    rw [hplain] at h
    have hsuits : suits c p₀ = true :=
      suits_eq_true_iff.2 fun _ => (plainPath_eq_some_iff.1 hplain).2.2
    left
    simpa [hsuits] using h
  | none =>
    rw [hplain, Option.toList_none, List.nil_append, List.find?_filterMap,
      Option.bind_eq_some_iff] at h
    obtain ⟨nb, hnb, hp⟩ := h
    obtain ⟨hfirst, before, behind, hsplit, hbefore⟩ := List.find?_eq_some_iff_append.1 hnb
    refine .inr ⟨rfl, nb, hp, before, behind, hsplit, (Option.any_eq_true _ _).1 hfirst, ?_⟩
    intro b hb hb'
    have := hbefore b hb
    rw [(Option.any_eq_true _ _).2 hb'] at this
    cases this

/-! ## The best path -/

/-- The first path that avoids the far end, or else the first one. -/
def best (ps : List RepairPath) : Option RepairPath := (ps.find? (·.nodeProtecting)).or ps.head?

theorem isSome_best_iff : (best ps).isSome = true ↔ ∃ p ∈ ps, suits false p = true := by
  unfold best
  cases ps <;> simp

theorem best_eq_some (h : best ps = some p) :
    (p.nodeProtecting = true ↔ ∃ q ∈ ps, suits true q = true) ∧
      ps.find? (suits p.nodeProtecting) = some p := by
  unfold best at h
  cases hfind : ps.find? (·.nodeProtecting) with
  | some q =>
    rw [hfind, Option.some_or, Option.some.injEq] at h
    subst h
    have hq : q.nodeProtecting = true := by simpa using List.find?_some hfind
    refine ⟨⟨fun _ => ⟨q, List.mem_of_find?_eq_some hfind, hq⟩, fun _ => hq⟩, ?_⟩
    simpa [hq] using hfind
  | none =>
    rw [hfind, Option.none_or] at h
    obtain ⟨qs, rfl⟩ := List.head?_eq_some_iff.1 h
    have hnone : ∀ q ∈ p :: qs, q.nodeProtecting = false := by simpa using hfind
    have hp := hnone p List.mem_cons_self
    refine ⟨?_, by simp [hp]⟩
    rw [hp]
    refine ⟨nofun, fun ⟨q, hq, hprotects⟩ => ?_⟩
    rw [suits_true, hnone q hq] at hprotects
    exact hprotects

theorem best_toList (o : Option RepairPath) : best o.toList = o := by
  cases o with
  | none => rfl
  | some p => cases hp : p.nodeProtecting <;> simp [best, hp]

/-- An entry that is the best of some paths stays so with one path more. -/
theorem improve_entry (hs : space[y]? = best ps) (p : RepairPath) :
    (improve space y p)[y]? = best (ps ++ [p]) := by
  unfold improve
  rw [hs]
  unfold best at hs ⊢
  rw [List.find?_append, List.head?_append]
  cases hfind : ps.find? (·.nodeProtecting) with
  | some q =>
    have hq : q.nodeProtecting = true := by simpa using List.find?_some hfind
    rw [hfind] at hs
    simpa [hq] using hs
  | none =>
    rw [hfind] at hs
    cases ps with
    | nil =>
      by_cases hp : p.nodeProtecting = true <;> simp [hp]
    | cons q qs =>
      have hq : q.nodeProtecting = false := by
        have := List.find?_eq_none.1 hfind q List.mem_cons_self
        simpa using this
      by_cases hp : p.nodeProtecting = true
      · simp [hp, hq]
      · simpa [hp] using hs

end LinkState.Repair
