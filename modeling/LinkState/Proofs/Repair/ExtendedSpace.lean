import LinkState.Proofs.Repair.Offers
import LinkState.Proofs.Repair.Space
import LinkState.Proofs.ShortestPath.Records

/-!
# The extended P-space is exact

The entry of a node in the extended P-space is the best of the paths on offer for it
(`extendedSpace_entry`).

* `foldlM_entry`: of all results of a search only that for a node touches the entry of the node.
* `nearMembers_entry`: the entry in the plain P-space.
* `extendThrough_entry`: what a sequence of neighbours makes of an entry, by induction on it. That
  the root has the same results throughout is part of what carries it (`Prepared`).
* `extendedSpace_exact`: members, marks, and next hops in terms of least walks.

An overloaded root is not searched from, so it has to have no results at all. Those of an earlier
search get into the space otherwise (`mem_extendedSpace_overloadedRing`).
-/

namespace LinkState.Repair

open LinkState.Topology Compute

variable {t : Topology} {l : Level} {root far n y : NodeId} {e : EdgeId} {edge : Edge}
  {f : Findings} {x : Nexthop} {xs : List Nexthop} {p : RepairPath} {ps : List RepairPath}
  {space space' : RepairSpace} {w w' : Workspace}

/-! ## Entries -/

/-- Of all results only that for a node touches the entry of the node. -/
theorem foldlM_entry {step : RepairSpace → Result → Except Error RepairSpace} {rs : List Result}
    (hnodup : (rs.map (·.node)).Nodup)
    (hother : ∀ r s s', step s r = .ok s' → r.node ≠ y → s'[y]? = s[y]?)
    (h : rs.foldlM step space = .ok space') :
    y ∉ rs.map (·.node) ∧ space'[y]? = space[y]? ∨
      ∃ r ∈ rs, r.node = y ∧ ∃ s s', s[y]? = space[y]? ∧ step s r = .ok s' ∧
        space'[y]? = s'[y]? := by
  induction rs generalizing space with
  | nil =>
    cases h
    exact .inl ⟨List.not_mem_nil, rfl⟩
  | cons r rs ih =>
    rw [List.map_cons, List.nodup_cons] at hnodup
    rw [List.foldlM_cons] at h
    obtain ⟨space₁, h₁, h⟩ := except_bind_eq_ok.1 h
    by_cases e : r.node = y
    · -- no later result is one for this node
      obtain ⟨-, hrest⟩ | ⟨r', hr', hy, -⟩ := ih hnodup.2 h
      · exact .inr ⟨r, List.mem_cons_self, e, space, space₁, rfl, h₁, hrest⟩
      · exact absurd (List.mem_map.2 ⟨r', hr', hy.trans e.symm⟩) hnodup.1
    · have hsame := hother r space space₁ h₁ e
      obtain ⟨hnot, hrest⟩ | ⟨r', hr', hy, s, s', hs, hstep, hrest⟩ := ih hnodup.2 h
      · refine .inl ⟨?_, hrest.trans hsame⟩
        rw [List.map_cons, List.mem_cons, not_or]
        exact ⟨Ne.symm e, hnot⟩
      · exact .inr ⟨r', List.mem_cons_of_mem _ hr', hy, s, s', hs.trans hsame, hstep, hrest⟩

theorem getElem?_insert_of_ne (h : n ≠ y) : (space.insert n p)[y]? = space[y]? := by
  rw [Std.TreeMap.getElem?_insert, if_neg]
  rwa [Std.LawfulEqOrd.compare_eq_iff_eq]

theorem getElem?_improve_of_ne (h : n ≠ y) : (improve space n p)[y]? = space[y]? := by
  unfold improve
  split
  · exact getElem?_insert_of_ne h
  · split
    · exact getElem?_insert_of_ne h
    · rfl

theorem addNear_other {toFar : Metric} {r : Result}
    (h : addNear t l f root e far toFar space r = .ok space') (hne : r.node ≠ y) :
    space'[y]? = space[y]? := by
  obtain ⟨_, _, -, -, -, -, rfl⟩ | ⟨rfl, -⟩ := addNear_cases h
  · exact getElem?_insert_of_ne hne
  · rfl

theorem addThrough_other {toRoot toFar : Metric} {r : Result}
    (h : addThrough t l f root far x toRoot toFar space r = .ok space') (hne : r.node ≠ y) :
    space'[y]? = space[y]? := by
  obtain ⟨_, _, -, -, -, -, rfl⟩ | ⟨rfl, -⟩ := addThrough_cases h
  · exact getElem?_improve_of_ne hne
  · rfl

/-! ## The plain P-space -/

theorem eligible_iff_carrier {r : Result} (hr : t.isPseudonode r.node l = false) :
    eligible t l root r = true ↔ Carrier t l root r.node :=
  eligible_iff.trans ⟨fun h => ⟨h.1, hr, h.2⟩, fun h => ⟨h.ne_root, h.forwards⟩⟩

/-- A result of the root makes an entry of the path that the root has itself. -/
theorem addNear_entry (hroot : f.Exact t l root) (hfar : f.Knows t l far) {r : Result}
    (hr : r ∈ f.destinations root) (hs : space[r.node]? = none)
    (h : addNear t l f root e far (t.leastMetric l root far) space r = .ok space') :
    space'[r.node]? = plainPath t l f root far e r.node := by
  obtain ⟨hmem, hrouter⟩ := hroot.mem_destinations.1 hr
  unfold plainPath
  rw [hroot.result?_eq_some_iff.2 ⟨hmem, rfl⟩, Option.bind_some]
  obtain ⟨onward, x, heligible, honward, hlt, hfind, rfl⟩ | ⟨rfl, hno⟩ := addNear_cases h
  · cases distance_eq hfar honward
    rw [hroot.metric_eq r hmem] at hlt
    obtain ⟨hreaches, havoids⟩ := leastMetric_lt_add_iff.1 hlt
    -- a walk visits the node at its end
    have hne : r.node ≠ far := fun e => by
      obtain ⟨as, has⟩ := exists_leastWalk hreaches
      exact havoids as has (e ▸ has.walk.visits_end)
    rw [if_pos ⟨(eligible_iff_carrier hrouter).1 heligible, hreaches, havoids⟩, hfind,
      Std.TreeMap.getElem?_insert_self, bne_iff_ne.2 hne]
    rfl
  · rw [hs]
    split
    · rename_i hplain
      obtain ⟨onward, honward, hnone⟩ := hno ((eligible_iff_carrier hrouter).2 hplain.1)
      cases distance_eq hfar honward
      rw [hnone (hroot.metric_eq r hmem ▸ leastMetric_lt_add_iff.2 hplain.2)]
      rfl
    · rfl

/-- **The entries of the plain P-space.** -/
theorem nearMembers_entry (hroot : f.Knows t l root) (hfar : f.Knows t l edge.target.node)
    (hidle : t.isOverloaded root l = true → f.destinations root = [])
    (h : nearMembers t l f root e edge = .ok space) :
    space[y]? = plainPath t l f root edge.target.node e y := by
  unfold nearMembers at h
  obtain ⟨toFar, htoFar, h⟩ := except_bind_eq_ok.1 h
  cases distance_eq hroot htoFar
  cases hover : t.isOverloaded root l with
  | true =>
    rw [hidle hover] at h
    cases h
    rw [plainPath_of_overloaded hover]
    simp
  | false =>
    have hexact := hroot.exact hover
    obtain ⟨hnot, hsame⟩ | ⟨r, hr, hy, s, s', hs, hstep, hsame⟩ :=
      foldlM_entry hexact.nodup_destinations (fun _ _ _ => addNear_other) h
    · -- what the root does not reach it has no path to
      have hno : plainPath t l f root edge.target.node e y = none :=
        if_neg fun ⟨hcarrier, hreaches, _⟩ =>
          hnot (hexact.mem_map_destinations.2 ⟨hcarrier.router, hreaches⟩)
      rw [hno, hsame]
      simp
    · subst hy
      rw [hsame]
      exact addNear_entry hexact hfar hr (hs.trans (by simp)) hstep

/-! ## What neighbours add -/

theorem helps_eq_true_iff (hroot : f.Knows t l root) (hfar : f.Knows t l far)
    {nb : LogicalNeighbour} {b : Bool}
    (h : helps t l f root e far (t.leastMetric l root far) nb = .ok b) :
    b = true ↔ Extends t l root far e nb := by
  obtain ⟨hne, hoif, hover, there, onward, hthere, honward, rfl⟩ | ⟨hno, rfl⟩ := helps_cases h
  · cases distance_eq hroot hthere
    cases distance_eq hfar honward
    rw [Bool.and_eq_true, decide_eq_true_iff, bne_iff_ne, leastMetric_lt_add_iff]
    exact ⟨fun h => ⟨hne, hoif, hover, h.1, h.2.2⟩,
      fun h => ⟨h.reaches, h.reaches, h.avoids⟩⟩
  · refine ⟨nofun, fun hext => ?_⟩
    obtain hno | hno | hno := hno
    · exact absurd hno hext.ne_far
    · exact absurd hno hext.other_edge
    · exact hext.forwards.symm.trans hno

/-- The next hops to helpful neighbours offer what the neighbours that take part do. -/
theorem filterMap_helpers (hroot : f.Knows t l root) (hfar : f.Knows t l far)
    {nbs : List LogicalNeighbour}
    (h : helpers t l f root e far (t.leastMetric l root far) nbs = .ok xs) :
    xs.filterMap (throughPath t l root far y) =
      nbs.filterMap (neighbourPath t l root far e y) := by
  induction nbs generalizing xs with
  | nil =>
    cases h
    rfl
  | cons nb nbs ih =>
    unfold helpers at h
    obtain ⟨useful, huseful, h⟩ := except_bind_eq_ok.1 h
    obtain ⟨rest, hrest, h⟩ := except_bind_eq_ok.1 h
    cases h
    have hext := helps_eq_true_iff hroot hfar huseful
    rw [List.filterMap_cons, neighbourPath, ← ih hrest]
    cases useful with
    | true => rw [if_pos (hext.1 rfl), if_pos rfl, List.filterMap_cons]
    | false =>
      rw [if_neg fun h => Bool.false_ne_true (hext.2 h)]
      rfl

open Classical in
/-- A result of a neighbour adds the path that it offers. -/
theorem addThrough_entry (hx : f.Exact t l x.node) (hroot : f.Knows t l root)
    (hfar : f.Knows t l far) {r : Result} (hr : r ∈ f.destinations x.node)
    (hs : space[r.node]? = best ps)
    (h : addThrough t l f root far x (t.leastMetric l x.node root) (t.leastMetric l x.node far)
      space r = .ok space') :
    space'[r.node]? = best (ps ++ (throughPath t l root far r.node x).toList) := by
  obtain ⟨hmem, hrouter⟩ := hx.mem_destinations.1 hr
  unfold throughPath
  obtain ⟨fromRoot, fromFar, heligible, hfromRoot, hlt, hfromFar, rfl⟩ | ⟨rfl, hno⟩ :=
    addThrough_cases h
  · cases distance_eq hroot hfromRoot
    cases distance_eq hfar hfromFar
    rw [hx.metric_eq r hmem] at hlt ⊢
    obtain ⟨hreaches, havoids⟩ := leastMetric_lt_add_iff.1 hlt
    rw [if_pos ⟨(eligible_iff_carrier hrouter).1 heligible, hreaches, havoids⟩]
    have hmark : (r.node != far && decide (t.leastMetric l x.node r.node <
        t.leastMetric l x.node far + t.leastMetric l far r.node)) =
        decide (r.node ≠ far ∧ Avoids t l x.node r.node far) := by
      rw [Bool.eq_iff_iff, Bool.and_eq_true, bne_iff_ne, decide_eq_true_iff, decide_eq_true_iff,
        leastMetric_lt_add_iff, and_iff_right hreaches]
    rw [← hmark]
    exact improve_entry hs _
  · rw [if_neg, Option.toList_none, List.append_nil, hs]
    rintro ⟨hcarrier, hthrough⟩
    obtain ⟨fromRoot, hfromRoot, hge⟩ := hno ((eligible_iff_carrier hrouter).2 hcarrier)
    cases distance_eq hroot hfromRoot
    rw [hx.metric_eq r hmem] at hge
    exact hge (leastMetric_lt_add_iff.2 ⟨hthrough.reaches, hthrough.avoids⟩)

/-! ## Between two neighbours -/

/-- From an overloaded node no search is made. -/
theorem computeDistances_overloaded (hover : t.isOverloaded n l = true)
    (h : computeDistances t l n w = .ok () w') : w' = w := by
  unfold computeDistances at h
  obtain ⟨node, w₁, h₁, h⟩ := bind_eq_ok.1 h
  obtain ⟨hnode, rfl⟩ := row_eq_ok.1 h₁
  split at h
  · obtain ⟨-, rfl⟩ := pure_eq_ok.1 h
    rfl
  · obtain ⟨_, _, hrun, -⟩ := bind_eq_ok.1 h
    obtain ⟨_, hvalid⟩ := Run.run_validate hrun
    obtain ⟨hnode, -, hforwards, -⟩ := Run.validate_eq_ok hvalid
    rw [Topology.isOverloaded, hnode] at hover
    exact absurd (hover.symm.trans hforwards) (by decide)

theorem settled_of_computeDistances (hw : t.WellFormed) (hn : t.isOverloaded n l = false)
    (h : computeDistances t l n w = .ok () w') :
    (w'.record l n).settled = Search.outcome t l n := by
  unfold computeDistances at h
  obtain ⟨node, w₁, h₁, h⟩ := bind_eq_ok.1 h
  obtain ⟨hnode, rfl⟩ := row_eq_ok.1 h₁
  have hover : node.isOverloaded l = false := by
    rwa [Topology.isOverloaded, hnode] at hn
  rw [hover] at h
  obtain ⟨_, _, hrun, h⟩ := bind_eq_ok.1 h
  obtain ⟨-, rfl⟩ := pure_eq_ok.1 h
  exact Run.settled_eq_of_run hw (.inr rfl) hrun

/-- The results of a root that is searched from stay as they are, also when it is searched from
again. -/
theorem settled_kept (hw : t.WellFormed) (hroot : t.isOverloaded root l = false)
    (hs : (w.record l root).settled = Search.outcome t l root)
    (h : computeDistances t l n w = .ok () w') :
    (w'.record l root).settled = Search.outcome t l root := by
  by_cases e : root = n
  · subst e
    exact settled_of_computeDistances hw hroot h
  · exact ((computeDistances_computed hw h).others root e).1.trans hs

/-- An overloaded root without results gets none. -/
theorem idle_kept (hw : t.WellFormed) (hroot : t.isOverloaded root l = true)
    (hidle : (w.findings.get l).destinations root = [])
    (h : computeDistances t l n w = .ok () w') : (w'.findings.get l).destinations root = [] := by
  by_cases e : root = n
  · subst e
    rw [computeDistances_overloaded hroot h, hidle]
  · exact ((computeDistances_computed hw h).others root e).2.trans hidle

/-- Both ends of the protected edge are known, and a root that is searched from has the results of
a search on this topology. -/
structure Prepared (t : Topology) (l : Level) (root far : NodeId) (w : Workspace) : Prop where
  ends : EndsKnown t l root far w
  settled : t.isOverloaded root l = false → (w.record l root).settled = Search.outcome t l root

theorem Prepared.computed (hw : t.WellFormed) (h : Prepared t l root far w)
    (hn : computeDistances t l n w = .ok () w') : Prepared t l root far w' :=
  ⟨h.ends.computed (computeDistances_computed hw hn),
    fun hroot => settled_kept hw hroot (h.settled hroot) hn⟩

/-- The root has the same paths to nodes whenever both ends have been searched from. -/
theorem Prepared.plainPath_eq (h : Prepared t l root far w) (h' : Prepared t l root far w')
    (e : EdgeId) (y : NodeId) :
    plainPath t l (w'.findings.get l) root far e y =
      plainPath t l (w.findings.get l) root far e y := by
  cases hover : t.isOverloaded root l with
  | true => rw [plainPath_of_overloaded hover, plainPath_of_overloaded hover]
  | false =>
    have hsame : (w'.findings.get l).result? root y = (w.findings.get l).result? root y :=
      congrArg (List.find? _) ((h'.settled hover).trans (h.settled hover).symm)
    rw [plainPath, plainPath, hsame]

/-- **What a sequence of neighbours makes of an entry**: the best of the paths so far and of those
that they offer. -/
theorem extendThrough_entry (hw : t.WellFormed) (hxs : ∀ x ∈ xs, t.isOverloaded x.node l = false)
    (hprepared : Prepared t l root far w) (hs : space[y]? = best ps)
    (h : extendThrough t l root far space xs w = .ok space' w') :
    space'[y]? = best (ps ++ xs.filterMap (throughPath t l root far y)) ∧
      Prepared t l root far w' := by
  induction xs generalizing w space ps with
  | nil =>
    obtain ⟨rfl, rfl⟩ := pure_eq_ok.1 h
    exact ⟨by simpa using hs, hprepared⟩
  | cons x xs ih =>
    obtain ⟨hx, hxs⟩ := List.forall_mem_cons.1 hxs
    obtain ⟨w₁, _, _, space₁, h₁, htoRoot, htoFar, hfold, h⟩ := extendThrough_cons_eq_ok h
    have hknown := (computeDistances_computed hw h₁).knows
    have hprepared₁ := hprepared.computed hw h₁
    cases distance_eq hknown htoRoot
    cases distance_eq hknown htoFar
    have hexact := hknown.exact hx
    have hs₁ : space₁[y]? = best (ps ++ (throughPath t l root far y x).toList) := by
      obtain ⟨hnot, hsame⟩ | ⟨r, hr, hy, s, s', hs', hstep, hsame⟩ :=
        foldlM_entry hexact.nodup_destinations (fun _ _ _ => addThrough_other) hfold
      · -- what the neighbour does not reach it does not offer
        have hno : throughPath t l root far y x = none := if_neg fun ⟨hcarrier, hthrough⟩ =>
          hnot (hexact.mem_map_destinations.2 ⟨hcarrier.router, hthrough.reaches⟩)
        rw [hno, hsame]
        simpa using hs
      · subst hy
        rw [hsame]
        exact addThrough_entry hexact hprepared₁.ends.root hprepared₁.ends.far hr (hs'.trans hs)
          hstep
    obtain ⟨hs', hprepared'⟩ := ih hxs hprepared₁ hs₁ h
    refine ⟨?_, hprepared'⟩
    rw [hs', List.append_assoc, List.filterMap_cons]
    cases throughPath t l root far y x <;> rfl

/-! ## The extended P-space -/

theorem extendedSpace_entry (hw : t.WellFormed) (hedge : t.edges.get? e = some edge)
    (hroot : t.isOverloaded root l = false ∨ (w.findings.get l).destinations root = [])
    (h : extendedSpace t l root e w = .ok space w') (y : NodeId) :
    space[y]? = best (offers t l (w'.findings.get l) root edge.target.node e y) := by
  obtain ⟨w₁, w₂, near, toFar, xs, h₁, h₂, hnear, htoFar, hxs, h⟩ := extendedSpace_eq_ok hedge h
  have hfar := computeDistances_computed hw h₂
  have hends : EndsKnown t l root edge.target.node w₂ :=
    ⟨hfar.keeps (computeDistances_computed hw h₁).knows, hfar.knows⟩
  have hprepared : Prepared t l root edge.target.node w₂ := ⟨hends, fun hover =>
    settled_kept hw hover (settled_of_computeDistances hw hover h₁) h₂⟩
  have hidle : t.isOverloaded root l = true → (w₂.findings.get l).destinations root = [] := by
    intro hover
    have hidle := hroot.resolve_left (by rw [hover]; decide)
    exact idle_kept hw hover (idle_kept hw hover hidle h₁) h₂
  have hentry : near[y]? =
      best (plainPath t l (w₂.findings.get l) root edge.target.node e y).toList := by
    rw [nearMembers_entry hends.root hends.far hidle hnear, best_toList]
  cases distance_eq hends.root htoFar
  have hforwards : ∀ x ∈ xs, t.isOverloaded x.node l = false := fun x hx =>
    (helpers_eq_ok hxs x hx).2
  obtain ⟨hspace, hprepared'⟩ := extendThrough_entry hw hforwards hprepared hentry h
  rw [hspace, offers, hprepared.plainPath_eq hprepared',
    filterMap_helpers hends.root hends.far hxs]

/-- **The extended P-space is exact**, in every topology that can be built and for every edge, if
the root is not overloaded or no results are stored for it. A node is a member if and only if it is
a router other than the root that carries traffic and is reached by the root itself on a plain path
or through a neighbour that takes part. It is marked if and only if there is a path on offer that
avoids the far end. The next hop is that of the plain path if there is one, or leads to the first
neighbour with a path, and with one that avoids the far end if the member is marked. -/
theorem extendedSpace_exact (history : List Change) (l : Level) (root : NodeId) (e : EdgeId)
    {edge : Edge} (hedge : (after {} history).edges.get? e = some edge) {w w' : Workspace}
    (hroot : (after {} history).isOverloaded root l = false ∨
      (w.findings.get l).destinations root = [])
    {space : RepairSpace}
    (h : extendedSpace (after {} history) l root e w = .ok space w') (y : NodeId) :
    (y ∈ space ↔ Carrier (after {} history) l root y ∧
      ((∃ x, Plain (after {} history) l (w'.findings.get l) root edge.target.node e y x) ∨
        ∃ nb ∈ (after {} history).logicalNeighbours root l,
          Extends (after {} history) l root edge.target.node e nb ∧
            Through (after {} history) l root nb.node y)) ∧
    ∀ path, space[y]? = some path →
      (path.nodeProtecting = true ↔
        (∃ x, Plain (after {} history) l (w'.findings.get l) root edge.target.node e y x) ∨
          y ≠ edge.target.node ∧ ∃ nb ∈ (after {} history).logicalNeighbours root l,
            Extends (after {} history) l root edge.target.node e nb ∧
              Through (after {} history) l root nb.node y ∧
                Avoids (after {} history) l nb.node y edge.target.node) ∧
      (Plain (after {} history) l (w'.findings.get l) root edge.target.node e y path.nexthop ∨
        (¬∃ x, Plain (after {} history) l (w'.findings.get l) root edge.target.node e y x) ∧
          ∃ nb, nb.nexthop = path.nexthop ∧
            First (fun nb => Extends (after {} history) l root edge.target.node e nb ∧
              Through (after {} history) l root nb.node y ∧
                (path.nodeProtecting = true →
                  Avoids (after {} history) l nb.node y edge.target.node))
            ((after {} history).logicalNeighbours root l) nb) := by
  have hentry := extendedSpace_entry (wellFormed_after history) hedge hroot h y
  generalize after {} history = t at *
  generalize edge.target.node = far at *
  constructor
  · rw [Std.TreeMap.mem_iff_isSome_getElem?, hentry, isSome_best_iff, exists_offer_iff]
    simp only [Bool.false_eq_true, false_imp_iff, and_true]
  intro path hpath
  obtain ⟨hmark, hfirst⟩ := best_eq_some (hentry.symm.trans hpath)
  have hcarrier : Carrier t l root y := ((exists_offer_iff path.nodeProtecting).1
    ⟨path, List.mem_of_find?_eq_some hfirst, List.find?_some hfirst⟩).1
  constructor
  · rw [hmark, exists_offer_iff, and_iff_right hcarrier]
    refine or_congr Iff.rfl ⟨?_, ?_⟩
    · rintro ⟨nb, hnb, hext, hthrough, havoids⟩
      exact ⟨(havoids rfl).1, nb, hnb, hext, hthrough, (havoids rfl).2⟩
    · rintro ⟨hne, nb, hnb, hext, hthrough, havoids⟩
      exact ⟨nb, hnb, hext, hthrough, fun _ => ⟨hne, havoids⟩⟩
  obtain hplain | ⟨hnone, nb, hnb, hfirst⟩ := first_offer hfirst
  · exact .inl (plainPath_eq_some_iff.1 hplain).2.1
  obtain ⟨-, -, -, hnexthop, hmark⟩ := neighbourPath_eq_some_iff.1 hnb
  have hoffer : ∀ nb, (∃ p, neighbourPath t l root far e y nb = some p ∧
      suits path.nodeProtecting p = true) ↔ Extends t l root far e nb ∧
        Through t l root nb.node y ∧
          (path.nodeProtecting = true → Avoids t l nb.node y far) := by
    intro nb
    rw [exists_neighbourPath_iff, and_iff_right hcarrier]
    refine and_congr_right fun _ => and_congr_right fun _ => ⟨fun h hc => (h hc).2, fun h hc => ?_⟩
    exact ⟨(hmark.1 hc).1, h hc⟩
  refine .inr ⟨?_, nb, hnexthop, by simpa only [hoffer] using hfirst⟩
  rintro ⟨x, hplain⟩
  have hsome := plainPath_eq_some_iff (p := ⟨x, true⟩) |>.2 ⟨hcarrier, hplain, rfl⟩
  rw [hnone] at hsome
  cases hsome

/-- In the ring of five routers the first one reaches the last two itself without the edge to the
second one, and the third one through the last one. -/
theorem extendedSpace_exact_pentagon : ∃ edge space w',
    (after {} Run.pentagon).edges.get? ⟨0, 0⟩ = some edge ∧
      (after {} Run.pentagon).isOverloaded ⟨0, 0⟩ .l1 = false ∧
      extendedSpace (after {} Run.pentagon) .l1 ⟨0, 0⟩ ⟨0, 0⟩ {} = .ok space w' ∧
      space.toList.map (·.1.position) = [2, 3, 4] ∧
      ∀ y, y ∈ space ↔ Carrier (after {} Run.pentagon) .l1 ⟨0, 0⟩ y ∧
        ((∃ x, Plain (after {} Run.pentagon) .l1 (w'.findings.get .l1) ⟨0, 0⟩ edge.target.node
            ⟨0, 0⟩ y x) ∨
          ∃ nb ∈ (after {} Run.pentagon).logicalNeighbours ⟨0, 0⟩ .l1,
            Extends (after {} Run.pentagon) .l1 ⟨0, 0⟩ edge.target.node ⟨0, 0⟩ nb ∧
              Through (after {} Run.pentagon) .l1 ⟨0, 0⟩ nb.node y) := by
  have hstored : ((after {} Run.pentagon).edges.get? ⟨0, 0⟩).isSome = true := by decide +kernel
  obtain ⟨edge, hedge⟩ := Option.isSome_iff_exists.1 hstored
  have hroot : (after {} Run.pentagon).isOverloaded ⟨0, 0⟩ .l1 = false := by decide +kernel
  obtain ⟨space, w', h, hspace⟩ := exists_of_yields
    (c := extendedSpace (after {} Run.pentagon) .l1 ⟨0, 0⟩ ⟨0, 0⟩) (w := {})
    (p := fun space => space.toList.map (·.1.position) == [2, 3, 4]) (by decide +kernel)
  exact ⟨edge, space, w', hedge, hroot, h, by simpa using hspace, fun y =>
    (extendedSpace_exact Run.pentagon .l1 ⟨0, 0⟩ ⟨0, 0⟩ hedge (.inl hroot) h y).1⟩

/-- The ring of five routers, whose first one has become overloaded. -/
def overloadedRing : List Change := Run.pentagon ++ [.setOverload ⟨0, 0⟩ .l1 true]

/-- What a search has found before its root became overloaded is in the extended P-space, although
the root then reaches no node and no neighbour. -/
theorem mem_extendedSpace_overloadedRing : ∃ rs w space w' y edge,
    Run.run (after {} Run.pentagon) ⟨0, 0⟩ .l1 .forward {} = .ok rs w ∧
      (after {} overloadedRing).edges.get? ⟨0, 0⟩ = some edge ∧
      extendedSpace (after {} overloadedRing) .l1 ⟨0, 0⟩ ⟨0, 0⟩ w = .ok space w' ∧ y ∈ space ∧
      ¬(Carrier (after {} overloadedRing) .l1 ⟨0, 0⟩ y ∧
        ((∃ x, Plain (after {} overloadedRing) .l1 (w'.findings.get .l1) ⟨0, 0⟩ edge.target.node
            ⟨0, 0⟩ y x) ∨
          ∃ nb ∈ (after {} overloadedRing).logicalNeighbours ⟨0, 0⟩ .l1,
            Extends (after {} overloadedRing) .l1 ⟨0, 0⟩ edge.target.node ⟨0, 0⟩ nb ∧
              Through (after {} overloadedRing) .l1 ⟨0, 0⟩ nb.node y)) := by
  have hover : (after {} overloadedRing).isOverloaded ⟨0, 0⟩ .l1 = true := by decide +kernel
  have hstored : ((after {} overloadedRing).edges.get? ⟨0, 0⟩).isSome = true := by decide +kernel
  obtain ⟨edge, hedge⟩ := Option.isSome_iff_exists.1 hstored
  obtain ⟨space, w', h, hspace⟩ := exists_of_yields (w := {})
    (c := do
      let _ ← Run.run (after {} Run.pentagon) ⟨0, 0⟩ .l1 .forward
      extendedSpace (after {} overloadedRing) .l1 ⟨0, 0⟩ ⟨0, 0⟩)
    (p := fun space => space.contains ⟨4, 0⟩) (by decide +kernel)
  obtain ⟨rs, w, hrun, h⟩ := bind_eq_ok.1 h
  refine ⟨rs, w, space, w', ⟨4, 0⟩, edge, hrun, hedge, h, Std.TreeMap.mem_iff_contains.2 hspace, ?_⟩
  rintro ⟨hcarrier, ⟨x, hplain⟩ | ⟨nb, -, hext, -⟩⟩
  · exact hplain.reaches (leastMetric_of_overloaded hover hcarrier.ne_root.symm)
  · refine hext.reaches (leastMetric_of_overloaded hover fun e => ?_)
    have := hext.forwards
    rw [← e, hover] at this
    cases this

end LinkState.Repair
