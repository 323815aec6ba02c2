import LinkState.Proofs.Computation
import LinkState.Proofs.ShortestPath.Routing

/-!
# What stays true of a root once a run has ended

The record of a root is `Fresh` if it holds what a search from the root finds now. `Standing` says
of a root what a run of a given kind makes true: a run that searches leaves a fresh record, and
after a full one another full run could be made at once.

Full runs are counted, and after the greatest count comes 0, as if there had been none. So a full
run at level 2 may need one at level 1 once more. That is no obstacle: a count only changes where a
full run may be made (`MayRun`).

Runs on the topology keep this, and every run that is reported as ended makes it true of its root
(`Advances`, `advances_run`).
-/

namespace LinkState

open Compute Run

variable {t t' : Topology} {l l' : Level} {root far x n : NodeId} {kind k : RunKind}
  {w w' w'' : Workspace} {r : RootRecord}

/-- What is kept for a root is what a search from it finds. -/
structure RootRecord.Fresh (t : Topology) (l : Level) (x : NodeId) (r : RootRecord) : Prop where
  settled : r.settled = Search.outcome t l x
  destinations : r.destinations = Search.routers t l (Search.outcome t l x)

namespace RootRecord

/-- Fresh results are exact. -/
theorem Fresh.exact (hw : t.WellFormed) (hx : t.nodes.contains x = true) {f : Findings}
    (h : (f.roots.read x).Fresh t l x) : f.Exact t l x := by
  have hempty : ({} : Frontier NodeId).isEmpty = true := rfl
  obtain ⟨s, hs, hcomplete⟩ := Search.run_complete (l := l) hw hx ∅ hempty
  refine (Findings.exact_store (f := {}) hcomplete).congr ⟨?_, ?_⟩
  · rw [h.settled, Findings.store, HandleMap.read_update, if_pos rfl]
    exact (Search.settled_eq_outcome hw hx rfl hs).symm
  · rw [Findings.destinations, h.destinations, Findings.destinations, Findings.store,
      HandleMap.read_update, if_pos rfl]
    exact congrArg (Search.routers t l) (Search.settled_eq_outcome hw hx rfl hs).symm

theorem fresh_afterRun (hkind : kind ≠ .partialRoutes) (r : RootRecord) :
    (r.afterRun t root l kind).Fresh t l root := by
  cases kind with
  | partialRoutes => exact absurd rfl hkind
  | _ => exact ⟨rfl, rfl⟩

theorem Fresh.afterRun (h : r.Fresh t l root) (kind : RunKind) :
    (r.afterRun t root l kind).Fresh t l root := by
  cases kind with
  | partialRoutes => exact ⟨h.settled, h.destinations⟩
  | _ => exact ⟨rfl, rfl⟩

/-- Only full runs are counted. -/
theorem version_afterRun (r : RootRecord) (kind : RunKind) :
    (r.afterRun t root l kind).version = r.version ∨ kind = .full := by
  cases kind with
  | full => exact .inr rfl
  | _ => exact .inl rfl

end RootRecord

/-- A request for a full run is in order. -/
def MayRun (t : Topology) (x : NodeId) (l : Level) : Prop :=
  ∃ node, validate t x l .full = .ok node

/-- What a run of a kind makes true of its root: what is kept for it is fresh, and after a full run
another one could be made, and one at level 1 before it if need be. -/
def Standing (t : Topology) (l : Level) (x : NodeId) (w : Workspace) : RunKind → Prop
  | .full => (w.record l x).Fresh t l x ∧ ∃ node, validate t x l .full = .ok node ∧
    (needsLowerLevel l node (w.record .l1 x).version .full = true → MayRun t x .l1)
  | .forward => (w.record l x).Fresh t l x
  | .partialRoutes => True

theorem Standing.fresh (h : Standing t l x w k) (hk : k ≠ .partialRoutes) :
    (w.record l x).Fresh t l x := by
  cases k with
  | full => exact h.1
  | forward => exact h
  | partialRoutes => exact absurd rfl hk

theorem Standing.transfer (h : Standing t l x w k)
    (hfresh : (w.record l x).Fresh t l x → (w'.record l x).Fresh t l x)
    (hversion : ∀ l', (w'.record l' x).version = (w.record l' x).version ∨ MayRun t x l') :
    Standing t l x w' k := by
  cases k with
  | full =>
    obtain ⟨hf, node, hvalid, hlower⟩ := h
    refine ⟨hfresh hf, node, hvalid, fun hneeds => ?_⟩
    obtain e | hmay := hversion .l1
    · exact hlower (e ▸ hneeds)
    · exact hmay
  | forward => exact hfresh h
  | partialRoutes => trivial

/-- Whether a request is in order is a matter of what searches look at. -/
theorem validate_congr (ht : t.routing = t'.routing) {node : Node}
    (h : validate t x l kind = .ok node) :
    ∃ node', validate t' x l kind = .ok node' ∧ node'.routing = node.routing := by
  have hvalid := validate_routing (t := t) x l kind
  rw [h, ht, validate_routing] at hvalid
  cases hv : validate t' x l kind with
  | error e =>
    rw [hv] at hvalid
    cases hvalid
  | ok node' =>
    rw [hv] at hvalid
    exact ⟨node', rfl, Except.ok.inj hvalid⟩

theorem MayRun.congr (h : MayRun t x l) (ht : t.routing = t'.routing) : MayRun t' x l := by
  obtain ⟨node, h⟩ := h
  obtain ⟨node', h', -⟩ := validate_congr ht h
  exact ⟨node', h'⟩

/-- Standing is a matter of what searches look at. -/
theorem Standing.congr (h : Standing t l x w k) (ht : t.routing = t'.routing) :
    Standing t' l x w k := by
  have houtcome := Search.outcome_congr ht l x
  have hrouters : Search.routers t l = Search.routers t' l := by
    funext rs
    refine List.filter_congr fun r _ => ?_
    rw [← Topology.isPseudonode_routing, ht, Topology.isPseudonode_routing]
  have hfresh : (w.record l x).Fresh t l x → (w.record l x).Fresh t' l x := fun hf =>
    ⟨hf.settled.trans houtcome, by rw [hf.destinations, hrouters, houtcome]⟩
  cases k with
  | full =>
    obtain ⟨hf, node, hvalid, hlower⟩ := h
    obtain ⟨node', hvalid', hnode⟩ := validate_congr ht hvalid
    refine ⟨hfresh hf, node', hvalid', fun hneeds => (hlower ?_).congr ht⟩
    have hsame : ∀ m : Node, needsLowerLevel l m (w.record .l1 x).version .full =
        needsLowerLevel l m.routing (w.record .l1 x).version .full := fun _ => rfl
    rwa [hsame, hnode, ← hsame] at hneeds
  | forward => exact hfresh h
  | partialRoutes => trivial

/-! ## Runs -/

/-- A run changes the count of full runs only where one may be made. -/
theorem Run.Performed.version_eq_or {node : Node} (h : Performed t root l kind w w')
    (hvalid : validate t root l kind = .ok node) (l' : Level) (x : NodeId) :
    (w'.record l' x).version = (w.record l' x).version ∨ MayRun t x l' := by
  rw [h.record]
  split
  · rename_i e
    obtain ⟨rfl, rfl⟩ := e
    refine (RootRecord.version_afterRun ..).imp_right ?_
    rintro rfl
    exact ⟨node, hvalid⟩
  · exact .inl rfl

theorem Run.Performed.keeps {node : Node} (h : Performed t root l kind w w')
    (hvalid : validate t root l kind = .ok node) (hs : Standing t l' x w k) :
    Standing t l' x w' k := by
  refine hs.transfer (fun hf => ?_) fun l'' => h.version_eq_or hvalid l'' x
  rw [h.record]
  split
  · rename_i e
    obtain ⟨rfl, rfl⟩ := e
    exact hf.afterRun kind
  · exact hf

/-- A run that searches leaves a fresh record. -/
theorem Run.Performed.fresh (h : Performed t root l kind w w') (hkind : kind ≠ .partialRoutes) :
    (w'.record l root).Fresh t l root := by
  rw [h.record, if_pos ⟨rfl, rfl⟩]
  exact RootRecord.fresh_afterRun hkind _

/-- A run makes its kind of standing true of its root. -/
theorem Run.Performed.standing {node : Node} (h : Performed t root l kind w w')
    (hvalid : validate t root l kind = .ok node)
    (hlower : needsLowerLevel l node (w.record .l1 root).version kind = true →
      MayRun t root .l1) :
    Standing t l root w' kind := by
  cases kind with
  | full =>
    refine ⟨h.fresh nofun, node, hvalid, fun hneeds => ?_⟩
    obtain e | hmay := h.version_eq_or hvalid .l1 root
    · exact hlower (e ▸ hneeds)
    · exact hmay
  | forward => exact h.fresh nofun
  | partialRoutes => trivial

/-- A step that keeps the standing of all roots, and after which every run that it reports as ended
has made its kind of standing true. -/
structure Advance (t : Topology) (w w' : Workspace) : Prop where
  frontier : w'.frontier.isEmpty = true
  version : ∀ l x, (w'.record l x).version = (w.record l x).version ∨ MayRun t x l
  keeps : ∀ l x k, Standing t l x w k → Standing t l x w' k
  trace : ∃ es, w'.trace = w.trace ++ es ∧ ∀ x l k count, t.nodes.contains x = true →
    .runFinished (t.nameOf x) l k count ∈ es → Standing t l x w' k

/-- Advancing is a matter of what searches look at. -/
theorem Advance.congr (h : Advance t w w') (ht : t.routing = t'.routing) : Advance t' w w' := by
  refine ⟨h.frontier, fun l x => (h.version l x).imp_right fun hmay => hmay.congr ht,
    fun l x k hs => (h.keeps l x k (hs.congr ht.symm)).congr ht, ?_⟩
  obtain ⟨es, hes, hends⟩ := h.trace
  refine ⟨es, hes, fun x l k count hx hmem => (hends x l k count ?_ ?_).congr ht⟩
  · rw [Topology.routing_contains_congr ht, hx]
  · rw [← Topology.nameOf_routing, ht, Topology.nameOf_routing]
    exact hmem

/-- An advance of a workspace between two computations. -/
def Advances (t : Topology) (w w' : Workspace) : Prop :=
  w.frontier.isEmpty = true → Advance t w w'

theorem chained_advances (t : Topology) : Chained (Advances t) where
  refl w hempty := ⟨hempty, fun _ _ => .inl rfl, fun _ _ _ h => h, [], by simp, by simp⟩
  trans h h' hempty := by
    have h₁ := h hempty
    have h₂ := h' h₁.frontier
    obtain ⟨es, hes, hends⟩ := h₁.trace
    obtain ⟨es', hes', hends'⟩ := h₂.trace
    refine ⟨h₂.frontier, fun l x => ?_, fun l x k hs => h₂.keeps l x k (h₁.keeps l x k hs),
      es ++ es', ?_, ?_⟩
    · obtain e | hmay := h₁.version l x
      · exact e ▸ h₂.version l x
      · exact .inr hmay
    · rw [hes', hes, List.append_assoc]
    · intro x l k count hx he
      rcases List.mem_append.1 he with he | he
      · exact h₂.keeps l x k (hends x l k count hx he)
      · exact hends' x l k count hx he
  emit w e he hempty := by
    refine ⟨hempty, fun _ _ => .inl rfl, fun _ _ _ h => h, [e], rfl, ?_⟩
    intro x l k count _ hmem
    rw [← List.mem_singleton.1 hmem] at he
    cases he

/-- The one run that a run reports as ended is its own. -/
theorem Run.Performed.of_mem_trace (h : Performed t root l kind w w') :
    ∃ es, w'.trace = w.trace ++ es ∧ ∀ name l' k count, .runFinished name l' k count ∈ es →
      name = t.nameOf root ∧ l' = l ∧ k = kind := by
  obtain ⟨es, count, hes, hends⟩ := h.trace
  refine ⟨_, hes, fun name l' k count' hmem => ?_⟩
  rcases List.mem_append.1 hmem with hmem | hmem
  · cases hends _ hmem
  · cases List.mem_singleton.1 hmem
    exact ⟨rfl, rfl, rfl⟩

theorem Run.Performed.advance {node : Node} (h : Performed t root l kind w w')
    (hnames : t.NamesDistinct) (hvalid : validate t root l kind = .ok node)
    (hstanding : Standing t l root w' kind) : Advance t w w' := by
  have hroot := contains_of_validate hvalid
  refine ⟨h.frontier, h.version_eq_or hvalid, fun l' x k hs => h.keeps hvalid hs, ?_⟩
  obtain ⟨es, hes, hends⟩ := h.of_mem_trace
  refine ⟨es, hes, fun x l' k count hx hmem => ?_⟩
  obtain ⟨hname, rfl, rfl⟩ := hends _ _ _ _ hmem
  exact hnames.nameOf_inj hx hroot hname ▸ hstanding

theorem validate_effectiveKind (v : UInt32) :
    validate t root l (effectiveKind v kind) = validate t root l kind := by
  cases kind with
  | partialRoutes =>
    unfold effectiveKind
    dsimp only
    split <;> rfl
  | _ => rfl

/-- **Runs advance.** -/
theorem advances_run (hw : t.WellFormed) (hnames : t.NamesDistinct) (root : NodeId) (l : Level)
    (kind : RunKind) : Keeps (Advances t) (run t root l kind) := by
  intro w hempty
  have hran := run_ran hw hempty root l kind
  rw [Compute.after]
  generalize run t root l kind w = result at hran ⊢
  cases hran with
  | refused => exact (chained_advances t).refl w hempty
  | made valid alone performed =>
    have hvalid := (validate_effectiveKind (w.record l root).version).trans valid
    refine performed.advance hnames hvalid (performed.standing hvalid fun hneeds => ?_)
    rw [alone] at hneeds
    cases hneeds
  | madeAfter valid _ valid' performed' performed =>
    have hvalid := (validate_effectiveKind (w.record l root).version).trans valid
    have hfirst := performed'.advance hnames valid'
      (performed'.standing valid' fun hneeds => by cases hneeds)
    have hsecond := performed.advance hnames hvalid
      (performed.standing hvalid fun _ => ⟨_, valid'⟩)
    exact (chained_advances t).trans (fun _ => hfirst) (fun _ => hsecond) hempty

theorem running_advances (hw : t.WellFormed) (hnames : t.NamesDistinct) :
    Running t (Advances t) where
  toChained := chained_advances t
  run := advances_run hw hnames

end LinkState
