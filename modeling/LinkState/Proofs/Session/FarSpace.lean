import LinkState.Proofs.Session.Standing

/-!
# What the Q-space leaves behind

To find the Q-space, searches are made on the inverted topology from the two ends of the protected
edge. They spoil the records of these two nodes and no other one (`Disturb`), and the records are
then made anew on the topology itself. Every such search was accepted, and so is the search on the
topology from the same node, so in the end nothing is spoilt (`Disturb.advance`).

This takes a root that exists: a search from any other one is refused on the inverted topology, and
then the attempt to make it anew ends in a fault, before the other end has had its turn. With that
proviso the Q-space advances (`advances_farSpace`), and so does every other computation
(`closed_advances`).
-/

namespace LinkState

open Compute Run

variable {α β : Type} {t : Topology} {l : Level} {root far n : NodeId} {w w' w'' : Workspace}
  {c : Compute α} {k : α → Compute β} {P : NodeId → Prop}

/-! ## Computations without faults -/

/-- A computation succeeds or is refused. -/
def Compute.Faultless (c : Compute α) (w : Workspace) : Prop := ∀ f w', c w ≠ .error (.fault f) w'

theorem Compute.Faultless.bind (hc : c.Faultless w)
    (hk : ∀ a w', c w = .ok a w' → (k a).Faultless w') : (c >>= k).Faultless w := by
  intro f w'
  cases hw : c w with
  | ok a w₁ =>
    rw [bind_of_ok hw]
    exact hk a w₁ hw f w'
  | error e w₁ =>
    rw [bind_of_error hw]
    intro h
    cases h
    exact hc f w' hw

theorem Compute.Faultless.attempt_eq_ok (hc : c.Faultless w) :
    ∃ r, attempt c w = .ok r (c.after w) := by
  cases hw : c w with
  | ok a w₁ => exact ⟨.ok a, after_of_ok hw ▸ attempt_of_ok hw⟩
  | error e w₁ =>
    cases e with
    | error e => exact ⟨.error e, after_of_error hw ▸ attempt_of_error hw⟩
    | fault f => exact absurd hw (hc f w₁)

theorem run_faultless (hw : t.WellFormed) (hempty : w.frontier.isEmpty = true) (kind : RunKind) :
    (run t n l kind).Faultless w := by
  intro f w' h
  have hran := run_ran hw hempty n l kind
  rw [h] at hran
  cases hran

theorem computeDistances_faultless (hw : t.WellFormed) (hn : t.nodes.contains n = true)
    (hempty : w.frontier.isEmpty = true) : (computeDistances t l n).Faultless w := by
  unfold computeDistances
  obtain ⟨node, hnode⟩ := Option.isSome_iff_exists.1 hn
  refine Compute.Faultless.bind (fun f w' h => ?_) fun node' w₁ h₁ => ?_
  · rw [hnode] at h
    cases h
  · obtain ⟨-, rfl⟩ := row_eq_ok.1 h₁
    split
    · exact fun f w' h => by cases h
    · exact (run_faultless hw hempty .forward).bind fun _ _ _ f w' h => by cases h

/-- Searching from a node that may be searched from leaves a fresh record. -/
theorem computeDistances_fresh (hw : t.WellFormed) {node : Node}
    (hvalid : validate t n l .forward = .ok node) (hempty : w.frontier.isEmpty = true) :
    (((computeDistances t l n).after w).record l n).Fresh t l n := by
  obtain ⟨hnode, -, hover, -⟩ := validate_eq_ok hvalid
  have hrow : row (t.nodes.get? n) w = .ok node w := by
    rw [hnode]
    rfl
  rw [computeDistances, after_bind_of_ok hrow, hover, Bool.false_and, if_neg Bool.false_ne_true]
  obtain ⟨e, h, -⟩ | ⟨_, w₁, -, hrun, performed⟩ := run_alone hw hempty n (.inl rfl) (l := l)
  · cases hvalid.symm.trans h
  · rw [after_bind_of_ok hrun]
    exact performed.fresh nofun

/-! ## Searches on the inverted topology -/

/-- A step that spoils at most the records of some nodes at a level, without counting a full run,
and reports forward runs of these nodes at the level only. -/
structure Disturb (t : Topology) (l : Level) (P : NodeId → Prop) (w w' : Workspace) : Prop where
  frontier : w'.frontier.isEmpty = true
  version : ∀ l' x, (w'.record l' x).version = (w.record l' x).version
  record : ∀ l' x, ¬(l' = l ∧ P x) → w'.record l' x = w.record l' x
  trace : ∃ es, w'.trace = w.trace ++ es ∧ ∀ x l' k count, t.nodes.contains x = true →
    .runFinished (t.nameOf x) l' k count ∈ es → l' = l ∧ k = .forward ∧ P x

/-- A disturbance of a workspace between two computations. -/
def Disturbs (t : Topology) (l : Level) (P : NodeId → Prop) (w w' : Workspace) : Prop :=
  w.frontier.isEmpty = true → Disturb t l P w w'

theorem chained_disturbs (t : Topology) (l : Level) (P : NodeId → Prop) :
    Chained (Disturbs t l P) where
  refl w hempty := ⟨hempty, fun _ _ => rfl, fun _ _ _ => rfl, [], by simp, by simp⟩
  trans h h' hempty := by
    have h₁ := h hempty
    have h₂ := h' h₁.frontier
    obtain ⟨es, hes, hends⟩ := h₁.trace
    obtain ⟨es', hes', hends'⟩ := h₂.trace
    refine ⟨h₂.frontier, fun l x => (h₂.version l x).trans (h₁.version l x),
      fun l x hx => (h₂.record l x hx).trans (h₁.record l x hx), es ++ es', ?_, ?_⟩
    · rw [hes', hes, List.append_assoc]
    · intro x l k count hx he
      exact (List.mem_append.1 he).elim (hends x l k count hx) (hends' x l k count hx)
  emit w e he hempty := by
    refine ⟨hempty, fun _ _ => rfl, fun _ _ _ => rfl, [e], rfl, ?_⟩
    intro x l k count _ hmem
    rw [← List.mem_singleton.1 hmem] at he
    cases he

/-- A run on the inverted topology disturbs the record of its root only. -/
theorem disturbs_run (hw : t.WellFormed) (hnames : t.NamesDistinct)
    (hP : ∀ node, validate t n l .forward = .ok node → P n) :
    Keeps (Disturbs t l P) (run (t.invert l) n l .forward) := by
  intro w hempty
  obtain ⟨e, -, hrun⟩ | ⟨_, w₁, valid, hrun, performed⟩ :=
    run_alone (hw.invert l) hempty n (.inl rfl) (l := l)
  · rw [after_of_error hrun]
    exact (chained_disturbs t l P).refl w hempty
  · rw [after_of_ok hrun]
    have hn : P n := hP _ valid
    refine ⟨performed.frontier, fun l' x => ?_, fun l' x hx => ?_, ?_⟩
    · rw [performed.record]
      split
      · rename_i e
        rw [e.1, e.2]
        rfl
      · rfl
    · refine (performed.record l' x).trans (if_neg ?_)
      rintro ⟨rfl, rfl⟩
      exact hx ⟨rfl, hn⟩
    · obtain ⟨es, hes, hends⟩ := performed.of_mem_trace
      refine ⟨es, hes, fun x l' k count hx hmem => ?_⟩
      obtain ⟨hname, rfl, rfl⟩ := hends _ _ _ _ hmem
      exact ⟨rfl, rfl, hnames.nameOf_inj hx (contains_of_validate valid) hname ▸ hn⟩

/-- **Nothing is spoilt once the disturbed records have been made anew.** -/
theorem Disturb.advance (h : Disturb t l P w w') (h' : Advance t w' w'')
    (hP : ∀ x, P x → (w''.record l x).Fresh t l x) : Advance t w w'' := by
  have hversion : ∀ l' x,
      (w''.record l' x).version = (w.record l' x).version ∨ MayRun t x l' := fun l' x =>
    h.version l' x ▸ h'.version l' x
  refine ⟨h'.frontier, hversion, fun l' x k hs => ?_, ?_⟩
  · by_cases hx : l' = l ∧ P x
    · obtain ⟨rfl, hx⟩ := hx
      exact hs.transfer (fun _ => hP x hx) fun l'' => hversion l'' x
    · refine h'.keeps l' x k (hs.transfer (fun hf => ?_) fun l'' => .inl (h.version l'' x))
      rw [h.record l' x hx]
      exact hf
  · obtain ⟨es, hes, hends⟩ := h.trace
    obtain ⟨es', hes', hends'⟩ := h'.trace
    refine ⟨es ++ es', ?_, fun x l' k count hx he => ?_⟩
    · rw [hes', hes, List.append_assoc]
    · rcases List.mem_append.1 he with he | he
      · obtain ⟨rfl, rfl, hx⟩ := hends x l' k count hx he
        exact hP x hx
      · exact hends' x l' k count hx he

/-! ## The Q-space -/

/-- The searches of the Q-space on the inverted topology, the root's after the far end's. -/
abbrev Repair.distancesTowardEnds (t : Topology) (l : Level) (far root : NodeId) :
    Compute (Std.TreeMap NodeId Metric × Std.TreeMap NodeId Metric) := do
  let towardFar ← distancesToward l (t.invert l) far
  let towardRoot ← distancesToward l (t.invert l) root
  return (towardFar, towardRoot)

/-- The two searches on the inverted topology disturb the records of the two ends only. -/
theorem disturbs_toward (hw : t.WellFormed) (hnames : t.NamesDistinct)
    (hfar : ∀ node, validate t far l .forward = .ok node → P far)
    (hroot : ∀ node, validate t root l .forward = .ok node → P root) :
    Keeps (Disturbs t l P) (Repair.distancesTowardEnds t l far root) := by
  have h := chained_disturbs t l P
  have htoward : ∀ n, (∀ node, validate t n l .forward = .ok node → P n) →
      Keeps (Disturbs t l P) (Repair.distancesToward l (t.invert l) n) := fun n hn =>
    h.bind (disturbs_run hw hnames hn) fun _ => h.pure _
  exact h.bind (htoward far hfar) fun _ => h.bind (htoward root hroot) fun _ => h.pure _

theorem toward_faultless (hw : t.WellFormed) (far root : NodeId) (l : Level)
    (hempty : w.frontier.isEmpty = true) :
    (Repair.distancesTowardEnds t l far root).Faultless w := by
  have hempties := running_staysEmpty (hw.invert l)
  have htoward : ∀ n {w : Workspace}, w.frontier.isEmpty = true →
      (Repair.distancesToward l (t.invert l) n).Faultless w := fun n w hempty =>
    (run_faultless (hw.invert l) hempty .forward).bind fun _ _ _ f w' h => by cases h
  refine (htoward far hempty).bind fun _ w₁ h₁ => ?_
  have hempty₁ : w₁.frontier.isEmpty = true := after_of_ok h₁ ▸
    hempties.bind (hempties.run far l .forward) (fun _ => hempties.pure _) w hempty
  exact (htoward root hempty₁).bind fun _ _ _ f w' h => by cases h

/-- **The Q-space of a root that exists advances.** -/
theorem advances_farSpace (hw : t.WellFormed) (hnames : t.NamesDistinct) (root : NodeId)
    (e : EdgeId) (l : Level) (hroot : t.nodes.contains root = true) :
    Keeps (Advances t) (Repair.farSpace t l root e) := by
  have hrun := running_advances hw hnames
  unfold Repair.farSpace
  refine hrun.bindOn (hrun.row _) fun edge w w₀ hrow => ?_
  obtain ⟨hedge, rfl⟩ := row_eq_ok.1 hrow
  have hfar := hw.target_mem e edge hedge
  generalize edge.target.node = far at hfar ⊢
  dsimp only
  split
  · exact hrun.pure _ w
  refine hrun.bindOn (hrun.tell rfl) (fun _ w₀ w _ hempty => ?_) w
  -- the records that are disturbed are those of the ends from which a search is accepted
  let P : NodeId → Prop := fun x =>
    (x = root ∨ x = far) ∧ ∃ node, validate t x l .forward = .ok node
  obtain ⟨toward, htoward⟩ := (toward_faultless hw far root l hempty).attempt_eq_ok
  have hdisturb := disturbs_toward (P := P) hw hnames (fun node hv => ⟨.inr rfl, node, hv⟩)
    (fun node hv => ⟨.inl rfl, node, hv⟩) w hempty
  rw [after_bind_of_ok htoward]
  generalize Compute.after _ w = w₁ at hdisturb ⊢
  have htold : emit (.topologyInverted l) w₁ = .ok () ((emit (.topologyInverted l)).after w₁) := rfl
  have hdisturb := (chained_disturbs t l P).trans (fun _ => hdisturb)
    ((chained_disturbs t l P).tell (e := .topologyInverted l) rfl w₁) hempty
  rw [after_bind_of_ok htold]
  generalize (emit (.topologyInverted l)).after w₁ = w₂ at hdisturb ⊢
  -- both ends are searched from again
  obtain ⟨rootAnew, hrootAnew⟩ :=
    (computeDistances_faultless (l := l) hw hroot hdisturb.frontier).attempt_eq_ok
  have hadvance₁ := hrun.computeDistances (l := l) root w₂ hdisturb.frontier
  have hfresh₁ : ∀ node, validate t root l .forward = .ok node →
      (((computeDistances t l root).after w₂).record l root).Fresh t l root := fun _ hv =>
    computeDistances_fresh hw hv hdisturb.frontier
  rw [after_bind_of_ok hrootAnew]
  generalize (computeDistances t l root).after w₂ = w₃ at hadvance₁ hfresh₁ ⊢
  obtain ⟨farAnew, hfarAnew⟩ :=
    (computeDistances_faultless (l := l) hw hfar hadvance₁.frontier).attempt_eq_ok
  have hadvance₂ := hrun.computeDistances (l := l) far w₃ hadvance₁.frontier
  have hfresh₂ : ∀ node, validate t far l .forward = .ok node →
      (((computeDistances t l far).after w₃).record l far).Fresh t l far := fun _ hv =>
    computeDistances_fresh hw hv hadvance₁.frontier
  rw [after_bind_of_ok hfarAnew]
  generalize (computeDistances t l far).after w₃ = w₄ at hadvance₂ hfresh₂ ⊢
  have hrestored : Advance t w w₄ := by
    refine hdisturb.advance (hrun.trans (fun _ => hadvance₁) (fun _ => hadvance₂)
      hdisturb.frontier) ?_
    rintro x ⟨rfl | rfl, node, hv⟩
    · exact hadvance₂.keeps l x .forward (hfresh₁ node hv)
    · exact hfresh₂ node hv
  refine hrun.trans (fun _ => hrestored) (hrun.bind (hrun.check toward) (fun _ => ?_) w₄) hempty
  exact hrun.bind (hrun.check rootAnew) fun _ => hrun.bind (hrun.check farAnew) fun _ => hrun.pure _

theorem closed_advances (hw : t.WellFormed) (hnames : t.NamesDistinct) : Closed t (Advances t) where
  toRunning := running_advances hw hnames
  farSpace := advances_farSpace hw hnames

end LinkState
