import LinkState.Proofs.Session.FarSpace
import LinkState.Proofs.Topology.Inversion

/-!
# Inversion in place

A computation is given its topology as a value, so that the one of the session cannot change, and
the Q-space is found on an inverted copy. The same computations can be carried out on the topology
of the session itself: `Computation.inPlace` inverts it pair by pair, searches, and inverts it once
more on every way out, be it an answer, a refusal or a fault (`InPlace.inverted`).

In place the topology is the same in the end because the second inversion undoes the first one
(`Computation.restores_inPlace`), and what is answered, what is found and what is told to the trace
is what it is on the copy (`Computation.agrees_inPlace`). The latter needs that no search on the
inverted topology ends in a fault, since a fault on the copy would not tell the trace of a second
inversion. Both facts go by the parts of a program: `Restores` and `Agrees` are kept when programs
are put in sequence.
-/

namespace LinkState

open Compute

variable {α β : Type}

/-- A program on a session. Unlike a computation it may change the topology. -/
abbrev InPlace (α : Type) := EStateM Failure Session α

/-- Carries out a program. -/
def Session.perform (s : Session) (p : InPlace α) : Except Failure α × Session :=
  match p s with
  | .ok a s => (.ok a, s)
  | .error e s => (.error e, s)

namespace InPlace

/-! ## Programs -/

/-- The outcome of a computation on a topology as one of a program on a session with it. -/
def outcome (t : Topology) :
    EStateM.Result Failure Workspace α → EStateM.Result Failure Session α
  | .ok a w => .ok a ⟨t, w⟩
  | .error e w => .error e ⟨t, w⟩

/-- A computation on the topology of the session. -/
def on (c : Topology → Compute α) : InPlace α := fun s =>
  outcome s.topology (c s.topology s.workspace)

/-- Inverts the topology of a session and tells the trace. -/
def invert (l : Level) (s : Session) : Session :=
  { s.emit (.topologyInverted l) with topology := s.topology.invertInTurn l }

/-- A program between two inversions. The second one is made however the program ends. -/
def inverted (l : Level) (p : InPlace α) : InPlace α := fun s =>
  match p (invert l s) with
  | .ok a s => .ok a (invert l s)
  | .error e s => .error e (invert l s)

/-- A program whose refusal is caught. -/
def attempt (p : InPlace α) : InPlace (Except Error α) := fun s =>
  match p s with
  | .ok a s => .ok (.ok a) s
  | .error (.error e) s => .ok (.error e) s
  | .error (.fault f) s => .error (.fault f) s

variable (root : NodeId) (e : EdgeId) (l : Level) (strict : Bool)

/-- The distances toward the two ends of a protected edge, on a topology that is inverted. -/
def searchEnds (far : NodeId) (inverted : Topology) :
    Compute (Std.TreeMap NodeId Metric × Std.TreeMap NodeId Metric) := do
  let towardFar ← Repair.distancesToward l inverted far
  let towardRoot ← Repair.distancesToward l inverted root
  return (towardFar, towardRoot)

/-- The Q-space from the distances toward the two ends, which are searched from anew. -/
def conclude (far : NodeId)
    (toward : Except Error (Std.TreeMap NodeId Metric × Std.TreeMap NodeId Metric))
    (t : Topology) : Compute NodeSet := do
  let rootAnew ← Compute.attempt (computeDistances t l root)
  let farAnew ← Compute.attempt (computeDistances t l far)
  let (towardFar, towardRoot) ← check toward
  check rootAnew
  check farAnew
  return Repair.farMembers t l root towardFar towardRoot

/-- The Q-space of the far end of a protected edge. -/
def farSpace : InPlace NodeSet := do
  let edge ← on fun t => row (t.edges.get? e)
  if ← on fun t => pure (t.isOverloaded edge.target.node l) then return {}
  else
    let toward ← attempt (inverted l (on (searchEnds root l edge.target.node)))
    on (conclude root l edge.target.node toward)

/-- The PQ-space of a protected edge. -/
def commonSpace : InPlace RepairSpace := do
  let space ← on fun t => Repair.extendedSpace t l root e
  let members ← farSpace root e l
  return space.filter fun n _ => members.contains n

/-- The remote alternates for a protected edge of a root, if there are any. -/
def remote : InPlace (Option RepairRecord) := do
  let edge ← on fun t => Repair.requireProtected t root e l
  if !edge.isProtected then return none
  else if ← on fun t => pure (t.isPseudonode edge.target.node l) then
    on fun _ => do
      Compute.emit (.lanUnsupported edge.source.ifname)
      return none
  else
    let space ← commonSpace root e l
    on fun t => do
      Compute.emit (.repairNodesFound edge.source.ifname space.size)
      let ds := Repair.affected root e (← findings l)
      if space.isEmpty || ds.isEmpty then return none
      else
        let alternates ← Repair.assessRemotes t l root edge strict ds space.toList
        return RepairRecord.nonempty? ⟨e, l, alternates⟩

/-- The backups for a protected edge of a root, if there are any. -/
def backups : InPlace (Option RepairRecord) := do
  let w ← on fun _ => get
  let near ← on fun t => Repair.loopFree t l root e w.settings.strictDownstream
  if !w.settings.remoteRepair then return near
  else
    let far ← remote root e l w.settings.strictDownstream
    return RepairRecord.nonempty?
      ⟨e, l, Repair.supplement (Repair.alternatesOf near) (Repair.alternatesOf far)⟩

end InPlace

/-- A computation as a program. Those for which nothing is inverted only read the topology. -/
def Computation.inPlace : Computation → InPlace Answer
  | farSpace root e l => .nodes <$> InPlace.farSpace root e l
  | commonSpace root e l => .space <$> InPlace.commonSpace root e l
  | remote root e l strict => .record <$> InPlace.remote root e l strict
  | backups root e l => .record <$> InPlace.backups root e l
  | c => InPlace.on fun t => c.on t

namespace InPlace

variable {t : Topology} {l : Level} {p : InPlace α} {q : α → InPlace β} {c : Compute α}
  {k : α → Compute β} {root : NodeId} {e : EdgeId} {strict : Bool}

theorem bind_apply (p : InPlace α) (q : α → InPlace β) (s : Session) :
    (p >>= q) s = match p s with
      | .ok a s => q a s
      | .error e s => .error e s := by
  change EStateM.bind p q s = _
  unfold EStateM.bind
  cases p s <;> rfl

theorem invert_eq (hp : t.Paired) (w : Workspace) :
    invert l ⟨t, w⟩ = ⟨t.invert l, (Compute.emit (.topologyInverted l)).after w⟩ := by
  rw [← hp.invertInTurn_eq]
  rfl

theorem invert_invert_eq (hp : t.Paired) (w : Workspace) :
    invert l ⟨t.invert l, w⟩ = ⟨t, (Compute.emit (.topologyInverted l)).after w⟩ := by
  rw [invert_eq (hp.invert l), Topology.invert_invert hp]

/-! ## Restoring the topology -/

/-- A program leaves the topology as it was, whatever the workspace and however it ends. -/
def Restores (t : Topology) (p : InPlace α) : Prop :=
  ∀ w, (Session.perform ⟨t, w⟩ p).2.topology = t

theorem restores_on (t : Topology) (c : Topology → Compute α) : Restores t (on c) := by
  intro w
  unfold Session.perform on outcome
  cases c t w <;> rfl

theorem restores_pure (t : Topology) (a : α) : Restores t (pure a : InPlace α) := fun _ => rfl

theorem Restores.bind (hp : Restores t p) (hq : ∀ a, Restores t (q a)) : Restores t (p >>= q) := by
  intro w
  have h := hp w
  unfold Session.perform at h ⊢
  rw [bind_apply]
  generalize p ⟨t, w⟩ = result at h ⊢
  cases result with
  | ok a s =>
    obtain ⟨t', w'⟩ := s
    cases h
    exact hq a w'
  | error e s => exact h

theorem Restores.map (hp : Restores t p) (f : α → β) : Restores t (f <$> p) :=
  (bind_pure_comp f p) ▸ hp.bind fun a => restores_pure t (f a)

theorem Restores.attempt (hp : Restores t p) : Restores t (attempt p) := by
  intro w
  have h := hp w
  unfold Session.perform at h ⊢
  unfold InPlace.attempt
  generalize p ⟨t, w⟩ = result at h ⊢
  cases result with
  | ok a s => exact h
  | error e s => cases e <;> exact h

/-- What restores the inverted topology, put between two inversions, restores the topology. -/
theorem Restores.inverted (hp : t.Paired) {p : InPlace α} (h : Restores (t.invert l) p) :
    Restores t (inverted l p) := by
  intro w
  have h := h ((Compute.emit (.topologyInverted l)).after w)
  unfold Session.perform at h ⊢
  rw [InPlace.inverted, invert_eq hp]
  generalize p _ = result at h ⊢
  cases result with
  | ok a s =>
    obtain ⟨t', w'⟩ := s
    cases h
    exact congrArg Session.topology (invert_invert_eq hp w')
  | error e s =>
    obtain ⟨t', w'⟩ := s
    cases h
    exact congrArg Session.topology (invert_invert_eq hp w')

theorem restores_farSpace (hp : t.Paired) : Restores t (farSpace root e l) := by
  refine (restores_on t _).bind fun edge => (restores_on t _).bind fun overloaded => ?_
  split
  · exact restores_pure t _
  · exact (Restores.attempt (.inverted hp (restores_on _ _))).bind fun _ => restores_on t _

theorem restores_commonSpace (hp : t.Paired) : Restores t (commonSpace root e l) :=
  (restores_on t _).bind fun _ => (restores_farSpace hp).bind fun _ => restores_pure t _

theorem restores_remote (hp : t.Paired) : Restores t (remote root e l strict) := by
  refine (restores_on t _).bind fun edge => ?_
  dsimp only
  split
  · exact restores_pure t none
  refine (restores_on t _).bind fun lan => ?_
  split
  · exact restores_on t _
  · exact (restores_commonSpace hp).bind fun _ => restores_on t _

theorem restores_backups (hp : t.Paired) : Restores t (backups root e l) := by
  refine (restores_on t _).bind fun w => (restores_on t _).bind fun near => ?_
  split
  · exact restores_pure t near
  · exact (restores_remote hp).bind fun _ => restores_pure t _

/-! ## Agreement with computations -/

/-- Between searches a program does what a computation does on a topology. -/
def Agrees (t : Topology) (p : InPlace α) (c : Compute α) : Prop :=
  ∀ w, w.frontier.isEmpty = true → p ⟨t, w⟩ = outcome t (c w)

theorem agrees_on (t : Topology) (c : Topology → Compute α) : Agrees t (on c) (c t) :=
  fun _ _ => rfl

theorem agrees_pure (t : Topology) (a : α) : Agrees t (pure a) (pure a) := fun _ _ => rfl

theorem Agrees.bind (hp : Agrees t p c) (hc : Keeps StaysEmpty c)
    (hq : ∀ a, Agrees t (q a) (k a)) : Agrees t (p >>= q) (c >>= k) := by
  intro w hempty
  have hafter := hc w hempty
  rw [bind_apply, hp w hempty]
  cases hw : c w with
  | ok a w' =>
    rw [after_of_ok hw] at hafter
    rw [bind_of_ok hw]
    exact hq a w' hafter
  | error e w' =>
    rw [bind_of_error hw]
    rfl

theorem Agrees.map (hp : Agrees t p c) (hc : Keeps StaysEmpty c) (f : α → β) :
    Agrees t (f <$> p) (f <$> c) := by
  rw [← bind_pure_comp, ← bind_pure_comp]
  exact hp.bind hc fun a => agrees_pure t (f a)

/-- A computation on the inverted topology, its refusal caught, and what the trace is told. -/
def onInverted (t : Topology) (l : Level) (c : Topology → Compute α) :
    Compute (Except Error α) := do
  Compute.emit (.topologyInverted l)
  let a ← Compute.attempt (c (t.invert l))
  Compute.emit (.topologyInverted l)
  return a

/-- Without faults, a computation between two inversions in place is one on the inverted
topology. -/
theorem agrees_inverted (hp : t.Paired) {c : Topology → Compute α}
    (hfault : ∀ w, w.frontier.isEmpty = true → (c (t.invert l)).Faultless w) :
    Agrees t (attempt (inverted l (on c))) (onInverted t l c) := by
  intro w hempty
  have htold : ∀ w, Compute.emit (.topologyInverted l) w =
    .ok () ((Compute.emit (.topologyInverted l)).after w) := fun _ => rfl
  have hfault := hfault ((Compute.emit (.topologyInverted l)).after w) hempty
  rw [attempt, inverted, invert_eq hp, onInverted, bind_of_ok (htold w)]
  generalize (Compute.emit (.topologyInverted l)).after w = w₁ at hfault ⊢
  have hon : on c ⟨t.invert l, w₁⟩ = outcome (t.invert l) (c (t.invert l) w₁) := rfl
  rw [hon]
  cases hc : c (t.invert l) w₁ with
  | ok a w₂ =>
    rw [bind_of_ok (attempt_of_ok hc), bind_of_ok (htold w₂)]
    dsimp only [outcome]
    rw [invert_invert_eq hp]
    rfl
  | error f w₂ =>
    dsimp only [outcome]
    rw [invert_invert_eq hp]
    cases f with
    | error f =>
      rw [bind_of_ok (attempt_of_error hc), bind_of_ok (htold w₂)]
      rfl
    | fault f => exact absurd hc (hfault f w₂)

theorem keeps_onInverted (hw : t.WellFormed) {c : Topology → Compute α}
    (hc : Keeps StaysEmpty (c (t.invert l))) : Keeps StaysEmpty (onInverted t l c) := by
  have h := running_staysEmpty hw
  exact h.bind (h.tell rfl) fun _ => h.bind hc.attempt fun _ => h.bind (h.tell rfl) fun _ =>
    h.pure _

/-- A program may read the topology. -/
theorem agrees_reads {γ : Type} (f : Topology → γ) {q : γ → InPlace α}
    (h : Agrees t (q (f t)) c) : Agrees t (on (fun t => pure (f t)) >>= q) c := by
  intro w hempty
  rw [bind_apply, ← h w hempty]
  rfl

theorem agrees_farSpace (hw : t.WellFormed) (hp : t.Paired) :
    Agrees t (farSpace root e l) (Repair.farSpace t l root e) := by
  have h := running_staysEmpty hw
  refine (agrees_on t _).bind (h.row _) fun edge => agrees_reads _ ?_
  dsimp only
  split
  · exact agrees_pure t _
  · have hempties := running_staysEmpty (hw.invert l)
    have htoward : ∀ n, Keeps StaysEmpty (Repair.distancesToward l (t.invert l) n) := fun n =>
      h.bind (hempties.run n l .forward) fun _ => h.pure _
    have hends : Keeps StaysEmpty (searchEnds root l edge.target.node (t.invert l)) :=
      h.bind (htoward _) fun _ => h.bind (htoward root) fun _ => h.pure _
    have hagrees := (agrees_inverted hp fun w hempty =>
      toward_faultless hw edge.target.node root l hempty).bind
        (keeps_onInverted hw hends) fun toward =>
          agrees_on t (conclude root l edge.target.node toward)
    simp only [onInverted, bind_assoc, pure_bind] at hagrees
    exact hagrees

theorem agrees_commonSpace (hw : t.WellFormed) (hp : t.Paired) :
    Agrees t (commonSpace root e l) (Repair.commonSpace t l root e) := by
  have h := running_staysEmpty hw
  exact (agrees_on t _).bind (h.extendedSpace root e) fun _ =>
    (agrees_farSpace hw hp).bind (h.farSpace (running_staysEmpty (hw.invert l)) root e) fun _ =>
      agrees_pure t _

theorem agrees_remote (hw : t.WellFormed) (hp : t.Paired) :
    Agrees t (remote root e l strict) (Repair.remote t l root e strict) := by
  have h := closed_staysEmpty hw
  refine (agrees_on t _).bind (h.requireProtected root e l) fun edge => ?_
  dsimp only
  split
  · exact agrees_pure t none
  refine agrees_reads _ ?_
  split
  · exact agrees_on t _
  · exact (agrees_commonSpace hw hp).bind (h.commonSpace root e) fun _ => agrees_on t _

theorem agrees_backups (hw : t.WellFormed) (hp : t.Paired) :
    Agrees t (backups root e l) (Repair.backups t l root e) := by
  have h := closed_staysEmpty hw
  refine (agrees_on t _).bind (fun w => h.refl w) fun w =>
    (agrees_on t _).bind (h.loopFree root e _) fun near => ?_
  split
  · exact agrees_pure t near
  · exact (agrees_remote hw hp).bind (h.remote root e _) fun _ => agrees_pure t _

end InPlace

/-! ## All computations -/

open InPlace

variable {t : Topology} {c : Computation}

/-- However it ends, a computation in place leaves the topology as it was. -/
theorem Computation.restores_inPlace (hp : t.Paired) : Restores t c.inPlace := by
  cases c with
  | farSpace => exact (restores_farSpace hp).map _
  | commonSpace => exact (restores_commonSpace hp).map _
  | remote => exact (restores_remote hp).map _
  | backups => exact (restores_backups hp).map _
  | _ => exact restores_on t fun t => Computation.on t _

/-- Between searches a computation in place does what it does on copies of the topology. -/
theorem Computation.agrees_inPlace (hw : t.WellFormed) (hp : t.Paired) :
    Agrees t c.inPlace (c.on t) := by
  have h := closed_staysEmpty hw
  cases c with
  | farSpace root e l =>
    exact (agrees_farSpace hw hp).map
      (h.toRunning.farSpace (running_staysEmpty (hw.invert l)) root e) _
  | commonSpace root e => exact (agrees_commonSpace hw hp).map (h.commonSpace root e) _
  | remote root e l strict => exact (agrees_remote hw hp).map (h.remote root e strict) _
  | backups root e => exact (agrees_backups hw hp).map (h.backups root e) _
  | _ => exact agrees_on t fun t => Computation.on t _

/-- **Inversion is undone, whatever is computed in between.** An inversion gives each edge of a pair
the metric of the other one and changes nothing else, also when it is made pair by pair, and a
second one undoes it. A computation leaves the topology as it was however it ends, also when it
inverts the topology in place; between searches it then gives the same answer, the same findings and
the same trace. -/
theorem Session.topology_restored (history : List Change) (l : Level) (w : Workspace)
    (c : Computation) :
    (Topology.after {} history).Inverts l ((Topology.after {} history).invert l) ∧
      (Topology.after {} history).invertInTurn l = (Topology.after {} history).invert l ∧
      ((Topology.after {} history).invert l).invert l = Topology.after {} history ∧
      (serve ⟨Topology.after {} history, w⟩ (.compute c)).2.topology = Topology.after {} history ∧
      (perform ⟨Topology.after {} history, w⟩ c.inPlace).2.topology = Topology.after {} history ∧
      (w.frontier.isEmpty = true → perform ⟨Topology.after {} history, w⟩ c.inPlace =
        serve ⟨Topology.after {} history, w⟩ (.compute c)) := by
  have hw := Topology.wellFormed_after history
  have hp := Topology.paired_after history
  generalize Topology.after {} history = t at hw hp ⊢
  refine ⟨Topology.inverts_invert t l, hp.invertInTurn_eq l, Topology.invert_invert hp l,
    topology_compute _ fun t => c.on t, Computation.restores_inPlace hp w, fun hempty => ?_⟩
  rw [perform, Computation.agrees_inPlace hw hp w hempty, serve, compute]
  dsimp only
  cases c.on t w <;> rfl

/-- The ring of five routers with a dear first link and an overloaded first router. The search from
that router on the inverted topology is refused. -/
def refusedPentagon : List Change :=
  Run.pentagon ++ [.setMetric ⟨0, 0⟩ .l1 (.saturate 5), .setOverload ⟨0, 0⟩ .l1 true]

theorem Session.topology_restored_refused : ∃ t : Topology, ∃ c : Computation,
    t = Topology.after {} refusedPentagon ∧ c = .farSpace ⟨0, 0⟩ ⟨0, 0⟩ .l1 ∧
      ({} : Workspace).frontier.isEmpty = true ∧
      (t.edges.get? ⟨0, 0⟩).map (·.cost .l1) = some (.saturate 5) ∧
      ((t.invert .l1).edges.get? ⟨0, 0⟩).map (·.cost .l1) = some (.saturate 1) ∧
      (serve ⟨t, {}⟩ (.compute c)).1 = .error (.error (.rootOverloaded "a" .l1)) ∧
      (serve ⟨t, {}⟩ (.compute c)).2.topology = t ∧ (perform ⟨t, {}⟩ c.inPlace).2.topology = t ∧
      perform ⟨t, {}⟩ c.inPlace = serve ⟨t, {}⟩ (.compute c) := by
  obtain ⟨-, -, -, hserved, hinPlace, hsame⟩ :=
    topology_restored refusedPentagon .l1 {} (.farSpace ⟨0, 0⟩ ⟨0, 0⟩ .l1)
  refine ⟨_, _, rfl, rfl, rfl, by decide +kernel, by decide +kernel, ?_, hserved, hinPlace,
    hsame rfl⟩
  have hrefused : (match (serve ⟨Topology.after {} refusedPentagon, {}⟩
      (.compute (.farSpace ⟨0, 0⟩ ⟨0, 0⟩ .l1))).1 with
    | .error (.error e) => decide (e = .rootOverloaded "a" .l1)
    | _ => false) = true := by decide +kernel
  split at hrefused
  · rename_i e he
    rw [he, of_decide_eq_true hrefused]
  · cases hrefused

end LinkState
