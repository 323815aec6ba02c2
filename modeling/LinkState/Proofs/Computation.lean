import LinkState.Proofs.Compute
import LinkState.Proofs.ShortestPath.Records
import LinkState.Proofs.Topology.Names
import LinkState.Request

/-!
# What computations keep

Every computation is made of runs, of searches on the inverted topology, and of steps that only read
the workspace or tell the trace something. A relation between workspaces is `Closed` if it can be
chained and holds for these parts; it then holds between the workspace before and the one after any
computation, whether that succeeds or fails (`Closed.on`).

The first use of this is that the frontier is empty between two requests of a session
(`Session.sound_after`), so that no search finds another one's nodes in it.
-/

namespace LinkState

namespace Compute

variable {α β : Type} {R : Workspace → Workspace → Prop} {c : Compute α} {k : α → Compute β}
  {w : Workspace}

/-- The workspace after a computation, be it successful or not. -/
def after (c : Compute α) (w : Workspace) : Workspace :=
  match c w with
  | .ok _ w' => w'
  | .error _ w' => w'

/-- A relation holds between the workspace before a computation and the one after it. -/
def Keeps (R : Workspace → Workspace → Prop) (c : Compute α) : Prop := ∀ w, R w (c.after w)

theorem after_of_ok {a : α} {w' : Workspace} (h : c w = .ok a w') : c.after w = w' := by
  rw [after, h]

theorem after_of_error {e : Failure} {w' : Workspace} (h : c w = .error e w') :
    c.after w = w' := by
  rw [after, h]

theorem bind_of_ok {a : α} {w' : Workspace} (h : c w = .ok a w') : (c >>= k) w = k a w' := by
  change EStateM.bind c k w = _
  rw [EStateM.bind, h]

theorem bind_of_error {e : Failure} {w' : Workspace} (h : c w = .error e w') :
    (c >>= k) w = .error e w' := by
  change EStateM.bind c k w = _
  rw [EStateM.bind, h]

theorem after_bind_of_ok {a : α} {w' : Workspace} (h : c w = .ok a w') :
    (c >>= k).after w = (k a).after w' := by
  rw [after, bind_of_ok h, after]

theorem after_bind_of_error {e : Failure} {w' : Workspace} (h : c w = .error e w') :
    (c >>= k).after w = w' :=
  after_of_error (bind_of_error h)

theorem attempt_of_ok {a : α} {w' : Workspace} (h : c w = .ok a w') :
    attempt c w = .ok (.ok a) w' := by
  rw [attempt, h]

theorem attempt_of_error {e : Error} {w' : Workspace} (h : c w = .error (.error e) w') :
    attempt c w = .ok (.error e) w' := by
  rw [attempt, h]

theorem attempt_of_fault {f : Fault} {w' : Workspace} (h : c w = .error (.fault f) w') :
    attempt c w = .error (.fault f) w' := by
  rw [attempt, h]

/-- A computation whose refusal is caught leaves the same workspace. -/
theorem after_attempt (c : Compute α) (w : Workspace) : (attempt c).after w = c.after w := by
  unfold after attempt
  cases c w with
  | ok a w' => rfl
  | error e w' => cases e <;> rfl

theorem Keeps.attempt (h : Keeps R c) : Keeps R (attempt c) := fun w => by
  rw [after_attempt]
  exact h w

end Compute

open Compute

/-- A relation between workspaces that can be chained and holds for events. -/
structure Chained (R : Workspace → Workspace → Prop) : Prop where
  refl : ∀ w, R w w
  trans : ∀ {w w' w''}, R w w' → R w' w'' → R w w''
  emit : ∀ w (e : Event), e.endsRun = false → R w { w with trace := w.trace ++ [e] }

/-- A relation that holds for runs as well. -/
structure Running (t : Topology) (R : Workspace → Workspace → Prop) : Prop extends Chained R where
  run : ∀ root l kind, Keeps R (Run.run t root l kind)

/-- A relation that holds for runs and for the Q-spaces of roots that exist. -/
structure Closed (t : Topology) (R : Workspace → Workspace → Prop) : Prop extends Running t R where
  farSpace : ∀ root e l, t.nodes.contains root = true → Keeps R (Repair.farSpace t l root e)

variable {α β : Type} {t : Topology} {R : Workspace → Workspace → Prop} {c : Compute α}
  {k : α → Compute β} {l : Level}

namespace Chained

/-- In a sequence the second part need only keep the relation where the first one has succeeded. -/
theorem bindOn (h : Chained R) (hc : Keeps R c)
    (hk : ∀ a w w', c w = .ok a w' → R w' ((k a).after w')) : Keeps R (c >>= k) := by
  intro w
  have hcw := hc w
  cases hw : c w with
  | ok a w' =>
    rw [after_of_ok hw] at hcw
    rw [after_bind_of_ok hw]
    exact h.trans hcw (hk a w w' hw)
  | error e w' =>
    rw [after_of_error hw] at hcw
    rw [after_bind_of_error hw]
    exact hcw

theorem bind (h : Chained R) (hc : Keeps R c) (hk : ∀ a, Keeps R (k a)) : Keeps R (c >>= k) :=
  h.bindOn hc fun a _ w' _ => hk a w'

theorem pure (h : Chained R) (a : α) : Keeps R (Pure.pure a : Compute α) := fun w => h.refl w

theorem findings (h : Chained R) (l : Level) : Keeps R (Compute.findings l) := fun w => h.refl w

theorem check (h : Chained R) (r : Except Error α) : Keeps R (Compute.check r) := by
  intro w
  cases r <;> exact h.refl w

theorem row (h : Chained R) (o : Option α) : Keeps R (Compute.row o) := by
  intro w
  cases o <;> exact h.refl w

theorem tell (h : Chained R) {e : Event} (he : e.endsRun = false) : Keeps R (Compute.emit e) :=
  fun w => h.emit w e he

theorem map (h : Chained R) (f : α → β) (hc : Keeps R c) : Keeps R (f <$> c) := by
  have hmap : f <$> c = c >>= fun a => Pure.pure (f a) := (bind_pure_comp f c).symm
  rw [hmap]
  exact h.bind hc fun a => h.pure _

theorem requireProtected (h : Chained R) (root : NodeId) (e : EdgeId) (l : Level) :
    Keeps R (Repair.requireProtected t root e l) := by
  intro w
  unfold Repair.requireProtected
  cases Repair.protectedEdge t root e l <;> exact h.refl w

end Chained

namespace Running

theorem computeDistances (h : Running t R) (n : NodeId) :
    Keeps R (LinkState.computeDistances t l n) := by
  unfold LinkState.computeDistances
  refine h.bind (h.row _) fun node => ?_
  split
  · exact h.pure ()
  · exact h.bind (h.run n l .forward) fun _ => h.pure ()

theorem computeAllDistances (h : Running t R) (ns : List NodeId) :
    Keeps R (Repair.computeAllDistances t l ns) := by
  induction ns with
  | nil => exact h.pure ()
  | cons n ns ih => exact h.bind (h.computeDistances n) fun _ => ih

theorem collect (h : Running t R) (assess : α → Except Error (Option Alternate)) (as : List α) :
    Keeps R (Repair.collect t assess as) := by
  induction as with
  | nil => exact h.pure []
  | cons a as ih =>
    unfold Repair.collect
    refine h.bind (h.check _) fun found => ?_
    cases found with
    | none => exact ih
    | some alternate => exact h.bind (h.tell rfl) fun _ => h.bind ih fun _ => h.pure _

theorem assessAll (h : Running t R) (f : Findings) (root : NodeId) (e : EdgeId) (edge : Edge)
    (strict : Bool) (cs : List Nexthop) (ds : List Affected) :
    Keeps R (Repair.assessAll t l f root e edge strict cs ds) := by
  induction ds with
  | nil => exact h.pure []
  | cons d ds ih =>
    unfold Repair.assessAll
    refine h.bind (h.collect _ cs) fun found => ?_
    dsimp only
    split
    · exact h.bind (h.tell rfl) fun _ => h.bind ih fun _ => h.pure _
    · exact h.bind ih fun _ => h.pure _

theorem loopFree (h : Running t R) (root : NodeId) (e : EdgeId) (strict : Bool) :
    Keeps R (Repair.loopFree t l root e strict) := by
  unfold Repair.loopFree
  refine h.bind (h.requireProtected root e l) fun edge => ?_
  split
  · exact h.pure none
  refine h.bind (h.tell rfl) fun _ => h.bind (h.computeDistances root) fun _ =>
    h.bind (h.computeDistances _) fun _ => h.bind (h.findings l) fun f => ?_
  dsimp only
  split
  · exact h.pure none
  · exact h.bind (h.computeAllDistances _) fun _ => h.bind (h.findings l) fun f =>
      h.bind (h.assessAll f root e edge strict _ _) fun _ => h.pure _

theorem nearSpace (h : Running t R) (root : NodeId) (e : EdgeId) :
    Keeps R (Repair.nearSpace t l root e) :=
  h.bind (h.row _) fun _ => h.bind (h.findings l) fun _ => h.check _

theorem extendThrough (h : Running t R) (root far : NodeId) (space : RepairSpace)
    (nexthops : List Nexthop) : Keeps R (Repair.extendThrough t l root far space nexthops) := by
  induction nexthops generalizing space with
  | nil => exact h.pure space
  | cons n ns ih =>
    exact h.bind (h.computeDistances n.node) fun _ => h.bind (h.findings l) fun _ =>
      h.bind (h.check _) fun _ => h.bind (h.check _) fun _ => h.bind (h.check _) fun _ => ih _

theorem extendedSpace (h : Running t R) (root : NodeId) (e : EdgeId) :
    Keeps R (Repair.extendedSpace t l root e) :=
  h.bind (h.row _) fun _ => h.bind (h.computeDistances root) fun _ =>
    h.bind (h.computeDistances _) fun _ => h.bind (h.findings l) fun _ =>
      h.bind (h.check _) fun _ => h.bind (h.check _) fun _ => h.bind (h.check _) fun _ =>
        h.extendThrough root _ _ _

/-- Where runs on the topology and runs on the inverted one keep a relation, so does the Q-space. -/
theorem farSpace (h : Running t R) (hi : Running (t.invert l) R) (root : NodeId) (e : EdgeId) :
    Keeps R (Repair.farSpace t l root e) := by
  have htoward : ∀ n, Keeps R (Repair.distancesToward l (t.invert l) n) := fun n =>
    h.bind (hi.run n l .forward) fun _ => h.pure _
  unfold Repair.farSpace
  refine h.bind (h.row _) fun edge => ?_
  dsimp only
  split
  · exact h.pure _
  · exact h.bind (h.tell rfl) fun _ =>
      h.bind (Keeps.attempt (h.bind (htoward _) fun _ => h.bind (htoward root) fun _ => h.pure _))
        fun _ => h.bind (h.tell rfl) fun _ =>
          h.bind (Keeps.attempt (h.computeDistances root)) fun _ =>
            h.bind (Keeps.attempt (h.computeDistances _)) fun _ => h.bind (h.check _) fun _ =>
              h.bind (h.check _) fun _ => h.bind (h.check _) fun _ => h.pure _

end Running

namespace Closed

theorem commonSpace (h : Closed t R) (root : NodeId) (e : EdgeId) :
    Keeps R (Repair.commonSpace t l root e) := by
  refine h.bindOn (h.extendedSpace root e) fun space w w' hspace => ?_
  -- the extended space has been found, so the root exists
  obtain ⟨edge, w₁, h₁, hspace⟩ := bind_eq_ok.1 hspace
  obtain ⟨_, w₂, h₂, -⟩ := bind_eq_ok.1 hspace
  obtain ⟨node, w₃, h₃, -⟩ := bind_eq_ok.1 h₂
  have hroot : t.nodes.contains root = true := by
    rw [Table.contains, (row_eq_ok.1 h₃).1]
    rfl
  exact h.bind (h.farSpace root e l hroot) (fun _ => h.pure _) w'

theorem assessRemotes (h : Closed t R) (root : NodeId) (edge : Edge) (strict : Bool)
    (ds : List Affected) (ns : List (NodeId × RepairPath)) :
    Keeps R (Repair.assessRemotes t l root edge strict ds ns) := by
  induction ns with
  | nil => exact h.pure []
  | cons n ns ih =>
    exact h.bind (h.run n.1 l .forward) fun _ => h.bind (h.findings l) fun _ =>
      h.bind (h.check _) fun _ => h.bind (h.check _) fun _ => h.bind (h.check _) fun _ =>
        h.bind (h.collect _ ds) fun _ => h.bind ih fun _ => h.pure _

theorem remote (h : Closed t R) (root : NodeId) (e : EdgeId) (strict : Bool) :
    Keeps R (Repair.remote t l root e strict) := by
  unfold Repair.remote
  refine h.bind (h.requireProtected root e l) fun edge => ?_
  split
  · exact h.pure none
  split
  · exact h.bind (h.tell rfl) fun _ => h.pure none
  refine h.bind (h.commonSpace root e) fun space => h.bind (h.tell rfl) fun _ =>
    h.bind (h.findings l) fun f => ?_
  dsimp only
  split
  · exact h.pure none
  · exact h.bind (h.assessRemotes root edge strict _ _) fun _ => h.pure _

theorem backups (h : Closed t R) (root : NodeId) (e : EdgeId) :
    Keeps R (Repair.backups t l root e) := by
  unfold Repair.backups
  refine h.bind (fun w => h.refl w) fun w => h.bind (h.loopFree root e _) fun near => ?_
  split
  · exact h.pure near
  · exact h.bind (h.remote root e _) fun _ => h.pure _

/-- **A closed relation is kept by every computation**, if those for the Q-space of a root that does
not exist keep it. -/
theorem on (h : Closed t R) (c : Computation)
    (hfar : ∀ root e l, c = .farSpace root e l → Keeps R (Repair.farSpace t l root e)) :
    Keeps R (c.on t) := by
  cases c with
  | run root l kind => exact h.map _ (h.run root l kind)
  | nearSpace root e l => exact h.map _ (h.nearSpace root e)
  | extendedSpace root e l => exact h.map _ (h.extendedSpace root e)
  | farSpace root e l => exact h.map _ (hfar root e l rfl)
  | commonSpace root e l => exact h.map _ (h.commonSpace root e)
  | loopFree root e l strict => exact h.map _ (h.loopFree root e strict)
  | remote root e l strict => exact h.map _ (h.remote root e strict)
  | backups root e l => exact h.map _ (h.backups root e)

end Closed

/-! ## The frontier between two computations -/

/-- An empty frontier stays empty. -/
def StaysEmpty (w w' : Workspace) : Prop :=
  w.frontier.isEmpty = true → w'.frontier.isEmpty = true

theorem running_staysEmpty (hw : t.WellFormed) : Running t StaysEmpty where
  refl _ := id
  trans h h' := h' ∘ h
  emit _ _ _ := id
  run root l kind w hempty := by
    have hran := Run.run_ran hw hempty root l kind
    rw [Compute.after]
    generalize Run.run t root l kind w = result at hran ⊢
    cases hran with
    | refused => exact hempty
    | made _ _ h => exact h.frontier
    | madeAfter _ _ _ _ h => exact h.frontier

theorem closed_staysEmpty (hw : t.WellFormed) : Closed t StaysEmpty where
  toRunning := running_staysEmpty hw
  farSpace root e l _ :=
    (running_staysEmpty hw).farSpace (running_staysEmpty (hw.invert l)) root e

/-- The change that a request is for. -/
def Request.change? : Request → Option Change
  | .change c => some c
  | _ => none

namespace Session

/-- What holds of a session between two requests: the topology is one that can be built, and no
search is under way. -/
structure Sound (s : Session) : Prop where
  built : ∃ history : List Change, s.topology = Topology.after {} history
  frontier : s.workspace.frontier.isEmpty = true

theorem Sound.wellFormed {s : Session} (h : s.Sound) : s.topology.WellFormed := by
  obtain ⟨history, e⟩ := h.built
  exact e ▸ Topology.wellFormed_after history

theorem Sound.names {s : Session} (h : s.Sound) : s.topology.NamesDistinct := by
  obtain ⟨history, e⟩ := h.built
  exact e ▸ Topology.namesDistinct_after history

theorem workspace_compute (s : Session) (c : Topology → Compute α) :
    (s.compute c).2.workspace = (c s.topology).after s.workspace := by
  unfold compute Compute.after
  cases c s.topology s.workspace <;> rfl

theorem topology_compute (s : Session) (c : Topology → Compute α) :
    (s.compute c).2.topology = s.topology := by
  unfold compute
  cases c s.topology s.workspace <;> rfl

/-- What a computation that is answered does: it is made on the workspace of the session. -/
theorem serve_eq_ok {s s' : Session} {c : Computation} {a : Answer} :
    s.serve (.compute c) = (.ok a, s') ↔
      s'.topology = s.topology ∧ c.on s.topology s.workspace = .ok a s'.workspace := by
  unfold serve compute
  dsimp only
  cases c.on s.topology s.workspace with
  | ok a' w' =>
    constructor
    · intro h
      cases h
      exact ⟨rfl, rfl⟩
    · rintro ⟨htopology, h⟩
      cases h
      rw [← htopology]
  | error e w' => constructor <;> simp

/-- What a computation that fails does: it is made on the workspace of the session. -/
theorem serve_eq_error {s s' : Session} {c : Computation} {f : Failure} :
    s.serve (.compute c) = (.error f, s') ↔
      s'.topology = s.topology ∧ c.on s.topology s.workspace = .error f s'.workspace := by
  unfold serve compute
  dsimp only
  cases c.on s.topology s.workspace with
  | ok a w' => constructor <;> simp
  | error f' w' =>
    constructor
    · intro h
      cases h
      exact ⟨rfl, rfl⟩
    · rintro ⟨htopology, h⟩
      cases h
      rw [← htopology]

/-- An answer can be read off the computation, and the session that it leaves off the request. -/
theorem exists_served {s : Session} {c : Computation} {p : Answer → Bool} {q : Session → Bool}
    (hp : (c.on s.topology).yields s.workspace p = true)
    (hq : q (s.serve (.compute c)).2 = true) :
    ∃ a s', s.serve (.compute c) = (.ok a, s') ∧ p a = true ∧ q s' = true := by
  obtain ⟨a, w', hanswer, ha⟩ := exists_of_yields hp
  have hserved : s.serve (.compute c) = (.ok a, ⟨s.topology, w'⟩) := serve_eq_ok.2 ⟨rfl, hanswer⟩
  rw [hserved] at hq
  exact ⟨a, _, hserved, ha, hq⟩

/-- The topology of a session is that of the changes among the requests. -/
theorem topology_after (s : Session) (requests : List Request) :
    (s.after requests).topology = s.topology.after (requests.filterMap Request.change?) := by
  induction requests generalizing s with
  | nil => rfl
  | cons r requests ih =>
    refine (ih (s.serve r).2).trans ?_
    cases r with
    | compute c => exact congrArg (Topology.after · _) (topology_compute s fun t => c.on t)
    | _ => rfl

theorem Sound.serve {s : Session} (h : s.Sound) (r : Request) : (s.serve r).2.Sound := by
  cases r with
  | change c =>
    obtain ⟨history, e⟩ := h.built
    refine ⟨⟨history ++ [c], ?_⟩, ?_⟩
    · rw [Topology.after_append, ← e]
      rfl
    · cases c <;> exact h.frontier
  | configure settings => exact ⟨h.built, h.frontier⟩
  | renew settings => exact ⟨h.built, rfl⟩
  | compute c =>
    have hkeeps := (closed_staysEmpty h.wellFormed).on c fun root e l _ =>
      (running_staysEmpty h.wellFormed).farSpace (running_staysEmpty (h.wellFormed.invert l)) root e
    refine ⟨?_, ?_⟩
    · obtain ⟨history, e⟩ := h.built
      exact ⟨history, (topology_compute s fun t => c.on t).trans e⟩
    · change (s.compute fun t => c.on t).2.workspace.frontier.isEmpty = true
      rw [workspace_compute]
      exact hkeeps _ h.frontier

theorem Sound.after {s : Session} (h : s.Sound) (history : List Request) :
    (s.after history).Sound :=
  after_induction (fun _ r h => h.serve r) h history

/-- **After every history the frontier is empty.** -/
theorem sound_after (history : List Request) : (after {} history).Sound :=
  Sound.after ⟨⟨[], rfl⟩, rfl⟩ history

end Session

end LinkState
