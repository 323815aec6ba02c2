import LinkState.Proofs.Repair.Remote
import LinkState.Proofs.Session.FarSpace
import LinkState.Proofs.Session.Lockstep

/-!
# Backups combine the two kinds of alternates

The remote alternates of the backups are searched for in the workspace that the loop-free ones have
left, after many searches, some of them on the inverted topology. They are nevertheless those that
would be found in the workspace before, since all that is left of these searches is made anew
(`answer_backups`). So the backups are a merge of what the two computations are answered each by
itself (`supplement_isMerge`): whatever has a local alternate keeps its local alternates and gets no
remote one.

Either computation finds alternates of its own kind, for destinations whose primary paths use the
protected edge (`loopFree_affected`, `remote_affected`). That these are the destinations which a
search from the root says are affected is seen most easily in a workspace in which this search has
been made before (`exists_answered`).
-/

namespace LinkState

open Compute

variable {α β : Type} {t : Topology} {l : Level} {root : NodeId} {e : EdgeId} {edge : Edge}
  {strict : Bool} {w w' v : Workspace} {a : Alternate} {c c' : Compute α}

/-! ## Answers -/

namespace Compute

/-- What a computation comes to in a workspace, without what it leaves there. -/
def answer (c : Compute α) (w : Workspace) : Except Failure α :=
  match c w with
  | .ok a _ => .ok a
  | .error failure _ => .error failure

theorem answer_of_ok {a : α} (h : c w = .ok a w') : c.answer w = .ok a := by
  rw [answer, h]

theorem answer_of_error {failure : Failure} (h : c w = .error failure w') :
    c.answer w = .error failure := by
  rw [answer, h]

theorem answer_eq_ok {a : α} : c.answer w = .ok a ↔ ∃ w', c w = .ok a w' := by
  refine ⟨fun h => ?_, fun ⟨w', h⟩ => answer_of_ok h⟩
  unfold answer at h
  cases hc : c w with
  | ok b w' =>
    rw [hc] at h
    cases h
    exact ⟨w', rfl⟩
  | error failure w' =>
    rw [hc] at h
    cases h

theorem answer_bind_of_ok {a : α} {k : α → Compute β} (h : c w = .ok a w') :
    (c >>= k).answer w = (k a).answer w' := by
  rw [answer, bind_of_ok h, answer]

theorem answer_bind_of_error {failure : Failure} {k : α → Compute β}
    (h : c w = .error failure w') : (c >>= k).answer w = .error failure :=
  answer_of_error (bind_of_error h)

end Compute

theorem Matching.answer_congr {ns : List NodeId} (h : Matching t l ns (c w) (c' w')) :
    c'.answer w' = c.answer w := by
  unfold answer
  generalize c w = r at h ⊢
  generalize c' w' = r' at h ⊢
  cases h <;> rfl

/-- The settings stay, and an empty frontier stays empty. -/
theorem running_alike (hw : t.WellFormed) :
    Running t fun w w' => w.frontier.isEmpty = true → Alike t l [] w w' where
  refl w hempty := ⟨rfl, hempty, hempty, by simp⟩
  trans h h' hempty := by
    have h₁ := h hempty
    have h₂ := h' h₁.frontier'
    exact ⟨h₂.settings.trans h₁.settings, hempty, h₂.frontier', by simp⟩
  emit w e _ hempty := ⟨rfl, hempty, hempty, by simp⟩
  run root l' kind w hempty := by
    have hran := Run.run_ran hw hempty root l' kind
    rw [Compute.after]
    generalize Run.run t root l' kind w = result at hran ⊢
    cases hran with
    | refused => exact ⟨rfl, hempty, hempty, by simp⟩
    | made _ _ h => exact ⟨h.settings, hempty, h.frontier, by simp⟩
    | madeAfter _ _ _ h' h =>
      exact ⟨h.settings.trans h'.settings, hempty, h.frontier, by simp⟩

/-- What is stored for a root that has been searched from stays the same. -/
theorem Advance.keeps_destinations (h : Advance t w w')
    (hfresh : (w.record l root).Fresh t l root) :
    (w'.record l root).destinations = (w.record l root).destinations := by
  have hfresh' : (w'.record l root).Fresh t l root := h.keeps l root .forward hfresh
  exact hfresh'.destinations.trans hfresh.destinations.symm

namespace Repair

/-! ## The merge -/

/-- A list of alternates is the merge of two others: those of the first one, in order, and then, in
order, those of the second one for destinations that have none in the first one. -/
structure IsMerge (near far merged : List Alternate) : Prop where
  eq_append : merged = near ++ far.filter fun a => ∀ b ∈ near, b.destination ≠ a.destination
  /-- A destination that has an alternate in the first list keeps the alternates it has there. -/
  covered : ∀ d, (∃ b ∈ near, b.destination = d) →
    merged.filter (·.destination = d) = near.filter (·.destination = d)
  /-- Any other destination gets all that it has in the second list. -/
  uncovered : ∀ d, (∀ b ∈ near, b.destination ≠ d) →
    merged.filter (·.destination = d) = far.filter (·.destination = d)
  /-- No alternate is duplicated or lost. -/
  count : ∀ a, merged.count a =
    if ∃ b ∈ near, b.destination = a.destination then near.count a else far.count a

theorem supplement_eq (near far : List Alternate) : supplement near far =
    near ++ far.filter fun a => ∀ b ∈ near, b.destination ≠ a.destination := by
  refine congrArg (near ++ ·) (List.filter_congr fun a _ => ?_)
  rw [Bool.eq_iff_iff, decide_eq_true_iff, Bool.not_eq_true', List.any_eq_false]
  simp only [beq_iff_eq, ne_eq]

theorem filter_supplement_of_covered {near far : List Alternate} {d : NodeId}
    (h : ∃ b ∈ near, b.destination = d) :
    (supplement near far).filter (·.destination = d) = near.filter (·.destination = d) := by
  obtain ⟨b, hb, rfl⟩ := h
  rw [supplement_eq, List.filter_append, List.filter_filter]
  refine List.append_right_eq_self.2 (List.filter_eq_nil_iff.2 fun a _ ha => ?_)
  rw [Bool.and_eq_true, decide_eq_true_iff, decide_eq_true_iff] at ha
  exact ha.2 b hb ha.1.symm

theorem filter_supplement_of_uncovered {near far : List Alternate} {d : NodeId}
    (h : ∀ b ∈ near, b.destination ≠ d) :
    (supplement near far).filter (·.destination = d) = far.filter (·.destination = d) := by
  have hnear : near.filter (·.destination = d) = [] :=
    List.filter_eq_nil_iff.2 fun b hb => by simpa using h b hb
  rw [supplement_eq, List.filter_append, hnear, List.nil_append, List.filter_filter]
  refine List.filter_congr fun a _ => ?_
  rw [Bool.and_eq_left_iff_imp, decide_eq_true_iff, decide_eq_true_iff]
  rintro rfl
  exact h

theorem supplement_isMerge (near far : List Alternate) :
    IsMerge near far (supplement near far) := by
  refine ⟨supplement_eq near far, fun d => filter_supplement_of_covered,
    fun d => filter_supplement_of_uncovered, fun a => ?_⟩
  have hcount : ∀ as : List Alternate,
      as.count a = (as.filter (·.destination = a.destination)).count a := fun as =>
    (List.count_filter (by simp)).symm
  rw [hcount, hcount near, hcount far]
  split <;> rename_i hcovered
  · rw [filter_supplement_of_covered hcovered]
  · rw [filter_supplement_of_uncovered fun b hb hd => hcovered ⟨b, hb, hd⟩]

/-- All alternates that the settings ask for, put together from the answers of the two computations
of alternates. -/
def combine (settings : Settings) (e : EdgeId) (l : Level)
    (near far : Except Failure (Option RepairRecord)) : Except Failure (Option RepairRecord) := do
  let near ← near
  if settings.remoteRepair then
    let far ← far
    return RepairRecord.nonempty? ⟨e, l, supplement (alternatesOf near) (alternatesOf far)⟩
  else return near

/-- What all alternates are, given the answers of the two computations of alternates: the loop-free
ones if the settings ask for no others, and else the merge of both, without a record if that is
empty. A computation that fails is the answer, the one of loop-free alternates before the other. -/
structure Merges (settings : Settings) (e : EdgeId) (l : Level)
    (near far all : Except Failure (Option RepairRecord)) : Prop where
  near_fails : ∀ failure, near = .error failure → all = .error failure
  near_alone : settings.remoteRepair = false → all = near
  far_fails : settings.remoteRepair = true → ∀ r failure, near = .ok r → far = .error failure →
    all = .error failure
  merged : settings.remoteRepair = true → ∀ r r', near = .ok r → far = .ok r' →
    ∃ as, IsMerge (alternatesOf r) (alternatesOf r') as ∧
      all = .ok (if as = [] then none else some ⟨e, l, as⟩)

theorem combine_merges (settings : Settings) (e : EdgeId) (l : Level)
    (near far : Except Failure (Option RepairRecord)) :
    Merges settings e l near far (combine settings e l near far) where
  near_fails failure h := by
    rw [h]
    rfl
  near_alone hset := by
    cases near with
    | error failure => rfl
    | ok r =>
      simp only [combine, hset]
      rfl
  far_fails hset r failure h h' := by
    rw [h, h']
    simp only [combine, hset]
    rfl
  merged hset r r' h h' := by
    refine ⟨_, supplement_isMerge _ _, ?_⟩
    rw [h, h']
    simp only [combine, hset, RepairRecord.nonempty?, List.isEmpty_iff]
    rfl

/-- **Backups combine what the two computations are answered each by itself.** -/
theorem answer_backups (hw : t.WellFormed) (hempty : w.frontier.isEmpty = true) :
    (backups t l root e).answer w =
      combine w.settings e l ((loopFree t l root e w.settings.strictDownstream).answer w)
        ((remote t l root e w.settings.strictDownstream).answer w) := by
  have hget : (get : Compute Workspace) w = .ok w w := rfl
  unfold backups
  rw [answer_bind_of_ok hget]
  have halike := (running_alike hw (l := l)).loopFree (l := l) root e w.settings.strictDownstream w
    hempty
  cases hnear : loopFree t l root e w.settings.strictDownstream w with
  | error failure w₁ =>
    rw [answer_bind_of_error hnear, answer_of_error hnear]
    rfl
  | ok near w₁ =>
    rw [after_of_ok hnear] at halike
    rw [answer_bind_of_ok hnear, answer_of_ok hnear]
    cases hremote : w.settings.remoteRepair with
    | false =>
      simp only [combine, hremote]
      rfl
    | true =>
      -- the workspace that is left and the one before are alike, so the remote alternates match
      rw [← (matching_remote hw halike).answer_congr]
      simp only [combine, hremote]
      cases hfar : remote t l root e w.settings.strictDownstream w₁ with
      | error failure w₂ =>
        rw [answer_of_error hfar]
        exact answer_bind_of_error hfar
      | ok far w₂ =>
        rw [answer_of_ok hfar]
        exact answer_bind_of_ok hfar

/-! ## Kinds and destinations -/

theorem isRemote_ofPointToPoint (nodeProtecting downstream : Bool) :
    (AlternateKind.ofPointToPoint nodeProtecting downstream).isRemote = false := by
  cases nodeProtecting <;> cases downstream <;> rfl

theorem isRemote_ofBroadcast? {nodeProtecting downstream avoidsLan : Bool} {k : AlternateKind}
    (h : AlternateKind.ofBroadcast? nodeProtecting downstream avoidsLan = some k) :
    k.isRemote = false := by
  cases nodeProtecting <;> cases downstream <;> cases avoidsLan <;> cases h <;> rfl

theorem isRemote_ofRemote (nodeProtecting downstream : Bool) :
    (AlternateKind.ofRemote nodeProtecting downstream).isRemote = true := by
  cases nodeProtecting <;> cases downstream <;> rfl

theorem localKind?_isRemote {f : Findings} {d : Affected} {x : Nexthop} {metric : Metric}
    {k : AlternateKind} (h : localKind? t l f e edge d x metric = .ok (some k)) :
    k.isRemote = false := by
  rw [localKind?_eq] at h
  obtain ⟨nodeProtecting, -, h⟩ := except_bind_eq_ok.1 h
  split at h
  · obtain ⟨avoids, -, h⟩ := except_bind_eq_ok.1 h
    exact isRemote_ofBroadcast? (Except.ok.inj h)
  · cases h
    exact isRemote_ofPointToPoint ..

/-- An alternate that a candidate gives a destination is a local one for it. -/
theorem assessLocal_local {f : Findings} {d : Affected} {x : Nexthop}
    (h : assessLocal t l f root e edge strict d x = .ok (some a)) :
    a.destination = d.node ∧ a.kind.isRemote = false := by
  unfold assessLocal at h
  obtain ⟨near, -, h⟩ := except_bind_eq_ok.1 h
  split at h
  · cases h
  obtain ⟨metric, -, h⟩ := except_bind_eq_ok.1 h
  obtain ⟨back, -, h⟩ := except_bind_eq_ok.1 h
  split at h
  · cases h
  split at h
  · cases h
  obtain ⟨kind, hkind, h⟩ := except_bind_eq_ok.1 h
  cases kind with
  | none => cases h
  | some kind =>
    dsimp only at h
    split at h
    · cases h
    · cases h
      exact ⟨rfl, localKind?_isRemote hkind⟩

theorem assessRemote_isRemote {f : Findings} {p : RemoteNode} {d : Affected}
    (h : assessRemote t l f edge strict p d = .ok (some a)) : a.kind.isRemote = true := by
  unfold assessRemote at h
  obtain ⟨metric, -, h⟩ := except_bind_eq_ok.1 h
  split at h
  · cases h
  split at h
  · cases h
  obtain ⟨nodeProtecting, -, h⟩ := except_bind_eq_ok.1 h
  dsimp only at h
  split at h
  · cases h
  · cases h
    exact isRemote_ofRemote ..

theorem assessRemotes_isRemote {ds : List Affected} {xs : List (NodeId × RepairPath)}
    {as : List Alternate} (h : assessRemotes t l root edge strict ds xs w = .ok as w') :
    ∀ a ∈ as, a.kind.isRemote = true := by
  induction xs generalizing w as with
  | nil =>
    obtain ⟨rfl, -⟩ := pure_eq_ok.1 h
    simp
  | cons x xs ih =>
    unfold assessRemotes at h
    obtain ⟨_, w₁, -, h⟩ := bind_eq_ok.1 h
    obtain ⟨f, w₂, -, h⟩ := bind_eq_ok.1 h
    obtain ⟨near, w₃, -, h⟩ := bind_eq_ok.1 h
    obtain ⟨back, w₄, -, h⟩ := bind_eq_ok.1 h
    obtain ⟨toFar, w₅, -, h⟩ := bind_eq_ok.1 h
    obtain ⟨found, w₆, hfound, h⟩ := bind_eq_ok.1 h
    obtain ⟨rest, w₇, hrest, h⟩ := bind_eq_ok.1 h
    obtain ⟨rfl, rfl⟩ := pure_eq_ok.1 h
    intro a ha
    rcases List.mem_append.1 ha with ha | ha
    · obtain ⟨d, -, hd⟩ := ((collect_eq_ok hfound).2.2 a).1 ha
      exact assessRemote_isRemote hd
    · exact ih hrest a ha

theorem remote_isRemote {rec : Option RepairRecord}
    (h : remote t l root e strict w = .ok rec w') :
    ∀ a ∈ alternatesOf rec, a.kind.isRemote = true := by
  unfold remote at h
  obtain ⟨edge, w₁, -, h⟩ := bind_eq_ok.1 h
  have hnone : ∀ a ∈ alternatesOf none, a.kind.isRemote = true := List.forall_mem_nil _
  split at h
  · exact (pure_eq_ok.1 h).1 ▸ hnone
  split at h
  · obtain ⟨_, w₂, -, h⟩ := bind_eq_ok.1 h
    exact (pure_eq_ok.1 h).1 ▸ hnone
  obtain ⟨space, w₂, -, h⟩ := bind_eq_ok.1 h
  obtain ⟨_, w₃, -, h⟩ := bind_eq_ok.1 h
  obtain ⟨f, w₄, -, h⟩ := bind_eq_ok.1 h
  split at h
  · exact (pure_eq_ok.1 h).1 ▸ hnone
  obtain ⟨as, w₅, hassess, h⟩ := bind_eq_ok.1 h
  rw [← (pure_eq_ok.1 h).1, alternatesOf_nonempty?]
  exact assessRemotes_isRemote hassess

/-! ## Searching from the root first -/

/-- A node that carries traffic and from which distances have been computed may be searched from. -/
theorem validate_of_computeDistances {n : NodeId} (hforwards : t.isOverloaded n l = false)
    (h : computeDistances t l n w = .ok () w') :
    ∃ node, Run.validate t n l .forward = .ok node := by
  unfold computeDistances at h
  obtain ⟨node, w₁, h₁, h⟩ := bind_eq_ok.1 h
  rw [Topology.isOverloaded, (row_eq_ok.1 h₁).1] at hforwards
  split at h
  · rename_i hover
    rw [Bool.and_eq_true] at hover
    cases hover.1.symm.trans hforwards
  · obtain ⟨rs, w₂, h₂, -⟩ := bind_eq_ok.1 h
    exact Run.run_validate h₂

/-- A workspace in which the root has been searched from is alike to the one before. -/
theorem exists_searched (hw : t.WellFormed) (hempty : w.frontier.isEmpty = true) {node : Node}
    (hvalid : Run.validate t root l .forward = .ok node) :
    ∃ v, (Run.run t root l .forward).answer w = .ok (v.record l root).destinations ∧
      (v.record l root).Fresh t l root ∧ Alike t l [] w v := by
  obtain ⟨failure, h, -⟩ | ⟨_, v, -, hrun, hperformed⟩ := Run.run_alone hw hempty root (.inl rfl)
  · cases hvalid.symm.trans h
  · exact ⟨v, answer_of_ok hrun, hperformed.fresh nofun,
      ⟨hperformed.settings, hempty, hperformed.frontier, by simp⟩⟩

/-- What a computation is answered it is also answered in a workspace in which the root has been
searched from, and there it leaves the results of that search. -/
theorem exists_answered (hw : t.WellFormed) (hempty : w.frontier.isEmpty = true) {node : Node}
    (hvalid : Run.validate t root l .forward = .ok node) {c : Compute α} {b : α}
    (hmatching : ∀ v, Alike t l [] w v → Matching t l [] (c w) (c v))
    (hadvances : Keeps (Advances t) c) (h : c.answer w = .ok b) :
    ∃ v v', c v = .ok b v' ∧
      (Run.run t root l .forward).answer w = .ok (v'.record l root).destinations := by
  obtain ⟨v, hanswer, hfresh, halike⟩ := exists_searched hw hempty hvalid
  obtain ⟨v', hv⟩ := answer_eq_ok.1 ((hmatching v halike).answer_congr.trans h)
  have hadvance := hadvances v halike.frontier'
  rw [after_of_ok hv] at hadvance
  exact ⟨v, v', hv, (hadvance.keeps_destinations hfresh) ▸ hanswer⟩

/-- A destination is affected by the failure of an edge according to a forward run from the root. -/
def Affects (t : Topology) (l : Level) (root : NodeId) (e : EdgeId) (w : Workspace)
    (d : NodeId) : Prop :=
  ∃ rs, (Run.run t root l .forward).answer w = .ok rs ∧ ∃ r ∈ rs, r.node = d ∧ IsAffected root e r

/-- The alternates found by loop-free neighbours are local, and for affected destinations. -/
theorem loopFree_affected (hw : t.WellFormed) (hnames : t.NamesDistinct)
    (hempty : w.frontier.isEmpty = true) {rec : Option RepairRecord}
    (h : (loopFree t l root e strict).answer w = .ok rec) (ha : a ∈ alternatesOf rec) :
    a.kind.isRemote = false ∧ Affects t l root e w a.destination := by
  obtain ⟨w', h'⟩ := answer_eq_ok.1 h
  have hrun := h'
  unfold loopFree at hrun
  obtain ⟨edge, w₁, h₁, hrun⟩ := bind_eq_ok.1 hrun
  obtain ⟨-, horder⟩ := inOrder_of_requireProtected h₁
  split at hrun
  · cases (pure_eq_ok.1 hrun).1
    cases ha
  rename_i hprotected
  rw [Bool.not_eq_true', Bool.not_eq_false] at hprotected
  obtain ⟨_, w₂, -, hrun⟩ := bind_eq_ok.1 hrun
  obtain ⟨_, w₃, h₃, -⟩ := bind_eq_ok.1 hrun
  obtain ⟨node, hvalid⟩ := validate_of_computeDistances horder.root_forwards h₃
  obtain ⟨v, v', hv, hanswer⟩ := exists_answered hw hempty hvalid
    (fun _ => matching_loopFree hw) ((running_advances hw hnames).loopFree root e strict) h
  obtain ⟨d, hd, x, -, hassess⟩ :=
    ((loopFree_assessed hw horder.stored hprotected hv).2.mem_iff a).1 ha
  obtain ⟨r, hr, hr', rfl⟩ := mem_affected.1 hd
  obtain ⟨hdest, hkind⟩ := assessLocal_local hassess
  exact ⟨hkind, _, hanswer, r, hr, hdest.symm, hr'⟩

/-- The alternates found at remote nodes are remote, and for affected destinations. -/
theorem remote_affected (hw : t.WellFormed) (hnames : t.NamesDistinct)
    (hempty : w.frontier.isEmpty = true) {rec : Option RepairRecord}
    (h : (remote t l root e strict).answer w = .ok rec) (ha : a ∈ alternatesOf rec) :
    a.kind.isRemote = true ∧ Affects t l root e w a.destination := by
  cases rec with
  | none => cases ha
  | some rec =>
    obtain ⟨w', h'⟩ := answer_eq_ok.1 h
    refine ⟨remote_isRemote h' a ha, ?_⟩
    have hrun := h'
    unfold remote at hrun
    obtain ⟨edge, w₁, h₁, -⟩ := bind_eq_ok.1 hrun
    obtain ⟨-, horder⟩ := inOrder_of_requireProtected h₁
    obtain ⟨-, space, w₂, h₂, -⟩ := remote_onward hw horder.stored h' ha
    obtain ⟨extended, members, w₃, h₃, -⟩ := commonSpace_eq_ok h₂
    obtain ⟨_, _, _, _, _, hsearch, -⟩ := extendedSpace_eq_ok horder.stored h₃
    obtain ⟨node, hvalid⟩ := validate_of_computeDistances horder.root_forwards hsearch
    obtain ⟨v, v', hv, hanswer⟩ := exists_answered hw hempty hvalid
      (fun _ => matching_remote hw) ((closed_advances hw hnames).remote root e strict) h
    obtain ⟨-, _, _, -, _, _, -, -, r, hr, hr', honward⟩ := remote_onward hw horder.stored hv ha
    exact ⟨_, hanswer, r, hr, honward.destination.symm, hr'⟩

/-- An alternate of the backups is one of the loop-free alternates, or a remote one for a
destination that has none of these. -/
theorem mem_combine {settings : Settings} {near far : Except Failure (Option RepairRecord)}
    {rec : RepairRecord} (h : combine settings e l near far = .ok (some rec)) :
    ∃ r, near = .ok r ∧ ∀ a ∈ rec.alternates, a ∈ alternatesOf r ∨
      (∀ b ∈ alternatesOf r, b.destination ≠ a.destination) ∧
        ∃ r', far = .ok r' ∧ a ∈ alternatesOf r' := by
  unfold combine at h
  obtain ⟨r, hr, h⟩ := except_bind_eq_ok.1 h
  refine ⟨r, hr, fun a ha => ?_⟩
  split at h
  · obtain ⟨r', hr', h⟩ := except_bind_eq_ok.1 h
    have hmem : a ∈ alternatesOf (some rec) := ha
    rw [← Except.ok.inj h, alternatesOf_nonempty?, supplement_eq] at hmem
    rcases List.mem_append.1 hmem with hmem | hmem
    · exact .inl hmem
    · obtain ⟨hmem, huncovered⟩ := List.mem_filter.1 hmem
      exact .inr ⟨of_decide_eq_true huncovered, r', hr', hmem⟩
  · cases h
    exact .inl ha

end Repair

namespace Session

open Repair

/-- What a computation comes to in a session. -/
def answer (s : Session) (c : Topology → Compute α) : Except Failure α := (s.compute c).1

theorem answer_def (s : Session) (c : Topology → Compute α) :
    s.answer c = (c s.topology).answer s.workspace := by
  unfold answer compute Compute.answer
  cases c s.topology s.workspace <;> rfl

/-- The loop-free alternates in a session, with the strictness that the settings ask for. -/
def nearAlternates (s : Session) (root : NodeId) (e : EdgeId) (l : Level) :
    Except Failure (Option RepairRecord) :=
  s.answer fun t => loopFree t l root e s.workspace.settings.strictDownstream

/-- The remote alternates in a session, with the strictness that the settings ask for. -/
def farAlternates (s : Session) (root : NodeId) (e : EdgeId) (l : Level) :
    Except Failure (Option RepairRecord) :=
  s.answer fun t => remote t l root e s.workspace.settings.strictDownstream

/-- The backups in a session. -/
def backups (s : Session) (root : NodeId) (e : EdgeId) (l : Level) :
    Except Failure (Option RepairRecord) :=
  s.answer fun t => Repair.backups t l root e

/-- The backups in a session are the merge of the loop-free and the remote alternates that would be
found in it. -/
structure MergesAlternates (s : Session) (root : NodeId) (e : EdgeId) (l : Level) : Prop extends
    Merges s.workspace.settings e l (s.nearAlternates root e l) (s.farAlternates root e l)
      (s.backups root e l) where
  /-- A destination gets only local or only remote alternates. -/
  one_kind : ∀ rec, s.backups root e l = .ok (some rec) → ∀ a ∈ rec.alternates,
    ∀ b ∈ rec.alternates, a.destination = b.destination → a.kind.isRemote = b.kind.isRemote
  /-- No destination appears that a search from the root does not say to be affected. -/
  affected : ∀ rec, s.backups root e l = .ok (some rec) → ∀ a ∈ rec.alternates,
    ∃ rs, (s.answer fun t => Run.run t root l .forward) = .ok rs ∧
      ∃ r ∈ rs, r.node = a.destination ∧ IsAffected root e r

/-- **Backups are the merge of the loop-free and the remote alternates**, after every history, for
every root and every edge. -/
theorem backups_merge (history : List Request) (root : NodeId) (e : EdgeId) (l : Level) :
    (after {} history).MergesAlternates root e l := by
  have hs := sound_after history
  generalize after {} history = s at hs
  have hnear : s.nearAlternates root e l = _ := answer_def s _
  have hfar : s.farAlternates root e l = _ := answer_def s _
  have hbackups : s.backups root e l = combine s.workspace.settings e l
      (s.nearAlternates root e l) (s.farAlternates root e l) := by
    rw [hnear, hfar]
    exact (answer_def s _).trans (answer_backups hs.wellFormed hs.frontier)
  have hlocal : ∀ {r a}, s.nearAlternates root e l = .ok r → a ∈ alternatesOf r → _ :=
    fun h => loopFree_affected hs.wellFormed hs.names hs.frontier (hnear.symm.trans h)
  have hremote : ∀ {r a}, s.farAlternates root e l = .ok r → a ∈ alternatesOf r → _ :=
    fun h => remote_affected hs.wellFormed hs.names hs.frontier (hfar.symm.trans h)
  refine ⟨hbackups ▸ combine_merges .., fun rec h a ha b hb hd => ?_, fun rec h a ha => ?_⟩
  · obtain ⟨r, hr, hmem⟩ := mem_combine (hbackups.symm.trans h)
    -- one of each kind would have different destinations
    rcases hmem a ha with ha | ⟨hna, r', hr', ha⟩ <;>
      rcases hmem b hb with hb | ⟨hnb, r'', hr'', hb⟩
    · rw [(hlocal hr ha).1, (hlocal hr hb).1]
    · exact absurd hd (hnb a ha)
    · exact absurd hd.symm (hna b hb)
    · rw [(hremote hr' ha).1, (hremote hr'' hb).1]
  · obtain ⟨r, hr, hmem⟩ := mem_combine (hbackups.symm.trans h)
    have haffects : Affects s.topology l root e s.workspace a.destination := by
      rcases hmem a ha with ha | ⟨-, r', hr', ha⟩
      · exact (hlocal hr ha).2
      · exact (hremote hr' ha).2
    obtain ⟨rs, hrs, hr⟩ := haffects
    exact ⟨rs, (answer_def s _).trans hrs, hr⟩

-- In the ring of five routers two remote nodes serve both the second and the third router, and the
-- third one, which has a local alternate, is left to that.
example :
    let s := after {} (Run.pentagon.map .change)
    let served := fun (found : Except Failure (Option RepairRecord)) =>
      (alternatesOf found.toOption.join).map fun a => (a.destination.position, a.node.position)
    served (s.farAlternates ⟨0, 0⟩ ⟨0, 0⟩ .l1) = [(1, 2), (2, 2), (1, 3), (2, 3)] ∧
      served (s.backups ⟨0, 0⟩ ⟨0, 0⟩ .l1) = [(2, 4), (1, 2), (1, 3)] := by
  decide +kernel

end Session

end LinkState
