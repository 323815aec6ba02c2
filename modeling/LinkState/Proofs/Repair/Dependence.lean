import LinkState.Proofs.Distance
import LinkState.Repair.Backup

/-!
# What assessments depend on

Two findings agree on a node (`Findings.SameAt`) if what they hold of searches from it is the same,
or if the node is overloaded: no distance from it is ever looked up. Where two findings agree, there
distances are the same (`distance_congr`), and with them everything that is computed from distances:
which results belong to a P-space, which neighbours help, and which alternates a candidate or a
remote node gives.
-/

namespace LinkState

variable {t : Topology} {l : Level} {f f' : Findings} {x y root far : NodeId} {e : EdgeId}
  {edge : Edge}

/-- Two findings hold the same of searches from a node, or it is overloaded. -/
def Findings.SameAt (t : Topology) (l : Level) (f f' : Findings) (x : NodeId) : Prop :=
  t.isOverloaded x l = true ∨ f.SameResults f' x

theorem Findings.SameAt.sameResults (h : SameAt t l f f' x) (hx : t.isOverloaded x l = false) :
    f.SameResults f' x :=
  h.resolve_left (by rw [hx]; exact Bool.false_ne_true)

/-- Distances are the same where findings agree on their source. -/
theorem distance_congr (h : Findings.SameAt t l f f' x) (y : NodeId) :
    distance t l f' x y = distance t l f x y := by
  unfold distance
  split
  · rfl
  · rfl
  rename_i source target hsource htarget
  rcases h with hover | ⟨hsettled, hdest⟩
  · have hover : source.isOverloaded l = true := by
      rwa [Topology.isOverloaded, hsource] at hover
    simp only [hover, if_true]
  · simp only [Findings.result?, Findings.destination?, hsettled, hdest]

namespace Repair

open Findings

theorem affected_congr (h : f.SameResults f' root) : affected root e f' = affected root e f := by
  rw [affected, affected, h.2]

/-! ## Loop-free alternates -/

theorem protectsNode_congr {n d : NodeId} {metric : Metric} (hn : SameAt t l f f' n)
    {ps : List NodeId} (hps : ∀ p ∈ ps, SameAt t l f f' p) :
    protectsNode t l f' n d metric ps = protectsNode t l f n d metric ps := by
  induction ps with
  | nil => rfl
  | cons p ps ih =>
    obtain ⟨hp, hps⟩ := List.forall_mem_cons.1 hps
    simp only [protectsNode, distance_congr hn, distance_congr hp, ih hps]

theorem assessLocal_congr {strict : Bool} {d : Affected} {c : Nexthop}
    (hroot : SameAt t l f f' root) (hc : SameAt t l f f' c.node)
    (hfar : SameAt t l f f' edge.target.node) (hps : ∀ p ∈ d.primaries, SameAt t l f f' p) :
    assessLocal t l f' root e edge strict d c = assessLocal t l f root e edge strict d c := by
  simp only [assessLocal, localKind?, avoidsLan, distance_congr hroot, distance_congr hc,
    distance_congr hfar, protectsNode_congr hc hps]

theorem collect_congr {α : Type} {assess assess' : α → Except Error (Option Alternate)}
    {as : List α} (h : ∀ a ∈ as, assess' a = assess a) :
    collect t assess' as = collect t assess as := by
  induction as with
  | nil => rfl
  | cons a as ih =>
    obtain ⟨ha, has⟩ := List.forall_mem_cons.1 h
    simp only [collect, ha, ih has]

theorem assessAll_congr {strict : Bool} {cs : List Nexthop} {ds : List Affected}
    (h : ∀ d ∈ ds, ∀ c ∈ cs, assessLocal t l f' root e edge strict d c =
      assessLocal t l f root e edge strict d c) :
    assessAll t l f' root e edge strict cs ds = assessAll t l f root e edge strict cs ds := by
  induction ds with
  | nil => rfl
  | cons d ds ih =>
    obtain ⟨hd, hds⟩ := List.forall_mem_cons.1 h
    simp only [assessAll, collect_congr hd, ih hds]

/-! ## Repair spaces -/

theorem nearMembers_congr (hroot : f.SameResults f' root)
    (hfar : SameAt t l f f' edge.target.node) :
    nearMembers t l f' root e edge = nearMembers t l f root e edge := by
  have hadd : ∀ toFar, addNear t l f' root e edge.target.node toFar =
      addNear t l f root e edge.target.node toFar := fun toFar => by
    funext space r
    simp only [addNear, distance_congr hfar]
  simp only [nearMembers, distance_congr (.inr hroot), hroot.2, hadd]

theorem helpers_congr (hroot : SameAt t l f f' root) (hfar : SameAt t l f f' far) {toFar : Metric}
    (nbs : List LogicalNeighbour) :
    helpers t l f' root e far toFar nbs = helpers t l f root e far toFar nbs := by
  induction nbs with
  | nil => rfl
  | cons nb nbs ih =>
    simp only [helpers, helps, distance_congr hroot, distance_congr hfar, ih]

theorem addThrough_congr (hroot : SameAt t l f f' root) (hfar : SameAt t l f f' far)
    {nexthop : Nexthop} {toRoot toFar : Metric} :
    addThrough t l f' root far nexthop toRoot toFar =
      addThrough t l f root far nexthop toRoot toFar := by
  funext space r
  simp only [addThrough, distance_congr hroot, distance_congr hfar]

/-! ## Remote alternates -/

theorem assessRemote_congr {strict : Bool} {p : RemoteNode} (hp : SameAt t l f f' p.node)
    (hfar : SameAt t l f f' edge.target.node) :
    assessRemote t l f' edge strict p = assessRemote t l f edge strict p := by
  funext d
  simp only [assessRemote, remoteProtectsNode, distance_congr hp, distance_congr hfar]

end Repair

end LinkState
