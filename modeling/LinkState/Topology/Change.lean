import LinkState.Topology.Construct

/-!
# Changes

A `Change` is one thing done to a topology, and `apply` does it. It answers with what was created,
and it always returns a topology: a link or a LAN membership whose second edge is refused keeps its
first one, every other change that fails leaves the topology as it was.

`after` is the topology after a history of changes, whether they succeeded or not.
-/

namespace LinkState

/-- One thing done to a topology. -/
inductive Change where
  | addRouter (name : String) (routerId : IPv4) (levelType : LevelType)
  | addPseudonode (name : String) (levelType : LevelType)
  | addEdge (source target : Endpoint) (metric : PerLevel Metric) (levelType : LevelType)
      (kind : EdgeKind)
  | addLink (a b : Endpoint) (metric : Metric) (levelType : LevelType)
  | addLanLink (member : Endpoint) (pseudonode : NodeId) (metric : Metric) (levelType : LevelType)
  | addLsp (source target : NodeId) (ifname : String) (metric : Metric) (levelType : LevelType)
  | setMetric (edge : EdgeId) (level : Level) (metric : Metric)
  | setLinkStatus (edge : EdgeId) (up : Bool)
  | setProtection (edge : EdgeId) (protection : Protection)
  | setOverload (node : NodeId) (level : Level) (value : Bool)
  | setLevelType (node : NodeId) (levelType : LevelType)
  | setKind (node : NodeId) (level : Level) (kind : NodeKind)
  | setAttached (node : NodeId) (value : Bool)
  | setNetworks (node : NodeId) (networks : List Network)
  | invert (level : Level)

/-- What a change created. -/
inductive Created where
  | nothing
  | node (n : NodeId)
  | edge (e : EdgeId)
  /-- Two edges that are each other's inverse. -/
  | pair (there back : EdgeId)

namespace Topology

/-- The outcome of adding one thing. -/
def added {α : Type} (t : Topology) (created : α → Created) :
    Except Error (α × Topology) → Except Failure Created × Topology
  | .ok (a, t) => (.ok (created a), t)
  | .error e => (.error (.error e), t)

/-- The outcome of adding two edges. -/
def addedPair : Except Error (EdgeId × EdgeId) × Topology → Except Failure Created × Topology
  | (.ok (there, back), t) => (.ok (.pair there back), t)
  | (.error e, t) => (.error (.error e), t)

/-- The outcome of a change to something that must exist. -/
def changed (t : Topology) (found : Bool) (after : Topology) : Except Failure Created × Topology :=
  if found then (.ok .nothing, after) else (.error (.fault .noSuchRow), t)

/-- Carries out a change. -/
def apply (t : Topology) : Change → Except Failure Created × Topology
  | .addRouter name routerId levelType => t.added .node (t.addRouter name routerId levelType)
  | .addPseudonode name levelType => t.added .node (t.addPseudonode name levelType)
  | .addEdge source target metric levelType kind =>
    t.added .edge (t.addEdge source target metric levelType kind)
  | .addLink a b metric levelType => addedPair (t.addLink a b metric levelType)
  | .addLanLink member pseudonode metric levelType =>
    addedPair (t.addLanLink member pseudonode metric levelType)
  | .addLsp source target ifname metric levelType =>
    t.added .edge (t.addLsp source target ifname metric levelType)
  | .setMetric e l m => t.changed (t.edges.contains e) (t.setMetric e l m)
  | .setLinkStatus e up => t.changed (t.edges.contains e) (t.setLinkStatus e up)
  | .setProtection e p => t.changed (t.edges.contains e) (t.setProtection e p)
  | .setOverload n l value => t.changed (t.nodes.contains n) (t.setOverload n l value)
  | .setLevelType n levelType => t.changed (t.nodes.contains n) (t.setLevelType n levelType)
  | .setKind n l kind => t.changed (t.nodes.contains n) (t.setKind n l kind)
  | .setAttached n value => t.changed (t.nodes.contains n) (t.setAttached n value)
  | .setNetworks n networks => t.changed (t.nodes.contains n) (t.setNetworks n networks)
  | .invert l => (.ok .nothing, t.invert l)

/-- The topology after a history of changes. -/
def after (t : Topology) (history : List Change) : Topology :=
  history.foldl (fun t c => (t.apply c).2) t

@[simp] theorem after_nil (t : Topology) : t.after [] = t := rfl

theorem after_append (t : Topology) (h h' : List Change) :
    t.after (h ++ h') = (t.after h).after h' :=
  List.foldl_append

/-- What holds of the topology and is kept by every change holds after every history. -/
theorem after_induction {P : Topology → Prop} (keep : ∀ t c, P t → P (t.apply c).2) {t : Topology}
    (h : P t) (history : List Change) : P (t.after history) := by
  induction history generalizing t with
  | nil => exact h
  | cons c history ih => exact ih (keep t c h)

end Topology

end LinkState
