import LinkState.Address
import LinkState.Error
import LinkState.Metric
import LinkState.Nexthop

/-!
# Topologies

A topology is a table of nodes and a table of directed edges. A node is a router or, at a level, a
pseudo-node that stands for a LAN. An edge leads from an endpoint at its owner to one at another
node, is used at the levels of its level set while it is up, and may have an inverse, the edge in
the opposite direction.

Two indexes are stored beside the tables, the node of each name and the list of the edges of each
node, and whatever adds a row enters it there. `nodeNamed?`, `nodesByName`, `arcsFrom` and `edgeAt?`
read the indexes. Nothing in the data ties these to the tables: that a list holds what the edge
table says is the property `Listed`, which the changes have to keep.
-/

namespace LinkState

/-- What a node stands for at a level: a router, or a LAN as a pseudo-node. -/
inductive NodeKind where
  | router
  | pseudonode
deriving DecidableEq, Inhabited

/-- A router, or a LAN. -/
structure Node where
  name : String
  routerId : IPv4
  area : Option String := none
  levelType : LevelType
  kind : PerLevel NodeKind
  overloaded : PerLevel Bool := .both false
  /-- Whether a router of both levels announces that it reaches the other areas. -/
  attached : Bool := false
  /-- The networks announced by the node. -/
  networks : List Network := []

namespace Node

def isPseudonode (n : Node) (l : Level) : Bool := n.kind.get l == .pseudonode

def isOverloaded (n : Node) (l : Level) : Bool := n.overloaded.get l

/-- Whether routers of level 1 may send traffic for other areas to this node. -/
def isAttached (n : Node) : Bool := n.attached && n.levelType == .all

end Node

/-- An end of an edge: an interface of a node. -/
structure Endpoint where
  node : NodeId
  ifname : String
  address : Option Network := none
deriving DecidableEq

/-- What an edge stands for. -/
inductive EdgeKind where
  /-- A link between two routers, or between a router and a LAN. -/
  | unicast
  /-- A one-way tunnel. -/
  | lsp
deriving DecidableEq

/-- What a failure must not take away: nothing, the link, or also the node behind it. -/
inductive Protection where
  | none
  | link
  | linkAndNode
deriving DecidableEq, Inhabited

/-- A directed edge. -/
structure Edge where
  source : Endpoint
  target : Endpoint
  metric : PerLevel Metric
  levels : LevelSet
  up : Bool := true
  protection : Protection := .none
  inverse : Option EdgeId := none
  kind : EdgeKind

namespace Edge

/-- Whether the edge may be used at a level. -/
def isActive (e : Edge) (l : Level) : Bool := e.up && e.levels.has l

theorem isActive_iff {e : Edge} {l : Level} :
    e.isActive l = true ↔ e.up = true ∧ e.levels.has l = true := by
  rw [isActive, Bool.and_eq_true]

def cost (e : Edge) (l : Level) : Metric := e.metric.get l

/-- The address of the interface at the far end. -/
def gateway (e : Edge) : Option Address := e.target.address.map (·.address)

/-- The kind of the next hops that leave through the edge. -/
def nexthopKind (e : Edge) : NexthopKind :=
  match e.kind with
  | .unicast => .ip
  | .lsp => .lsp

def isProtected (e : Edge) : Bool := e.protection != .none

def protectsNode (e : Edge) : Bool := e.protection == .linkAndNode

end Edge

/-- An edge with its handle. -/
structure Arc where
  id : EdgeId
  edge : Edge

/-- Nodes and edges, with an index of the names and one of the owners. -/
structure Topology where
  nodes : Table Node := {}
  edges : Table Edge := {}
  /-- The node of each name. -/
  names : Std.TreeMap String NodeId := ∅
  /-- The edges of each node, in order of creation. -/
  outgoing : HandleMap (List EdgeId) := ∅

namespace Topology

instance : Inhabited Topology := ⟨{}⟩

/-- The node of a name. -/
def nodeNamed? (t : Topology) (name : String) : Option NodeId := t.names[name]?

/-- The handles of the nodes with the nodes, in the order of their names. -/
def nodesByName (t : Topology) : List (NodeId × Node) :=
  t.names.toList.filterMap fun (_, n) => (t.nodes.get? n).map (n, ·)

/-- The node of a name, or the error that there is none. -/
def lookup (t : Topology) (name : String) : Except Error NodeId :=
  match t.nodeNamed? name with
  | some n => .ok n
  | none => .error (.nodeNotFound name)

/-- The name of a node, empty if there is no such node. -/
def nameOf (t : Topology) (n : NodeId) : String := ((t.nodes.get? n).map (·.name)).getD ""

def isPseudonode (t : Topology) (n : NodeId) (l : Level) : Bool :=
  (t.nodes.get? n).any (·.isPseudonode l)

def isOverloaded (t : Topology) (n : NodeId) (l : Level) : Bool :=
  (t.nodes.get? n).any (·.isOverloaded l)

/-- All edges, in order of creation. -/
def arcs (t : Topology) : List Arc := t.edges.entries.map fun (id, edge) => ⟨id, edge⟩

/-- The edges in the list of a node. -/
def arcsFrom (t : Topology) (n : NodeId) : List Arc :=
  (t.outgoing.read n).filterMap fun e => (t.edges.get? e).map (⟨e, ·⟩)

/-- The edge of a node that has a given interface, the oldest one of several. -/
def edgeAt? (t : Topology) (n : NodeId) (ifname : String) : Option EdgeId :=
  ((t.arcsFrom n).find? fun a => a.edge.source.ifname == ifname).map (·.id)

theorem mem_arcs {t : Topology} {a : Arc} : a ∈ t.arcs ↔ t.edges.get? a.id = some a.edge := by
  unfold arcs
  constructor
  · intro h
    obtain ⟨⟨id, edge⟩, hm, rfl⟩ := List.mem_map.1 h
    exact Table.mem_entries.1 hm
  · intro h
    exact List.mem_map.2 ⟨(a.id, a.edge), Table.mem_entries.2 h, rfl⟩

/-- The list of a node holds the edges that it owns, in order of creation. -/
class Listed (t : Topology) : Prop where
  outgoing : ∀ n, t.outgoing.read n =
    (t.arcs.filter fun a => a.edge.source.node == n).map (·.id)

variable {t : Topology}

/-- Looking up the handles of stored edges gives the edges. -/
theorem filterMap_arcs {as : List Arc} (h : ∀ a ∈ as, a ∈ t.arcs) :
    ((as.map (·.id)).filterMap fun e => (t.edges.get? e).map (Arc.mk e ·)) = as := by
  induction as with
  | nil => rfl
  | cons a as ih =>
    have ha := mem_arcs.1 (h a List.mem_cons_self)
    rw [List.map_cons, List.filterMap_cons_some (by rw [ha]; rfl),
      ih fun b hb => h b (List.mem_cons_of_mem a hb)]

/-- Where the lists are right, the edges of a node are those of the table that it owns. -/
theorem arcsFrom_eq [t.Listed] (n : NodeId) :
    t.arcsFrom n = t.arcs.filter fun a => a.edge.source.node == n := by
  rw [arcsFrom, Listed.outgoing]
  exact filterMap_arcs fun _ ha => (List.mem_filter.1 ha).1

theorem mem_arcsFrom [t.Listed] {n : NodeId} {a : Arc} :
    a ∈ t.arcsFrom n ↔ t.edges.get? a.id = some a.edge ∧ a.edge.source.node = n := by
  rw [arcsFrom_eq, List.mem_filter, mem_arcs, beq_iff_eq]

end Topology

end LinkState
