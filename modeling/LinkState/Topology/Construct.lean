import LinkState.Topology.Basic

/-!
# Building and changing topologies

Nodes and edges are added one at a time. A node is refused if its name is taken, a unicast edge if
its owner has an edge with that interface. A link and a LAN membership are two edges, each the
inverse of the other; if the second one is refused the first one stays, so these two operations
return the topology beside their answer.

What is added goes to the end of its table and into the index: a node under its name (`pushNode`),
an edge into the list of its owner (`pushEdge`). Nothing else touches the indexes, since no change
renames a node or gives an edge another owner.
-/

namespace LinkState.Topology

/-- Stores a node and enters it under its name. -/
def pushNode (t : Topology) (node : Node) : Topology :=
  { t with
    nodes := t.nodes.push node
    names := t.names.insert node.name t.nodes.nextHandle }

/-- Stores an edge and enters it in the list of its owner. -/
def pushEdge (t : Topology) (edge : Edge) : Topology :=
  { t with
    edges := t.edges.push edge
    outgoing := t.outgoing.update edge.source.node (· ++ [t.edges.nextHandle]) }

@[simp] theorem edges_pushEdge (t : Topology) (edge : Edge) :
    (t.pushEdge edge).edges = t.edges.push edge := rfl

/-- Adds a node. -/
def insertNode (t : Topology) (node : Node) : Except Error (NodeId × Topology) :=
  match t.nodeNamed? node.name with
  | some _ => .error (.duplicateNode node.name)
  | none => .ok (t.nodes.nextHandle, t.pushNode node)

/-- Adds a router. -/
def addRouter (t : Topology) (name : String) (routerId : IPv4) (levelType : LevelType) :
    Except Error (NodeId × Topology) :=
  t.insertNode { name, routerId, levelType, kind := .both .router }

/-- Adds a pseudo-node, which stands for a LAN. -/
def addPseudonode (t : Topology) (name : String) (levelType : LevelType) :
    Except Error (NodeId × Topology) :=
  t.insertNode { name, routerId := 0, levelType, kind := .both .pseudonode }

/-- Adds an edge. -/
def addEdge (t : Topology) (source target : Endpoint) (metric : PerLevel Metric)
    (levelType : LevelType) (kind : EdgeKind) : Except Error (EdgeId × Topology) :=
  match t.nodes.get? source.node with
  | none => .error (.unknownNode source.node)
  | some owner =>
    if !t.nodes.contains target.node then .error (.unknownNode target.node)
    else if (t.edgeAt? source.node source.ifname).isSome && kind == .unicast then
      .error (.duplicateInterface owner.name source.ifname)
    else
      let edge : Edge := { source, target, metric, levels := .ofType levelType, kind }
      .ok (t.edges.nextHandle, t.pushEdge edge)

/-- Changes an edge. -/
def modifyEdge (t : Topology) (e : EdgeId) (f : Edge → Edge) : Topology :=
  { t with edges := t.edges.modify e f }

/-- Changes a node. -/
def modifyNode (t : Topology) (n : NodeId) (f : Node → Node) : Topology :=
  { t with nodes := t.nodes.modify n f }

/-- Makes two edges each other's inverse. -/
def join (t : Topology) (a b : EdgeId) : Topology :=
  (t.modifyEdge a fun e => { e with inverse := some b }).modifyEdge b
    fun e => { e with inverse := some a }

/-- Adds two unicast edges that are each other's inverse. -/
def addPair (t : Topology) (a b : Endpoint) (there back : Metric) (levelType : LevelType) :
    Except Error (EdgeId × EdgeId) × Topology :=
  match t.addEdge a b (.both there) levelType .unicast with
  | .error e => (.error e, t)
  | .ok (ab, t) =>
    match t.addEdge b a (.both back) levelType .unicast with
    | .error e => (.error e, t)
    | .ok (ba, t) => (.ok (ab, ba), t.join ab ba)

/-- Adds a point-to-point link. -/
def addLink (t : Topology) (a b : Endpoint) (metric : Metric) (levelType : LevelType) :
    Except Error (EdgeId × EdgeId) × Topology :=
  t.addPair a b metric metric levelType

/-- Attaches a router to a LAN. The pseudo-node reaches its members at no cost, over an interface
named after itself and the member. -/
def addLanLink (t : Topology) (member : Endpoint) (pseudonode : NodeId) (metric : Metric)
    (levelType : LevelType) : Except Error (EdgeId × EdgeId) × Topology :=
  match t.nodes.get? member.node, t.nodes.get? pseudonode with
  | none, _ => (.error (.unknownNode member.node), t)
  | some _, none => (.error (.unknownNode pseudonode), t)
  | some m, some p =>
    let onLan : Endpoint := { node := pseudonode, ifname := p.name ++ "-" ++ m.name }
    t.addPair member onLan metric 0 levelType

/-- Adds a one-way tunnel. -/
def addLsp (t : Topology) (source target : NodeId) (ifname : String) (metric : Metric)
    (levelType : LevelType) : Except Error (EdgeId × Topology) :=
  t.addEdge { node := source, ifname } { node := target, ifname := ifname ++ "-tail" }
    (.both metric) levelType .lsp

def setMetric (t : Topology) (e : EdgeId) (l : Level) (m : Metric) : Topology :=
  t.modifyEdge e fun edge => { edge with metric := edge.metric.set l m }

def setOverload (t : Topology) (n : NodeId) (l : Level) (value : Bool) : Topology :=
  t.modifyNode n fun node => { node with overloaded := node.overloaded.set l value }

def setProtection (t : Topology) (e : EdgeId) (p : Protection) : Topology :=
  t.modifyEdge e fun edge => { edge with protection := p }

def setLevelType (t : Topology) (n : NodeId) (levelType : LevelType) : Topology :=
  t.modifyNode n fun node => { node with levelType }

def setKind (t : Topology) (n : NodeId) (l : Level) (kind : NodeKind) : Topology :=
  t.modifyNode n fun node => { node with kind := node.kind.set l kind }

def setAttached (t : Topology) (n : NodeId) (attached : Bool) : Topology :=
  t.modifyNode n fun node => { node with attached }

def setNetworks (t : Topology) (n : NodeId) (networks : List Network) : Topology :=
  t.modifyNode n fun node => { node with networks }

/-- Changes the status of an edge and of its inverse. -/
def setLinkStatus (t : Topology) (e : EdgeId) (up : Bool) : Topology :=
  let set := fun edge : Edge => { edge with up }
  match (t.edges.get? e).bind (·.inverse) with
  | some inverse => (t.modifyEdge e set).modifyEdge inverse set
  | none => t.modifyEdge e set

/-- Gives each edge the metric of its inverse at one level, where both take part in the level. -/
def invert (t : Topology) (l : Level) : Topology :=
  { t with
    edges := t.edges.map fun e =>
      match e.inverse.bind t.edges.get? with
      | some i =>
        if e.levels.has l && i.levels.has l then { e with metric := e.metric.set l (i.cost l) }
        else e
      | none => e }

end LinkState.Topology
