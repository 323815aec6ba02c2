import LinkState.Error
import LinkState.Journal
import LinkState.Repair.Alternate
import LinkState.Topology.Basic

/-!
# The trace

An `Event` is one step of a computation worth telling, or a request refused. Its text is a
severity, a message, named fields, and the spans in which it happened.
-/

namespace LinkState

/-- What a computation tells of itself. -/
inductive Event where
  | topologyBuilt (nodes edges : Nat)
  | topologyInverted (level : Level)
  | runStarted (root : String) (level : Level) (kind : RunKind)
  | runFinished (root : String) (level : Level) (kind : RunKind) (reachable : Nat)
  | metricExceeded (node : String) (level : Level)
  | tableUpdated (root : String) (level : Level) (routes : Nat)
  | alternatesStarted (ifname : String) (level : Level) (protection : Protection)
  | alternateFound (destination alternate : String) (kind : AlternateKind)
  | noAlternate (destination : String)
  | lanUnsupported (ifname : String)
  | repairNodesFound (ifname : String) (count : Nat)
  | refused (e : Error)

/-- The name of a protection in the trace. -/
def Protection.traceName : Protection → String
  | none => "None"
  | link => "Link"
  | linkAndNode => "LinkAndNode"

/-- How much an event matters. -/
inductive Severity where
  | debug
  | warn
  | error

def Severity.name : Severity → String
  | debug => "DEBUG"
  | warn => "WARN"
  | error => "ERROR"

namespace Level

def text (l : Level) : String := toString l.number

end Level

/-- The fields of an error in the trace. -/
def Error.fields : Error → List (String × String)
  | description (.unreadable path) => [("path", path)]
  | description (.unknownFormat path) => [("path", path)]
  | description _ => []
  | invalidLevel n => [("level", toString n)]
  | duplicateNode name => [("name", name)]
  | duplicateInterface node ifname => [("name", node), ("ifname", ifname)]
  | nodeNotFound name => [("name", name)]
  | unknownNode n => [("node_idx", n.describe)]
  | edgeNotFound node ifname => [("name", node), ("ifname", ifname)]
  | unknownEdge e => [("edge_idx", e.describe)]
  | rootOverloaded node l => [("name", node), ("level", l.text)]
  | rootPseudonode node l => [("name", node), ("level", l.text)]
  | rootLevelMismatch node l => [("name", node), ("level", l.text)]
  | pseudonodePair source destination => [("source", source), ("dest", destination)]
  | edgeNotLocal node ifname => [("name", node), ("ifname", ifname)]
  | edgeInactive node ifname l => [("name", node), ("ifname", ifname), ("level", l.text)]

namespace Event

/-- A distance that is not defined is an error of the program, other refusals are warnings. -/
def severity : Event → Severity
  | refused (.pseudonodePair ..) => .error
  | refused _ => .warn
  | _ => .debug

def message : Event → String
  | topologyBuilt .. => "topology built"
  | topologyInverted _ => "inverting topology"
  | runStarted .. => "starting SPF run"
  | runFinished .. => "SPF run finished"
  | metricExceeded .. => "maximum path metric exceeded"
  | tableUpdated .. => "routing table updated"
  | alternatesStarted .. => "computing alternates for protected interface"
  | alternateFound .. => "alternate found"
  | noAlternate _ => "no alternate found"
  | lanUnsupported _ => "remote LFA isn't supported on broadcast links"
  | repairNodesFound .. => "PQ-space computed"
  | refused e => e.message

def fields : Event → List (String × String)
  | topologyBuilt nodes edges => [("nodes", toString nodes), ("edges", toString edges)]
  | topologyInverted l => [("level", l.text)]
  | runStarted _ _ kind => [("kind", kind.name)]
  | runFinished _ _ kind reachable => [("kind", kind.name), ("reachable", toString reachable)]
  | metricExceeded node l => [("node", node), ("level", l.text)]
  | tableUpdated _ _ routes => [("routes", toString routes)]
  | alternatesStarted _ l protection =>
    [("level", l.text), ("protection", protection.traceName)]
  | alternateFound destination alternate kind =>
    [("destination", destination), ("alternate", alternate), ("lfa_type", kind.traceName)]
  | noAlternate destination => [("destination", destination)]
  | lanUnsupported ifname => [("ifname", ifname)]
  | repairNodesFound ifname count => [("ifname", ifname), ("size", toString count)]
  | refused e => e.fields

/-- The spans in which the event happened, outermost first, each with its fields. -/
def spans : Event → List (String × List (String × String))
  | runStarted root l _ => [("spf", [("root", root), ("level", l.text)])]
  | runFinished root l _ _ => [("spf", [("root", root), ("level", l.text)])]
  | tableUpdated root l _ => [("rib", [("root", root), ("level", l.text)])]
  | alternatesStarted ifname _ _ => [("fast-reroute", [("ifname", ifname)])]
  | _ => []

end Event

end LinkState
