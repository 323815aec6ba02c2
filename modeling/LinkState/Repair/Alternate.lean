import LinkState.Nexthop
import LinkState.Metric
import LinkState.Level

/-!
# Alternates

An `Alternate` is a backup path for one destination: a node that is given the traffic instead, and
the next hop by which it is reached. Its `AlternateKind` says what failure it survives. A
`RepairRecord` holds the alternates for a protected edge, and `best?` prefers among those of a
destination one that protects the node, then a downstream one, then the cheapest.
-/

namespace LinkState

/-- What an alternate protects against, over a point-to-point link, a LAN or a remote node. -/
inductive AlternateKind where
  | link
  | linkDownstream
  | linkAndNode
  | broadcastLink
  | broadcastLinkDownstream
  | broadcastLinkAndNode
  | broadcastOnlyNode
  | remoteLink
  | remoteLinkDownstream
  | remoteLinkAndNode
deriving DecidableEq, Inhabited

namespace AlternateKind

/-- All kinds, within each family from the weakest to the strongest. -/
def all : List AlternateKind :=
  [link, linkDownstream, linkAndNode, broadcastLink, broadcastLinkDownstream,
    broadcastLinkAndNode, broadcastOnlyNode, remoteLink, remoteLinkDownstream, remoteLinkAndNode]

/-- The name under which a kind is reported. -/
def name : AlternateKind → String
  | link => "link-protection"
  | linkDownstream => "link-protection-downstream"
  | linkAndNode => "link-and-node-protection"
  | broadcastLink => "broadcast-link-protection"
  | broadcastLinkDownstream => "broadcast-link-protection-downstream"
  | broadcastLinkAndNode => "broadcast-link-and-node-protection"
  | broadcastOnlyNode => "broadcast-only-node-protection"
  | remoteLink => "remote-link-protection"
  | remoteLinkDownstream => "remote-link-protection-downstream"
  | remoteLinkAndNode => "remote-link-and-node-protection"

/-- The name of a kind in the trace. -/
def traceName : AlternateKind → String
  | link => "LinkProtection"
  | linkDownstream => "LinkProtectionDownstream"
  | linkAndNode => "LinkAndNodeProtection"
  | broadcastLink => "BroadcastLinkProtection"
  | broadcastLinkDownstream => "BroadcastLinkProtectionDownstream"
  | broadcastLinkAndNode => "BroadcastLinkAndNodeProtection"
  | broadcastOnlyNode => "BroadcastOnlyNodeProtection"
  | remoteLink => "RemoteLinkProtection"
  | remoteLinkDownstream => "RemoteLinkProtectionDownstream"
  | remoteLinkAndNode => "RemoteLinkAndNodeProtection"

/-- The place of a kind in `all`. -/
def position (k : AlternateKind) : Nat := all.idxOf k

def isNodeProtecting : AlternateKind → Bool
  | linkAndNode | broadcastLinkAndNode | broadcastOnlyNode | remoteLinkAndNode => true
  | _ => false

def isDownstream : AlternateKind → Bool
  | linkDownstream | broadcastLinkDownstream | remoteLinkDownstream => true
  | _ => false

def isRemote : AlternateKind → Bool
  | remoteLink | remoteLinkDownstream | remoteLinkAndNode => true
  | _ => false

/-- The kind of an alternate for a point-to-point link. -/
def ofPointToPoint (nodeProtecting downstream : Bool) : AlternateKind :=
  if nodeProtecting then linkAndNode else if downstream then linkDownstream else link

/-- The kind of an alternate for a link to a LAN; one that protects neither the node nor avoids
the LAN is none. -/
def ofBroadcast? (nodeProtecting downstream avoidsLan : Bool) : Option AlternateKind :=
  if avoidsLan then
    some (if nodeProtecting then broadcastLinkAndNode
      else if downstream then broadcastLinkDownstream else broadcastLink)
  else if nodeProtecting then some broadcastOnlyNode
  else none

/-- The kind of a remote alternate. -/
def ofRemote (nodeProtecting downstream : Bool) : AlternateKind :=
  if nodeProtecting then remoteLinkAndNode
  else if downstream then remoteLinkDownstream else remoteLink

end AlternateKind

/-- A backup path for one destination. -/
structure Alternate where
  /-- The neighbour or the remote node that takes over the traffic. -/
  node : NodeId
  destination : NodeId
  /-- The next hop by which the node is reached. -/
  nexthop : Nexthop
  kind : AlternateKind
  /-- The metric of the whole path. -/
  metric : Metric
deriving DecidableEq

namespace Alternate

/-- Whether an alternate is to be preferred over another one. -/
def betterThan (a b : Alternate) : Bool :=
  if a.kind.isNodeProtecting != b.kind.isNodeProtecting then a.kind.isNodeProtecting
  else if a.kind.isDownstream != b.kind.isDownstream then a.kind.isDownstream
  else decide (a.metric < b.metric)

/-- The most preferred alternate of a list, the first one of several. -/
def best? : List Alternate → Option Alternate
  | [] => none
  | a :: as => some (as.foldl (fun best b => if b.betterThan best then b else best) a)

end Alternate

/-- The alternates for a protected edge at a level. -/
structure RepairRecord where
  edge : EdgeId
  level : Level
  alternates : List Alternate := []
deriving DecidableEq

namespace RepairRecord

/-- The alternates for one destination. -/
def alternatesFor (r : RepairRecord) (destination : NodeId) : List Alternate :=
  r.alternates.filter fun a => a.destination == destination

/-- The destinations that have an alternate. -/
def destinations (r : RepairRecord) : NodeSet :=
  r.alternates.foldl (fun set a => set.insert a.destination) {}

/-- The most preferred alternate for a destination. -/
def best? (r : RepairRecord) (destination : NodeId) : Option Alternate :=
  Alternate.best? (r.alternatesFor destination)

/-- The record, unless it is empty. -/
def nonempty? (r : RepairRecord) : Option RepairRecord :=
  if r.alternates.isEmpty then none else some r

end RepairRecord

end LinkState
