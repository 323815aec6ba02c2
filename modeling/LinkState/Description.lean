import LinkState.Topology.Basic

/-!
# Descriptions of topologies

A description lists routers, LANs with their members, point-to-point links and tunnels, each naming
the nodes that it concerns.
-/

namespace LinkState

/-- A router that is to be added. -/
structure RouterDescription where
  name : String
  routerId : IPv4
  area : Option String := none
  level : LevelType := .all
  /-- The levels at which the router is overloaded. -/
  overload : List Level := []
  attached : Bool := false
  networks : List Network := []

/-- A member of a LAN: the interface by which a node is attached to it. -/
structure MemberDescription where
  node : String
  ifname : String
  address : Option Network := none
  metric : Metric
  /-- The protection of the member's own edge. -/
  protection : Protection := .none

/-- A LAN with its members. -/
structure LanDescription where
  /-- The name of the pseudo-node. -/
  name : String
  level : LevelType := .all
  members : List MemberDescription

/-- An end of a link: an interface of a node. -/
structure EndDescription where
  node : String
  ifname : String
  address : Option Network := none

/-- A point-to-point link. -/
structure LinkDescription where
  a : EndDescription
  b : EndDescription
  metric : Metric
  /-- The metric at level 2, if it is another one. -/
  upperMetric : Option Metric := none
  level : LevelType := .all
  up : Bool := true
  /-- The protection of both sides. -/
  protection : Protection := .none

/-- A one-way tunnel. -/
structure TunnelDescription where
  source : String
  target : String
  ifname : String
  metric : Metric
  level : LevelType := .all

/-- The parts of a topology, in the order in which they are added. -/
structure Description where
  routers : List RouterDescription := []
  lans : List LanDescription := []
  links : List LinkDescription := []
  tunnels : List TunnelDescription := []

/-- The metric of a link for which none is given. -/
def Metric.usual : Metric := .saturate 10

end LinkState
