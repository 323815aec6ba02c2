import LinkState.ShortestPath.Search

/-!
# Routing tables

The routing table of a root has a route for every network that a reached node announces, and, at
level 1, default routes toward the closest attached routers. It is rebuilt from the results of a
search: the routes of the old table are marked stale, the `contributions` of the results are
installed one after the other, and what is still stale is removed.

Of two routes to one network the cheaper one stays; at the same metric the next hops of the later
one are added to those of the earlier one.
-/

namespace LinkState

/-- A route to a network. -/
structure Route where
  metric : Metric
  level : Level
  /-- The closest node that announces the network. -/
  advertiser : NodeId
  nexthops : Nexthops
  /-- Whether the root itself announces the network. -/
  connected : Bool := false
  /-- Whether this is a default route toward an attached router. -/
  isDefault : Bool := false
  /-- Whether the route is left over from an earlier table. -/
  stale : Bool := false
deriving DecidableEq

/-- The routes of a root, in the order of their networks. -/
abbrev RoutingTable := Std.TreeMap Network Route

namespace RoutingTable

/-- The route that a search result gives to a network of its node. -/
def routeOf (root : NodeId) (l : Level) (isDefault : Bool) (r : Result) : Route :=
  { metric := r.metric
    level := l
    advertiser := r.node
    nexthops := r.nexthops
    connected := r.node == root
    isDefault }

/-- Adds a route. -/
def install (table : RoutingTable) (network : Network) (route : Route) : RoutingTable :=
  match table[network]? with
  | none => table.insert network route
  | some current =>
    if current.stale || route.metric < current.metric then table.insert network route
    else if current.metric = route.metric then
      table.insert network { current with nexthops := current.nexthops.extend route.nexthops }
    else table

/-- The routes to the networks that the reached nodes announce. -/
def announced (t : Topology) (root : NodeId) (l : Level) (results : List Result) :
    List (Network × Route) :=
  results.flatMap fun r =>
    ((t.nodes.get? r.node).elim [] (·.networks)).map fun n => (n, routeOf root l false r)

/-- Whether a node announces to routers of level 1 that it reaches the other areas. -/
def isAttached (t : Topology) (n : NodeId) : Bool := (t.nodes.get? n).any (·.isAttached)

/-- The results of the attached routers that are closest to the root. -/
def closestAttached (t : Topology) (root : NodeId) (results : List Result) : List Result :=
  match results.filter fun r => r.node != root && isAttached t r.node with
  | [] => []
  | r :: rs => r :: rs.takeWhile fun s => s.metric == r.metric

/-- The default routes of a root: none at level 2, nor for a router that is attached itself. -/
def defaults (t : Topology) (root : NodeId) (l : Level) (results : List Result) :
    List (Network × Route) :=
  if l = .l1 ∧ !isAttached t root then
    (closestAttached t root results).flatMap fun r =>
      [(.anyV4, routeOf root l true r), (.anyV6, routeOf root l true r)]
  else []

/-- All routes that the results of a search give, in the order in which they are installed. -/
def contributions (t : Topology) (root : NodeId) (l : Level) (results : List Result) :
    List (Network × Route) :=
  announced t root l results ++ defaults t root l results

/-- The table with every route marked, as it is before the routes of a run are installed. -/
def markStale (table : RoutingTable) : RoutingTable := table.map fun _ r => { r with stale := true }

/-- The table without the routes that no longer hold. -/
def removeStale (table : RoutingTable) : RoutingTable := table.filter fun _ r => !r.stale

/-- The table of a root after a search with the given results. -/
def rebuild (t : Topology) (root : NodeId) (l : Level) (results : List Result)
    (old : RoutingTable) : RoutingTable :=
  removeStale ((contributions t root l results).foldl (fun table c => install table c.1 c.2)
    (markStale old))

/-- The default routes of a table, in the order of their networks. -/
def defaultRoutes (table : RoutingTable) : List Route := table.values.filter (·.isDefault)

end RoutingTable

end LinkState
