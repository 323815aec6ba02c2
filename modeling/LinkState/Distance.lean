import LinkState.ShortestPath.Run

/-!
# Distances

`distance` is the metric between two nodes as the last searches found it. A distance to a router
comes from the routers reached by the source, a distance to a pseudo-node from what the source
found for that pseudo-node; between two pseudo-nodes there is none. An overloaded node makes no
runs and so only reaches itself.
-/

namespace LinkState

variable (t : Topology) (l : Level)

/-- The metric from `x` to `y` as found by the last search from `x`. -/
def distance (f : Findings) (x y : NodeId) : Except Error Metric :=
  match t.nodes.get? x, t.nodes.get? y with
  | none, _ => .error (.unknownNode x)
  | some _, none => .error (.unknownNode y)
  | some source, some target =>
    if x = y then .ok 0
    else if source.isPseudonode l && target.isPseudonode l then
      .error (.pseudonodePair source.name target.name)
    else if source.isOverloaded l then .ok .infinite
    else
      let result := if target.isPseudonode l then f.result? x y else f.destination? x y
      .ok ((result.map (·.metric)).getD .infinite)

/-- Searches from a node so that its distances are known. An overloaded router has none. -/
def computeDistances (n : NodeId) : Compute Unit := do
  let node ← Compute.row (t.nodes.get? n)
  unless node.isOverloaded l && !node.isPseudonode l do
    let _ ← Run.run t n l .forward

end LinkState
