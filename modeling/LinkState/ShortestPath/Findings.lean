import LinkState.RoutingTable

/-!
# What searches leave behind

For each level the findings hold the labels of the nodes and, for each root, what its last search
reached, how many full runs it made, and its routing table. `Findings.store` enters a search; it
touches the labels and the record of the root only.

What a search found for a node might as well be kept with the node, under the root of the search. It
is the same table of results read by columns: with a node stand the results of all roots for it
(`resultsAt`), with a root those for all nodes (`settled`). A search would then take its root out
at every node before it starts, and enter a node whenever it settles one. As no step of a search
reads a result, and none settles a node twice, what stands under the root in the end is `settled`
and nothing else, so `store` puts it in the place of the old results at once.
-/

namespace LinkState

/-- What is kept for a root at a level. -/
structure RootRecord where
  /-- The nodes that the last search reached, in the order in which they were settled. -/
  settled : List Result := []
  /-- The routers among them. -/
  destinations : List Result := []
  /-- The number of full runs. After the greatest one comes 0. -/
  version : UInt32 := 0
  table : RoutingTable := ∅

instance : Inhabited RootRecord := ⟨{}⟩

/-- What is kept for a level. -/
structure Findings where
  labels : Labels := ∅
  roots : HandleMap RootRecord := ∅

namespace Findings

instance : Inhabited Findings := ⟨{}⟩

/-- The routers that the last search from a root reached, with the root itself. -/
def destinations (f : Findings) (root : NodeId) : List Result := (f.roots.read root).destinations

/-- What the last search from a root found for a router. -/
def destination? (f : Findings) (root n : NodeId) : Option Result :=
  (f.destinations root).find? fun r => r.node == n

/-- What the last search from a root found for any node. -/
def result? (f : Findings) (root n : NodeId) : Option Result :=
  (f.roots.read root).settled.find? fun r => r.node == n

/-- What the last search from each root found for a node, in the order of the roots. -/
def resultsAt (f : Findings) (n : NodeId) : List (NodeId × Result) :=
  f.roots.keys.filterMap fun root => (f.result? root n).map fun r => (root, r)

/-- Enters what a search from a root found. Nothing is left of what an earlier search from this root
found, also for nodes that are no longer reached. -/
def store (f : Findings) (t : Topology) (l : Level) (root : NodeId) (s : Search) : Findings :=
  { labels := s.labels
    roots := f.roots.update root fun r =>
      { r with
        settled := s.settled
        destinations := s.settled.filter fun result => !t.isPseudonode result.node l } }

/-- Counts a full run of a root. -/
def bumpVersion (f : Findings) (root : NodeId) : Findings :=
  { f with roots := f.roots.update root fun r => { r with version := r.version + 1 } }

/-- Rebuilds the routing table of a root from what its last search found. -/
def rebuildTable (f : Findings) (t : Topology) (l : Level) (root : NodeId) : Findings :=
  { f with
    roots := f.roots.update root fun r =>
      { r with table := RoutingTable.rebuild t root l r.destinations r.table } }

end Findings

end LinkState
