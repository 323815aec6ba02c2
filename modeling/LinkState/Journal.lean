import LinkState.Handle
import LinkState.Level

/-!
# The journal of runs

Every run is numbered, counted for its level and entered at the front of a journal, which keeps
only the latest entries.
-/

namespace LinkState

/-- What a run computes. -/
inductive RunKind where
  /-- The shortest paths and the routing table. -/
  | full
  /-- The shortest paths only. -/
  | forward
  /-- The routing table only, from the shortest paths found before. -/
  | partialRoutes
deriving DecidableEq, Inhabited

/-- The name of a kind of run. -/
def RunKind.name : RunKind → String
  | full => "Full"
  | forward => "Forward"
  | partialRoutes => "PartialRouteCompute"

/-- The entry of a run. -/
structure JournalEntry where
  id : UInt32
  root : NodeId
  level : Level
  kind : RunKind
  /-- The number of routers reached. -/
  reachable : Nat
deriving DecidableEq

/-- The latest runs, and how many there have been. -/
structure Journal where
  /-- The latest runs, the last one first. -/
  entries : List JournalEntry := []
  /-- The number of the last run. After the greatest one comes 0. -/
  lastId : UInt32 := 0
  /-- How many runs there were at each level. -/
  counts : PerLevel UInt64 := .both 0
deriving DecidableEq

namespace Journal

instance : Inhabited Journal := ⟨{}⟩

/-- Enters a run and keeps at most `size` entries. -/
def record (j : Journal) (size : Nat) (root : NodeId) (l : Level) (kind : RunKind)
    (reachable : Nat) : Journal :=
  { entries := (⟨j.lastId + 1, root, l, kind, reachable⟩ :: j.entries).take size
    lastId := j.lastId + 1
    counts := j.counts.modify l (· + 1) }

end Journal

end LinkState
