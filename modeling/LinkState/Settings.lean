/-!
# Settings
-/

namespace LinkState

/-- The settings of the computations. -/
structure Settings where
  /-- How many runs the journal keeps. -/
  journalSize : Nat := 32
  /-- Whether only downstream alternates are accepted. -/
  strictDownstream : Bool := false
  /-- Whether remote alternates are searched for destinations without a local one. -/
  remoteRepair : Bool := true
deriving DecidableEq, Inhabited

end LinkState
