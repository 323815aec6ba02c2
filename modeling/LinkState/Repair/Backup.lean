import LinkState.Repair.LoopFree
import LinkState.Repair.Remote

/-!
# Backups

The backups for a protected edge are its loop-free alternates and, if the settings ask for them,
the remote alternates for the destinations that are left without one.
-/

namespace LinkState.Repair

variable (t : Topology) (l : Level)

/-- The alternates of a record followed by those of another one for other destinations. -/
def supplement (alternates : List Alternate) (remote : List Alternate) : List Alternate :=
  alternates ++ remote.filter fun a => !alternates.any fun b => b.destination == a.destination

/-- The alternates of a record, none if there is no record. -/
def alternatesOf (r : Option RepairRecord) : List Alternate := r.elim [] (·.alternates)

/-- The backups for a protected edge of a root, if there are any. -/
def backups (root : NodeId) (e : EdgeId) : Compute (Option RepairRecord) := do
  let settings := (← get).settings
  let near ← loopFree t l root e settings.strictDownstream
  if !settings.remoteRepair then return near
  else
    let far ← remote t l root e settings.strictDownstream
    return RepairRecord.nonempty? ⟨e, l, supplement (alternatesOf near) (alternatesOf far)⟩

end LinkState.Repair
