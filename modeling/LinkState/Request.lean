import LinkState.Session

/-!
# Requests

A `Request` changes the topology, replaces the settings, renews the session, or asks for a
computation. `Session.serve` serves one and answers it or says why it fails; `Session.after` is the
session after a history of requests, whether they succeeded or not. What the requests of a history
can read is only the session, so a statement about every session that can come about is one about
`after` (`Session.after_induction`).
-/

namespace LinkState

/-- A computation that a session can be asked for. -/
inductive Computation where
  /-- A run from a root. -/
  | run (root : NodeId) (level : Level) (kind : RunKind)
  /-- The P-space of a root for a protected edge. -/
  | nearSpace (root : NodeId) (edge : EdgeId) (level : Level)
  /-- The extended P-space. -/
  | extendedSpace (root : NodeId) (edge : EdgeId) (level : Level)
  /-- The Q-space of the far end of a protected edge. -/
  | farSpace (root : NodeId) (edge : EdgeId) (level : Level)
  /-- The PQ-space. -/
  | commonSpace (root : NodeId) (edge : EdgeId) (level : Level)
  /-- The loop-free alternates. -/
  | loopFree (root : NodeId) (edge : EdgeId) (level : Level) (strict : Bool)
  /-- The remote alternates. -/
  | remote (root : NodeId) (edge : EdgeId) (level : Level) (strict : Bool)
  /-- The alternates that the settings ask for. -/
  | backups (root : NodeId) (edge : EdgeId) (level : Level)

/-- What a session can be asked to do: change the topology, take other settings, start afresh on
the same topology, or compute. -/
inductive Request where
  | change (c : Change)
  | configure (settings : Settings)
  | renew (settings : Settings)
  | compute (c : Computation)

/-- The answer to a request. -/
inductive Answer where
  | created (c : Created)
  | results (rs : List Result)
  | space (s : RepairSpace)
  | nodes (s : NodeSet)
  | record (r : Option RepairRecord)

/-- The computation on a topology that is asked for. -/
def Computation.on (t : Topology) : Computation → Compute Answer
  | run root l kind => .results <$> Run.run t root l kind
  | nearSpace root e l => .space <$> Repair.nearSpace t l root e
  | extendedSpace root e l => .space <$> Repair.extendedSpace t l root e
  | farSpace root e l => .nodes <$> Repair.farSpace t l root e
  | commonSpace root e l => .space <$> Repair.commonSpace t l root e
  | loopFree root e l strict => .record <$> Repair.loopFree t l root e strict
  | remote root e l strict => .record <$> Repair.remote t l root e strict
  | backups root e l => .record <$> Repair.backups t l root e

namespace Session

/-- Serves a request. -/
def serve (s : Session) : Request → Except Failure Answer × Session
  | .change c =>
    let (created, s) := s.change c
    (created.map .created, s)
  | .configure settings => (.ok (.created .nothing), s.configure settings)
  | .renew settings => (.ok (.created .nothing), s.renew settings)
  | .compute c => s.compute fun t => c.on t

/-- The session after a history of requests. -/
def after (s : Session) (history : List Request) : Session :=
  history.foldl (fun s r => (s.serve r).2) s

@[simp] theorem after_nil (s : Session) : s.after [] = s := rfl

theorem after_append (s : Session) (h h' : List Request) :
    s.after (h ++ h') = (s.after h).after h' :=
  List.foldl_append

theorem after_concat (s : Session) (history : List Request) (r : Request) :
    s.after (history ++ [r]) = ((s.after history).serve r).2 :=
  s.after_append history [r]

/-- What holds of a session and is kept by every request holds after every history. -/
theorem after_induction {P : Session → Prop} (keep : ∀ s r, P s → P (s.serve r).2) {s : Session}
    (h : P s) (history : List Request) : P (s.after history) := by
  induction history generalizing s with
  | nil => exact h
  | cons r history ih => exact ih (keep s r h)

end Session

end LinkState
