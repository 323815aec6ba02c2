import LinkState.Frontier
import LinkState.Handle
import LinkState.Level

/-!
# Errors and faults

An `Error` is a cause for which a request is refused, with what it concerns; `Error.message` words
it. A `Fault` is a violated assertion: the caller named a row that does not exist, asked to protect
a tunnel, or a search met a state that it must never meet. A `Failure` is either.
-/

namespace LinkState

/-- Why a description could not be read. -/
inductive DescriptionError where
  | unreadable (path : String)
  | badToml
  | badJson
  | unknownFormat (path : String)
deriving DecidableEq

/-- Why a request is refused, with the names or handles it is about. -/
inductive Error where
  | description (cause : DescriptionError)
  | invalidLevel (number : Nat)
  | duplicateNode (name : String)
  | duplicateInterface (node ifname : String)
  | nodeNotFound (name : String)
  | unknownNode (node : NodeId)
  | edgeNotFound (node ifname : String)
  | unknownEdge (edge : EdgeId)
  | rootOverloaded (node : String) (level : Level)
  | rootPseudonode (node : String) (level : Level)
  | rootLevelMismatch (node : String) (level : Level)
  | pseudonodePair (source destination : String)
  | edgeNotLocal (node ifname : String)
  | edgeInactive (node ifname : String) (level : Level)
deriving DecidableEq

def DescriptionError.message : DescriptionError → String
  | unreadable _ => "failed to read topology file"
  | badToml => "failed to parse TOML topology"
  | badJson => "failed to parse JSON topology"
  | unknownFormat _ => "unknown topology file format"

def Error.message : Error → String
  | description cause => cause.message
  | invalidLevel _ => "invalid level number"
  | duplicateNode _ => "duplicate node name"
  | duplicateInterface .. => "duplicate interface name"
  | nodeNotFound _ => "node not found"
  | unknownNode _ => "node index not found"
  | edgeNotFound .. => "edge not found"
  | unknownEdge _ => "edge index not found"
  | rootOverloaded .. => "SPF root is overloaded"
  | rootPseudonode .. => "SPF root is a pseudo-node"
  | rootLevelMismatch .. => "SPF root doesn't participate in the level"
  | pseudonodePair .. => "distance between two pseudo-nodes is undefined"
  | edgeNotLocal .. => "protected edge doesn't belong to the computing node"
  | edgeInactive .. => "protected edge isn't active in the level"

/-- A handle in full, as the trace and the faults show it. -/
def Handle.describe (h : Handle) : String :=
  "Index \x7b index: " ++ toString h.position ++ ", generation: " ++ toString h.generation ++
    " \x7d"

/-- An assertion that a computation violates. -/
inductive Fault where
  /-- A handle that names no row was used as if it did. -/
  | noSuchRow
  /-- The frontier was used wrongly by a search. -/
  | frontier (misuse : Frontier.Misuse NodeId)
  /-- A search started with members left in the frontier. -/
  | frontierNotEmpty
  /-- A node left the frontier without being marked as a member. -/
  | notQueued (node : String)
  /-- The edge to protect is a tunnel. -/
  | tunnelProtected (ifname : String)

def Fault.message : Fault → String
  | noSuchRow => "No element at index"
  | frontier misuse => misuse.message Handle.describe
  | frontierNotEmpty => "candidate tree isn't empty"
  | notQueued node => node ++ " isn't on the heap"
  | tunnelProtected ifname => "protected edge " ++ ifname ++ " isn't a unicast edge"

/-- Why an operation did not succeed. -/
inductive Failure where
  | error (e : Error)
  | fault (f : Fault)

end LinkState
