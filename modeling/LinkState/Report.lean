import LinkState.Address.Text
import LinkState.Document.Json
import LinkState.Session

/-!
# Reports

What the command line prints about a root: the routers it reaches, its routes, and the backups for
a protected interface, as lines of text or as a document.
-/

namespace LinkState

/-- What is reported about a root. -/
structure Report where
  root : String
  level : Level
  results : List Result
  routes : List (Network × Route)
  /-- The backups, if an interface is to be protected. -/
  backups : Option (Option RepairRecord) := none

namespace Report

/-- A text followed by blanks up to a width. -/
def padRight (width : Nat) (s : String) : String :=
  s ++ String.ofList (List.replicate (width - s.length) ' ')

/-- A text preceded by blanks up to a width. -/
def padLeft (width : Nat) (s : String) : String :=
  String.ofList (List.replicate (width - s.length) ' ') ++ s

variable (t : Topology)

/-- The interface of the owner of an edge. -/
def ifname (e : EdgeId) : String := ((t.edges.get? e).map (·.source.ifname)).getD ""

/-- The flags of a route. -/
def flags (r : Route) : String :=
  let names := (if r.connected then ["CONNECTED"] else []) ++
    (if r.isDefault then ["DEFAULT"] else []) ++ (if r.stale then ["STALE"] else [])
  "RouteFlags(" ++ (if names.isEmpty then "0x0" else String.intercalate " | " names) ++ ")"

/-- A metric, flush right. -/
def metricText (m : Metric) : String := padLeft 10 (toString m.toNat)

/-- A next hop: its node and the interface that leads there. -/
def nexthopText (n : Nexthop) : String := t.nameOf n.node ++ "/" ++ ifname t n.oif

/-- The line of a reached router, with its next hops of both kinds. -/
def resultLine (r : Result) : String :=
  let nexthops := (r.nexthops.ip.members ++ r.nexthops.lsp.members).map (nexthopText t)
  "  " ++ padRight 16 (t.nameOf r.node) ++ " " ++ metricText r.metric ++ "  " ++
    String.intercalate ", " nexthops

/-- The line of a route. -/
def routeLine (network : Network) (r : Route) : String :=
  "  " ++ padRight 24 network.render ++ " " ++ metricText r.metric ++ "  via " ++
    t.nameOf r.advertiser ++ " [" ++ flags r ++ "]"

/-- The line of an alternate, under the name of its kind. -/
def alternateLine (a : Alternate) : String :=
  "  " ++ padRight 16 (t.nameOf a.destination) ++ " via " ++ padRight 16 (t.nameOf a.node) ++ " " ++
    metricText a.metric ++ "  " ++ a.kind.name

/-- The lines of the backups for an interface. That there are none takes a line as well. -/
def backupLines : Option RepairRecord → List String
  | none => ["  none"]
  | some record => record.alternates.map (alternateLine t)

/-- The report as lines of text. -/
def lines (r : Report) : List String :=
  ["SPF results for " ++ r.root ++ " (level " ++ toString r.level.number ++ "):"] ++
    r.results.map (resultLine t) ++ ["Routes:"] ++
    r.routes.map (fun (network, route) => routeLine t network route) ++
    r.backups.elim [] fun record => "Backups:" :: backupLines t record

/-- A next hop as a document. -/
def nexthopDocument (n : Nexthop) : Document :=
  .table
    [("gateway", Document.ofText? (n.gateway.map Address.render)),
      ("interface", .text (ifname t n.oif)),
      ("node", .text (t.nameOf n.node))]

/-- The next hops of a set, in its order. -/
def nexthopsDocument (s : NexthopSet) : Document := .list (s.members.map (nexthopDocument t))

/-- A reached router as a document. -/
def resultDocument (r : Result) : Document :=
  .table
    [("lsp-nexthops", nexthopsDocument t r.nexthops.lsp),
      ("metric", .ofNat r.metric.toNat),
      ("nexthops", nexthopsDocument t r.nexthops.ip),
      ("node", .text (t.nameOf r.node))]

/-- A route as a document. It lists the next hops over links only. -/
def routeDocument (network : Network) (r : Route) : Document :=
  .table
    [("advertiser", .text (t.nameOf r.advertiser)),
      ("metric", .ofNat r.metric.toNat),
      ("nexthops", nexthopsDocument t r.nexthops.ip),
      ("prefix", .text network.render)]

/-- An alternate as a document. -/
def alternateDocument (a : Alternate) : Document :=
  .table
    [("alternate", .text (t.nameOf a.node)),
      ("destination", .text (t.nameOf a.destination)),
      ("interface", .text (ifname t a.nexthop.oif)),
      ("metric", .ofNat a.metric.toNat),
      ("nexthop", .text (t.nameOf a.nexthop.node)),
      ("type", .text a.kind.name)]

/-- The report as a document. -/
def toDocument (r : Report) : Document :=
  let backups := r.backups.elim [] fun record =>
    [("backups", Document.list ((Repair.alternatesOf record).map (alternateDocument t)))]
  .table (backups ++
    [("level", .text r.level.name),
      ("results", .list (r.results.map (resultDocument t))),
      ("root", .text r.root),
      ("routes", .list (r.routes.map fun (network, route) => routeDocument t network route))])

/-- The text of the report, ended by a line end. -/
def render (r : Report) (asJson : Bool) : String :=
  if asJson then Json.pretty "" (r.toDocument t) ++ "\n"
  else String.join ((r.lines t).map (· ++ "\n"))

end Report

end LinkState
