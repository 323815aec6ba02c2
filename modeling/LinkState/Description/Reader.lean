import LinkState.Address.Text
import LinkState.Description
import LinkState.Document.Json
import LinkState.Document.Record
import LinkState.Document.Toml
import LinkState.Settings

/-!
# Reading descriptions and settings

Descriptions and settings are written in TOML or in JSON. Both are read as a document first and
decoded as records; an error of either step makes the text malformed.
-/

namespace LinkState

open Document

variable (dialect : Dialect)

/-- Reads the levels in which something takes part, by name. -/
def LevelType.ofDocument? : Document → Option LevelType :=
  choice? dialect [("L1", .l1), ("L2", .l2), ("All", .all)]

/-- Reads one level, by name. -/
def Level.ofDocument? : Document → Option Level := choice? dialect [("L1", .l1), ("L2", .l2)]

/-- Reads what a failure must not take away, by name. -/
def Protection.ofDocument? : Document → Option Protection :=
  choice? dialect [("none", .none), ("link", .link), ("link-and-node", .linkAndNode)]

/-- Reads a metric. Every number of 32 bits is one, and no other number. -/
def Metric.ofDocument? (d : Document) : Option Metric := do
  Metric.ofNat? (← natUpTo? 4294967295 d)

/-- Reads an address with a prefix length, which is that of a host if none is written. -/
def Network.ofDocument? (d : Document) : Option Network := do Network.ofString? (← text? d)

/-- Reads a router id, four numbers with dots between. -/
def IPv4.ofDocument? (d : Document) : Option IPv4 := do IPv4.ofString? (← text? d)

/-- Reads a router. A router without a level takes part in both. -/
def RouterDescription.ofDocument? (d : Document) : Option RouterDescription := do
  match ← fields? dialect
    ["name", "router-id", "area", "level", "overload", "attached", "prefixes"] d with
  | [name, routerId, area, level, overload, attached, networks] =>
    some
      { name := ← required? text? name
        routerId := ← required? IPv4.ofDocument? routerId
        area := ← optional? text? area
        level := ← withDefault? .all (LevelType.ofDocument? dialect) level
        overload := ← withDefault? [] (listOf? (Level.ofDocument? dialect)) overload
        attached := ← withDefault? false bool? attached
        networks := ← withDefault? [] (listOf? Network.ofDocument?) networks }
  | _ => none

/-- Reads a member of a LAN. -/
def MemberDescription.ofDocument? (d : Document) : Option MemberDescription := do
  match ← fields? dialect ["node", "ifname", "prefix", "metric", "protection"] d with
  | [node, ifname, address, metric, protection] =>
    some
      { node := ← required? text? node
        ifname := ← required? text? ifname
        address := ← optional? Network.ofDocument? address
        metric := ← withDefault? .usual Metric.ofDocument? metric
        protection := ← withDefault? .none (Protection.ofDocument? dialect) protection }
  | _ => none

/-- Reads a LAN, whose members have to be listed, if only as none. -/
def LanDescription.ofDocument? (d : Document) : Option LanDescription := do
  match ← fields? dialect ["name", "level", "members"] d with
  | [name, level, members] =>
    some
      { name := ← required? text? name
        level := ← withDefault? .all (LevelType.ofDocument? dialect) level
        members := ← required? (listOf? (MemberDescription.ofDocument? dialect)) members }
  | _ => none

/-- Reads an end of a link. -/
def EndDescription.ofDocument? (d : Document) : Option EndDescription := do
  match ← fields? dialect ["node", "ifname", "prefix"] d with
  | [node, ifname, address] =>
    some
      { node := ← required? text? node
        ifname := ← required? text? ifname
        address := ← optional? Network.ofDocument? address }
  | _ => none

/-- Reads a link. It is up unless it says otherwise. -/
def LinkDescription.ofDocument? (d : Document) : Option LinkDescription := do
  match ← fields? dialect ["a", "b", "metric", "l2-metric", "level", "up", "protection"] d with
  | [a, b, metric, upperMetric, level, up, protection] =>
    some
      { a := ← required? (EndDescription.ofDocument? dialect) a
        b := ← required? (EndDescription.ofDocument? dialect) b
        metric := ← withDefault? .usual Metric.ofDocument? metric
        upperMetric := ← optional? Metric.ofDocument? upperMetric
        level := ← withDefault? .all (LevelType.ofDocument? dialect) level
        up := ← withDefault? true bool? up
        protection := ← withDefault? .none (Protection.ofDocument? dialect) protection }
  | _ => none

/-- Reads a tunnel. -/
def TunnelDescription.ofDocument? (d : Document) : Option TunnelDescription := do
  match ← fields? dialect ["from", "to", "ifname", "metric", "level"] d with
  | [source, target, ifname, metric, level] =>
    some
      { source := ← required? text? source
        target := ← required? text? target
        ifname := ← required? text? ifname
        metric := ← withDefault? .usual Metric.ofDocument? metric
        level := ← withDefault? .all (LevelType.ofDocument? dialect) level }
  | _ => none

/-- Reads a description. A list that is missing is empty. -/
def Description.ofDocument? (d : Document) : Option Description := do
  match ← fields? dialect ["nodes", "lans", "links", "lsps"] d with
  | [routers, lans, links, tunnels] =>
    some
      { routers := ← withDefault? [] (listOf? (RouterDescription.ofDocument? dialect)) routers
        lans := ← withDefault? [] (listOf? (LanDescription.ofDocument? dialect)) lans
        links := ← withDefault? [] (listOf? (LinkDescription.ofDocument? dialect)) links
        tunnels := ← withDefault? [] (listOf? (TunnelDescription.ofDocument? dialect)) tunnels }
  | _ => none

/-- Reads settings. What is missing is as in the settings of a new session. -/
def Settings.ofDocument? (d : Document) : Option Settings := do
  match ← fields? dialect ["spf_log_max_size", "strict_downstream", "rlfa_enabled"] d with
  | [journalSize, strictDownstream, remoteRepair] =>
    some
      { journalSize := ← withDefault? 32 (natUpTo? 18446744073709551615) journalSize
        strictDownstream := ← withDefault? false bool? strictDownstream
        remoteRepair := ← withDefault? true bool? remoteRepair }
  | _ => none

/-- Reads a description written in TOML. -/
def Description.ofToml (s : String) : Except Error Description :=
  match (Toml.read s).bind (Description.ofDocument? .toml) with
  | some d => .ok d
  | none => .error (.description .badToml)

/-- Reads a description written in JSON. -/
def Description.ofJson (s : String) : Except Error Description :=
  match (Json.read s).bind (Description.ofDocument? .json) with
  | some d => .ok d
  | none => .error (.description .badJson)

/-- Reads settings written in TOML. -/
def Settings.ofToml? (s : String) : Option Settings :=
  (Toml.read s).bind (Settings.ofDocument? .toml)

/-- Reads settings written in JSON. -/
def Settings.ofJson? (s : String) : Option Settings :=
  (Json.read s).bind (Settings.ofDocument? .json)

end LinkState
