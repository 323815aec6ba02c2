import LinkState.Description
import LinkState.Topology.Construct

/-!
# Building what is described

`Description.build` adds the routers, the LANs with their members, the links and the tunnels of a
description to the empty topology, in this order, and stops at the first one that is refused. A LAN
may have an earlier LAN for a member, so each one is added before its members are looked up.
-/

namespace LinkState

/-- Adds a router. -/
def RouterDescription.addTo (d : RouterDescription) (t : Topology) : Except Error Topology := do
  let (n, t) ← t.addRouter d.name d.routerId d.level
  let t := t.modifyNode n fun node =>
    { node with area := d.area, attached := d.attached, networks := d.networks }
  return d.overload.foldl (fun t l => t.setOverload n l true) t

/-- The endpoint at the node of a given name. -/
def resolveEndpoint (t : Topology) (node ifname : String) (address : Option Network) :
    Except Error Endpoint := do
  let n ← t.lookup node
  return { node := n, ifname, address }

/-- Attaches a member to a LAN. -/
def MemberDescription.addTo (d : MemberDescription) (lan : NodeId) (level : LevelType)
    (t : Topology) : Except Error Topology := do
  let endpoint ← resolveEndpoint t d.node d.ifname d.address
  match t.addLanLink endpoint lan d.metric level with
  | (.error e, _) => .error e
  | (.ok (own, _), t) => .ok (t.setProtection own d.protection)

/-- Adds a LAN and its members. -/
def LanDescription.addTo (d : LanDescription) (t : Topology) : Except Error Topology := do
  let (lan, t) ← t.addPseudonode d.name d.level
  d.members.foldlM (fun t member => member.addTo lan d.level t) t

/-- Sets what a link gives to one of its two edges. -/
def LinkDescription.configure (d : LinkDescription) (t : Topology) (e : EdgeId) : Topology :=
  let t := match d.upperMetric with
    | some m => t.setMetric e .l2 m
    | none => t
  t.setProtection e d.protection

/-- Adds a link. -/
def LinkDescription.addTo (d : LinkDescription) (t : Topology) : Except Error Topology := do
  let a ← resolveEndpoint t d.a.node d.a.ifname d.a.address
  let b ← resolveEndpoint t d.b.node d.b.ifname d.b.address
  match t.addLink a b d.metric d.level with
  | (.error e, _) => .error e
  | (.ok (ab, ba), t) =>
    let t := d.configure (d.configure t ab) ba
    .ok (if d.up then t else t.setLinkStatus ab false)

/-- Adds a tunnel. -/
def TunnelDescription.addTo (d : TunnelDescription) (t : Topology) : Except Error Topology := do
  let source ← t.lookup d.source
  let target ← t.lookup d.target
  let (_, t) ← t.addLsp source target d.ifname d.metric d.level
  return t

/-- The topology that is described. -/
def Description.build (d : Description) : Except Error Topology := do
  let t ← d.routers.foldlM (fun t router => router.addTo t) {}
  let t ← d.lans.foldlM (fun t lan => lan.addTo t) t
  let t ← d.links.foldlM (fun t link => link.addTo t) t
  d.tunnels.foldlM (fun t tunnel => tunnel.addTo t) t

end LinkState
