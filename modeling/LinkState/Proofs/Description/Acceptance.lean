import LinkState.Proofs.Description.Parts

/-!
# Consistent descriptions

A description is `Consistent` if its names are distinct, every reference is to a node that is
described, by a member of a LAN to one that comes no later than this LAN, and no two unicast edges
are to leave a node through the same interface. The pseudo-node of a LAN has an interface for each
member, which is named after both; a tunnel may have any interface.

A description can be built if and only if it is consistent, and what is built is then
`Description.topology`, row by row (`Description.build_eq_ok_iff`): the four loops of `build` each
go on with what the one before has left, and each of their steps succeeds if and only if what has
been added is still consistent.
-/

namespace LinkState

open LinkState.Topology

namespace Description

/-! ## What is described -/

/-- The names of the nodes, in the order of the nodes. -/
def names (d : Description) : List String := d.routers.map (·.name) ++ d.lans.map (·.name)

/-- The node that has a name. -/
def handle (d : Description) (name : String) : NodeId := handleIn d.names name

/-- The members of all LANs, each with its LAN. -/
def memberships (d : Description) : List (LanDescription × MemberDescription) :=
  d.lans.flatMap fun lan => lan.members.map (lan, ·)

/-- The interfaces that the edges of LANs and links leave through, each with the name of its
owner. -/
def interfaces (d : Description) : List (String × String) :=
  (d.memberships.flatMap fun (lan, m) =>
    [(m.node, m.ifname), (lan.name, lan.name ++ "-" ++ m.node)]) ++
  d.links.flatMap fun k => [(k.a.node, k.a.ifname), (k.b.node, k.b.ifname)]

/-- Every member of a LAN is one of the nodes that are known, or a LAN that comes no later. -/
def MembersKnown (known : List String) (lans : List LanDescription) : Prop :=
  ∀ i lan, lans[i]? = some lan → ∀ m ∈ lan.members,
    m.node ∈ known ++ (lans.take (i + 1)).map (·.name)

/-- A description that can be built. -/
structure Consistent (d : Description) : Prop where
  names : d.names.Nodup
  members : MembersKnown (d.routers.map (·.name)) d.lans
  links : ∀ k ∈ d.links, k.a.node ∈ d.names ∧ k.b.node ∈ d.names
  tunnels : ∀ u ∈ d.tunnels, u.source ∈ d.names ∧ u.target ∈ d.names
  interfaces : d.interfaces.Nodup

/-- The nodes: the routers, then the LANs. -/
def nodes (d : Description) : List Node := d.routers.map (·.node) ++ d.lans.map (·.node)

/-- The wires: those of the LANs, then the links. -/
def wires (d : Description) : List Wire :=
  d.lans.flatMap (·.wires d.names) ++ d.links.map (·.wire d.names)

/-- The topology that is described. -/
def topology (d : Description) : Topology :=
  ofRows d.nodes (laid 0 d.wires ++ d.tunnels.map (·.edge d.names))

variable {d : Description} {t : Topology} {known : List String} {lans : List LanDescription}

theorem names_rows (rs : List RouterDescription) (lans : List LanDescription) :
    (rs.map (·.node) ++ lans.map (·.node)).map (·.name) =
      rs.map (·.name) ++ lans.map (·.name) := by
  simp [RouterDescription.node, LanDescription.node, Function.comp_def]

theorem names_nodes (d : Description) : d.nodes.map (·.name) = d.names := names_rows ..

theorem names_known (d : Description) : d.nodes.map (·.name) <+: d.names :=
  d.names_nodes ▸ List.prefix_rfl

theorem membersKnown_concat {lan : LanDescription} :
    MembersKnown known (lans ++ [lan]) ↔ MembersKnown known lans ∧
      ∀ m ∈ lan.members, m.node ∈ known ++ (lans ++ [lan]).map (·.name) := by
  have hall : (lans ++ [lan]).take (lans.length + 1) = lans ++ [lan] :=
    List.take_of_length_le (by simp)
  have hbefore : ∀ i, i < lans.length → (lans ++ [lan])[i]? = lans[i]? ∧
      (lans ++ [lan]).take (i + 1) = lans.take (i + 1) := fun i hi =>
    ⟨List.getElem?_append_left hi, List.take_append_of_le_length hi⟩
  constructor
  · intro h
    refine ⟨fun i lan' hi m hm => ?_, fun m hm => ?_⟩
    · obtain ⟨hget, htake⟩ := hbefore i (List.getElem?_eq_some_iff.1 hi).1
      exact htake ▸ h i lan' (hget.trans hi) m hm
    · exact hall ▸ h lans.length lan (by simp) m hm
  · rintro ⟨h, hlan⟩ i lan' hi m hm
    rcases Nat.lt_or_ge i lans.length with hlt | hge
    · obtain ⟨hget, htake⟩ := hbefore i hlt
      exact htake ▸ h i lan' (hget ▸ hi) m hm
    · obtain rfl : i = lans.length := by
        have := (List.getElem?_eq_some_iff.1 hi).1
        simp only [List.length_append, List.length_singleton] at this
        omega
      obtain rfl : lan = lan' := by simpa using hi
      exact hall.symm ▸ hlan m hm

/-! ## The four loops -/

theorem foldlM_routers (rs : List RouterDescription) :
    rs.foldlM (fun t r => r.addTo t) {} = .ok t ↔
      (rs.map (·.name)).Nodup ∧ t = ofRows (rs.map (·.node)) [] := by
  refine except_foldlM_eq_ok_iff (fun t (r : RouterDescription) => r.addTo t)
    (fun rs => ofRows (rs.map (·.node)) []) (fun rs => (rs.map (·.name)).Nodup) rs
    List.nodup_nil (fun rs r h => ?_) fun rs r _ h t => ?_
  · rw [List.map_append] at h
    exact h.of_append_left
  · have hnames : (rs.map (·.node)).map (·.name) = rs.map (·.name) := List.map_map ..
    have hnew : ((rs ++ [r]).map (·.name)).Nodup ↔ r.name ∉ rs.map (·.name) := by
      rw [← List.concat_eq_append, List.map_concat, List.nodup_concat, and_iff_left h]
    rw [r.addTo_ofRows, hnames, hnew, List.map_append, List.map_singleton]

theorem foldlM_lans (d : Description) (hrouters : (d.routers.map (·.name)).Nodup) :
    d.lans.foldlM (fun t lan => lan.addTo t) (ofRows (d.routers.map (·.node)) []) = .ok t ↔
      (d.names.Nodup ∧ MembersKnown (d.routers.map (·.name)) d.lans ∧
        ((d.lans.flatMap (·.wires d.names)).flatMap Wire.interfaces).Nodup) ∧
      t = ofRows d.nodes (laid 0 (d.lans.flatMap (·.wires d.names))) := by
  have hall := except_foldlM_eq_ok_iff (s := t) (fun t (lan : LanDescription) => lan.addTo t)
    (fun lans => ofRows (d.routers.map (·.node) ++ lans.map (·.node))
      (laid 0 (lans.flatMap (·.wires d.names))))
    (fun lans => (d.routers.map (·.name) ++ lans.map (·.name)).Nodup ∧
      MembersKnown (d.routers.map (·.name)) lans ∧
        ((lans.flatMap (·.wires d.names)).flatMap Wire.interfaces).Nodup)
    d.lans ⟨by simpa using hrouters, nofun, List.nodup_nil⟩ (fun lans lan h => ?_)
    fun lans lan hlans h t => ?_
  · rw [List.map_nil, List.append_nil] at hall
    exact hall
  · obtain ⟨hnames, hmembers, hnodup⟩ := h
    rw [List.map_append, ← List.append_assoc] at hnames
    rw [List.flatMap_append, List.flatMap_append] at hnodup
    exact ⟨hnames.of_append_left, (membersKnown_concat.1 hmembers).1, hnodup.of_append_left⟩
  · obtain ⟨hnames, hmembers, hnodup⟩ := h
    have hrows : (d.routers.map (·.node) ++ lans.map (·.node) ++ [lan.node]).map (·.name) =
        d.routers.map (·.name) ++ (lans ++ [lan]).map (·.name) := by
      rw [List.append_assoc, ← List.map_singleton (f := LanDescription.node), ← List.map_append,
        names_rows]
    have hsofar : d.routers.map (·.name) ++ (lans ++ [lan]).map (·.name) <+: d.names :=
      (List.prefix_append_right_inj _).2 (hlans.map _)
    rw [lan.addTo_ofRows (hrows ▸ hsofar) (interfaces_laid .. ▸ hnodup), names_rows, hrows,
      interfaces_laid, List.flatMap_append, List.flatMap_append, List.flatMap_singleton,
      laid_append, length_laid, membersKnown_concat, List.map_append, List.map_append,
      List.map_singleton, List.map_singleton, ← List.append_assoc, ← List.append_assoc,
      ← List.concat_eq_append, List.nodup_concat, and_iff_left hnames, and_iff_right hmembers,
      Nat.zero_add]
    tauto

theorem foldlM_links (d : Description) (hlans :
      ((d.lans.flatMap (·.wires d.names)).flatMap Wire.interfaces).Nodup) :
    d.links.foldlM (fun t k => k.addTo t)
        (ofRows d.nodes (laid 0 (d.lans.flatMap (·.wires d.names)))) = .ok t ↔
      ((∀ k ∈ d.links, k.a.node ∈ d.names ∧ k.b.node ∈ d.names) ∧
        (d.wires.flatMap Wire.interfaces).Nodup) ∧
      t = ofRows d.nodes (laid 0 d.wires) := by
  rw [foldlM_wires _ (·.wire d.names) (fun k => k.a.node ∈ d.names ∧ k.b.node ∈ d.names)
    (fun es k t hes => d.names_nodes ▸ k.addTo_ofRows List.prefix_rfl hes) d.links
    (interfaces_laid .. ▸ hlans), interfaces_laid, wires, List.flatMap_append, laid_append,
    length_laid, Nat.zero_add]

theorem foldlM_tunnels (d : Description) (es : List Edge) :
    d.tunnels.foldlM (fun t u => u.addTo t) (ofRows d.nodes es) = .ok t ↔
      (∀ u ∈ d.tunnels, u.source ∈ d.names ∧ u.target ∈ d.names) ∧
      t = ofRows d.nodes (es ++ d.tunnels.map (·.edge d.names)) := by
  have hall := except_foldlM_eq_ok_iff (s := t) (fun t (u : TunnelDescription) => u.addTo t)
    (fun us => ofRows d.nodes (es ++ us.map (·.edge d.names)))
    (fun us => ∀ u ∈ us, u.source ∈ d.names ∧ u.target ∈ d.names) d.tunnels nofun
    (fun us u h v hv => h v (List.mem_append_left _ hv)) fun us u _ h t => ?_
  · rw [List.map_nil, List.append_nil] at hall
    exact hall
  · rw [u.addTo_ofRows d.names_known, names_nodes, List.forall_mem_append,
      List.forall_mem_singleton, and_iff_right h, List.map_append, List.map_singleton,
      List.append_assoc]

/-! ## Interfaces -/

theorem flatMap_wires (d : Description) : d.lans.flatMap (·.wires d.names) =
    d.memberships.map fun (lan, m) => m.wire d.names lan := by
  simp [memberships, LanDescription.wires, List.map_flatMap, Function.comp_def]

theorem flatMap_interfaces_wires (d : Description) : d.wires.flatMap Wire.interfaces =
    d.interfaces.map fun p => (d.handle p.1, p.2) := by
  rw [wires, flatMap_wires, List.flatMap_append, List.flatMap_map, List.flatMap_map, interfaces,
    List.map_append, List.map_flatMap, List.map_flatMap]
  rfl

/-- Every owner of an interface is described. -/
theorem owner_mem (hmembers : MembersKnown (d.routers.map (·.name)) d.lans)
    (hlinks : ∀ k ∈ d.links, k.a.node ∈ d.names ∧ k.b.node ∈ d.names) :
    ∀ p ∈ d.interfaces, p.1 ∈ d.names := by
  intro p hp
  rcases List.mem_append.1 hp with hp | hp
  · obtain ⟨⟨lan, m⟩, hmember, hp⟩ := List.mem_flatMap.1 hp
    obtain ⟨lan, hlan, hmember⟩ := List.mem_flatMap.1 hmember
    obtain ⟨m, hm, hpair⟩ := List.mem_map.1 hmember
    cases hpair
    rcases List.mem_pair.1 hp with rfl | rfl
    · obtain ⟨i, hi⟩ := List.mem_iff_getElem?.1 hlan
      rcases List.mem_append.1 (hmembers i lan hi m hm) with hrouter | hlater
      · exact List.mem_append_left _ hrouter
      · exact List.mem_append_right _ (((List.take_sublist ..).map _).subset hlater)
    · exact List.mem_append_right _ (List.mem_map_of_mem hlan)
  · obtain ⟨k, hk, hp⟩ := List.mem_flatMap.1 hp
    rcases List.mem_pair.1 hp with rfl | rfl
    · exact (hlinks k hk).1
    · exact (hlinks k hk).2

theorem nodup_interfaces_wires (howner : ∀ p ∈ d.interfaces, p.1 ∈ d.names) :
    (d.wires.flatMap Wire.interfaces).Nodup ↔ d.interfaces.Nodup := by
  rw [flatMap_interfaces_wires]
  refine ⟨List.Nodup.of_map _, fun h => h.map_on fun p hp q _ hpq => ?_⟩
  obtain ⟨hhandle, hname⟩ := Prod.ext_iff.1 hpq
  exact Prod.ext ((handleIn_inj (howner p hp)).1 hhandle) hname

/-! ## Building -/

/-- **What can be built, and what is built.** -/
theorem build_eq_ok_iff : d.build = .ok t ↔ d.Consistent ∧ t = d.topology := by
  unfold build
  constructor
  · intro h
    obtain ⟨t₁, h₁, h⟩ := except_bind_eq_ok.1 h
    obtain ⟨hrouters, rfl⟩ := (foldlM_routers _).1 h₁
    obtain ⟨t₂, h₂, h⟩ := except_bind_eq_ok.1 h
    obtain ⟨⟨hnames, hmembers, hlans⟩, rfl⟩ := (d.foldlM_lans hrouters).1 h₂
    obtain ⟨t₃, h₃, h⟩ := except_bind_eq_ok.1 h
    obtain ⟨⟨hlinks, hwires⟩, rfl⟩ := (d.foldlM_links hlans).1 h₃
    obtain ⟨htunnels, rfl⟩ := (d.foldlM_tunnels _).1 h
    have hinterfaces := (nodup_interfaces_wires (owner_mem hmembers hlinks)).1 hwires
    exact ⟨⟨hnames, hmembers, hlinks, htunnels, hinterfaces⟩, rfl⟩
  · rintro ⟨h, rfl⟩
    have hwires := (nodup_interfaces_wires (owner_mem h.members h.links)).2 h.interfaces
    have hlans : ((d.lans.flatMap (·.wires d.names)).flatMap Wire.interfaces).Nodup := by
      rw [wires, List.flatMap_append] at hwires
      exact hwires.of_append_left
    have hrouters : (d.routers.map (·.name)).Nodup := h.names.of_append_left
    exact except_bind_eq_ok.2 ⟨_, (foldlM_routers _).2 ⟨hrouters, rfl⟩,
      except_bind_eq_ok.2 ⟨_, (d.foldlM_lans hrouters).2 ⟨⟨h.names, h.members, hlans⟩, rfl⟩,
        except_bind_eq_ok.2 ⟨_, (d.foldlM_links hlans).2 ⟨⟨h.links, hwires⟩, rfl⟩,
          (d.foldlM_tunnels _).2 ⟨h.tunnels, rfl⟩⟩⟩⟩

/-- The nodes and edges of a topology are the ones that a description says, in its order: the
routers, then the LANs; two edges for each member of a LAN, two for each link, and one for each
tunnel. -/
structure Represents (d : Description) (t : Topology) : Prop where
  nodes : t.nodes.size = d.routers.length + d.lans.length
  router : ∀ i r, d.routers[i]? = some r → t.nodes.get? ⟨i, 0⟩ = some r.node
  lan : ∀ i lan, d.lans[i]? = some lan →
    t.nodes.get? ⟨d.routers.length + i, 0⟩ = some lan.node
  /-- The handle of a name, which the edges refer to. -/
  lookup : ∀ name ∈ d.names, t.lookup name = .ok (d.handle name)
  edges : t.edges.size = 2 * d.memberships.length + 2 * d.links.length + d.tunnels.length
  member : ∀ i lan m, d.memberships[i]? = some (lan, m) →
    t.edges.get? ⟨2 * i, 0⟩ = some
      { source := ⟨d.handle m.node, m.ifname, m.address⟩
        target := ⟨d.handle lan.name, lan.name ++ "-" ++ m.node, none⟩
        metric := .both m.metric
        levels := .ofType lan.level
        protection := m.protection
        inverse := some ⟨2 * i + 1, 0⟩
        kind := .unicast } ∧
    t.edges.get? ⟨2 * i + 1, 0⟩ = some
      { source := ⟨d.handle lan.name, lan.name ++ "-" ++ m.node, none⟩
        target := ⟨d.handle m.node, m.ifname, m.address⟩
        metric := .both 0
        levels := .ofType lan.level
        inverse := some ⟨2 * i, 0⟩
        kind := .unicast }
  link : ∀ j k, d.links[j]? = some k →
    t.edges.get? ⟨2 * d.memberships.length + 2 * j, 0⟩ = some
      { source := ⟨d.handle k.a.node, k.a.ifname, k.a.address⟩
        target := ⟨d.handle k.b.node, k.b.ifname, k.b.address⟩
        metric := ⟨k.metric, k.upperMetric.getD k.metric⟩
        levels := .ofType k.level
        up := k.up
        protection := k.protection
        inverse := some ⟨2 * d.memberships.length + 2 * j + 1, 0⟩
        kind := .unicast } ∧
    t.edges.get? ⟨2 * d.memberships.length + 2 * j + 1, 0⟩ = some
      { source := ⟨d.handle k.b.node, k.b.ifname, k.b.address⟩
        target := ⟨d.handle k.a.node, k.a.ifname, k.a.address⟩
        metric := ⟨k.metric, k.upperMetric.getD k.metric⟩
        levels := .ofType k.level
        up := k.up
        protection := k.protection
        inverse := some ⟨2 * d.memberships.length + 2 * j, 0⟩
        kind := .unicast }
  tunnel : ∀ i u, d.tunnels[i]? = some u →
    t.edges.get? ⟨2 * d.memberships.length + 2 * d.links.length + i, 0⟩ = some
      { source := ⟨d.handle u.source, u.ifname, none⟩
        target := ⟨d.handle u.target, u.ifname ++ "-tail", none⟩
        metric := .both u.metric
        levels := .ofType u.level
        kind := .lsp }

theorem wires_eq (d : Description) : d.wires =
    d.memberships.map (fun (lan, m) => m.wire d.names lan) ++ d.links.map (·.wire d.names) := by
  rw [wires, flatMap_wires]

theorem length_wires (d : Description) :
    d.wires.length = d.memberships.length + d.links.length := by
  rw [wires_eq, List.length_append, List.length_map, List.length_map]

/-- The two edges of a wire are at its place. -/
theorem get?_edges_topology {i : Nat} {w : Wire} (h : d.wires[i]? = some w) :
    d.topology.edges.get? ⟨2 * i, 0⟩ = some (w.first (2 * i)) ∧
      d.topology.edges.get? ⟨2 * i + 1, 0⟩ = some (w.second (2 * i)) := by
  have hi := (List.getElem?_eq_some_iff.1 h).1
  have hlength := length_laid 0 d.wires
  have hlaid := getElem?_laid 0 d.wires i
  rw [h, Nat.zero_add] at hlaid
  rw [topology, get?_edge_ofRows, get?_edge_ofRows, List.getElem?_append_left (by omega),
    List.getElem?_append_left (by omega)]
  exact hlaid

theorem represents_topology (d : Description) : d.Represents d.topology where
  nodes := by
    simp [topology, ofRows, Table.size, nodes]
  router i r hr := by
    have hi := (List.getElem?_eq_some_iff.1 hr).1
    rw [topology, get?_node_ofRows, nodes, List.getElem?_append_left (by simpa using hi),
      List.getElem?_map, hr]
    rfl
  lan i lan hlan := by
    rw [topology, get?_node_ofRows, nodes, List.getElem?_append_right (by simp), List.length_map,
      Nat.add_sub_cancel_left, List.getElem?_map, hlan]
    rfl
  lookup name hname := (lookup_ofRows d.names_known).2 ⟨d.names_nodes ▸ hname, rfl⟩
  edges := by
    have hlength := d.length_wires
    simp only [topology, ofRows, Table.size, List.size_toArray, List.length_append, length_laid,
      List.length_map]
    omega
  member i lan m hm := by
    refine get?_edges_topology (w := m.wire d.names lan) ?_
    have hi := (List.getElem?_eq_some_iff.1 hm).1
    rw [wires_eq, List.getElem?_append_left (by simpa using hi), List.getElem?_map, hm]
    rfl
  link j k hk := by
    rw [← Nat.mul_add]
    refine get?_edges_topology (w := k.wire d.names) ?_
    rw [wires_eq, List.getElem?_append_right (by simp), List.length_map, Nat.add_sub_cancel_left,
      List.getElem?_map, hk]
    rfl
  tunnel i u hu := by
    have hlength := d.length_wires
    rw [topology, get?_edge_ofRows, List.getElem?_append_right (by rw [length_laid]; omega),
      length_laid, hlength, Nat.mul_add, Nat.add_sub_cancel_left, List.getElem?_map, hu]
    rfl

/-- **What can be built is what is consistent, and it is built as it is described.** -/
theorem build_iff_consistent (d : Description) :
    ((∃ t, d.build = .ok t) ↔ d.Consistent) ∧ ∀ t, d.build = .ok t → d.Represents t := by
  refine ⟨⟨fun ⟨t, h⟩ => (build_eq_ok_iff.1 h).1, fun h => ⟨_, build_eq_ok_iff.2 ⟨h, rfl⟩⟩⟩,
    fun t h => ?_⟩
  obtain ⟨-, rfl⟩ := build_eq_ok_iff.1 h
  exact d.represents_topology

/-- Two routers on a LAN, to which another LAN is attached; a link that is down, whose metric is
another one at level 2; and a tunnel over the interface of the link. -/
def twoLans : Description where
  routers := [{ name := "a", routerId := 1, overload := [.l1] }, { name := "b", routerId := 2 }]
  lans := [
    { name := "lan", members := [
      { node := "a", ifname := "eth0", metric := .saturate 10, protection := .link },
      { node := "b", ifname := "eth0", metric := .saturate 20 }] },
    { name := "far", level := .l2, members := [
      { node := "lan", ifname := "up", metric := .saturate 5 }] }]
  links := [
    { a := ⟨"a", "eth1", none⟩, b := ⟨"b", "eth1", none⟩, metric := .saturate 10,
      upperMetric := some (.saturate 30), up := false, protection := .linkAndNode }]
  tunnels := [{ source := "a", target := "b", ifname := "eth1", metric := .saturate 1 }]

/-- The description can be built, but not with a link from the interface that the pseudo-node has
for a member. -/
theorem build_iff_consistent_twoLans :
    (∃ t, twoLans.build = .ok t ∧ twoLans.Represents t) ∧
    ¬∃ t, Description.build { twoLans with links := [
      { a := ⟨"lan", "lan-a", none⟩, b := ⟨"b", "eth1", none⟩, metric := .saturate 10 }] } =
        .ok t := by
  constructor
  · have hok : twoLans.build.isOk = true := by decide +kernel
    cases hbuild : twoLans.build with
    | error e =>
      rw [hbuild] at hok
      cases hok
    | ok t => exact ⟨t, rfl, (build_iff_consistent twoLans).2 t hbuild⟩
  · rw [(build_iff_consistent _).1]
    intro h
    exact absurd h.interfaces (by decide)

end Description

end LinkState
