import LinkState.Description.Build
import LinkState.Proofs.Topology.Rows

/-!
# What the parts of a description add

A router and a LAN are a node each, a member of a LAN and a link are a wire, and a tunnel is an
edge. Which ones these are depends on the description and on the names of the nodes only, of which
the handles are the places.

For each part there is a lemma `addTo_ofRows` which says when it can be added to a topology and what
it adds to the rows. The names of the nodes that are there may be the first ones of more that are
still to come.
-/

namespace LinkState

open LinkState.Topology

variable {ns : List Node} {es : List Edge} {names : List String} {t : Topology}

/-! ## Routers -/

/-- The node of a router. -/
def RouterDescription.node (d : RouterDescription) : Node where
  name := d.name
  routerId := d.routerId
  area := d.area
  levelType := d.level
  kind := .both .router
  overloaded := ⟨d.overload.contains .l1, d.overload.contains .l2⟩
  attached := d.attached
  networks := d.networks

/-- Overloading a node at several levels. -/
theorem foldl_setOverload (ls : List Level) (node : Node) :
    ls.foldl (fun t l => t.setOverload ⟨ns.length, 0⟩ l true) (ofRows (ns ++ [node]) es) =
      ofRows (ns ++ [{ node with overloaded := ⟨node.overloaded.l1 || ls.contains .l1,
        node.overloaded.l2 || ls.contains .l2⟩ }]) es := by
  induction ls generalizing node with
  | nil => simp
  | cons l ls ih =>
    have hname : ∀ a : Node, { a with overloaded := a.overloaded.set l true }.name = a.name :=
      fun _ => rfl
    rw [List.foldl_cons, setOverload, modifyNode_last _ _ hname, ih]
    cases l <;> simp [PerLevel.set]

/-- A router can be added if its name is new. -/
theorem RouterDescription.addTo_ofRows (d : RouterDescription) :
    d.addTo (ofRows ns es) = .ok t ↔
      d.name ∉ ns.map (·.name) ∧ t = ofRows (ns ++ [d.node]) es := by
  let bare : Node :=
    { name := d.name, routerId := d.routerId, levelType := d.level, kind := .both .router }
  let fill (node : Node) : Node :=
    { node with area := d.area, attached := d.attached, networks := d.networks }
  have hadded : d.overload.foldl (fun t l => t.setOverload ⟨ns.length, 0⟩ l true)
      ((ofRows (ns ++ [bare]) es).modifyNode ⟨ns.length, 0⟩ fill) = ofRows (ns ++ [d.node]) es := by
    rw [modifyNode_last _ fill fun _ => rfl, foldl_setOverload]
    simp [RouterDescription.node, PerLevel.both, bare, fill]
  unfold addTo addRouter
  rw [except_bind_eq_ok]
  constructor
  · rintro ⟨⟨n, t₁⟩, h₁, h⟩
    obtain ⟨hname, rfl, rfl⟩ := insertNode_ofRows.1 h₁
    cases h
    exact ⟨hname, hadded⟩
  · rintro ⟨hname, rfl⟩
    exact ⟨_, insertNode_ofRows.2 ⟨hname, rfl, rfl⟩, congrArg Except.ok hadded⟩

/-! ## LANs -/

/-- The pseudo-node of a LAN. -/
def LanDescription.node (d : LanDescription) : Node where
  name := d.name
  routerId := 0
  levelType := d.level
  kind := .both .pseudonode

/-- The wire between a member and the pseudo-node of its LAN: only the member's edge has a cost and
is protected. -/
def MemberDescription.wire (d : MemberDescription) (names : List String) (lan : LanDescription) :
    Wire where
  a := ⟨handleIn names d.node, d.ifname, d.address⟩
  b := ⟨handleIn names lan.name, lan.name ++ "-" ++ d.node, none⟩
  there := .both d.metric
  back := .both 0
  level := lan.level
  protection := d.protection

/-- The wires of a LAN. -/
def LanDescription.wires (d : LanDescription) (names : List String) : List Wire :=
  d.members.map (·.wire names d)

theorem resolveEndpoint_ofRows (hnames : ns.map (·.name) <+: names) {name ifname : String}
    {address : Option Network} {a : Endpoint} :
    resolveEndpoint (ofRows ns es) name ifname address = .ok a ↔
      name ∈ ns.map (·.name) ∧ a = ⟨handleIn names name, ifname, address⟩ := by
  unfold resolveEndpoint
  rw [except_bind_eq_ok]
  constructor
  · rintro ⟨n, hn, h⟩
    obtain ⟨hname, rfl⟩ := (lookup_ofRows hnames).1 hn
    cases h
    exact ⟨hname, rfl⟩
  · rintro ⟨hname, rfl⟩
    exact ⟨_, (lookup_ofRows hnames).2 ⟨hname, rfl⟩, rfl⟩

/-- Between nodes that exist, a member of a LAN is a pair of edges. -/
theorem addLanLink_ofRows (hnames : ns.map (·.name) <+: names) {member lan ifname : String}
    {address : Option Network} (hmember : member ∈ ns.map (·.name)) (hlan : lan ∈ ns.map (·.name))
    (metric : Metric) (level : LevelType) :
    (ofRows ns es).addLanLink ⟨handleIn names member, ifname, address⟩ (handleIn names lan) metric
        level =
      (ofRows ns es).addPair ⟨handleIn names member, ifname, address⟩
        ⟨handleIn names lan, lan ++ "-" ++ member, none⟩ metric 0 level := by
  obtain ⟨m, hm, rfl⟩ := get?_handleIn es hnames hmember
  obtain ⟨p, hp, rfl⟩ := get?_handleIn es hnames hlan
  unfold addLanLink
  rw [hm, hp]

/-- Where no interface is used twice, a member can be added if it exists and this stays so. -/
theorem MemberDescription.addTo_ofRows (d : MemberDescription) {lan : LanDescription}
    (hnames : ns.map (·.name) <+: names) (hlan : lan.name ∈ ns.map (·.name))
    (hes : (es.map Edge.interface).Nodup) :
    d.addTo (handleIn names lan.name) lan.level (ofRows ns es) = .ok t ↔
      d.node ∈ ns.map (·.name) ∧
        (es.map Edge.interface ++ (d.wire names lan).interfaces).Nodup ∧
          t = ofRows ns (es ++ (d.wire names lan).edges es.length) := by
  let w : Wire := .plain ⟨handleIn names d.node, d.ifname, d.address⟩
    ⟨handleIn names lan.name, lan.name ++ "-" ++ d.node, none⟩ d.metric 0 lan.level
  have hprotected : (ofRows ns (es ++ w.edges es.length)).setProtection ⟨es.length, 0⟩
      d.protection = ofRows ns (es ++ (d.wire names lan).edges es.length) :=
    modifyEdge_first _ _ _ fun _ => rfl
  have hcontains : ∀ {name}, name ∈ ns.map (·.name) →
      (ofRows ns es).nodes.contains (handleIn names name) = true := contains_handleIn es hnames
  unfold addTo
  constructor
  · intro h
    obtain ⟨a, ha, h⟩ := except_bind_eq_ok.1 h
    obtain ⟨hmember, rfl⟩ := (resolveEndpoint_ofRows hnames).1 ha
    rw [addLanLink_ofRows hnames hmember hlan] at h
    split at h
    · cases h
    rename_i hpair
    obtain ⟨hfree, hp, rfl⟩ :=
      (addPair_ofRows_eq_ok _ _ _ (hcontains hmember) (hcontains hlan) hes).1 hpair
    cases hp
    cases h
    exact ⟨hmember, hfree, hprotected⟩
  · rintro ⟨hmember, hfree, rfl⟩
    refine except_bind_eq_ok.2 ⟨_, (resolveEndpoint_ofRows hnames).2 ⟨hmember, rfl⟩, ?_⟩
    rw [addLanLink_ofRows hnames hmember hlan,
      addPair_ofRows _ _ _ (hcontains hmember) (hcontains hlan) hes hfree]
    exact congrArg Except.ok hprotected

/-- Where no interface is used twice, a LAN can be added if its name is new, every member names a
node that exists or the LAN itself, and this stays so. -/
theorem LanDescription.addTo_ofRows (d : LanDescription)
    (hnames : (ns ++ [d.node]).map (·.name) <+: names) (hes : (es.map Edge.interface).Nodup) :
    d.addTo (ofRows ns es) = .ok t ↔
      d.name ∉ ns.map (·.name) ∧
        ((∀ m ∈ d.members, m.node ∈ (ns ++ [d.node]).map (·.name)) ∧
          (es.map Edge.interface ++ (d.wires names).flatMap Wire.interfaces).Nodup) ∧
        t = ofRows (ns ++ [d.node]) (es ++ laid es.length (d.wires names)) := by
  have hlan : d.name ∈ (ns ++ [d.node]).map (·.name) := by
    simp [LanDescription.node]
  have hmembers := foldlM_wires (t := t)
    (fun t (m : MemberDescription) => m.addTo (handleIn names d.name) d.level t)
    (·.wire names d) (fun m => m.node ∈ (ns ++ [d.node]).map (·.name))
    (fun es m t => m.addTo_ofRows hnames hlan) d.members hes
  have hhandle (hname : d.name ∉ ns.map (·.name)) :
      handleIn names d.name = ⟨ns.length, 0⟩ := by
    rw [handleIn_of_isPrefixOf hnames hlan, handleIn, List.map_append,
      List.idxOf_append_of_notMem hname]
    simp [LanDescription.node]
  unfold addTo addPseudonode
  constructor
  · intro h
    obtain ⟨⟨n, t₁⟩, h₁, h⟩ := except_bind_eq_ok.1 h
    obtain ⟨hname, rfl, rfl⟩ := insertNode_ofRows.1 h₁
    rw [← hhandle hname] at h
    exact ⟨hname, hmembers.1 h⟩
  · rintro ⟨hname, h⟩
    refine except_bind_eq_ok.2 ⟨_, insertNode_ofRows.2 ⟨hname, rfl, rfl⟩, ?_⟩
    rw [← hhandle hname]
    exact hmembers.2 h

/-! ## Links and tunnels -/

/-- The wire of a link, of which both edges have the same metrics and the same protection. -/
def LinkDescription.wire (d : LinkDescription) (names : List String) : Wire where
  a := ⟨handleIn names d.a.node, d.a.ifname, d.a.address⟩
  b := ⟨handleIn names d.b.node, d.b.ifname, d.b.address⟩
  there := ⟨d.metric, d.upperMetric.getD d.metric⟩
  back := ⟨d.metric, d.upperMetric.getD d.metric⟩
  level := d.level
  up := d.up
  protection := d.protection
  protectionBack := d.protection

/-- The wire of a link while it has just been added. -/
def LinkDescription.plain (d : LinkDescription) (names : List String) : Wire :=
  .plain (d.wire names).a (d.wire names).b d.metric d.metric d.level

/-- Both edges are given what the link says, and then it is taken down if need be. -/
theorem LinkDescription.configure_plain (d : LinkDescription) (names : List String) :
    (if d.up then d.configure (d.configure (ofRows ns (es ++ (d.plain names).edges es.length))
        ⟨es.length, 0⟩) ⟨es.length + 1, 0⟩
      else (d.configure (d.configure (ofRows ns (es ++ (d.plain names).edges es.length))
        ⟨es.length, 0⟩) ⟨es.length + 1, 0⟩).setLinkStatus ⟨es.length, 0⟩ false) =
      ofRows ns (es ++ (d.wire names).edges es.length) := by
  have hboth : d.configure (d.configure (ofRows ns (es ++ (d.plain names).edges es.length))
      ⟨es.length, 0⟩) ⟨es.length + 1, 0⟩ =
        ofRows ns (es ++ Wire.edges { d.wire names with up := true } es.length) := by
    have hprotection : ∀ e : Edge, { e with protection := d.protection }.source = e.source :=
      fun _ => rfl
    have hmetric : ∀ m (e : Edge), { e with metric := e.metric.set .l2 m }.source = e.source :=
      fun _ _ => rfl
    unfold configure Wire.edges LinkDescription.wire setMetric setProtection
    cases d.upperMetric with
    | none =>
      dsimp only
      rw [modifyEdge_first _ _ _ hprotection, modifyEdge_second _ _ _ hprotection]
      rfl
    | some m =>
      dsimp only
      rw [modifyEdge_first _ _ _ (hmetric m), modifyEdge_first _ _ _ hprotection,
        modifyEdge_second _ _ _ (hmetric m), modifyEdge_second _ _ _ hprotection]
      rfl
  rw [hboth, setLinkStatus_wire]
  unfold LinkDescription.wire
  cases d.up <;> rfl

/-- Where no interface is used twice, a link can be added if both ends exist and this stays so. -/
theorem LinkDescription.addTo_ofRows (d : LinkDescription) (hnames : ns.map (·.name) <+: names)
    (hes : (es.map Edge.interface).Nodup) :
    d.addTo (ofRows ns es) = .ok t ↔
      (d.a.node ∈ ns.map (·.name) ∧ d.b.node ∈ ns.map (·.name)) ∧
        (es.map Edge.interface ++ (d.wire names).interfaces).Nodup ∧
          t = ofRows ns (es ++ (d.wire names).edges es.length) := by
  have hcontains : ∀ {name}, name ∈ ns.map (·.name) →
      (ofRows ns es).nodes.contains (handleIn names name) = true := contains_handleIn es hnames
  unfold addTo
  constructor
  · intro h
    obtain ⟨a, hresolved, h⟩ := except_bind_eq_ok.1 h
    obtain ⟨ha, rfl⟩ := (resolveEndpoint_ofRows hnames).1 hresolved
    obtain ⟨b, hresolved', h⟩ := except_bind_eq_ok.1 h
    obtain ⟨hb, rfl⟩ := (resolveEndpoint_ofRows hnames).1 hresolved'
    split at h
    · cases h
    rename_i hpair
    obtain ⟨hfree, hp, rfl⟩ :=
      (addPair_ofRows_eq_ok _ _ _ (hcontains ha) (hcontains hb) hes).1 hpair
    cases hp
    cases h
    exact ⟨⟨ha, hb⟩, hfree, d.configure_plain names⟩
  · rintro ⟨⟨ha, hb⟩, hfree, rfl⟩
    refine except_bind_eq_ok.2 ⟨_, (resolveEndpoint_ofRows hnames).2 ⟨ha, rfl⟩,
      except_bind_eq_ok.2 ⟨_, (resolveEndpoint_ofRows hnames).2 ⟨hb, rfl⟩, ?_⟩⟩
    rw [addLink, addPair_ofRows _ _ _ (hcontains ha) (hcontains hb) hes hfree]
    exact congrArg Except.ok (d.configure_plain names)

/-- The edge of a tunnel. -/
def TunnelDescription.edge (d : TunnelDescription) (names : List String) : Edge where
  source := ⟨handleIn names d.source, d.ifname, none⟩
  target := ⟨handleIn names d.target, d.ifname ++ "-tail", none⟩
  metric := .both d.metric
  levels := .ofType d.level
  kind := .lsp

/-- A tunnel can be added if both ends exist, whatever its interface. -/
theorem TunnelDescription.addTo_ofRows (d : TunnelDescription)
    (hnames : ns.map (·.name) <+: names) :
    d.addTo (ofRows ns es) = .ok t ↔
      (d.source ∈ ns.map (·.name) ∧ d.target ∈ ns.map (·.name)) ∧
        t = ofRows ns (es ++ [d.edge names]) := by
  have hadded (hsource : d.source ∈ ns.map (·.name)) (htarget : d.target ∈ ns.map (·.name)) :
      (ofRows ns es).addLsp (handleIn names d.source) (handleIn names d.target) d.ifname d.metric
        d.level = .ok (⟨es.length, 0⟩, ofRows ns (es ++ [d.edge names])) :=
    addEdge_ofRows _ _ (contains_handleIn es hnames hsource) (contains_handleIn es hnames htarget)
      nofun
  unfold addTo
  constructor
  · intro h
    obtain ⟨n, hn, h⟩ := except_bind_eq_ok.1 h
    obtain ⟨hsource, rfl⟩ := (lookup_ofRows hnames).1 hn
    obtain ⟨n, hn, h⟩ := except_bind_eq_ok.1 h
    obtain ⟨htarget, rfl⟩ := (lookup_ofRows hnames).1 hn
    obtain ⟨⟨e, t₁⟩, h₁, h⟩ := except_bind_eq_ok.1 h
    cases (hadded hsource htarget).symm.trans h₁
    cases h
    exact ⟨⟨hsource, htarget⟩, rfl⟩
  · rintro ⟨⟨hsource, htarget⟩, rfl⟩
    exact except_bind_eq_ok.2 ⟨_, (lookup_ofRows hnames).2 ⟨hsource, rfl⟩,
      except_bind_eq_ok.2 ⟨_, (lookup_ofRows hnames).2 ⟨htarget, rfl⟩,
        except_bind_eq_ok.2 ⟨_, hadded hsource htarget, rfl⟩⟩⟩

end LinkState
