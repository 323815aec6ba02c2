import LinkState.Proofs.Compute
import LinkState.Proofs.Topology.Interfaces
import Mathlib.Data.List.Nodup

/-!
# Topologies row by row

`Topology.ofRows` is the topology with given lists of nodes and edges. What is added to it comes
last, so on such a topology each operation that adds something is a function on the two lists, and
it is refused for what the lists already hold: a name (`insertNode_ofRows`) or an interface
(`addEdge_ofRows`).

Two edges that are each other's inverse make up a `Wire`, the first one at the position `p` and the
second one after it (`Wire.edges`). `laid p ws` are the edges of a list of wires from the position
`p` on. Where no interface is used twice, a wire can be added if and only if this stays so
(`addPair_ofRows`).
-/

namespace LinkState

/-- The handle of a node among nodes with the given names. -/
def handleIn (names : List String) (name : String) : NodeId := ⟨names.idxOf name, 0⟩

theorem handleIn_of_isPrefixOf {names more : List String} {name : String} (h : names <+: more)
    (hname : name ∈ names) : handleIn more name = handleIn names name := by
  obtain ⟨rest, rfl⟩ := h
  rw [handleIn, handleIn, List.idxOf_append_of_mem hname]

theorem handleIn_inj {names : List String} {a b : String} (ha : a ∈ names) :
    handleIn names a = handleIn names b ↔ a = b := by
  rw [handleIn, handleIn, Handle.mk.injEq, and_iff_left rfl, List.idxOf_inj ha]

/-- The interface that an edge leaves through. -/
def Endpoint.interface (a : Endpoint) : NodeId × String := (a.node, a.ifname)

def Edge.interface (e : Edge) : NodeId × String := e.source.interface

/-! ## Wires -/

/-- Two unicast edges that are each other's inverse. -/
structure Wire where
  a : Endpoint
  b : Endpoint
  /-- The metrics of the edge from `a` to `b`, and of the one back. -/
  there : PerLevel Metric
  back : PerLevel Metric
  level : LevelType
  up : Bool := true
  /-- The protection of the edge from `a` to `b`, and of the one back. -/
  protection : Protection := .none
  protectionBack : Protection := .none

namespace Wire

/-- A wire that is up and not protected, with one metric for both levels in each direction. -/
def plain (a b : Endpoint) (there back : Metric) (level : LevelType) : Wire where
  a
  b
  there := .both there
  back := .both back
  level

/-- The edge from `a` to `b`, which is at the position `p`. -/
def first (w : Wire) (p : Nat) : Edge where
  source := w.a
  target := w.b
  metric := w.there
  levels := .ofType w.level
  up := w.up
  protection := w.protection
  inverse := some ⟨p + 1, 0⟩
  kind := .unicast

/-- The edge back, where the first one is at the position `p`. -/
def second (w : Wire) (p : Nat) : Edge where
  source := w.b
  target := w.a
  metric := w.back
  levels := .ofType w.level
  up := w.up
  protection := w.protectionBack
  inverse := some ⟨p, 0⟩
  kind := .unicast

/-- The edges of a wire from a position on. -/
def edges (w : Wire) (p : Nat) : List Edge := [w.first p, w.second p]

def interfaces (w : Wire) : List (NodeId × String) := [w.a.interface, w.b.interface]

end Wire

/-- The edges of wires that are laid one after the other, from a position on. -/
def laid (p : Nat) : List Wire → List Edge
  | [] => []
  | w :: ws => w.edges p ++ laid (p + 2) ws

theorem length_laid (p : Nat) (ws : List Wire) : (laid p ws).length = 2 * ws.length := by
  induction ws generalizing p with
  | nil => rfl
  | cons w ws ih =>
    rw [laid, List.length_append, ih, List.length_cons]
    show 2 + _ = _
    omega

theorem laid_append (p : Nat) (ws ws' : List Wire) :
    laid p (ws ++ ws') = laid p ws ++ laid (p + 2 * ws.length) ws' := by
  induction ws generalizing p with
  | nil => rfl
  | cons w ws ih =>
    rw [List.cons_append, laid, laid, ih, List.append_assoc, List.length_cons]
    congr 3
    omega

/-- Laying wires after others. -/
theorem append_laid_append (es : List Edge) (ws ws' : List Wire) :
    es ++ laid es.length (ws ++ ws') =
      es ++ laid es.length ws ++ laid (es ++ laid es.length ws).length ws' := by
  rw [laid_append, List.append_assoc, List.length_append, length_laid]

theorem laid_singleton (p : Nat) (w : Wire) : laid p [w] = w.edges p := rfl

theorem interfaces_laid (p : Nat) (ws : List Wire) :
    (laid p ws).map Edge.interface = ws.flatMap Wire.interfaces := by
  induction ws generalizing p with
  | nil => rfl
  | cons w ws ih =>
    rw [laid, List.map_append, ih, List.flatMap_cons]
    rfl

/-- The edges of a wire are at its place. -/
theorem getElem?_laid (p : Nat) (ws : List Wire) (i : Nat) :
    (laid p ws)[2 * i]? = ws[i]?.map (·.first (p + 2 * i)) ∧
      (laid p ws)[2 * i + 1]? = ws[i]?.map (·.second (p + 2 * i)) := by
  induction ws generalizing p i with
  | nil => exact ⟨rfl, rfl⟩
  | cons w ws ih =>
    cases i with
    | zero => exact ⟨rfl, rfl⟩
    | succ i =>
      have h := ih (p + 2) i
      rw [Nat.add_assoc, Nat.add_comm 2] at h
      exact h

namespace Topology

/-! ## Rows -/

/-- The index of some names in order, in which the first one of several leads. -/
def indexOf (names : List String) : Std.TreeMap String NodeId :=
  names.zipIdx.foldl (fun m (name, i) => if m.contains name then m else m.insert name ⟨i, 0⟩) ∅

/-- The lists of edges of some owners in order. -/
def listsOf (owners : List NodeId) : HandleMap (List EdgeId) :=
  owners.zipIdx.foldl (fun m (n, i) => m.update n (· ++ [⟨i, 0⟩])) ∅

/-- The topology with the given nodes and edges, in order of creation. -/
def ofRows (nodes : List Node) (edges : List Edge) : Topology where
  nodes := ⟨nodes.toArray⟩
  edges := ⟨edges.toArray⟩
  names := indexOf (nodes.map (·.name))
  outgoing := listsOf (edges.map (·.source.node))

variable {ns : List Node} {es : List Edge} {names : List String} {name : String} {n : NodeId}
  {t : Topology}

theorem get?_node_ofRows (ns : List Node) (es : List Edge) (i : Nat) :
    (ofRows ns es).nodes.get? ⟨i, 0⟩ = ns[i]? := by
  simp [ofRows, Table.get?]

theorem get?_edge_ofRows (ns : List Node) (es : List Edge) (i : Nat) :
    (ofRows ns es).edges.get? ⟨i, 0⟩ = es[i]? := by
  simp [ofRows, Table.get?]

theorem listsOf_concat (owners : List NodeId) (n : NodeId) :
    listsOf (owners ++ [n]) = (listsOf owners).update n (· ++ [⟨owners.length, 0⟩]) := by
  simp [listsOf, List.zipIdx_append]

/-- Storing one more edge. -/
theorem pushEdge_ofRows (ns : List Node) (es : List Edge) (edge : Edge) :
    (ofRows ns es).pushEdge edge = ofRows ns (es ++ [edge]) := by
  simp [ofRows, pushEdge, Table.push, Table.nextHandle, Table.size, listsOf_concat]

instance (ns : List Node) (es : List Edge) : (ofRows ns es).Listed := by
  induction es using List.reverseRecOn with
  | nil => exact ⟨fun _ => HandleMap.read_empty _⟩
  | append_singleton es edge ih => exact pushEdge_ofRows ns es edge ▸ ih.pushEdge edge

theorem modify_append_cons {α : Type} (xs : List α) (x : α) (rest : List α) (f : α → α) :
    (xs ++ x :: rest).modify xs.length f = xs ++ f x :: rest := by
  induction xs with
  | nil => rfl
  | cons y ys ih => rw [List.cons_append, List.length_cons, List.modify_succ_cons, ih]; rfl

theorem map_modify {α β : Type} (xs : List α) (i : Nat) {f : α → α} {g : α → β}
    (hfg : ∀ a, g (f a) = g a) : (xs.modify i f).map g = xs.map g := by
  refine List.ext_getElem? fun j => ?_
  rw [List.getElem?_map, List.getElem?_map, List.getElem?_modify]
  cases xs[j]? with
  | none => rfl
  | some a =>
    change some (g (if i = j then f a else a)) = some (g a)
    split
    · rw [hfg]
    · rfl

/-- Changing a node, but not its name. -/
theorem modifyNode_ofRows (i : Nat) (f : Node → Node) (hf : ∀ a, (f a).name = a.name) :
    (ofRows ns es).modifyNode ⟨i, 0⟩ f = ofRows (ns.modify i f) es := by
  simp [ofRows, modifyNode, Table.modify, map_modify ns i hf]

/-- Changing an edge, but not its source. -/
theorem modifyEdge_ofRows (i : Nat) (f : Edge → Edge) (hf : ∀ a, (f a).source = a.source) :
    (ofRows ns es).modifyEdge ⟨i, 0⟩ f = ofRows ns (es.modify i f) := by
  have howners : (es.modify i f).map (·.source.node) = es.map (·.source.node) :=
    map_modify es i fun a => congrArg Endpoint.node (hf a)
  simp [ofRows, modifyEdge, Table.modify, howners]

/-- Changing the node that was added last. -/
theorem modifyNode_last (node : Node) (f : Node → Node) (hf : ∀ a, (f a).name = a.name) :
    (ofRows (ns ++ [node]) es).modifyNode ⟨ns.length, 0⟩ f = ofRows (ns ++ [f node]) es := by
  rw [modifyNode_ofRows _ _ hf, modify_append_cons]

/-- Changing the first of the two edges that were added last. -/
theorem modifyEdge_first (x y : Edge) (f : Edge → Edge) (hf : ∀ a, (f a).source = a.source) :
    (ofRows ns (es ++ [x, y])).modifyEdge ⟨es.length, 0⟩ f = ofRows ns (es ++ [f x, y]) := by
  rw [modifyEdge_ofRows _ _ hf, modify_append_cons]

theorem modifyEdge_second (x y : Edge) (f : Edge → Edge) (hf : ∀ a, (f a).source = a.source) :
    (ofRows ns (es ++ [x, y])).modifyEdge ⟨es.length + 1, 0⟩ f = ofRows ns (es ++ [x, f y]) := by
  have h := modify_append_cons (es ++ [x]) y [] f
  rw [List.append_assoc, List.append_assoc, List.length_append] at h
  rw [modifyEdge_ofRows _ _ hf]
  exact congrArg (ofRows ns) h

/-- The two edges of a wire are up or down together. -/
theorem setLinkStatus_wire (ns : List Node) (es : List Edge) (w : Wire) (up : Bool) :
    (ofRows ns (es ++ w.edges es.length)).setLinkStatus ⟨es.length, 0⟩ up =
      ofRows ns (es ++ Wire.edges { w with up } es.length) := by
  have hfirst : (ofRows ns (es ++ w.edges es.length)).edges.get? ⟨es.length, 0⟩ =
      some (w.first es.length) := by
    rw [get?_edge_ofRows, List.getElem?_append_right (Nat.le_refl _), Nat.sub_self]
    rfl
  have hsource : ∀ a : Edge, { a with up }.source = a.source := fun _ => rfl
  unfold setLinkStatus
  rw [hfirst]
  dsimp only [Option.bind_some, Wire.first, Wire.edges]
  rw [modifyEdge_first _ _ _ hsource, modifyEdge_second _ _ _ hsource]
  rfl

/-! ## Names -/

theorem idxOf?_eq_some_iff {i : Nat} :
    names.idxOf? name = some i ↔ name ∈ names ∧ i = names.idxOf name := by
  rw [List.idxOf?, List.findIdx?_eq_guard_findIdx_lt, Option.guard_eq_some_iff,
    decide_eq_true_iff, ← List.idxOf_lt_length_iff]
  constructor
  · rintro ⟨rfl, h⟩
    exact ⟨h, rfl⟩
  · rintro ⟨h, rfl⟩
    exact ⟨rfl, h⟩

theorem indexOf_concat (names : List String) (x : String) : indexOf (names ++ [x]) =
    if (indexOf names).contains x then indexOf names
    else (indexOf names).insert x ⟨names.length, 0⟩ := by
  simp [indexOf, List.zipIdx_append]

/-- A name leads to the place where it first stands. -/
theorem getElem?_indexOf (names : List String) (name : String) :
    (indexOf names)[name]? = (names.idxOf? name).map (⟨·, 0⟩) := by
  induction names using List.reverseRecOn generalizing name with
  | nil => simp [indexOf]
  | append_singleton names x ih =>
    have hcontains : (indexOf names).contains x = true ↔ x ∈ names := by
      rw [Std.TreeMap.contains_eq_isSome_getElem?, ih, Option.isSome_map, List.isSome_idxOf?]
    have hlast : (names ++ [x]).idxOf? name =
        (names.idxOf? name).or (if x = name then some names.length else none) := by
      rw [List.idxOf?, List.findIdx?_append, List.findIdx?_singleton]
      cases h : x == name <;> simp_all [List.idxOf?]
    rw [indexOf_concat, hlast]
    split
    · -- a name that has been entered before keeps its place
      rename_i hold
      rw [ih]
      split
      · rename_i e
        subst e
        obtain ⟨i, hi⟩ := Option.isSome_iff_exists.1 (List.isSome_idxOf?.2 (hcontains.1 hold))
        rw [hi, Option.some_or]
      · rw [Option.or_none]
    · rename_i hnew
      rw [Std.TreeMap.getElem?_insert]
      simp only [Std.LawfulEqOrd.compare_eq_iff_eq]
      split
      · rename_i e
        subst e
        rw [List.idxOf?_eq_none_iff.2 (mt hcontains.2 hnew), Option.none_or, Option.map_some]
      · rw [ih, Option.or_none]

theorem nodeNamed?_ofRows (ns : List Node) (es : List Edge) (name : String) :
    (ofRows ns es).nodeNamed? name = ((ns.map (·.name)).idxOf? name).map (⟨·, 0⟩) :=
  getElem?_indexOf ..

theorem nodeNamed?_ofRows_eq_none (es : List Edge) :
    (ofRows ns es).nodeNamed? name = none ↔ name ∉ ns.map (·.name) := by
  rw [nodeNamed?_ofRows, Option.map_eq_none_iff, List.idxOf?_eq_none_iff]

/-- Storing one more node, if its name is new. -/
theorem pushNode_ofRows (es : List Edge) {node : Node} (h : node.name ∉ ns.map (·.name)) :
    (ofRows ns es).pushNode node = ofRows (ns ++ [node]) es := by
  have hnew : (indexOf (ns.map (·.name))).contains node.name = false := by
    rw [Std.TreeMap.contains_eq_isSome_getElem?, getElem?_indexOf, List.idxOf?_eq_none_iff.2 h]
    rfl
  simp [ofRows, pushNode, Table.push, Table.nextHandle, Table.size, indexOf_concat, hnew]

/-- Looking up a name, where the nodes may be the first ones of more that are still to come. -/
theorem lookup_ofRows (hnames : ns.map (·.name) <+: names) :
    (ofRows ns es).lookup name = .ok n ↔
      name ∈ ns.map (·.name) ∧ n = handleIn names name := by
  have hlookup : (ofRows ns es).lookup name = .ok n ↔
      (ofRows ns es).nodeNamed? name = some n := by
    unfold lookup
    cases (ofRows ns es).nodeNamed? name <;> simp
  rw [hlookup, nodeNamed?_ofRows, Option.map_eq_some_iff]
  constructor
  · rintro ⟨i, hi, rfl⟩
    obtain ⟨hname, rfl⟩ := idxOf?_eq_some_iff.1 hi
    exact ⟨hname, (handleIn_of_isPrefixOf hnames hname).symm⟩
  · rintro ⟨hname, rfl⟩
    exact ⟨_, idxOf?_eq_some_iff.2 ⟨hname, rfl⟩, (handleIn_of_isPrefixOf hnames hname).symm⟩

/-- A name leads to a node of this name. -/
theorem get?_handleIn (es : List Edge) (hnames : ns.map (·.name) <+: names)
    (hname : name ∈ ns.map (·.name)) :
    ∃ node, (ofRows ns es).nodes.get? (handleIn names name) = some node ∧ node.name = name := by
  have hlt := List.idxOf_lt_length_of_mem hname
  have hget := List.getElem_idxOf hlt
  rw [List.getElem_map] at hget
  refine ⟨_, ?_, hget⟩
  rw [handleIn_of_isPrefixOf hnames hname, handleIn, get?_node_ofRows, List.getElem?_eq_getElem]

theorem contains_handleIn (es : List Edge) (hnames : ns.map (·.name) <+: names)
    (hname : name ∈ ns.map (·.name)) :
    (ofRows ns es).nodes.contains (handleIn names name) = true := by
  obtain ⟨node, hnode, -⟩ := get?_handleIn es hnames hname
  rw [Table.contains, hnode]
  rfl

/-- A node is added if its name is new. -/
theorem insertNode_ofRows {node : Node} :
    (ofRows ns es).insertNode node = .ok (n, t) ↔
      node.name ∉ ns.map (·.name) ∧ n = ⟨ns.length, 0⟩ ∧ t = ofRows (ns ++ [node]) es := by
  have hhandle : (ofRows ns es).nodes.nextHandle = ⟨ns.length, 0⟩ := by
    simp [ofRows, Table.nextHandle, Table.size]
  rw [← nodeNamed?_ofRows_eq_none es]
  unfold insertNode
  cases hname : (ofRows ns es).nodeNamed? node.name with
  | some _ => simp
  | none => simp [pushNode_ofRows es ((nodeNamed?_ofRows_eq_none es).1 hname), hhandle, eq_comm]

/-! ## Interfaces -/

theorem get?_edge_ofRows_eq_some {e : EdgeId} {edge : Edge} :
    (ofRows ns es).edges.get? e = some edge ↔ e.generation = 0 ∧ es[e.position]? = some edge := by
  simp [ofRows, Table.get?]

theorem isSome_edgeAt?_ofRows {a : Endpoint} :
    ((ofRows ns es).edgeAt? a.node a.ifname).isSome = true ↔
      a.interface ∈ es.map Edge.interface := by
  rw [edgeAt?, Option.isSome_map, List.find?_isSome, List.mem_map]
  constructor
  · rintro ⟨arc, harc, hname⟩
    obtain ⟨hedge, hnode⟩ := mem_arcsFrom.1 harc
    obtain ⟨-, hedge⟩ := get?_edge_ofRows_eq_some.1 hedge
    exact ⟨arc.edge, List.mem_of_getElem? hedge, Prod.ext hnode (eq_of_beq hname)⟩
  · rintro ⟨edge, hedge, hinterface⟩
    obtain ⟨i, hi⟩ := List.mem_iff_getElem?.1 hedge
    obtain ⟨hnode, hname⟩ := Prod.ext_iff.1 hinterface
    exact ⟨⟨⟨i, 0⟩, edge⟩, mem_arcsFrom.2 ⟨get?_edge_ofRows_eq_some.2 ⟨rfl, hi⟩, hnode⟩,
      beq_iff_eq.2 hname⟩

/-- An edge is added last, a unicast edge if its interface is new. -/
theorem addEdge_ofRows {a b : Endpoint} {kind : EdgeKind} (metric : PerLevel Metric)
    (levelType : LevelType) (ha : (ofRows ns es).nodes.contains a.node = true)
    (hb : (ofRows ns es).nodes.contains b.node = true)
    (hfree : kind = .unicast → a.interface ∉ es.map Edge.interface) :
    (ofRows ns es).addEdge a b metric levelType kind = .ok (⟨es.length, 0⟩, ofRows ns (es ++
      [{ source := a, target := b, metric, levels := .ofType levelType, kind }])) := by
  obtain ⟨owner, howner⟩ := Option.isSome_iff_exists.1 ha
  have hunused : ¬(((ofRows ns es).edgeAt? a.node a.ifname).isSome && kind == .unicast) = true := by
    rw [Bool.and_eq_true, isSome_edgeAt?_ofRows, beq_iff_eq]
    exact fun h => hfree h.2 h.1
  unfold addEdge
  rw [howner, hb]
  dsimp only
  rw [if_neg (by decide), if_neg hunused, pushEdge_ofRows]
  simp [ofRows, Table.nextHandle, Table.size]

theorem interface_notMem_of_addEdge {a b : Endpoint} {metric : PerLevel Metric}
    {levelType : LevelType} {e : EdgeId}
    (h : (ofRows ns es).addEdge a b metric levelType .unicast = .ok (e, t)) :
    a.interface ∉ es.map Edge.interface := by
  intro hmem
  have hused : ((ofRows ns es).edgeAt? a.node a.ifname).isSome = true :=
    isSome_edgeAt?_ofRows.2 hmem
  rw [edgeAt?_of_addEdge h] at hused
  cases hused

section Pair

variable {a b : Endpoint} (there back : Metric) (levelType : LevelType)
  (ha : (ofRows ns es).nodes.contains a.node = true)
  (hb : (ofRows ns es).nodes.contains b.node = true) (hes : (es.map Edge.interface).Nodup)

include hes in
/-- Where no interface is used twice, this stays so if both interfaces of a wire are new. -/
theorem nodup_interfaces_append (w : Wire) {x : Edge} (hx : x.interface = w.a.interface) :
    (es.map Edge.interface ++ w.interfaces).Nodup ↔
      w.a.interface ∉ es.map Edge.interface ∧
        w.b.interface ∉ (es ++ [x]).map Edge.interface := by
  have hsplit : es.map Edge.interface ++ w.interfaces =
      ((es.map Edge.interface).concat w.a.interface).concat w.b.interface := by
    simp [Wire.interfaces]
  rw [hsplit, List.nodup_concat, List.nodup_concat, and_iff_left hes, and_comm,
    List.concat_eq_append, List.map_append, List.map_singleton, hx]

include ha hb hes in
theorem addPair_ofRows
    (hfree : (es.map Edge.interface ++ (Wire.plain a b there back levelType).interfaces).Nodup) :
    (ofRows ns es).addPair a b there back levelType =
      (.ok (⟨es.length, 0⟩, ⟨es.length + 1, 0⟩),
        ofRows ns (es ++ (Wire.plain a b there back levelType).edges es.length)) := by
  let x : Edge := ⟨a, b, .both there, .ofType levelType, true, .none, none, .unicast⟩
  have hb' : (ofRows ns (es ++ [x])).nodes.contains b.node = true := hb
  obtain ⟨hfirst, hsecond⟩ := (nodup_interfaces_append hes _ (x := x) rfl).1 hfree
  have hsource : ∀ i (e : Edge), { e with inverse := some i }.source = e.source := fun _ _ => rfl
  unfold addPair
  rw [addEdge_ofRows _ _ ha hb fun _ => hfirst]
  dsimp only
  rw [addEdge_ofRows _ _ hb' ha fun _ => hsecond]
  dsimp only
  rw [List.append_assoc, List.length_append, join, List.singleton_append, List.length_singleton,
    modifyEdge_first _ _ _ (hsource _), modifyEdge_second _ _ _ (hsource _)]
  rfl

include ha hb hes in
/-- Where no interface is used twice, two edges are added if and only if this stays so. -/
theorem addPair_ofRows_eq_ok {p : EdgeId × EdgeId} :
    (ofRows ns es).addPair a b there back levelType = (.ok p, t) ↔
      (es.map Edge.interface ++ (Wire.plain a b there back levelType).interfaces).Nodup ∧
        p = (⟨es.length, 0⟩, ⟨es.length + 1, 0⟩) ∧
          t = ofRows ns (es ++ (Wire.plain a b there back levelType).edges es.length) := by
  constructor
  · intro h
    have hfree : (es.map Edge.interface ++
        (Wire.plain a b there back levelType).interfaces).Nodup := by
      let x : Edge := ⟨a, b, .both there, .ofType levelType, true, .none, none, .unicast⟩
      rw [nodup_interfaces_append hes _ (x := x) rfl]
      unfold addPair at h
      split at h
      · cases h
      rename_i ab t₁ h₁
      have hfirst := interface_notMem_of_addEdge h₁
      rw [addEdge_ofRows _ _ ha hb fun _ => hfirst] at h₁
      cases h₁
      split at h
      · cases h
      rename_i h₂
      exact ⟨hfirst, interface_notMem_of_addEdge h₂⟩
    rw [addPair_ofRows _ _ _ ha hb hes hfree] at h
    cases h
    exact ⟨hfree, rfl, rfl⟩
  · rintro ⟨hfree, rfl, rfl⟩
    exact addPair_ofRows _ _ _ ha hb hes hfree

end Pair

/-- Steps that each lay a wire. Where no interface is used twice, all of them succeed if and only if
each knows its ends and this stays so. -/
theorem foldlM_wires {α : Type} (step : Topology → α → Except Error Topology) (wire : α → Wire)
    (Known : α → Prop)
    (hstep : ∀ es x t, (es.map Edge.interface).Nodup → (step (ofRows ns es) x = .ok t ↔
      Known x ∧ (es.map Edge.interface ++ (wire x).interfaces).Nodup ∧
        t = ofRows ns (es ++ (wire x).edges es.length)))
    (xs : List α) (hes : (es.map Edge.interface).Nodup) :
    xs.foldlM step (ofRows ns es) = .ok t ↔
      ((∀ x ∈ xs, Known x) ∧
        (es.map Edge.interface ++ (xs.map wire).flatMap Wire.interfaces).Nodup) ∧
      t = ofRows ns (es ++ laid es.length (xs.map wire)) := by
  have hall := except_foldlM_eq_ok_iff (s := t) step
    (fun ys => ofRows ns (es ++ laid es.length (ys.map wire)))
    (fun ys => (∀ y ∈ ys, Known y) ∧
      (es.map Edge.interface ++ (ys.map wire).flatMap Wire.interfaces).Nodup)
    xs ⟨nofun, by simpa using hes⟩ (fun ys y hgood => ?_) (fun ys y _ hgood s => ?_)
  · rw [List.map_nil, laid, List.append_nil] at hall
    exact hall
  · obtain ⟨hknown, hnodup⟩ := hgood
    rw [List.map_append, List.flatMap_append, ← List.append_assoc] at hnodup
    exact ⟨fun x hx => hknown x (List.mem_append_left _ hx), hnodup.of_append_left⟩
  · have hinterfaces : (es ++ laid es.length (ys.map wire)).map Edge.interface =
        es.map Edge.interface ++ (ys.map wire).flatMap Wire.interfaces := by
      rw [List.map_append, interfaces_laid]
    rw [hstep _ _ _ (hinterfaces ▸ hgood.2), hinterfaces, List.map_append, List.map_singleton,
      append_laid_append, laid_singleton, List.flatMap_append, List.flatMap_singleton,
      List.append_assoc, List.forall_mem_append, List.forall_mem_singleton, and_iff_right hgood.1,
      and_assoc]

end Topology

end LinkState
