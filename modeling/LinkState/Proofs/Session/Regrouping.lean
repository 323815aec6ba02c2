import LinkState.Proofs.Session.Tables
import LinkState.Proofs.ShortestPath.EqualCost
import Mathlib.Logic.Relation

/-!
# Regrouping merges

Next hops are merged two by two, and a set that becomes too wide is cut at once. Since merging is
associative all the same, it does not matter which merges are made first. A `Grouping` is a way to
merge a row of values two by two, and all groupings of a row have the same value
(`Grouping.value_eq_foldl`).

In a search a node merges what was brought to it, which is made up of what was brought to other
nodes before, and so on back to the root; a routing table merges what the cheapest contenders have.
`Unfolds` puts what was brought to a node in place of its next hops. However far a row is unfolded,
the groupings of it have the value that it had at first (`Gathered.comesTo`).
-/

namespace LinkState

/-- A way to merge a row of values two by two, in their order. -/
inductive Grouping (α : Type) where
  | one (a : α)
  | two (g h : Grouping α)

namespace Grouping

variable {α : Type} {merge : α → α → α}

/-- The values that are merged. -/
def row : Grouping α → List α
  | one a => [a]
  | two g h => g.row ++ h.row

/-- What the merges come to. -/
def value (merge : α → α → α) : Grouping α → α
  | one a => a
  | two g h => merge (g.value merge) (h.value merge)

/-- A grouping comes to the same as merging the values of its row one after the other. -/
theorem value_eq_foldl [Std.Associative merge] (none : α) [Std.LawfulIdentity merge none]
    (g : Grouping α) : g.value merge = g.row.foldl merge none := by
  induction g with
  | one a => exact (Std.LawfulLeftIdentity.left_id a).symm
  | two g h ihg ihh =>
    have hnone : ∀ a, merge a none = a := Std.LawfulRightIdentity.right_id
    calc merge (g.value merge) (h.value merge)
        = merge (g.row.foldl merge none) (h.row.foldl merge none) := by rw [ihg, ihh]
      _ = h.row.foldl merge (merge (g.row.foldl merge none) none) := List.foldl_assoc.symm
      _ = h.row.foldl merge (g.row.foldl merge none) := by rw [hnone]
      _ = (g.row ++ h.row).foldl merge none := List.foldl_append.symm

end Grouping

/-- Merging is associative and idempotent with a neutral value, so that all groupings of a row come
to the same. -/
structure MergesFreely {α : Type} (merge : α → α → α) (none : α) : Prop where
  assoc : ∀ a b c, merge (merge a b) c = merge a (merge b c)
  self : ∀ a, merge a a = a
  none_left : ∀ a, merge none a = a
  none_right : ∀ a, merge a none = a
  regroup : ∀ g g' : Grouping α, g.row = g'.row → g.value merge = g'.value merge

theorem NexthopSet.mergesFreely : MergesFreely extend empty where
  assoc := extend_assoc
  self := extend_self
  none_left := empty_extend
  none_right := extend_empty
  regroup g g' h := by
    rw [g.value_eq_foldl empty, g'.value_eq_foldl empty, h]

theorem Nexthops.value_eq_merge (g : Grouping Nexthops) : g.value extend = merge g.row :=
  g.value_eq_foldl empty

theorem Nexthops.mergesFreely : MergesFreely extend empty where
  assoc := extend_assoc
  self := extend_self
  none_left := empty_extend
  none_right := extend_empty
  regroup g g' h := by
    rw [value_eq_merge, value_eq_merge, h]

/-! ## The merges of a search -/

namespace Search

variable {t : Topology} {l : Level} {root : NodeId} {pre post settled : List Result} {r : Result}

/-- In a row of next hops, those of a settled node give way to what was brought to it. -/
inductive Unfolds (t : Topology) (l : Level) (root : NodeId) (settled : List Result) :
    List Nexthops → List Nexthops → Prop
  | node {pre post : List Result} {r : Result} (left right : List Nexthops)
      (row : settled = pre ++ r :: post) (ne_root : r.node ≠ root) :
    Unfolds t l root settled (left ++ r.nexthops :: right)
      (left ++ offers t l root r.node r.metric pre ++ right)

/-- However a row is unfolded and grouped, it comes to the given next hops. -/
def ComesTo (t : Topology) (l : Level) (root : NodeId) (settled : List Result)
    (row : List Nexthops) (nexthops : Nexthops) : Prop :=
  ∀ g : Grouping Nexthops, Relation.ReflTransGen (Unfolds t l root settled) row g.row →
    g.value Nexthops.extend = nexthops

/-- What is said of a gathered node is said of those settled before it. -/
theorem Gathered.settles (h : Gathered t l root (pre ++ r :: post)) : Settles t l root pre r := by
  generalize hrow : pre ++ r :: post = rs at h
  induction h generalizing post with
  | nil => simp at hrow
  | snoc _ settles ih =>
    rcases List.eq_nil_or_concat post with rfl | ⟨post, last, rfl⟩
    · obtain ⟨rfl, hr⟩ := List.append_inj' hrow rfl
      cases hr
      exact settles
    · rw [List.concat_eq_append, ← List.cons_append, ← List.append_assoc] at hrow
      exact ih (List.append_inj' hrow rfl).1

/-- Unfolding a row does not change what it is merged into. -/
theorem Gathered.merge_of_unfolds (h : Gathered t l root settled) {row row' : List Nexthops}
    (hrow : Unfolds t l root settled row row') : Nexthops.merge row' = .merge row := by
  cases hrow with
  | @node pre post r left right hsplit hne =>
    subst hsplit
    have hcons : left ++ r.nexthops :: right = left ++ [r.nexthops] ++ right := by simp
    rw [hcons, Nexthops.merge_append, Nexthops.merge_append, Nexthops.merge_append,
      Nexthops.merge_append, Nexthops.merge_singleton, h.settles.merged hne]

/-- **A row comes to what it is merged into**, however it is unfolded and grouped. -/
theorem Gathered.comesTo (h : Gathered t l root settled) (row : List Nexthops) :
    ComesTo t l root settled row (.merge row) := by
  intro g hg
  rw [Nexthops.value_eq_merge]
  generalize g.row = row' at hg
  induction hg with
  | refl => rfl
  | tail _ hunfolds ih => rw [h.merge_of_unfolds hunfolds, ih]

end Search

/-! ## The merges of a routing table -/

namespace RoutingTable

/-- The next hops of the contenders for a network that cost as much as a route. -/
def merged (t : Topology) (root : NodeId) (l : Level) (results : List Result) (network : Network)
    (route : Route) : List Nexthops :=
  ((contenders t root l results network).filter fun c => c.metric == route.metric).map
    fun c => c.result.nexthops

theorem Exact.nexthops_eq {t : Topology} {root : NodeId} {l : Level} {results : List Result}
    {table : RoutingTable} {network : Network} {route : Route}
    (h : Exact t root l results table) (hroute : table[network]? = some route) :
    route.nexthops = .merge (merged t root l results network route) := by
  refine ByKind.ext_get fun k => NexthopSet.ext_members ?_
  rw [h.nexthops network route hroute, Nexthops.get_merge, NexthopSet.members_ofList_eraseDups,
    merged, List.flatMap_map]

end RoutingTable

/-! ## The merges of a session -/

namespace Session

open Search

/-- **Next hops may be merged in any grouping.** A set extended by another holds the first distinct
next hops of both, and although it is cut, extending merges freely; so it is for each kind of next
hop. Hence, after a run of a session, the next hops of a node are what any grouping of the merges
comes to that were made for it, be they unfolded back to the root; and so are those of a route,
where the groupings may go on into the search if the run has made one. -/
theorem nexthops_regroup :
    (∀ a b : NexthopSet,
      (a.extend b).members = (a.members ++ b.members).eraseDups.take NexthopSet.width) ∧
    MergesFreely NexthopSet.extend .empty ∧
    (∀ (a b : Nexthops) (k : NexthopKind), (a.extend b).get k = (a.get k).extend (b.get k)) ∧
    MergesFreely Nexthops.extend .empty ∧
    ∀ (history : List Request) (root : NodeId) (l : Level) (kind : RunKind) (rs : List Result)
      (s' : Session),
      (after {} history).serve (.compute (.run root l kind)) = (.ok (.results rs), s') →
        (kind ≠ .partialRoutes → ∀ r ∈ (s'.workspace.record l root).settled,
          ComesTo s'.topology l root (s'.workspace.record l root).settled [r.nexthops]
            r.nexthops) ∧
        (kind ≠ .forward → ∀ (network : Network) (route : Route),
          (s'.workspace.record l root).table[network]? = some route → ∀ g : Grouping Nexthops,
            g.row = RoutingTable.merged s'.topology root l
                (s'.workspace.record l root).destinations network route →
              g.value Nexthops.extend = route.nexthops) ∧
        (kind = .full → ∀ (network : Network) (route : Route),
          (s'.workspace.record l root).table[network]? = some route →
            ComesTo s'.topology l root (s'.workspace.record l root).settled
              (RoutingTable.merged s'.topology root l (s'.workspace.record l root).destinations
                network route) route.nexthops) := by
  refine ⟨NexthopSet.members_extend, NexthopSet.mergesFreely, Nexthops.get_extend,
    Nexthops.mergesFreely, fun history root l kind rs s' hserved => ?_⟩
  obtain ⟨htopology, hanswer⟩ := serve_eq_ok.1 hserved
  obtain ⟨_, hrun, -⟩ := Compute.map_eq_ok.1 hanswer
  have hw := (sound_after history).wellFormed
  have hgathered : kind ≠ .partialRoutes →
      Gathered s'.topology l root (s'.workspace.record l root).settled := fun hkind =>
    htopology ▸ (Run.run_searched hw hkind hrun).1.gathered
  have hexact : kind ≠ .forward → RoutingTable.Exact s'.topology root l
      (s'.workspace.record l root).destinations (s'.workspace.record l root).table := fun hkind =>
    htopology ▸ (Run.tables_of_run hw (sorted_after history) hkind hrun).2 l (.inl rfl)
  refine ⟨fun hkind r _ => ?_, fun hkind network route hroute g hg => ?_,
    fun hkind network route hroute => ?_⟩
  · have h := (hgathered hkind).comesTo [r.nexthops]
    rwa [Nexthops.merge_singleton] at h
  · rw [Nexthops.value_eq_merge, hg, ← (hexact hkind).nexthops_eq hroute]
  · subst hkind
    rw [(hexact nofun).nexthops_eq hroute]
    exact (hgathered nofun).comesTo _

/-- In the fan a fifth next hop is brought to the router at the far end, and cut off. Whatever is
merged first, the same four are left. -/
theorem nexthops_regroup_fan : ∃ rs s' pre r,
    (after {} (Run.fan.map .change)).serve (.compute (.run ⟨0, 0⟩ .l1 .full)) =
      (.ok (.results rs), s') ∧
    (s'.workspace.record .l1 ⟨0, 0⟩).settled = pre ++ [r] ∧ r.node = ⟨6, 0⟩ ∧
    r.nexthops.ip.members.map (·.node.position) = [1, 5, 2, 4] ∧
    (offers s'.topology .l1 ⟨0, 0⟩ r.node r.metric pre).length = 5 ∧
    ∀ g : Grouping Nexthops, g.row = offers s'.topology .l1 ⟨0, 0⟩ r.node r.metric pre →
      g.value Nexthops.extend = r.nexthops := by
  obtain ⟨a, s', hserved, -, hlast⟩ := exists_served (s := after {} (Run.fan.map .change))
    (c := .run ⟨0, 0⟩ .l1 .full) (p := fun _ => true)
    (q := fun s' =>
      (s'.workspace.record .l1 ⟨0, 0⟩).settled.getLast?.any fun r =>
        r.node == ⟨6, 0⟩ && r.nexthops.ip.members.map (·.node.position) == [1, 5, 2, 4] &&
          (offers s'.topology .l1 ⟨0, 0⟩ r.node r.metric
            (s'.workspace.record .l1 ⟨0, 0⟩).settled.dropLast).length == 5)
    (by decide +kernel) (by decide +kernel)
  obtain ⟨rs, -, rfl⟩ := Compute.map_eq_ok.1 (serve_eq_ok.1 hserved).2
  obtain ⟨r, hr, hfields⟩ := (Option.any_eq_true _ _).1 hlast
  obtain ⟨pre, hrow⟩ := List.getLast?_eq_some_iff.1 hr
  rw [hrow, List.dropLast_concat] at hfields
  simp only [Bool.and_eq_true, beq_iff_eq] at hfields
  obtain ⟨⟨hnode, hmembers⟩, hlength⟩ := hfields
  refine ⟨rs, s', pre, r, hserved, hrow, hnode, hmembers, hlength, fun g hg => ?_⟩
  have hcomes := (nexthops_regroup.2.2.2.2 _ _ _ _ _ _ hserved).1 nofun r
    (hrow ▸ List.mem_append_right _ List.mem_cons_self)
  refine hcomes g (.single ?_)
  have hne : r.node ≠ ⟨0, 0⟩ := by
    rw [hnode]
    decide
  have hunfolds : Unfolds s'.topology .l1 ⟨0, 0⟩ (pre ++ [r]) [r.nexthops] _ :=
    .node [] [] rfl hne
  rwa [List.nil_append, List.append_nil, ← hg, ← hrow] at hunfolds

end Session

end LinkState
