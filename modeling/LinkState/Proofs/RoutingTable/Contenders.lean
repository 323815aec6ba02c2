import LinkState.Proofs.NexthopMerge
import LinkState.RoutingTable

/-!
# What a routing table holds

For a network the results of a search give `contenders`: those of the nodes that announce it and,
behind them, for the networks of default routes those of the closest attached routers. The first of
the cheapest ones gives the route, and the others that are as cheap add their next hops (`IsBest`).

Installing a route looks at one network only (`getElem?_install`), so a table can be followed
network by network. At each network, `contest` says what one route does to the one in the table, and
`foldl_contest` what a row of contenders amounts to: whatever stale route was there before, the best
of them is left. A node that announces a network twice makes no difference (`contest_contest`).

`rebuild_exact` puts this together for the results of a search, which come by their metric.
-/

namespace LinkState

namespace RoutingTable

variable {t : Topology} {root : NodeId} {l : Level} {results : List Result} {network : Network}
  {table : RoutingTable}

/-! ## Contenders -/

/-- A result that gives a route to a network. -/
structure Contender where
  result : Result
  /-- Whether the route is a default route toward an attached router. -/
  isDefault : Bool

namespace Contender

def metric (c : Contender) : Metric := c.result.metric

/-- The route that the result gives. -/
def route (root : NodeId) (l : Level) (c : Contender) : Route :=
  routeOf root l c.isDefault c.result

theorem metric_route (root : NodeId) (l : Level) (c : Contender) :
    (c.route root l).metric = c.metric := rfl

end Contender

/-- Whether a node announces a network. -/
def announces (t : Topology) (network : Network) (n : NodeId) : Bool :=
  (t.nodes.get? n).any fun node => node.networks.contains network

/-- The results of attached routers other than the root whose metric is least among them. -/
def leastAttached (t : Topology) (root : NodeId) (results : List Result) : List Result :=
  let attached := results.filter fun r => r.node != root && isAttached t r.node
  attached.filter fun r => attached.all fun s => r.metric ≤ s.metric

/-- All that contend for a network, in their order. -/
def contenders (t : Topology) (root : NodeId) (l : Level) (results : List Result)
    (network : Network) : List Contender :=
  (results.filter fun r => announces t network r.node).map (⟨·, false⟩) ++
    if (network = .anyV4 ∨ network = .anyV6) ∧ l = .l1 ∧ !isAttached t root then
      (leastAttached t root results).map (⟨·, true⟩)
    else []

/-- The route that a row of contenders amounts to: that of the first of the cheapest ones, with the
next hops of all that are as cheap. -/
structure IsBest (root : NodeId) (l : Level) (cs : List Contender) (route : Route) : Prop where
  least : ∀ c ∈ cs, route.metric ≤ c.metric
  first : ∃ c, (cs.find? fun c => c.metric == route.metric) = some c ∧
    route = { c.route root l with nexthops := route.nexthops }
  nexthops : route.nexthops =
    .merge ((cs.filter fun c => c.metric == route.metric).map fun c => c.result.nexthops)

/-! ## One network -/

/-- What becomes of the route to a network when another one is installed. -/
def contest (current : Option Route) (route : Route) : Option Route :=
  match current with
  | none => some route
  | some current =>
    if current.stale || route.metric < current.metric then some route
    else if current.metric = route.metric then
      some { current with nexthops := current.nexthops.extend route.nexthops }
    else some current

/-- Installing a route concerns its own network only. -/
theorem getElem?_install (table : RoutingTable) (n : Network) (route : Route) :
    (install table n route)[network]? =
      if n = network then contest table[network]? route else table[network]? := by
  by_cases h : n = network
  · subst h
    rw [if_pos rfl, install]
    cases hcurrent : table[n]? with
    | none => exact Std.TreeMap.getElem?_insert_self
    | some current =>
      dsimp only [contest]
      split
      · exact Std.TreeMap.getElem?_insert_self
      · split
        · exact Std.TreeMap.getElem?_insert_self
        · exact hcurrent
  · have hne : compare n network ≠ .eq := mt Std.compare_eq_iff_eq.1 h
    rw [if_neg h, install]
    split
    · rw [Std.TreeMap.getElem?_insert, if_neg hne]
    · split
      · rw [Std.TreeMap.getElem?_insert, if_neg hne]
      · split
        · rw [Std.TreeMap.getElem?_insert, if_neg hne]
        · rfl

/-- What a row of routes to many networks does to one of them. -/
theorem getElem?_foldl_install (cs : List (Network × Route)) (table : RoutingTable) :
    (cs.foldl (fun table c => install table c.1 c.2) table)[network]? =
      ((cs.filter fun c => c.1 == network).map (·.2)).foldl contest table[network]? := by
  induction cs generalizing table with
  | nil => rfl
  | cons c cs ih =>
    rw [List.foldl_cons, ih, getElem?_install]
    by_cases h : c.1 = network
    · rw [if_pos h, List.filter_cons_of_pos (by simpa using h)]
      rfl
    · rw [if_neg h, List.filter_cons_of_neg (by simpa using h)]

/-- Installing the same route again changes nothing. -/
theorem contest_contest (current : Option Route) {route : Route} (h : route.stale = false) :
    contest (contest current route) route = contest current route := by
  have hlt : ¬route.metric < route.metric := Nat.lt_irrefl _
  have hself : contest (some route) route = some route := by
    rw [contest, if_neg (by simp [h, hlt]), if_pos rfl, Nexthops.extend_self]
  cases current with
  | none => exact hself
  | some current =>
    rw [contest]
    split
    · exact hself
    · rename_i hkeep
      split
      · rename_i htie
        rw [contest, if_neg hkeep, if_pos htie]
        dsimp only
        rw [Nexthops.extend_extend_self]
      · rename_i htie
        rw [contest, if_neg hkeep, if_neg htie]

theorem foldl_contest_replicate (current : Option Route) {route : Route} (h : route.stale = false)
    (k : Nat) : (List.replicate k route).foldl contest (contest current route) =
      contest current route := by
  induction k with
  | zero => rfl
  | succ k ih => rw [List.replicate_succ, List.foldl_cons, contest_contest _ h, ih]

/-- A node that announces a network contends for it once, however often it announces it. -/
theorem foldl_contest_announced (current : Option Route) (results : List Result) :
    (((announced t root l results).filter fun c => c.1 == network).map (·.2)).foldl contest
        current =
      ((results.filter fun r => announces t network r.node).map (routeOf root l false)).foldl
        contest current := by
  induction results generalizing current with
  | nil => rfl
  | cons r results ih =>
    have hcons : announced t root l (r :: results) =
        (((t.nodes.get? r.node).elim [] (·.networks)).map fun n => (n, routeOf root l false r)) ++
          announced t root l results := List.flatMap_cons
    have hown : (((((t.nodes.get? r.node).elim [] (·.networks)).map
        fun n => (n, routeOf root l false r)).filter fun c => c.1 == network).map (·.2)) =
          List.replicate (((t.nodes.get? r.node).elim [] (·.networks)).count network)
            (routeOf root l false r) := by
      rw [List.filter_map, List.map_map, List.count_eq_length_filter]
      exact List.map_const'
    rw [hcons, List.filter_append, List.map_append, List.foldl_append, hown, ih]
    have hcount : announces t network r.node = true ↔
        0 < ((t.nodes.get? r.node).elim [] (·.networks)).count network := by
      rw [List.count_pos_iff, announces]
      cases t.nodes.get? r.node <;> simp
    by_cases hr : announces t network r.node = true
    · obtain ⟨k, hk⟩ := Nat.exists_eq_add_of_lt (hcount.1 hr)
      rw [List.filter_cons, if_pos hr, List.map_cons, List.foldl_cons, hk, Nat.zero_add,
        List.replicate_succ, List.foldl_cons, foldl_contest_replicate _ rfl]
    · rw [List.filter_cons, if_neg hr, Nat.eq_zero_of_not_pos (mt hcount.2 hr)]
      rfl

theorem anyV4_ne_anyV6 : Network.anyV4 ≠ Network.anyV6 := by decide

/-- The closest attached routers contend for each of the networks of default routes once. -/
theorem routes_defaults : ((defaults t root l results).filter fun c => c.1 == network).map (·.2) =
    if (network = .anyV4 ∨ network = .anyV6) ∧ l = .l1 ∧ !isAttached t root then
      (closestAttached t root results).map (routeOf root l true)
    else [] := by
  have hrow : ∀ rs : List Result, (((rs.flatMap fun r => [(Network.anyV4, routeOf root l true r),
      (Network.anyV6, routeOf root l true r)]).filter fun c => c.1 == network).map (·.2)) =
        if network = .anyV4 ∨ network = .anyV6 then rs.map (routeOf root l true) else [] := by
    intro rs
    induction rs with
    | nil => simp
    | cons r rs ih =>
      rw [List.flatMap_cons, List.filter_append, List.map_append, ih]
      by_cases h4 : network = .anyV4
      · subst h4
        simp [anyV4_ne_anyV6.symm]
      · by_cases h6 : network = .anyV6
        · subst h6
          simp [anyV4_ne_anyV6]
        · simp [h4, h6, Ne.symm h4, Ne.symm h6]
  unfold defaults
  by_cases hl : l = .l1 ∧ !isAttached t root
  · rw [if_pos hl, hrow]
    simp only [hl, and_self, and_true]
  · rw [if_neg hl, if_neg fun h => hl h.2]
    rfl

/-- In a list sorted by metric those of the least metric come first. -/
theorem takeWhile_eq_filter {rs : List Result} {m : Metric}
    (hsorted : rs.Pairwise fun r r' => r.metric ≤ r'.metric) (hleast : ∀ r ∈ rs, m ≤ r.metric) :
    (rs.takeWhile fun r => r.metric == m) = rs.filter fun r => r.metric == m := by
  induction rs with
  | nil => rfl
  | cons r rs ih =>
    obtain ⟨hhead, htail⟩ := List.pairwise_cons.1 hsorted
    rw [List.takeWhile_cons, List.filter_cons]
    split
    · rw [ih htail fun s hs => hleast s (List.mem_cons_of_mem _ hs)]
    · rename_i hr
      -- the first one is dearer, and so are the others
      refine (List.filter_eq_nil_iff.2 fun s hs hm => hr ?_).symm
      rw [beq_iff_eq] at hm ⊢
      have hrs := hhead s hs
      rw [hm] at hrs
      exact Metric.toNat_inj.1 (Nat.le_antisymm hrs (hleast r List.mem_cons_self))

/-- The closest attached routers of sorted results are those whose metric is least. -/
theorem closestAttached_eq (hsorted : results.Pairwise fun r r' => r.metric ≤ r'.metric) :
    closestAttached t root results = leastAttached t root results := by
  unfold closestAttached leastAttached
  have hattached := hsorted.filter fun r => r.node != root && isAttached t r.node
  cases hrs : results.filter fun r => r.node != root && isAttached t r.node with
  | nil => rfl
  | cons r rs =>
    rw [hrs] at hattached
    obtain ⟨hhead, htail⟩ := List.pairwise_cons.1 hattached
    have hself : r.metric ≤ r.metric := Nat.le_refl _
    have hleast : ∀ s ∈ r :: rs, r.metric ≤ s.metric := List.forall_mem_cons.2 ⟨hself, hhead⟩
    have hsame : ∀ s ∈ r :: rs,
        ((r :: rs).all fun s' => s.metric ≤ s'.metric) = (s.metric == r.metric) := by
      intro s hs
      rw [Bool.eq_iff_iff, List.all_eq_true, beq_iff_eq]
      constructor
      · intro hall
        exact Metric.toNat_inj.1
          (Nat.le_antisymm (of_decide_eq_true (hall r List.mem_cons_self)) (hleast s hs))
      · intro hm s' hs'
        exact decide_eq_true (hm ▸ hleast s' hs')
    dsimp only
    rw [List.filter_congr hsame, List.filter_cons, if_pos (beq_self_eq_true r.metric),
      takeWhile_eq_filter htail hhead]

/-- What the results of a search do to the route to a network. -/
theorem getElem?_foldl_contributions
    (hsorted : results.Pairwise fun r r' => r.metric ≤ r'.metric) :
    ((contributions t root l results).foldl (fun table c => install table c.1 c.2)
        table)[network]? =
      ((contenders t root l results network).map (·.route root l)).foldl contest
        table[network]? := by
  rw [getElem?_foldl_install, contributions, List.filter_append, List.map_append,
    List.foldl_append, foldl_contest_announced, routes_defaults, closestAttached_eq hsorted,
    ← List.foldl_append, contenders, List.map_append, List.map_map]
  congr 2
  split
  · rw [List.map_map]
    rfl
  · rfl

/-! ## The best contenders -/

variable {cs : List Contender} {c : Contender} {current : Option Route} {route : Route}

theorem IsBest.stale_eq (h : IsBest root l cs route) : route.stale = false := by
  obtain ⟨c, -, hroute⟩ := h.first
  rw [hroute]
  rfl

theorem isBest_singleton (c : Contender) : IsBest root l [c] (c.route root l) where
  least := by
    intro c' hc'
    rw [List.mem_singleton.1 hc']
    exact Nat.le_refl _
  first := ⟨c, List.find?_cons_of_pos (by simp [Contender.metric_route]), rfl⟩
  nexthops := by
    rw [List.filter_cons_of_pos (by simp [Contender.metric_route])]
    exact (Nexthops.merge_singleton _).symm

theorem IsBest.least_concat (h : IsBest root l cs route) (hle : route.metric ≤ c.metric) :
    ∀ c' ∈ cs ++ [c], route.metric ≤ c'.metric := by
  intro c' hc'
  rcases List.mem_append.1 hc' with hc' | hc'
  · exact h.least c' hc'
  · exact List.mem_singleton.1 hc' ▸ hle

/-- A contender that is cheaper than all before it makes them of no account. -/
theorem IsBest.cheaper (h : IsBest root l cs route) (hlt : c.metric < route.metric) :
    IsBest root l (cs ++ [c]) (c.route root l) := by
  have hdear : ∀ c' ∈ cs, ¬(c'.metric == c.metric) = true := by
    intro c' hc' e
    have hle := h.least c' hc'
    rw [beq_iff_eq.1 e] at hle
    exact Nat.not_lt.2 hle hlt
  exact {
    least := by
      intro c' hc'
      rcases List.mem_append.1 hc' with hc' | hc'
      · exact Nat.le_trans (Nat.le_of_lt hlt) (h.least c' hc')
      · exact List.mem_singleton.1 hc' ▸ Nat.le_refl _
    first := by
      refine ⟨c, ?_, rfl⟩
      rw [Contender.metric_route, List.find?_append, List.find?_eq_none.2 hdear, Option.none_or,
        List.find?_cons_of_pos (by simp)]
    nexthops := by
      have halone : IsBest root l [c] _ := isBest_singleton c
      rw [Contender.metric_route, List.filter_append, List.filter_eq_nil_iff.2 hdear]
      exact halone.nexthops }

/-- A contender that is as cheap as the best one adds its next hops. -/
theorem IsBest.tied (h : IsBest root l cs route) (htie : route.metric = c.metric) :
    IsBest root l (cs ++ [c])
      { route with nexthops := route.nexthops.extend c.result.nexthops } where
  least := h.least_concat (Nat.le_of_eq (congrArg _ htie))
  first := by
    obtain ⟨first, hfirst, hroute⟩ := h.first
    refine ⟨first, ?_, by rw [hroute]⟩
    rw [List.find?_append, hfirst, Option.some_or]
  nexthops := by
    dsimp only
    rw [List.filter_append, List.map_append, List.filter_cons_of_pos (by simpa using htie.symm),
      List.filter_nil, List.map_singleton, Nexthops.merge_concat, ← h.nexthops]

/-- A contender that is dearer than the best one is of no account. -/
theorem IsBest.dearer (h : IsBest root l cs route) (hlt : route.metric < c.metric) :
    IsBest root l (cs ++ [c]) route where
  least := h.least_concat (Nat.le_of_lt hlt)
  first := by
    obtain ⟨first, hfirst, hroute⟩ := h.first
    refine ⟨first, ?_, hroute⟩
    rw [List.find?_append, hfirst, Option.some_or]
  nexthops := by
    have hne : c.metric ≠ route.metric := fun e => Nat.lt_irrefl _ (e ▸ hlt)
    rw [List.filter_append, List.filter_cons_of_neg (by simpa using hne), List.filter_nil,
      List.append_nil]
    exact h.nexthops

/-- Where the best of a row is installed, the best of the row with one more is left. -/
theorem IsBest.contest (h : IsBest root l cs route) (c : Contender) :
    ∃ route', contest (some route) (c.route root l) = some route' ∧
      IsBest root l (cs ++ [c]) route' := by
  rw [RoutingTable.contest, h.stale_eq, Bool.false_or, Contender.metric_route]
  split
  · rename_i hlt
    exact ⟨_, rfl, h.cheaper (of_decide_eq_true hlt)⟩
  rename_i hle
  split
  · rename_i htie
    exact ⟨_, rfl, h.stale_eq ▸ h.tied htie⟩
  · rename_i hne
    have hge : ¬c.metric < route.metric := by simpa using hle
    have hlt := Nat.lt_of_le_of_ne (Nat.not_lt.1 hge) fun e => hne (Metric.toNat_inj.1 e)
    exact ⟨_, rfl, h.dearer hlt⟩

/-- **What a row of contenders amounts to**, whatever stale route was there before: the best of
them. -/
theorem foldl_contest (hstale : ∀ r ∈ current, r.stale = true) (hne : cs ≠ []) :
    ∃ route, (cs.map (·.route root l)).foldl contest current = some route ∧
      IsBest root l cs route := by
  induction cs using List.reverseRecOn with
  | nil => exact absurd rfl hne
  | append_singleton cs c ih =>
    rw [List.map_append, List.foldl_append]
    by_cases hcs : cs = []
    · subst hcs
      refine ⟨c.route root l, ?_, isBest_singleton c⟩
      cases current with
      | none => rfl
      | some old =>
        have hold := hstale old rfl
        exact if_pos (by rw [hold, Bool.true_or])
    · obtain ⟨route, hroute, hbest⟩ := ih hcs
      rw [hroute]
      exact hbest.contest c

/-! ## Tables -/

/-- A table holds, for each network, what the contenders for it amount to. -/
structure Exact (t : Topology) (root : NodeId) (l : Level) (results : List Result)
    (table : RoutingTable) : Prop where
  isSome_iff : ∀ network : Network,
    table[network]?.isSome = true ↔ contenders t root l results network ≠ []
  least : ∀ (network : Network) (route : Route), table[network]? = some route →
    ∀ c ∈ contenders t root l results network, route.metric ≤ c.metric
  first : ∀ (network : Network) (route : Route), table[network]? = some route →
    ∃ c, ((contenders t root l results network).find? fun c => c.metric == route.metric) = some c ∧
      route.advertiser = c.result.node ∧ (route.connected = true ↔ c.result.node = root) ∧
      (route.isDefault = true ↔ c.isDefault = true)
  /-- The first distinct next hops of the cheapest contenders. -/
  nexthops : ∀ (network : Network) (route : Route), table[network]? = some route → ∀ k,
    (route.nexthops.get k).members =
      (((contenders t root l results network).filter fun c => c.metric == route.metric).flatMap
        fun c => (c.result.nexthops.get k).members).eraseDups.take NexthopSet.width
  level : ∀ (network : Network) (route : Route), table[network]? = some route → route.level = l
  not_stale : ∀ (network : Network) (route : Route), table[network]? = some route →
    route.stale = false

/-- A table that holds the best contenders and nothing else is exact. -/
theorem exact_of_isBest
    (hnone : ∀ network : Network, contenders t root l results network = [] →
      table[network]? = none)
    (hbest : ∀ network : Network, contenders t root l results network ≠ [] →
      ∃ route, table[network]? = some route ∧
        IsBest root l (contenders t root l results network) route) :
    Exact t root l results table := by
  have hroute : ∀ (network : Network) (route : Route), table[network]? = some route →
      IsBest root l (contenders t root l results network) route := by
    intro network route h
    by_cases hne : contenders t root l results network = []
    · cases (hnone network hne).symm.trans h
    · obtain ⟨route', h', hbest'⟩ := hbest network hne
      cases h'.symm.trans h
      exact hbest'
  exact {
    isSome_iff := by
      intro network
      constructor
      · rintro h hne
        rw [hnone network hne] at h
        cases h
      · intro hne
        obtain ⟨route, h, -⟩ := hbest network hne
        rw [h]
        rfl
    least := fun network route h => (hroute network route h).least
    first := by
      intro network route h
      obtain ⟨c, hc, hfields⟩ := (hroute network route h).first
      refine ⟨c, hc, ?_⟩
      rw [hfields]
      exact ⟨rfl, beq_iff_eq, Iff.rfl⟩
    nexthops := by
      intro network route h k
      rw [(hroute network route h).nexthops, Nexthops.get_merge,
        NexthopSet.members_ofList_eraseDups, List.flatMap_map]
    level := by
      intro network route h
      obtain ⟨c, -, hfields⟩ := (hroute network route h).first
      rw [hfields]
      rfl
    not_stale := fun network route h => (hroute network route h).stale_eq }

/-- **A table rebuilt from sorted results is exact**, whatever it was before. -/
theorem rebuild_exact (hsorted : results.Pairwise fun r r' => r.metric ≤ r'.metric)
    (old : RoutingTable) : Exact t root l results (rebuild t root l results old) := by
  have hstale : ∀ (network : Network), ∀ r ∈ (markStale old)[network]?, r.stale = true := by
    intro network r hr
    rw [markStale, Std.TreeMap.getElem?_map] at hr
    obtain ⟨r', -, rfl⟩ := Option.map_eq_some_iff.1 hr
    rfl
  have hread : ∀ network : Network, (rebuild t root l results old)[network]? =
      (((contenders t root l results network).map (·.route root l)).foldl contest
        (markStale old)[network]?).filter fun r => !r.stale := by
    intro network
    rw [rebuild, removeStale, Std.TreeMap.getElem?_filter', getElem?_foldl_contributions hsorted]
  refine exact_of_isBest (fun network hnone => ?_) fun network hne => ?_
  · rw [hread, hnone, List.map_nil, List.foldl_nil, Option.filter_eq_none_iff]
    intro r hr
    rw [hstale network r hr]
    exact Bool.false_ne_true
  · obtain ⟨route, hroute, hbest⟩ := foldl_contest (hstale network) hne
    refine ⟨route, ?_, hbest⟩
    rw [hread, hroute, Option.filter_some, hbest.stale_eq]
    rfl

end RoutingTable

end LinkState
