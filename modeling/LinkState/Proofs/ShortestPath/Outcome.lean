import LinkState.Proofs.Frontier.Agreement
import LinkState.Proofs.ShortestPath.Completion

/-!
# What a search finds is determined by the topology

Two searches from one root may start from different labels, left there by earlier searches, and with
frontiers of different capacities. They are `Twin` as long as they have settled the same nodes, hold
the same frontier, and have the same labels at all nodes that the root can reach; the labels of
other nodes are never looked at. Every step keeps twins (`Twin.relax`, `Twin.settle`), so both
settle the same nodes in the same order with the same next hops (`settled_eq_outcome`).
-/

namespace LinkState.Search

open LinkState.Topology

variable {t : Topology} {l : Level} {root : NodeId} {s s' s₁ : Search} {origin : Result} {a : Arc}
  {pending : List Arc} {n : NodeId}

/-- What a search from a root finds, in the order in which nodes are settled. -/
def outcome (t : Topology) (l : Level) (root : NodeId) : List Result :=
  match run t l root ∅ {} with
  | .ok s => s.settled
  | .error _ => []

/-- Two searches that differ at most in the labels of nodes out of reach, in the capacity of the
frontier, and in the paths that became too expensive. -/
structure Twin (t : Topology) (l : Level) (root : NodeId) (s s' : Search) : Prop where
  labels : ∀ n, Joined t l root n → s'.labels.read n = s.labels.read n
  frontier : s.frontier.SameOrder s'.frontier
  settled : s'.settled = s.settled

/-- Labels that are changed at one node in the same way stay the same. -/
theorem Twin.read_write (h : Twin t l root s s') (m : NodeId) (label : Label) {n : NodeId}
    (hn : Joined t l root n) :
    (s'.labels.write m label).read n = (s.labels.write m label).read n := by
  rw [HandleMap.read_write, HandleMap.read_write, h.labels n hn]

/-- The nodes in the frontier have the same rank in both searches. -/
theorem Twin.agree (h : Twin t l root s s') (hi : Invariant t l root pending s) :
    Frontier.Agree (t.rank l s.labels) (t.rank l s'.labels) s.frontier := by
  intro n hn
  have hq := hi.valid.indexed.contains_iff.2 (Array.mem_iff_getElem?.1 hn)
  exact rank_congr (by rw [h.labels n (hi.queued_joined n hq)])

theorem enqueue_eq_ok {labels : Labels} {f f' : Frontier NodeId} {queued : Bool} :
    enqueue t l labels f n queued = .ok f' ↔
      (if queued then f.decreaseKey (t.rank l labels) n else f.push (t.rank l labels) n) =
        .ok f' := by
  unfold enqueue
  cases (if queued then f.decreaseKey (t.rank l labels) n else f.push (t.rank l labels) n) <;>
    simp [Except.mapError]

/-- A node enters both frontiers at the same place. -/
theorem Twin.enqueue [t.Listed] (h : Twin t l root s s') (hr : Relaxing t l root origin a pending s)
    {label : Label} {queued : Bool} {f : Frontier NodeId}
    (hf : enqueue t l (s.labels.write a.edge.target.node label) s.frontier a.edge.target.node
      queued = .ok f) :
    ∃ f', Search.enqueue t l (s'.labels.write a.edge.target.node label) s'.frontier
      a.edge.target.node queued = .ok f' ∧ f.SameOrder f' := by
  have hrank : ∀ n, Joined t l root n →
      t.rank l (s.labels.write a.edge.target.node label) n =
        t.rank l (s'.labels.write a.edge.target.node label) n := fun n hn =>
    rank_congr (by rw [h.read_write _ _ hn])
  have hagree : Frontier.Agree (t.rank l (s.labels.write a.edge.target.node label))
      (t.rank l (s'.labels.write a.edge.target.node label)) s.frontier := fun n hn =>
    hrank n (hr.invariant.queued_joined n
      (hr.invariant.valid.indexed.contains_iff.2 (Array.mem_iff_getElem?.1 hn)))
  simp only [enqueue_eq_ok] at hf ⊢
  cases queued with
  | true => exact h.frontier.decreaseKey hagree hf
  | false => exact h.frontier.push hagree (hrank _ hr.joined) hf

/-- Relaxing an edge does the same to both searches. -/
theorem Twin.relax [t.Listed] (h : Twin t l root s s') (hr : Relaxing t l root origin a pending s)
    (hs : relax t l origin s a = .ok s₁) :
    ∃ s₁', Search.relax t l origin s' a = .ok s₁' ∧ Twin t l root s₁ s₁' := by
  unfold Search.relax at hs ⊢
  dsimp only at hs ⊢
  rw [h.labels _ hr.joined]
  split at hs
  · cases hs
    rw [if_pos ‹_›]
    exact ⟨_, rfl, h.labels, h.frontier, h.settled⟩
  rename_i hfin
  rw [if_neg hfin]
  split at hs
  · cases hs
    rw [if_pos ‹_›]
    exact ⟨_, rfl, h⟩
  rename_i hle
  rw [if_neg hle]
  split at hs
  · rename_i htie
    rw [if_pos htie]
    split at hs
    · cases hs
      rw [if_pos ‹_›]
      exact ⟨_, rfl, fun n => h.read_write _ _, h.frontier, h.settled⟩
    · cases hs
      rw [if_neg ‹_›]
      exact ⟨_, rfl, h⟩
  · rename_i htie
    rw [if_neg htie]
    cases henq : Search.enqueue t l _ s.frontier a.edge.target.node
        (s.labels.read a.edge.target.node).queued with
    | error e =>
      rw [henq] at hs
      cases hs
    | ok f =>
      rw [henq] at hs
      cases hs
      obtain ⟨f', hf', hsame⟩ := h.enqueue hr henq
      rw [hf']
      exact ⟨_, rfl, fun n => h.read_write _ _, hsame, h.settled⟩

/-- Relaxing all pending edges of a node just settled does the same to both searches. -/
theorem Twin.relaxAll [t.Listed] {arcs : List Arc} (h : Twin t l root s s')
    (hi : Invariant t l root arcs s) (hmem : origin ∈ s.settled)
    (hlast : ∀ r ∈ s.settled, r.metric ≤ origin.metric)
    (harcs : ∀ a ∈ arcs, a ∈ outArcs t l root origin.node)
    (hs : arcs.foldlM (Search.relax t l origin) s = .ok s₁) :
    ∃ s₁', arcs.foldlM (Search.relax t l origin) s' = .ok s₁' ∧ Twin t l root s₁ s₁' := by
  induction arcs generalizing s s' with
  | nil =>
    cases hs
    exact ⟨s', rfl, h⟩
  | cons a arcs ih =>
    have hr : Relaxing t l root origin a arcs s := ⟨hi, hmem, hlast, harcs a List.mem_cons_self⟩
    obtain ⟨s₂, hs₂, hrelaxed, hi₂⟩ := hr.relax
    obtain ⟨s₂', hs₂', h₂⟩ := h.relax hr hs₂
    rw [List.foldlM_cons, hs₂] at hs
    have hsettled := hrelaxed.settled_eq
    obtain ⟨s₁', hs₁', h₁⟩ := ih h₂ hi₂ (hsettled ▸ hmem) (hsettled ▸ hlast)
      (fun b hb => harcs b (List.mem_cons_of_mem _ hb)) hs
    refine ⟨s₁', ?_, h₁⟩
    rw [List.foldlM_cons, hs₂']
    exact hs₁'

/-- **Settling the node at the top of the frontier does the same to both searches.** -/
theorem Twin.settle [t.Listed] (h : Twin t l root s s') (hi : Invariant t l root [] s)
    {frontier frontier' : Frontier NodeId}
    (hpop : s.frontier.popMin? (t.rank l s.labels) = some (n, frontier))
    (hsame : frontier.SameOrder frontier')
    (hs : settle t l root { s with frontier } n = .ok s₁) :
    ∃ s₁', Search.settle t l root { s' with frontier := frontier' } n = .ok s₁' ∧
      Twin t l root s₁ s₁' := by
  obtain ⟨hi', hq, hle⟩ := hi.record hpop
  have hjoined := hi.queued_joined n (Frontier.popMin?_valid hi.valid hpop).1
  have hread := h.labels n hjoined
  have hresult : s'.resultOf n = s.resultOf n := by rw [resultOf, resultOf, hread]
  have hrecord : Twin t l root (s.record n frontier) (s'.record n frontier') := by
    refine ⟨fun m hm => ?_, hsame, ?_⟩
    · rw [record, record, hread]
      exact h.read_write _ _ hm
    · rw [record, record, hresult, h.settled]
  rw [settle_eq hq] at hs
  rw [settle_eq (by rw [hread, hq]), hresult]
  refine hrecord.relaxAll hi' (by simp [record]) (fun r hr => ?_) (fun a ha => ha) hs
  rcases List.mem_append.1 hr with hr | hr
  · exact hle r hr
  · exact List.mem_singleton.1 hr ▸ Nat.le_refl _

/-- Both searches settle the same nodes until the end. -/
theorem Twin.settleAll [t.Listed] {fuel : Nat} (h : Twin t l root s s')
    (hi : Invariant t l root [] s) (hs : settleAll t l root fuel s = .ok s₁) :
    ∃ s₁', Search.settleAll t l root fuel s' = .ok s₁' ∧ Twin t l root s₁ s₁' := by
  induction fuel generalizing s s' with
  | zero =>
    cases hs
    exact ⟨s', rfl, h⟩
  | succ fuel ih =>
    unfold Search.settleAll at hs ⊢
    have hpops := h.frontier.popMin? (h.agree hi)
    cases hpop : s.frontier.popMin? (t.rank l s.labels) with
    | none =>
      rw [hpop] at hs hpops
      cases hs
      cases hpop' : s'.frontier.popMin? (t.rank l s'.labels) with
      | none => exact ⟨s', rfl, h⟩
      | some top => simp [hpop'] at hpops
    | some top =>
      obtain ⟨n, frontier⟩ := top
      rw [hpop] at hs hpops
      cases hpop' : s'.frontier.popMin? (t.rank l s'.labels) with
      | none => simp [hpop'] at hpops
      | some top' =>
        obtain ⟨n', frontier'⟩ := top'
        rw [hpop', Option.rel_some_some] at hpops
        obtain ⟨hn, hsame⟩ := hpops
        dsimp only at hn hsame
        subst hn
        obtain ⟨s₂, hs₂, hi₂, -⟩ := hi.settle hpop
        obtain ⟨s₂', hs₂', h₂⟩ := h.settle hi hpop hsame hs₂
        simp only [hs₂] at hs
        obtain ⟨s₁', hs₁', h₁⟩ := ih h₂ hi₂ hs
        refine ⟨s₁', ?_, h₁⟩
        simp only [hs₂']
        exact hs₁'

/-- Two searches from one root are twins when they have ended, so they have settled the same nodes,
in the same order and with the same next hops. -/
theorem twin_of_run (hw : t.WellFormed) {labels labels' : Labels}
    {frontier frontier' : Frontier NodeId} (hempty : frontier.isEmpty = true)
    (hempty' : frontier'.isEmpty = true)
    (hs : run t l root labels frontier = .ok s) (hs' : run t l root labels' frontier' = .ok s') :
    Twin t l root s s' := by
  obtain ⟨f, hf, hi⟩ := invariant_start hw l root labels frontier
  have hstart : ∀ n, Joined t l root n →
      (start t l root labels').read n = (start t l root labels).read n := fun n hn =>
    (read_start hw labels' hn).trans (read_start hw labels hn).symm
  have hagree : Frontier.Agree (t.rank l (start t l root labels))
      (t.rank l (start t l root labels')) frontier.clear := by
    simp [Frontier.Agree, Frontier.clear]
  obtain ⟨f', hf', hsame⟩ := (Frontier.sameOrder_clear frontier frontier').push hagree
    (rank_congr (by rw [hstart root .refl])) hf
  have h : Twin t l root { labels := start t l root labels, frontier := f }
      { labels := start t l root labels', frontier := f' } := ⟨hstart, hsame, rfl⟩
  simp only [run, hempty, if_true, hf] at hs
  simp only [run, hempty', if_true, hf'] at hs'
  obtain ⟨s₁', hs₁', h₁⟩ := h.settleAll hi hs
  cases hs₁'.symm.trans hs'
  exact h₁

/-- Only from an empty frontier does a search succeed. -/
theorem isEmpty_of_run {labels : Labels} {frontier : Frontier NodeId}
    (hs : run t l root labels frontier = .ok s) : frontier.isEmpty = true := by
  unfold run at hs
  split at hs
  · assumption
  · cases hs

/-- **What a search finds is determined by the topology**, whatever earlier searches have left. -/
theorem settled_eq_outcome (hw : t.WellFormed) (hroot : t.nodes.contains root = true)
    {labels : Labels} {frontier : Frontier NodeId} (hempty : frontier.isEmpty = true)
    (hs : run t l root labels frontier = .ok s) : s.settled = outcome t l root := by
  have hfresh : ({} : Frontier NodeId).isEmpty = true := rfl
  obtain ⟨s₀, hs₀, -⟩ := run_complete (l := l) hw hroot ∅ hfresh
  rw [outcome, hs₀]
  exact (twin_of_run hw rfl hempty hs₀ hs).settled

end LinkState.Search
