import LinkState.Proofs.Frontier.Capacity
import LinkState.Proofs.Session.Safety

/-!
# The store of the frontier between searches

A search adds, moves up and takes away members, and it clears the frontier only where that is empty
already. So its store is roomy and snug at every moment of its course (`Search.Course.store`), and
when the search has ended, with an empty frontier, the capacity is the least one again. Nothing else
happens to the frontier in a session, so between any two runs it is `Bare`.
-/

namespace LinkState

open Frontier Compute

/-- No members, and the least capacity. -/
structure Frontier.Bare {α : Type} [Ord α] (f : Frontier α) : Prop where
  isEmpty : f.isEmpty = true
  capacity : f.capacity = leastCapacity

theorem Frontier.Bare.roomy {α : Type} [Ord α] {f : Frontier α} (h : f.Bare) : f.Roomy :=
  ⟨⟨0, h.capacity⟩, by rw [isEmpty_iff_size.1 h.isEmpty]; exact Nat.zero_le _⟩

namespace Search

variable {t : Topology} {l : Level} {root : NodeId} {labels : Labels} {frontier : Frontier NodeId}
  {moves : List Move} {m m' : Moment} {s : Search}

theorem Step.store (h : Step t l root m moves m') (hroomy : m.search.frontier.Roomy)
    (hsnug : m.search.frontier.Snug) :
    m'.search.frontier.Roomy ∧ m'.search.frontier.Snug := by
  cases h with
  | pop popped => exact ⟨hroomy.popMin? popped, hsnug.popMin? hroomy popped⟩
  | still _ _ same =>
    rw [same]
    exact ⟨hroomy, hsnug⟩
  | push _ _ _ pushed => exact ⟨hroomy.push pushed, hsnug.push pushed⟩
  | raise _ _ _ raised =>
    have hsame := decreaseKey_store raised
    exact ⟨hroomy.sameStore hsame, hsnug.sameStore hsame⟩

/-- At every moment of a search that starts from a bare frontier the store is roomy and snug. -/
theorem Course.store (h : Course t l root labels frontier moves m) (hbare : frontier.Bare) :
    m.search.frontier.Roomy ∧ m.search.frontier.Snug := by
  induction h with
  | start pushed =>
    have hsnug : frontier.Snug := .inl hbare.capacity
    exact ⟨hbare.roomy.clear.push pushed, (hsnug.clear hbare.isEmpty).push pushed⟩
  | step _ step ih => exact step.store ih.1 ih.2

/-- A search from a bare frontier leaves a bare one. -/
theorem Orderly.bare (h : Orderly t l root labels frontier s) (hbare : frontier.Bare) :
    s.frontier.Bare := by
  obtain ⟨moves, origin, hcourse⟩ := h.ends
  obtain ⟨hroomy, hsnug⟩ := hcourse.store hbare
  exact ⟨h.isEmpty, hsnug.capacity_of_isEmpty hroomy h.isEmpty⟩

end Search

/-- A run that does not search touches neither the frontier nor a label. -/
theorem Run.sameMarks_perform_partialRoutes (t : Topology) (root : NodeId) (l : Level) :
    Keeps SameMarks (perform t root l .partialRoutes) := by
  have h := chained_sameMarks
  unfold perform
  exact h.bind (h.tell rfl) fun _ => h.bind (sameMarks_rebuildTable t root l) fun _ =>
    h.bind (h.findings l) fun _ => h.bind (fun _ => ⟨rfl, fun _ => rfl⟩) fun _ =>
      h.bind (fun _ => ⟨rfl, fun _ => rfl⟩) fun _ => h.pure _

variable {t : Topology} {w w' : Workspace}

/-- **Between any two runs the frontier is bare**, if it was before the first one. -/
theorem Conducted.bare (h : Conducted t w w') (hbare : w.frontier.Bare) : w'.frontier.Bare := by
  induction h with
  | done => exact hbare
  | aside same _ _ ih => exact ih (same.frontier ▸ hbare)
  | @run w _ _ t' root l kind _ _ _ performed search _ ih =>
    by_cases hkind : kind = .partialRoutes
    · subst hkind
      have hsame := Run.sameMarks_perform_partialRoutes t' root l w
      rw [after_of_ok performed] at hsame
      exact ih (hsame.frontier ▸ hbare)
    · obtain ⟨hpartial, -⟩ | ⟨s, hs, hfrontier, -⟩ := Run.perform_marks performed
      · exact absurd hpartial hkind
      · obtain ⟨s', hs', horderly⟩ := search hkind
        cases hs.symm.trans hs'
        exact ih (hfrontier ▸ horderly.bare hbare)

namespace Session

/-- After every history the frontier is bare. -/
theorem bare_after (history : List Request) : (after {} history).workspace.frontier.Bare := by
  induction history using List.reverseRecOn with
  | nil => exact ⟨rfl, rfl⟩
  | append_singleton history r ih =>
    have hs := sound_after history
    have hidle := idle_after history
    rw [after_append]
    generalize after {} history = s at ih hs hidle ⊢
    change (s.serve r).2.workspace.frontier.Bare
    cases r with
    | change c => cases c <;> exact ih
    | configure settings => exact ih
    | renew settings => exact ⟨rfl, rfl⟩
    | compute c => exact (conducts_compute hs c hidle).1.bare ih

/-- **The store of a frontier stays in proportion.** After every sequence of calls of a new
frontier, each with a key of its own and some of them refused, the capacity is the least one doubled
a number of times, and all members have room. If no frontier with members was cleared, then the
capacity is the least one or at least a quarter of it is used; so it is the least one where there
are no members, and again once all of them have been taken away. In a session it is the least one
after every history, and between any two of the runs that a computation is made of. -/
theorem store_in_proportion (α : Type) [Ord α] :
    (∀ calls : List (Call α), (afterCalls {} calls).Roomy ∧
      (sparesMembers {} calls = true → (afterCalls {} calls).Snug ∧
        ((afterCalls {} calls).isEmpty = true →
          (afterCalls {} calls).capacity = leastCapacity) ∧
        ∀ (κ : Type) [LT κ] [DecidableLT κ] (key : α → κ),
          (drain key (afterCalls {} calls)).2.isEmpty = true ∧
            (drain key (afterCalls {} calls)).2.capacity = leastCapacity)) ∧
    ∀ history : List Request,
      (∀ v, Conducted (after {} history).topology (after {} history).workspace v →
        v.frontier.capacity = leastCapacity) ∧
      ∀ c, Conducted (after {} history).topology (after {} history).workspace
        ((after {} history).serve (.compute c)).2.workspace := by
  refine ⟨fun calls => ?_, fun history => ⟨fun v hv => ?_, fun c => ?_⟩⟩
  · have hroomy := roomy_empty.afterCalls calls
    refine ⟨hroomy, fun hcalls => ?_⟩
    have hsnug := snug_empty.afterCalls roomy_empty hcalls
    exact ⟨hsnug, hsnug.capacity_of_isEmpty hroomy, fun _ _ _ key => drain_store hroomy hsnug key⟩
  · exact (hv.bare (bare_after history)).capacity
  · exact (conducts_compute (sound_after history) c (idle_after history)).1

/-- Calls by which a store grows twice and shrinks once. Two of them are refused. -/
def growingCalls : List (Call Nat) :=
  .clear :: (List.range 33).map (Call.push id) ++
    [.push (fun n => 100 - n) 3, .decreaseKey id 99, .decreaseKey (fun n => 100 - n) 20] ++
    List.replicate 20 (.popMin id)

/-- A store that is doubled twice while it fills up, and is down to the least capacity again when
the last member has left; and the frontier of a session after a request that ended in a fault. -/
theorem store_in_proportion_growing :
    sparesMembers {} growingCalls = true ∧
      (afterCalls {} (growingCalls.take 34)).capacity = 64 ∧
      (afterCalls {} growingCalls).size = 13 ∧ (afterCalls {} growingCalls).capacity = 32 ∧
      (drain id (afterCalls {} growingCalls)).2.capacity = leastCapacity ∧
      (after {} (Run.pentagon.map .change ++
        [.compute (.farSpace ⟨99, 0⟩ ⟨0, 0⟩ .l1)])).workspace.frontier.capacity =
          leastCapacity := by
  have hcalls : sparesMembers {} growingCalls = true := by decide +kernel
  obtain ⟨hcapacity, hsession⟩ := store_in_proportion Nat
  exact ⟨hcalls, by decide +kernel, by decide +kernel, by decide +kernel,
    (((hcapacity growingCalls).2 hcalls).2.2 Nat id).2, (hsession _).1 _ (.done _)⟩

end Session

end LinkState
