import LinkState.Workspace
import Mathlib.Data.List.Induction

/-!
# Computations that succeed

What the success of a computation says of its parts: a sequence succeeds if its first part does and
then the rest (`bind_eq_ok`), a check leaves the workspace as it was (`check_eq_ok`), and a
computation whose refusal is caught succeeds with its answer or with the refusal
(`attempt_eq_ok`). Steps that go on as long as all is well succeed if and only if it is well at the
end (`except_foldlM_eq_ok_iff`). Whether a computation succeeds with an answer of some sort can be
computed (`yields`).
-/

namespace LinkState

/-- A sequence of checks that succeeds. -/
theorem except_bind_eq_ok {ε α β : Type} {x : Except ε α} {k : α → Except ε β} {b : β} :
    (x >>= k) = .ok b ↔ ∃ a, x = .ok a ∧ k a = .ok b := by
  cases x with
  | error e =>
    refine ⟨fun h => ?_, fun ⟨a, h, _⟩ => ?_⟩ <;> cases h
  | ok a =>
    refine ⟨fun h => ⟨a, rfl, h⟩, fun ⟨a', ha, h⟩ => ?_⟩
    cases ha
    exact h

/-- What every step keeps holds at the end of a sequence of steps that succeeds. -/
theorem except_foldlM_induction {ε α σ : Type} {P : σ → Prop} {step : σ → α → Except ε σ}
    {xs : List α} (hstep : ∀ x ∈ xs, ∀ s s', step s x = .ok s' → P s → P s') {s s' : σ}
    (h : xs.foldlM step s = .ok s') (hs : P s) : P s' := by
  induction xs generalizing s with
  | nil =>
    cases h
    exact hs
  | cons x xs ih =>
    rw [List.foldlM_cons] at h
    obtain ⟨s₁, h₁, h⟩ := except_bind_eq_ok.1 h
    obtain ⟨hx, hxs⟩ := List.forall_mem_cons.1 hstep
    exact ih hxs h (hx s s₁ h₁ hs)

/-- A sequence of steps, each of which succeeds if and only if what has been done so far, with the
next one, is still good, and then leads to the state that belongs to it. -/
theorem except_foldlM_eq_ok_iff {ε α σ : Type} (step : σ → α → Except ε σ) (state : List α → σ)
    (Good : List α → Prop) (xs : List α) (hnil : Good [])
    (hbefore : ∀ ys y, Good (ys ++ [y]) → Good ys)
    (hstep : ∀ ys y, ys ++ [y] <+: xs → Good ys → ∀ s,
      step (state ys) y = .ok s ↔ Good (ys ++ [y]) ∧ s = state (ys ++ [y])) {s : σ} :
    xs.foldlM step (state []) = .ok s ↔ Good xs ∧ s = state xs := by
  induction xs using List.reverseRecOn generalizing s with
  | nil =>
    change Except.ok (state []) = .ok s ↔ _
    rw [Except.ok.injEq, and_iff_right hnil, eq_comm]
  | append_singleton ys y ih =>
    have hys : ∀ {s}, ys.foldlM step (state []) = .ok s ↔ Good ys ∧ s = state ys :=
      ih fun zs z hzs => hstep zs z (hzs.trans (List.prefix_append ..))
    rw [List.foldlM_append, except_bind_eq_ok]
    constructor
    · rintro ⟨s₁, h₁, h⟩
      obtain ⟨hgood, rfl⟩ := hys.1 h₁
      rw [List.foldlM_cons, except_bind_eq_ok] at h
      obtain ⟨s₂, h₂, h⟩ := h
      cases h
      exact (hstep ys y List.prefix_rfl hgood _).1 h₂
    · rintro ⟨hgood, rfl⟩
      have hys' := hbefore ys y hgood
      refine ⟨_, hys.2 ⟨hys', rfl⟩, ?_⟩
      rw [List.foldlM_cons, (hstep ys y List.prefix_rfl hys' _).2 ⟨hgood, rfl⟩]
      rfl

namespace Compute

variable {α β : Type} {c : Compute α} {k : α → Compute β} {w w' : Workspace}

theorem bind_eq_ok {b : β} :
    (c >>= k) w = .ok b w' ↔ ∃ a w₁, c w = .ok a w₁ ∧ k a w₁ = .ok b w' := by
  change EStateM.bind c k w = _ ↔ _
  unfold EStateM.bind
  cases hc : c w with
  | ok a w₁ =>
    refine ⟨fun h => ⟨a, w₁, rfl, h⟩, fun ⟨a', w₁', ha, h⟩ => ?_⟩
    cases ha
    exact h
  | error e w₁ =>
    refine ⟨fun h => ?_, fun ⟨a, w₁', h, _⟩ => ?_⟩ <;> cases h

theorem pure_eq_ok {a b : α} : (pure a : Compute α) w = .ok b w' ↔ a = b ∧ w = w' := by
  change EStateM.Result.ok a w = _ ↔ _
  rw [EStateM.Result.ok.injEq]

theorem map_eq_ok {f : α → β} {b : β} :
    (f <$> c) w = .ok b w' ↔ ∃ a, c w = .ok a w' ∧ f a = b := by
  rw [← bind_pure_comp, bind_eq_ok]
  constructor
  · rintro ⟨a, w₁, ha, h⟩
    obtain ⟨rfl, rfl⟩ := pure_eq_ok.1 h
    exact ⟨a, ha, rfl⟩
  · rintro ⟨a, ha, rfl⟩
    exact ⟨a, w', ha, rfl⟩

theorem map_eq_error {f : α → β} {e : Failure} :
    (f <$> c) w = .error e w' ↔ c w = .error e w' := by
  change EStateM.map f c w = _ ↔ _
  unfold EStateM.map
  cases c w with
  | ok a w₁ => constructor <;> exact nofun
  | error e' w₁ => simp only [EStateM.Result.error.injEq]

theorem refuse_eq_ok {e : Error} {a : α} : (refuse e : Compute α) w = .ok a w' ↔ False := by
  refine ⟨fun h => ?_, False.elim⟩
  cases h

theorem check_eq_ok {r : Except Error α} {a : α} :
    check r w = .ok a w' ↔ r = .ok a ∧ w = w' := by
  cases r with
  | ok b => rw [check, pure_eq_ok, Except.ok.injEq]
  | error e =>
    rw [check, refuse_eq_ok]
    simp

theorem row_eq_ok {o : Option α} {a : α} : row o w = .ok a w' ↔ o = some a ∧ w = w' := by
  cases o with
  | some b => rw [row, pure_eq_ok, Option.some.injEq]
  | none =>
    refine ⟨fun h => ?_, fun ⟨h, _⟩ => ?_⟩ <;> cases h

theorem findings_eq_ok {l : Level} {f : Findings} :
    findings l w = .ok f w' ↔ w.findings.get l = f ∧ w = w' := by
  change EStateM.Result.ok (w.findings.get l) w = _ ↔ _
  rw [EStateM.Result.ok.injEq]

theorem emit_eq_ok {e : Event} :
    emit e w = .ok () w' ↔ { w with trace := w.trace ++ [e] } = w' := by
  change EStateM.Result.ok () _ = _ ↔ _
  simp

theorem modifyFindings_eq_ok {l : Level} {f : Findings → Findings} :
    modifyFindings l f w = .ok () w' ↔ { w with findings := w.findings.modify l f } = w' := by
  change EStateM.Result.ok () _ = _ ↔ _
  simp

/-- Events are of no account for what is known. -/
theorem findings_of_emit {e : Event} (h : emit e w = .ok () w') : w'.findings = w.findings := by
  rw [← emit_eq_ok.1 h]

theorem attempt_eq_ok {r : Except Error α} :
    attempt c w = .ok r w' ↔
      (∃ a, r = .ok a ∧ c w = .ok a w') ∨ ∃ e, r = .error e ∧ c w = .error (.error e) w' := by
  unfold attempt
  cases c w with
  | ok a w₁ =>
    constructor
    · intro h
      cases h
      exact .inl ⟨a, rfl, rfl⟩
    · rintro (⟨a', rfl, h⟩ | ⟨e, rfl, h⟩) <;> cases h
      rfl
  | error e w₁ =>
    cases e with
    | error e =>
      constructor
      · intro h
        cases h
        exact .inr ⟨e, rfl, rfl⟩
      · rintro (⟨a', rfl, h⟩ | ⟨e', rfl, h⟩) <;> cases h
        rfl
    | fault f =>
      constructor
      · intro h
        cases h
      · rintro (⟨a', rfl, h⟩ | ⟨e', rfl, h⟩) <;> cases h

/-- Whether a computation succeeds with an answer that satisfies a condition. -/
def yields (c : Compute α) (w : Workspace) (p : α → Bool) : Bool :=
  match c w with
  | .ok a _ => p a
  | .error _ _ => false

theorem exists_of_yields {p : α → Bool} (h : c.yields w p = true) :
    ∃ a w', c w = .ok a w' ∧ p a = true := by
  unfold yields at h
  split at h
  · exact ⟨_, _, ‹_›, h⟩
  · cases h

end Compute

end LinkState
