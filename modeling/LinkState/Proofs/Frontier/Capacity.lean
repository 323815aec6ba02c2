import LinkState.Frontier
import Mathlib.Algebra.Group.Nat.Defs
import Mathlib.Tactic.Common

/-!
# The store of a frontier

A frontier keeps its members in a store. The store is doubled when a member is added to a full one,
and halved when a member has left and fewer than a quarter of it is used. What an operation makes of
the size and of the capacity depends neither on the keys nor on the places of the members
(`push_store`, `popMin?_store`, `decreaseKey_store`), so each `Call` brings a key of its own here,
and one that is refused leaves the frontier as it was.

* `Roomy`: the capacity is the least one doubled a number of times, and all members have room. Every
  call keeps this (`Call.roomy`).
* `Snug`: the capacity is the least one, or at least a quarter of it is used. A call keeps this
  unless it clears a frontier with members (`Call.snug`), which keeps its store
  (`not_snug_clear`).

So a snug frontier has the least capacity whenever it is empty, without being told
(`Snug.capacity_of_isEmpty`), in particular after all members have been taken away (`drain_store`).
-/

namespace LinkState.Frontier

variable {α : Type} [Ord α] {κ : Type} [LT κ] [DecidableLT κ] {key : α → κ} {f g : Frontier α}

/-! ## Size and capacity after an operation -/

/-- As many members in a store of the same capacity. -/
structure SameStore (f g : Frontier α) : Prop where
  size : g.size = f.size
  capacity : g.capacity = f.capacity

theorem SameStore.trans {h : Frontier α} (hfg : SameStore f g) (hgh : SameStore g h) :
    SameStore f h :=
  ⟨hgh.size.trans hfg.size, hgh.capacity.trans hfg.capacity⟩

theorem swap_store (f : Frontier α) (i j : Nat) : SameStore f (f.swap i j) := by
  refine ⟨size_swap f i j, ?_⟩
  unfold swap
  split <;> rfl

theorem siftUp_store (key : α → κ) (f : Frontier α) (i : Nat) : SameStore f (siftUp key f i) := by
  fun_induction siftUp key f i with
  | case1 f i hi hless ih => exact (swap_store f _ _).trans ih
  | case2 f i => exact ⟨rfl, rfl⟩
  | case3 f i => exact ⟨rfl, rfl⟩

theorem siftDown_store (key : α → κ) (f : Frontier α) (i : Nat) :
    SameStore f (siftDown key f i) := by
  fun_induction siftDown key f i with
  | case1 f i => exact ⟨rfl, rfl⟩
  | case2 f i hi ih => exact (swap_store f _ _).trans ih

theorem push_store {a : α} (h : f.push key a = .ok g) :
    g.size = f.size + 1 ∧
      g.capacity = if f.size = f.capacity then f.capacity * 2 else f.capacity := by
  unfold push at h
  split at h
  · cases h
  · cases h
    obtain ⟨hsize, hcapacity⟩ := siftUp_store key
      { heap := f.heap.push a
        positions := f.positions.insert a f.heap.size
        capacity := if f.heap.size = f.capacity then f.capacity * 2 else f.capacity } f.heap.size
    exact ⟨hsize.trans (Array.size_push a), hcapacity⟩

theorem shrink_store (f : Frontier α) :
    f.shrink.size = f.size ∧ f.shrink.capacity =
      if f.size < f.capacity / 4 ∧ leastCapacity < f.capacity then f.capacity / 2
      else f.capacity := by
  unfold shrink size
  split <;> exact ⟨rfl, rfl⟩

theorem popMin?_store {a : α} (h : f.popMin? key = some (a, g)) :
    f.size = g.size + 1 ∧ g.capacity =
      if g.size < f.capacity / 4 ∧ leastCapacity < f.capacity then f.capacity / 2
      else f.capacity := by
  unfold popMin? at h
  split at h
  · cases h
  rename_i b hb
  cases h
  have hpos : 0 < f.size := (Array.getElem?_eq_some_iff.1 hb).1
  have hswap := swap_store f 0 (f.heap.size - 1)
  generalize f.swap 0 (f.heap.size - 1) = s at hswap ⊢
  have hsift := siftDown_store key
    { s with heap := s.heap.pop, positions := s.positions.erase a } 0
  generalize siftDown key { s with heap := s.heap.pop, positions := s.positions.erase a } 0 = d
    at hsift ⊢
  obtain ⟨hsize, hcapacity⟩ := shrink_store d
  have hd : d.size = s.size - 1 := hsift.size.trans Array.size_pop
  rw [hsize, hcapacity, hd, hsift.capacity, hswap.size, hswap.capacity]
  exact ⟨by omega, rfl⟩

theorem isEmpty_iff_size : f.isEmpty = true ↔ f.size = 0 := by
  rw [isEmpty, size, Array.isEmpty_iff_size_eq_zero]

theorem size_of_popMin?_eq_none (h : f.popMin? key = none) : f.size = 0 := by
  unfold popMin? at h
  split at h
  · rename_i hnone
    exact Nat.le_zero.1 (Array.getElem?_eq_none_iff.1 hnone)
  · cases h

theorem decreaseKey_store {a : α} (h : f.decreaseKey key a = .ok g) : SameStore f g := by
  unfold decreaseKey at h
  split at h <;> cases h
  exact siftUp_store key f _

/-! ## Room for all members, and not too much -/

/-- The capacity is the least one doubled a number of times, and all members have room. -/
structure Roomy (f : Frontier α) : Prop where
  doubled : ∃ n, f.capacity = leastCapacity * 2 ^ n
  size_le : f.size ≤ f.capacity

/-- The capacity is the least one, or at least a quarter of it is used. -/
def Snug (f : Frontier α) : Prop := f.capacity = leastCapacity ∨ f.capacity ≤ 4 * f.size

theorem roomy_empty : Roomy ({} : Frontier α) := ⟨⟨0, rfl⟩, Nat.zero_le _⟩

theorem snug_empty : Snug ({} : Frontier α) := .inl rfl

theorem Roomy.pos (h : f.Roomy) : 0 < f.capacity := by
  obtain ⟨n, hn⟩ := h.doubled
  rw [hn]
  exact Nat.mul_pos (by decide) (Nat.two_pow_pos n)

theorem Snug.capacity_of_isEmpty (h : f.Snug) (hroomy : f.Roomy) (hempty : f.isEmpty = true) :
    f.capacity = leastCapacity := by
  have hpos := hroomy.pos
  rw [isEmpty_iff_size] at hempty
  unfold Snug at h
  omega

theorem Roomy.sameStore (h : f.Roomy) (hg : SameStore f g) : g.Roomy := by
  refine ⟨?_, ?_⟩
  · rw [hg.capacity]
    exact h.doubled
  · rw [hg.size, hg.capacity]
    exact h.size_le

theorem Snug.sameStore (h : f.Snug) (hg : SameStore f g) : g.Snug := by
  unfold Snug
  rw [hg.size, hg.capacity]
  exact h

theorem Roomy.push (h : f.Roomy) {a : α} (hg : f.push key a = .ok g) : g.Roomy := by
  obtain ⟨hsize, hcapacity⟩ := push_store hg
  obtain ⟨n, hn⟩ := h.doubled
  have hle := h.size_le
  have hpos := h.pos
  split at hcapacity
  · refine ⟨⟨n + 1, ?_⟩, by omega⟩
    rw [hcapacity, hn, Nat.pow_succ, Nat.mul_assoc]
  · exact ⟨⟨n, hcapacity.trans hn⟩, by omega⟩

theorem Snug.push (h : f.Snug) {a : α} (hg : f.push key a = .ok g) : g.Snug := by
  obtain ⟨hsize, hcapacity⟩ := push_store hg
  unfold Snug at h ⊢
  split at hcapacity <;> omega

theorem Roomy.popMin? (h : f.Roomy) {a : α} (hg : f.popMin? key = some (a, g)) : g.Roomy := by
  obtain ⟨hsize, hcapacity⟩ := popMin?_store hg
  obtain ⟨n, hn⟩ := h.doubled
  have hle := h.size_le
  split at hcapacity
  · rename_i hhalved
    -- a capacity above the least one has been doubled before
    cases n with
    | zero => exact absurd (hn ▸ hhalved.2) (Nat.lt_irrefl _)
    | succ n =>
      refine ⟨⟨n, ?_⟩, by omega⟩
      rw [hcapacity, hn, Nat.pow_succ, ← Nat.mul_assoc, Nat.mul_div_cancel _ (by decide)]
  · exact ⟨⟨n, hcapacity.trans hn⟩, by omega⟩

theorem Snug.popMin? (h : f.Snug) (hroomy : f.Roomy) {a : α}
    (hg : f.popMin? key = some (a, g)) : g.Snug := by
  obtain ⟨hsize, hcapacity⟩ := popMin?_store hg
  obtain ⟨n, hn⟩ := hroomy.doubled
  have hpow := Nat.two_pow_pos n
  generalize 2 ^ n = p at hn hpow
  unfold Snug at h ⊢
  unfold leastCapacity at h hn hcapacity ⊢
  split at hcapacity <;> omega

theorem Roomy.clear (h : f.Roomy) : f.clear.Roomy := ⟨h.doubled, Nat.zero_le _⟩

theorem Snug.clear (h : f.Snug) (hempty : f.isEmpty = true) : f.clear.Snug := by
  refine h.sameStore ⟨?_, rfl⟩
  rw [isEmpty_iff_size.1 hempty]
  rfl

/-- A frontier cleared of more members than the least store holds keeps a store that is too
large. -/
theorem not_snug_clear (h : f.Roomy) (hsize : leastCapacity < f.size) : ¬f.clear.Snug := by
  have hle := h.size_le
  rintro (hleast | hused)
  · have : f.capacity = leastCapacity := hleast
    omega
  · have : f.capacity ≤ 4 * 0 := hused
    omega

/-- **Taking all members away** leaves a snug frontier the least capacity, whatever the keys are. -/
theorem drain_store (hroomy : f.Roomy) (hsnug : f.Snug) (key : α → κ) :
    (f.drain key).2.isEmpty = true ∧ (f.drain key).2.capacity = leastCapacity := by
  have hmany : ∀ n (f : Frontier α), f.size ≤ n → f.Roomy → f.Snug →
      (popMany key n f).2.size = 0 ∧ (popMany key n f).2.Roomy ∧ (popMany key n f).2.Snug := by
    intro n
    induction n with
    | zero => exact fun f hn hroomy hsnug => ⟨Nat.le_zero.1 hn, hroomy, hsnug⟩
    | succ n ih =>
      intro f hn hroomy hsnug
      rw [popMany]
      cases h : f.popMin? key with
      | none => exact ⟨size_of_popMin?_eq_none h, hroomy, hsnug⟩
      | some p =>
        have hsize := (popMin?_store h).1
        exact ih p.2 (by omega) (hroomy.popMin? h) (hsnug.popMin? hroomy h)
  obtain ⟨hsize, hroomy, hsnug⟩ := hmany f.size f (Nat.le_refl _) hroomy hsnug
  have hempty := isEmpty_iff_size.2 hsize
  exact ⟨hempty, hsnug.capacity_of_isEmpty hroomy hempty⟩

/-! ## Calls -/

/-- A call of an operation, with the key by which the caller compares members this time. -/
inductive Call (α : Type) : Type 1 where
  | push {κ : Type} [LT κ] [DecidableLT κ] (key : α → κ) (a : α)
  | popMin {κ : Type} [LT κ] [DecidableLT κ] (key : α → κ)
  | decreaseKey {κ : Type} [LT κ] [DecidableLT κ] (key : α → κ) (a : α)
  | clear

namespace Call

/-- The frontier after a call. One that is refused changes nothing. -/
def apply (f : Frontier α) : Call α → Frontier α
  | push key a => (f.push key a).toOption.getD f
  | popMin key => ((f.popMin? key).map (·.2)).getD f
  | decreaseKey key a => (f.decreaseKey key a).toOption.getD f
  | clear => f.clear

/-- Whether a call does not clear a frontier with members. -/
def sparesMembers (f : Frontier α) : Call α → Bool
  | clear => f.isEmpty
  | _ => true

/-- What holds of a frontier, and of the one that is returned if a call is accepted, holds after
the call. -/
theorem getD_induction {P : Frontier α → Prop} {ε : Type} {r : Except ε (Frontier α)} (hf : P f)
    (hr : ∀ g, r = .ok g → P g) : P (r.toOption.getD f) := by
  cases r with
  | ok g => exact hr g rfl
  | error e => exact hf

theorem roomy (h : f.Roomy) (c : Call α) : (c.apply f).Roomy := by
  cases c with
  | push key a => exact getD_induction h fun g hg => h.push hg
  | popMin key =>
    cases hpop : f.popMin? key with
    | none =>
      rw [apply, hpop]
      exact h
    | some p =>
      rw [apply, hpop]
      exact h.popMin? hpop
  | decreaseKey key a => exact getD_induction h fun g hg => h.sameStore (decreaseKey_store hg)
  | clear => exact h.clear

theorem snug (h : f.Snug) (hroomy : f.Roomy) {c : Call α} (hc : c.sparesMembers f = true) :
    (c.apply f).Snug := by
  cases c with
  | push key a => exact getD_induction h fun g hg => h.push hg
  | popMin key =>
    cases hpop : f.popMin? key with
    | none =>
      rw [apply, hpop]
      exact h
    | some p =>
      rw [apply, hpop]
      exact h.popMin? hroomy hpop
  | decreaseKey key a => exact getD_induction h fun g hg => h.sameStore (decreaseKey_store hg)
  | clear => exact h.clear hc

end Call

/-- The frontier after a sequence of calls, be they accepted or refused. -/
def afterCalls (f : Frontier α) (calls : List (Call α)) : Frontier α := calls.foldl Call.apply f

/-- No call of a sequence clears a frontier with members. -/
def sparesMembers (f : Frontier α) : List (Call α) → Bool
  | [] => true
  | c :: calls => c.sparesMembers f && sparesMembers (c.apply f) calls

/-- **Every sequence of calls keeps room for all members.** -/
theorem Roomy.afterCalls (h : f.Roomy) (calls : List (Call α)) : (f.afterCalls calls).Roomy := by
  induction calls generalizing f with
  | nil => exact h
  | cons c calls ih => exact ih (Call.roomy h c)

/-- **A store grows no larger than it must be**, as long as no frontier with members is cleared. -/
theorem Snug.afterCalls (h : f.Snug) (hroomy : f.Roomy) {calls : List (Call α)}
    (hcalls : sparesMembers f calls = true) : (f.afterCalls calls).Snug := by
  induction calls generalizing f with
  | nil => exact h
  | cons c calls ih =>
    obtain ⟨hc, hcalls⟩ := (Bool.and_eq_true _ _).mp hcalls
    exact ih (Call.snug h hroomy hc) (Call.roomy hroomy c) hcalls

end LinkState.Frontier
