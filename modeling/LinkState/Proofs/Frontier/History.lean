import LinkState.Proofs.Frontier.PriorityQueue
import Mathlib.Data.Fin.VecNotation
import Mathlib.Data.Fintype.Basic

/-!
# A frontier in use

The keys by which a frontier is ordered are kept elsewhere and change between its operations. A
`History` is what a user of a frontier does, changes of keys included, and it is `Admissible` when
the user keeps to three rules: what is added is no member, what is moved up is a member whose key,
alone, was lowered just before, and any other change of keys leaves the keys of members as they are.

The user books what has been put in and not been given back. The books say what the members have to
be; the frontier is not asked (`InUse`).

* `InUse.InOrder.run`: an admissible history breaks off nowhere and leaves the frontier in order,
  with the members that are on the books;
* `popMany_valid`: members taken from a frontier in order leave it by their keys, each one once;
* `isPriorityQueue_after`: after an admissible history the frontier does what a priority queue has
  to do.
-/

namespace LinkState.Frontier

variable {α : Type} [Ord α] {κ : Type} [LinearOrder κ] {key : α → κ} {f : Frontier α}

/-! ## The members -/

theorem popMin?_eq_none_iff_min? : f.popMin? key = none ↔ f.min? = none := by
  unfold popMin? min?
  split <;> simp [*]

/-- What is taken away is the member at the top. -/
theorem min?_of_popMin? {a : α} {g : Frontier α} (h : f.popMin? key = some (a, g)) :
    f.min? = some a := by
  unfold popMin? at h
  split at h
  · cases h
  · rename_i r hr
    cases h
    exact hr

theorem Indexed.nodup (hf : f.Indexed) : f.heap.toList.Nodup := by
  rw [List.nodup_iff_getElem?_ne_getElem?]
  intro i j hij hj heq
  rw [Array.getElem?_toList, Array.getElem?_toList] at heq
  rw [Array.length_toList] at hj
  have hj' := Array.getElem?_eq_getElem hj
  exact hij.ne (hf.position_inj (heq.trans hj') hj')

/-! ## Histories -/

/-- What a user of a frontier does to it, or to the keys. -/
inductive Operation (α κ : Type) where
  | push (a : α)
  | popMin
  /-- The keys change, and then the member is moved up. -/
  | decreaseKey (a : α) (key : α → κ)
  | clear
  /-- The keys change, and the frontier is not told. -/
  | rekey (key : α → κ)

/-- What a user of a frontier does, from the first operation to the last. -/
abbrev History (α κ : Type) := List (Operation α κ)

/-- A frontier in use. Its user keeps the keys, and books what has been put in and not been given
back. -/
structure InUse (α κ : Type) [Ord α] where
  frontier : Frontier α := {}
  key : α → κ
  members : Std.TreeSet α := ∅

namespace Operation

/-- The rules a user has to keep to. -/
def Allowed (u : InUse α κ) : Operation α κ → Prop
  | push a => u.members.contains a = false
  | popMin => True
  | decreaseKey a key =>
    u.members.contains a = true ∧ key a ≤ u.key a ∧ ∀ b, b ≠ a → key b = u.key b
  | clear => True
  | rekey key => ∀ a, u.members.contains a = true → key a = u.key a

instance [Fintype α] [DecidableEq α] (u : InUse α κ) : DecidablePred (Allowed u)
  | push a => inferInstanceAs (Decidable (u.members.contains a = false))
  | popMin => isTrue trivial
  | decreaseKey a key => inferInstanceAs (Decidable
      (u.members.contains a = true ∧ key a ≤ u.key a ∧ ∀ b, b ≠ a → key b = u.key b))
  | clear => isTrue trivial
  | rekey key => inferInstanceAs (Decidable
      (∀ a, u.members.contains a = true → key a = u.key a))

/-- Carries an operation out. What the books say afterwards depends on the operation, and on what
the frontier gives back. -/
def apply (u : InUse α κ) : Operation α κ → Except (Misuse α) (InUse α κ)
  | push a => (u.frontier.push u.key a).map fun f => ⟨f, u.key, u.members.insert a⟩
  | popMin =>
    match u.frontier.popMin? u.key with
    | none => .ok u
    | some (a, f) => .ok ⟨f, u.key, u.members.erase a⟩
  | decreaseKey a key => (u.frontier.decreaseKey key a).map fun f => ⟨f, key, u.members⟩
  | clear => .ok ⟨u.frontier.clear, u.key, ∅⟩
  | rekey key => .ok { u with key }

end Operation

namespace History

/-- Carries a history out, up to the first operation that is refused. -/
def run (u : InUse α κ) : History α κ → Except (Misuse α) (InUse α κ)
  | [] => .ok u
  | o :: h => (o.apply u).bind fun u => run u h

/-- Each operation keeps to the rules when its turn comes. -/
def Admissible (u : InUse α κ) : History α κ → Prop
  | [] => True
  | o :: h => o.Allowed u ∧
    match o.apply u with
    | .ok u => Admissible u h
    | .error _ => True

instance decidableAdmissible [Fintype α] [DecidableEq α] :
    (u : InUse α κ) → (h : History α κ) → Decidable (h.Admissible u)
  | _, [] => isTrue trivial
  | u, o :: h =>
    have : Decidable (match o.apply u with | .ok v => Admissible v h | .error _ => True) :=
      match o.apply u with
      | .ok v => decidableAdmissible v h
      | .error _ => isTrue trivial
    inferInstanceAs (Decidable (o.Allowed u ∧ _))

end History

/-- The frontier is in order, and its members are those on the books. -/
structure InUse.InOrder (u : InUse α κ) : Prop where
  valid : Valid u.key u.frontier
  contains : ∀ a, u.frontier.contains a = u.members.contains a

variable [Std.TransOrd α]

/-- A new frontier is in order, with nothing on the books. -/
theorem InUse.inOrder_new (key : α → κ) : InOrder { key } where
  valid := clear_valid {}
  contains _ := rfl

theorem Indexed.mem_iff (hf : f.Indexed) {a : α} :
    a ∈ f.heap.toList ↔ f.contains a = true := by
  rw [hf.contains_iff, Array.mem_toList_iff, Array.mem_iff_getElem?]

variable [Std.LawfulEqOrd α] {u : InUse α κ}

/-- An operation that keeps to the rules is carried out, and the books stay right. -/
theorem InUse.InOrder.apply (hu : u.InOrder) {o : Operation α κ} (ho : o.Allowed u) :
    ∃ v, o.apply u = .ok v ∧ v.InOrder := by
  cases o with
  | push a =>
    obtain ⟨g, hg, hvalid, hmem⟩ := push_valid hu.valid ((hu.contains a).trans ho)
    refine ⟨⟨g, u.key, u.members.insert a⟩, by rw [Operation.apply, hg]; rfl, hvalid, fun b => ?_⟩
    rw [Bool.eq_iff_iff, hmem, Std.TreeSet.contains_insert, Bool.or_eq_true, beq_iff_eq,
      Std.LawfulEqOrd.compare_eq_iff_eq, hu.contains, @eq_comm _ b]
  | popMin =>
    cases h : u.frontier.popMin? u.key with
    | none => exact ⟨u, by rw [Operation.apply, h], hu⟩
    | some p =>
      obtain ⟨a, g⟩ := p
      obtain ⟨-, -, hvalid, hmem⟩ := popMin?_valid hu.valid h
      refine ⟨⟨g, u.key, u.members.erase a⟩, by rw [Operation.apply, h], hvalid, fun b => ?_⟩
      rw [Bool.eq_iff_iff, hmem, Std.TreeSet.contains_erase, Bool.and_eq_true, bne_iff_ne, ne_eq,
        ne_eq, Std.LawfulEqOrd.compare_eq_iff_eq, hu.contains, and_comm, @eq_comm _ b]
  | decreaseKey a key =>
    obtain ⟨ha, hle, hother⟩ := ho
    obtain ⟨g, hg, hvalid, hmem⟩ := decreaseKey_valid hu.valid ((hu.contains a).trans ha)
      (fun b hb _ => hother b hb) hle
    exact ⟨⟨g, key, u.members⟩, by rw [Operation.apply, hg]; rfl, hvalid,
      fun b => (hmem b).trans (hu.contains b)⟩
  | clear => exact ⟨_, rfl, clear_valid u.frontier, contains_clear u.frontier⟩
  | rekey key =>
    exact ⟨_, rfl, hu.valid.congr fun a ha => ho a ((hu.contains a).symm.trans ha), hu.contains⟩

/-- An admissible history is carried out to its end, and the books stay right. -/
theorem InUse.InOrder.run (hu : u.InOrder) {h : History α κ} (hh : h.Admissible u) :
    ∃ v, h.run u = .ok v ∧ v.InOrder := by
  induction h generalizing u with
  | nil => exact ⟨u, rfl, hu⟩
  | cons o h ih =>
    obtain ⟨ho, hrest⟩ := hh
    obtain ⟨v, hv, hvalid⟩ := hu.apply ho
    rw [hv] at hrest
    obtain ⟨w, hw, hdone⟩ := ih hvalid hrest
    exact ⟨w, by rw [History.run, hv]; exact hw, hdone⟩

/-! ## Taking every member away -/

/-- The members before one is taken away are that one and those left. -/
theorem popMin?_perm (hf : Valid key f) {a : α} {g : Frontier α}
    (h : f.popMin? key = some (a, g)) : f.heap.toList.Perm (a :: g.heap.toList) := by
  obtain ⟨ha, -, hg, hmem⟩ := popMin?_valid hf h
  have hnew : a ∉ g.heap.toList := by
    rw [hg.indexed.mem_iff, hmem]
    exact fun h => h.2 rfl
  refine (List.perm_ext_iff_of_nodup hf.indexed.nodup
    (List.nodup_cons.2 ⟨hnew, hg.indexed.nodup⟩)).2 fun b => ?_
  rw [List.mem_cons, hf.indexed.mem_iff, hg.indexed.mem_iff, hmem]
  by_cases hb : b = a
  · exact iff_of_true (hb ▸ ha) (.inl hb)
  · simp [hb]

/-- **Taking members away one after another**: they leave by their keys, and together with those
left they are the members there were. -/
theorem popMany_valid (hf : Valid key f) (n : Nat) :
    f.heap.toList.Perm ((popMany key n f).1 ++ (popMany key n f).2.heap.toList) ∧
      (popMany key n f).1.Pairwise (fun a b => key a ≤ key b) ∧
      (f.size ≤ n → (popMany key n f).2.isEmpty = true) := by
  induction n generalizing f with
  | zero =>
    refine ⟨.refl _, .nil, fun hn => ?_⟩
    exact Array.isEmpty_iff.2 (Array.eq_empty_of_size_eq_zero (Nat.le_zero.1 hn))
  | succ n ih =>
    rw [popMany]
    cases h : f.popMin? key with
    | none =>
      refine ⟨.refl _, .nil, fun _ => ?_⟩
      exact (isEmpty_iff hf.indexed).2 ((popMin?_eq_none_iff hf.indexed).1 h)
    | some p =>
      obtain ⟨a, g⟩ := p
      obtain ⟨-, hleast, hg, hmem⟩ := popMin?_valid hf h
      obtain ⟨hperm, hsorted, hempty⟩ := ih hg
      have hcons := popMin?_perm hf h
      refine ⟨hcons.trans (hperm.cons a), List.pairwise_cons.2 ⟨fun b hb => ?_, hsorted⟩,
        fun hn => hempty ?_⟩
      · have hbg := hg.indexed.mem_iff.1 (hperm.mem_iff.2 (List.mem_append_left _ hb))
        exact hleast b ((hmem b).1 hbg).1
      · have hsize := hcons.length_eq
        rw [List.length_cons, Array.length_toList, Array.length_toList] at hsize
        rw [size, hsize] at hn
        exact Nat.le_of_succ_le_succ hn

/-! ## Priority queues -/

/-- What makes a frontier a priority queue: its two parts fit together and hold the members on the
books, the members are arranged by their keys, and the operations do what their names say. -/
structure InUse.IsPriorityQueue (u : InUse α κ) : Prop where
  /-- The members are what has been put in and not been given back. -/
  contains : ∀ a, u.frontier.contains a = u.members.contains a
  mem_heap : ∀ a, a ∈ u.frontier.heap.toList ↔ u.members.contains a = true
  /-- The position map names exactly the members of the heap, each at its own place. -/
  positions : ∀ (a : α) (i : Nat), u.frontier.positions[a]? = some i ↔ u.frontier.heap[i]? = some a
  nodup : u.frontier.heap.toList.Nodup
  parent_le : ∀ (i : Nat) (a b : α), 0 < i → u.frontier.heap[i]? = some a →
    u.frontier.heap[(i - 1) / 2]? = some b → u.key b ≤ u.key a
  /-- The member at the top is least, and there is one as long as there are members. -/
  min?_eq_none : u.frontier.min? = none ↔ ∀ a, u.members.contains a = false
  min?_least : ∀ a, u.frontier.min? = some a →
    u.members.contains a = true ∧ ∀ b, u.members.contains b = true → u.key a ≤ u.key b
  /-- The member at the top is what is taken away, and nothing else. -/
  popMin?_eq_none : u.frontier.min? = none → u.frontier.popMin? u.key = none
  popMin?_eq_some : ∀ a, u.frontier.min? = some a → ∃ g, u.frontier.popMin? u.key = some (a, g) ∧
    ∀ b, g.contains b = true ↔ u.members.contains b = true ∧ b ≠ a
  /-- What is no member can be added, and nothing else is. -/
  push : ∀ a, u.members.contains a = false → ∃ g, u.frontier.push u.key a = .ok g ∧
    ∀ b, g.contains b = true ↔ b = a ∨ u.members.contains b = true
  /-- A member whose key was lowered can be moved up, and the members stay. -/
  decreaseKey : ∀ a (key : α → κ), u.members.contains a = true → key a ≤ u.key a →
    (∀ b, b ≠ a → key b = u.key b) → ∃ g, u.frontier.decreaseKey key a = .ok g ∧
      ∀ b, g.contains b = u.members.contains b
  clear : ∀ b, u.frontier.clear.contains b = false
  /-- Taking members away to the end yields each one once, by their keys. -/
  drain_nodup : (u.frontier.drain u.key).1.Nodup
  mem_drain : ∀ a, a ∈ (u.frontier.drain u.key).1 ↔ u.members.contains a = true
  drain_sorted : (u.frontier.drain u.key).1.Pairwise fun a b => u.key a ≤ u.key b
  drain_isEmpty : (u.frontier.drain u.key).2.isEmpty = true

/-- Draining a frontier yields its members. -/
theorem drain_perm (hf : Valid key f) : (f.drain key).1.Perm f.heap.toList := by
  obtain ⟨hperm, -, hempty⟩ := popMany_valid hf f.size
  rw [Array.isEmpty_iff.1 (hempty le_rfl), List.append_nil] at hperm
  exact hperm.symm

theorem InUse.InOrder.isPriorityQueue (hu : u.InOrder) : u.IsPriorityQueue := by
  obtain ⟨-, hsorted, hempty⟩ := popMany_valid hu.valid u.frontier.size
  have hindexed := hu.valid.indexed
  have hperm := drain_perm hu.valid
  have hnone : u.frontier.popMin? u.key = none ↔ u.frontier.min? = none :=
    popMin?_eq_none_iff_min?
  have hmem : ∀ a, a ∈ u.frontier.heap.toList ↔ u.members.contains a = true := fun a => by
    rw [hindexed.mem_iff, hu.contains]
  refine {
    contains := hu.contains
    mem_heap := hmem
    positions := hindexed
    nodup := hindexed.nodup
    parent_le := fun i a b hi ha hb => less_eq_false_iff.1 (hu.valid.ordered i hi) a b ha hb
    min?_eq_none := ?_
    min?_least := fun a ha => ?_
    popMin?_eq_none := hnone.2
    popMin?_eq_some := fun a ha => ?_
    push := fun a ha => ?_
    decreaseKey := fun a key ha hle hother => ?_
    clear := contains_clear u.frontier
    drain_nodup := hperm.nodup_iff.2 hindexed.nodup
    mem_drain := fun a => hperm.mem_iff.trans (hmem a)
    drain_sorted := hsorted
    drain_isEmpty := hempty le_rfl }
  · rw [← hnone, popMin?_eq_none_iff hindexed]
    simp only [hu.contains]
  · refine ⟨(hmem a).1 (hindexed.mem_iff.2 (hindexed.contains_iff.2 ⟨0, ha⟩)), fun b hb => ?_⟩
    obtain ⟨i, hi⟩ := hindexed.contains_iff.1 ((hu.contains b).trans hb)
    exact hu.valid.ordered.least ha i b hi
  · cases h : u.frontier.popMin? u.key with
    | none =>
      rw [hnone.1 h] at ha
      cases ha
    | some p =>
      obtain ⟨b, g⟩ := p
      cases (min?_of_popMin? h).symm.trans ha
      refine ⟨g, rfl, fun b => ?_⟩
      rw [(popMin?_valid hu.valid h).2.2.2, hu.contains]
  · obtain ⟨g, hg, -, hnew⟩ := push_valid hu.valid ((hu.contains a).trans ha)
    exact ⟨g, hg, fun b => by rw [hnew, hu.contains]⟩
  · obtain ⟨g, hg, -, hsame⟩ := decreaseKey_valid hu.valid ((hu.contains a).trans ha)
      (fun b hb _ => hother b hb) hle
    exact ⟨g, hg, fun b => (hsame b).trans (hu.contains b)⟩

/-- **The frontier is a priority queue**: whatever the keys are at first, every admissible history
of a new frontier is carried out to its end, and leaves a priority queue behind, of what the history
has put in and not been given back, for the keys as they are then. -/
theorem isPriorityQueue_after (key : α → κ) (h : History α κ) (hh : h.Admissible { key }) :
    ∃ u, h.run { key } = .ok u ∧ u.IsPriorityQueue := by
  obtain ⟨u, hu, horder⟩ := (InUse.inOrder_new key).run hh
  exact ⟨u, hu, horder.isPriorityQueue⟩

/-- A history of every kind of operation, with two members of equal keys. -/
def mixedHistory : History (Fin 5) Nat :=
  [.push 4, .clear, .push 2, .push 3, .push 1, .decreaseKey 3 ![0, 1, 2, 0, 3], .popMin,
    .rekey ![9, 1, 2, 7, 8], .push 0]

/-- Of the five members put in, one is dropped and one is given back: the one that was moved up. -/
theorem isPriorityQueue_after_mixedHistory :
    mixedHistory.Admissible { key := ![0, 1, 2, 2, 3] } ∧
      ∃ u, mixedHistory.run { key := ![0, 1, 2, 2, 3] } = .ok u ∧
        u.members.toList = [0, 1, 2] ∧ u.IsPriorityQueue := by
  have hh : mixedHistory.Admissible { key := ![0, 1, 2, 2, 3] } := by decide +kernel
  obtain ⟨u, hu, hqueue⟩ := isPriorityQueue_after _ _ hh
  have hmembers : (mixedHistory.run { key := ![0, 1, 2, 2, 3] }).toOption.map
      (·.members.toList) = some [0, 1, 2] := by decide +kernel
  rw [hu] at hmembers
  exact ⟨hh, u, hu, Option.some.inj hmembers, hqueue⟩

end LinkState.Frontier
