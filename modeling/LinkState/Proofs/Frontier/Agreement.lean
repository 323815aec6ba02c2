import LinkState.Frontier
import Mathlib.Tactic.Common

/-!
# What the operations of a frontier depend on

The operations look at the heap, at the positions, and at the keys of members. So two frontiers with
the same heap and the same positions (`SameOrder`) stay so under every operation, whatever their
capacities, and even if the keys by which they are ordered differ for what is no member of them
(`Agree`).
-/

namespace LinkState.Frontier

variable {α : Type} [Ord α] {κ : Type} {key key' : α → κ} {f g f' g' : Frontier α}

/-- The same members in the same places. -/
structure SameOrder (f g : Frontier α) : Prop where
  heap : f.heap = g.heap
  positions : f.positions = g.positions

/-- Two key functions agree on the members of a frontier. -/
def Agree (key key' : α → κ) (f : Frontier α) : Prop := ∀ a ∈ f.heap, key a = key' a

theorem SameOrder.swap (h : SameOrder f g) (i j : Nat) : SameOrder (f.swap i j) (g.swap i j) := by
  unfold Frontier.swap
  rw [h.heap, h.positions]
  split
  · exact ⟨rfl, rfl⟩
  · exact h

theorem SameOrder.size_eq (h : SameOrder f g) : f.heap.size = g.heap.size := by rw [h.heap]

theorem mem_heap_swap {i j : Nat} {a : α} : a ∈ (f.swap i j).heap ↔ a ∈ f.heap := by
  unfold Frontier.swap
  split
  · rw [Array.swapIfInBounds_def]
    split
    · split
      · exact (Array.swap_perm _ _).mem_iff
      · rfl
    · rfl
  · rfl

theorem Agree.swap (h : Agree key key' f) (i j : Nat) : Agree key key' (f.swap i j) :=
  fun a ha => h a (mem_heap_swap.1 ha)

variable [LT κ] [DecidableLT κ]

theorem SameOrder.less_eq (h : SameOrder f g) (hkey : Agree key key' f) (i j : Nat) :
    f.less key i j = g.less key' i j := by
  unfold Frontier.less
  rw [← h.heap]
  split
  · rename_i a b hi hj
    rw [hkey a (Array.mem_of_getElem? hi), hkey b (Array.mem_of_getElem? hj)]
  · rfl

theorem SameOrder.lesser_eq (h : SameOrder f g) (hkey : Agree key key' f) (i j : Nat) :
    f.lesser key i j = g.lesser key' i j := by
  rw [Frontier.lesser, Frontier.lesser, h.less_eq hkey]

theorem SameOrder.leastBelow_eq (h : SameOrder f g) (hkey : Agree key key' f) (i : Nat) :
    f.leastBelow key i = g.leastBelow key' i := by
  rw [Frontier.leastBelow, Frontier.leastBelow, h.lesser_eq hkey, h.lesser_eq hkey]

theorem SameOrder.siftUp (h : SameOrder f g) (hkey : Agree key key' f) (i : Nat) :
    SameOrder (siftUp key f i) (siftUp key' g i) := by
  fun_induction Frontier.siftUp key f i generalizing g with
  | case1 f i hi hless ih =>
    have hg : Frontier.siftUp key' g i =
        Frontier.siftUp key' (g.swap i ((i - 1) / 2)) ((i - 1) / 2) := by
      rw [Frontier.siftUp, dif_pos hi, if_pos (h.less_eq hkey .. ▸ hless)]
    exact hg ▸ ih (h.swap ..) (hkey.swap _ _)
  | case2 f i hi hless =>
    rw [Frontier.siftUp, dif_pos hi, if_neg (h.less_eq hkey .. ▸ hless)]
    exact h
  | case3 f i hi =>
    rw [Frontier.siftUp, dif_neg hi]
    exact h

theorem SameOrder.siftDown (h : SameOrder f g) (hkey : Agree key key' f) (i : Nat) :
    SameOrder (siftDown key f i) (siftDown key' g i) := by
  fun_induction Frontier.siftDown key f i generalizing g with
  | case1 f i hleast =>
    rw [Frontier.siftDown, dif_pos (h.leastBelow_eq hkey i ▸ hleast)]
    exact h
  | case2 f i hleast ih =>
    have hsame := h.leastBelow_eq hkey i
    have hg : Frontier.siftDown key' g i =
        Frontier.siftDown key' (g.swap i (f.leastBelow key i)) (f.leastBelow key i) := by
      rw [Frontier.siftDown, dif_neg (hsame ▸ hleast), hsame]
    exact hg ▸ ih (h.swap ..) (hkey.swap _ _)

theorem SameOrder.shrink (h : SameOrder f g) : SameOrder f.shrink g.shrink := by
  unfold Frontier.shrink
  split <;> split <;> exact ⟨h.heap, h.positions⟩

theorem sameOrder_clear (f g : Frontier α) : SameOrder f.clear g.clear := ⟨rfl, rfl⟩

/-! ## The operations -/

theorem SameOrder.push (h : SameOrder f g) {a : α} (hkey : Agree key key' f) (ha : key a = key' a)
    (hf : f.push key a = .ok f') : ∃ g', g.push key' a = .ok g' ∧ SameOrder f' g' := by
  unfold Frontier.push at hf ⊢
  rw [Frontier.contains, h.positions] at hf
  rw [Frontier.contains]
  split at hf
  · cases hf
  · rename_i hnew
    cases hf
    rw [if_neg hnew]
    refine ⟨_, rfl, h.size_eq ▸ SameOrder.siftUp ⟨?_, ?_⟩ ?_ _⟩
    · rw [h.heap]
    · rfl
    · intro b hb
      rcases Array.mem_push.1 hb with hb | rfl
      · exact hkey b hb
      · exact ha

theorem SameOrder.decreaseKey (h : SameOrder f g) {a : α} (hkey : Agree key key' f)
    (hf : f.decreaseKey key a = .ok f') :
    ∃ g', g.decreaseKey key' a = .ok g' ∧ SameOrder f' g' := by
  unfold Frontier.decreaseKey at hf ⊢
  rw [h.positions] at hf
  split at hf
  · rename_i i hi
    cases hf
    exact ⟨_, rfl, h.siftUp hkey i⟩
  · cases hf

theorem SameOrder.popMin? (h : SameOrder f g) (hkey : Agree key key' f) :
    Option.Rel (fun x y => x.1 = y.1 ∧ SameOrder x.2 y.2) (f.popMin? key) (g.popMin? key') := by
  unfold Frontier.popMin?
  rw [h.heap]
  split
  · exact .none
  · rename_i a ha
    refine .some ⟨rfl, (SameOrder.siftDown ⟨?_, ?_⟩ ?_ 0).shrink⟩
    · dsimp only
      rw [(h.swap 0 _).heap]
    · dsimp only
      rw [(h.swap 0 _).positions]
    · intro b hb
      rw [← Array.mem_toList_iff, Array.toList_pop] at hb
      exact hkey.swap _ _ b (Array.mem_toList_iff.1 (List.dropLast_subset _ hb))

end LinkState.Frontier
