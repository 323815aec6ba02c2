import Std.Data.TreeMap

/-!
# The frontier of a search

A `Frontier` is a binary heap of members ordered by a key that is kept elsewhere: every operation
that compares members is given the key function. Beside the heap stands the position of every
member, so that a member whose key was lowered can be moved up (`decreaseKey`).

The store behind the heap has a capacity, which doubles when the heap is full and is halved when
fewer than a quarter of it is used, but never below `leastCapacity`.

Members with equal keys leave in an order fixed by the heap: a member moves up only past a strictly
greater parent, and moves down to the left child only if that one is strictly less than it, to the
right child only if that one is strictly less than both.
-/

namespace LinkState

/-- A binary heap with the position of each member. -/
structure Frontier (α : Type) [Ord α] where
  heap : Array α := #[]
  positions : Std.TreeMap α Nat := ∅
  capacity : Nat := 16

namespace Frontier

/-- What a caller of a frontier must not do. -/
inductive Misuse (α : Type) where
  | alreadyMember (a : α)
  | notMember (a : α)

def Misuse.message {α : Type} (describe : α → String) : Misuse α → String
  | alreadyMember a => describe a ++ " is already in the candidate tree"
  | notMember a => describe a ++ " is missing from the candidate tree"

/-- The capacity below which the store never shrinks. -/
def leastCapacity : Nat := 16

variable {α : Type} [Ord α]

instance : Inhabited (Frontier α) := ⟨{}⟩

def size (f : Frontier α) : Nat := f.heap.size

def isEmpty (f : Frontier α) : Bool := f.heap.isEmpty

def contains (f : Frontier α) (a : α) : Bool := f.positions.contains a

/-- A member with the least key. -/
def min? (f : Frontier α) : Option α := f.heap[0]?

/-- Exchanges the members at two positions. -/
def swap (f : Frontier α) (i j : Nat) : Frontier α :=
  match f.heap[i]?, f.heap[j]? with
  | some a, some b =>
    { f with heap := f.heap.swapIfInBounds i j, positions := (f.positions.insert b i).insert a j }
  | _, _ => f

theorem size_swap (f : Frontier α) (i j : Nat) : (f.swap i j).heap.size = f.heap.size := by
  unfold swap
  split <;> simp

variable {κ : Type} [LT κ] [DecidableLT κ] (key : α → κ)

/-- Whether both positions are taken, the first one by a member with a lesser key. -/
def less (f : Frontier α) (i j : Nat) : Bool :=
  match f.heap[i]?, f.heap[j]? with
  | some a, some b => decide (key a < key b)
  | _, _ => false

/-- Moves the member at a position up past all greater ones. -/
def siftUp (f : Frontier α) (i : Nat) : Frontier α :=
  if _ : 0 < i then
    if f.less key i ((i - 1) / 2) then siftUp (f.swap i ((i - 1) / 2)) ((i - 1) / 2) else f
  else f
termination_by i

theorem lt_size_of_less {f : Frontier α} {i j : Nat} (h : f.less key i j = true) :
    i < f.heap.size := by
  unfold less at h
  split at h
  · rename_i hi _
    exact (Array.getElem?_eq_some_iff.1 hi).1
  · cases h

/-- The second of two positions if its member is less, else the first. -/
def lesser (f : Frontier α) (i j : Nat) : Nat := if f.less key j i then j else i

theorem lesser_cases (f : Frontier α) (i j : Nat) :
    f.lesser key i j = i ∨ f.lesser key i j = j ∧ j < f.heap.size := by
  unfold lesser
  split
  · exact .inr ⟨rfl, lt_size_of_less key ‹_›⟩
  · exact .inl rfl

/-- The position of the least of a member and its two children. -/
def leastBelow (f : Frontier α) (i : Nat) : Nat :=
  f.lesser key (f.lesser key i (2 * i + 1)) (2 * i + 2)

theorem leastBelow_bounds {f : Frontier α} {i : Nat} (h : f.leastBelow key i ≠ i) :
    i < f.leastBelow key i ∧ f.leastBelow key i < f.heap.size := by
  have hl := lesser_cases key f i (2 * i + 1)
  have hr := lesser_cases key f (f.lesser key i (2 * i + 1)) (2 * i + 2)
  unfold leastBelow at h ⊢
  omega

/-- Moves the member at a position down past all lesser ones. -/
def siftDown (f : Frontier α) (i : Nat) : Frontier α :=
  if _ : f.leastBelow key i = i then f
  else siftDown (f.swap i (f.leastBelow key i)) (f.leastBelow key i)
termination_by f.heap.size - i
decreasing_by
  have := leastBelow_bounds key ‹_›
  rw [size_swap]
  omega

/-- Adds a member. -/
def push (f : Frontier α) (a : α) : Except (Misuse α) (Frontier α) :=
  if f.contains a then .error (.alreadyMember a)
  else
    let i := f.heap.size
    .ok (siftUp key
      { heap := f.heap.push a
        positions := f.positions.insert a i
        capacity := if i = f.capacity then f.capacity * 2 else f.capacity } i)

/-- Halves the store if fewer than a quarter of it is used. -/
def shrink (f : Frontier α) : Frontier α :=
  if f.heap.size < f.capacity / 4 ∧ leastCapacity < f.capacity then
    { f with capacity := f.capacity / 2 }
  else f

/-- Removes the member at the top: the last one takes its place and moves down. -/
def popMin? (f : Frontier α) : Option (α × Frontier α) :=
  match f.heap[0]? with
  | none => none
  | some a =>
    let g := f.swap 0 (f.heap.size - 1)
    let g := { g with heap := g.heap.pop, positions := g.positions.erase a }
    some (a, (siftDown key g 0).shrink)

/-- Restores the order after the key of a member was lowered. -/
def decreaseKey (f : Frontier α) (a : α) : Except (Misuse α) (Frontier α) :=
  match f.positions[a]? with
  | some i => .ok (siftUp key f i)
  | none => .error (.notMember a)

/-- Removes all members and keeps the store. -/
def clear (f : Frontier α) : Frontier α := { f with heap := #[], positions := ∅ }

/-- Removes up to `n` members, each one least among those left. -/
def popMany : Nat → Frontier α → List α × Frontier α
  | 0, f => ([], f)
  | n + 1, f =>
    match f.popMin? key with
    | none => ([], f)
    | some (a, f) =>
      let (rest, f) := popMany n f
      (a :: rest, f)

/-- Removes all members in the order of their keys. -/
def drain (f : Frontier α) : List α × Frontier α := popMany key f.size f

end Frontier

end LinkState
