/-!
# Routing levels

A network is routed on two levels. `Level` is one of them, `LevelType` says in which of them a
router or a link takes part, `PerLevel` keeps one value for each, and `LevelSet` is a set of
levels. `PerLevel.get_set` is the one fact needed about updates: writing a level changes that
level only.
-/

namespace LinkState

/-- One of the two routing levels. -/
inductive Level where
  | l1
  | l2
deriving DecidableEq, Inhabited

namespace Level

/-- Both levels, the lower one first. -/
def all : List Level := [l1, l2]

/-- The number by which a level is known. -/
def number : Level → Nat
  | l1 => 1
  | l2 => 2

/-- The name of a level in reports. -/
def name : Level → String
  | l1 => "L1"
  | l2 => "L2"

/-- The level with the given number. -/
def ofNumber? : Nat → Option Level
  | 1 => some l1
  | 2 => some l2
  | _ => none

end Level

/-- The levels in which a router or a link takes part. -/
inductive LevelType where
  | l1
  | l2
  | all
deriving DecidableEq, Inhabited

/-- The level type of something that takes part in one level only. -/
def Level.toType : Level → LevelType
  | .l1 => .l1
  | .l2 => .l2

namespace LevelType

/-- Whether two level types have a level in common. -/
def intersects : LevelType → LevelType → Bool
  | .all, _ => true
  | _, .all => true
  | .l1, .l1 => true
  | .l2, .l2 => true
  | _, _ => false

/-- Whether a level is one of the levels of the type. -/
def includes (t : LevelType) (l : Level) : Bool :=
  t.intersects l.toType

/-- The levels of a level type, the lower one first. -/
def levels (t : LevelType) : List Level :=
  Level.all.filter t.includes

end LevelType

/-- One value for each level. -/
structure PerLevel (α : Type) where
  l1 : α
  l2 : α
deriving DecidableEq, Inhabited

namespace PerLevel

variable {α β : Type}

/-- The same value at both levels. -/
def both (a : α) : PerLevel α := ⟨a, a⟩

def get (p : PerLevel α) : Level → α
  | .l1 => p.l1
  | .l2 => p.l2

def set (p : PerLevel α) (l : Level) (a : α) : PerLevel α :=
  match l with
  | .l1 => { p with l1 := a }
  | .l2 => { p with l2 := a }

def modify (p : PerLevel α) (l : Level) (f : α → α) : PerLevel α :=
  p.set l (f (p.get l))

def map (f : α → β) (p : PerLevel α) : PerLevel β := ⟨f p.l1, f p.l2⟩

@[simp] theorem get_both (a : α) (l : Level) : (both a).get l = a := by
  cases l <;> rfl

theorem get_set (p : PerLevel α) (l l' : Level) (a : α) :
    (p.set l a).get l' = if l = l' then a else p.get l' := by
  cases l <;> cases l' <;> rfl

@[simp] theorem get_set_self (p : PerLevel α) (l : Level) (a : α) : (p.set l a).get l = a := by
  simp [get_set]

@[simp] theorem get_map (f : α → β) (p : PerLevel α) (l : Level) :
    (p.map f).get l = f (p.get l) := by
  cases l <;> rfl

theorem ext_get {p q : PerLevel α} (h : ∀ l, p.get l = q.get l) : p = q := by
  cases p
  cases q
  exact congr (congrArg mk (h .l1)) (h .l2)

theorem set_set (p : PerLevel α) (l : Level) (a b : α) : (p.set l a).set l b = p.set l b := by
  cases l <;> rfl

theorem set_get (p : PerLevel α) (l : Level) : p.set l (p.get l) = p := by
  cases l <;> rfl

end PerLevel

/-- A set of levels: for each level, whether it belongs. -/
abbrev LevelSet := PerLevel Bool

namespace LevelSet

def has (s : LevelSet) (l : Level) : Bool := s.get l

/-- The levels of the set, the lower one first. -/
def levels (s : LevelSet) : List Level := Level.all.filter s.has

/-- The set of the levels of a level type. -/
def ofType (t : LevelType) : LevelSet := ⟨t.includes .l1, t.includes .l2⟩

/-- The set holding one level. -/
def ofLevel (l : Level) : LevelSet := ofType l.toType

/-- The set as a bit mask: bit 0 stands for level 1, bit 1 for level 2. -/
def toBits (s : LevelSet) : Nat := s.l1.toNat + 2 * s.l2.toNat

/-- The set with a given bit mask, other bits being ignored. -/
def ofBits (n : Nat) : LevelSet := ⟨n.testBit 0, n.testBit 1⟩

end LevelSet

end LinkState
