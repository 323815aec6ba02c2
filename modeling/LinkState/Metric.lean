/-!
# Metrics

A metric is the cost of a link or of a path, at most `Metric.infinite`, which marks what cannot
be reached. Sums saturate there, so `toNat_add` makes every comparison of metrics a fact about
natural numbers.
-/

namespace LinkState

/-- The cost of a link or of a path: a 32-bit quantity. -/
structure Metric where
  toNat : Nat
  toNat_le : toNat ≤ 4294967295
deriving DecidableEq

namespace Metric

/-- The metric of what cannot be reached: no path costs more. -/
def infinite : Metric := ⟨4294967295, Nat.le_refl _⟩

/-- The metric of a cost, capped at `infinite`. -/
def saturate (n : Nat) : Metric := ⟨min n 4294967295, Nat.min_le_right _ _⟩

/-- The metric with the given value, if there is one. -/
def ofNat? (n : Nat) : Option Metric := if h : n ≤ 4294967295 then some ⟨n, h⟩ else none

instance : Zero Metric := ⟨⟨0, Nat.zero_le _⟩⟩

instance : Inhabited Metric := ⟨0⟩

instance : Add Metric := ⟨fun a b => saturate (a.toNat + b.toNat)⟩

instance : LT Metric := ⟨fun a b => a.toNat < b.toNat⟩

instance : LE Metric := ⟨fun a b => a.toNat ≤ b.toNat⟩

instance (a b : Metric) : Decidable (a < b) := inferInstanceAs (Decidable (a.toNat < b.toNat))

instance (a b : Metric) : Decidable (a ≤ b) := inferInstanceAs (Decidable (a.toNat ≤ b.toNat))

theorem lt_iff {a b : Metric} : a < b ↔ a.toNat < b.toNat := Iff.rfl

theorem le_iff {a b : Metric} : a ≤ b ↔ a.toNat ≤ b.toNat := Iff.rfl

theorem toNat_inj {a b : Metric} : a.toNat = b.toNat ↔ a = b :=
  ⟨fun h => by cases a; cases b; simp_all, fun h => h ▸ rfl⟩

@[simp] theorem toNat_zero : (0 : Metric).toNat = 0 := rfl

@[simp] theorem toNat_infinite : infinite.toNat = 4294967295 := rfl

@[simp] theorem toNat_saturate (n : Nat) : (saturate n).toNat = min n 4294967295 := rfl

/-- A sum of metrics is the sum of their values, capped at `infinite`. -/
theorem toNat_add (a b : Metric) : (a + b).toNat = min (a.toNat + b.toNat) 4294967295 := rfl

theorem le_add (a b : Metric) : a ≤ a + b := by
  rw [le_iff, toNat_add]
  have := a.toNat_le
  omega

theorem zero_ne_infinite : (0 : Metric) ≠ infinite := by decide

theorem toNat_lt_of_ne_infinite {m : Metric} (h : m ≠ infinite) : m.toNat < infinite.toNat :=
  Nat.lt_of_le_of_ne m.toNat_le fun e => h (toNat_inj.1 e)

theorem ne_infinite_of_lt {m n : Metric} (h : m < n) : m ≠ infinite := by
  rintro rfl
  have := n.toNat_le
  rw [lt_iff, toNat_infinite] at h
  omega

theorem toNat_add_of_ne_infinite {a b : Metric} (h : a + b ≠ infinite) :
    (a + b).toNat = a.toNat + b.toNat := by
  have := toNat_lt_of_ne_infinite h
  rw [toNat_infinite] at this
  rw [toNat_add] at this ⊢
  omega

theorem infinite_add (a : Metric) : infinite + a = infinite :=
  toNat_inj.1 (by simp only [toNat_add, toNat_infinite]; omega)

end Metric

end LinkState
