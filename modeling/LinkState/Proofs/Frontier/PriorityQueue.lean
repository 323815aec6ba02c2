import LinkState.Frontier
import Mathlib.Order.Lattice
import Mathlib.Tactic.Common

/-!
# The frontier is a priority queue

A frontier is in order for a key function (`Valid`) when the position map names exactly the members,
each at its own place in the heap (`Indexed`), and no member is less than its parent (`Ordered`).
The operations keep a frontier in order and do to the set of members what their names say:

* `push_valid` adds a new member,
* `popMin?_valid` takes away a member whose key is least,
* `decreaseKey_valid` moves a member up whose key was lowered.

The two sifts work on a heap that is in order except around one position: `OrderedAbove` is what
moving up needs, `OrderedBelow` what moving down needs.
-/

namespace LinkState.Frontier

variable {α : Type} [Ord α] {κ : Type} [LinearOrder κ] {key : α → κ} {f : Frontier α}

/-! ## Members and their positions -/

/-- The position map names exactly the members of the heap, each at its own place. -/
def Indexed (f : Frontier α) : Prop :=
  ∀ (a : α) (i : Nat), f.positions[a]? = some i ↔ f.heap[i]? = some a

theorem Indexed.position_inj (hf : f.Indexed) {a : α} {i j : Nat} (hi : f.heap[i]? = some a)
    (hj : f.heap[j]? = some a) : i = j :=
  Option.some.inj (((hf a i).2 hi).symm.trans ((hf a j).2 hj))

theorem swap_eq {i j : Nat} {a b : α} (hi : f.heap[i]? = some a) (hj : f.heap[j]? = some b) :
    f.swap i j = { f with
      heap := f.heap.swapIfInBounds i j
      positions := (f.positions.insert b i).insert a j } := by
  simp only [swap, hi, hj]

theorem swap_of_not_lt {i j : Nat} (h : ¬(i < f.heap.size ∧ j < f.heap.size)) :
    f.swap i j = f := by
  unfold swap
  split
  · rename_i a b hi hj
    exact absurd ⟨(Array.getElem?_eq_some_iff.1 hi).1, (Array.getElem?_eq_some_iff.1 hj).1⟩ h
  · rfl

/-- After an exchange a position stands for the one whose member it has got. -/
def exchanged (i j k : Nat) : Nat := if k = j then i else if k = i then j else k

theorem exchanged_left {i j : Nat} : exchanged i j i = j := by
  unfold exchanged
  split
  · rename_i h
    exact h
  · rw [if_pos rfl]

theorem exchanged_right {i j : Nat} : exchanged i j j = i := if_pos rfl

theorem exchanged_of_ne {i j k : Nat} (hi : k ≠ i) (hj : k ≠ j) : exchanged i j k = k := by
  rw [exchanged, if_neg hj, if_neg hi]

theorem exchanged_exchanged (i j k : Nat) : exchanged i j (exchanged i j k) = k := by
  by_cases hi : k = i
  · rw [hi, exchanged_left, exchanged_right]
  by_cases hj : k = j
  · rw [hj, exchanged_right, exchanged_left]
  rw [exchanged_of_ne hi hj, exchanged_of_ne hi hj]

theorem exchanged_eq_comm {i j k m : Nat} : exchanged i j k = m ↔ k = exchanged i j m := by
  constructor
  · rintro rfl
    exact (exchanged_exchanged i j k).symm
  · rintro rfl
    exact exchanged_exchanged i j m

theorem getElem?_swap {i j : Nat} (hi : i < f.heap.size) (hj : j < f.heap.size) (k : Nat) :
    (f.swap i j).heap[k]? = f.heap[exchanged i j k]? := by
  rw [swap_eq (Array.getElem?_eq_getElem hi) (Array.getElem?_eq_getElem hj), exchanged]
  simp only [Array.swapIfInBounds_def, hi, hj, dite_true, Array.getElem?_swap, @eq_comm _ j k,
    @eq_comm _ i k]
  split
  · exact (Array.getElem?_eq_getElem hi).symm
  · split
    · exact (Array.getElem?_eq_getElem hj).symm
    · rfl

/-! ## The order of the heap -/

/-- No member is less than its parent. -/
def Ordered (key : α → κ) (f : Frontier α) : Prop :=
  ∀ i, 0 < i → f.less key i ((i - 1) / 2) = false

/-- The heap is in order but for the pair of a position and its parent, and the children of the
position are in order with that parent. -/
structure OrderedAbove (key : α → κ) (f : Frontier α) (i : Nat) : Prop where
  elsewhere : ∀ j, 0 < j → j ≠ i → f.less key j ((j - 1) / 2) = false
  across : ∀ j, 0 < j → (j - 1) / 2 = i → 0 < i → f.less key j ((i - 1) / 2) = false

/-- The heap is in order but for the pairs of a position and its children, and these children are
in order with the parent of the position. -/
structure OrderedBelow (key : α → κ) (f : Frontier α) (i : Nat) : Prop where
  elsewhere : ∀ j, 0 < j → (j - 1) / 2 ≠ i → f.less key j ((j - 1) / 2) = false
  across : ∀ j, 0 < j → (j - 1) / 2 = i → 0 < i → f.less key j ((i - 1) / 2) = false

theorem less_iff {i j : Nat} : f.less key i j = true ↔
    ∃ a b, f.heap[i]? = some a ∧ f.heap[j]? = some b ∧ key a < key b := by
  unfold less
  split
  · rename_i a b hi hj
    simp [hi, hj]
  · rename_i h
    simp only [Bool.false_eq_true, false_iff]
    rintro ⟨a, b, hi, hj, -⟩
    exact h a b hi hj

theorem less_eq_false_iff {i j : Nat} : f.less key i j = false ↔
    ∀ a b, f.heap[i]? = some a → f.heap[j]? = some b → key b ≤ key a := by
  rw [← Bool.not_eq_true, less_iff]
  simp only [not_exists, not_and, not_lt]

theorem less_asymm {i j : Nat} (h : f.less key i j = true) : f.less key j i = false := by
  obtain ⟨a, b, hi, hj, hab⟩ := less_iff.1 h
  rw [less_eq_false_iff, hi, hj]
  rintro _ _ ⟨⟩ ⟨⟩
  exact hab.le

theorem less_trans {i j k : Nat} (hij : f.less key i j = false) (hjk : f.less key j k = false)
    (hj : j < f.heap.size) : f.less key i k = false := by
  rw [less_eq_false_iff] at *
  intro a c ha hc
  have hb := Array.getElem?_eq_getElem hj
  exact (hjk _ c hb hc).trans (hij a _ ha hb)

theorem less_swap {i j : Nat} (hi : i < f.heap.size) (hj : j < f.heap.size) (k m : Nat) :
    (f.swap i j).less key k m = f.less key (exchanged i j k) (exchanged i j m) := by
  simp only [less, getElem?_swap hi hj]

/-! ## Moving up -/

theorem OrderedAbove.ordered {i : Nat} (h : OrderedAbove key f i)
    (hi : 0 < i → f.less key i ((i - 1) / 2) = false) : Ordered key f := by
  intro j hj
  by_cases hji : j = i
  · subst hji
    exact hi hj
  · exact h.elsewhere j hj hji

theorem OrderedAbove.swap {i : Nat} (h : OrderedAbove key f i) (hi : 0 < i)
    (hless : f.less key i ((i - 1) / 2) = true) :
    OrderedAbove key (f.swap i ((i - 1) / 2)) ((i - 1) / 2) := by
  have hil := lt_size_of_less key hless
  have hpl : (i - 1) / 2 < f.heap.size := by omega
  have hback := less_asymm hless
  exact {
    elsewhere := by
      intro j hj hjp
      rw [less_swap hil hpl]
      by_cases hji : j = i
      · subst hji
        rw [exchanged_left, exchanged_right]
        exact hback
      · rw [exchanged_of_ne hji hjp]
        by_cases hpi : (j - 1) / 2 = i
        · rw [hpi, exchanged_left]
          exact h.across j hj hpi hi
        · by_cases hpp : (j - 1) / 2 = (i - 1) / 2
          · rw [hpp, exchanged_right]
            exact less_trans (hpp ▸ h.elsewhere j hj hji) hback hpl
          · rw [exchanged_of_ne hpi hpp]
            exact h.elsewhere j hj hji
    across := by
      intro j hj hjp hp
      rw [less_swap hil hpl]
      have hup := h.elsewhere ((i - 1) / 2) hp (by omega)
      rw [exchanged_of_ne (by omega : ((i - 1) / 2 - 1) / 2 ≠ i) (by omega)]
      by_cases hji : j = i
      · rw [hji, exchanged_left]
        exact hup
      · rw [exchanged_of_ne hji (by omega)]
        exact less_trans (hjp ▸ h.elsewhere j hj hji) hup hpl }

/-- After a member was put into the last place, the heap is in order but for that place. -/
theorem Ordered.append (h : Ordered key f) (a : α) (positions : Std.TreeMap α Nat)
    (capacity : Nat) : OrderedAbove key ⟨f.heap.push a, positions, capacity⟩ f.heap.size := by
  have hget : ∀ i : Nat, i ≠ f.heap.size → (f.heap.push a)[i]? = f.heap[i]? := fun i hi => by
    rw [Array.getElem?_push, if_neg hi]
  exact {
    elsewhere := by
      intro j hj hjs
      refine less_eq_false_iff.2 fun b c hb hc => ?_
      rw [hget j hjs] at hb
      have hjl := (Array.getElem?_eq_some_iff.1 hb).1
      rw [hget _ (by omega)] at hc
      exact less_eq_false_iff.1 (h j hj) b c hb hc
    across := by
      intro j hj hjs _
      refine less_eq_false_iff.2 fun b c hb hc => ?_
      rw [hget j (by omega)] at hb
      have hjl := (Array.getElem?_eq_some_iff.1 hb).1
      omega }

theorem siftUp_ordered {i : Nat} (h : OrderedAbove key f i) : Ordered key (siftUp key f i) := by
  fun_induction siftUp key f i with
  | case1 f i hi hless ih => exact ih (h.swap hi hless)
  | case2 f i hi hless => exact h.ordered fun _ => by simpa using hless
  | case3 f i hi => exact h.ordered fun h0 => absurd h0 hi

/-! ## Moving down -/

theorem lesser_spec (key : α → κ) (f : Frontier α) (i j : Nat) :
    f.lesser key i j = i ∧ f.less key j i = false ∨
      f.lesser key i j = j ∧ f.less key j i = true := by
  unfold lesser
  split
  · exact .inr ⟨rfl, ‹_›⟩
  · rename_i h
    exact .inl ⟨rfl, by simpa using h⟩

theorem less_self (i : Nat) : f.less key i i = false := by
  rw [less_eq_false_iff]
  intro a b ha hb
  rw [ha] at hb
  cases hb
  exact le_rfl

/-- The least of a member and its two children: nothing among them is less, and it is one of the
children only if that one is less than the member. -/
theorem leastBelow_spec (key : α → κ) (f : Frontier α) (i : Nat) :
    (∀ j, 0 < j → (j - 1) / 2 = i → f.less key j (f.leastBelow key i) = false) ∧
      (f.leastBelow key i ≠ i → (f.leastBelow key i - 1) / 2 = i ∧
        f.less key (f.leastBelow key i) i = true) := by
  have hl := lesser_spec key f i (2 * i + 1)
  have hr := lesser_spec key f (f.lesser key i (2 * i + 1)) (2 * i + 2)
  have hc : ∀ j, 0 < j → (j - 1) / 2 = i → j = 2 * i + 1 ∨ j = 2 * i + 2 := by omega
  unfold leastBelow
  rcases hl with ⟨hl, hl'⟩ | ⟨hl, hl'⟩ <;> rw [hl] at hr ⊢ <;>
    rcases hr with ⟨hr, hr'⟩ | ⟨hr, hr'⟩ <;> rw [hr]
  · exact ⟨fun j hj hi => by rcases hc j hj hi with rfl | rfl <;> assumption, fun h => absurd rfl h⟩
  · refine ⟨fun j hj hi => ?_, fun _ => ⟨by omega, hr'⟩⟩
    rcases hc j hj hi with rfl | rfl
    · exact less_trans hl' (less_asymm hr') (by have := lt_size_of_less key hr'; omega)
    · exact less_self _
  · refine ⟨fun j hj hi => ?_, fun _ => ⟨by omega, hl'⟩⟩
    rcases hc j hj hi with rfl | rfl
    · exact less_self _
    · exact hr'
  · refine ⟨fun j hj hi => ?_, fun _ => ⟨by omega, ?_⟩⟩
    · rcases hc j hj hi with rfl | rfl
      · exact less_asymm hr'
      · exact less_self _
    · obtain ⟨a, b, ha, hb, hab⟩ := less_iff.1 hr'
      obtain ⟨b', c, hb', hc, hbc⟩ := less_iff.1 hl'
      rw [hb] at hb'
      cases hb'
      exact less_iff.2 ⟨a, c, ha, hc, hab.trans hbc⟩

theorem OrderedBelow.ordered {i : Nat} (h : OrderedBelow key f i)
    (hi : ∀ j, 0 < j → (j - 1) / 2 = i → f.less key j i = false) : Ordered key f := by
  intro j hj
  by_cases hji : (j - 1) / 2 = i
  · exact hji ▸ hi j hj hji
  · exact h.elsewhere j hj hji

theorem OrderedBelow.swap {i : Nat} (h : OrderedBelow key f i) (hc : f.leastBelow key i ≠ i) :
    OrderedBelow key (f.swap i (f.leastBelow key i)) (f.leastBelow key i) := by
  obtain ⟨hleast, hchild⟩ := leastBelow_spec key f i
  obtain ⟨hp, hless⟩ := hchild hc
  generalize f.leastBelow key i = c at *
  have hcl := lt_size_of_less key hless
  have hil : i < f.heap.size := by omega
  have hback := less_asymm hless
  exact {
    elsewhere := by
      intro j hj hjc
      rw [less_swap hil hcl]
      by_cases hj' : j = c
      · subst hj'
        rw [hp, exchanged_left, exchanged_right]
        exact hback
      · by_cases hji : j = i
        · subst hji
          rw [exchanged_left, exchanged_of_ne (by omega : (j - 1) / 2 ≠ j) (by omega)]
          exact h.across c (by omega) hp hj
        · rw [exchanged_of_ne hji hj']
          by_cases hpi : (j - 1) / 2 = i
          · rw [hpi, exchanged_left]
            exact hleast j hj hpi
          · rw [exchanged_of_ne hpi hjc]
            exact h.elsewhere j hj hpi
    across := by
      intro j hj hjc _
      rw [less_swap hil hcl, hp, exchanged_left, exchanged_of_ne (by omega : j ≠ i) (by omega)]
      exact hjc ▸ h.elsewhere j hj (by omega) }

/-- After the last member has taken the place of the root, the heap is in order but for that
place. -/
theorem Ordered.dropRoot (h : Ordered key f) (positions : Std.TreeMap α Nat) :
    OrderedBelow key { f.swap 0 (f.heap.size - 1) with
      heap := (f.swap 0 (f.heap.size - 1)).heap.pop, positions } 0 := by
  have hget : ∀ (i : Nat) (a : α), 0 < i →
      (f.swap 0 (f.heap.size - 1)).heap.pop[i]? = some a → f.heap[i]? = some a := by
    intro i a hi ha
    rw [Array.getElem?_pop, size_swap] at ha
    split at ha
    · rw [getElem?_swap (by omega) (by omega), exchanged_of_ne (by omega) (by omega)] at ha
      exact ha
    · cases ha
  exact {
    elsewhere := fun j hj hj0 => less_eq_false_iff.2 fun b c hb hc =>
      less_eq_false_iff.1 (h j hj) b c (hget j b hj hb) (hget _ c (Nat.pos_of_ne_zero hj0) hc)
    across := fun j _ _ h0 => absurd h0 (Nat.lt_irrefl 0) }

theorem siftDown_ordered {i : Nat} (h : OrderedBelow key f i) :
    Ordered key (siftDown key f i) := by
  fun_induction siftDown key f i with
  | case1 f i hi => exact h.ordered fun j hj hji => hi ▸ (leastBelow_spec key f i).1 j hj hji
  | case2 f i hi ih => exact ih (h.swap hi)

theorem Ordered.least (h : Ordered key f) {r : α} (hr : f.heap[0]? = some r) :
    ∀ (i : Nat) (a : α), f.heap[i]? = some a → key r ≤ key a := by
  intro i
  induction i using Nat.strongRecOn with
  | ind i ih =>
    intro a ha
    rcases Nat.eq_zero_or_pos i with rfl | hi
    · rw [hr] at ha
      cases ha
      exact le_rfl
    · have hil := (Array.getElem?_eq_some_iff.1 ha).1
      have hp := Array.getElem?_eq_getElem (show (i - 1) / 2 < f.heap.size by omega)
      exact (ih _ (by omega) _ hp).trans (less_eq_false_iff.1 (h i hi) a _ ha hp)

/-! ## Frontiers in order -/

/-- A frontier in order for a key function. -/
structure Valid (key : α → κ) (f : Frontier α) : Prop where
  indexed : f.Indexed
  ordered : Ordered key f

theorem shrink_valid (hf : Valid key f) : Valid key f.shrink := by
  unfold shrink
  split
  · exact ⟨hf.indexed, hf.ordered⟩
  · exact hf

theorem contains_shrink (f : Frontier α) (a : α) : f.shrink.contains a = f.contains a := by
  unfold shrink
  split <;> rfl

theorem contains_clear (f : Frontier α) (a : α) : f.clear.contains a = false := by
  simp [clear, contains]

variable [Std.TransOrd α]

theorem Indexed.contains_iff (hf : f.Indexed) {a : α} :
    f.contains a = true ↔ ∃ i : Nat, f.heap[i]? = some a := by
  rw [contains, Std.TreeMap.contains_eq_isSome_getElem?, Option.isSome_iff_exists]
  exact exists_congr fun i => hf a i

/-- Only the keys of members count. -/
theorem Valid.congr {key' : α → κ} (hf : Valid key f)
    (h : ∀ a, f.contains a = true → key' a = key a) : Valid key' f := by
  refine ⟨hf.indexed, fun i hi => less_eq_false_iff.2 fun a b ha hb => ?_⟩
  rw [h a (hf.indexed.contains_iff.2 ⟨i, ha⟩), h b (hf.indexed.contains_iff.2 ⟨_, hb⟩)]
  exact less_eq_false_iff.1 (hf.ordered i hi) a b ha hb

theorem clear_valid (f : Frontier α) : Valid key f.clear := by
  refine ⟨fun a i => by simp [clear], fun i _ => less_eq_false_iff.2 fun a b ha => ?_⟩
  simp [clear] at ha

theorem popMin?_eq_none_iff (hf : f.Indexed) :
    f.popMin? key = none ↔ ∀ a, f.contains a = false := by
  unfold popMin?
  split
  · rename_i h
    have hs : f.heap.size = 0 := by simpa using h
    refine ⟨fun _ a => ?_, fun _ => rfl⟩
    rw [← Bool.not_eq_true, hf.contains_iff]
    rintro ⟨i, hi⟩
    have := (Array.getElem?_eq_some_iff.1 hi).1
    omega
  · rename_i a h
    refine ⟨fun h => (by cases h), fun hn => ?_⟩
    have := hf.contains_iff.2 ⟨0, h⟩
    rw [hn a] at this
    cases this

theorem isEmpty_iff (hf : f.Indexed) : f.isEmpty = true ↔ ∀ a, f.contains a = false := by
  simp only [isEmpty, Array.isEmpty_iff, ← Bool.not_eq_true, hf.contains_iff, not_exists]
  constructor
  · intro h a i
    simp [h]
  · intro h
    refine Array.eq_empty_of_size_eq_zero (Nat.eq_zero_of_not_pos fun hpos => ?_)
    exact h f.heap[0] 0 (Array.getElem?_eq_getElem hpos)

variable [Std.LawfulEqOrd α]

theorem Indexed.swap (hf : f.Indexed) (i j : Nat) : (f.swap i j).Indexed := by
  unfold Frontier.swap
  split
  · rename_i a b hi hj
    intro c k
    have hk := getElem?_swap (Array.getElem?_eq_some_iff.1 hi).1
      (Array.getElem?_eq_some_iff.1 hj).1 k
    rw [swap_eq hi hj] at hk
    rw [hk, ← hf c]
    simp only [Std.TreeMap.getElem?_insert]
    by_cases hac : a = c
    · rw [if_pos (Std.compare_eq_iff_eq.2 hac), ← hac, (hf a i).2 hi, Option.some.injEq,
        Option.some.injEq, eq_comm, @eq_comm _ i, exchanged_eq_comm, exchanged_left]
    rw [if_neg (mt Std.compare_eq_iff_eq.1 hac)]
    by_cases hbc : b = c
    · rw [if_pos (Std.compare_eq_iff_eq.2 hbc), ← hbc, (hf b j).2 hj, Option.some.injEq,
        Option.some.injEq, eq_comm, @eq_comm _ j, exchanged_eq_comm, exchanged_right]
    rw [if_neg (mt Std.compare_eq_iff_eq.1 hbc)]
    -- a third member is at neither of the two positions
    have hci : f.positions[c]? ≠ some i := fun h =>
      hac (Option.some.inj (hi.symm.trans ((hf c i).1 h)))
    have hcj : f.positions[c]? ≠ some j := fun h =>
      hbc (Option.some.inj (hj.symm.trans ((hf c j).1 h)))
    by_cases hki : k = i
    · rw [hki, exchanged_left]
      exact iff_of_false hci hcj
    by_cases hkj : k = j
    · rw [hkj, exchanged_right]
      exact iff_of_false hcj hci
    rw [exchanged_of_ne hki hkj]
  · exact hf

/-- A new member in the last place. -/
theorem Indexed.append (hf : f.Indexed) {a : α} (ha : f.contains a = false) (capacity : Nat) :
    (⟨f.heap.push a, f.positions.insert a f.heap.size, capacity⟩ : Frontier α).Indexed := by
  have hnew : ∀ i : Nat, f.heap[i]? ≠ some a := fun i hi => by
    rw [hf.contains_iff.2 ⟨i, hi⟩] at ha
    cases ha
  intro b i
  simp only [Array.getElem?_push, Std.TreeMap.getElem?_insert]
  by_cases hab : a = b
  · subst hab
    rw [if_pos Std.ReflOrd.compare_self]
    split
    · rename_i hi
      exact iff_of_true (congrArg some hi.symm) rfl
    · rename_i hi
      exact iff_of_false (fun h => hi (Option.some.inj h).symm) (hnew i)
  · rw [if_neg (mt Std.compare_eq_iff_eq.1 hab)]
    split
    · rename_i hi
      refine iff_of_false (fun h => ?_) fun h => hab (Option.some.inj h)
      have := (Array.getElem?_eq_some_iff.1 ((hf b i).1 h)).1
      omega
    · exact hf b i

/-- The member in the last place leaves. -/
theorem Indexed.dropLast (hf : f.Indexed) {a : α} (ha : f.heap[f.heap.size - 1]? = some a) :
    { f with heap := f.heap.pop, positions := f.positions.erase a }.Indexed := by
  intro b i
  simp only [Array.getElem?_pop, Std.TreeMap.getElem?_erase]
  by_cases hab : a = b
  · subst hab
    rw [if_pos Std.ReflOrd.compare_self]
    refine iff_of_false (fun h => by cases h) fun h => ?_
    split at h
    · have := hf.position_inj ha h
      omega
    · cases h
  · rw [if_neg (mt Std.compare_eq_iff_eq.1 hab), hf b i]
    split
    · rfl
    · refine iff_of_false (fun h => ?_) fun h => by cases h
      have hi := (Array.getElem?_eq_some_iff.1 h).1
      rw [show i = f.heap.size - 1 by omega, ha] at h
      exact hab (Option.some.inj h)

theorem contains_swap (hf : f.Indexed) (i j : Nat) (c : α) :
    (f.swap i j).contains c = f.contains c := by
  rw [Bool.eq_iff_iff, (hf.swap i j).contains_iff, hf.contains_iff]
  by_cases h : i < f.heap.size ∧ j < f.heap.size
  · simp only [getElem?_swap h.1 h.2]
    constructor
    · rintro ⟨k, hk⟩
      exact ⟨_, hk⟩
    · rintro ⟨k, hk⟩
      refine ⟨exchanged i j k, ?_⟩
      rw [exchanged_exchanged]
      exact hk
  · rw [swap_of_not_lt h]

theorem siftUp_indexed (hf : f.Indexed) (i : Nat) : (siftUp key f i).Indexed := by
  fun_induction siftUp key f i with
  | case1 f i _ _ ih => exact ih (hf.swap _ _)
  | case2 => exact hf
  | case3 => exact hf

theorem siftDown_indexed (hf : f.Indexed) (i : Nat) : (siftDown key f i).Indexed := by
  fun_induction siftDown key f i with
  | case1 => exact hf
  | case2 f i _ ih => exact ih (hf.swap _ _)

theorem contains_siftUp (hf : f.Indexed) (i : Nat) (a : α) :
    (siftUp key f i).contains a = f.contains a := by
  fun_induction siftUp key f i with
  | case1 f i _ _ ih => rw [ih (hf.swap _ _), contains_swap hf]
  | case2 => rfl
  | case3 => rfl

theorem contains_siftDown (hf : f.Indexed) (i : Nat) (a : α) :
    (siftDown key f i).contains a = f.contains a := by
  fun_induction siftDown key f i with
  | case1 => rfl
  | case2 f i _ ih => rw [ih (hf.swap _ _), contains_swap hf]

/-! ## The operations -/

/-- **Adding a member**: a new one is accepted, and nothing else becomes a member. -/
theorem push_valid (hf : Valid key f) {a : α} (ha : f.contains a = false) :
    ∃ g, f.push key a = .ok g ∧ Valid key g ∧
      ∀ b, g.contains b = true ↔ b = a ∨ f.contains b = true := by
  have hindexed := hf.indexed.append ha
    (if f.heap.size = f.capacity then f.capacity * 2 else f.capacity)
  refine ⟨_, by simp only [push, ha]; rfl,
    ⟨siftUp_indexed hindexed _, siftUp_ordered (hf.ordered.append ..)⟩, fun b => ?_⟩
  rw [contains_siftUp hindexed]
  simp only [contains, Std.TreeMap.contains_insert, Bool.or_eq_true, beq_iff_eq,
    Std.LawfulEqOrd.compare_eq_iff_eq]
  exact or_congr_left eq_comm

/-- **Taking a member away**: it is one whose key is least, and the others stay. -/
theorem popMin?_valid (hf : Valid key f) {a : α} {g : Frontier α}
    (h : f.popMin? key = some (a, g)) :
    f.contains a = true ∧ (∀ b, f.contains b = true → key a ≤ key b) ∧ Valid key g ∧
      ∀ b, g.contains b = true ↔ f.contains b = true ∧ b ≠ a := by
  unfold popMin? at h
  split at h
  · cases h
  rename_i r hr
  simp only [Option.some.injEq, Prod.mk.injEq] at h
  obtain ⟨rfl, rfl⟩ := h
  have hsize := (Array.getElem?_eq_some_iff.1 hr).1
  have hlast : (f.swap 0 (f.heap.size - 1)).heap[(f.swap 0 (f.heap.size - 1)).heap.size - 1]? =
      some r := by
    rw [size_swap, getElem?_swap hsize (by omega), exchanged_right]
    exact hr
  have hindexed := (hf.indexed.swap 0 (f.heap.size - 1)).dropLast hlast
  refine ⟨hf.indexed.contains_iff.2 ⟨0, hr⟩, fun b hb => ?_,
    shrink_valid ⟨siftDown_indexed hindexed 0, siftDown_ordered (hf.ordered.dropRoot _)⟩,
    fun b => ?_⟩
  · obtain ⟨i, hi⟩ := hf.indexed.contains_iff.1 hb
    exact hf.ordered.least hr i b hi
  · rw [contains_shrink, contains_siftDown hindexed,
      ← contains_swap hf.indexed 0 (f.heap.size - 1)]
    simp only [contains, Std.TreeMap.contains_erase, Bool.and_eq_true, bne_iff_ne, ne_eq,
      Std.LawfulEqOrd.compare_eq_iff_eq]
    rw [and_comm, @eq_comm _ r b]

/-- **Lowering a key**: a member whose key was lowered is moved up, and the members stay. -/
theorem decreaseKey_valid {key' : α → κ} (hf : Valid key f) {a : α} (ha : f.contains a = true)
    (hkey : ∀ b, b ≠ a → f.contains b = true → key' b = key b) (hle : key' a ≤ key a) :
    ∃ g, f.decreaseKey key' a = .ok g ∧ Valid key' g ∧ ∀ b, g.contains b = f.contains b := by
  obtain ⟨i, hi⟩ := hf.indexed.contains_iff.1 ha
  have hpos := (hf.indexed a i).2 hi
  have hmem : ∀ (j : Nat) (b : α), f.heap[j]? = some b → f.contains b = true := fun j b h =>
    hf.indexed.contains_iff.2 ⟨j, h⟩
  have hother : ∀ (j : Nat) (b : α), j ≠ i → f.heap[j]? = some b → key' b = key b := by
    intro j b hj hb
    refine hkey b ?_ (hmem j b hb)
    rintro rfl
    exact hj (hf.indexed.position_inj hb hi)
  have hall : ∀ (j : Nat) (b : α), f.heap[j]? = some b → key' b ≤ key b := by
    intro j b hb
    by_cases hj : j = i
    · subst hj
      rw [hi] at hb
      cases hb
      exact hle
    · exact (hother j b hj hb).le
  have hord := fun j hj => less_eq_false_iff.1 (hf.ordered j hj)
  refine ⟨siftUp key' f i, by simp only [decreaseKey, hpos], ⟨siftUp_indexed hf.indexed _,
    siftUp_ordered ⟨?_, ?_⟩⟩, contains_siftUp hf.indexed i⟩
  · intro j hj hji
    refine less_eq_false_iff.2 fun b c hb hc => ?_
    rw [hother j b hji hb]
    exact (hall _ c hc).trans (hord j hj b c hb hc)
  · intro j hj hji hi0
    refine less_eq_false_iff.2 fun b c hb hc => ?_
    rw [hother j b (by omega) hb, hother _ c (by omega) hc]
    exact (hord i hi0 a c hi hc).trans (hord j hj b a hb (hji ▸ hi))

end LinkState.Frontier
