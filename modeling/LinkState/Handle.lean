import Std.Data.TreeMap
import Std.Data.TreeSet

/-!
# Handles and tables

Nodes and edges are named by handles. A `Table` keeps its rows in order of creation and gives the
row at position `n` the handle `⟨n, 0⟩`; rows are never removed, so no other generation is issued
and a handle with one names nothing. `Table.get?_push`, `Table.get?_modify` and `Table.get?_map` say
what the updates do to the view `get?`, which determines a table (`Table.ext_get?`);
`Table.entries_push` and `Table.entries_map` say what they do to the rows in order.

`HandleMap` is a map from handles in which an absent entry reads as the default value.
-/

namespace LinkState

/-- The name of a row of a table. -/
structure Handle where
  position : Nat
  generation : Nat := 0
deriving DecidableEq, Inhabited

/-- Handles are ordered by position, then by generation. -/
instance : Ord Handle := ⟨compareLex (compareOn Handle.position) (compareOn Handle.generation)⟩

instance : Std.TransOrd Handle :=
  inferInstanceAs
    (Std.TransCmp (compareLex (compareOn Handle.position) (compareOn Handle.generation)))

instance : Std.LawfulEqOrd Handle where
  eq_of_compare {a b} h := by
    obtain ⟨p, g⟩ := a
    obtain ⟨q, k⟩ := b
    have h' : (compare p q).then (compare g k) = .eq := h
    rw [Ordering.then_eq_eq, Nat.compare_eq_eq, Nat.compare_eq_eq] at h'
    rw [h'.1, h'.2]

/-- The handle of a node. -/
abbrev NodeId := Handle

/-- The handle of an edge. -/
abbrev EdgeId := Handle

/-- A set of nodes, visited in order of position. -/
abbrev NodeSet := Std.TreeSet NodeId

/-- Rows in order of creation. -/
structure Table (α : Type) where
  rows : Array α := #[]

namespace Table

variable {α : Type}

instance : Inhabited (Table α) := ⟨{}⟩

def size (t : Table α) : Nat := t.rows.size

/-- The row with a handle; only handles of generation 0 have been given out. -/
def get? (t : Table α) (h : Handle) : Option α :=
  if h.generation = 0 then t.rows[h.position]? else none

def contains (t : Table α) (h : Handle) : Bool := (t.get? h).isSome

/-- The handle that the next row will have. -/
def nextHandle (t : Table α) : Handle := ⟨t.size, 0⟩

def push (t : Table α) (a : α) : Table α := ⟨t.rows.push a⟩

/-- Changes the row with the given handle, if there is one. -/
def modify (t : Table α) (h : Handle) (f : α → α) : Table α :=
  if h.generation = 0 then ⟨t.rows.modify h.position f⟩ else t

/-- Changes every row. -/
def map {β : Type} (f : α → β) (t : Table α) : Table β := ⟨t.rows.map f⟩

/-- The handles of the rows, in order of creation. -/
def handles (t : Table α) : List Handle := (List.range t.size).map (⟨·, 0⟩)

/-- The rows with their handles, in order of creation. -/
def entries (t : Table α) : List (Handle × α) :=
  t.rows.toList.zipIdx.map fun (a, i) => (⟨i, 0⟩, a)

theorem get?_push (t : Table α) (a : α) (h : Handle) :
    (t.push a).get? h = if h = t.nextHandle then some a else t.get? h := by
  obtain ⟨p, g⟩ := h
  by_cases hg : g = 0 <;>
    simp [get?, push, nextHandle, size, Array.getElem?_push, hg]

theorem get?_modify (t : Table α) (h h' : Handle) (f : α → α) :
    (t.modify h f).get? h' = if h = h' then (t.get? h').map f else t.get? h' := by
  obtain ⟨p, g⟩ := h
  obtain ⟨q, k⟩ := h'
  by_cases hg : g = 0 <;> by_cases hk : k = 0 <;>
    simp [get?, modify, Array.getElem?_modify, hg, hk]

theorem get?_map {β : Type} (f : α → β) (t : Table α) (h : Handle) :
    (t.map f).get? h = (t.get? h).map f := by
  unfold get? map
  split <;> simp

@[simp] theorem contains_map {β : Type} (f : α → β) (t : Table α) (h : Handle) :
    (t.map f).contains h = t.contains h := by
  simp [contains, get?_map]

@[simp] theorem contains_modify (t : Table α) (h h' : Handle) (f : α → α) :
    (t.modify h f).contains h' = t.contains h' := by
  unfold contains
  rw [get?_modify]
  split <;> simp

theorem get?_nextHandle (t : Table α) : t.get? t.nextHandle = none := by
  simp [get?, nextHandle, size]

theorem contains_push {t : Table α} {a : α} {h : Handle} :
    (t.push a).contains h = true ↔ h = t.nextHandle ∨ t.contains h = true := by
  unfold contains
  rw [get?_push]
  split <;> simp_all

theorem mem_entries {t : Table α} {h : Handle} {a : α} :
    (h, a) ∈ t.entries ↔ t.get? h = some a := by
  obtain ⟨p, g⟩ := h
  simp only [entries, List.mem_map, Prod.mk.injEq, Prod.exists, Handle.mk.injEq,
    List.mk_mem_zipIdx_iff_getElem?, get?]
  constructor
  · rintro ⟨b, i, hb, ⟨rfl, rfl⟩, rfl⟩
    simpa using hb
  · intro h
    split at h
    · rename_i hg
      exact ⟨a, p, by simpa using h, ⟨rfl, hg.symm⟩, rfl⟩
    · cases h

theorem mem_handles {t : Table α} {h : Handle} : h ∈ t.handles ↔ t.contains h = true := by
  obtain ⟨p, g⟩ := h
  simp only [handles, List.mem_map, List.mem_range, contains, get?, size, Handle.mk.injEq]
  constructor
  · rintro ⟨i, hi, rfl, rfl⟩
    simpa using hi
  · intro h
    split at h
    · rename_i hg
      exact ⟨p, by simpa using h, rfl, hg.symm⟩
    · cases h

/-- A table is determined by its rows. -/
theorem ext_get? {t t' : Table α} (h : ∀ e, t.get? e = t'.get? e) : t = t' := by
  obtain ⟨rows⟩ := t
  obtain ⟨rows'⟩ := t'
  congr 1
  refine Array.ext_getElem? fun i => ?_
  simpa [Table.get?] using h ⟨i, 0⟩

theorem entries_map {β : Type} (f : α → β) (t : Table α) :
    (t.map f).entries = t.entries.map fun (h, a) => (h, f a) := by
  simp [entries, map, List.zipIdx_map, Function.comp_def]

theorem entries_push (t : Table α) (a : α) :
    (t.push a).entries = t.entries ++ [(t.nextHandle, a)] := by
  simp [entries, push, nextHandle, size, List.zipIdx_append]

end Table

/-- A map from handles in which an absent entry reads as the default value. -/
abbrev HandleMap (α : Type) := Std.TreeMap Handle α

namespace HandleMap

variable {α : Type} [Inhabited α]

def read (m : HandleMap α) (h : Handle) : α := m.getD h default

def write (m : HandleMap α) (h : Handle) (a : α) : HandleMap α := m.insert h a

def update (m : HandleMap α) (h : Handle) (f : α → α) : HandleMap α := m.write h (f (m.read h))

theorem read_write (m : HandleMap α) (h h' : Handle) (a : α) :
    (m.write h a).read h' = if h = h' then a else m.read h' := by
  simp only [read, write, Std.TreeMap.getD_insert, Std.LawfulEqOrd.compare_eq_iff_eq]

theorem read_update (m : HandleMap α) (h h' : Handle) (f : α → α) :
    (m.update h f).read h' = if h = h' then f (m.read h') else m.read h' := by
  unfold update
  rw [read_write]
  split
  · rename_i e
    rw [e]
  · rfl

@[simp] theorem read_empty (h : Handle) : (∅ : HandleMap α).read h = default := by
  simp [read]

end HandleMap

end LinkState
