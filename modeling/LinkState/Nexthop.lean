import LinkState.Address
import LinkState.Handle

/-!
# Next hops

A `Nexthop` says to which neighbour traffic is handed and over which edge of the root. A
`NexthopSet` is a row of at most `NexthopSet.width` distinct next hops in the order in which they
were found; both bounds are part of the type. `NexthopSet.mem_insert` and
`NexthopSet.mem_extend_cases` say where the members of a set come from. `ByKind` keeps the next
hops over unicast links apart from those over tunnels.
-/

namespace LinkState

/-- A way to hand traffic on. -/
structure Nexthop where
  /-- The neighbour to which traffic is handed. -/
  node : NodeId
  /-- The outgoing edge of the root. -/
  oif : EdgeId
  /-- The address of the neighbour's interface. -/
  gateway : Option Address
deriving DecidableEq

/-- The largest number of equal-cost next hops that are kept. -/
def NexthopSet.width : Nat := 4

/-- Distinct next hops, at most `width` of them, in the order in which they were found. -/
structure NexthopSet where
  members : List Nexthop := []
  nodup : members.Nodup := by simp
  length_le : members.length ≤ NexthopSet.width := by simp
deriving DecidableEq

namespace NexthopSet

def empty : NexthopSet := {}

instance : Inhabited NexthopSet := ⟨empty⟩

/-- Whether a next hop is new to the set and there is room for it. -/
abbrev Accepts (s : NexthopSet) (n : Nexthop) : Prop := n ∉ s.members ∧ s.members.length < width

/-- Adds a next hop at the end, if it is new and there is room. -/
def insert (s : NexthopSet) (n : Nexthop) : NexthopSet :=
  if h : s.Accepts n then
    { members := s.members ++ [n]
      nodup := List.nodup_append.2 ⟨s.nodup, by simp, by
        rintro a ha b hb rfl
        exact h.1 (List.mem_singleton.1 hb ▸ ha)⟩
      length_le := by
        have := h.2
        simp only [List.length_append, List.length_cons, List.length_nil]
        omega }
  else s

/-- Adds the next hops of a list one after the other. -/
def insertAll (s : NexthopSet) (ns : List Nexthop) : NexthopSet := ns.foldl insert s

/-- Adds the members of another set one after the other. -/
def extend (s t : NexthopSet) : NexthopSet := s.insertAll t.members

/-- The first distinct next hops of a list. -/
def ofList (ns : List Nexthop) : NexthopSet := empty.insertAll ns

def isEmpty (s : NexthopSet) : Bool := s.members.isEmpty

def size (s : NexthopSet) : Nat := s.members.length

/-- Whether some member leaves through the given edge. -/
def usesOif (s : NexthopSet) (e : EdgeId) : Bool := s.members.any fun n => n.oif == e

theorem members_insert (s : NexthopSet) (n : Nexthop) :
    (s.insert n).members = if s.Accepts n then s.members ++ [n] else s.members := by
  unfold insert
  split <;> rfl

theorem mem_insert {s : NexthopSet} {n m : Nexthop} (h : m ∈ (s.insert n).members) :
    m ∈ s.members ∨ m = n := by
  rw [members_insert] at h
  split at h
  · simpa using h
  · exact .inl h

theorem mem_insertAll {s : NexthopSet} {ns : List Nexthop} {m : Nexthop}
    (h : m ∈ (s.insertAll ns).members) : m ∈ s.members ∨ m ∈ ns := by
  induction ns generalizing s with
  | nil => exact .inl h
  | cons n ns ih =>
    rcases ih h with h | h
    · rcases mem_insert h with h | rfl
      · exact .inl h
      · exact .inr List.mem_cons_self
    · exact .inr (List.mem_cons_of_mem _ h)

theorem mem_extend_cases {s t : NexthopSet} {m : Nexthop} (h : m ∈ (s.extend t).members) :
    m ∈ s.members ∨ m ∈ t.members :=
  mem_insertAll h

theorem mem_insert_of_mem {s : NexthopSet} {m : Nexthop} (n : Nexthop) (h : m ∈ s.members) :
    m ∈ (s.insert n).members := by
  rw [members_insert]
  split
  · exact List.mem_append_left _ h
  · exact h

theorem mem_insertAll_of_mem {s : NexthopSet} {m : Nexthop} (ns : List Nexthop)
    (h : m ∈ s.members) : m ∈ (s.insertAll ns).members := by
  induction ns generalizing s with
  | nil => exact h
  | cons n ns ih => exact ih (mem_insert_of_mem n h)

/-- If there is room for the whole list, nothing of it is left out. -/
theorem mem_insertAll_iff {s : NexthopSet} {ns : List Nexthop} {m : Nexthop}
    (h : s.members.length + ns.length ≤ width) :
    m ∈ (s.insertAll ns).members ↔ m ∈ s.members ∨ m ∈ ns := by
  refine ⟨mem_insertAll, ?_⟩
  induction ns generalizing s with
  | nil => simp [insertAll]
  | cons n ns ih =>
    rw [List.length_cons] at h
    have hroom : (s.insert n).members.length + ns.length ≤ width := by
      rw [members_insert]
      split
      · rw [List.length_append, List.length_singleton]
        omega
      · omega
    have hmem : n ∈ (s.insert n).members := by
      by_cases hn : n ∈ s.members
      · exact mem_insert_of_mem n hn
      · rw [members_insert, if_pos ⟨hn, by omega⟩]
        simp
    rintro (hm | hm)
    · exact ih hroom (.inl (mem_insert_of_mem n hm))
    · rcases List.mem_cons.1 hm with rfl | hm
      · exact ih hroom (.inl hmem)
      · exact ih hroom (.inr hm)

theorem mem_ofList_iff {ns : List Nexthop} {m : Nexthop} (h : ns.length ≤ width) :
    m ∈ (ofList ns).members ↔ m ∈ ns := by
  rw [ofList, mem_insertAll_iff (by simpa [empty] using h)]
  simp [empty]

theorem isEmpty_iff {s : NexthopSet} : s.isEmpty = true ↔ ∀ m, m ∉ s.members := by
  rw [isEmpty, List.isEmpty_iff, List.eq_nil_iff_forall_not_mem]

end NexthopSet

/-- The two kinds of next hop: over a unicast link, and over a tunnel. -/
inductive NexthopKind where
  | ip
  | lsp
deriving DecidableEq

/-- One value for each kind of next hop. -/
structure ByKind (α : Type) where
  ip : α
  lsp : α
deriving DecidableEq, Inhabited

namespace ByKind

variable {α : Type}

def get (b : ByKind α) : NexthopKind → α
  | .ip => b.ip
  | .lsp => b.lsp

def set (b : ByKind α) (k : NexthopKind) (a : α) : ByKind α :=
  match k with
  | .ip => { b with ip := a }
  | .lsp => { b with lsp := a }

def modify (b : ByKind α) (k : NexthopKind) (f : α → α) : ByKind α := b.set k (f (b.get k))

theorem get_set (b : ByKind α) (k k' : NexthopKind) (a : α) :
    (b.set k a).get k' = if k = k' then a else b.get k' := by
  cases k <;> cases k' <;> rfl

theorem ext_get {a b : ByKind α} (h : ∀ k, a.get k = b.get k) : a = b := by
  cases a
  cases b
  exact congr (congrArg mk (h .ip)) (h .lsp)

end ByKind

/-- The next hops of a destination, by kind. -/
abbrev Nexthops := ByKind NexthopSet

namespace Nexthops

def empty : Nexthops := ⟨.empty, .empty⟩

def isEmpty (s : Nexthops) : Bool := s.ip.isEmpty && s.lsp.isEmpty

def insert (s : Nexthops) (k : NexthopKind) (n : Nexthop) : Nexthops :=
  s.modify k fun set => set.insert n

def extend (s t : Nexthops) : Nexthops := ⟨s.ip.extend t.ip, s.lsp.extend t.lsp⟩

/-- The next hops that satisfy a condition. -/
def filter (s : Nexthops) (p : Nexthop → Bool) : Nexthops :=
  ⟨.ofList (s.ip.members.filter p), .ofList (s.lsp.members.filter p)⟩

theorem get_filter (s : Nexthops) (p : Nexthop → Bool) (k : NexthopKind) :
    (s.filter p).get k = .ofList ((s.get k).members.filter p) := by
  cases k <;> rfl

theorem get_insert (s : Nexthops) (k k' : NexthopKind) (n : Nexthop) :
    (s.insert k n).get k' = if k = k' then (s.get k').insert n else s.get k' := by
  rw [insert, ByKind.modify, ByKind.get_set]
  split
  · rename_i e
    rw [e]
  · rfl

theorem mem_filter {s : Nexthops} {p : Nexthop → Bool} {k : NexthopKind} {n : Nexthop} :
    n ∈ ((s.filter p).get k).members ↔ n ∈ (s.get k).members ∧ p n = true := by
  rw [get_filter, NexthopSet.mem_ofList_iff, List.mem_filter]
  exact Nat.le_trans (List.length_filter_le ..) (s.get k).length_le

theorem isEmpty_iff {s : Nexthops} :
    s.isEmpty = true ↔ ∀ k n, n ∉ (s.get k).members := by
  rw [isEmpty, Bool.and_eq_true, NexthopSet.isEmpty_iff, NexthopSet.isEmpty_iff]
  constructor
  · rintro ⟨hip, hlsp⟩ (_ | _)
    · exact hip
    · exact hlsp
  · exact fun h => ⟨h .ip, h .lsp⟩

theorem not_mem_empty (k : NexthopKind) (n : Nexthop) : n ∉ (Nexthops.empty.get k).members := by
  cases k <;> exact List.not_mem_nil

theorem get_extend (s t : Nexthops) (k : NexthopKind) :
    (s.extend t).get k = (s.get k).extend (t.get k) := by
  cases k <;> rfl

theorem mem_get_extend_cases {a b : Nexthops} {k : NexthopKind} {m : Nexthop}
    (h : m ∈ ((a.extend b).get k).members) : m ∈ (a.get k).members ∨ m ∈ (b.get k).members := by
  rw [get_extend] at h
  exact NexthopSet.mem_extend_cases h

end Nexthops

end LinkState
