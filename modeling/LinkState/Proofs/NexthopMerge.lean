import LinkState.Nexthop
import Mathlib.Data.Finset.Card

/-!
# Merging next hops

A destination collects the next hops of several paths, one contribution after the other, and no set
takes more than `NexthopSet.width` of a kind. `Nexthops.merge` is what a row of contributions
amounts to: for each kind, the first distinct next hops of the row (`get_merge`). Nothing is left
out but for want of room (`mem_merge_or_full`), and a set that is full stays so.

`NexthopSet.Fills` says this of a set and a finite set of candidates. It fixes the number of
members (`Fills.length_eq`).

Extending a set is associative although every step may cut its result (`NexthopSet.extend_assoc`):
what is cut off is left out again, since a set that is cut fills by itself whatever takes it in.
-/

namespace LinkState

namespace NexthopSet

/-- A set that has no room for another member. -/
def IsFull (s : NexthopSet) : Prop := s.members.length = width

variable {s : NexthopSet} {n : Nexthop} {ns : List Nexthop}

theorem ext_members {s t : NexthopSet} (h : s.members = t.members) : s = t := by
  cases s
  cases t
  cases h
  rfl

theorem isFull_of_no_room (h : ¬s.members.length < width) : s.IsFull :=
  Nat.le_antisymm s.length_le (Nat.not_lt.1 h)

theorem insert_of_mem_or_full (h : n ∈ s.members ∨ s.IsFull) : s.insert n = s := by
  refine ext_members ?_
  rw [members_insert, if_neg]
  rintro ⟨hnew, hroom⟩
  exact h.elim hnew fun hfull => Nat.ne_of_lt hroom hfull

theorem insertAll_of_mem_or_full (h : ∀ n ∈ ns, n ∈ s.members ∨ s.IsFull) :
    s.insertAll ns = s := by
  induction ns with
  | nil => rfl
  | cons n ns ih =>
    obtain ⟨hn, hns⟩ := List.forall_mem_cons.1 h
    rw [insertAll, List.foldl_cons, insert_of_mem_or_full hn, ← insertAll, ih hns]

theorem insertAll_of_isFull (h : s.IsFull) (ns : List Nexthop) : s.insertAll ns = s :=
  insertAll_of_mem_or_full fun _ _ => .inr h

theorem mem_insert_self_or_full (s : NexthopSet) (n : Nexthop) :
    n ∈ (s.insert n).members ∨ s.IsFull := by
  by_cases hn : n ∈ s.members
  · exact .inl (mem_insert_of_mem n hn)
  by_cases hroom : s.members.length < width
  · rw [members_insert, if_pos ⟨hn, hroom⟩]
    exact .inl (by simp)
  · exact .inr (isFull_of_no_room hroom)

/-- A next hop of the list is left out only if the set ends up full. -/
theorem mem_insertAll_or_full (s : NexthopSet) (h : n ∈ ns) :
    n ∈ (s.insertAll ns).members ∨ (s.insertAll ns).IsFull := by
  induction ns generalizing s with
  | nil => cases h
  | cons m ns ih =>
    rcases List.mem_cons.1 h with rfl | h
    · rcases mem_insert_self_or_full s n with hn | hfull
      · exact .inl (mem_insertAll_of_mem ns hn)
      · exact .inr (by rwa [insertAll_of_isFull hfull])
    · exact ih (s.insert m) h

/-- A full set fills every set that takes in its members as long as there is room. -/
theorem IsFull.of_mem_or_full {t : NexthopSet} (ht : t.IsFull)
    (h : ∀ n ∈ t.members, n ∈ s.members ∨ s.IsFull) : s.IsFull := by
  by_contra hnot
  have hsub : t.members ⊆ s.members := fun n hn => (h n hn).resolve_right hnot
  have hlength := (t.nodup.subperm hsub).length_le
  rw [ht] at hlength
  exact hnot (Nat.le_antisymm s.length_le hlength)

theorem insertAll_append (s : NexthopSet) (ns ms : List Nexthop) :
    s.insertAll (ns ++ ms) = (s.insertAll ns).insertAll ms :=
  List.foldl_append

/-- A set that takes the next hops of a list one after the other ends up with the first distinct
ones, as far as there is room. -/
theorem members_insertAll_eraseDups (s : NexthopSet) (ns : List Nexthop) :
    (s.insertAll ns).members = s.members ++
      (ns.filter fun n => !s.members.contains n).eraseDups.take (width - s.members.length) := by
  induction ns generalizing s with
  | nil => simp [insertAll]
  | cons n ns ih =>
    rw [insertAll, List.foldl_cons, ← insertAll, ih]
    by_cases hn : n ∈ s.members
    · rw [members_insert, if_neg fun h => h.1 hn, List.filter_cons_of_neg (by simpa using hn)]
    · rw [List.filter_cons_of_pos (by simpa using hn), List.eraseDups_cons, List.filter_filter]
      by_cases hroom : s.members.length < width
      · have hrest : (ns.filter fun m => !(s.members ++ [n]).contains m) =
            ns.filter fun m => !m == n && !s.members.contains m := by
          refine List.filter_congr fun m _ => ?_
          rw [List.contains_append, Bool.not_or, Bool.and_comm, List.contains_cons,
            List.contains_nil, Bool.or_false]
        have htake : width - s.members.length = width - (s.members ++ [n]).length + 1 := by
          rw [List.length_append, List.length_singleton]
          omega
        rw [members_insert, if_pos ⟨hn, hroom⟩, hrest, htake, List.take_succ_cons,
          List.append_assoc]
        rfl
      · have hfull : s.IsFull := isFull_of_no_room hroom
        rw [insert_of_mem_or_full (.inr hfull), hfull, Nat.sub_self, List.take_zero, List.take_zero]

/-- A set made of a list holds its first distinct next hops. -/
theorem members_ofList_eraseDups (ns : List Nexthop) :
    (ofList ns).members = ns.eraseDups.take width := by
  have hall : (ns.filter fun n => !empty.members.contains n) = ns :=
    List.filter_eq_self.2 fun _ _ => rfl
  rw [ofList, members_insertAll_eraseDups, hall]
  rfl

theorem eraseDups_of_nodup (h : ns.Nodup) : ns.eraseDups = ns := by
  induction ns with
  | nil => rfl
  | cons n ns ih =>
    obtain ⟨hn, hns⟩ := List.nodup_cons.1 h
    have hrest : (ns.filter fun m => !m == n) = ns := by
      refine List.filter_eq_self.2 fun m hm => ?_
      simpa using ne_of_mem_of_not_mem hm hn
    rw [List.eraseDups_cons, hrest, ih hns]

/-- Next hops that are distinct and new are taken in their order, as far as there is room. -/
theorem members_insertAll (hnodup : ns.Nodup) (hnew : ∀ n ∈ ns, n ∉ s.members) :
    (s.insertAll ns).members = s.members ++ ns.take (width - s.members.length) := by
  have hall : (ns.filter fun n => !s.members.contains n) = ns := by
    refine List.filter_eq_self.2 fun n hn => ?_
    simpa using hnew n hn
  rw [members_insertAll_eraseDups, hall, eraseDups_of_nodup hnodup]

theorem members_ofList (h : ns.Nodup) : (ofList ns).members = ns.take width := by
  rw [ofList, members_insertAll h fun _ _ => List.not_mem_nil]
  rfl

theorem ofList_members (s : NexthopSet) : ofList s.members = s :=
  ext_members (by rw [members_ofList s.nodup, List.take_of_length_le s.length_le])

/-- A set extended by another holds the first distinct next hops of both. -/
theorem members_extend (s t : NexthopSet) :
    (s.extend t).members = (s.members ++ t.members).eraseDups.take width := by
  have hall : s.extend t = ofList (s.members ++ t.members) := by
    rw [ofList, insertAll_append, ← ofList, ofList_members, extend]
  rw [hall, members_ofList_eraseDups]

/-! ### Regrouping -/

/-- A next hop may be added before or after its set is taken in. -/
theorem insertAll_members_insert (s t : NexthopSet) (n : Nexthop) :
    s.insertAll (t.insert n).members = (s.insertAll t.members).insert n := by
  rw [members_insert]
  split
  · exact insertAll_append ..
  · rename_i hrefused
    symm
    apply insert_of_mem_or_full
    -- either the next hop is taken in with its set, or that is full and fills the other one
    by_cases hn : n ∈ t.members
    · exact mem_insertAll_or_full s hn
    · have hfull : t.IsFull := isFull_of_no_room fun hroom => hrefused ⟨hn, hroom⟩
      exact .inr (hfull.of_mem_or_full fun _ hm => mem_insertAll_or_full s hm)

theorem insertAll_members_insertAll (s t : NexthopSet) (ns : List Nexthop) :
    s.insertAll (t.insertAll ns).members = (s.insertAll t.members).insertAll ns := by
  induction ns generalizing t with
  | nil => rfl
  | cons n ns ih =>
    have hleft : t.insertAll (n :: ns) = (t.insert n).insertAll ns := rfl
    rw [hleft, ih, insertAll_members_insert]
    rfl

/-- **Extending is associative**, although it may cut what it makes at every step. -/
theorem extend_assoc (a b c : NexthopSet) : (a.extend b).extend c = a.extend (b.extend c) :=
  (insertAll_members_insertAll a b c.members).symm

theorem extend_self (s : NexthopSet) : s.extend s = s :=
  insertAll_of_mem_or_full fun _ => .inl

theorem empty_extend (s : NexthopSet) : empty.extend s = s := s.ofList_members

theorem extend_empty (s : NexthopSet) : s.extend empty = s := rfl

instance : Std.Associative extend := ⟨extend_assoc⟩

instance : Std.LawfulIdentity extend empty where
  left_id := empty_extend
  right_id := extend_empty

/-- As many of some candidates are members as there is room for, and nothing else is. -/
structure Fills (s : NexthopSet) (candidates : Finset Nexthop) : Prop where
  subset : ∀ n ∈ s.members, n ∈ candidates
  full : ∀ n ∈ candidates, n ∈ s.members ∨ s.IsFull

theorem Fills.length_eq {candidates : Finset Nexthop} (h : s.Fills candidates) :
    s.members.length = min width candidates.card := by
  have hcard := List.toFinset_card_of_nodup s.nodup
  have hle : s.members.toFinset.card ≤ candidates.card :=
    Finset.card_le_card fun n hn => h.subset n (List.mem_toFinset.1 hn)
  have hwidth := s.length_le
  by_cases hfull : s.IsFull
  · rw [IsFull] at hfull
    omega
  · have hge : candidates.card ≤ s.members.toFinset.card :=
      Finset.card_le_card fun n hn => List.mem_toFinset.2 ((h.full n hn).resolve_right hfull)
    omega

end NexthopSet

namespace Nexthops

/-- What the next hops of several paths amount to, taken one after the other. -/
def merge (cs : List Nexthops) : Nexthops := cs.foldl extend empty

variable {cs : List Nexthops} {c : Nexthops} {k : NexthopKind} {h : Nexthop}

theorem merge_concat (cs : List Nexthops) (c : Nexthops) :
    merge (cs ++ [c]) = (merge cs).extend c := by
  rw [merge, merge, List.foldl_append, List.foldl_cons, List.foldl_nil]

theorem empty_extend (c : Nexthops) : empty.extend c = c := by
  obtain ⟨ip, lsp⟩ := c
  exact congrArg₂ ByKind.mk ip.empty_extend lsp.empty_extend

theorem extend_empty (c : Nexthops) : c.extend empty = c := rfl

theorem extend_self (c : Nexthops) : c.extend c = c :=
  congrArg₂ ByKind.mk c.ip.extend_self c.lsp.extend_self

theorem extend_assoc (a b c : Nexthops) : (a.extend b).extend c = a.extend (b.extend c) :=
  congrArg₂ ByKind.mk (a.ip.extend_assoc b.ip c.ip) (a.lsp.extend_assoc b.lsp c.lsp)

instance : Std.Associative extend := ⟨extend_assoc⟩

instance : Std.LawfulIdentity extend empty where
  left_id := empty_extend
  right_id := extend_empty

/-- Adding the same next hops again changes nothing. -/
theorem extend_extend_self (s c : Nexthops) : (s.extend c).extend c = s.extend c := by
  rw [extend_assoc, extend_self]

theorem merge_append (cs ds : List Nexthops) :
    merge (cs ++ ds) = (merge cs).extend (merge ds) := by
  calc merge (cs ++ ds) = ds.foldl extend ((merge cs).extend empty) := List.foldl_append
    _ = (merge cs).extend (merge ds) := List.foldl_assoc

theorem merge_singleton (c : Nexthops) : merge [c] = c := empty_extend c

/-- For each kind a merge holds the first distinct next hops of the row. -/
theorem get_merge (cs : List Nexthops) (k : NexthopKind) :
    (merge cs).get k = .ofList (cs.flatMap fun c => (c.get k).members) := by
  induction cs using List.reverseRecOn with
  | nil => cases k <;> rfl
  | append_singleton cs c ih =>
    rw [merge_concat, get_extend, ih, NexthopSet.extend, NexthopSet.ofList,
      ← NexthopSet.insertAll_append, List.flatMap_append, List.flatMap_singleton]
    rfl

theorem mem_merge (hm : h ∈ ((merge cs).get k).members) : ∃ c ∈ cs, h ∈ (c.get k).members := by
  rw [get_merge] at hm
  obtain hempty | hm := NexthopSet.mem_insertAll hm
  · cases hempty
  · exact List.mem_flatMap.1 hm

theorem mem_merge_or_full (hc : c ∈ cs) (hm : h ∈ (c.get k).members) :
    h ∈ ((merge cs).get k).members ∨ ((merge cs).get k).IsFull := by
  rw [get_merge]
  exact NexthopSet.mem_insertAll_or_full _ (List.mem_flatMap.2 ⟨c, hc, hm⟩)

/-- A merge with a full set is full. -/
theorem isFull_merge (hc : c ∈ cs) (hfull : (c.get k).IsFull) : ((merge cs).get k).IsFull :=
  hfull.of_mem_or_full fun _ hm => mem_merge_or_full hc hm

theorem not_isFull_of_isEmpty {s : Nexthops} (hempty : s.isEmpty = true) (k : NexthopKind) :
    ¬(s.get k).IsFull := by
  rw [NexthopSet.IsFull, List.eq_nil_iff_forall_not_mem.2 (isEmpty_iff.1 hempty k)]
  exact Nat.noConfusion

/-- A merge with a set that is not empty is not empty. -/
theorem isEmpty_merge (hc : c ∈ cs) (hne : c.isEmpty = false) : (merge cs).isEmpty = false := by
  refine Bool.eq_false_iff.2 fun hempty => Bool.eq_false_iff.1 hne ?_
  refine isEmpty_iff.2 fun k h hm => ?_
  rcases mem_merge_or_full hc hm with hm | hfull
  · exact isEmpty_iff.1 hempty k h hm
  · exact not_isFull_of_isEmpty hempty k hfull

end Nexthops

end LinkState
