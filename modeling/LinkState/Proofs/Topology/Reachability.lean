import LinkState.Proofs.Topology.WellFormed
import LinkState.Topology.Neighbours
import Mathlib.Data.List.Nodup
import Mathlib.Data.List.Perm.Subperm
import Mathlib.Logic.Relation

/-!
# The nodes that a root can reach

`Joined` holds of two nodes that a chain of active edges joins. In a well-formed topology the set
`reachable` holds exactly the nodes joined to the root (`contains_reachable_iff`).

The search behind it takes one node at a time from a queue. What it has seen is joined to the root;
the nodes that it has seen but whose neighbours it may not have seen are in the queue; and every
step takes one from the number of nodes not seen yet and the length of the queue together
(`visit_unseen`), so that the fuel lasts until the queue is empty.

`Explores` is the loop of the search without fuel. It comes to its end, and on the way it has taken
each node of the set from the queue once (`explores_reachable`).
-/

namespace LinkState

theorem Table.handles_nodup {α : Type} (t : Table α) : t.handles.Nodup :=
  List.nodup_range.map fun i j h => by simpa using h

theorem Table.map_fst_entries {α : Type} (t : Table α) : t.entries.map (·.1) = t.handles := by
  refine List.ext_getElem (by simp [entries, handles, size]) fun i h h' => ?_
  simp [entries, handles]

/-- There are no more distinct rows than the table has. -/
theorem Table.length_le_size {α : Type} {t : Table α} {hs : List Handle} (hnodup : hs.Nodup)
    (hmem : ∀ h ∈ hs, t.contains h = true) : hs.length ≤ t.size := by
  have hsub : hs ⊆ t.handles := fun h hh => mem_handles.2 (hmem h hh)
  have hlength := (hnodup.subperm hsub).length_le
  rwa [handles, List.length_map, List.length_range] at hlength

namespace Topology

variable (t : Topology) (l : Level)

theorem arcs_nodup : (t.arcs.map (·.id)).Nodup := by
  rw [arcs, List.map_map]
  exact t.edges.map_fst_entries ▸ t.edges.handles_nodup

/-- A node has each of its active edges once. -/
theorem activeArcs_nodup [t.Listed] (n : NodeId) : ((t.activeArcs n l).map (·.id)).Nodup := by
  rw [activeArcs, arcsFrom_eq]
  exact t.arcs_nodup.sublist ((List.filter_sublist.trans List.filter_sublist).map _)

/-- An active edge leads from one node to the other. -/
def Adjacent (n m : NodeId) : Prop := ∃ a ∈ t.activeArcs n l, a.edge.target.node = m

/-- A chain of active edges leads from one node to the other. -/
def Joined : NodeId → NodeId → Prop := Relation.ReflTransGen (Adjacent t l)

variable {t l}

theorem Adjacent.contains (hw : t.WellFormed) {n m : NodeId} (h : Adjacent t l n m) :
    t.nodes.contains m = true := by
  obtain ⟨a, ha, rfl⟩ := h
  exact hw.target_mem a.id a.edge ((mem_activeArcs t).1 ha).1

theorem Joined.contains (hw : t.WellFormed) {n m : NodeId} (h : Joined t l n m)
    (hn : t.nodes.contains n = true) : t.nodes.contains m = true := by
  cases h with
  | refl => exact hn
  | tail _ hm => exact hm.contains hw

/-- Logical neighbours are joined by the edge that leads to them, or by that and one from the
LAN. -/
theorem joined_of_mem_logicalNeighbours {n : NodeId} {nb : LogicalNeighbour}
    (h : nb ∈ t.logicalNeighbours n l) : Joined t l n nb.node := by
  obtain ⟨hout, ⟨-, -, hnode⟩ | ⟨-, c, hc, -, -, hnode⟩⟩ := (mem_logicalNeighbours t).1 h
  · exact hnode ▸ .single ⟨nb.out, hout, rfl⟩
  · exact hnode ▸ .tail (.single ⟨nb.out, hout, rfl⟩) ⟨c, hc, rfl⟩

/-! ## Visiting the neighbours of a node -/

theorem contains_visit (seen : NodeSet) (ns : List NodeId) (x : NodeId) :
    (visit seen ns).1.contains x = true ↔ seen.contains x = true ∨ x ∈ ns := by
  induction ns generalizing seen with
  | nil => simp [visit]
  | cons n ns ih =>
    unfold visit
    split
    · rename_i hn
      rw [ih, List.mem_cons]
      constructor
      · rintro (h | h)
        · exact .inl h
        · exact .inr (.inr h)
      · rintro (h | rfl | h)
        · exact .inl h
        · exact .inl hn
        · exact .inr h
    · simp only [ih, Std.TreeSet.contains_insert, Bool.or_eq_true, beq_iff_eq,
        Std.LawfulEqOrd.compare_eq_iff_eq, List.mem_cons]
      rw [or_assoc, or_left_comm, @eq_comm _ n x]

theorem mem_visit_snd (seen : NodeSet) (ns : List NodeId) (x : NodeId) :
    x ∈ (visit seen ns).2 ↔ x ∈ ns ∧ seen.contains x = false := by
  induction ns generalizing seen with
  | nil => simp [visit]
  | cons n ns ih =>
    unfold visit
    split
    · rename_i hn
      rw [ih, List.mem_cons]
      constructor
      · exact fun ⟨h, hx⟩ => ⟨.inr h, hx⟩
      · rintro ⟨rfl | h, hx⟩
        · rw [hn] at hx
          cases hx
        · exact ⟨h, hx⟩
    · rename_i hn
      simp only [List.mem_cons, ih, Std.TreeSet.contains_insert, Bool.or_eq_false_iff,
        beq_eq_false_iff_ne, ne_eq, Std.LawfulEqOrd.compare_eq_iff_eq]
      constructor
      · rintro (rfl | ⟨h, -, hx⟩)
        · exact ⟨.inl rfl, Bool.eq_false_iff.2 hn⟩
        · exact ⟨.inr h, hx⟩
      · rintro ⟨rfl | h, hx⟩
        · exact .inl rfl
        · by_cases e : n = x
          · exact .inl e.symm
          · exact .inr ⟨h, e, hx⟩

theorem visit_snd_nodup (seen : NodeSet) (ns : List NodeId) : (visit seen ns).2.Nodup := by
  induction ns generalizing seen with
  | nil => exact .nil
  | cons n ns ih =>
    unfold visit
    split
    · exact ih seen
    · refine List.nodup_cons.2 ⟨fun hmem => ?_, ih _⟩
      have hnew := ((mem_visit_snd ..).1 hmem).2
      rw [Std.TreeSet.contains_insert_self] at hnew
      cases hnew

/-- The number of nodes that a set does not hold. -/
def unseen (t : Topology) (seen : NodeSet) : Nat :=
  t.nodes.handles.countP fun n => !seen.contains n

theorem unseen_insert {seen : NodeSet} {n : NodeId} (hn : t.nodes.contains n = true)
    (h : seen.contains n = false) : t.unseen (seen.insert n) + 1 = t.unseen seen := by
  have hmem := Table.mem_handles.2 hn
  have hnd := t.nodes.handles_nodup
  unfold unseen
  generalize t.nodes.handles = hs at hmem hnd
  induction hs with
  | nil => cases hmem
  | cons m ms ih =>
    obtain ⟨hm, hms⟩ := List.nodup_cons.1 hnd
    have hc : ∀ x, (seen.insert n).contains x = (decide (n = x) || seen.contains x) := by
      intro x
      rw [Std.TreeSet.contains_insert, Bool.eq_iff_iff]
      simp
    rcases List.mem_cons.1 hmem with rfl | hmem
    · have : ms.countP (fun x => !(seen.insert n).contains x) =
          ms.countP fun x => !seen.contains x := by
        refine List.countP_congr fun x hx => ?_
        have : n ≠ x := fun e => hm (e ▸ hx)
        simp [hc, this]
      rw [List.countP_cons, List.countP_cons, this]
      simp [hc, h]
    · have hne : n ≠ m := fun e => hm (e ▸ hmem)
      rw [List.countP_cons, List.countP_cons, ← ih hmem hms]
      simp only [hc, hne, decide_false, Bool.false_or]
      omega

theorem visit_unseen (seen : NodeSet) {ns : List NodeId}
    (hns : ∀ n ∈ ns, t.nodes.contains n = true) :
    t.unseen (visit seen ns).1 + (visit seen ns).2.length = t.unseen seen := by
  induction ns generalizing seen with
  | nil => rfl
  | cons n ns ih =>
    have ih := fun seen => ih seen fun m hm => hns m (List.mem_cons_of_mem _ hm)
    unfold visit
    split
    · exact ih seen
    · rename_i hn
      have := unseen_insert (hns n List.mem_cons_self) (Bool.eq_false_iff.2 hn)
      have := ih (seen.insert n)
      simp only [List.length_cons]
      omega

/-! ## The search -/

/-- What holds between two steps of the search: the queue has been seen, what has been seen and
left the queue is closed under active edges, and the fuel lasts. -/
structure Exploring (t : Topology) (l : Level) (fuel : Nat) (seen : NodeSet)
    (queue : List NodeId) : Prop where
  queue_seen : ∀ n ∈ queue, seen.contains n = true
  closed : ∀ n m, seen.contains n = true → n ∉ queue → Adjacent t l n m → seen.contains m = true
  lasts : t.unseen seen + queue.length ≤ fuel

theorem Exploring.step (hw : t.WellFormed) {fuel : Nat} {seen : NodeSet} {n : NodeId}
    {queue : List NodeId} (h : Exploring t l (fuel + 1) seen (n :: queue)) :
    Exploring t l fuel (visit seen ((t.activeArcs n l).map fun a => a.edge.target.node)).1
      (queue ++ (visit seen ((t.activeArcs n l).map fun a => a.edge.target.node)).2) := by
  have hnext : ∀ m, m ∈ (t.activeArcs n l).map (fun a => a.edge.target.node) ↔ Adjacent t l n m :=
    fun m => List.mem_map
  have hadded := mem_visit_snd seen ((t.activeArcs n l).map fun a => a.edge.target.node)
  exact {
    queue_seen := by
      intro m hm
      rw [contains_visit]
      rcases List.mem_append.1 hm with hm | hm
      · exact .inl (h.queue_seen m (List.mem_cons_of_mem _ hm))
      · exact .inr ((hadded m).1 hm).1
    closed := by
      intro x m hx hxq hxm
      rw [List.mem_append, not_or, hadded] at hxq
      rw [contains_visit] at hx ⊢
      by_cases hxn : x = n
      · subst hxn
        exact .inr ((hnext m).2 hxm)
      · have hxs : seen.contains x = true := by
          rcases hx with hx | hx
          · exact hx
          · by_contra hs
            exact hxq.2 ⟨hx, Bool.eq_false_iff.2 hs⟩
        exact .inl (h.closed x m hxs (by simp [hxn, hxq.1]) hxm)
    lasts := by
      have := h.lasts
      have hnodes : ∀ m ∈ (t.activeArcs n l).map (fun a => a.edge.target.node),
          t.nodes.contains m = true := fun m hm => ((hnext m).1 hm).contains hw
      have := visit_unseen seen hnodes
      simp only [List.length_append, List.length_cons] at *
      omega }

theorem explore_closed (hw : t.WellFormed) {fuel : Nat} {seen : NodeSet} {queue : List NodeId}
    (h : Exploring t l fuel seen queue) :
    (∀ n, seen.contains n = true → (t.explore l fuel seen queue).contains n = true) ∧
      ∀ n m, (t.explore l fuel seen queue).contains n = true → Adjacent t l n m →
        (t.explore l fuel seen queue).contains m = true := by
  induction fuel generalizing seen queue with
  | zero =>
    have : queue = [] := List.length_eq_zero_iff.1 (by have := h.lasts; omega)
    subst this
    exact ⟨fun n hn => hn, fun n m hn => h.closed n m hn (by simp)⟩
  | succ fuel ih =>
    cases queue with
    | nil => exact ⟨fun n hn => hn, fun n m hn => h.closed n m hn (by simp)⟩
    | cons n queue =>
      obtain ⟨hseen, hclosed⟩ := ih (h.step hw)
      exact ⟨fun m hm => hseen m ((contains_visit ..).2 (.inl hm)), hclosed⟩

theorem explore_sound {P : NodeId → Prop} (hP : ∀ n m, P n → Adjacent t l n m → P m) {fuel : Nat}
    {seen : NodeSet} {queue : List NodeId} (hseen : ∀ n, seen.contains n = true → P n)
    (hqueue : ∀ n ∈ queue, P n) :
    ∀ n, (t.explore l fuel seen queue).contains n = true → P n := by
  induction fuel generalizing seen queue with
  | zero => exact hseen
  | succ fuel ih =>
    cases queue with
    | nil => exact hseen
    | cons n queue =>
      have hnext : ∀ m ∈ (t.activeArcs n l).map (fun a => a.edge.target.node), P m := fun m hm =>
        hP n m (hqueue n List.mem_cons_self) (List.mem_map.1 hm)
      refine ih ?_ ?_
      · intro m hm
        rcases (contains_visit ..).1 hm with hm | hm
        · exact hseen m hm
        · exact hnext m hm
      · intro m hm
        rcases List.mem_append.1 hm with hm | hm
        · exact hqueue m (List.mem_cons_of_mem _ hm)
        · exact hnext m ((mem_visit_snd ..).1 hm).1

theorem contains_insert_empty (root n : NodeId) :
    (({} : NodeSet).insert root).contains n = true ↔ n = root := by
  rw [Std.TreeSet.contains_insert, Bool.or_eq_true, beq_iff_eq, Std.LawfulEqOrd.compare_eq_iff_eq]
  exact ⟨fun h => h.elim Eq.symm fun h => (by simp at h), fun h => .inl h.symm⟩

/-- The search starts with the root seen and queued. -/
theorem exploring_start (root : NodeId) :
    Exploring t l (t.nodes.size + 1) (({} : NodeSet).insert root) [root] where
  queue_seen n hn := (contains_insert_empty ..).2 (List.mem_singleton.1 hn)
  closed n m hn hnq := absurd (List.mem_singleton.2 ((contains_insert_empty ..).1 hn)) hnq
  lasts := by
    have : t.unseen (({} : NodeSet).insert root) ≤ t.nodes.handles.length :=
      List.countP_le_length
    simpa [Table.handles] using this

/-- **Exactly the nodes joined to the root by active edges are reachable.** -/
theorem contains_reachable_iff (hw : t.WellFormed) {root : NodeId} (n : NodeId) :
    (t.reachable root l).contains n = true ↔ Joined t l root n := by
  constructor
  · refine explore_sound (fun n m => Relation.ReflTransGen.tail) (fun m hm => ?_) (fun m hm => ?_) n
    · exact (contains_insert_empty ..).1 hm ▸ .refl
    · exact List.mem_singleton.1 hm ▸ .refl
  · obtain ⟨hseen, hclosed⟩ := explore_closed hw (exploring_start (l := l) root)
    intro h
    induction h with
    | refl => exact hseen root ((contains_insert_empty ..).2 rfl)
    | tail _ hm ih => exact hclosed _ _ ih hm

/-! ## The loop of the search -/

/-- The loop of the search: from what has been seen and a queue on, some nodes are taken from the
queue, one in each round, until it is empty, and a set has been seen then. -/
inductive Explores (t : Topology) (l : Level) :
    NodeSet → List NodeId → List NodeId → NodeSet → Prop
  | done (seen : NodeSet) : Explores t l seen [] [] seen
  | next {seen out : NodeSet} {n : NodeId} {queue taken : List NodeId}
      (rest : Explores t l (visit seen ((t.activeArcs n l).map fun a => a.edge.target.node)).1
        (queue ++ (visit seen ((t.activeArcs n l).map fun a => a.edge.target.node)).2) taken out) :
    Explores t l seen (n :: queue) (n :: taken) out

variable {seen out : NodeSet} {queue taken : List NodeId}

/-- As long as the fuel lasts the search does what its loop does, and that comes to its end. -/
theorem Exploring.explores (hw : t.WellFormed) {fuel : Nat} (h : Exploring t l fuel seen queue) :
    ∃ taken, Explores t l seen queue taken (t.explore l fuel seen queue) := by
  induction fuel generalizing seen queue with
  | zero =>
    have hempty : queue = [] := List.length_eq_zero_iff.1 (by have := h.lasts; omega)
    subst hempty
    exact ⟨[], .done seen⟩
  | succ fuel ih =>
    cases queue with
    | nil => exact ⟨[], .done seen⟩
    | cons n queue =>
      obtain ⟨taken, hrest⟩ := ih (h.step hw)
      exact ⟨n :: taken, .next hrest⟩

theorem Explores.contains_out (h : Explores t l seen queue taken out) {n : NodeId}
    (hn : seen.contains n = true) : out.contains n = true := by
  induction h with
  | done => exact hn
  | next _ ih => exact ih ((contains_visit ..).2 (.inl hn))

/-- The nodes taken from the queue are those that stood in it and those seen for the first time,
each once. -/
theorem Explores.taken_spec (h : Explores t l seen queue taken out)
    (hseen : ∀ n ∈ queue, seen.contains n = true) (hnodup : queue.Nodup) :
    taken.Nodup ∧ ∀ n, n ∈ taken ↔
      n ∈ queue ∨ out.contains n = true ∧ seen.contains n = false := by
  induction h with
  | done seen =>
    refine ⟨.nil, fun n => ?_⟩
    cases seen.contains n <;> simp
  | @next seen out n queue taken hrest ih =>
    have hadded := mem_visit_snd seen ((t.activeArcs n l).map fun a => a.edge.target.node)
    have hvisit := contains_visit seen ((t.activeArcs n l).map fun a => a.edge.target.node)
    have hout := fun m => hrest.contains_out (n := m)
    generalize (t.activeArcs n l).map (fun a => a.edge.target.node) = ends at *
    obtain ⟨hn, hqueue⟩ := List.forall_mem_cons.1 hseen
    obtain ⟨hnew, hnodup⟩ := List.nodup_cons.1 hnodup
    obtain ⟨htaken, hmem⟩ := ih
      (fun m hm => (hvisit m).2 ((List.mem_append.1 hm).imp (hqueue m) fun h => ((hadded m).1 h).1))
      (hnodup.append (visit_snd_nodup seen ends) fun m hm hm' => by
        have := ((hadded m).1 hm').2
        rw [hqueue m hm] at this
        cases this)
    -- a node that is taken was seen before, so it does not come into the queue again
    have hold : (visit seen ends).1.contains n = true := (hvisit n).2 (.inl hn)
    refine ⟨List.nodup_cons.2 ⟨fun h => ?_, htaken⟩, fun m => ?_⟩
    · rcases (hmem n).1 h with h | ⟨-, h⟩
      · rcases List.mem_append.1 h with h | h
        · exact hnew h
        · exact Bool.noConfusion (hn.symm.trans ((hadded n).1 h).2)
      · exact Bool.noConfusion (hold.symm.trans h)
    · have hends : m ∈ ends → out.contains m = true := fun h => hout m ((hvisit m).2 (.inr h))
      simp only [List.mem_cons, hmem, List.mem_append, hadded, ← Bool.not_eq_true, hvisit]
      constructor
      · rintro (h | (h | ⟨h, hm⟩) | ⟨h, hm⟩)
        · exact .inl (.inl h)
        · exact .inl (.inr h)
        · exact .inr ⟨hends h, hm⟩
        · exact .inr ⟨h, fun hs => hm (.inl hs)⟩
      · rintro ((h | h) | ⟨h, hm⟩)
        · exact .inl h
        · exact .inr (.inl (.inl h))
        · by_cases he : m ∈ ends
          · exact .inr (.inl (.inr ⟨he, hm⟩))
          · exact .inr (.inr ⟨h, fun hs => hs.elim hm he⟩)

/-- **The search of the nodes that the root can reach comes to its end**, and takes each of them
from the queue once. -/
theorem explores_reachable (hw : t.WellFormed) (root : NodeId) :
    ∃ taken, Explores t l (({} : NodeSet).insert root) [root] taken (t.reachable root l) ∧
      taken.Nodup ∧ ∀ n, n ∈ taken ↔ (t.reachable root l).contains n = true := by
  have hstart := exploring_start (t := t) (l := l) root
  obtain ⟨taken, h⟩ := hstart.explores hw
  obtain ⟨hnodup, hmem⟩ := h.taken_spec hstart.queue_seen (List.nodup_singleton root)
  refine ⟨taken, h, hnodup, fun n => ?_⟩
  rw [hmem, List.mem_singleton, ← contains_insert_empty root n, Bool.eq_false_iff]
  have hout : _ → (t.reachable root l).contains n = true := h.contains_out
  exact ⟨fun hn => hn.elim hout And.left, fun hn => (Classical.em _).imp_right fun hs => ⟨hn, hs⟩⟩

end Topology

end LinkState
