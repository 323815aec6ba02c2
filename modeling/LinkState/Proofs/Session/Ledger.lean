import LinkState.Proofs.Computation

/-!
# The runs of a session and its journal

A computation makes runs, on the topology or on an inverted one, and does other things in between
that no journal is kept of. Its `Chronicle` lists the runs that are made, in order; the chronicle of
a history of requests (`Session.MadeIn`) puts those of its computations together, of the answered
ones and of those that fail on the way. It starts anew where the session is renewed.

The journal is a window on this list. It numbers the runs from one on, its entries are the last ones
of the list in reverse (`Journal.Tells`), and as long as the size that is configured stays the same
their number is the least of this size and the number of runs (`Journal.Holds`). Entering a run
keeps both (`Journal.Tells.record`, `Journal.Holds.record`), so a history does
(`Session.journal_window`). As long as there are numbers left, a number says which run it is of
(`Journal.Window`); after the greatest one the numbers start again.
-/

namespace LinkState

open Compute

/-! ## Entries -/

/-- A run that was made, with the number of routers that it reached. -/
structure MadeRun where
  root : NodeId
  level : Level
  kind : RunKind
  reachable : Nat
deriving DecidableEq

/-- The entry of a run with a number. -/
def MadeRun.entry (r : MadeRun) (id : UInt32) : JournalEntry :=
  ⟨id, r.root, r.level, r.kind, r.reachable⟩

/-- The entries of all runs of a list, numbered from one on. -/
def numbered (runs : List MadeRun) : List JournalEntry :=
  runs.mapIdx fun i r => r.entry (.ofNat (i + 1))

theorem numbered_concat (runs : List MadeRun) (r : MadeRun) :
    numbered (runs ++ [r]) = numbered runs ++ [r.entry (.ofNat runs.length + 1)] := by
  rw [numbered, List.mapIdx_concat, UInt32.ofNat_add]
  rfl

theorem getElem?_numbered (runs : List MadeRun) (i : Nat) :
    (numbered runs)[i]? = runs[i]?.map (·.entry (.ofNat (i + 1))) :=
  List.getElem?_mapIdx

theorem length_numbered (runs : List MadeRun) : (numbered runs).length = runs.length :=
  List.length_mapIdx

namespace Journal

/-- A journal tells of a list of runs: its entries are the last ones, in reverse. -/
structure Tells (j : Journal) (runs : List MadeRun) : Prop where
  entries : j.entries <+: (numbered runs).reverse
  lastId : j.lastId = .ofNat runs.length
  counts : ∀ l, j.counts.get l = .ofNat (runs.countP (·.level == l))

/-- A journal holds as many entries of a list of runs as it has room for. -/
def Holds (size : Nat) (j : Journal) (runs : List MadeRun) : Prop :=
  j.entries = (numbered runs).reverse.take size

variable {j : Journal} {runs : List MadeRun}

theorem tells_nil : Tells {} [] := ⟨List.nil_prefix, rfl, fun l => by cases l <;> rfl⟩

theorem holds_nil (size : Nat) : Holds size {} [] := List.take_nil.symm

/-- Entering a run, whatever the size is now. -/
theorem Tells.record (h : j.Tells runs) (size : Nat) (r : MadeRun) :
    (j.record size r.root r.level r.kind r.reachable).Tells (runs ++ [r]) := by
  refine ⟨?_, ?_, fun l => ?_⟩
  · rw [numbered_concat, List.reverse_concat, ← h.lastId]
    exact (List.take_prefix ..).trans (List.cons_prefix_cons.2 ⟨rfl, h.entries⟩)
  · rw [List.length_append, List.length_singleton, UInt32.ofNat_add, ← h.lastId]
    rfl
  · rw [List.countP_append, UInt64.ofNat_add, ← h.counts]
    simp only [Journal.record, PerLevel.modify, PerLevel.get_set]
    by_cases e : r.level = l <;> simp [e]

/-- Entering a run into a journal of the same size as before. -/
theorem Holds.record {size : Nat} (h : j.Holds size runs) (hj : j.Tells runs) (r : MadeRun) :
    (j.record size r.root r.level r.kind r.reachable).Holds size (runs ++ [r]) := by
  unfold Holds at h ⊢
  rw [numbered_concat, List.reverse_concat, ← hj.lastId]
  cases size with
  | zero => rfl
  | succ size =>
    simp only [Journal.record, h, List.take_succ_cons, List.take_take]
    congr 2
    omega

/-- The entry at a place of a journal is that of the run as many before the last one. -/
theorem Tells.getElem? (h : j.Tells runs) {i : Nat} {e : JournalEntry}
    (he : j.entries[i]? = some e) :
    i < runs.length ∧ ∃ r, runs[runs.length - 1 - i]? = some r ∧
      e = r.entry (.ofNat (runs.length - i)) := by
  obtain ⟨older, hall⟩ := h.entries
  have hi : i < j.entries.length := (List.getElem?_eq_some_iff.1 he).1
  have hreverse : (numbered runs).reverse[i]? = some e := by
    rw [← hall, List.getElem?_append_left hi, he]
  have hlt : i < runs.length := by
    have := (List.getElem?_eq_some_iff.1 hreverse).1
    rwa [List.length_reverse, length_numbered] at this
  rw [List.getElem?_reverse ((length_numbered runs).symm ▸ hlt), length_numbered,
    getElem?_numbered, Option.map_eq_some_iff] at hreverse
  obtain ⟨r, hr, rfl⟩ := hreverse
  refine ⟨hlt, r, hr, ?_⟩
  rw [show runs.length - 1 - i + 1 = runs.length - i by omega]

/-- The number of an entry, as long as there are numbers left. -/
theorem Tells.toNat_id (h : j.Tells runs) (hroom : runs.length < UInt32.size) {i : Nat}
    {e : JournalEntry} (he : j.entries[i]? = some e) : e.id.toNat + i = runs.length := by
  obtain ⟨hlt, r, -, rfl⟩ := h.getElem? he
  show (UInt32.ofNat (runs.length - i)).toNat + i = runs.length
  rw [UInt32.toNat_ofNat_of_lt' (by omega)]
  omega

/-- What a journal says of the runs that were made, as long as there are numbers left. -/
structure Window (j : Journal) (runs : List MadeRun) : Prop where
  /-- The numbers of the entries decrease by one, from the last number that was given. -/
  consecutive : ∀ i e, j.entries[i]? = some e → e.id.toNat + i = j.lastId.toNat
  /-- Each entry is that of the run with its number. -/
  entry : ∀ e ∈ j.entries, 0 < e.id.toNat ∧
    ∃ r, runs[e.id.toNat - 1]? = some r ∧ e = r.entry e.id
  lastId_eq_length : j.lastId.toNat = runs.length
  count : ∀ l, (j.counts.get l).toNat = runs.countP (·.level == l)
  lastId_eq_counts : j.lastId.toNat = j.counts.l1.toNat + j.counts.l2.toNat

theorem Tells.window (h : j.Tells runs) (hroom : runs.length < UInt32.size) : j.Window runs := by
  have hlast : j.lastId.toNat = runs.length := by
    rw [h.lastId, UInt32.toNat_ofNat_of_lt' hroom]
  have hcount : ∀ l, (j.counts.get l).toNat = runs.countP (·.level == l) := fun l => by
    have hle : runs.countP (·.level == l) ≤ runs.length := List.countP_le_length
    rw [h.counts, UInt64.toNat_ofNat_of_lt' (hle.trans_lt (hroom.trans (by decide)))]
  refine ⟨fun i e he => (h.toNat_id hroom he).trans hlast.symm, fun e he => ?_, hlast, hcount, ?_⟩
  · obtain ⟨i, hi⟩ := List.mem_iff_getElem?.1 he
    have hid := h.toNat_id hroom hi
    obtain ⟨hlt, r, hr, hentry⟩ := h.getElem? hi
    refine ⟨by omega, r, ?_, ?_⟩
    · rwa [show e.id.toNat - 1 = runs.length - 1 - i by omega]
    · rw [hentry]
      rfl
  · have hl2 : j.counts.l2.toNat = runs.countP fun r => ¬(r.level == .l1) := by
      refine (hcount .l2).trans (List.countP_congr fun r _ => ?_)
      cases r.level <;> simp
    rw [hlast, hl2, List.length_eq_countP_add_countP (·.level == .l1)]
    exact congrArg (· + _) (hcount .l1).symm

end Journal

/-! ## Chronicles -/

/-- No run is made: none ends, and none is entered. -/
structure Aside (w w' : Workspace) : Prop extends Quiet w w' where
  journal : w'.journal = w.journal

/-- The runs that are made between two workspaces of computations on a topology, from the first to
the last. -/
inductive Chronicle (t : Topology) : Workspace → List MadeRun → Workspace → Prop
  | done (w : Workspace) : Chronicle t w [] w
  | aside {w w' w'' : Workspace} {runs : List MadeRun} (same : Aside w w')
      (rest : Chronicle t w' runs w'') : Chronicle t w runs w''
  | run {w w' w'' : Workspace} {t' : Topology} {root : NodeId} {l : Level} {kind : RunKind}
      {rs : List Result} {runs : List MadeRun} (on : t' = t ∨ ∃ l', t' = t.invert l')
      (performed : Run.perform t' root l kind w = .ok rs w') (rest : Chronicle t w' runs w'') :
      Chronicle t w (⟨root, l, kind, rs.length⟩ :: runs) w''

variable {t t' : Topology} {root : NodeId} {l : Level} {kind : RunKind}
  {w w' w'' : Workspace} {runs runs' : List MadeRun} {rs : List Result}

theorem Chronicle.append (h : Chronicle t w runs w') (h' : Chronicle t w' runs' w'') :
    Chronicle t w (runs ++ runs') w'' := by
  induction h with
  | done => exact h'
  | aside same _ ih => exact .aside same (ih h')
  | run on performed _ ih => exact .run on performed (ih h')

/-! ## A run is entered -/

/-- The journal and the settings are left alone. -/
structure SameJournal (w w' : Workspace) : Prop where
  journal : w'.journal = w.journal
  settings : w'.settings = w.settings

theorem chained_sameJournal : Chained SameJournal where
  refl _ := ⟨rfl, rfl⟩
  trans h h' := ⟨h'.journal.trans h.journal, h'.settings.trans h.settings⟩
  emit _ _ _ := ⟨rfl, rfl⟩

namespace Run

theorem sameJournal_search (t : Topology) (root : NodeId) (l : Level) :
    Keeps SameJournal (search t root l) := by
  refine chained_sameJournal.bindOn (fun w => ⟨rfl, rfl⟩) fun w _ _ hget => ?_
  cases hget
  cases Search.run t l root (w.findings.get l).labels w.frontier <;> exact ⟨rfl, rfl⟩

theorem sameJournal_rebuildTable (t : Topology) (root : NodeId) (l : Level) :
    Keeps SameJournal (rebuildTable t root l) :=
  chained_sameJournal.bind (fun _ => ⟨rfl, rfl⟩) fun _ =>
    chained_sameJournal.bind (chained_sameJournal.findings l) fun _ =>
      chained_sameJournal.tell rfl

theorem sameJournal_work (t : Topology) (root : NodeId) (l : Level) (kind : RunKind) :
    Keeps SameJournal (work t root l kind) := by
  have hsearch := sameJournal_search t root l
  have htable := sameJournal_rebuildTable t root l
  cases kind with
  | forward => exact hsearch
  | partialRoutes => exact htable
  | full =>
    exact chained_sameJournal.bind hsearch fun _ =>
      chained_sameJournal.bind (fun _ => ⟨rfl, rfl⟩) fun _ => htable

/-- **A run that succeeds is entered**, with the number of routers that it returns. -/
theorem perform_journal (h : perform t root l kind w = .ok rs w') :
    w'.journal = w.journal.record w.settings.journalSize root l kind rs.length ∧
      w'.settings = w.settings := by
  unfold perform at h
  obtain ⟨_, w₁, h₁, h⟩ := bind_eq_ok.1 h
  obtain ⟨_, w₂, h₂, h⟩ := bind_eq_ok.1 h
  obtain ⟨_, w₃, h₃, h⟩ := bind_eq_ok.1 h
  obtain ⟨_, w₄, h₄, h⟩ := bind_eq_ok.1 h
  obtain ⟨_, w₅, h₅, h⟩ := bind_eq_ok.1 h
  have hwork := sameJournal_work t root l kind w₁
  rw [after_of_ok h₂] at hwork
  obtain ⟨-, rfl⟩ := findings_eq_ok.1 h₃
  obtain ⟨rfl, rfl⟩ := pure_eq_ok.1 h
  cases h₁
  cases h₄
  cases h₅
  refine ⟨?_, hwork.settings⟩
  show w₂.journal.record w₂.settings.journalSize root l kind _ = _
  rw [hwork.journal, hwork.settings]

end Run

/-- A chronicle leaves the settings alone. -/
theorem Chronicle.settings_eq (h : Chronicle t w runs w') : w'.settings = w.settings := by
  induction h with
  | done => rfl
  | aside same _ ih => exact ih.trans same.settings
  | run _ performed _ ih => exact ih.trans (Run.perform_journal performed).2

/-- What a journal tells of is continued by the runs of a chronicle. -/
theorem Chronicle.tells (h : Chronicle t w runs w') {before : List MadeRun}
    (hw : w.journal.Tells before) : w'.journal.Tells (before ++ runs) := by
  induction h generalizing before with
  | done => rwa [List.append_nil]
  | aside same _ ih => exact ih (same.journal ▸ hw)
  | run _ performed _ ih =>
    rw [List.append_cons]
    refine ih ?_
    rw [(Run.perform_journal performed).1]
    exact hw.record _ ⟨_, _, _, _⟩

theorem Chronicle.holds (h : Chronicle t w runs w') {before : List MadeRun}
    (hw : w.journal.Tells before) (hheld : w.journal.Holds w.settings.journalSize before) :
    w'.journal.Holds w.settings.journalSize (before ++ runs) := by
  induction h generalizing before with
  | done => rwa [List.append_nil]
  | aside same _ ih =>
    rw [← same.settings]
    exact ih (same.journal ▸ hw) (same.settings ▸ same.journal ▸ hheld)
  | run _ performed _ ih =>
    obtain ⟨hjournal, hsettings⟩ := Run.perform_journal performed
    rw [List.append_cons, ← hsettings]
    refine ih ?_ ?_
    · rw [hjournal]
      exact hw.record _ ⟨_, _, _, _⟩
    · rw [hjournal, hsettings]
      exact hheld.record hw ⟨_, _, _, _⟩

/-! ## Every computation has a chronicle -/

/-- While no search is under way, a step has a chronicle, and then none is under way again. -/
def Chronicled (t : Topology) (w w' : Workspace) : Prop :=
  w.frontier.isEmpty = true → w'.frontier.isEmpty = true ∧ ∃ runs, Chronicle t w runs w'

theorem chained_chronicled (t : Topology) : Chained (Chronicled t) where
  refl w hempty := ⟨hempty, [], .done w⟩
  trans h h' hempty := by
    obtain ⟨hempty, runs, h⟩ := h hempty
    obtain ⟨hempty, runs', h'⟩ := h' hempty
    exact ⟨hempty, runs ++ runs', h.append h'⟩
  emit w e he hempty := ⟨hempty, [], .aside ⟨quiet_emit he, rfl⟩ (.done _)⟩

/-- A run that has been validated is the one run of its chronicle. -/
theorem chronicled_perform (on : t' = t ∨ ∃ l', t' = t.invert l') (hw : t'.WellFormed)
    (hroot : t'.nodes.contains root = true) (l : Level) (kind : RunKind) :
    Keeps (Chronicled t) (Run.perform t' root l kind) := by
  intro w hempty
  obtain ⟨w', hrun, hperformed⟩ := Run.perform_performed hw hroot hempty l kind
  rw [after_of_ok hrun]
  exact ⟨hperformed.frontier, _, .run on hrun (.done w')⟩

theorem running_chronicled (on : t' = t ∨ ∃ l', t' = t.invert l') (hw : t'.WellFormed) :
    Running t' (Chronicled t) where
  toChained := chained_chronicled t
  run root l kind := by
    have h := chained_chronicled t
    unfold Run.run
    refine h.bindOn (h.check _) fun node w w' hvalid => ?_
    have hperform := chronicled_perform on hw (Run.contains_of_validate (check_eq_ok.1 hvalid).1)
    refine h.bind (h.findings l) (fun f => h.bind (h.findings .l1) fun f' => ?_) w'
    dsimp only
    split
    · exact h.bind (h.check _) fun _ => h.bind (hperform .l1 .full) fun _ => hperform l _
    · exact hperform l _

theorem closed_chronicled (hw : t.WellFormed) : Closed t (Chronicled t) where
  toRunning := running_chronicled (.inl rfl) hw
  farSpace root e l _ := (running_chronicled (.inl rfl) hw).farSpace
    (running_chronicled (.inr ⟨l, rfl⟩) (hw.invert l)) root e

namespace Session

variable {s : Session}

/-- With the request the runs made since the session was new, or was renewed, become those of the
second list. -/
def Made (s : Session) (runs : List MadeRun) : Request → List MadeRun → Prop
  | .compute c, runs' => ∃ now, runs' = runs ++ now ∧
    Chronicle s.topology s.workspace now (s.serve (.compute c)).2.workspace
  | .renew _, runs' => runs' = []
  | _, runs' => runs' = runs

/-- The runs that are made in a history of requests, since the session was new, or was renewed. -/
inductive MadeIn (s : Session) : List Request → List MadeRun → Prop
  | nil : MadeIn s [] []
  | concat {history : List Request} {r : Request} {runs runs' : List MadeRun}
      (h : MadeIn s history runs) (made : (s.after history).Made runs r runs') :
    MadeIn s (history ++ [r]) runs'

theorem exists_made (hs : s.Sound) (runs : List MadeRun) (r : Request) :
    ∃ runs', s.Made runs r runs' := by
  cases r with
  | change c => exact ⟨runs, rfl⟩
  | configure settings => exact ⟨runs, rfl⟩
  | renew settings => exact ⟨[], rfl⟩
  | compute c =>
    have h := (closed_chronicled hs.wellFormed).on c fun root e l _ =>
      (running_chronicled (.inl rfl) hs.wellFormed).farSpace
        (running_chronicled (.inr ⟨l, rfl⟩) (hs.wellFormed.invert l)) root e
    obtain ⟨-, now, hnow⟩ := h s.workspace hs.frontier
    refine ⟨runs ++ now, now, rfl, ?_⟩
    change Chronicle s.topology s.workspace now (s.compute fun t => c.on t).2.workspace
    rwa [workspace_compute]

/-- Every history has its list of runs. -/
theorem exists_madeIn (hs : s.Sound) (history : List Request) : ∃ runs, s.MadeIn history runs := by
  induction history using List.reverseRecOn with
  | nil => exact ⟨[], .nil⟩
  | append_singleton history r ih =>
    obtain ⟨runs, h⟩ := ih
    obtain ⟨runs', hmade⟩ := exists_made (hs.after history) runs r
    exact ⟨runs', h.concat hmade⟩

theorem Made.tells {r : Request} (h : s.Made runs r runs') (hs : s.workspace.journal.Tells runs) :
    (s.serve r).2.workspace.journal.Tells runs' := by
  cases r with
  | change c =>
    cases h
    cases c <;> exact hs
  | configure settings =>
    cases h
    exact hs
  | renew settings =>
    cases h
    exact Journal.tells_nil
  | compute c =>
    obtain ⟨now, rfl, h⟩ := h
    exact h.tells hs

/-- The journal tells of the runs of a history, if there were none at its start. -/
theorem MadeIn.tells {history : List Request} (h : s.MadeIn history runs)
    (hs : s.workspace.journal = {}) : (s.after history).workspace.journal.Tells runs := by
  induction h with
  | nil => exact hs ▸ Journal.tells_nil
  | concat _ made ih =>
    rw [after_concat]
    exact made.tells ih

/-- Whether a request leaves the size of the journal as it is. -/
def keepsJournalSize (size : Nat) : Request → Bool
  | .configure settings | .renew settings => settings.journalSize == size
  | _ => true

theorem Made.holds {size : Nat} {r : Request} (h : s.Made runs r runs')
    (hr : keepsJournalSize size r = true) (hsize : s.workspace.settings.journalSize = size)
    (hs : s.workspace.journal.Tells runs) (hheld : s.workspace.journal.Holds size runs) :
    (s.serve r).2.workspace.settings.journalSize = size ∧
      (s.serve r).2.workspace.journal.Holds size runs' := by
  cases r with
  | change c =>
    cases h
    cases c <;> exact ⟨hsize, hheld⟩
  | configure settings =>
    cases h
    exact ⟨eq_of_beq hr, hheld⟩
  | renew settings =>
    cases h
    exact ⟨eq_of_beq hr, Journal.holds_nil size⟩
  | compute c =>
    obtain ⟨now, rfl, h⟩ := h
    subst hsize
    exact ⟨congrArg Settings.journalSize h.settings_eq, h.holds hs hheld⟩

/-- As long as the size stays the same, the journal holds as much of a history as it has room
for. -/
theorem MadeIn.holds {size : Nat} {history : List Request} (h : s.MadeIn history runs)
    (hs : s.workspace.journal = {}) (hsize : s.workspace.settings.journalSize = size)
    (hhistory : history.all (keepsJournalSize size) = true) :
    (s.after history).workspace.settings.journalSize = size ∧
      (s.after history).workspace.journal.Holds size runs := by
  induction h with
  | nil => exact ⟨hsize, hs ▸ Journal.holds_nil size⟩
  | concat h made ih =>
    rw [List.all_append, Bool.and_eq_true, List.all_cons, List.all_nil, Bool.and_true] at hhistory
    obtain ⟨hsize, hheld⟩ := ih hhistory.1
    rw [after_concat]
    exact made.holds hhistory.2 hsize (h.tells hs) hheld

/-- **The journal is a sliding window over the runs of a session.** Renew a session, whatever was
done in it, and take any history of requests, of which some may fail, or replace the settings, or
renew the session again. There is a list of the runs that were made since the session was renewed,
those of failing requests and those that precede or accompany others included, and the journal tells
of them: its entries are the last runs in reverse, with consecutive numbers that decrease from the
last one given, and the runs are counted in full and for each level. As long as the numbers last,
each entry is the entry of the run with its number, and the last number is the number of runs. If
the configured size has stayed the same, the entries are those of as many of the last runs as it
allows, be they none. -/
theorem journal_window (before : List Request) (settings : Settings) (history : List Request) :
    (∃ runs, MadeIn ((after {} before).renew settings) history runs) ∧
      ∀ runs, MadeIn ((after {} before).renew settings) history runs →
        (((after {} before).renew settings).after history).workspace.journal.Tells runs ∧
        (runs.length < UInt32.size →
          (((after {} before).renew settings).after history).workspace.journal.Window runs) ∧
        (history.all (keepsJournalSize settings.journalSize) = true →
          (((after {} before).renew settings).after history).workspace.journal.entries =
            (numbered runs).reverse.take settings.journalSize ∧
          (((after {} before).renew settings).after history).workspace.journal.entries.length =
            min runs.length settings.journalSize) := by
  have hsound : ((after {} before).renew settings).Sound :=
    (sound_after before).serve (.renew settings)
  refine ⟨exists_madeIn hsound history, fun runs hruns => ?_⟩
  have htells := hruns.tells rfl
  refine ⟨htells, htells.window, fun hhistory => ?_⟩
  have hheld : Journal.Holds settings.journalSize _ _ := (hruns.holds rfl rfl hhistory).2
  refine ⟨hheld, ?_⟩
  rw [hheld, List.length_take, List.length_reverse, length_numbered, Nat.min_comm]

/-- The ring of five routers, and a run on it. -/
def olderRun : List Request :=
  Run.pentagon.map .change ++ [.compute (.run ⟨2, 0⟩ .l1 .full)]

/-- In the ring of five routers: a full run at level 2, which needs one at level 1, a run that is
refused, the four runs of a Q-space, and a partial run that is made a full one. -/
def sevenRuns : List Request :=
  ([.run ⟨0, 0⟩ .l2 .full, .run ⟨99, 0⟩ .l1 .full, .farSpace ⟨0, 0⟩ ⟨0, 0⟩ .l1,
    .run ⟨1, 0⟩ .l1 .partialRoutes] : List Computation).map .compute

/-- A journal of three entries after seven runs, in a session that was renewed after an eighth. -/
theorem journal_window_sevenRuns : ∃ runs,
    MadeIn ((after {} olderRun).renew { journalSize := 3 }) sevenRuns runs ∧
    UInt32.ofNat runs.length = 7 ∧
    (((after {} olderRun).renew { journalSize := 3 }).after sevenRuns).workspace.journal.entries =
      [⟨7, ⟨1, 0⟩, .l1, .full, 5⟩, ⟨6, ⟨1, 0⟩, .l1, .forward, 5⟩,
        ⟨5, ⟨0, 0⟩, .l1, .forward, 5⟩] ∧
    (numbered runs).reverse.take 3 = [⟨7, ⟨1, 0⟩, .l1, .full, 5⟩,
      ⟨6, ⟨1, 0⟩, .l1, .forward, 5⟩, ⟨5, ⟨0, 0⟩, .l1, .forward, 5⟩] := by
  have hjournal : (((after {} olderRun).renew { journalSize := 3 }).after
      sevenRuns).workspace.journal =
        { entries := [⟨7, ⟨1, 0⟩, .l1, .full, 5⟩, ⟨6, ⟨1, 0⟩, .l1, .forward, 5⟩,
            ⟨5, ⟨0, 0⟩, .l1, .forward, 5⟩]
          lastId := 7
          counts := ⟨6, 1⟩ } := by
    decide +kernel
  obtain ⟨⟨runs, hruns⟩, hall⟩ := journal_window olderRun { journalSize := 3 } sevenRuns
  obtain ⟨htells, -, htake⟩ := hall runs hruns
  have hlast := htells.lastId
  have hentries := (htake (by decide)).1
  rw [hjournal] at hlast hentries
  exact ⟨runs, hruns, hlast.symm, congrArg Journal.entries hjournal, hentries.symm⟩

end Session

end LinkState
