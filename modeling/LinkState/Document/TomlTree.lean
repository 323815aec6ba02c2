import LinkState.Document

/-!
# The tables of a TOML text

A TOML text is a row of `Statement`s: headers, which say what table is being filled, and
assignments. `Tree.ofStatements?` builds the tables that they describe. A table is

* `implied` if only a longer header has named it, and may then still get a header of its own;
* `dotted` if a dotted name has named it, and may then be filled by dotted names only;
* `defined` if it has had its header.

Values are closed: no statement adds to a list or to a table that was written as a value. A list of
tables grows by one with each of its headers, and longer names lead into its last table.
-/

namespace LinkState.Toml

/-- How a table came about. -/
inductive Origin where
  | implied
  | dotted
  | defined
deriving DecidableEq

/-- What a name stands for. -/
inductive Tree where
  | value (d : Document)
  | table (origin : Origin) (entries : List (String × Tree))
  /-- A list of tables, the last one first. -/
  | tables (rows : List Tree)

/-- A line of a text: a header, the header of one more table of a list, or a name with its value. -/
inductive Statement where
  | header (path : List String)
  | listHeader (path : List String)
  | assign (path : List String) (value : Document)

namespace Tree

/-- Replaces the first entry with a given name, or adds one at the end. -/
def put (entries : List (String × Tree)) (name : String) (t : Tree) : List (String × Tree) :=
  match entries with
  | [] => [(name, t)]
  | (n, u) :: rest => if n = name then (n, t) :: rest else (n, u) :: put rest name t

def find? (entries : List (String × Tree)) (name : String) : Option Tree :=
  (entries.find? fun entry => entry.1 == name).map (·.2)

/-- Changes what the last part of a path names, within the table at which the path starts. The
tables on the way are made where they are missing; `asDotted` says whether the path is a dotted
name, which must not lead into a table that has a header. The change is given what the last part
names now, and may refuse. -/
def change (asDotted : Bool) (final : Origin → Option Tree → Option Tree) :
    List String → Tree → Option Tree
  | [], _ => none
  | [name], .table origin entries =>
    (final origin (find? entries name)).map fun t => .table origin (put entries name t)
  | name :: rest, .table origin entries =>
    let inner : Option Tree := match find? entries name with
      | none => some (.table (if asDotted then .dotted else .implied) [])
      | some (.table .defined es) => if asDotted then none else some (.table .defined es)
      | some t => some t
    match inner with
    | none => none
    | some (.tables (row :: rows)) =>
      (change asDotted final rest row).map fun row =>
        .table origin (put entries name (.tables (row :: rows)))
    | some t => (change asDotted final rest t).map fun t => .table origin (put entries name t)
  | _, _ => none

/-- Gives a name a value. The table must be the one under a header for a plain name, and one made
by dotted names for a dotted name. -/
def assign (path : List String) (d : Document) (t : Tree) : Option Tree :=
  let isDotted := decide (1 < path.length)
  change isDotted
    (fun origin old =>
      if isDotted && origin != .dotted then none
      else match old with
        | none => some (.value d)
        | some _ => none)
    path t

/-- Starts the table of a header. -/
def openTable (path : List String) (t : Tree) : Option Tree :=
  change false
    (fun _ old => match old with
      | none => some (.table .defined [])
      | some (.table .implied entries) => some (.table .defined entries)
      | some _ => none)
    path t

/-- Starts a further table of a list of tables. -/
def openRow (path : List String) (t : Tree) : Option Tree :=
  change false
    (fun _ old => match old with
      | none => some (.tables [.table .defined []])
      | some (.tables rows) => some (.tables (.table .defined [] :: rows))
      | some _ => none)
    path t

/-- Changes the table that a header names. -/
def inside (f : Tree → Option Tree) (path : List String) (t : Tree) : Option Tree :=
  if path.isEmpty then f t
  else
    change false
      (fun _ old => match old with
        | some (.tables (row :: rows)) => (f row).map fun row => .tables (row :: rows)
        | some t => f t
        | none => none)
      path t

/-- Carries out statements one after the other, `current` being the last header. -/
def carryOut : List Statement → List String → Tree → Option Tree
  | [], _, t => some t
  | .header path :: rest, _, t => (openTable path t).bind fun t => carryOut rest path t
  | .listHeader path :: rest, _, t => (openRow path t).bind fun t => carryOut rest path t
  | .assign path d :: rest, current, t =>
    (inside (assign path d) current t).bind fun t => carryOut rest current t

mutual

/-- The document that a tree describes. -/
def toDocument : Tree → Document
  | value d => d
  | table _ entries => .table (entriesToDocument entries)
  | tables rows => .list (rowsToDocuments rows).reverse

def entriesToDocument : List (String × Tree) → List (String × Document)
  | [] => []
  | (name, t) :: rest => (name, t.toDocument) :: entriesToDocument rest

def rowsToDocuments : List Tree → List Document
  | [] => []
  | t :: rest => t.toDocument :: rowsToDocuments rest

end

/-- The document described by a row of statements, unless they contradict each other. -/
def ofStatements? (ss : List Statement) : Option Document :=
  (carryOut ss [] (.table .defined [])).map toDocument

/-- The document described by the assignments of a table written as a value. -/
def ofAssignments? (pairs : List (List String × Document)) : Option Document :=
  ofStatements? (pairs.map fun p => .assign p.1 p.2)

end Tree

end LinkState.Toml
