import LinkState.Document

/-!
# Records in documents

How typed values stand in a document. A record is a table with the names of its fields, each at
most once and no others, or a list of its fields in order, from which the last ones may be left
out. A choice is the name of an alternative, or a table whose only entry has that name and holds
the unit value.

The formats differ in two points, which make up a `Dialect`.
-/

namespace LinkState.Document

/-- Where the formats differ in what they take for a record or a choice. -/
structure Dialect where
  /-- Whether a list may have more items than the record has fields. -/
  allowsSurplus : Bool
  /-- Whether a document is the unit value. -/
  isUnit : Document → Bool

/-- In JSON the unit value is `null`. -/
def Dialect.json : Dialect where
  allowsSurplus := false
  isUnit
    | null => true
    | _ => false

/-- In TOML the unit value is an empty list or an empty table. -/
def Dialect.toml : Dialect where
  allowsSurplus := true
  isUnit
    | list [] => true
    | table [] => true
    | _ => false

variable {α : Type}

/-- Whether all names are known and none stands twice. -/
def validNames (known : List String) : List String → Bool
  | [] => true
  | n :: ns => known.contains n && !ns.contains n && validNames known ns

/-- The fields of a record in their order. -/
def fields? (dialect : Dialect) (names : List String) (d : Document) :
    Option (List (Option Document)) :=
  match d with
  | list items =>
    if items.length ≤ names.length || dialect.allowsSurplus then
      some ((items.take names.length).map some ++
        List.replicate (names.length - items.length) none)
    else none
  | table entries =>
    if validNames names (entries.map (·.1)) then some (names.map d.get?) else none
  | _ => none

/-- One of several named alternatives. -/
def choice? (dialect : Dialect) (alternatives : List (String × α)) (d : Document) : Option α :=
  let named := fun name : String => (alternatives.find? fun a => a.1 == name).map (·.2)
  match d with
  | text name => named name
  | table [(name, value)] => if dialect.isUnit value then named name else none
  | _ => none

def text? : Document → Option String
  | text s => some s
  | _ => none

def bool? : Document → Option Bool
  | bool b => some b
  | _ => none

/-- A natural number up to a bound. -/
def natUpTo? (bound : Nat) : Document → Option Nat
  | integer n => if 0 ≤ n ∧ n ≤ bound then some n.toNat else none
  | _ => none

def listOf? (item? : Document → Option α) : Document → Option (List α)
  | list items => items.mapM item?
  | _ => none

/-- A field that must be there. -/
def required? (value? : Document → Option α) (field : Option Document) : Option α :=
  field.bind value?

/-- A field with a value that stands for it when it is left out. -/
def withDefault? (default : α) (value? : Document → Option α) : Option Document → Option α
  | none => some default
  | some d => value? d

/-- A field that may be left out or be null. -/
def optional? (value? : Document → Option α) : Option Document → Option (Option α)
  | none => some none
  | some null => some none
  | some d => (value? d).map some

end LinkState.Document
