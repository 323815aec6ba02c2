/-!
# Documents

A `Document` is what a text of names and values says, in whichever format it is written: the common
ground of the readers, of the records decoded from a document, and of the reports written as one.
Tables keep their entries in the order of the text, repeated names included.
-/

namespace LinkState

/-- The content of a text, whatever its format. -/
inductive Document where
  | null
  | bool (b : Bool)
  | integer (n : Int)
  /-- A number that is no integer, or a date or a time, as it stands in the text. -/
  | literal (text : String)
  | text (s : String)
  | list (items : List Document)
  | table (entries : List (String × Document))

namespace Document

instance : Inhabited Document := ⟨null⟩

/-- The first entry of a table with a given name. -/
def get? (d : Document) (name : String) : Option Document :=
  match d with
  | table entries => (entries.find? fun entry => entry.1 == name).map (·.2)
  | _ => none

def ofNat (n : Nat) : Document := integer n

/-- A text, or nothing. -/
def ofText? : Option String → Document
  | some s => text s
  | none => null

end Document

end LinkState
