import LinkState.Document
import LinkState.Text.Digits

/-!
# The JSON format

`Json.read` accepts one value with blanks around it and nothing after it. A number is an integer
if it has neither a fraction nor an exponent and is not a negative zero. `Json.compact` writes a
document on one line, `Json.pretty` one item a line with an indentation of two blanks.
-/

namespace LinkState.Json

def isBlank (c : Char) : Bool := c == ' ' || c == '\n' || c == '\t' || c == '\r'

def skipBlanks (cs : List Char) : List Char := cs.dropWhile isBlank

/-- What stands for a character after a backslash. -/
def escaped? : Char → Option Char
  | '"' => some '"'
  | '\\' => some '\\'
  | '/' => some '/'
  | 'b' => some '\x08'
  | 'f' => some '\x0c'
  | 'n' => some '\n'
  | 'r' => some '\r'
  | 't' => some '\t'
  | _ => none

/-- Reads exactly four hexadecimal digits. -/
def unit? : List Char → Option (Nat × List Char)
  | a :: b :: c :: d :: rest =>
    if [a, b, c, d].all (Digits.isDigit 16) then some (Digits.toNat 16 [a, b, c, d], rest) else none
  | _ => none

/-- Reads the character written by one unit, or by a surrogate pair of two. -/
def codePoint? (cs : List Char) : Option (Char × List Char) := do
  let (high, rest) ← unit? cs
  if 0xD800 ≤ high ∧ high < 0xDC00 then
    match rest with
    | '\\' :: 'u' :: rest =>
      let (low, rest) ← unit? rest
      if 0xDC00 ≤ low ∧ low < 0xE000 then
        some (Char.ofNat (0x10000 + (high - 0xD800) * 1024 + (low - 0xDC00)), rest)
      else none
    | _ => none
  else if 0xDC00 ≤ high ∧ high < 0xE000 then none
  else some (Char.ofNat high, rest)

/-- Reads the rest of a string, after its opening quote, taking up to `fuel` characters. -/
def stringBody : Nat → List Char → Option (List Char × List Char)
  | 0, _ => none
  | _ + 1, [] => none
  | _ + 1, '"' :: rest => some ([], rest)
  | fuel + 1, '\\' :: 'u' :: rest => do
    let (c, rest) ← codePoint? rest
    let (cs, rest) ← stringBody fuel rest
    some (c :: cs, rest)
  | fuel + 1, '\\' :: c :: rest => do
    let c ← escaped? c
    let (cs, rest) ← stringBody fuel rest
    some (c :: cs, rest)
  | fuel + 1, c :: rest =>
    if c.toNat < 32 ∨ c = '\\' then none
    else do
      let (cs, rest) ← stringBody fuel rest
      some (c :: cs, rest)

def string? (cs : List Char) : Option (String × List Char) :=
  match cs with
  | '"' :: rest => (stringBody (rest.length + 1) rest).map fun (s, rest) => (String.ofList s, rest)
  | _ => none

/-- Reads the fraction of a number, if there is one: a point and at least one digit. -/
def fraction? : List Char → Option (List Char × List Char)
  | '.' :: rest =>
    let (ds, rest) := Digits.span 10 rest
    if ds.isEmpty then none else some ('.' :: ds, rest)
  | cs => some ([], cs)

/-- Reads the exponent of a number, if there is one. -/
def exponent? : List Char → Option (List Char × List Char)
  | c :: rest =>
    if c = 'e' ∨ c = 'E' then
      let (sign, rest) := match rest with
        | '+' :: rest => (['+'], rest)
        | '-' :: rest => (['-'], rest)
        | _ => ([], rest)
      let (ds, rest) := Digits.span 10 rest
      if ds.isEmpty then none else some (c :: sign ++ ds, rest)
    else some ([], c :: rest)
  | [] => some ([], [])

/-- Reads a number. Its integer part has no leading zero. -/
def number? (cs : List Char) : Option (Document × List Char) := do
  let (negative, rest) := match cs with
    | '-' :: rest => (true, rest)
    | _ => (false, cs)
  let (ds, rest) := Digits.span 10 rest
  if ds.isEmpty || Digits.hasLeadingZero ds then none
  else
    let (fraction, rest) ← fraction? rest
    let (exponent, rest) ← exponent? rest
    let n := Digits.toNat 10 ds
    if fraction.isEmpty && exponent.isEmpty && !(negative && n == 0) then
      some (.integer (if negative then -n else n), rest)
    else
      let sign := if negative then ['-'] else []
      some (.literal (String.ofList (sign ++ ds ++ fraction ++ exponent)), rest)

mutual

/-- Reads a value, entering up to `fuel` values one after the other or one inside the other. -/
def value? : Nat → List Char → Option (Document × List Char)
  | 0, _ => none
  | fuel + 1, cs =>
    match skipBlanks cs with
    | '\x7b' :: rest =>
      match skipBlanks rest with
      | '\x7d' :: rest => some (.table [], rest)
      | rest => (entries? fuel rest).map fun (es, rest) => (.table es, rest)
    | '[' :: rest =>
      match skipBlanks rest with
      | ']' :: rest => some (.list [], rest)
      | rest => (items? fuel rest).map fun (vs, rest) => (.list vs, rest)
    | '"' :: rest => (string? ('"' :: rest)).map fun (s, rest) => (.text s, rest)
    | 't' :: 'r' :: 'u' :: 'e' :: rest => some (.bool true, rest)
    | 'f' :: 'a' :: 'l' :: 's' :: 'e' :: rest => some (.bool false, rest)
    | 'n' :: 'u' :: 'l' :: 'l' :: rest => some (.null, rest)
    | rest => number? rest

/-- Reads the items of a list up to its closing bracket. -/
def items? : Nat → List Char → Option (List Document × List Char)
  | 0, _ => none
  | fuel + 1, cs => do
    let (v, rest) ← value? fuel cs
    match skipBlanks rest with
    | ',' :: rest => (items? fuel rest).map fun (vs, rest) => (v :: vs, rest)
    | ']' :: rest => some ([v], rest)
    | _ => none

/-- Reads the entries of a table up to its closing brace. -/
def entries? : Nat → List Char → Option (List (String × Document) × List Char)
  | 0, _ => none
  | fuel + 1, cs => do
    let (name, rest) ← string? (skipBlanks cs)
    match skipBlanks rest with
    | ':' :: rest =>
      let (v, rest) ← value? fuel rest
      match skipBlanks rest with
      | ',' :: rest => (entries? fuel rest).map fun (es, rest) => ((name, v) :: es, rest)
      | '\x7d' :: rest => some ([(name, v)], rest)
      | _ => none
    | _ => none

end

/-- Reads a text that holds one value. Every value takes a character, so the length of the text
bounds the number of values. -/
def read (s : String) : Option Document :=
  match value? (2 * s.length + 2) s.toList with
  | some (v, rest) => if (skipBlanks rest).isEmpty then some v else none
  | none => none

/-- A character as it stands in a string. -/
def escape (c : Char) : String :=
  if c = '"' then "\\\""
  else if c = '\\' then "\\\\"
  else if c = '\x08' then "\\b"
  else if c = '\x0c' then "\\f"
  else if c = '\n' then "\\n"
  else if c = '\r' then "\\r"
  else if c = '\t' then "\\t"
  else if c.toNat < 32 then
    "\\u00" ++ (if c.toNat < 16 then "0" else "") ++ Digits.hex c.toNat
  else String.singleton c

def quote (s : String) : String := "\"" ++ String.join (s.toList.map escape) ++ "\""

/-- The text of a number, a string or one of the words. -/
def scalar : Document → String
  | .null => "null"
  | .bool b => if b then "true" else "false"
  | .integer n => toString n
  | .literal text => text
  | .text s => quote s
  | .list _ => "[]"
  | .table _ => "\x7b\x7d"

mutual

/-- Writes a document on one line. -/
def compact : Document → String
  | .list items => "[" ++ String.intercalate "," (compactItems items) ++ "]"
  | .table entries => "\x7b" ++ String.intercalate "," (compactEntries entries) ++ "\x7d"
  | d => scalar d

def compactItems : List Document → List String
  | [] => []
  | d :: ds => compact d :: compactItems ds

def compactEntries : List (String × Document) → List String
  | [] => []
  | (name, d) :: es => (quote name ++ ":" ++ compact d) :: compactEntries es

end

/-- Puts items on lines of their own between brackets, or writes the brackets alone. -/
def block (indent : String) (left right : String) (items : List String) : String :=
  if items.isEmpty then left ++ right
  else
    let inner := indent ++ "  "
    left ++ "\n" ++ String.intercalate ",\n" (items.map (inner ++ ·)) ++ "\n" ++ indent ++ right

mutual

/-- Writes a document with one item a line, further lines starting with an indentation. -/
def pretty (indent : String) : Document → String
  | .list items => block indent "[" "]" (prettyItems (indent ++ "  ") items)
  | .table entries => block indent "\x7b" "\x7d" (prettyEntries (indent ++ "  ") entries)
  | d => scalar d

def prettyItems (indent : String) : List Document → List String
  | [] => []
  | d :: ds => pretty indent d :: prettyItems indent ds

def prettyEntries (indent : String) : List (String × Document) → List String
  | [] => []
  | (name, d) :: es => (quote name ++ ": " ++ pretty indent d) :: prettyEntries indent es

end

end LinkState.Json
