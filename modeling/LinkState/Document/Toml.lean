import LinkState.Document.TomlTree
import LinkState.Document.TomlWord

/-!
# The TOML format

`Toml.read` turns a text into the document that it describes. The rules are those of TOML 1.1:
lists and tables written as values may run over several lines and may end in a comma, and strings
know the escapes `\e` and `\xHH`. A line end stands in a string of several lines as it stands in
the text.

Two limits hold: lists and tables written as values lie at most `maxDepth` deep in each other, and
a name has at most `maxParts` parts.
-/

namespace LinkState.Toml

/-- How deep lists and tables written as values may lie in each other. -/
def maxDepth : Nat := 80

/-- How many parts a name may have. -/
def maxParts : Nat := 80

def isBlank (c : Char) : Bool := c == ' ' || c == '\t'

def skipBlanks (cs : List Char) : List Char := cs.dropWhile isBlank

/-- Whether a character may stand in a comment or in a string: no control character but a tab. -/
def isPlain (c : Char) : Bool := c == '\t' || (decide (32 ≤ c.toNat) && c.toNat != 127)

/-- Skips blanks, line ends and comments; `inComment` says whether a comment has begun. -/
def skipTrivia (inComment : Bool) : List Char → Option (List Char)
  | [] => some []
  | '\r' :: '\n' :: rest => skipTrivia false rest
  | '\n' :: rest => skipTrivia false rest
  | c :: rest =>
    if inComment then if isPlain c then skipTrivia true rest else none
    else if isBlank c then skipTrivia false rest
    else if c = '#' then skipTrivia true rest
    else some (c :: rest)

/-- Skips what may stand on either side of an equals sign: blanks, and between braces line ends and
comments as well. -/
def skipGap (inBraces : Bool) (cs : List Char) : Option (List Char) :=
  if inBraces then skipTrivia false cs else some (skipBlanks cs)

/-- Skips the end of a statement: the end of its line or of the text. -/
def endStatement? (cs : List Char) : Option (List Char) :=
  match skipBlanks cs with
  | [] => some []
  | '\r' :: '\n' :: rest => skipTrivia false rest
  | '\n' :: rest => skipTrivia false rest
  | '#' :: rest => skipTrivia true rest
  | _ => none

/-- The character with a given code point. -/
def scalar? (n : Nat) : Option Char :=
  if n < 0xD800 ∨ (0xDFFF < n ∧ n ≤ 0x10FFFF) then some (Char.ofNat n) else none

/-- Reads the character written by a given number of hexadecimal digits. -/
def hexEscape? (count : Nat) (cs : List Char) : Option (Char × List Char) :=
  (Digits.exactly? 16 count cs).bind fun (n, rest) => (scalar? n).map fun c => (c, rest)

/-- Reads an escape, after its backslash. -/
def escape? : List Char → Option (Char × List Char)
  | 'b' :: rest => some ('\x08', rest)
  | 't' :: rest => some ('\t', rest)
  | 'n' :: rest => some ('\n', rest)
  | 'f' :: rest => some ('\x0c', rest)
  | 'r' :: rest => some ('\r', rest)
  | 'e' :: rest => some ('\x1b', rest)
  | '"' :: rest => some ('"', rest)
  | '\\' :: rest => some ('\\', rest)
  | 'x' :: rest => hexEscape? 2 rest
  | 'u' :: rest => hexEscape? 4 rest
  | 'U' :: rest => hexEscape? 8 rest
  | _ => none

/-- Reads the rest of a string in double quotes, taking up to `fuel` characters. -/
def basicBody : Nat → List Char → Option (List Char × List Char)
  | 0, _ => none
  | _ + 1, [] => none
  | _ + 1, '"' :: rest => some ([], rest)
  | fuel + 1, '\\' :: rest => do
    let (c, rest) ← escape? rest
    let (cs, rest) ← basicBody fuel rest
    some (c :: cs, rest)
  | fuel + 1, c :: rest =>
    if isPlain c then do
      let (cs, rest) ← basicBody fuel rest
      some (c :: cs, rest)
    else none

/-- Reads the rest of a string in single quotes. -/
def literalBody : List Char → Option (List Char × List Char)
  | [] => none
  | '\'' :: rest => some ([], rest)
  | c :: rest =>
    if isPlain c then (literalBody rest).map fun (cs, rest) => (c :: cs, rest) else none

/-- Skips what a backslash at the end of a line stands for: all blanks and line ends up to the next
other character. -/
def skipFold : List Char → List Char
  | '\r' :: '\n' :: rest => skipFold rest
  | c :: rest => if isBlank c || c == '\n' then skipFold rest else c :: rest
  | [] => []

/-- Whether only blanks are left of a line. -/
def atLineEnd (cs : List Char) : Bool :=
  match skipBlanks cs with
  | '\n' :: _ => true
  | '\r' :: '\n' :: _ => true
  | _ => false

/-- After three quotes that end a string of several lines: up to two more quotes belong to the
string. -/
def closing (quote : Char) : List Char → List Char × List Char
  | a :: b :: rest =>
    if a = quote ∧ b = quote then ([quote, quote], rest)
    else if a = quote then ([quote], b :: rest)
    else ([], a :: b :: rest)
  | [a] => if a = quote then ([quote], []) else ([], [a])
  | [] => ([], [])

/-- Reads the rest of a string of several lines. In single quotes it knows no escapes. -/
def linesBody (quote : Char) : Nat → List Char → Option (List Char × List Char)
  | 0, _ => none
  | _ + 1, [] => none
  | fuel + 1, c :: rest =>
    if c = quote ∧ rest.take 2 = [quote, quote] then some (closing quote (rest.drop 2))
    else if c = '\\' ∧ quote = '"' then
      if atLineEnd rest then linesBody quote fuel (skipFold rest)
      else do
        let (c, rest) ← escape? rest
        let (cs, rest) ← linesBody quote fuel rest
        some (c :: cs, rest)
    else if isPlain c || c == '\n' || (c == '\r' && rest.head? == some '\n') then do
      let (cs, rest) ← linesBody quote fuel rest
      some (c :: cs, rest)
    else none

/-- Skips a line end at the start of a string of several lines. -/
def skipFirstLineEnd : List Char → List Char
  | '\r' :: '\n' :: rest => rest
  | '\n' :: rest => rest
  | cs => cs

/-- Reads a string on one line. -/
def lineString? : List Char → Option (String × List Char)
  | '"' :: rest => (basicBody (rest.length + 1) rest).map fun (s, rest) => (String.ofList s, rest)
  | '\'' :: rest => (literalBody rest).map fun (s, rest) => (String.ofList s, rest)
  | _ => none

/-- Reads a string, on one line or on several. -/
def string? (cs : List Char) : Option (String × List Char) :=
  let body := fun (quote : Char) (rest : List Char) =>
    (linesBody quote (rest.length + 1) (skipFirstLineEnd rest)).map fun (s, rest) =>
      (String.ofList s, rest)
  match cs with
  | '"' :: '"' :: '"' :: rest => body '"' rest
  | '\'' :: '\'' :: '\'' :: rest => body '\'' rest
  | _ => lineString? cs

def isBareKey (c : Char) : Bool := c.isAlphanum || c == '_' || c == '-'

/-- Reads one part of a name. -/
def key? (cs : List Char) : Option (String × List Char) :=
  match cs with
  | '"' :: _ => lineString? cs
  | '\'' :: _ => lineString? cs
  | _ =>
    let name := cs.takeWhile isBareKey
    if name.isEmpty then none else some (String.ofList name, cs.dropWhile isBareKey)

/-- Reads a name of at most `count` parts with points between them. -/
def parts? : Nat → List Char → Option (List String × List Char)
  | 0, _ => none
  | count + 1, cs => do
    let (name, rest) ← key? cs
    match skipBlanks rest with
    | '.' :: rest => (parts? count (skipBlanks rest)).map fun (names, rest) => (name :: names, rest)
    | rest => some ([name], rest)

/-- Reads a name, and skips the blanks after it. -/
def path? (cs : List Char) : Option (List String × List Char) := parts? maxParts cs

/-- Whether a character may stand in a word: whether it does not end one. -/
def isWordPart (c : Char) : Bool :=
  !(isBlank c || ['=', ',', '[', ']', '\x7b', '\x7d', '#', '\r', '\n'].contains c)

/-- Whether a word that has come to a blank may go on with a character: a quote starts a string. -/
def resumesWord (c : Char) : Bool := isWordPart c && c != '"' && c != '\''

/-- Splits a text after the word that it starts with. A blank belongs to the word if the word goes
on after it: a blank may stand between a date and a time. -/
def spanWord : List Char → List Char × List Char
  | [] => ([], [])
  | c :: rest =>
    if isWordPart c || (isBlank c && (skipBlanks rest).head?.any resumesWord) then
      let (w, rest) := spanWord rest
      (c :: w, rest)
    else ([], c :: rest)

mutual

/-- Reads a value, entering up to `fuel` values one after the other or one inside the other, and
lists and tables up to `depth` deep. One bracket too many starts no value: it starts no word. -/
def value? : Nat → Nat → List Char → Option (Document × List Char)
  | _, 0, _ => none
  | depth, fuel + 1, cs =>
    match cs, depth with
    | '"' :: _, _ => (string? cs).map fun (s, rest) => (.text s, rest)
    | '\'' :: _, _ => (string? cs).map fun (s, rest) => (.text s, rest)
    | '[' :: rest, depth + 1 => (items? depth fuel rest).map fun (vs, rest) => (.list vs, rest)
    | '\x7b' :: rest, depth + 1 => do
      let (pairs, rest) ← assignments? depth fuel rest
      let d ← Tree.ofAssignments? pairs
      some (d, rest)
    | _, _ =>
      let (w, rest) := spanWord cs
      (word? w).map fun d => (d, rest)

/-- Reads the items of a list up to its closing bracket. -/
def items? : Nat → Nat → List Char → Option (List Document × List Char)
  | _, 0, _ => none
  | depth, fuel + 1, cs => do
    match ← skipTrivia false cs with
    | ']' :: rest => some ([], rest)
    | cs =>
      let (v, rest) ← value? depth fuel cs
      match ← skipTrivia false rest with
      | ',' :: rest => (items? depth fuel rest).map fun (vs, rest) => (v :: vs, rest)
      | ']' :: rest => some ([v], rest)
      | _ => none

/-- Reads the assignments of a table up to its closing brace. -/
def assignments? : Nat → Nat → List Char → Option (List (List String × Document) × List Char)
  | _, 0, _ => none
  | depth, fuel + 1, cs => do
    match ← skipTrivia false cs with
    | '\x7d' :: rest => some ([], rest)
    | cs =>
      let (pair, rest) ← assignment? true depth fuel cs
      match ← skipTrivia false rest with
      | ',' :: rest =>
        (assignments? depth fuel rest).map fun (pairs, rest) => (pair :: pairs, rest)
      | '\x7d' :: rest => some ([pair], rest)
      | _ => none

/-- Reads a name, an equals sign and a value. -/
def assignment? (inBraces : Bool) :
    Nat → Nat → List Char → Option ((List String × Document) × List Char)
  | _, 0, _ => none
  | depth, fuel + 1, cs => do
    let (path, rest) ← path? cs
    match ← skipGap inBraces rest with
    | '=' :: rest =>
      (value? depth fuel (← skipGap inBraces rest)).map fun (d, rest) => ((path, d), rest)
    | _ => none

end

/-- Reads a statement whose value has up to `size` values in it. -/
def statement? (size : Nat) (cs : List Char) : Option (Statement × List Char) :=
  match cs with
  | '[' :: '[' :: rest => do
    let (path, rest) ← path? (skipBlanks rest)
    match rest with
    | ']' :: ']' :: rest => some (.listHeader path, rest)
    | _ => none
  | '[' :: rest => do
    let (path, rest) ← path? (skipBlanks rest)
    match rest with
    | ']' :: rest => some (.header path, rest)
    | _ => none
  | _ =>
    (assignment? false maxDepth size cs).map fun ((path, d), rest) => (.assign path d, rest)

/-- Reads up to `fuel` statements, each on lines of its own. -/
def statements? (size : Nat) : Nat → List Char → Option (List Statement)
  | 0, _ => none
  | _ + 1, [] => some []
  | fuel + 1, cs => do
    let (s, rest) ← statement? size cs
    let rest ← endStatement? rest
    (statements? size fuel rest).map (s :: ·)

/-- Reads a text. Every value and every statement takes a character, so the length of the text
bounds their number. -/
def read (s : String) : Option Document := do
  let cs := match s.toList with
    | '\uFEFF' :: rest => rest
    | cs => cs
  let size := 3 * cs.length + 3
  let cs ← skipTrivia false cs
  Tree.ofStatements? (← statements? size size cs)

end LinkState.Toml
