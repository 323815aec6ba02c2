import LinkState.Document
import LinkState.Document.TomlDate

/-!
# The words of a TOML text

A word is a value that stands in no quotes and no brackets: a boolean, a number, a date or a time.
`word?` says what value a word writes, and refuses a word of no such form.

Whether a word has the form of an integer (`isInteger`) and whether it writes one (`integer?`) are
two questions. The form asks an underscore to stand between digits of any base up to sixteen, so
that `1_a` has the form of an integer, as has a mark of a base that no digits follow. Such a word
is a literal, which is no integer to any record.
-/

namespace LinkState.Toml

/-- What follows the sign of a word, if it has one. -/
def unsigned : List Char → List Char
  | '+' :: rest => rest
  | '-' :: rest => rest
  | cs => cs

/-- Whether every underscore stands between two digits; `afterDigit` says whether a digit came
last. -/
def joinsDigits (base : Nat) (afterDigit : Bool) : List Char → Bool
  | [] => true
  | '_' :: c :: rest => afterDigit && Digits.isDigit base c && joinsDigits base true rest
  | ['_'] => false
  | c :: rest => joinsDigits base (Digits.isDigit base c) rest

/-- The base that a word names, and the text of its digits. -/
def named? : List Char → Option (Nat × List Char)
  | '0' :: 'x' :: ds => some (16, ds)
  | '0' :: 'o' :: ds => some (8, ds)
  | '0' :: 'b' :: ds => some (2, ds)
  | _ => none

/-- Whether a word has the form of a decimal integer: digits, after which anything may follow an
underscore but what makes the number a real one. -/
def isDecimal (w : List Char) : Bool :=
  let v := unsigned w
  let tail := v.dropWhile (Digits.isDigit 10)
  !v.isEmpty && !Digits.hasLeadingZero v && joinsDigits 16 false w &&
    (tail.isEmpty || tail.head? == some '_') && !tail.any ['.', 'e', 'E', ' '].contains

/-- Whether a word has the form of an integer. -/
def isInteger (w : List Char) : Bool :=
  match named? w with
  | some (base, ds) =>
    ds.all (fun c => Digits.isDigit base c || c == '_') && joinsDigits base false ds
  | none => isDecimal w

/-- The integer that a word writes. Underscores do not count. -/
def integer? (w : List Char) : Option Int :=
  let cs := w.filter (· != '_')
  match named? cs with
  | some (base, ds) => (Digits.whole? base ds).map Int.ofNat
  | none => (Digits.whole? 10 (unsigned cs)).map fun n => if cs.head? = some '-' then -n else n

/-- Splits a text after its leading digits and underscores. There must be a digit among them. -/
def spanDigits? (cs : List Char) : Option (List Char × List Char) :=
  let isPart := fun c : Char => Digits.isDigit 10 c || c == '_'
  let ds := cs.takeWhile isPart
  if ds.any (Digits.isDigit 10) then some (ds, cs.dropWhile isPart) else none

/-- Takes the fraction of a real number off the front of a text, if there is one. -/
def dropFraction? : List Char → Option (List Char)
  | '.' :: rest => (spanDigits? rest).map (·.2)
  | cs => some cs

/-- Takes the exponent of a real number off the front of a text, if there is one. -/
def dropExponent? : List Char → Option (List Char)
  | 'e' :: rest => (spanDigits? (unsigned rest)).map (·.2)
  | 'E' :: rest => (spanDigits? (unsigned rest)).map (·.2)
  | cs => some cs

/-- Whether a word has the form of a real number: with a fraction, with an exponent, or infinite,
or no number at all. -/
def isReal (w : List Char) : Bool :=
  let v := unsigned w
  if v = ['i', 'n', 'f'] ∨ v = ['n', 'a', 'n'] then true
  else
    match spanDigits? v with
    | some (mantissa, rest) =>
      !Digits.hasLeadingZero mantissa && joinsDigits 10 false w && !rest.isEmpty &&
        (dropFraction? rest).bind dropExponent? == some []
    | none => false

/-- The value that a word writes. -/
def word? (w : List Char) : Option Document :=
  if w = ['t', 'r', 'u', 'e'] then some (.bool true)
  else if w = ['f', 'a', 'l', 's', 'e'] then some (.bool false)
  else if isInteger w then
    match integer? w with
    | some n => some (.integer n)
    | none => some (.literal (String.ofList w))
  else if isReal w || isMoment w then some (.literal (String.ofList w))
  else none

end LinkState.Toml
