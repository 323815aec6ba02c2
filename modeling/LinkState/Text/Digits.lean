/-!
# Digits

Reading and writing numbers in a base of at most sixteen.
-/

namespace LinkState.Digits

/-- The value of a digit of the given base, letters counting from ten in either case. -/
def value? (base : Nat) (c : Char) : Option Nat :=
  let n :=
    if '0' ≤ c ∧ c ≤ '9' then c.toNat - '0'.toNat
    else if 'a' ≤ c ∧ c ≤ 'f' then c.toNat - 'a'.toNat + 10
    else if 'A' ≤ c ∧ c ≤ 'F' then c.toNat - 'A'.toNat + 10
    else base
  if n < base then some n else none

def isDigit (base : Nat) (c : Char) : Bool := (value? base c).isSome

/-- Splits a text after its leading digits. -/
def span (base : Nat) (cs : List Char) : List Char × List Char :=
  (cs.takeWhile (isDigit base), cs.dropWhile (isDigit base))

/-- The number written by a row of digits, the most significant one first. -/
def toNat (base : Nat) (ds : List Char) : Nat :=
  ds.foldl (fun n c => n * base + (value? base c).getD 0) 0

/-- Whether a text starts with a zero that is not all of it. -/
def hasLeadingZero (cs : List Char) : Bool := cs.head? == some '0' && decide (1 < cs.length)

/-- Reads a number of one to `most` digits from the front of a text. -/
def number? (base most : Nat) (cs : List Char) : Option (Nat × List Char) :=
  let (ds, rest) := span base cs
  if 0 < ds.length ∧ ds.length ≤ most then some (toNat base ds, rest) else none

/-- Reads a number of exactly `count` digits from the front of a text. -/
def exactly? (base count : Nat) (cs : List Char) : Option (Nat × List Char) :=
  let ds := cs.take count
  if ds.length = count ∧ ds.all (isDigit base) then some (toNat base ds, cs.drop count) else none

/-- Reads a whole text as a number. -/
def whole? (base : Nat) (cs : List Char) : Option Nat :=
  if cs.isEmpty || !cs.all (isDigit base) then none else some (toNat base cs)

/-- Reads a whole text as a decimal number below 256, with or without a plus sign. -/
def byte? (cs : List Char) : Option Nat :=
  let ds := match cs with
    | '+' :: rest => rest
    | _ => cs
  (whole? 10 ds).filter (· < 256)

/-- A number in base sixteen, in lower case and without leading zeros. -/
def hex (n : Nat) : String := String.ofList (Nat.toDigits 16 n)

end LinkState.Digits
