import LinkState.Text.Digits

/-!
# Dates and times in a TOML text

A moment is written as a date (`1979-05-27`), as a time of day (`07:32:00.5`), or as a date and a
time with a `T` or one blank between them, after which an offset from universal time may stand
(`Z`, `-07:00`). `isMoment` recognises these words. They are given no value: no record that is
decoded from a document has a field for one.
-/

namespace LinkState.Toml

def isLeapYear (year : Nat) : Bool := year % 4 == 0 && (year % 100 != 0 || year % 400 == 0)

def daysOfMonth (year month : Nat) : Nat :=
  if month = 2 then if isLeapYear year then 29 else 28
  else if month = 4 ∨ month = 6 ∨ month = 9 ∨ month = 11 then 30
  else 31

/-- Takes one character off the front of a text. -/
def dropMark? (mark : Char) : List Char → Option (List Char)
  | [] => none
  | c :: rest => if c = mark then some rest else none

/-- Reads a number of two digits between two bounds from the front of a text. -/
def twoDigits? (least most : Nat) (cs : List Char) : Option (Nat × List Char) :=
  (Digits.exactly? 10 2 cs).filter fun (n, _) => least ≤ n && n ≤ most

/-- Takes a day of the calendar off the front of a text. -/
def dropDate? (cs : List Char) : Option (List Char) := do
  let (year, rest) ← Digits.exactly? 10 4 cs
  let (month, rest) ← twoDigits? 1 12 (← dropMark? '-' rest)
  let (_, rest) ← twoDigits? 1 (daysOfMonth year month) (← dropMark? '-' rest)
  some rest

/-- Takes an hour and a minute off the front of a text. -/
def dropMinute? (cs : List Char) : Option (List Char) := do
  let (_, rest) ← twoDigits? 0 23 cs
  let (_, rest) ← twoDigits? 0 59 (← dropMark? ':' rest)
  some rest

/-- Takes a time of day off the front of a text. The seconds may be left out, and only seconds have
a fraction; a minute may have a leap second. -/
def dropTime? (cs : List Char) : Option (List Char) := do
  match ← dropMinute? cs with
  | ':' :: rest =>
    let (_, rest) ← twoDigits? 0 60 rest
    match rest with
    | '.' :: rest =>
      let (ds, rest) := Digits.span 10 rest
      if ds.isEmpty then none else some rest
    | rest => some rest
  | rest => some rest

/-- Whether a text is an offset from universal time, or empty. -/
def isOffset : List Char → Bool
  | [] => true
  | ['Z'] => true
  | ['z'] => true
  | sign :: rest => (sign == '+' || sign == '-') && dropMinute? rest == some []

/-- Whether a word is a date, a time, or both. -/
def isMoment (w : List Char) : Bool :=
  match dropDate? w with
  | none => dropTime? w == some []
  | some [] => true
  | some (mark :: rest) =>
    (mark == 'T' || mark == 't' || mark == ' ') && (dropTime? rest).any isOffset

end LinkState.Toml
