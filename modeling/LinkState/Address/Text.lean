import LinkState.Address
import LinkState.Text.Digits

/-!
# The text of addresses and networks

An address of version 4 is four decimal octets, none with a leading zero. An address of version 6
is eight groups of at most four hexadecimal digits; one run of zero groups may be left out, and
the last two groups may be written as an address of version 4. A network is an address, a slash
and a length; without a slash it is a single host.

Addresses are written in their canonical form: lower case, and the longest run of at least two
zero groups left out, the first one of several.
-/

namespace LinkState

/-- The text after a given character, if it starts with that character. -/
def expect (c : Char) : List Char → Option (List Char)
  | d :: rest => if d = c then some rest else none
  | [] => none

namespace IPv4

def ofOctets (a b c d : Nat) : IPv4 := BitVec.ofNat 32 (((a * 256 + b) * 256 + c) * 256 + d)

/-- The four octets, the most significant one first. -/
def octets (a : IPv4) : List Nat :=
  [24, 16, 8, 0].map fun shift => (a.toNat >>> shift) % 256

/-- Reads a decimal number below 256 that has no leading zero. -/
def octet? (cs : List Char) : Option (Nat × List Char) := do
  let (n, rest) ← Digits.number? 10 3 cs
  let spare := cs.head? == some '0' && decide (rest.length + 1 < cs.length)
  if spare || decide (255 < n) then none else some (n, rest)

/-- Reads an address from the front of a text. -/
def read? (cs : List Char) : Option (IPv4 × List Char) := do
  let (a, cs) ← octet? cs
  let (b, cs) ← octet? (← expect '.' cs)
  let (c, cs) ← octet? (← expect '.' cs)
  let (d, cs) ← octet? (← expect '.' cs)
  some (ofOctets a b c d, cs)

def ofChars? (cs : List Char) : Option IPv4 :=
  match read? cs with
  | some (a, []) => some a
  | _ => none

def ofString? (s : String) : Option IPv4 := ofChars? s.toList

def render (a : IPv4) : String := String.intercalate "." (a.octets.map toString)

/-- The length of a mask: the number of its leading ones, if only zeros follow them. -/
def maskLength? (mask : IPv4) : Option Nat :=
  (List.range 33).find? fun n => mask == BitVec.allOnes 32 <<< (32 - n)

end IPv4

namespace IPv6

def ofGroups (gs : List Nat) : IPv6 := BitVec.ofNat 128 (gs.foldl (fun n g => n * 65536 + g) 0)

/-- The eight groups, the most significant one first. -/
def groups (a : IPv6) : List Nat :=
  [112, 96, 80, 64, 48, 32, 16, 0].map fun shift => (a.toNat >>> shift) % 65536

/-- Reads what stands at the front of a row of groups, or after the colon that separates two. -/
def separated? {α : Type} (first : Bool) (read : List Char → Option (α × List Char))
    (cs : List Char) : Option (α × List Char) :=
  if first then read cs else (expect ':' cs).bind read

/-- Reads a row of at most the given number of groups, and says whether it ends in an address of
version 4, which counts as two groups. -/
def readGroups : Nat → Bool → List Char → List Nat × Bool × List Char
  | 0, _, cs => ([], false, cs)
  | room + 1, first, cs =>
    match if room = 0 then none else separated? first IPv4.read? cs with
    | some (a, rest) => ([a.toNat / 65536, a.toNat % 65536], true, rest)
    | none =>
      match separated? first (Digits.number? 16 4) cs with
      | some (g, rest) =>
        let (gs, embedded, rest) := readGroups room false rest
        (g :: gs, embedded, rest)
      | none => ([], false, cs)

/-- Reads an address from the front of a text. -/
def read? (cs : List Char) : Option (IPv6 × List Char) := do
  let (front, embedded, rest) := readGroups 8 true cs
  if front.length = 8 then some (ofGroups front, rest)
  else if embedded then none
  else
    let rest ← expect ':' (← expect ':' rest)
    let (back, _, rest) := readGroups (7 - front.length) true rest
    let zeros := List.replicate (8 - front.length - back.length) 0
    some (ofGroups (front ++ zeros ++ back), rest)

def ofChars? (cs : List Char) : Option IPv6 :=
  match read? cs with
  | some (a, []) => some a
  | _ => none

/-- The number of zero groups at the front. -/
def leadingZeros (gs : List Nat) : Nat := (gs.takeWhile (· == 0)).length

/-- The start and the length of the longest run of zero groups, the first one of several. -/
def longestZeros (gs : List Nat) : Nat × Nat :=
  (List.range gs.length).foldl
    (fun best i =>
      let n := leadingZeros (gs.drop i)
      if best.2 < n then (i, n) else best)
    (0, 0)

def renderGroups (gs : List Nat) : String := String.intercalate ":" (gs.map Digits.hex)

def render (a : IPv6) : String :=
  let gs := a.groups
  if gs.take 6 = [0, 0, 0, 0, 0, 65535] then
    "::ffff:" ++ IPv4.render (BitVec.ofNat 32 a.toNat)
  else
    let (start, count) := longestZeros gs
    if 2 ≤ count then
      renderGroups (gs.take start) ++ "::" ++ renderGroups (gs.drop (start + count))
    else renderGroups gs

end IPv6

def Address.render : Address → String
  | .v4 a => IPv4.render a
  | .v6 a => IPv6.render a

namespace Network

/-- The network of an address with a given length, if the address has that many bits. -/
def ofAddress? (a : Address) (n : Nat) : Option Network :=
  if h : n ≤ a.width then some ⟨a, n, h⟩ else none

/-- Splits a text at its slash; a second one is refused. -/
def splitLength? (cs : List Char) : Option (List Char × Option (List Char)) :=
  match cs.dropWhile (· != '/') with
  | [] => some (cs, none)
  | _ :: rest => if rest.contains '/' then none else some (cs.takeWhile (· != '/'), some rest)

/-- Reads a network of version 4, whose length may be written as a mask. -/
def ofCharsV4? (cs : List Char) : Option Network := do
  let (text, length) ← splitLength? cs
  let a ← IPv4.ofChars? text
  match length with
  | none => some (host (.v4 a))
  | some length =>
    match IPv4.ofChars? length with
    | some mask => ofAddress? (.v4 a) (← IPv4.maskLength? mask)
    | none => ofAddress? (.v4 a) (← Digits.byte? length)

/-- Reads a network of version 6. -/
def ofCharsV6? (cs : List Char) : Option Network := do
  let (text, length) ← splitLength? cs
  let a ← IPv6.ofChars? text
  match length with
  | none => some (host (.v6 a))
  | some length => ofAddress? (.v6 a) (← Digits.byte? length)

def ofString? (s : String) : Option Network :=
  match ofCharsV4? s.toList with
  | some n => some n
  | none => ofCharsV6? s.toList

def render (n : Network) : String := n.address.render ++ "/" ++ toString n.length

end Network

end LinkState
