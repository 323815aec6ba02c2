import Std.Data.TreeMap

/-!
# Addresses and networks

An `Address` is a number of 32 or of 128 bits, and a `Network` is an address with the length of its
network part; the host bits stay as they were given. Networks are ordered by family, address and
length, which is the order of a routing table.
-/

namespace LinkState

/-- An address of version 4. -/
abbrev IPv4 := BitVec 32

/-- An address of version 6. -/
abbrev IPv6 := BitVec 128

/-- An IP address of either version. -/
inductive Address where
  | v4 (bits : IPv4)
  | v6 (bits : IPv6)
deriving DecidableEq

namespace Address

/-- The number of bits of the address. -/
def width : Address → Nat
  | v4 _ => 32
  | v6 _ => 128

def toNat : Address → Nat
  | v4 bits => bits.toNat
  | v6 bits => bits.toNat

theorem eq_of_width_of_toNat {a b : Address} (hw : a.width = b.width) (hn : a.toNat = b.toNat) :
    a = b := by
  cases a <;> cases b <;> simp_all [width, toNat, BitVec.toNat_inj]

end Address

/-- An address with the length of its network part. -/
structure Network where
  address : Address
  length : Nat
  length_le : length ≤ address.width
deriving DecidableEq

namespace Network

/-- The network of a single host. -/
def host (a : Address) : Network := ⟨a, a.width, Nat.le_refl _⟩

/-- The network that holds all addresses of version 4. -/
def anyV4 : Network := ⟨.v4 0, 0, Nat.zero_le _⟩

/-- The network that holds all addresses of version 6. -/
def anyV6 : Network := ⟨.v6 0, 0, Nat.zero_le _⟩

def width (n : Network) : Nat := n.address.width

def bits (n : Network) : Nat := n.address.toNat

/-- Networks are ordered by family, then by address, then by length. -/
instance : Ord Network :=
  ⟨compareLex (compareOn width) (compareLex (compareOn bits) (compareOn Network.length))⟩

instance : Std.TransOrd Network :=
  inferInstanceAs (Std.TransCmp
    (compareLex (compareOn width) (compareLex (compareOn bits) (compareOn Network.length))))

instance : Std.LawfulEqOrd Network where
  eq_of_compare {a b} h := by
    have h' : (compare a.width b.width).then ((compare a.bits b.bits).then
        (compare a.length b.length)) = .eq := h
    rw [Ordering.then_eq_eq, Ordering.then_eq_eq, Nat.compare_eq_eq, Nat.compare_eq_eq,
      Nat.compare_eq_eq] at h'
    obtain ⟨hw, hb, hl⟩ := h'
    have ha := Address.eq_of_width_of_toNat hw hb
    obtain ⟨a, n, _⟩ := a
    obtain ⟨b, m, _⟩ := b
    cases ha
    cases hl
    rfl

end Network

end LinkState
