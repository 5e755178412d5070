/-!
Link codes tag the groups of neighbor addresses in a HELLO. Bits 0 and 1 hold the link type, bits
2 and 3 the neighbor type, and the upper four bits are reserved.
-/

namespace Olsr

inductive LinkType where
  | unspecified
  | asymmetric
  | symmetric
  | lost
  deriving DecidableEq

namespace LinkType

def number : LinkType → Nat
  | unspecified => 0
  | asymmetric => 1
  | symmetric => 2
  | lost => 3

def all : List LinkType := [unspecified, asymmetric, symmetric, lost]

def name : LinkType → String
  | unspecified => "Unspecified"
  | asymmetric => "Asymmetric"
  | symmetric => "Symmetric"
  | lost => "Lost"

end LinkType

inductive NeighborType where
  | notNeighbor
  | symmetric
  | mpr
  deriving DecidableEq

namespace NeighborType

def number : NeighborType → Nat
  | notNeighbor => 0
  | symmetric => 1
  | mpr => 2

def all : List NeighborType := [notNeighbor, symmetric, mpr]

def name : NeighborType → String
  | notNeighbor => "NotNeighbor"
  | symmetric => "Symmetric"
  | mpr => "Mpr"

end NeighborType

structure LinkCode where
  byte : UInt8
  deriving DecidableEq

namespace LinkCode

def of (link : LinkType) (neighbor : NeighborType) : LinkCode :=
  ⟨UInt8.ofNat (4 * neighbor.number + link.number)⟩

def linkType (c : LinkCode) : LinkType :=
  match c.byte.toNat % 4 with
  | 0 => .unspecified
  | 1 => .asymmetric
  | 2 => .symmetric
  | _ => .lost

/-- The fourth neighbor type is undefined. -/
def neighborType? (c : LinkCode) : Option NeighborType :=
  match c.byte.toNat / 4 % 4 with
  | 0 => some .notNeighbor
  | 1 => some .symmetric
  | 2 => some .mpr
  | _ => none

theorem linkType_of (link : LinkType) (neighbor : NeighborType) :
    (of link neighbor).linkType = link := by
  cases link <;> cases neighbor <;> rfl

theorem neighborType?_of (link : LinkType) (neighbor : NeighborType) :
    (of link neighbor).neighborType? = some neighbor := by
  cases link <;> cases neighbor <;> rfl

/-- A code means something if its reserved bits are clear, its neighbor type is defined, and it
does not name a symmetric neighbor behind an asymmetric link. -/
def isValid (c : LinkCode) : Bool :=
  c.byte.toNat < 16 &&
    match c.neighborType? with
    | none => false
    | some .symmetric => c.linkType != .asymmetric
    | some _ => true

end LinkCode
end Olsr
