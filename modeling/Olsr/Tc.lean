import Olsr.Cursor

/-!
TC bodies advertise neighbors of the originator under a sequence number of their own. Two
reserved octets follow that number; they are written as zero.
-/

namespace Olsr

structure Tc where
  ansn : UInt16 := 0
  neighborAddresses : List Address := []
  deriving DecidableEq

namespace Tc

def encodedLength (t : Tc) : Nat := fixedFieldsSize + 4 * t.neighborAddresses.length

def size (t : Tc) : UInt16 := sizeField t.encodedLength

def encode (t : Tc) : Octets :=
  Octets.ofWord16 t.ansn ++ 0 :: 0 :: Address.encodeAll t.neighborAddresses

theorem encode_length (t : Tc) : t.encode.length = t.encodedLength := by
  simp only [encode, encodedLength, fixedFieldsSize, List.length_append, Octets.ofWord16_length,
    List.length_cons, Address.encodeAll_length]
  omega

def reader (policy : Policy) : Cursor Tc := do
  Cursor.requireFixedFields .tcBody
  let ansn ← Cursor.word16
  Cursor.checkReserved policy .tc (← Cursor.word16).toNat
  return ⟨ansn, ← Cursor.addressList .tcNeighborList⟩

end Tc
end Olsr
