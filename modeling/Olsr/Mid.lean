import Olsr.Cursor

/-!
MID bodies list the further interfaces of the originator.
-/

namespace Olsr

structure Mid where
  interfaceAddresses : List Address := []
  deriving DecidableEq

namespace Mid

def encodedLength (m : Mid) : Nat := 4 * m.interfaceAddresses.length

def size (m : Mid) : UInt16 := sizeField m.encodedLength

def encode (m : Mid) : Octets := Address.encodeAll m.interfaceAddresses

theorem encode_length (m : Mid) : m.encode.length = m.encodedLength :=
  Address.encodeAll_length m.interfaceAddresses

def reader : Cursor Mid := do
  return ⟨← Cursor.addressList .midBody⟩

end Mid
end Olsr
