import Olsr.Cursor
import Olsr.LinkCode

/-!
Link messages: neighbor addresses that share one link code. On the wire a link message is a code,
a reserved octet, its own size with this header, and the addresses. A run of link messages fills
the octets declared for it; `consumed` counts those already read.
-/

namespace Olsr

def linkHeaderSize : Nat := 4

structure LinkMessage where
  linkCode : LinkCode
  neighborAddresses : List Address
  deriving DecidableEq

namespace LinkMessage

def encodedLength (l : LinkMessage) : Nat := linkHeaderSize + 4 * l.neighborAddresses.length

def size (l : LinkMessage) : UInt16 := sizeField l.encodedLength

def encode (l : LinkMessage) : Octets :=
  l.linkCode.byte :: 0 :: Octets.ofWord16 l.size ++ Address.encodeAll l.neighborAddresses

theorem encode_length (l : LinkMessage) : l.encode.length = l.encodedLength := by
  simp only [encode, encodedLength, linkHeaderSize, List.cons_append, List.length_append,
    Octets.ofWord16_length, List.length_cons, Address.encodeAll_length]
  omega

/-- One link message of a run, with the size that its header declares. -/
def reader (policy : Policy) (declared consumed : Nat) : Cursor (LinkMessage × Nat) := do
  let left ← Cursor.difference declared consumed
  Cursor.refuseIf (left < linkHeaderSize)
    (.malformedLength .helloBody (declared + fixedFieldsSize) .trailingOctets)
  let code ← Cursor.octet
  Cursor.checkReserved policy .linkMessage (← Cursor.octet).toNat
  let size := (← Cursor.word16).toNat
  Cursor.refuseIf (size < linkHeaderSize) (.malformedLength .linkMessage size .belowLinkHeader)
  Cursor.refuseIf (left < size) (.malformedLength .linkMessage size .overrunsHello)
  let record ← Cursor.block (← Cursor.difference size linkHeaderSize)
  let addresses ← Cursor.within record (Cursor.addressList .linkMessage)
  return (⟨⟨code⟩, addresses⟩, size)

theorem linkHeaderSize_le_of_reader {policy : Policy} {declared consumed size : Nat}
    {b rest : Octets} {l : LinkMessage}
    (h : reader policy declared consumed b = .ok ((l, size), rest)) : linkHeaderSize ≤ size := by
  simp only [reader, Cursor.bind_eq_ok, Cursor.refuseIf_eq_ok] at h
  obtain ⟨left, b₁, -, -, b₂, -, code, b₃, -, reserved, b₄, -, -, b₅, -, z, b₆, -, -, b₇,
    ⟨hz, -⟩, -, b₈, -, n, b₉, -, record, b₁₀, -, xs, b₁₁, -, h⟩ := h
  cases h
  simpa using hz

def run (policy : Policy) (declared consumed : Nat) (b : Octets) :
    Except Stop (List LinkMessage) :=
  if consumed < declared then
    match _h : reader policy declared consumed b with
    | .error stop => .error stop
    | .ok ((l, size), rest) => (run policy declared (consumed + size) rest).map (l :: ·)
  else .ok []
termination_by declared - consumed
decreasing_by
  have := linkHeaderSize_le_of_reader _h
  simp only [linkHeaderSize] at this
  omega

end LinkMessage
end Olsr
