import Olsr.Cursor

/-!
HNA bodies list networks outside the mesh that the originator reaches, each an address and a mask.
-/

namespace Olsr

structure Association where
  address : Address
  mask : Address
  deriving DecidableEq

namespace Association

def prefixLength (a : Association) : Nat := a.mask.maskLength

def octets (a : Association) : Octets := a.address.octets ++ a.mask.octets

@[simp] theorem octets_length (a : Association) : a.octets.length = 8 := rfl

def reader : Cursor Association := do
  let address ← Cursor.address
  let mask ← Cursor.address
  return ⟨address, mask⟩

theorem reader_rest {b rest : Octets} {a : Association} (h : reader b = .ok (a, rest)) :
    b = a.octets ++ rest := by
  simp only [reader, Cursor.bind_eq_ok] at h
  obtain ⟨x, b', hx, y, b'', hy, h⟩ := h
  cases h
  rw [Cursor.address_rest hx, Cursor.address_rest hy, octets, List.append_assoc]

theorem reader_shrinks : Cursor.Shrinks reader := by
  intro b a rest h
  simp [reader_rest h]

end Association

structure Hna where
  associations : List Association := []
  deriving DecidableEq

namespace Hna

def encodedLength (h : Hna) : Nat := 8 * h.associations.length

def size (h : Hna) : UInt16 := sizeField h.encodedLength

def encode (h : Hna) : Octets := h.associations.flatMap Association.octets

theorem encode_length (h : Hna) : h.encode.length = h.encodedLength := by
  obtain ⟨xs⟩ := h
  induction xs with
  | nil => rfl
  | cons x xs ih =>
    simp only [encode, encodedLength, List.flatMap_cons, List.length_append,
      Association.octets_length, List.length_cons] at ih ⊢
    omega

def reader : Cursor Hna := do
  let b ← Cursor.unread
  Cursor.refuseIf (b.length % 8 != 0) (.malformedLength .hnaBody b.length .partialAssociation)
  return ⟨← Cursor.toEnd Association.reader Association.reader_shrinks b⟩

end Hna
end Olsr
