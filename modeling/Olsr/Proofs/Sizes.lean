import Olsr.Packet

/-!
Sizes without wrap-around. Where an encoding is at most as long as a size field can say, the 16-bit
size of every part is the length of its encoding.
-/

namespace Olsr

theorem le_total_of_mem {ns : List Nat} {n : Nat} (h : n ∈ ns) : n ≤ total ns := by
  induction ns with
  | nil => cases h
  | cons k ks ih =>
    rw [total_cons]
    cases List.mem_cons.mp h with
    | inl e => omega
    | inr h => exact Nat.le_trans (ih h) (Nat.le_add_left _ _)

theorem LinkMessage.size_toNat {l : LinkMessage} (fits : l.encodedLength ≤ maxMessageSize) :
    l.size.toNat = l.encodedLength :=
  sizeField_toNat _ (Nat.lt_succ_of_le fits)

namespace Hello

variable {h : Hello}

theorem encodedLength_of_mem {l : LinkMessage} (member : l ∈ h.linkMessages) :
    l.encodedLength ≤ h.encodedLength :=
  Nat.le_trans (le_total_of_mem (List.mem_map_of_mem member)) (Nat.le_add_left _ _)

theorem size_toNat (fits : h.encodedLength ≤ maxMessageSize) : h.size.toNat = h.encodedLength := by
  have links : (h.linkMessages.map fun l => l.size.toNat) =
      h.linkMessages.map LinkMessage.encodedLength :=
    List.map_congr_left fun _ member =>
      LinkMessage.size_toNat (Nat.le_trans (encodedLength_of_mem member) fits)
  rw [size, links]
  exact sizeField_toNat _ (Nat.lt_succ_of_le fits)

end Hello

theorem Body.size_toNat {b : Body} (fits : b.encodedLength ≤ maxMessageSize) :
    b.size.toNat = b.encodedLength := by
  cases b with
  | hello h => exact Hello.size_toNat fits
  | tc | mid | hna | unknown => exact sizeField_toNat _ (Nat.lt_succ_of_le fits)

namespace Message

variable {m : Message}

theorem body_encodedLength_le (m : Message) : m.body.encodedLength ≤ m.encodedLength :=
  Nat.le_add_left _ _

theorem size_toNat (fits : m.encodedLength ≤ maxMessageSize) : m.size.toNat = m.encodedLength := by
  rw [size, Body.size_toNat (Nat.le_trans m.body_encodedLength_le fits)]
  exact sizeField_toNat _ (Nat.lt_succ_of_le fits)

end Message

namespace Packet

variable {p : Packet}

theorem encodedLength_of_mem {m : Message} (member : m ∈ p.messages) :
    m.encodedLength ≤ p.encodedLength :=
  Nat.le_trans (le_total_of_mem (List.mem_map_of_mem member)) (Nat.le_add_left _ _)

theorem length_toNat (fits : p.encodedLength ≤ maxMessageSize) :
    p.length.toNat = p.encodedLength := by
  have messages : (p.messages.map fun m => m.size.toNat) =
      p.messages.map Message.encodedLength :=
    List.map_congr_left fun _ member =>
      Message.size_toNat (Nat.le_trans (encodedLength_of_mem member) fits)
  rw [length, messages]
  exact sizeField_toNat _ (Nat.lt_succ_of_le fits)

end Packet
end Olsr
