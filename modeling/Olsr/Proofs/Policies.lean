import Olsr.Proofs.Normalization

/-!
What a policy changes. A cap refuses longer packets; strictness refuses what would not be written
again as it was read. Nothing else depends on a policy, least of all what is left unread.
-/

namespace Olsr

open Octets

namespace LinkMessage

theorem IsRecord.lenient {strict : Bool} {r : Octets} (h : IsRecord strict r) : IsRecord false r :=
  ⟨h.sized, h.aligned, nofun⟩

theorem IsRecord.clearReserved_eq {r : Octets} (h : IsRecord true r) : clearReserved r = r := by
  obtain ⟨code, reserved, high, low, rest, rfl⟩ := exists_cons₄ h.sized.header
  have clear : reserved = 0 := h.clear rfl
  rw [clear]
  rfl

end LinkMessage

namespace Hello

theorem WellFormed.lenient {strict : Bool} {b : Octets} (h : WellFormed strict b) :
    WellFormed false b := by
  obtain ⟨records, splits⟩ := h.links
  exact ⟨h.fixed, nofun, records, splits.mono fun _ => LinkMessage.IsRecord.lenient⟩

theorem WellFormed.clearReserved_eq {b : Octets} (h : WellFormed true b) : clearReserved b = b := by
  obtain ⟨records, splits⟩ := h.links
  have links := splits.flatMap_eq fun _ => LinkMessage.IsRecord.clearReserved_eq
  rw [LinkMessage.records_eq_pieces splits] at links
  have clear := h.clear rfl
  obtain ⟨p, q, time, willingness, rest, rfl⟩ := exists_cons₄ h.fixed
  obtain ⟨rfl, rfl⟩ := word16_eq_zero clear
  rw [clearReserved, links]
  rfl

end Hello

namespace Tc

theorem WellFormed.lenient {strict : Bool} {b : Octets} (h : WellFormed strict b) :
    WellFormed false b :=
  ⟨h.fixed, h.aligned, nofun⟩

theorem WellFormed.clearReserved_eq {b : Octets} (h : WellFormed true b) : clearReserved b = b := by
  have clear := h.clear rfl
  obtain ⟨p, q, r, s, rest, rfl⟩ := exists_cons₄ h.fixed
  obtain ⟨rfl, rfl⟩ := word16_eq_zero clear
  rfl

end Tc

namespace Body

theorem WellFormed.lenient {strict : Bool} {typeByte : UInt8} {b : Octets}
    (h : WellFormed strict typeByte b) : WellFormed false typeByte b := by
  unfold WellFormed at h ⊢
  match MessageType.ofByte? typeByte, h with
  | some .hello, h => exact Hello.WellFormed.lenient h
  | some .tc, h => exact Tc.WellFormed.lenient h
  | some .mid, h | some .hna, h | none, h => exact h

theorem WellFormed.clearReserved_eq {typeByte : UInt8} {b : Octets}
    (h : WellFormed true typeByte b) : clearReserved typeByte b = b := by
  unfold WellFormed at h
  unfold clearReserved
  match MessageType.ofByte? typeByte, h with
  | some .hello, h => exact Hello.WellFormed.clearReserved_eq h
  | some .tc, h => exact Tc.WellFormed.clearReserved_eq h
  | some .mid, _ | some .hna, _ | none, _ => rfl

end Body

namespace Message

theorem IsFrame.lenient {strict : Bool} {f : Octets} (h : IsFrame strict f) : IsFrame false f :=
  ⟨h.header, h.declared, h.body.lenient⟩

theorem IsFrame.clearReserved_eq {f : Octets} (h : IsFrame true f) : clearReserved f = f := by
  rw [clearReserved, h.body.clearReserved_eq, List.take_append_drop]

/-- A frame is strict if it is the encoding of its message. -/
theorem isFrame_iff {strict : Bool} {f : Octets} :
    IsFrame strict f ↔ IsFrame false f ∧ (strict = false ∨ (ofFrame f).encode = f) := by
  constructor
  · intro h
    refine ⟨h.lenient, ?_⟩
    cases strict with
    | false => exact .inl rfl
    | true => exact .inr ((encode_ofFrame h).trans h.clearReserved_eq)
  · rintro ⟨h, rfl | same⟩
    · exact h
    -- An encoding is strict, whatever its value was read from.
    · rw [← same]
      exact isFrame_encode (isTyped_ofFrame f) (encodedLength_le h) strict

end Message

namespace Packet

theorem IsFrame.lenient {strict : Bool} {w : Octets} (h : IsFrame strict w) : IsFrame false w := by
  obtain ⟨frames, splits⟩ := h.messages
  exact ⟨h.header, h.declared, frames, splits.mono fun _ => Message.IsFrame.lenient⟩

theorem IsFrame.clearReserved_eq {w : Octets} (h : IsFrame true w) : clearReserved w = w := by
  obtain ⟨frames, splits⟩ := h.messages
  have messages := splits.flatMap_eq fun _ => Message.IsFrame.clearReserved_eq
  rw [Message.frames_eq_pieces splits] at messages
  rw [clearReserved, messages, List.take_append_drop]

theorem isFrame_iff {strict : Bool} {w : Octets} :
    IsFrame strict w ↔ IsFrame false w ∧ (strict = false ∨ (ofFrame w).encode = w) := by
  constructor
  · intro h
    refine ⟨h.lenient, ?_⟩
    cases strict with
    | false => exact .inl rfl
    | true => exact .inr ((encode_ofFrame h).trans h.clearReserved_eq)
  · rintro ⟨h, rfl | same⟩
    · exact h
    -- An encoding is strict, whatever its value was read from.
    · rw [← same]
      exact isFrame_encode (encodedLength_le h) (isTyped_ofFrame w) strict

theorem length_ofFrame {strict : Bool} {w : Octets} (h : IsFrame strict w) :
    (ofFrame w).length.toNat = w.length := by
  rw [length_toNat (encodedLength_le h), encodedLength_ofFrame h]

theorem decode_gives_iff_lenient {policy : Policy} {b rest : Octets} {p : Packet} :
    (decode policy b).Gives p rest ↔
      (decode .lenient b).Gives p rest ∧ p.length.toNat ≤ policy.maxPacketLength ∧
        (policy.strictReserved = false ∨ b = p.encode ++ rest) := by
  rw [decode_gives_iff, decode_gives_iff]
  constructor
  · rintro ⟨w, rfl, frame, capped, rfl⟩
    obtain ⟨lenient, same⟩ := isFrame_iff.mp frame
    have fits : w.length ≤ maxMessageSize := encodedLength_ofFrame frame ▸ encodedLength_le frame
    refine ⟨⟨w, rfl, lenient, fits, rfl⟩, ?_, ?_⟩
    · rwa [length_ofFrame frame]
    · exact same.imp_right fun same => by rw [same]
  · rintro ⟨⟨w, rfl, lenient, -, rfl⟩, capped, same⟩
    rw [length_ofFrame lenient] at capped
    have same := same.imp_right fun same => (List.append_cancel_right same).symm
    exact ⟨w, rfl, isFrame_iff.mpr ⟨lenient, same⟩, capped, rfl⟩

end Packet

theorem Message.decode_gives_iff_lenient {policy : Policy} {b rest : Octets} {m : Message} :
    (decode policy b).Gives m rest ↔
      (decode .lenient b).Gives m rest ∧
        (policy.strictReserved = false ∨ b = m.encode ++ rest) := by
  rw [decode_gives_iff, decode_gives_iff]
  constructor
  · rintro ⟨f, rfl, frame, rfl⟩
    obtain ⟨lenient, same⟩ := isFrame_iff.mp frame
    exact ⟨⟨f, rfl, lenient, rfl⟩, same.imp_right fun same => by rw [same]⟩
  · rintro ⟨⟨f, rfl, lenient, rfl⟩, same⟩
    have same := same.imp_right fun same => (List.append_cancel_right same).symm
    exact ⟨f, rfl, isFrame_iff.mpr ⟨lenient, same⟩, rfl⟩

section

variable {policy other : Policy} (same : policy.strictReserved = other.strictReserved)

include same

theorem LinkMessage.reader_congr : reader policy = reader other := by
  unfold reader Cursor.checkReserved
  rw [same]

theorem LinkMessage.run_congr (b : Octets) :
    run policy b.length 0 b = run other b.length 0 b := by
  have item : item policy = item other := by
    unfold LinkMessage.item
    rw [reader_congr same]
  rw [run_eq_toEnd (Nat.zero_add _), run_eq_toEnd (Nat.zero_add _)]
  simp only [item]

theorem Hello.reader_congr : reader policy = reader other := by
  funext b
  rw [reader_apply, reader_apply, same, LinkMessage.run_congr same]

theorem Tc.reader_congr : reader policy = reader other := by
  funext b
  rw [reader_apply, reader_apply, same]

theorem Body.decode_congr : decode policy = decode other := by
  unfold decode reader
  rw [Hello.reader_congr same, Tc.reader_congr same]

theorem Message.decode_congr : decode policy = decode other := by
  unfold decode read
  rw [Body.decode_congr same]

end

theorem Message.read_unread (policy : Policy) (b : Octets) :
    (read policy b).unread =
      if b.length < 12 then b
      else if (word16At b 2).toNat < 12 then b.drop 12
      else if b.length < (word16At b 2).toNat then b.drop 12
      else b.drop (word16At b 2).toNat := by
  rw [read_apply]
  simp only [apply_ite Reading.unread]

theorem Message.decode_unread (policy : Policy) (b : Octets) :
    (decode policy b).unread =
      if b.length < 12 then b
      else if (word16At b 2).toNat < 12 then b.drop 12
      else if b.length < (word16At b 2).toNat then b.drop 12
      else b.drop (word16At b 2).toNat := by
  rw [decode, Reading.report_unread, read_unread]

theorem Packet.decode_unread (policy : Policy) (b : Octets) :
    (decode policy b).unread =
      if b.length < 4 then b
      else if (word16At b 0).toNat < 4 then b.drop 4
      else if policy.maxPacketLength < (word16At b 0).toNat then b.drop 4
      else if b.length < (word16At b 0).toNat then b.drop 4
      else b.drop (word16At b 0).toNat := by
  rw [decode, Reading.report_unread, read_apply]
  simp only [apply_ite Reading.unread]

/-- What a policy takes is what the lenient one takes of packets within the cap, as far as the
strict one finds the encoding of the result. Messages know no cap, and strictness leaves the same
octets behind, also after a refusal. -/
theorem policies_only_restrict (policy : Policy) (b : Octets) :
    (∀ p rest, (Packet.decode policy b).Gives p rest ↔
      (Packet.decode .lenient b).Gives p rest ∧ p.length.toNat ≤ policy.maxPacketLength ∧
        (policy.strictReserved = false ∨ b = p.encode ++ rest)) ∧
    (∀ m rest, (Message.decode policy b).Gives m rest ↔
      (Message.decode .lenient b).Gives m rest ∧
        (policy.strictReserved = false ∨ b = m.encode ++ rest)) ∧
    (∀ cap, Message.decode { policy with maxPacketLength := cap } b = Message.decode policy b) ∧
    ∀ strict,
      (Packet.decode { policy with strictReserved := strict } b).unread =
        (Packet.decode policy b).unread ∧
      (Message.decode { policy with strictReserved := strict } b).unread =
        (Message.decode policy b).unread := by
  refine ⟨fun _ _ => Packet.decode_gives_iff_lenient, fun _ _ => Message.decode_gives_iff_lenient,
    fun cap => ?_, fun strict => ⟨?_, ?_⟩⟩
  · have same : { policy with maxPacketLength := cap }.strictReserved = policy.strictReserved := rfl
    rw [Message.decode_congr same]
  · rw [Packet.decode_unread, Packet.decode_unread]
  · rw [Message.decode_unread, Message.decode_unread]

end Olsr
