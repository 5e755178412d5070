import Olsr.Proofs.Acceptance
import Olsr.Proofs.Sizes
import Olsr.Proofs.DurationCoding

/-!
Encoding and then decoding. Whatever fits into the size fields comes back, except that durations
move to the grid of compact times. An opaque body comes back only if its type byte names no
interpreted type, for the type byte alone decides how a body is read.
-/

namespace Olsr

open Octets

/-- The value after a trip through the wire. -/
def Duration.quantized (d : Duration) : Duration :=
  CompactTime.decodeDuration (CompactTime.encodeDuration d)

def Hello.quantized (h : Hello) : Hello := { h with interval := h.interval.quantized }

def Body.quantized : Body → Body
  | hello h => hello h.quantized
  | b => b

def Message.quantized (m : Message) : Message :=
  { m with body := m.body.quantized, validity := m.validity.quantized }

def Packet.quantized (p : Packet) : Packet :=
  { p with messages := p.messages.map Message.quantized }

/-- An opaque body does not pose as one of the interpreted types. -/
def Body.IsTyped : Body → Prop
  | unknown o => MessageType.ofByte? o.typeByte = none
  | _ => True

instance : DecidablePred Body.IsTyped
  | .unknown o => inferInstanceAs (Decidable (MessageType.ofByte? o.typeByte = none))
  | .hello _ | .tc _ | .mid _ | .hna _ => isTrue trivial

theorem Octets.splits_flatMap {α : Type} {P : Octets → Prop} {f : α → Octets} {xs : List α}
    (h : ∀ x ∈ xs, P (f x)) : Splits P (xs.flatMap f) (xs.map f) := by
  refine ⟨(List.flatMap_def ..).symm, fun y hy => ?_⟩
  obtain ⟨x, hx, rfl⟩ := List.mem_map.mp hy
  exact h x hx

namespace LinkMessage

variable {l : LinkMessage}

theorem word16At_encode (l : LinkMessage) : word16At l.encode 2 = l.size :=
  word16_ofWord16 l.size

theorem isRecord_encode (fits : l.encodedLength ≤ maxMessageSize) (strict : Bool) :
    IsRecord strict l.encode := by
  have length : l.encode.length = 4 + 4 * l.neighborAddresses.length := l.encode_length
  refine ⟨⟨by omega, ?_⟩, by omega, fun _ => rfl⟩
  rw [word16At_encode, size_toNat fits, encode_length]

theorem ofRecord_encode (l : LinkMessage) : ofRecord l.encode = l := by
  change LinkMessage.mk ⟨l.linkCode.byte⟩
    (Address.listOf (Address.encodeAll l.neighborAddresses)) = l
  rw [Address.listOf_encodeAll]

end LinkMessage

namespace Hello

variable {h : Hello}

theorem splits_encode (fits : h.encodedLength ≤ maxMessageSize) (strict : Bool) :
    Splits (LinkMessage.IsRecord strict) (h.encode.drop 4)
      (h.linkMessages.map LinkMessage.encode) := by
  refine splits_flatMap fun l member => LinkMessage.isRecord_encode ?_ strict
  exact Nat.le_trans (encodedLength_of_mem member) fits

theorem wellFormed_encode (fits : h.encodedLength ≤ maxMessageSize) (strict : Bool) :
    WellFormed strict h.encode :=
  ⟨by simp [encode], fun _ => rfl, _, splits_encode fits strict⟩

theorem ofOctets_encode (fits : h.encodedLength ≤ maxMessageSize) :
    ofOctets h.encode = h.quantized := by
  have cut := LinkMessage.records_eq_pieces (splits_encode fits true)
  have links : (h.linkMessages.map LinkMessage.encode).map LinkMessage.ofRecord =
      h.linkMessages := by
    rw [List.map_map]
    exact List.map_id'' LinkMessage.ofRecord_encode h.linkMessages
  have interval : octetAt h.encode 2 = CompactTime.encodeDuration h.interval := by simp [encode]
  have willingness : octetAt h.encode 3 = h.willingness.byte := rfl
  rw [ofOctets, ← cut, links, interval, willingness, quantized, Duration.quantized]

end Hello

namespace Tc

theorem wellFormed_encode (t : Tc) (strict : Bool) : WellFormed strict t.encode := by
  have length : t.encode.length = 4 + 4 * t.neighborAddresses.length := t.encode_length
  exact ⟨by omega, by omega, fun _ => rfl⟩

theorem ofOctets_encode (t : Tc) : ofOctets t.encode = t := by
  change Tc.mk (word16 _ _) (Address.listOf (Address.encodeAll t.neighborAddresses)) = t
  rw [Address.listOf_encodeAll]
  exact congrArg (Tc.mk · t.neighborAddresses) (word16_ofWord16 t.ansn)

end Tc

namespace Body

variable {b : Body}

theorem wellFormed_encode (typed : b.IsTyped) (fits : b.encodedLength ≤ maxMessageSize)
    (strict : Bool) : WellFormed strict b.typeByte b.encode := by
  cases b with
  | hello h => exact h.wellFormed_encode fits strict
  | tc t => exact t.wellFormed_encode strict
  | mid m =>
    change 4 ∣ m.encode.length
    rw [m.encode_length]
    exact Nat.dvd_mul_right 4 _
  | hna h =>
    change 8 ∣ h.encode.length
    rw [h.encode_length]
    exact Nat.dvd_mul_right 8 _
  | unknown o =>
    have noType : MessageType.ofByte? o.typeByte = none := typed
    rw [WellFormed, typeByte, noType]
    trivial

theorem ofOctets_encode (typed : b.IsTyped) (fits : b.encodedLength ≤ maxMessageSize) :
    ofOctets b.typeByte b.encode = b.quantized := by
  cases b with
  | hello h => exact congrArg hello (Hello.ofOctets_encode fits)
  | tc t => exact congrArg tc t.ofOctets_encode
  | mid m => exact congrArg (mid ⟨·⟩) (Address.listOf_encodeAll m.interfaceAddresses)
  | hna h => exact congrArg (hna ⟨·⟩) (Association.listOf_flatMap h.associations)
  | unknown o =>
    have noType : MessageType.ofByte? o.typeByte = none := typed
    rw [ofOctets, typeByte, noType]
    rfl

end Body

namespace Message

variable {m : Message}

theorem word16At_encode (m : Message) : word16At m.encode 2 = sizeField m.encodedLength := by
  rw [encodedLength, ← m.body.encode_length]
  exact word16_ofWord16 _

theorem isFrame_encode (typed : m.body.IsTyped) (fits : m.encodedLength ≤ maxMessageSize)
    (strict : Bool) : IsFrame strict m.encode := by
  have length : m.encode.length = 12 + m.body.encodedLength := m.encode_length
  have body := Nat.le_trans m.body_encodedLength_le fits
  refine ⟨by omega, ?_, m.body.wellFormed_encode typed body strict⟩
  rw [word16At_encode, sizeField_toNat _ (Nat.lt_succ_of_le fits), encode_length]

theorem headerOf_encode (m : Message) :
    MessageHeader.ofOctets m.encode =
      { typeByte := m.typeByte
        validity := m.validity.quantized
        size := sizeField m.encodedLength
        originator := m.originator
        timeToLive := m.timeToLive
        hopCount := m.hopCount
        sequenceNumber := m.sequenceNumber } := by
  have validity : octetAt m.encode 1 = CompactTime.encodeDuration m.validity := by simp [encode]
  have sequenceNumber : word16At m.encode 10 = m.sequenceNumber := word16_ofWord16 _
  rw [MessageHeader.ofOctets, validity, word16At_encode, sequenceNumber, Duration.quantized]
  rfl

theorem ofFrame_encode (typed : m.body.IsTyped) (fits : m.encodedLength ≤ maxMessageSize) :
    ofFrame m.encode = m.quantized := by
  have body : Body.ofOctets m.typeByte m.body.encode = m.body.quantized :=
    Body.ofOctets_encode typed (Nat.le_trans m.body_encodedLength_le fits)
  have cut : m.encode.drop 12 = m.body.encode := rfl
  rw [ofFrame, headerOf_encode, cut]
  exact congrArg (MessageHeader.message _) body

end Message

namespace Packet

variable {p : Packet}

theorem splits_encode (fits : p.encodedLength ≤ maxMessageSize)
    (typed : ∀ m ∈ p.messages, m.body.IsTyped) (strict : Bool) :
    Splits (Message.IsFrame strict) (p.encode.drop 4) (p.messages.map Message.encode) := by
  refine splits_flatMap fun m member => Message.isFrame_encode (typed m member) ?_ strict
  exact Nat.le_trans (encodedLength_of_mem member) fits

theorem word16At_encode (p : Packet) : word16At p.encode 0 = sizeField p.encodedLength := by
  have length : p.encode.length =
      packetHeaderSize + (p.messages.flatMap Message.encode).length := by
    simp only [encode, packetHeaderSize, List.length_append, ofWord16_length]
  rw [← encode_length, length]
  exact word16_ofWord16 _

theorem isFrame_encode (fits : p.encodedLength ≤ maxMessageSize)
    (typed : ∀ m ∈ p.messages, m.body.IsTyped) (strict : Bool) : IsFrame strict p.encode := by
  refine ⟨?_, ?_, _, splits_encode fits typed strict⟩
  · rw [encode_length]
    exact Nat.le_add_right _ _
  · rw [word16At_encode, sizeField_toNat _ (Nat.lt_succ_of_le fits), encode_length]

theorem ofFrame_encode (fits : p.encodedLength ≤ maxMessageSize)
    (typed : ∀ m ∈ p.messages, m.body.IsTyped) : ofFrame p.encode = p.quantized := by
  have cut := Message.frames_eq_pieces (splits_encode fits typed true)
  have sequenceNumber : word16At p.encode 2 = p.sequenceNumber := word16_ofWord16 _
  have messages : (p.messages.map Message.encode).map Message.ofFrame =
      p.messages.map Message.quantized := by
    rw [List.map_map]
    refine List.map_congr_left fun m member => Message.ofFrame_encode (typed m member) ?_
    exact Nat.le_trans (encodedLength_of_mem member) fits
  rw [ofFrame, sequenceNumber, ← cut, messages, quantized]

/-- A packet that fits into its size fields, written in front of anything, comes back with its
durations on the grid, and what stood behind it is left. -/
theorem decode_encode {policy : Policy} (rest : Octets) (fits : p.encodedLength ≤ maxMessageSize)
    (typed : ∀ m ∈ p.messages, m.body.IsTyped)
    (capped : p.encodedLength ≤ policy.maxPacketLength) :
    (decode policy (p.encode ++ rest)).Gives p.quantized rest := by
  rw [decode_gives_iff]
  refine ⟨p.encode, rfl, isFrame_encode fits typed policy.strictReserved, ?_,
    (ofFrame_encode fits typed).symm⟩
  rwa [encode_length]

/-- Link messages with one code stay apart, and one without neighbors stays. -/
theorem decode_encode_repeated_code :
    let hello : Hello := ⟨.ofSeconds 2, ⟨3⟩, [⟨⟨6⟩, []⟩, ⟨⟨6⟩, [.unspecified]⟩]⟩
    let p : Packet := ⟨7, [{ body := .hello hello }, { body := .unknown ⟨9, [1, 2, 3]⟩ }]⟩
    (decode .strict (p.encode ++ [4, 5])).Gives p.quantized [4, 5] :=
  decode_encode [4, 5] (by decide) (by decide) (by decide)

end Packet
end Olsr
