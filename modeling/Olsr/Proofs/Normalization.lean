import Olsr.Proofs.RoundTrip

/-!
Decoding and then encoding. The octets come back with their reserved fields set to zero and
otherwise as they were: a size field on the wire is the length it is recomputed from, and a time
octet survives as a duration.
-/

namespace Olsr

open Octets

/-- A 16-bit number that is the length of something is what the length is written as. -/
theorem Octets.ofWord16_sizeField {b : Octets} {n i : Nat} (h : n = (word16At b i).toNat) :
    ofWord16 (sizeField n) = [octetAt b i, octetAt b (i + 1)] := by
  rw [h, sizeField, UInt16.ofNat_toNat, word16At, ofWord16_word16]

theorem Duration.quantized_decodeDuration (b : UInt8) :
    (CompactTime.decodeDuration b).quantized = CompactTime.decodeDuration b := by
  rw [quantized, CompactTime.encodeDuration_decodeDuration]

namespace LinkMessage

def clearReserved (r : Octets) : Octets := r.set 1 0

theorem clearReserved_length (r : Octets) : (clearReserved r).length = r.length :=
  List.length_set

theorem encode_ofRecord {strict : Bool} {r : Octets} (h : IsRecord strict r) :
    (ofRecord r).encode = clearReserved r := by
  obtain ⟨code, reserved, high, low, rest, rfl⟩ := exists_cons₄ h.sized.header
  have aligned : 4 ∣ rest.length := by
    have := h.aligned
    simp only [List.length_cons] at this
    omega
  have addresses : Address.encodeAll (Address.listOf rest) = rest :=
    Address.encodeAll_listOf aligned
  -- The size is computed from the number of addresses, and they fill what was declared.
  have length : (ofRecord (code :: reserved :: high :: low :: rest)).encodedLength =
      (word16At (code :: reserved :: high :: low :: rest) 2).toNat := by
    have count := Address.encodeAll_length (Address.listOf rest)
    rw [addresses] at count
    rw [← h.sized.declared, encodedLength, linkHeaderSize]
    change 4 + 4 * (Address.listOf rest).length = rest.length + 4
    omega
  rw [encode, size, ofWord16_sizeField length]
  change code :: 0 :: [high, low] ++ Address.encodeAll (Address.listOf rest) = _
  rw [addresses]
  rfl

end LinkMessage

namespace Hello

def clearReserved (b : Octets) : Octets :=
  ((b.take 4).set 0 0).set 1 0 ++ (pieces (b.drop 4)).flatMap LinkMessage.clearReserved

theorem clearReserved_length (b : Octets) : (clearReserved b).length = b.length := by
  rw [clearReserved, List.length_append, List.length_set, List.length_set,
    length_flatMap_pieces LinkMessage.clearReserved_length, ← List.length_append,
    List.take_append_drop]

theorem encode_ofOctets {strict : Bool} {b : Octets} (h : WellFormed strict b) :
    (ofOctets b).encode = clearReserved b := by
  obtain ⟨p, q, time, willingness, rest, rfl⟩ := exists_cons₄ h.fixed
  obtain ⟨records, splits⟩ := h.links
  have cut := LinkMessage.records_eq_pieces splits
  have links := splits.flatMap_congr fun _ => LinkMessage.encode_ofRecord
  rw [cut] at links
  rw [encode, ofOctets, links, CompactTime.encodeDuration_decodeDuration]
  simp only [octetAt_cons_zero, octetAt_cons_succ]
  rfl

theorem quantized_ofOctets (b : Octets) : (ofOctets b).quantized = ofOctets b := by
  rw [quantized, ofOctets, Duration.quantized_decodeDuration]

end Hello

namespace Tc

def clearReserved (b : Octets) : Octets := (b.set 2 0).set 3 0

theorem clearReserved_length (b : Octets) : (clearReserved b).length = b.length := by
  rw [clearReserved, List.length_set, List.length_set]

theorem encode_ofOctets {strict : Bool} {b : Octets} (h : WellFormed strict b) :
    (ofOctets b).encode = clearReserved b := by
  obtain ⟨p, q, r, s, rest, rfl⟩ := exists_cons₄ h.fixed
  have aligned : 4 ∣ rest.length := by
    have := h.aligned
    simp only [List.length_cons] at this
    omega
  change ofWord16 (word16 p q) ++ 0 :: 0 :: Address.encodeAll (Address.listOf rest) = _
  rw [ofWord16_word16, Address.encodeAll_listOf aligned]
  rfl

end Tc

namespace Body

def clearReserved (typeByte : UInt8) (b : Octets) : Octets :=
  match MessageType.ofByte? typeByte with
  | some .hello => Hello.clearReserved b
  | some .tc => Tc.clearReserved b
  | _ => b

theorem clearReserved_length (typeByte : UInt8) (b : Octets) :
    (clearReserved typeByte b).length = b.length := by
  unfold clearReserved
  split
  · exact Hello.clearReserved_length b
  · exact Tc.clearReserved_length b
  · rfl

theorem encode_ofOctets {strict : Bool} {typeByte : UInt8} {b : Octets}
    (h : WellFormed strict typeByte b) :
    (ofOctets typeByte b).encode = clearReserved typeByte b := by
  unfold WellFormed at h
  unfold ofOctets clearReserved
  match MessageType.ofByte? typeByte, h with
  | some .hello, h => exact Hello.encode_ofOctets h
  | some .tc, h => exact Tc.encode_ofOctets h
  | some .mid, h => exact Address.encodeAll_listOf h
  | some .hna, h => exact Association.flatMap_listOf h
  | none, _ => rfl

theorem typeByte_ofOctets (typeByte : UInt8) (b : Octets) :
    (ofOctets typeByte b).typeByte = typeByte := by
  unfold ofOctets
  split
  · exact MessageType.byte_of_ofByte? ‹_›
  · exact MessageType.byte_of_ofByte? ‹_›
  · exact MessageType.byte_of_ofByte? ‹_›
  · exact MessageType.byte_of_ofByte? ‹_›
  · rfl

theorem isTyped_ofOctets (typeByte : UInt8) (b : Octets) : (ofOctets typeByte b).IsTyped := by
  unfold ofOctets
  split <;> trivial

theorem quantized_ofOctets (typeByte : UInt8) (b : Octets) :
    (ofOctets typeByte b).quantized = ofOctets typeByte b := by
  unfold ofOctets
  match MessageType.ofByte? typeByte with
  | some .hello => exact congrArg hello (Hello.quantized_ofOctets b)
  | some .tc | some .mid | some .hna | none => rfl

end Body

namespace Message

variable {strict : Bool} {f : Octets}

def clearReserved (f : Octets) : Octets :=
  f.take 12 ++ Body.clearReserved (octetAt f 0) (f.drop 12)

theorem clearReserved_length (f : Octets) : (clearReserved f).length = f.length := by
  rw [clearReserved, List.length_append, Body.clearReserved_length, ← List.length_append,
    List.take_append_drop]

theorem encode_ofFrame (h : IsFrame strict f) : (ofFrame f).encode = clearReserved f := by
  have body := Body.encode_ofOctets h.body
  have length : messageHeaderSize + (ofFrame f).body.encode.length = (word16At f 2).toNat := by
    have header := h.header
    change 12 + (Body.ofOctets (octetAt f 0) (f.drop 12)).encode.length = _
    rw [body, Body.clearReserved_length, List.length_drop, ← h.declared]
    omega
  have type : (ofFrame f).typeByte = octetAt f 0 := Body.typeByte_ofOctets _ _
  have validity : CompactTime.encodeDuration (ofFrame f).validity = octetAt f 1 :=
    CompactTime.encodeDuration_decodeDuration _
  have sequenceNumber : ofWord16 (ofFrame f).sequenceNumber = [octetAt f 10, octetAt f 11] :=
    ofWord16_word16 _ _
  have header : f.take 12 =
      [octetAt f 0, octetAt f 1, octetAt f 2, octetAt f 3] ++ (ofFrame f).originator.octets ++
        [(ofFrame f).timeToLive, (ofFrame f).hopCount, octetAt f 10, octetAt f 11] := by
    obtain ⟨_, _, _, _, _, _, _, _, _, _, _, _, rest, rfl⟩ := exists_cons₁₂ h.header
    rfl
  rw [encode, type, validity, ofWord16_sizeField length, sequenceNumber, clearReserved, ← body,
    header]
  rfl

theorem isTyped_ofFrame (f : Octets) : (ofFrame f).body.IsTyped := Body.isTyped_ofOctets _ _

theorem quantized_ofFrame (f : Octets) : (ofFrame f).quantized = ofFrame f := by
  change Message.mk (Body.ofOctets _ _).quantized (CompactTime.decodeDuration _).quantized
    _ _ _ _ = _
  rw [Body.quantized_ofOctets, Duration.quantized_decodeDuration]
  rfl

theorem encodedLength_ofFrame (h : IsFrame strict f) : (ofFrame f).encodedLength = f.length := by
  rw [← encode_length, encode_ofFrame h, clearReserved_length]

theorem IsFrame.length_le (h : IsFrame strict f) : f.length ≤ maxMessageSize := by
  rw [h.declared]
  exact Nat.le_of_lt_succ (word16At f 2).toNat_lt

theorem encodedLength_le (h : IsFrame strict f) : (ofFrame f).encodedLength ≤ maxMessageSize := by
  rw [encodedLength_ofFrame h]
  exact h.length_le

theorem strict_decode_encode (h : IsFrame strict f) (cap : Nat) :
    (decode ⟨true, cap⟩ (ofFrame f).encode).Gives (ofFrame f) [] := by
  rw [decode_gives_iff]
  refine ⟨(ofFrame f).encode, (List.append_nil _).symm,
    isFrame_encode (isTyped_ofFrame f) (encodedLength_le h) true, ?_⟩
  rw [ofFrame_encode (isTyped_ofFrame f) (encodedLength_le h), quantized_ofFrame]

end Message

namespace Packet

variable {strict : Bool} {w : Octets}

def clearReserved (w : Octets) : Octets :=
  w.take 4 ++ (pieces (w.drop 4)).flatMap Message.clearReserved

theorem clearReserved_length (w : Octets) : (clearReserved w).length = w.length := by
  rw [clearReserved, List.length_append, length_flatMap_pieces Message.clearReserved_length,
    ← List.length_append, List.take_append_drop]

-- One HELLO with one link record: three reserved octets in two fields.
example : clearReserved
    [0, 24, 0, 1, 2, 0, 0, 20, 10, 0, 0, 1, 255, 0, 0, 7, 1, 2, 5, 3, 6, 9, 0, 4] =
    [0, 24, 0, 1, 2, 0, 0, 20, 10, 0, 0, 1, 255, 0, 0, 7, 0, 0, 5, 3, 6, 0, 0, 4] := by
  cbv

theorem encode_ofFrame (h : IsFrame strict w) : (ofFrame w).encode = clearReserved w := by
  obtain ⟨frames, splits⟩ := h.messages
  have messages := splits.flatMap_congr fun _ => Message.encode_ofFrame
  rw [Message.frames_eq_pieces splits] at messages
  have length : packetHeaderSize + ((ofFrame w).messages.flatMap Message.encode).length =
      (word16At w 0).toNat := by
    have header := h.header
    change 4 + (((pieces (w.drop 4)).map Message.ofFrame).flatMap Message.encode).length = _
    rw [messages, length_flatMap_pieces Message.clearReserved_length, List.length_drop,
      ← h.declared]
    omega
  have sequenceNumber : ofWord16 (ofFrame w).sequenceNumber = [octetAt w 2, octetAt w 3] :=
    ofWord16_word16 _ _
  have header : w.take 4 = [octetAt w 0, octetAt w 1] ++ [octetAt w 2, octetAt w 3] := by
    obtain ⟨_, _, _, _, rest, rfl⟩ := exists_cons₄ h.header
    rfl
  rw [encode, ofWord16_sizeField length, sequenceNumber, clearReserved, header, ← messages]
  rfl

theorem isTyped_ofFrame (w : Octets) : ∀ m ∈ (ofFrame w).messages, m.body.IsTyped := by
  intro m member
  obtain ⟨f, -, rfl⟩ := List.mem_map.mp member
  exact Message.isTyped_ofFrame f

theorem quantized_ofFrame (w : Octets) : (ofFrame w).quantized = ofFrame w := by
  have messages : ((pieces (w.drop 4)).map Message.ofFrame).map Message.quantized =
      (pieces (w.drop 4)).map Message.ofFrame := by
    rw [List.map_map]
    exact List.map_congr_left fun f _ => Message.quantized_ofFrame f
  exact congrArg (Packet.mk _) messages

theorem encodedLength_ofFrame (h : IsFrame strict w) : (ofFrame w).encodedLength = w.length := by
  rw [← encode_length, encode_ofFrame h, clearReserved_length]

theorem IsFrame.length_le (h : IsFrame strict w) : w.length ≤ maxMessageSize := by
  rw [h.declared]
  exact Nat.le_of_lt_succ (word16At w 0).toNat_lt

theorem encodedLength_le (h : IsFrame strict w) : (ofFrame w).encodedLength ≤ maxMessageSize := by
  rw [encodedLength_ofFrame h]
  exact h.length_le

theorem strict_decode_encode (h : IsFrame strict w) {cap : Nat} (capped : w.length ≤ cap) :
    (decode ⟨true, cap⟩ (ofFrame w).encode).Gives (ofFrame w) [] := by
  rw [decode_gives_iff]
  refine ⟨(ofFrame w).encode, (List.append_nil _).symm,
    isFrame_encode (encodedLength_le h) (isTyped_ofFrame w) true, ?_, ?_⟩
  · rwa [encode_length, encodedLength_ofFrame h]
  · rw [ofFrame_encode (encodedLength_le h) (isTyped_ofFrame w), quantized_ofFrame]

end Packet

/-- Whatever decodes is written again with its length and its octets, reserved fields apart, and
what is written decodes strictly to the same value, so writing it once more changes nothing. The
length is within the cap of the strict policy. -/
theorem reencoding_clears_reserved (policy : Policy) (b : Octets) :
    (∀ p, (Packet.decode policy b).outcome = .ok p →
      ∃ w, b = w ++ (Packet.decode policy b).unread ∧ w.length ≤ maxMessageSize ∧
        p.encode.length = w.length ∧
        p.encode = Packet.clearReserved w ∧ Packet.clearReserved p.encode = p.encode ∧
        ∀ cap, w.length ≤ cap → (Packet.decode ⟨true, cap⟩ p.encode).Gives p []) ∧
    ∀ m, (Message.decode policy b).outcome = .ok m →
      ∃ f, b = f ++ (Message.decode policy b).unread ∧ f.length ≤ maxMessageSize ∧
        m.encode.length = f.length ∧
        m.encode = Message.clearReserved f ∧ Message.clearReserved m.encode = m.encode ∧
        ∀ cap, (Message.decode ⟨true, cap⟩ m.encode).Gives m [] := by
  constructor
  · intro p ok
    obtain ⟨w, front, frame, -, rfl⟩ := Packet.decode_gives_iff.mp ⟨ok, rfl⟩
    have fits := Packet.encodedLength_le frame
    have typed := Packet.isTyped_ofFrame w
    have again := Packet.encode_ofFrame (Packet.isFrame_encode fits typed true)
    rw [Packet.ofFrame_encode fits typed, Packet.quantized_ofFrame] at again
    refine ⟨w, front, frame.length_le, ?_, Packet.encode_ofFrame frame, again.symm,
      fun cap capped => Packet.strict_decode_encode frame capped⟩
    rw [Packet.encode_length, Packet.encodedLength_ofFrame frame]
  · intro m ok
    obtain ⟨f, front, frame, rfl⟩ := Message.decode_gives_iff.mp ⟨ok, rfl⟩
    have fits := Message.encodedLength_le frame
    have typed := Message.isTyped_ofFrame f
    have again := Message.encode_ofFrame (Message.isFrame_encode typed fits true)
    rw [Message.ofFrame_encode typed fits, Message.quantized_ofFrame] at again
    refine ⟨f, front, frame.length_le, ?_, Message.encode_ofFrame frame, again.symm,
      fun cap => Message.strict_decode_encode frame cap⟩
    rw [Message.encode_length, Message.encodedLength_ofFrame frame]

end Olsr
