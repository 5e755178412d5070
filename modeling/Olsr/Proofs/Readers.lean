import Olsr.Proofs.Grammar

/-!
What each reader answers, by position: one equation a reader, with its refusals in the order in
which they are found. Nothing below opens a reader again.
-/

namespace Olsr

open Octets

namespace Cursor

variable {α β : Type}

@[simp] theorem bind_apply (x : Cursor α) (f : α → Cursor β) (b : Octets) :
    (x >>= f) b = (x b).bind fun p => f p.1 p.2 := rfl

@[simp] theorem pure_apply (x : α) (b : Octets) : (pure x : Cursor α) b = .ok (x, b) := rfl

@[simp] theorem map_apply (f : α → β) (x : Cursor α) (b : Octets) :
    (f <$> x) b = (x b).map fun p => (f p.1, p.2) := by
  change Except.bind _ _ = _
  cases x b <;> rfl

@[simp] theorem lift_apply (x : Except Stop α) (b : Octets) :
    (liftM x : Cursor α) b = x.map fun y => (y, b) := by
  cases x <;> rfl

@[simp] theorem ok_bind (x : α) (f : α → Except Stop β) : (Except.ok x).bind f = f x := rfl

@[simp] theorem error_bind (stop : Stop) (f : α → Except Stop β) :
    (Except.error stop).bind f = .error stop := rfl

@[simp] theorem refusal_bind (p : Prop) [Decidable p] (stop : Stop) (x : α)
    (f : α → Except Stop β) :
    (if p then .error stop else .ok x : Except Stop α).bind f = if p then .error stop else f x := by
  by_cases h : p <;> simp [h]

@[simp] theorem unread_apply (b : Octets) : unread b = .ok (b, b) := rfl

@[simp] theorem octet_cons (x : UInt8) (b : Octets) : octet (x :: b) = .ok (x, b) := rfl

@[simp] theorem word16_cons (high low : UInt8) (b : Octets) :
    Cursor.word16 (high :: low :: b) = .ok (Octets.word16 high low, b) := rfl

@[simp] theorem refuseIf_apply (cond : Bool) (error : DecodeError) (b : Octets) :
    refuseIf cond error b = if cond then .error (.refused error) else .ok ((), b) := by
  cases cond <;> rfl

@[simp] theorem checkReserved_apply (policy : Policy) (field : ReservedField) (n : Nat)
    (b : Octets) :
    checkReserved policy field n b =
      if policy.strictReserved ∧ n ≠ 0 then .error (.refused (.reservedNonZero field n))
      else .ok ((), b) := by
  by_cases strict : policy.strictReserved = true <;> by_cases zero : n = 0 <;>
    simp [checkReserved, strict, zero, refuse]

@[simp] theorem difference_apply {whole part : Nat} (h : part ≤ whole) (b : Octets) :
    difference whole part b = .ok (whole - part, b) := by
  rw [difference, if_pos h]

theorem block_apply (n : Nat) (b : Octets) :
    block n b =
      if n ≤ b.length then .ok (b.take n, b.drop n)
      else .error (.refused (.bufferUnderrun n b.length)) := by
  by_cases h : n ≤ b.length
  · simp [block, require, nextBlock, (holds_iff n b).mpr h, h]
  · have : b.holds n = false := by
      rw [← Bool.not_eq_true, holds_iff]
      exact h
    simp [block, require, this, h]

@[simp] theorem within_apply (b rest : Octets) (reader : Cursor α) :
    within b reader rest = (reader b).map fun p => (p.1, rest) := rfl

theorem toEnd_flatMap {item : Cursor α} (octets : α → Octets) (shrinks : Shrinks item)
    (reads : ∀ x rest, item (octets x ++ rest) = .ok (x, rest)) (xs : List α) :
    toEnd item shrinks (xs.flatMap octets) = .ok xs := by
  induction xs with
  | nil => exact toEnd_nil
  | cons x xs ih =>
    rw [List.flatMap_cons, toEnd_of_ok (reads x _), ih]
    rfl

theorem addressList_apply (field : LengthField) (b : Octets) :
    addressList field b =
      if 4 ∣ b.length then .ok (Address.listOf b, b)
      else .error (.refused (.malformedLength field b.length .partialAddress)) := by
  by_cases h : 4 ∣ b.length
  · have all : toEnd address address_shrinks b = .ok (Address.listOf b) := by
      have := toEnd_flatMap Address.octets address_shrinks (fun x rest => rfl) (Address.listOf b)
      rwa [← Address.encodeAll, Address.encodeAll_listOf h] at this
    simp [addressList, all, Nat.mod_eq_zero_of_dvd h, h, Except.map]
  · simp [addressList, mt Nat.dvd_of_mod_eq_zero h, h]

theorem requireFixedFields_apply (field : LengthField) (b : Octets) :
    requireFixedFields field b =
      if b.length < 4 then .error (.refused (.malformedLength field b.length .belowFixedFields))
      else .ok ((), b) := by
  unfold requireFixedFields fixedFieldsSize
  simp

end Cursor

theorem LinkMessage.reader_apply (policy : Policy) {declared consumed : Nat} {b : Octets}
    (left : consumed + b.length = declared) :
    reader policy declared consumed b =
      let size := (word16At b 2).toNat
      if b.length < 4 then
        .error (.refused (.malformedLength .helloBody (declared + 4) .trailingOctets))
      else if policy.strictReserved ∧ octetAt b 1 ≠ 0 then
        .error (.refused (.reservedNonZero .linkMessage (octetAt b 1).toNat))
      else if size < 4 then .error (.refused (.malformedLength .linkMessage size .belowLinkHeader))
      else if b.length < size then
        .error (.refused (.malformedLength .linkMessage size .overrunsHello))
      else if ¬ 4 ∣ size then
        .error (.refused (.malformedLength .linkMessage (size - 4) .partialAddress))
      else .ok ((ofRecord (b.take size), size), b.drop size) := by
  have start : Cursor.difference declared consumed b = .ok (b.length, b) := by
    rw [Cursor.difference_apply (by omega), ← left, Nat.add_sub_cancel_left]
  unfold reader linkHeaderSize fixedFieldsSize
  by_cases short : b.length < 4
  · simp [start, short]
  obtain ⟨code, reserved, high, low, rest, rfl⟩ := exists_cons₄ (Nat.le_of_not_lt short)
  have second : octetAt (code :: reserved :: high :: low :: rest) 1 = reserved := rfl
  have declares : word16At (code :: reserved :: high :: low :: rest) 2 = word16 high low := rfl
  simp only [start, Cursor.bind_apply, Cursor.ok_bind, Cursor.refuseIf_apply, Cursor.refusal_bind,
    Cursor.octet_cons, Cursor.checkReserved_apply, Cursor.word16_cons, Cursor.within_apply,
    Cursor.pure_apply, decide_eq_true_eq, ne_eq, octet_toNat_eq_zero, second, declares]
  generalize (word16 high low).toNat = size
  refine ite_congr rfl (fun _ => rfl) fun _ => ite_congr rfl (fun _ => rfl) fun _ =>
    ite_congr rfl (fun _ => rfl) fun least => ite_congr rfl (fun _ => rfl) fun fits => ?_
  -- From here on the header is off and `k` octets of addresses are there.
  obtain ⟨k, rfl⟩ := Nat.exists_eq_add_of_le' (Nat.le_of_not_lt least)
  have enough : k ≤ rest.length := by
    simp only [List.length_cons] at fits
    omega
  have same : 4 ∣ k + 4 ↔ 4 ∣ k := by omega
  by_cases aligned : 4 ∣ k <;>
    simp [Cursor.difference_apply, Cursor.block_apply, Cursor.addressList_apply, enough, same,
      aligned, Except.map, ofRecord, octetAt]

theorem Tc.reader_apply (policy : Policy) (b : Octets) :
    reader policy b =
      if b.length < 4 then
        .error (.refused (.malformedLength .tcBody b.length .belowFixedFields))
      else if policy.strictReserved ∧ word16At b 2 ≠ 0 then
        .error (.refused (.reservedNonZero .tc (word16At b 2).toNat))
      else if ¬ 4 ∣ b.length then
        .error (.refused (.malformedLength .tcNeighborList (b.length - 4) .partialAddress))
      else .ok (ofOctets b, b.drop 4) := by
  unfold reader
  by_cases short : b.length < 4
  · simp [Cursor.requireFixedFields_apply, short]
  obtain ⟨high, low, high', low', rest, rfl⟩ := exists_cons₄ (Nat.le_of_not_lt short)
  have same : 4 ∣ rest.length + 1 + 1 + 1 + 1 ↔ 4 ∣ rest.length := by omega
  by_cases aligned : 4 ∣ rest.length <;>
    simp [Cursor.requireFixedFields_apply, word_toNat_eq_zero, Cursor.addressList_apply, same,
      aligned, Except.map] <;> rfl

theorem Hello.reader_apply (policy : Policy) (b : Octets) :
    reader policy b =
      if b.length < 4 then
        .error (.refused (.malformedLength .helloBody b.length .belowFixedFields))
      else if policy.strictReserved ∧ word16At b 0 ≠ 0 then
        .error (.refused (.reservedNonZero .hello (word16At b 0).toNat))
      else (LinkMessage.run policy (b.drop 4).length 0 (b.drop 4)).map fun links =>
        (⟨CompactTime.decodeDuration (octetAt b 2), ⟨octetAt b 3⟩, links⟩, b.drop 4) := by
  unfold reader
  by_cases short : b.length < 4
  · simp [Cursor.requireFixedFields_apply, short]
  obtain ⟨high, low, interval, willingness, rest, rfl⟩ := exists_cons₄ (Nat.le_of_not_lt short)
  cases h : LinkMessage.run policy rest.length 0 rest <;>
    simp [Cursor.requireFixedFields_apply, word_toNat_eq_zero, h, Except.map] <;> rfl

theorem Mid.reader_apply (b : Octets) :
    reader b =
      if 4 ∣ b.length then .ok (⟨Address.listOf b⟩, b)
      else .error (.refused (.malformedLength .midBody b.length .partialAddress)) := by
  unfold reader
  by_cases aligned : 4 ∣ b.length <;> simp [Cursor.addressList_apply, aligned]

theorem Hna.reader_apply (b : Octets) :
    reader b =
      if 8 ∣ b.length then .ok (⟨Association.listOf b⟩, b)
      else .error (.refused (.malformedLength .hnaBody b.length .partialAssociation)) := by
  unfold reader
  by_cases aligned : 8 ∣ b.length
  · have all : Cursor.toEnd Association.reader Association.reader_shrinks b =
        .ok (Association.listOf b) := by
      have := Cursor.toEnd_flatMap Association.octets Association.reader_shrinks
        (fun x rest => rfl) (Association.listOf b)
      rwa [Association.flatMap_listOf aligned] at this
    simp [all, Nat.mod_eq_zero_of_dvd aligned, aligned, Except.map]
  · simp [mt Nat.dvd_of_mod_eq_zero aligned, aligned]

theorem MessageHeader.reader_apply (b : Octets) :
    reader b =
      if b.length < 12 then .error (.refused (.bufferUnderrun 12 b.length))
      else .ok (ofOctets b, b.drop 12) := by
  by_cases short : b.length < 12
  · have : b.holds 12 = false := by
      rw [← Bool.not_eq_true, holds_iff]
      omega
    simp [reader, messageHeaderSize, Cursor.require, this, short]
  obtain ⟨_, _, _, _, _, _, _, _, _, _, _, _, rest, rfl⟩ := exists_cons₁₂ (Nat.le_of_not_lt short)
  rw [if_neg short]
  rfl

theorem MessageHeader.bodyOctets_apply (h : MessageHeader) (b : Octets) :
    h.bodyOctets b =
      let size := h.size.toNat
      if size < 12 then .error (.refused (.malformedLength .message size .belowMessageHeader))
      else if b.length < size - 12 then
        .error (.refused (.bufferUnderrun (size - 12) b.length))
      else .ok (b.take (size - 12), b.drop (size - 12)) := by
  unfold bodyOctets messageHeaderSize
  simp only [Cursor.bind_apply, Cursor.refuseIf_apply, Cursor.refusal_bind, decide_eq_true_eq]
  refine ite_congr rfl (fun _ => rfl) fun least => ?_
  rw [Cursor.difference_apply (Nat.le_of_not_lt least), Cursor.ok_bind, Cursor.block_apply]
  by_cases enough : h.size.toNat - 12 ≤ b.length <;> simp [enough, Nat.lt_of_not_le]

/-- The events of a message whose octets were all there. -/
def Message.eventsOf (h : MessageHeader) : Except Stop Body → List Event
  | .ok (.unknown _) =>
    [.decodingMessage h.typeByte h.size h.originator h.sequenceNumber,
      .passingThrough h.typeByte h.size h.originator]
  | _ => [.decodingMessage h.typeByte h.size h.originator h.sequenceNumber]

theorem Message.read_apply (policy : Policy) (b : Octets) :
    read policy b =
      let size := (word16At b 2).toNat
      if b.length < 12 then ⟨.error (.refused (.bufferUnderrun 12 b.length)), b, []⟩
      else if size < 12 then
        ⟨.error (.refused (.malformedLength .message size .belowMessageHeader)), b.drop 12, []⟩
      else if b.length < size then
        ⟨.error (.refused (.bufferUnderrun (size - 12) (b.length - 12))), b.drop 12, []⟩
      else
        let body := Body.decode policy (octetAt b 0) ((b.take size).drop 12)
        ⟨body.map (MessageHeader.ofOctets b).message, b.drop size,
          eventsOf (MessageHeader.ofOctets b) body⟩ := by
  have declares : (MessageHeader.ofOctets b).size = word16At b 2 := rfl
  rw [read, MessageHeader.reader_apply]
  by_cases short : b.length < 12
  · simp [short]
  simp only [short, if_false, MessageHeader.bodyOctets_apply, declares, List.length_drop]
  generalize (word16At b 2).toNat = size
  by_cases least : size < 12
  · simp [least]
  by_cases beyond : b.length < size
  · have : b.length - 12 < size - 12 := by omega
    simp [least, beyond, this]
  have fits : ¬ b.length - 12 < size - 12 := by omega
  have rest : List.drop (size - 12) (List.drop 12 b) = List.drop size b := by
    rw [List.drop_drop]
    congr 1
    omega
  simp only [least, beyond, fits, if_false, rest, ← List.drop_take]
  have type : (MessageHeader.ofOctets b).typeByte = octetAt b 0 := rfl
  rw [type]
  cases Body.decode policy (octetAt b 0) ((b.take size).drop 12) with
  | error stop => rfl
  | ok body => cases body <;> rfl

theorem PacketHeader.reader_apply (b : Octets) :
    reader b =
      if b.length < 4 then .error (.refused (.bufferUnderrun 4 b.length))
      else .ok (⟨word16At b 0, word16At b 2⟩, b.drop 4) := by
  by_cases short : b.length < 4
  · have : b.holds 4 = false := by
      rw [← Bool.not_eq_true, holds_iff]
      omega
    simp [reader, packetHeaderSize, Cursor.require, this, short]
  obtain ⟨_, _, _, _, rest, rfl⟩ := exists_cons₄ (Nat.le_of_not_lt short)
  rw [if_neg short]
  rfl

theorem PacketHeader.payload_apply (policy : Policy) (h : PacketHeader) (b : Octets) :
    h.payload policy b =
      let length := h.length.toNat
      if length < 4 then
        .error (.refused (.malformedLength .packet length .belowPacketHeader))
      else if policy.maxPacketLength < length then
        .error (.refused (.malformedLength .packet length .aboveMaximum))
      else if b.length < length - 4 then
        .error (.refused (.bufferUnderrun (length - 4) b.length))
      else .ok (b.take (length - 4), b.drop (length - 4)) := by
  unfold payload packetHeaderSize
  simp only [Cursor.bind_apply, Cursor.refuseIf_apply, Cursor.refusal_bind, decide_eq_true_eq]
  refine ite_congr rfl (fun _ => rfl) fun least => ite_congr rfl (fun _ => rfl) fun _ => ?_
  rw [Cursor.difference_apply (Nat.le_of_not_lt least), Cursor.ok_bind, Cursor.block_apply]
  by_cases enough : h.length.toNat - 4 ≤ b.length <;> simp [enough, Nat.lt_of_not_le]

def Packet.eventsOf (h : PacketHeader) : Except Stop (List Message) → List Event
  | .ok messages => [.decodedPacket h.length h.sequenceNumber messages.length]
  | .error _ => []

theorem Packet.read_apply (policy : Policy) (b : Octets) :
    read policy b =
      let length := (word16At b 0).toNat
      if b.length < 4 then ⟨.error (.refused (.bufferUnderrun 4 b.length)), b, []⟩
      else if length < 4 then
        ⟨.error (.refused (.malformedLength .packet length .belowPacketHeader)), b.drop 4, []⟩
      else if policy.maxPacketLength < length then
        ⟨.error (.refused (.malformedLength .packet length .aboveMaximum)), b.drop 4, []⟩
      else if b.length < length then
        ⟨.error (.refused (.bufferUnderrun (length - 4) (b.length - 4))), b.drop 4, []⟩
      else
        let run := messageRun policy ((b.take length).drop 4)
        ⟨run.1.map fun messages => ⟨word16At b 2, messages⟩, b.drop length,
          run.2 ++ eventsOf ⟨word16At b 0, word16At b 2⟩ run.1⟩ := by
  rw [read, PacketHeader.reader_apply]
  by_cases short : b.length < 4
  · simp [short]
  simp only [short, if_false, PacketHeader.payload_apply, List.length_drop]
  generalize (word16At b 0).toNat = length
  by_cases least : length < 4
  · simp [least]
  by_cases above : policy.maxPacketLength < length
  · simp [least, above]
  by_cases beyond : b.length < length
  · have : b.length - 4 < length - 4 := by omega
    simp [least, above, beyond, this]
  have fits : ¬ b.length - 4 < length - 4 := by omega
  have rest : List.drop (length - 4) (List.drop 4 b) = List.drop length b := by
    rw [List.drop_drop]
    congr 1
    omega
  simp only [least, above, beyond, fits, if_false, rest, ← List.drop_take]
  rcases messageRun policy ((b.take length).drop 4) with ⟨_ | _, events⟩
  · simp [Except.map, eventsOf]
  · rfl

namespace Message

variable {f : Octets}

/-- Octets that are a message as far as their number goes. -/
structure Delimited (f : Octets) : Prop where
  header : messageHeaderSize ≤ f.length
  declared : f.length = (word16At f 2).toNat

theorem read_delimited (h : Delimited f) (policy : Policy) (rest : Octets) :
    read policy (f ++ rest) =
      ⟨(Body.decode policy (octetAt f 0) (f.drop 12)).map (MessageHeader.ofOctets f).message, rest,
        eventsOf (MessageHeader.ofOctets f) (Body.decode policy (octetAt f 0) (f.drop 12))⟩ := by
  have header : 12 ≤ f.length := h.header
  have size : (word16At (f ++ rest) 2).toNat = f.length := by
    rw [word16At_append (by omega), ← h.declared]
  have fields : MessageHeader.ofOctets (f ++ rest) = MessageHeader.ofOctets f := by
    simp (disch := omega) only [MessageHeader.ofOctets, octetAt_append, word16At_append]
  rw [read_apply, size, fields, octetAt_append (by omega)]
  simp only [List.length_append, List.take_left, List.drop_left]
  rw [if_neg (by omega), if_neg (by omega), if_neg (by omega)]

end Message

namespace Packet

variable {policy : Policy} {f : Octets}

structure Delimited (policy : Policy) (f : Octets) : Prop where
  header : packetHeaderSize ≤ f.length
  declared : f.length = (word16At f 0).toNat
  capped : f.length ≤ policy.maxPacketLength

theorem read_delimited (h : Delimited policy f) (rest : Octets) :
    read policy (f ++ rest) =
      ⟨(messageRun policy (f.drop 4)).1.map fun messages => ⟨word16At f 2, messages⟩, rest,
        (messageRun policy (f.drop 4)).2 ++
          eventsOf ⟨word16At f 0, word16At f 2⟩ (messageRun policy (f.drop 4)).1⟩ := by
  have header : 4 ≤ f.length := h.header
  have capped := h.capped
  have first : word16At (f ++ rest) 0 = word16At f 0 := word16At_append (by omega) rest
  have second : word16At (f ++ rest) 2 = word16At f 2 := word16At_append (by omega) rest
  rw [read_apply, first, second, ← h.declared]
  simp only [List.length_append, List.take_left, List.drop_left]
  rw [if_neg (by omega), if_neg (by omega), if_neg (by omega), if_neg (by omega)]

end Packet
end Olsr
