import Olsr.Proofs.Framing

/-!
The payload of a packet is read as the message decoder by itself would read it, used again and again
until nothing is left. So payloads can be put together: what has been read stays as it is, and the
first refusal is the refusal of the packet, in the same words wherever in the payload it arises. Only
an underrun may be lifted by octets that follow.
-/

namespace Olsr

open Octets

structure Drained where
  messages : List Message
  stop : Option Stop

/-- All messages, or the first refusal and none of them. -/
def Drained.whole (d : Drained) : Except Stop (List Message) :=
  match d.stop with
  | none => .ok d.messages
  | some stop => .error stop

namespace Message

variable {policy : Policy} {b : Octets} {m : Message}

theorem decode_shrinks (ok : (decode policy b).outcome = .ok m) :
    (decode policy b).unread.length < b.length := by
  rw [decode, Reading.report_outcome] at ok
  have := read_shrinks ok
  rw [decode, Reading.report_unread]
  simp only [messageHeaderSize] at this
  omega

def drain (policy : Policy) (b : Octets) : Drained :=
  if b.isEmpty then ⟨[], none⟩
  else match _h : (decode policy b).outcome with
    | .error stop => ⟨[], some stop⟩
    | .ok m =>
      let later := drain policy (decode policy b).unread
      ⟨m :: later.messages, later.stop⟩
termination_by b.length
decreasing_by exact decode_shrinks _h

theorem drain_of_ok (ok : (decode policy b).outcome = .ok m) :
    drain policy b = ⟨m :: (drain policy (decode policy b).unread).messages,
      (drain policy (decode policy b).unread).stop⟩ := by
  have shorter := decode_shrinks ok
  rw [drain, if_neg (by cases b <;> simp at shorter ⊢)]
  split
  · simp_all
  · simp_all

theorem drain_of_error {stop : Stop} (nonempty : b ≠ [])
    (stopped : (decode policy b).outcome = .error stop) : drain policy b = ⟨[], some stop⟩ := by
  rw [drain, if_neg (by simpa using nonempty)]
  split
  · simp_all
  · simp_all

theorem drain_append {a : Octets} (finished : (drain policy a).stop = none) (b : Octets) :
    drain policy (a ++ b) =
      ⟨(drain policy a).messages ++ (drain policy b).messages, (drain policy b).stop⟩ := by
  fun_induction drain policy a with
  | case1 a empty => rw [List.isEmpty_iff.mp empty, List.nil_append, List.nil_append]
  | case2 a nonempty stop stopped => cases finished
  | case3 a nonempty m decoded later ih =>
    have same := (governed policy).append_of_ok decoded b
    rw [drain_of_ok same.1, same.2, ih finished, List.cons_append]

/-- A refusal that no further octets lift stays the first one. -/
theorem drain_append_of_stop {a : Octets} {stop : Stop} (stopped : (drain policy a).stop = some stop)
    (lasting : ¬ stop.IsUnderrun) (b : Octets) : drain policy (a ++ b) = drain policy a := by
  fun_induction drain policy a with
  | case1 a empty => cases stopped
  | case2 a nonempty first refused =>
    cases stopped
    have same := (governed policy).outcome_append_of_error refused lasting b
    exact drain_of_error (by simp_all) same
  | case3 a nonempty m decoded later ih =>
    have same := (governed policy).append_of_ok decoded b
    rw [drain_of_ok same.1, same.2, ih stopped]

-- An underrun does not stay, since the octets that it wants may follow.
example :
    (drain .lenient [9, 0, 0, 13, 10, 0, 0, 1, 255, 0, 0, 1]).stop =
      some (.refused (.bufferUnderrun 1 0)) ∧
    (drain .lenient [9, 0, 0, 13, 10, 0, 0, 1, 255, 0, 0, 1, 5]).stop = none := by
  decide +kernel

end Message

namespace Packet

theorem messageRun_eq_drain (policy : Policy) (payload : Octets) :
    (messageRun policy payload).1 = (Message.drain policy payload).whole := by
  have item (b : Octets) : Message.item policy b = (Message.decode policy b).outcome.map
      fun m => (m, (Message.decode policy b).unread) := by
    rw [Message.item, Message.decode, Reading.report_outcome, Reading.report_unread]
  rw [messageRun_eq_toEnd]
  fun_induction Message.drain policy payload with
  | case1 b empty =>
    rw [List.isEmpty_iff.mp empty, Cursor.toEnd_nil]
    rfl
  | case2 b nonempty stop refused =>
    have first := item b
    rw [refused] at first
    exact Cursor.toEnd_of_error (by simpa using nonempty) first
  | case3 b nonempty m decoded later ih =>
    have first := item b
    rw [decoded] at first
    rw [Cursor.toEnd_of_ok first, ih]
    unfold Drained.whole
    cases later.stop <;> rfl

def enclose (sequenceNumber : UInt16) (payload : Octets) : Octets :=
  ofWord16 (sizeField (packetHeaderSize + payload.length)) ++ ofWord16 sequenceNumber ++ payload

def Admits (policy : Policy) (payload : Octets) : Prop :=
  packetHeaderSize + payload.length ≤ min maxMessageSize policy.maxPacketLength

variable {policy : Policy} {payload : Octets}

theorem delimited_enclose (admitted : Admits policy payload) (q : UInt16) :
    Delimited policy (enclose q payload) := by
  have fits : packetHeaderSize + payload.length ≤ maxMessageSize :=
    Nat.le_trans admitted (Nat.min_le_left ..)
  have count : (enclose q payload).length = packetHeaderSize + payload.length := by
    simp only [enclose, packetHeaderSize, List.length_append, ofWord16_length]
  refine ⟨?_, ?_, ?_⟩
  · rw [count]
    exact Nat.le_add_right ..
  · have first : word16At (enclose q payload) 0 = sizeField (packetHeaderSize + payload.length) :=
      word16_ofWord16 _
    rw [first, sizeField_toNat _ (Nat.lt_succ_of_le fits), count]
  · rw [count]
    exact Nat.le_trans admitted (Nat.min_le_right ..)

theorem decode_enclose (admitted : Admits policy payload) (q : UInt16) :
    (decode policy (enclose q payload)).outcome =
      (Message.drain policy payload).whole.map (Packet.mk q) := by
  have alone := read_delimited (delimited_enclose admitted q) []
  have second : word16At (enclose q payload) 2 = q := word16_ofWord16 q
  have content : (enclose q payload).drop 4 = payload := rfl
  rw [List.append_nil, second, content, messageRun_eq_drain] at alone
  rw [decode, Reading.report_outcome, alone]

end Packet

theorem Drained.whole_map_eq_ok_iff {d : Drained} {q : UInt16} {p : Packet} :
    d.whole.map (Packet.mk q) = .ok p ↔ d.stop = none ∧ p = ⟨q, d.messages⟩ := by
  obtain ⟨messages, _ | stop⟩ := d
  · simp [whole, Except.map, eq_comm]
  · simp [whole, Except.map]

theorem Drained.whole_map_eq_error_iff {d : Drained} {q : UInt16} {stop : Stop} :
    d.whole.map (Packet.mk q) = .error stop ↔ d.stop = some stop := by
  obtain ⟨messages, _ | stop⟩ := d
  · simp [whole, Except.map]
  · simp [whole, Except.map]

/-- Two payloads, one after the other. If the first is good, the answer on both is that on the second
with the messages of the first in front, and a lasting refusal in the first is the refusal of both.
On each payload the answer is what the message decoder finds in it. -/
theorem Packet.payloads_compose {policy : Policy} {a b : Octets} (q : UInt16)
    (fits : packetHeaderSize + a.length + b.length ≤ min maxMessageSize policy.maxPacketLength) :
    let answer := fun payload => (decode policy (enclose q payload)).outcome
    (∀ p, answer a = .ok p →
      (∀ p', answer b = .ok p' → answer (a ++ b) = .ok ⟨q, p.messages ++ p'.messages⟩) ∧
      ∀ stop, answer b = .error stop → answer (a ++ b) = .error stop) ∧
    (∀ stop, answer a = .error stop → ¬ stop.IsUnderrun → answer (a ++ b) = .error stop) ∧
    ∀ x, Admits policy x → answer x = (Message.drain policy x).whole.map (Packet.mk q) := by
  have first : Admits policy a := Nat.le_trans (Nat.le_add_right ..) fits
  have second : Admits policy b := by
    unfold Admits
    omega
  have both : Admits policy (a ++ b) := by
    unfold Admits
    rwa [List.length_append, ← Nat.add_assoc]
  intro answer
  simp only [answer, decode_enclose first, decode_enclose second, decode_enclose both,
    Drained.whole_map_eq_ok_iff, Drained.whole_map_eq_error_iff]
  refine ⟨fun p ⟨finished, e⟩ => ?_, fun stop stopped lasting => ?_, fun x => (decode_enclose · q)⟩
  · rw [e, Message.drain_append finished]
    refine ⟨fun p' ⟨finished', e'⟩ => ?_, fun stop stopped => stopped⟩
    rw [e']
    exact ⟨finished', rfl⟩
  · rw [Message.drain_append_of_stop stopped lasting]
    exact stopped

theorem tc_refused_behind_foreign :
    let foreign : Octets := [9, 0, 0, 13, 10, 0, 0, 1, 255, 0, 0, 1, 5]
    let short : Octets := [3, 0, 0, 14, 10, 0, 0, 2, 255, 0, 0, 1, 0, 7]
    (Packet.decode .strict (Packet.enclose 1 foreign)).outcome.isOk ∧
      (Packet.decode .strict (Packet.enclose 1 (foreign ++ short))).outcome =
        .error (.refused (.malformedLength .tcBody 2 .belowFixedFields)) := by
  intro foreign short
  have accepted : (Packet.decode .strict (Packet.enclose 1 foreign)).outcome =
      .ok (Packet.ofFrame (Packet.enclose 1 foreign)) := by
    decide +kernel
  have refused : (Packet.decode .strict (Packet.enclose 1 short)).outcome =
      .error (.refused (.malformedLength .tcBody 2 .belowFixedFields)) := by
    decide +kernel
  refine ⟨by rw [accepted]; rfl, ?_⟩
  exact ((Packet.payloads_compose 1 (by decide)).1 _ accepted).2 _ refused

end Olsr
