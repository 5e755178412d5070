import Mathlib.Tactic.Common
import Olsr.Proofs.Acceptance
import Olsr.Proofs.Streams

/-!
What one use of a decoder takes and what it looks at. A header of fixed size says how long the whole
is. That length and the number of octets at hand decide whether anything is made of the content; if
so, the decoder takes the whole, refused or not, and no octet behind it has a say.
-/

namespace Olsr

open Octets

def Stop.IsUnderrun : Stop → Prop
  | .refused (.bufferUnderrun _ _) => True
  | _ => False

def Reading.Refuses {α : Type} (r : Reading α) (error : DecodeError) (rest : Octets) : Prop :=
  r.outcome = .error (.refused error) ∧ r.unread = rest

/-- Where a header has the length of the whole, and which lengths it may have. -/
structure Framing where
  field : LengthField
  headerSize : Nat
  lengthAt : Nat
  belowHeader : LengthFault
  cap : Option Nat
  inHeader : lengthAt + 2 ≤ headerSize

namespace Framing

def packet (policy : Policy) : Framing where
  field := .packet
  headerSize := packetHeaderSize
  lengthAt := 0
  belowHeader := .belowPacketHeader
  cap := some policy.maxPacketLength
  inHeader := by decide

def message : Framing where
  field := .message
  headerSize := messageHeaderSize
  lengthAt := 2
  belowHeader := .belowMessageHeader
  cap := none
  inHeader := by decide

variable {α : Type} (f : Framing)

def length (b : Octets) : Nat := (word16At b f.lengthAt).toNat

/-- What is refused before the content is looked at, with the number of octets consumed by then. -/
def refusal? (b : Octets) : Option (DecodeError × Nat) :=
  let length := f.length b
  if b.length < f.headerSize then some (.bufferUnderrun f.headerSize b.length, 0)
  else if length < f.headerSize then
    some (.malformedLength f.field length f.belowHeader, f.headerSize)
  else if f.cap.any (· < length) then
    some (.malformedLength f.field length .aboveMaximum, f.headerSize)
  else if b.length < length then
    some (.bufferUnderrun (length - f.headerSize) (b.length - f.headerSize), f.headerSize)
  else none

structure Whole (b : Octets) : Prop where
  least : f.headerSize ≤ f.length b
  capped : ∀ cap ∈ f.cap, f.length b ≤ cap
  present : f.length b ≤ b.length

structure Exactly (w : Octets) : Prop where
  least : f.headerSize ≤ w.length
  declared : w.length = f.length w
  capped : ∀ cap ∈ f.cap, w.length ≤ cap

/-- The decoder refuses what the framing refuses, and else reads the whole as if it were alone. -/
structure Governs (decode : Octets → Reading α) : Prop where
  refuses {b : Octets} {error : DecodeError} {consumed : Nat} :
    f.refusal? b = some (error, consumed) → (decode b).Refuses error (b.drop consumed)
  takes {b : Octets} :
    f.Whole b → decode b = (decode (b.take (f.length b))).leaving (b.drop (f.length b))

variable {f} {b : Octets}

theorem any_cap_eq_false_iff {n : Nat} :
    f.cap.any (· < n) = false ↔ ∀ cap ∈ f.cap, n ≤ cap := by
  cases f.cap <;> simp

theorem refusal?_eq_none_iff : f.refusal? b = none ↔ f.Whole b := by
  unfold refusal?
  dsimp only
  constructor
  · intro accepted
    split_ifs at accepted with short below above cut
    exact ⟨by omega, any_cap_eq_false_iff.mp (Bool.not_eq_true _ ▸ above), by omega⟩
  · intro whole
    have least := whole.least
    have present := whole.present
    rw [if_neg (by omega), if_neg (by omega), any_cap_eq_false_iff.mpr whole.capped,
      if_neg Bool.false_ne_true, if_neg (by omega)]

theorem length_append (header : f.headerSize ≤ b.length) (x : Octets) :
    f.length (b ++ x) = f.length b := by
  have := f.inHeader
  rw [length, word16At_append (by omega), length]

theorem length_take {n : Nat} (header : f.headerSize ≤ n) (b : Octets) :
    f.length (b.take n) = f.length b := by
  have := f.inHeader
  rw [length, word16At_take (by omega), length]

theorem Whole.take (whole : f.Whole b) : f.Exactly (b.take (f.length b)) := by
  have count : (b.take (f.length b)).length = f.length b := List.length_take_of_le whole.present
  refine ⟨?_, ?_, ?_⟩
  · rw [count]
    exact whole.least
  · rw [count, length_take whole.least]
  · rw [count]
    exact whole.capped

theorem refusal?_append {error : DecodeError} {consumed : Nat}
    (refused : f.refusal? b = some (error, consumed))
    (lasting : ¬ (Stop.refused error).IsUnderrun) (x : Octets) :
    f.refusal? (b ++ x) = some (error, consumed) := by
  unfold refusal? at refused ⊢
  dsimp only at refused ⊢
  split_ifs at refused with short below above cut
  · cases refused
    exact absurd trivial lasting
  · rw [length_append (by omega), List.length_append, if_neg (by omega), if_pos below]
    exact refused
  · rw [length_append (by omega), List.length_append, if_neg (by omega), if_neg below, if_pos above]
    exact refused
  · cases refused
    exact absurd trivial lasting

theorem refusal?_take (whole : f.Whole b) {n : Nat} (cut : n < f.length b) :
    f.refusal? (b.take n) =
      if n < f.headerSize then some (.bufferUnderrun f.headerSize n, 0)
      else some (.bufferUnderrun (f.length b - f.headerSize) (n - f.headerSize), f.headerSize) := by
  have count : (b.take n).length = n := by
    rw [List.length_take]
    have := whole.present
    omega
  unfold refusal?
  rw [count]
  by_cases short : n < f.headerSize
  · rw [if_pos short, if_pos short]
  · have least := whole.least
    rw [if_neg short, if_neg short, length_take (by omega), if_neg (by omega),
      any_cap_eq_false_iff.mpr whole.capped, if_neg Bool.false_ne_true, if_pos cut]

namespace Governs

variable {decode : Octets → Reading α} (governs : f.Governs decode)

include governs

theorem unread (whole : f.Whole b) : (decode b).unread = b.drop (f.length b) := by
  rw [governs.takes whole, Reading.leaving]

theorem append (whole : f.Whole b) (x : Octets) :
    decode (b ++ x) = (decode b).leaving ((decode b).unread ++ x) := by
  have least := whole.least
  have present := whole.present
  have longer : f.length (b ++ x) = f.length b := length_append (by omega) x
  have still : f.Whole (b ++ x) := by
    refine ⟨by omega, ?_, ?_⟩
    · rw [longer]
      exact whole.capped
    · rw [longer, List.length_append]
      omega
  rw [governs.takes still, longer, List.take_append_of_le_length present,
    List.drop_append_of_le_length present, governs.unread whole, governs.takes whole]
  rfl

theorem outcome_congr (whole : f.Whole b) {c : Octets}
    (same : c.take (f.length b) = b.take (f.length b)) :
    (decode c).outcome = (decode b).outcome := by
  have least := whole.least
  have present := whole.present
  have equal : f.length c = f.length b := by
    rw [← length_take least c, same, length_take least b]
  have counts := congrArg List.length same
  rw [List.length_take, List.length_take] at counts
  have whole' : f.Whole c := by
    refine ⟨by omega, ?_, by omega⟩
    rw [equal]
    exact whole.capped
  rw [governs.takes whole', governs.takes whole, equal, same]
  rfl

theorem whole_of_ok {x : α} (ok : (decode b).outcome = .ok x) : f.Whole b := by
  cases refused : f.refusal? b with
  | none => exact refusal?_eq_none_iff.mp refused
  | some early =>
    rw [(governs.refuses refused).1] at ok
    cases ok

theorem append_of_ok {x : α} (ok : (decode b).outcome = .ok x) (c : Octets) :
    (decode (b ++ c)).Gives x ((decode b).unread ++ c) := by
  rw [governs.append (governs.whole_of_ok ok)]
  exact ⟨ok, rfl⟩

theorem outcome_append_of_error {stop : Stop} (stopped : (decode b).outcome = .error stop)
    (lasting : ¬ stop.IsUnderrun) (c : Octets) : (decode (b ++ c)).outcome = .error stop := by
  cases refused : f.refusal? b with
  | none =>
    rw [governs.append (refusal?_eq_none_iff.mp refused)]
    exact stopped
  | some early =>
    have first := (governs.refuses refused).1
    rw [stopped] at first
    cases first
    exact (governs.refuses (refusal?_append refused lasting c)).1

end Governs

/-- What a framing says about one use of a decoder. -/
structure Law (f : Framing) (decode : Octets → Reading α) : Prop where
  refuses : ∀ b error consumed, f.refusal? b = some (error, consumed) →
    (decode b).Refuses error (b.drop consumed)
  takes : ∀ b, f.refusal? b = none → (decode b).unread = b.drop (f.length b)
  stays : ∀ b, f.refusal? b = none → ∀ x,
    decode (b ++ x) = (decode b).leaving ((decode b).unread ++ x)
  determined : ∀ b, f.refusal? b = none → ∀ c,
    c.take (f.length b) = b.take (f.length b) → (decode c).outcome = (decode b).outcome
  underruns : ∀ b x, (decode b).outcome = .ok x → ∀ n < f.length b,
    (decode (b.take n)).Refuses
      (if n < f.headerSize then .bufferUnderrun f.headerSize n
        else .bufferUnderrun (f.length b - f.headerSize) (n - f.headerSize))
      ((b.take n).drop (if n < f.headerSize then 0 else f.headerSize))

theorem Governs.law {decode : Octets → Reading α} (governs : f.Governs decode) :
    f.Law decode where
  refuses _ _ _ := governs.refuses
  takes _ accepted := governs.unread (refusal?_eq_none_iff.mp accepted)
  stays _ accepted := governs.append (refusal?_eq_none_iff.mp accepted)
  determined _ accepted _ := governs.outcome_congr (refusal?_eq_none_iff.mp accepted)
  underruns _ _ ok n cut := by
    have early := refusal?_take (governs.whole_of_ok ok) cut
    by_cases short : n < f.headerSize
    · rw [if_pos short] at early
      simpa only [if_pos short] using governs.refuses early
    · rw [if_neg short] at early
      simpa only [if_neg short] using governs.refuses early

end Framing

theorem Framing.refusal?_message (b : Octets) :
    message.refusal? b =
      let size := (word16At b 2).toNat
      if b.length < 12 then some (.bufferUnderrun 12 b.length, 0)
      else if size < 12 then some (.malformedLength .message size .belowMessageHeader, 12)
      else if b.length < size then some (.bufferUnderrun (size - 12) (b.length - 12), 12)
      else none := rfl

theorem Framing.refusal?_packet (policy : Policy) (b : Octets) :
    (packet policy).refusal? b =
      let length := (word16At b 0).toNat
      if b.length < 4 then some (.bufferUnderrun 4 b.length, 0)
      else if length < 4 then some (.malformedLength .packet length .belowPacketHeader, 4)
      else if policy.maxPacketLength < length then
        some (.malformedLength .packet length .aboveMaximum, 4)
      else if b.length < length then some (.bufferUnderrun (length - 4) (b.length - 4), 4)
      else none := by
  have capped_iff (n : Nat) : (packet policy).cap.any (· < n) = true ↔ policy.maxPacketLength < n :=
    decide_eq_true_iff
  simp only [refusal?, capped_iff]
  rfl

theorem Message.governed (policy : Policy) : Framing.message.Governs (decode policy) where
  refuses {b error consumed} refused := by
    rw [Framing.refusal?_message] at refused
    rw [Reading.Refuses, decode, Reading.report_outcome, Reading.report_unread, read_apply]
    dsimp only at refused ⊢
    split_ifs at refused ⊢ <;> cases refused <;> exact ⟨rfl, rfl⟩
  takes {b} whole := by
    have cut := whole.take
    have front := decode_append ⟨cut.least, cut.declared⟩ policy (b.drop (Framing.message.length b))
    rwa [List.take_append_drop] at front

theorem Packet.governed (policy : Policy) : (Framing.packet policy).Governs (decode policy) where
  refuses {b error consumed} refused := by
    rw [Framing.refusal?_packet] at refused
    rw [Reading.Refuses, decode, Reading.report_outcome, Reading.report_unread, read_apply]
    dsimp only at refused ⊢
    split_ifs at refused ⊢ <;> cases refused <;> exact ⟨rfl, rfl⟩
  takes {b} whole := by
    have cut := whole.take
    have front := decode_append ⟨cut.least, cut.declared, cut.capped _ rfl⟩
      (b.drop ((Framing.packet policy).length b))
    rwa [List.take_append_drop] at front

/-- One use of either decoder. The header decides what is refused early; otherwise exactly the
announced octets are taken, also where they are refused, and they alone decide the answer. A packet
that is cut short anywhere is an underrun. -/
theorem decoders_take_one_frame (policy : Policy) :
    (Framing.packet policy).Law (Packet.decode policy) ∧
      Framing.message.Law (Message.decode policy) :=
  ⟨(Packet.governed policy).law, (Message.governed policy).law⟩

theorem cut_hello_underruns :
    let w : Octets :=
      [0, 24, 0, 1, 2, 5, 0, 20, 10, 0, 0, 1, 255, 0, 0, 7, 0, 0, 5, 3, 6, 0, 0, 4]
    (Packet.decode .strict w).outcome = .ok (Packet.ofFrame w) ∧
      (Packet.decode .strict (w.take 10)).Refuses (.bufferUnderrun 20 6) [2, 5, 0, 20, 10, 0] := by
  intro w
  have accepted : (Packet.decode .strict w).outcome = .ok (Packet.ofFrame w) := by
    decide +kernel
  exact ⟨accepted, (decoders_take_one_frame .strict).1.underruns w _ accepted 10 (by decide)⟩

end Olsr
