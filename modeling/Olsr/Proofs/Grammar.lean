import Olsr.Packet
import Olsr.Proofs.Pieces

/-!
The wire format as a grammar, without a decoder. Each part has a predicate that says which octets
are well formed and a function that reads the value off them by position. With `strict`, reserved
fields must be zero. Packets are cut into messages and HELLO bodies into link records by the size
that each piece declares; nothing counts them.
-/

namespace Olsr

open Octets

namespace Address

/-- Up to three octets at the end belong to no address. -/
def listOf : Octets → List Address
  | p :: q :: r :: s :: rest => ⟨p, q, r, s⟩ :: listOf rest
  | _ => []

theorem encodeAll_listOf {b : Octets} (h : 4 ∣ b.length) : encodeAll (listOf b) = b := by
  fun_induction listOf b with
  | case1 p q r s rest ih =>
    have : encodeAll (listOf rest) = rest := ih (by simp only [List.length_cons] at h; omega)
    rw [encodeAll] at this
    rw [encodeAll, List.flatMap_cons, this]
    rfl
  | case2 b short =>
    have : b.length < 4 := by
      refine Nat.lt_of_not_le fun long => ?_
      obtain ⟨p, q, r, s, rest, e⟩ := exists_cons₄ long
      exact short p q r s rest e
    have : b = [] := List.length_eq_zero_iff.mp (by omega)
    rw [this]
    rfl

theorem listOf_encodeAll (xs : List Address) : listOf (encodeAll xs) = xs := by
  induction xs with
  | nil => rfl
  | cons x xs ih => exact congrArg (x :: ·) ih

end Address

namespace Association

/-- Up to seven octets at the end belong to no association. -/
def listOf : Octets → List Association
  | p :: q :: r :: s :: t :: u :: v :: w :: rest => ⟨⟨p, q, r, s⟩, ⟨t, u, v, w⟩⟩ :: listOf rest
  | _ => []

theorem flatMap_listOf {b : Octets} (h : 8 ∣ b.length) : (listOf b).flatMap octets = b := by
  fun_induction listOf b with
  | case1 p q r s t u v w rest ih =>
    rw [List.flatMap_cons, ih (by simp only [List.length_cons] at h; omega)]
    rfl
  | case2 b short =>
    have : b.length < 8 := by
      refine Nat.lt_of_not_le fun long => ?_
      obtain ⟨p, q, r, s, half, rfl⟩ := exists_cons₄ (b := b) (by omega)
      obtain ⟨t, u, v, w, rest, rfl⟩ := exists_cons₄ (b := half) (by
        simp only [List.length_cons] at long
        omega)
      exact short p q r s t u v w rest rfl
    have : b = [] := List.length_eq_zero_iff.mp (by omega)
    rw [this]
    rfl

theorem listOf_flatMap (xs : List Association) : listOf (xs.flatMap octets) = xs := by
  induction xs with
  | nil => rfl
  | cons x xs ih => exact congrArg (x :: ·) ih

end Association

namespace LinkMessage

structure IsRecord (strict : Bool) (r : Octets) : Prop where
  sized : Sized r
  aligned : 4 ∣ r.length
  clear : strict = true → octetAt r 1 = 0

def ofRecord (r : Octets) : LinkMessage := ⟨⟨octetAt r 0⟩, Address.listOf (r.drop 4)⟩

theorem records_eq_pieces {strict : Bool} {b : Octets} {records : List Octets}
    (splits : Splits (IsRecord strict) b records) : records = pieces b :=
  splits.eq_pieces fun _ record => record.sized

end LinkMessage

namespace Hello

structure WellFormed (strict : Bool) (b : Octets) : Prop where
  fixed : 4 ≤ b.length
  clear : strict = true → word16At b 0 = 0
  links : ∃ records, Splits (LinkMessage.IsRecord strict) (b.drop 4) records

def ofOctets (b : Octets) : Hello :=
  { interval := CompactTime.decodeDuration (octetAt b 2)
    willingness := ⟨octetAt b 3⟩
    linkMessages := (pieces (b.drop 4)).map LinkMessage.ofRecord }

end Hello

namespace Tc

structure WellFormed (strict : Bool) (b : Octets) : Prop where
  fixed : 4 ≤ b.length
  aligned : 4 ∣ b.length
  clear : strict = true → word16At b 2 = 0

def ofOctets (b : Octets) : Tc := ⟨word16At b 0, Address.listOf (b.drop 4)⟩

end Tc

namespace Body

def WellFormed (strict : Bool) (typeByte : UInt8) (b : Octets) : Prop :=
  match MessageType.ofByte? typeByte with
  | some .mid => 4 ∣ b.length
  | some .hello => Hello.WellFormed strict b
  | some .tc => Tc.WellFormed strict b
  | some .hna => 8 ∣ b.length
  | none => True

def ofOctets (typeByte : UInt8) (b : Octets) : Body :=
  match MessageType.ofByte? typeByte with
  | some .mid => mid ⟨Address.listOf b⟩
  | some .hello => hello (Hello.ofOctets b)
  | some .tc => tc (Tc.ofOctets b)
  | some .hna => hna ⟨Association.listOf b⟩
  | none => unknown ⟨typeByte, b⟩

end Body

def MessageHeader.ofOctets (b : Octets) : MessageHeader :=
  { typeByte := octetAt b 0
    validity := CompactTime.decodeDuration (octetAt b 1)
    size := word16At b 2
    originator := ⟨octetAt b 4, octetAt b 5, octetAt b 6, octetAt b 7⟩
    timeToLive := octetAt b 8
    hopCount := octetAt b 9
    sequenceNumber := word16At b 10 }

namespace Message

structure IsFrame (strict : Bool) (f : Octets) : Prop where
  header : 12 ≤ f.length
  declared : f.length = (word16At f 2).toNat
  body : Body.WellFormed strict (octetAt f 0) (f.drop 12)

def ofFrame (f : Octets) : Message :=
  (MessageHeader.ofOctets f).message (Body.ofOctets (octetAt f 0) (f.drop 12))

theorem IsFrame.sized {strict : Bool} {f : Octets} (h : IsFrame strict f) : Sized f :=
  ⟨Nat.le_trans (by decide) h.header, h.declared⟩

theorem frames_eq_pieces {strict : Bool} {b : Octets} {frames : List Octets}
    (splits : Splits (IsFrame strict) b frames) : frames = pieces b :=
  splits.eq_pieces fun _ frame => frame.sized

end Message

namespace Packet

structure IsFrame (strict : Bool) (w : Octets) : Prop where
  header : 4 ≤ w.length
  declared : w.length = (word16At w 0).toNat
  messages : ∃ frames, Splits (Message.IsFrame strict) (w.drop 4) frames

def ofFrame (w : Octets) : Packet := ⟨word16At w 2, (pieces (w.drop 4)).map Message.ofFrame⟩

def payloadOf (b : Octets) : Octets := (b.take (word16At b 0).toNat).drop 4

structure AtFront (strict : Bool) (cap : Nat) (b : Octets) : Prop where
  header : 4 ≤ b.length
  least : 4 ≤ (word16At b 0).toNat
  capped : (word16At b 0).toNat ≤ cap
  present : (word16At b 0).toNat ≤ b.length
  messages : ∃ frames, Splits (Message.IsFrame strict) (payloadOf b) frames

end Packet
end Olsr
