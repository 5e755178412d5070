import Olsr.Cursor

/-!
What a decoder notes while it works, and the result of reading from a buffer: an outcome, the
octets left behind, and the events in their order.
-/

namespace Olsr

inductive Event where
  | decodingMessage (typeByte : UInt8) (size : UInt16) (originator : Address)
      (sequenceNumber : UInt16)
  | passingThrough (typeByte : UInt8) (size : UInt16) (originator : Address)
  | decodedPacket (length sequenceNumber : UInt16) (messages : Nat)
  | packetFailed (error : DecodeError)
  | messageFailed (error : DecodeError)
  deriving DecidableEq

namespace Event

def level : Event → String
  | decodingMessage .. | decodedPacket .. => "TRACE"
  | passingThrough .. | packetFailed .. | messageFailed .. => "DEBUG"

def text : Event → String
  | decodingMessage .. => "decoding message"
  | passingThrough .. => "passing through message of unknown type"
  | decodedPacket .. => "decoded packet"
  | packetFailed .. => "failed to decode packet"
  | messageFailed .. => "failed to decode message"

def fields : Event → List (String × String)
  | decodingMessage typeByte size originator sequenceNumber =>
    [("type_byte", Nat.repr typeByte.toNat), ("size", Nat.repr size.toNat),
      ("originator", originator.text), ("sequence_number", Nat.repr sequenceNumber.toNat)]
  | passingThrough typeByte size originator =>
    [("type_byte", Nat.repr typeByte.toNat), ("size", Nat.repr size.toNat),
      ("originator", originator.text)]
  | decodedPacket length sequenceNumber messages =>
    [("length", Nat.repr length.toNat), ("sequence_number", Nat.repr sequenceNumber.toNat),
      ("messages", Nat.repr messages)]
  | packetFailed error | messageFailed error => [("error", error.message)]

end Event

structure Reading (α : Type) where
  outcome : Except Stop α
  unread : Octets
  events : List Event

/-- Note a refusal as the last event. -/
def Reading.report {α : Type} (failed : DecodeError → Event) (r : Reading α) : Reading α :=
  match r.outcome with
  | .error (.refused error) => { r with events := r.events ++ [failed error] }
  | _ => r

end Olsr
