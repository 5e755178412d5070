import Olsr.Hello
import Olsr.Hna
import Olsr.MessageType
import Olsr.Mid
import Olsr.Tc

/-!
Message bodies. A type byte that names no interpreted type has an opaque body, which is carried
octet by octet. `encodedLength` is the length of the encoding; `size` is the 16-bit number that
stands for it in a size field.
-/

namespace Olsr

structure Opaque where
  typeByte : UInt8
  payload : Octets
  deriving DecidableEq

namespace Opaque

def of? (typeByte : UInt8) (payload : Octets) : Option Opaque :=
  if (MessageType.ofByte? typeByte).isSome then none else some ⟨typeByte, payload⟩

theorem of?_eq_some_iff {typeByte : UInt8} {payload : Octets} {o : Opaque} :
    of? typeByte payload = some o ↔
      MessageType.ofByte? typeByte = none ∧ o = ⟨typeByte, payload⟩ := by
  unfold of?
  cases MessageType.ofByte? typeByte <;> simp [eq_comm]

def size (o : Opaque) : UInt16 := sizeField o.payload.length

end Opaque

inductive Body where
  | hello (hello : Hello)
  | tc (tc : Tc)
  | mid (mid : Mid)
  | hna (hna : Hna)
  | unknown (body : Opaque)
  deriving DecidableEq

namespace Body

def typeByte : Body → UInt8
  | hello _ => MessageType.hello.byte
  | tc _ => MessageType.tc.byte
  | mid _ => MessageType.mid.byte
  | hna _ => MessageType.hna.byte
  | unknown o => o.typeByte

/-- The type that the type byte names, even if the body is opaque. -/
def messageType? (b : Body) : Option MessageType := MessageType.ofByte? b.typeByte

def isOpaque : Body → Bool
  | unknown _ => true
  | _ => false

def encodedLength : Body → Nat
  | hello h => h.encodedLength
  | tc t => t.encodedLength
  | mid m => m.encodedLength
  | hna h => h.encodedLength
  | unknown o => o.payload.length

def size : Body → UInt16
  | hello h => h.size
  | tc t => t.size
  | mid m => m.size
  | hna h => h.size
  | unknown o => o.size

def encode : Body → Octets
  | hello h => h.encode
  | tc t => t.encode
  | mid m => m.encode
  | hna h => h.encode
  | unknown o => o.payload

theorem encode_length (b : Body) : b.encode.length = b.encodedLength := by
  cases b with
  | hello h => exact h.encode_length
  | tc t => exact t.encode_length
  | mid m => exact m.encode_length
  | hna h => exact h.encode_length
  | unknown o => rfl

def reader (policy : Policy) (typeByte : UInt8) : Cursor Body :=
  match MessageType.ofByte? typeByte with
  | some .hello => hello <$> Hello.reader policy
  | some .tc => tc <$> Tc.reader policy
  | some .mid => mid <$> Mid.reader
  | some .hna => hna <$> Hna.reader
  | none => fun payload => .ok (unknown ⟨typeByte, payload⟩, [])

def decode (policy : Policy) (typeByte : UInt8) (octets : Octets) : Except Stop Body :=
  (reader policy typeByte).run' octets

end Body
end Olsr
