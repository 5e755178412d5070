import Olsr.Body
import Olsr.Event

/-!
Messages: a header of twelve octets and a body. The header's type byte and size come from the body;
the validity travels in compact form. A message is read in three steps, and the octets of a
finished step stay consumed whatever follows: the header, the octets of the body, the body itself.
-/

namespace Olsr

def messageHeaderSize : Nat := 12

structure Message where
  body : Body
  validity : Duration := .ofSeconds 6
  originator : Address := .unspecified
  timeToLive : UInt8 := 255
  hopCount : UInt8 := 0
  sequenceNumber : UInt16 := 0
  deriving DecidableEq

structure MessageHeader where
  typeByte : UInt8
  validity : Duration
  size : UInt16
  originator : Address
  timeToLive : UInt8
  hopCount : UInt8
  sequenceNumber : UInt16
  deriving DecidableEq

namespace MessageHeader

/-- All twelve octets or none. -/
def reader : Cursor MessageHeader := do
  Cursor.require messageHeaderSize
  let typeByte ← Cursor.nextOctet
  let validity := CompactTime.decodeDuration (← Cursor.nextOctet)
  let size ← Cursor.nextWord16
  let originator ← Cursor.nextAddress
  let timeToLive ← Cursor.nextOctet
  let hopCount ← Cursor.nextOctet
  let sequenceNumber ← Cursor.nextWord16
  return { typeByte, validity, size, originator, timeToLive, hopCount, sequenceNumber }

theorem reader_length {b rest : Octets} {h : MessageHeader} (ok : reader b = .ok (h, rest)) :
    rest.length + messageHeaderSize = b.length := by
  simp only [reader, Cursor.bind_eq_ok] at ok
  obtain ⟨_, b₁, h₀, t, b₂, h₁, v, b₃, h₂, z, b₄, h₃, x, b₅, h₄, l, b₆, h₅, n, b₇, h₆, q, b₈,
    h₇, h₈⟩ := ok
  cases h₈
  rw [← Cursor.require_rest h₀]
  simp only [Cursor.nextOctet_rest h₁, Cursor.nextOctet_rest h₂, Cursor.nextWord16_length h₃,
    Cursor.nextAddress_rest h₄, Cursor.nextOctet_rest h₅, Cursor.nextOctet_rest h₆,
    Cursor.nextWord16_length h₇, messageHeaderSize, List.length_cons, List.length_append,
    Address.octets_length]
  omega

def bodyOctets (h : MessageHeader) : Cursor Octets := do
  let size := h.size.toNat
  Cursor.refuseIf (size < messageHeaderSize) (.malformedLength .message size .belowMessageHeader)
  Cursor.block (← Cursor.difference size messageHeaderSize)

theorem bodyOctets_length_le {h : MessageHeader} {b octets rest : Octets}
    (ok : h.bodyOctets b = .ok (octets, rest)) : rest.length ≤ b.length := by
  simp only [bodyOctets, Cursor.bind_eq_ok, Cursor.refuseIf_eq_ok] at ok
  obtain ⟨_, b₁, ⟨_, rfl⟩, n, b₂, hn, hb⟩ := ok
  rw [← Cursor.difference_rest hn, Cursor.block_append hb]
  simp

def message (h : MessageHeader) (body : Body) : Message :=
  { body, validity := h.validity, originator := h.originator, timeToLive := h.timeToLive
    hopCount := h.hopCount, sequenceNumber := h.sequenceNumber }

end MessageHeader

namespace Message

def defaultValidity : Duration := .ofSeconds 6

def typeByte (m : Message) : UInt8 := m.body.typeByte

def messageType? (m : Message) : Option MessageType := m.body.messageType?

def encodedLength (m : Message) : Nat := messageHeaderSize + m.body.encodedLength

def size (m : Message) : UInt16 := sizeField (messageHeaderSize + m.body.size.toNat)

def encode (m : Message) : Octets :=
  let body := m.body.encode
  m.typeByte :: CompactTime.encodeDuration m.validity ::
    Octets.ofWord16 (sizeField (messageHeaderSize + body.length)) ++ m.originator.octets ++
    m.timeToLive :: m.hopCount :: Octets.ofWord16 m.sequenceNumber ++ body

theorem encode_length (m : Message) : m.encode.length = m.encodedLength := by
  simp only [encode, encodedLength, messageHeaderSize, List.cons_append, List.append_assoc,
    List.length_cons, List.length_append, Octets.ofWord16_length, Address.octets_length,
    Body.encode_length]
  omega

def forwarded (m : Message) : Option Message :=
  if m.timeToLive ≤ 1 then none
  else some { m with
    timeToLive := m.timeToLive - 1
    hopCount := if m.hopCount = 255 then 255 else m.hopCount + 1 }

/-- Read one message without noting a refusal. -/
def read (policy : Policy) (b : Octets) : Reading Message :=
  match MessageHeader.reader b with
  | .error stop => ⟨.error stop, b, []⟩
  | .ok (h, afterHeader) =>
    match h.bodyOctets afterHeader with
    | .error stop => ⟨.error stop, afterHeader, []⟩
    | .ok (octets, rest) =>
      let started := Event.decodingMessage h.typeByte h.size h.originator h.sequenceNumber
      match Body.decode policy h.typeByte octets with
      | .error stop => ⟨.error stop, rest, [started]⟩
      | .ok body =>
        ⟨.ok (h.message body), rest,
          if body.isOpaque then [started, .passingThrough h.typeByte h.size h.originator]
          else [started]⟩

def decode (policy : Policy) (b : Octets) : Reading Message :=
  (read policy b).report .messageFailed

theorem read_shrinks {policy : Policy} {b : Octets} {m : Message}
    (ok : (read policy b).outcome = .ok m) :
    (read policy b).unread.length + messageHeaderSize ≤ b.length := by
  unfold read at ok ⊢
  split at ok
  · cases ok
  · rename_i h afterHeader hh
    have := MessageHeader.reader_length hh
    split at ok
    · cases ok
    · rename_i octets rest hb
      have := MessageHeader.bodyOctets_length_le hb
      split at ok
      · cases ok
      · show rest.length + messageHeaderSize ≤ b.length
        omega

end Message
end Olsr
