import Olsr.Message

/-!
Packets: a header of four octets, which holds the whole length, and messages up to that length.
The payload is cut off the buffer before its messages are read, so a bad message cannot disturb
what comes after the packet.
-/

namespace Olsr

/-- The UDP destination of control packets. -/
def udpPort : Nat := 698

def packetHeaderSize : Nat := 4

structure Packet where
  sequenceNumber : UInt16 := 0
  messages : List Message := []
  deriving DecidableEq

structure PacketHeader where
  length : UInt16
  sequenceNumber : UInt16
  deriving DecidableEq

namespace PacketHeader

/-- All four octets or none. -/
def reader : Cursor PacketHeader := do
  Cursor.require packetHeaderSize
  let length ← Cursor.nextWord16
  let sequenceNumber ← Cursor.nextWord16
  return { length, sequenceNumber }

def payload (policy : Policy) (h : PacketHeader) : Cursor Octets := do
  let length := h.length.toNat
  Cursor.refuseIf (length < packetHeaderSize) (.malformedLength .packet length .belowPacketHeader)
  Cursor.refuseIf (policy.maxPacketLength < length)
    (.malformedLength .packet length .aboveMaximum)
  Cursor.block (← Cursor.difference length packetHeaderSize)

end PacketHeader

namespace Packet

def encodedLength (p : Packet) : Nat :=
  packetHeaderSize + total (p.messages.map Message.encodedLength)

def length (p : Packet) : UInt16 :=
  sizeField (packetHeaderSize + total (p.messages.map fun m => m.size.toNat))

def encode (p : Packet) : Octets :=
  let messages := p.messages.flatMap Message.encode
  Octets.ofWord16 (sizeField (packetHeaderSize + messages.length)) ++
    Octets.ofWord16 p.sequenceNumber ++ messages

theorem encode_length (p : Packet) : p.encode.length = p.encodedLength := by
  have messages (ms : List Message) : (ms.flatMap Message.encode).length =
      total (ms.map Message.encodedLength) := by
    induction ms with
    | nil => rfl
    | cons m ms ih => simp [ih, Message.encode_length]
  simp only [encode, encodedLength, packetHeaderSize, List.length_append,
    Octets.ofWord16_length, messages]

def messageRun (policy : Policy) (payload : Octets) : Except Stop (List Message) × List Event :=
  if payload.isEmpty then (.ok [], [])
  else match _h : Message.read policy payload with
    | ⟨.error stop, _, events⟩ => (.error stop, events)
    | ⟨.ok m, rest, events⟩ =>
      let (tail, more) := messageRun policy rest
      (tail.map (m :: ·), events ++ more)
termination_by payload.length
decreasing_by
  have ok : (Message.read policy payload).outcome = .ok m := by rw [_h]
  have := Message.read_shrinks ok
  simp only [_h, messageHeaderSize] at this
  omega

def read (policy : Policy) (b : Octets) : Reading Packet :=
  match PacketHeader.reader b with
  | .error stop => ⟨.error stop, b, []⟩
  | .ok (h, afterHeader) =>
    match h.payload policy afterHeader with
    | .error stop => ⟨.error stop, afterHeader, []⟩
    | .ok (payload, rest) =>
      match messageRun policy payload with
      | (.error stop, events) => ⟨.error stop, rest, events⟩
      | (.ok messages, events) =>
        ⟨.ok ⟨h.sequenceNumber, messages⟩, rest,
          events ++ [.decodedPacket h.length h.sequenceNumber messages.length]⟩

def decode (policy : Policy) (b : Octets) : Reading Packet :=
  (read policy b).report .packetFailed

def relayed (sequenceNumber : UInt16) (p : Packet) : Packet :=
  ⟨sequenceNumber, p.messages.filterMap Message.forwarded⟩

end Packet
end Olsr
