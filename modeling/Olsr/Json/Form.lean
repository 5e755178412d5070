import Olsr.Json
import Olsr.Packet

/-!
The JSON form of the data types. Nothing is rounded: durations keep their nanoseconds and an
opaque body keeps its type byte, also one that names an interpreted type.
-/

namespace Olsr

open Json

namespace Address

def toJson (x : Address) : Json := string x.text

def ofJson? : Json → Option Address
  | string s => ofText? s
  | _ => none

end Address

namespace Duration

def toJson (d : Duration) : Json :=
  object [("secs", ofNat d.seconds.toNat), ("nanos", ofNat d.nanos)]

/-- Nanoseconds may run over into seconds, and the seconds must still be below 2^64. -/
def ofJson? (j : Json) : Option Duration :=
  match j.closedRecord? ["secs", "nanos"] with
  | some [secs, nanos] => do
    let secs ← secs.natBelow? UInt64.size
    let nanos ← nanos.natBelow? UInt32.size
    let total := secs * 1000000000 + nanos
    if total < UInt64.size * 1000000000 then some (ofNanos total) else none
  | _ => none

end Duration

namespace MessageType

def tag : MessageType → String
  | mid => "Mid"
  | hello => "Hello"
  | tc => "Tc"
  | hna => "Hna"

def ofTag? (s : String) : Option MessageType :=
  if s = "Mid" then some mid
  else if s = "Hello" then some hello
  else if s = "Tc" then some tc
  else if s = "Hna" then some hna
  else none

def toJson (t : MessageType) : Json := string t.tag

def ofJson? : Json → Option MessageType
  | string s => ofTag? s
  | object [(s, null)] => ofTag? s
  | _ => none

end MessageType

namespace Willingness

def toJson (w : Willingness) : Json := ofNat w.byte.toNat

def ofJson? (j : Json) : Option Willingness := j.octet?.map (⟨·⟩)

end Willingness

namespace LinkCode

def toJson (c : LinkCode) : Json := ofNat c.byte.toNat

def ofJson? (j : Json) : Option LinkCode := j.octet?.map (⟨·⟩)

end LinkCode

namespace Mid

def toJson (m : Mid) : Json :=
  object [("interface_addresses", array (m.interfaceAddresses.map Address.toJson))]

def ofJson? (j : Json) : Option Mid :=
  match j.record? ["interface_addresses"] with
  | some [xs] => do return ⟨← xs.list? Address.ofJson?⟩
  | _ => none

end Mid

namespace LinkMessage

def toJson (l : LinkMessage) : Json :=
  object [("link_code", l.linkCode.toJson),
    ("neighbor_interface_addresses", array (l.neighborAddresses.map Address.toJson))]

def ofJson? (j : Json) : Option LinkMessage :=
  match j.record? ["link_code", "neighbor_interface_addresses"] with
  | some [code, xs] => do return ⟨← LinkCode.ofJson? code, ← xs.list? Address.ofJson?⟩
  | _ => none

end LinkMessage

namespace Hello

def toJson (h : Hello) : Json :=
  object [("hello_interval", h.interval.toJson), ("willingness", h.willingness.toJson),
    ("link_messages", array (h.linkMessages.map LinkMessage.toJson))]

def ofJson? (j : Json) : Option Hello :=
  match j.record? ["hello_interval", "willingness", "link_messages"] with
  | some [interval, willingness, links] => do
    return ⟨← Duration.ofJson? interval, ← Willingness.ofJson? willingness,
      ← links.list? LinkMessage.ofJson?⟩
  | _ => none

end Hello

namespace Tc

def toJson (t : Tc) : Json :=
  object [("ansn", ofNat t.ansn.toNat),
    ("neighbor_addresses", array (t.neighborAddresses.map Address.toJson))]

def ofJson? (j : Json) : Option Tc :=
  match j.record? ["ansn", "neighbor_addresses"] with
  | some [ansn, xs] => do return ⟨← ansn.word16?, ← xs.list? Address.ofJson?⟩
  | _ => none

end Tc

namespace Association

def toJson (a : Association) : Json :=
  object [("address", a.address.toJson), ("mask", a.mask.toJson)]

def ofJson? (j : Json) : Option Association :=
  match j.record? ["address", "mask"] with
  | some [address, mask] => do return ⟨← Address.ofJson? address, ← Address.ofJson? mask⟩
  | _ => none

end Association

namespace Hna

def toJson (h : Hna) : Json :=
  object [("associations", array (h.associations.map Association.toJson))]

def ofJson? (j : Json) : Option Hna :=
  match j.record? ["associations"] with
  | some [xs] => do return ⟨← xs.list? Association.ofJson?⟩
  | _ => none

end Hna

namespace Opaque

def toJson (o : Opaque) : Json :=
  object [("type_byte", ofNat o.typeByte.toNat),
    ("payload", array (o.payload.map fun x => ofNat x.toNat))]

/-- A payload is a list of octets, or a text that stands for its UTF-8 octets. -/
def payloadOfJson? : Json → Option Octets
  | string s => some s.toUTF8.toList
  | j => j.list? Json.octet?

def ofJson? (j : Json) : Option Opaque :=
  match j.record? ["type_byte", "payload"] with
  | some [typeByte, payload] => do return ⟨← typeByte.octet?, ← payloadOfJson? payload⟩
  | _ => none

end Opaque

namespace Body

def toJson : Body → Json
  | hello h => object [("Hello", h.toJson)]
  | tc t => object [("Tc", t.toJson)]
  | mid m => object [("Mid", m.toJson)]
  | hna h => object [("Hna", h.toJson)]
  | unknown o => object [("Unknown", o.toJson)]

def ofJson? (j : Json) : Option Body :=
  match j.tagged? with
  | some (tag, value) =>
    if tag = "Hello" then (Hello.ofJson? value).map hello
    else if tag = "Tc" then (Tc.ofJson? value).map tc
    else if tag = "Mid" then (Mid.ofJson? value).map mid
    else if tag = "Hna" then (Hna.ofJson? value).map hna
    else if tag = "Unknown" then (Opaque.ofJson? value).map unknown
    else none
  | none => none

end Body

namespace Message

def toJson (m : Message) : Json :=
  object [("validity", m.validity.toJson), ("originator", m.originator.toJson),
    ("time_to_live", ofNat m.timeToLive.toNat), ("hop_count", ofNat m.hopCount.toNat),
    ("sequence_number", ofNat m.sequenceNumber.toNat), ("body", m.body.toJson)]

def ofJson? (j : Json) : Option Message :=
  match j.record? ["validity", "originator", "time_to_live", "hop_count", "sequence_number",
      "body"] with
  | some [validity, originator, timeToLive, hopCount, sequenceNumber, body] => do
    return {
      validity := ← Duration.ofJson? validity
      originator := ← Address.ofJson? originator
      timeToLive := ← timeToLive.octet?
      hopCount := ← hopCount.octet?
      sequenceNumber := ← sequenceNumber.word16?
      body := ← Body.ofJson? body }
  | _ => none

end Message

namespace Packet

def toJson (p : Packet) : Json :=
  object [("sequence_number", ofNat p.sequenceNumber.toNat),
    ("messages", array (p.messages.map Message.toJson))]

def ofJson? (j : Json) : Option Packet :=
  match j.record? ["sequence_number", "messages"] with
  | some [sequenceNumber, messages] => do
    return ⟨← sequenceNumber.word16?, ← messages.list? Message.ofJson?⟩
  | _ => none

end Packet
end Olsr
