import Olsr.CompactTime
import Olsr.Hello.LinkMessage
import Olsr.Willingness

/-!
HELLO bodies: two reserved octets, the interval in compact form, a willingness, and link messages
in their order; equal link codes are never merged.
-/

namespace Olsr

structure Hello where
  interval : Duration
  willingness : Willingness
  linkMessages : List LinkMessage
  deriving DecidableEq

namespace Hello

def defaultInterval : Duration := .ofSeconds 2

def standard : Hello := ⟨defaultInterval, .standard, []⟩

def encodedLength (h : Hello) : Nat :=
  fixedFieldsSize + total (h.linkMessages.map LinkMessage.encodedLength)

def size (h : Hello) : UInt16 :=
  sizeField (fixedFieldsSize + total (h.linkMessages.map fun l => l.size.toNat))

def encode (h : Hello) : Octets :=
  0 :: 0 :: CompactTime.encodeDuration h.interval :: h.willingness.byte ::
    h.linkMessages.flatMap LinkMessage.encode

theorem encode_length (h : Hello) : h.encode.length = h.encodedLength := by
  have links (ls : List LinkMessage) : (ls.flatMap LinkMessage.encode).length =
      total (ls.map LinkMessage.encodedLength) := by
    induction ls with
    | nil => rfl
    | cons l ls ih => simp [ih, LinkMessage.encode_length]
  simp only [encode, encodedLength, fixedFieldsSize, List.length_cons, links]
  omega

def reader (policy : Policy) : Cursor Hello := do
  Cursor.requireFixedFields .helloBody
  Cursor.checkReserved policy .hello (← Cursor.word16).toNat
  let interval := CompactTime.decodeDuration (← Cursor.octet)
  let willingness ← Cursor.octet
  let links ← Cursor.unread
  return ⟨interval, ⟨willingness⟩, ← LinkMessage.run policy links.length 0 links⟩

end Hello
end Olsr
