import Olsr.Packet

/-!
A station at work: a packet in hand, a register for one message, octets going out, octets come in,
and a decoding policy. Each step answers with what its caller wants to know.
-/

namespace Olsr

namespace Message

/-- Header fields to set; those left out stay as they are. -/
structure Settings where
  validity : Option Duration := none
  originator : Option Address := none
  timeToLive : Option UInt8 := none
  hopCount : Option UInt8 := none
  sequenceNumber : Option UInt16 := none

def adjust (s : Settings) (m : Message) : Message :=
  { m with
    validity := s.validity.getD m.validity
    originator := s.originator.getD m.originator
    timeToLive := s.timeToLive.getD m.timeToLive
    hopCount := s.hopCount.getD m.hopCount
    sequenceNumber := s.sequenceNumber.getD m.sequenceNumber }

end Message

namespace Body

inductive Edit where
  | addAddresses (addresses : List Address)
  | addLink (link : LinkMessage)
  | addAssociation (association : Association)
  | setAnsn (ansn : UInt16)
  | setWillingness (willingness : Willingness)

def extendLast (xs : List Address) : List LinkMessage → Option (List LinkMessage)
  | [] => none
  | [l] => some [{ l with neighborAddresses := l.neighborAddresses ++ xs }]
  | l :: ls => (extendLast xs ls).map (l :: ·)

def edit? : Edit → Body → Option Body
  | .addAddresses xs, mid m => some (mid ⟨m.interfaceAddresses ++ xs⟩)
  | .addAddresses xs, tc t =>
    some (tc { t with neighborAddresses := t.neighborAddresses ++ xs })
  | .addAddresses xs, hello h =>
    (extendLast xs h.linkMessages).map fun ls => hello { h with linkMessages := ls }
  | .addLink l, hello h => some (hello { h with linkMessages := h.linkMessages ++ [l] })
  | .addAssociation a, hna h => some (hna ⟨h.associations ++ [a]⟩)
  | .setAnsn n, tc t => some (tc { t with ansn := n })
  | .setWillingness w, hello h => some (hello { h with willingness := w })
  | _, _ => none

end Body

structure Session where
  packet : Packet := {}
  register : Option Message := none
  outgoing : Octets := []
  incoming : Octets := []
  policy : Policy := {}

namespace Session

inductive Step where
  | startPacket (sequenceNumber : UInt16)
  | push (message : Message)
  | pushRegister
  | take (index : Nat)
  | adjust (settings : Message.Settings)
  | forward
  | relay (sequenceNumber : UInt16)
  | reverse (sequenceNumber : UInt16)
  | replaceBody (body : Body)
  | edit (change : Body.Edit)
  | encode
  | encodeRegister
  | append (octets : Octets)
  | overwrite (offset : Nat) (octets : Octets)
  | turnAround
  | setPolicy (policy : Policy)
  | decode
  | decodeRegister
  | showPacket
  | showRegister

inductive Answer where
  | nothing
  | flag (b : Bool)
  | count (n : Nat)
  | octets (b : Octets)
  | body (b : Body)
  | packet (p : Packet)
  | message (m : Message)
  | stopped (stop : Stop)
  /-- Something was decoded; whether it equals what was held before. -/
  | decoded (same : Bool)

def overwritten (offset : Nat) (octets buffer : Octets) : Octets :=
  buffer.take offset ++ octets ++ buffer.drop (offset + octets.length)

def step (s : Session) : Step → Answer × Session
  | .startPacket q => (.nothing, { s with packet := ⟨q, []⟩ })
  | .push m => (.nothing, { s with packet.messages := s.packet.messages ++ [m] })
  | .pushRegister =>
    (.nothing, { s with packet.messages := s.packet.messages ++ s.register.toList })
  | .take i => (.flag (s.packet.messages[i]?).isSome, { s with register := s.packet.messages[i]? })
  | .adjust settings => (.nothing, { s with register := s.register.map (Message.adjust settings) })
  | .forward =>
    match s.register.bind Message.forwarded with
    | some m => (.flag true, { s with register := some m })
    | none => (.flag false, s)
  | .relay q =>
    let next := s.packet.relayed q
    (.count (s.packet.messages.length - next.messages.length), { s with packet := next })
  | .reverse q => (.nothing, { s with packet := ⟨q, s.packet.messages.reverse⟩ })
  | .replaceBody b =>
    match s.register with
    | some m => (.body m.body, { s with register := some { m with body := b } })
    | none => (.nothing, s)
  | .edit change =>
    match s.register with
    | some m =>
      match m.body.edit? change with
      | some b => (.flag true, { s with register := some { m with body := b } })
      | none => (.flag false, s)
    | none => (.flag false, s)
  | .encode =>
    let octets := s.packet.encode
    (.octets octets, { s with outgoing := s.outgoing ++ octets })
  | .encodeRegister =>
    match s.register with
    | some m => (.octets m.encode, { s with outgoing := s.outgoing ++ m.encode })
    | none => (.nothing, s)
  | .append octets => (.nothing, { s with outgoing := s.outgoing ++ octets })
  | .overwrite offset octets =>
    (.nothing, { s with outgoing := overwritten offset octets s.outgoing })
  | .turnAround => (.nothing, { s with incoming := s.outgoing, outgoing := [] })
  | .setPolicy policy => (.nothing, { s with policy })
  | .decode =>
    let r := Packet.decode s.policy s.incoming
    match r.outcome with
    | .ok p => (.decoded (p = s.packet), { s with packet := p, incoming := r.unread })
    | .error stop => (.stopped stop, { s with incoming := r.unread })
  | .decodeRegister =>
    let r := Message.decode s.policy s.incoming
    match r.outcome with
    | .ok m => (.decoded (s.register = some m), { s with register := some m, incoming := r.unread })
    | .error stop => (.stopped stop, { s with incoming := r.unread })
  | .showPacket => (.packet s.packet, s)
  | .showRegister =>
    match s.register with
    | some m => (.message m, s)
    | none => (.nothing, s)

def run (s : Session) : List Step → List (Answer × Session)
  | [] => []
  | t :: ts =>
    let (answer, next) := s.step t
    (answer, next) :: run next ts

end Session
end Olsr
