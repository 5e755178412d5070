import Olsr.Proofs.Readers

/-!
Frames one after another. A frame says its own length, whatever else is in it. A decoder that is put
on a frame takes exactly the frame and answers as on the frame alone, so the decoder after it finds
the next frame, also where this one was refused.
-/

namespace Olsr

open Octets

namespace Reading

variable {α β : Type}

def leaving (r : Reading α) (rest : Octets) : Reading α := { r with unread := rest }

def map (f : α → β) (r : Reading α) : Reading β := ⟨r.outcome.map f, r.unread, r.events⟩

theorem report_leaving (r : Reading α) (rest : Octets) (failed : DecodeError → Event) :
    (r.leaving rest).report failed = (r.report failed).leaving rest := by
  obtain ⟨outcome, unread, events⟩ := r
  rcases outcome with ⟨_ | _⟩ | _ <;> rfl

end Reading

namespace Message

variable {f : Octets}

theorem decode_append (h : Delimited f) (policy : Policy) (rest : Octets) :
    decode policy (f ++ rest) = (decode policy f).leaving rest := by
  have alone := read_delimited h policy []
  rw [List.append_nil] at alone
  rw [decode, decode, ← Reading.report_leaving, read_delimited h, alone]
  rfl

end Message

namespace Packet

variable {f : Octets} {policy : Policy}

theorem decode_append (h : Delimited policy f) (rest : Octets) :
    decode policy (f ++ rest) = (decode policy f).leaving rest := by
  have alone := read_delimited h []
  rw [List.append_nil] at alone
  rw [decode, decode, ← Reading.report_leaving, read_delimited h, alone]
  rfl

end Packet

inductive FrameKind where
  | message
  | packet
  deriving DecidableEq

inductive Decoded where
  | message (message : Message)
  | packet (packet : Packet)
  deriving DecidableEq

structure Call where
  kind : FrameKind
  policy : Policy := {}
  deriving DecidableEq

namespace Call

def decode (c : Call) (b : Octets) : Reading Decoded :=
  match c.kind with
  | .message => (Message.decode c.policy b).map Decoded.message
  | .packet => (Packet.decode c.policy b).map Decoded.packet

def Delimits (c : Call) (f : Octets) : Prop :=
  match c.kind with
  | .message => Message.Delimited f
  | .packet => Packet.Delimited c.policy f

theorem decode_append {c : Call} {f : Octets} (h : c.Delimits f) (rest : Octets) :
    c.decode (f ++ rest) = (c.decode f).leaving rest := by
  obtain ⟨kind, policy⟩ := c
  cases kind with
  | message => exact congrArg (Reading.map Decoded.message) (Message.decode_append h policy rest)
  | packet => exact congrArg (Reading.map Decoded.packet) (Packet.decode_append h rest)

/-- Each call reads what the one before it left; what the last one leaves comes with the readings. -/
def inTurn : List Call → Octets → List (Reading Decoded) × Octets
  | [], b => ([], b)
  | c :: calls, b =>
    let r := c.decode b
    let (later, rest) := inTurn calls r.unread
    (r :: later, rest)

end Call

/-- Octets of one length with the call that they are meant for; nothing is asked of their content. -/
structure Frame extends Call where
  octets : Octets
  delimits : toCall.Delimits octets

def Frame.alone (f : Frame) : Reading Decoded := f.toCall.decode f.octets

/-- Decoders in turn on frames in turn, each on its own: every one answers as on its frame alone and
leaves the frames that follow, whether or not it refuses. -/
theorem frames_decode_apart (frames : List Frame) (rest : Octets) :
    let stream := Call.inTurn (frames.map Frame.toCall) (frames.flatMap Frame.octets ++ rest)
    stream.1.length = frames.length ∧
    (∀ i f, frames[i]? = some f →
      ∃ r, stream.1[i]? = some r ∧ r.outcome = f.alone.outcome ∧ r.events = f.alone.events ∧
        r.unread = (frames.drop (i + 1)).flatMap Frame.octets ++ rest) ∧
    stream.2 = rest := by
  induction frames with
  | nil => exact ⟨rfl, nofun, rfl⟩
  | cons f frames ih =>
    obtain ⟨count, each, last⟩ := ih
    have first : f.toCall.decode ((f :: frames).flatMap Frame.octets ++ rest) =
        f.alone.leaving (frames.flatMap Frame.octets ++ rest) := by
      rw [List.flatMap_cons, List.append_assoc]
      exact Call.decode_append f.delimits _
    simp only [List.map_cons, Call.inTurn, first, Reading.leaving, List.length_cons]
    refine ⟨congrArg (· + 1) count, fun i g at_i => ?_, last⟩
    cases i with
    | zero =>
      cases at_i
      exact ⟨_, rfl, rfl, rfl, rfl⟩
    | succ i => exact each i g at_i

-- A HELLO that is refused for its link message, and the packet behind it.
example :
    let stream := Call.inTurn [⟨.message, {}⟩, ⟨.packet, .strict⟩]
      [2, 0, 0, 20, 10, 0, 0, 1, 255, 0, 0, 7, 0, 0, 5, 3, 6, 0, 0, 40,
        0, 17, 0, 1, 9, 0, 0, 13, 10, 0, 0, 1, 255, 0, 0, 8, 1, 77]
    stream.1.map (fun r => r.outcome.toBool) = [false, true] ∧ stream.2 = [77] := by
  decide +kernel

end Olsr
