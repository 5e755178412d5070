import Mathlib.Tactic.SplitIfs
import Olsr.Proofs.Framing
import Olsr.Proofs.Safety
import Olsr.Proofs.SizeFields

/-!
The records that a decoder leaves tell what it came to. Of a packet that it takes there are the
records of each message and one for the packet; of a packet that it refuses, those of the messages
before the refused one, one for that message if its octets were all there, and one for the refusal.
-/

namespace Olsr

open Octets

namespace Event

structure Record where
  level : String
  text : String
  fields : List (String × String)
  deriving DecidableEq

def record (e : Event) : Record := ⟨e.level, e.text, e.fields⟩

/-- A record of reading a message, whatever comes of it. -/
def Record.OfMessage (r : Record) : Prop :=
  r.text = "decoding message" ∨ r.text = "passing through message of unknown type"

theorem Record.OfMessage.text_ne {r : Record} (h : r.OfMessage) :
    r.text ≠ "decoded packet" ∧ r.text ≠ "failed to decode packet" ∧
      r.text ≠ "failed to decode message" := by
  rcases h with text | text <;> rw [text] <;> decide

def failure (text : String) (error : DecodeError) : Record :=
  ⟨"DEBUG", text, [("error", error.message)]⟩

@[simp] theorem failure_text (text : String) (error : DecodeError) :
    (failure text error).text = text := rfl

end Event

open Event (Record record failure failure_text)

namespace Reading

variable {α : Type} {r : Reading α} {failed : DecodeError → Event}

def records (r : Reading α) : List Record := r.events.map record

theorem records_report_of_ok {x : α} (ok : r.outcome = .ok x) :
    (r.report failed).records = r.records := by
  rw [report, ok]

theorem records_report_of_refused {error : DecodeError}
    (refused : r.outcome = .error (.refused error)) :
    (r.report failed).records = r.records ++ [record (failed error)] := by
  rw [report, refused]
  exact List.map_append

end Reading

namespace Message

def started (typeByte : UInt8) (size : UInt16) (originator : Address) (sequenceNumber : UInt16) :
    Record :=
  ⟨"TRACE", "decoding message",
    [("type_byte", Nat.repr typeByte.toNat), ("size", Nat.repr size.toNat),
      ("originator", originator.text), ("sequence_number", Nat.repr sequenceNumber.toNat)]⟩

def passed (typeByte : UInt8) (size : UInt16) (originator : Address) : Record :=
  ⟨"DEBUG", "passing through message of unknown type",
    [("type_byte", Nat.repr typeByte.toNat), ("size", Nat.repr size.toNat),
      ("originator", originator.text)]⟩

def records (m : Message) : List Record :=
  started m.typeByte m.size m.originator m.sequenceNumber ::
    if m.body.isOpaque then [passed m.typeByte m.size m.originator] else []

/-- The records of a message at the front of these octets that is refused. -/
def recordsRefused (b : Octets) : List Record :=
  let size := word16At b 2
  if 12 ≤ size.toNat ∧ size.toNat ≤ b.length then
    [started (octetAt b 0) size ⟨octetAt b 4, octetAt b 5, octetAt b 6, octetAt b 7⟩
      (word16At b 10)]
  else []

variable {policy : Policy} {b f : Octets}

theorem records_read_of_isFrame (frame : IsFrame policy.strictReserved f) (rest : Octets) :
    (read policy (f ++ rest)).records = (ofFrame f).records := by
  have body := Body.decode_eq_ok_iff.mpr ⟨frame.body, rfl⟩
  have type : (ofFrame f).typeByte = octetAt f 0 := Body.typeByte_ofOctets _ _
  have content : (ofFrame f).body = Body.ofOctets (octetAt f 0) (f.drop 12) := rfl
  rw [Reading.records, read_delimited ⟨frame.header, frame.declared⟩, body, records, type,
    size_ofFrame frame, content]
  cases Body.ofOctets (octetAt f 0) (f.drop 12) <;> rfl

theorem records_read_of_error {stop : Stop} (refused : (read policy b).outcome = .error stop) :
    (read policy b).records = recordsRefused b := by
  unfold Reading.records recordsRefused
  rw [read_apply] at refused ⊢
  dsimp only at refused ⊢
  by_cases whole : 12 ≤ (word16At b 2).toNat ∧ (word16At b 2).toNat ≤ b.length
  · rw [if_neg (by omega), if_neg (by omega), if_neg (by omega)] at refused ⊢
    rw [if_pos whole]
    cases body : Body.decode policy (octetAt b 0) ((b.take (word16At b 2).toNat).drop 12) with
    | ok =>
      rw [body] at refused
      cases refused
    | error => rfl
  · rw [if_neg whole]
    split_ifs with short least beyond
    · rfl
    · rfl
    · rfl
    · exact absurd ⟨by omega, by omega⟩ whole

theorem ofMessage_of_mem_records {m : Message} {r : Record} (member : r ∈ m.records) :
    r.OfMessage := by
  unfold records at member
  split at member
  · obtain rfl | rfl := List.mem_pair.mp member
    · exact .inl rfl
    · exact .inr rfl
  · cases List.mem_singleton.mp member
    exact .inl rfl

theorem ofMessage_of_mem_recordsRefused {r : Record} (member : r ∈ recordsRefused b) :
    r.OfMessage := by
  unfold recordsRefused at member
  dsimp only at member
  split at member
  · cases List.mem_singleton.mp member
    exact .inl rfl
  · cases member

end Message

namespace Packet

variable {policy : Policy} {b tail : Octets} {frames : List Octets} {m : Message}

theorem messageRun_of_ok (ok : (Message.read policy b).outcome = .ok m) :
    messageRun policy b =
      ((messageRun policy (Message.read policy b).unread).1.map (m :: ·),
        (Message.read policy b).events ++ (messageRun policy (Message.read policy b).unread).2) := by
  have shorter := Message.read_shrinks ok
  have nonempty : b.isEmpty = false := by
    cases b with
    | nil => simp [messageHeaderSize] at shorter
    | cons => rfl
  rw [messageRun, nonempty, if_neg Bool.false_ne_true]
  split <;> simp_all

theorem messageRun_of_error {stop : Stop} (nonempty : b ≠ [])
    (refused : (Message.read policy b).outcome = .error stop) :
    messageRun policy b = (.error stop, (Message.read policy b).events) := by
  rw [messageRun, if_neg (by simpa using nonempty)]
  split <;> simp_all

theorem messageRun_nil (policy : Policy) : messageRun policy [] = (.ok [], []) := by
  rw [messageRun]
  rfl

theorem messageRun_of_runsTo
    (h : RunsTo (Message.IsFrame policy.strictReserved) b frames tail) :
    (messageRun policy b).1 =
        (messageRun policy tail).1.map (frames.map Message.ofFrame ++ ·) ∧
      (messageRun policy b).2.map record =
        (frames.map Message.ofFrame).flatMap Message.records ++
          (messageRun policy tail).2.map record := by
  induction frames generalizing b with
  | nil =>
    have front : tail = b := h.whole
    subst front
    exact ⟨by cases (messageRun policy tail).1 <;> rfl, rfl⟩
  | cons f frames ih =>
    obtain ⟨rest, front, frame, later⟩ := runsTo_cons_iff.mp h
    have given := Message.read_gives_iff.mpr ⟨f, front, frame, rfl⟩
    have first : (Message.read policy b).events.map record = (Message.ofFrame f).records := by
      rw [front]
      exact Message.records_read_of_isFrame frame rest
    rw [messageRun_of_ok given.1, given.2]
    constructor
    · dsimp only
      rw [(ih later).1]
      cases (messageRun policy tail).1 <;> rfl
    · rw [List.map_append, first, (ih later).2, List.map_cons, List.flatMap_cons,
        List.append_assoc]

theorem messageRun_of_splits (h : Splits (Message.IsFrame policy.strictReserved) b frames) :
    (messageRun policy b).1 = .ok (frames.map Message.ofFrame) ∧
      (messageRun policy b).2.map record =
        (frames.map Message.ofFrame).flatMap Message.records := by
  obtain ⟨run, recorded⟩ := messageRun_of_runsTo (h.runsTo fun _ => Message.IsFrame.ne_nil)
  rw [messageRun_nil, Except.map, List.append_nil] at run
  rw [messageRun_nil, List.map_nil, List.append_nil] at recorded
  exact ⟨run, recorded⟩

theorem messageRun_of_ends (nonempty : tail ≠ [])
    (ends : ∀ f rest, tail = f ++ rest → ¬ Message.IsFrame policy.strictReserved f) :
    ∃ stop, (Message.decode policy tail).outcome = .error stop ∧
      (messageRun policy tail).1 = .error stop ∧
      (messageRun policy tail).2.map record = Message.recordsRefused tail := by
  cases outcome : (Message.read policy tail).outcome with
  | ok m =>
    obtain ⟨f, front, frame, -⟩ := Message.read_gives_iff.mp ⟨outcome, rfl⟩
    exact absurd frame (ends f _ front)
  | error stop =>
    have refused := messageRun_of_error nonempty outcome
    refine ⟨stop, ?_, ?_, ?_⟩
    · rw [Message.decode, Reading.report_outcome, outcome]
    · rw [refused]
    · rw [refused]
      exact Message.records_read_of_error outcome

def finished (p : Packet) : Record :=
  ⟨"TRACE", "decoded packet",
    [("length", Nat.repr p.length.toNat), ("sequence_number", Nat.repr p.sequenceNumber.toNat),
      ("messages", Nat.repr p.messages.length)]⟩

/-- Where the decoding of a packet stops: before its payload, or at the first message that is
refused. With it the messages that were decoded and the octets from the refused message on. -/
inductive StopsAt (policy : Policy) (b : Octets) (error : DecodeError) :
    List Message → Octets → Prop where
  | header {consumed : Nat}
      (refused : (Framing.packet policy).refusal? b = some (error, consumed)) :
      StopsAt policy b error [] []
  | message {frames : List Octets} {tail : Octets}
      (whole : (Framing.packet policy).refusal? b = none)
      (run : RunsTo (Message.IsFrame policy.strictReserved) (payloadOf b) frames tail)
      (nonempty : tail ≠ [])
      (refused : (Message.decode policy tail).outcome = .error (.refused error)) :
      StopsAt policy b error (frames.map Message.ofFrame) tail

theorem read_of_early {error : DecodeError} {consumed : Nat}
    (early : (Framing.packet policy).refusal? b = some (error, consumed)) :
    (read policy b).outcome = .error (.refused error) ∧ (read policy b).events = [] := by
  rw [Framing.refusal?_packet] at early
  rw [read_apply]
  dsimp only at early ⊢
  split_ifs at early ⊢ <;> cases early <;> exact ⟨rfl, rfl⟩

theorem read_of_whole (whole : (Framing.packet policy).refusal? b = none) :
    let run := messageRun policy (payloadOf b)
    (read policy b).outcome = run.1.map (Packet.mk (word16At b 2)) ∧
      (read policy b).events =
        run.2 ++ eventsOf ⟨word16At b 0, word16At b 2⟩ run.1 := by
  rw [Framing.refusal?_packet] at whole
  rw [read_apply]
  dsimp only at whole ⊢
  split_ifs at whole ⊢
  exact ⟨rfl, rfl⟩

theorem record_decodedPacket {strict : Bool} {w : Octets} (frame : IsFrame strict w)
    (rest : Octets) : record (.decodedPacket (word16At (w ++ rest) 0)
      (word16At (w ++ rest) 2) (ofFrame w).messages.length) = (ofFrame w).finished := by
  have header := frame.header
  have length : (ofFrame w).length = word16At w 0 := by
    apply UInt16.toNat_inj.mp
    rw [length_ofFrame frame, frame.declared]
  rw [word16At_append (by omega), word16At_append (by omega), finished, length]
  rfl

theorem records_decode_of_ok {p : Packet} (ok : (decode policy b).outcome = .ok p) :
    (decode policy b).records = p.messages.flatMap Message.records ++ [p.finished] := by
  have stage := Framing.refusal?_eq_none_iff.mpr ((governed policy).whole_of_ok ok)
  obtain ⟨w, front, frame, -, rfl⟩ := decode_gives_iff.mp ⟨ok, rfl⟩
  obtain ⟨frames, splits⟩ := frame.messages
  have messages : (ofFrame w).messages = frames.map Message.ofFrame := by
    rw [Message.frames_eq_pieces splits]
    rfl
  have payload : payloadOf b = w.drop 4 := by rw [front, payloadOf_append frame]
  obtain ⟨run, recorded⟩ := messageRun_of_splits splits
  have written := record_decodedPacket frame (decode policy b).unread
  rw [← front, messages] at written
  obtain ⟨-, events⟩ := read_of_whole stage
  rw [payload, run] at events
  rw [decode] at ok ⊢
  rw [Reading.report_outcome] at ok
  rw [Reading.records_report_of_ok ok, Reading.records, events, List.map_append, recorded, eventsOf,
    messages, List.map_singleton, written]

theorem records_decode_of_refused {error : DecodeError}
    (refused : (decode policy b).outcome = .error (.refused error)) :
    ∃ before tail, StopsAt policy b error before tail ∧
      (decode policy b).records = before.flatMap Message.records ++ Message.recordsRefused tail ++
        [failure "failed to decode packet" error] := by
  rw [decode, Reading.report_outcome] at refused
  rw [decode, Reading.records_report_of_refused refused, Reading.records]
  cases stage : (Framing.packet policy).refusal? b with
  | some early =>
    obtain ⟨outcome, events⟩ := read_of_early stage
    rw [refused] at outcome
    cases outcome
    exact ⟨[], [], .header stage, by rw [events]; rfl⟩
  | none =>
    obtain ⟨outcome, events⟩ := read_of_whole stage
    obtain ⟨frames, tail, run⟩ := exists_runsTo
      (fun f (frame : Message.IsFrame policy.strictReserved f) => frame.ne_nil) (payloadOf b)
    have nonempty : tail ≠ [] := by
      rintro rfl
      rw [messageRun_eq_ok_iff.mpr ⟨frames, run.splits, rfl⟩, refused] at outcome
      cases outcome
    obtain ⟨first, recorded⟩ := messageRun_of_runsTo run
    obtain ⟨stop, stopped, last, noted⟩ := messageRun_of_ends nonempty run.ends
    rw [first, last, Except.map, Except.map, refused] at outcome
    cases outcome
    refine ⟨_, tail, .message stage run nonempty stopped, ?_⟩
    rw [events, List.map_append, recorded, noted, first, last, Except.map, eventsOf, List.map_nil,
      List.append_nil]
    rfl

end Packet

namespace Message

variable {policy : Policy} {b : Octets}

theorem records_decode_of_ok {m : Message} (ok : (decode policy b).outcome = .ok m) :
    (decode policy b).records = m.records := by
  obtain ⟨f, front, frame, rfl⟩ := decode_gives_iff.mp ⟨ok, rfl⟩
  rw [decode, Reading.report_outcome] at ok
  rw [decode, Reading.records_report_of_ok ok, front]
  exact records_read_of_isFrame frame _

theorem records_decode_of_refused {error : DecodeError}
    (refused : (decode policy b).outcome = .error (.refused error)) :
    (decode policy b).records =
      recordsRefused b ++ [failure "failed to decode message" error] := by
  rw [decode, Reading.report_outcome] at refused
  rw [decode, Reading.records_report_of_refused refused, records_read_of_error refused]
  rfl

theorem text_ne_of_mem_records_decode {r : Record} (member : r ∈ (decode policy b).records) :
    r.text ≠ "decoded packet" ∧ r.text ≠ "failed to decode packet" := by
  have settled := read_settles policy b
  rw [← Reading.report_outcome (read policy b) .messageFailed, ← decode] at settled
  cases answer : (decode policy b).outcome with
  | ok m =>
    rw [records_decode_of_ok answer] at member
    have text := (ofMessage_of_mem_records member).text_ne
    exact ⟨text.1, text.2.1⟩
  | error stop =>
    cases stop with
    | refused error =>
      rw [records_decode_of_refused answer, List.mem_append, List.mem_singleton] at member
      obtain noted | rfl := member
      · have text := (ofMessage_of_mem_recordsRefused noted).text_ne
        exact ⟨text.1, text.2.1⟩
      · rw [failure_text]
        decide
    | fault fault =>
      rw [answer] at settled
      exact settled.elim

end Message

/-- What a decoder records, from what it answers. A packet that is taken has the records of its
messages and its own. One that is refused has those of the messages before it stops, that of the
message it stops at if the octets of that are all there, and the refusal. A message by itself is
recorded in the same way. -/
theorem records_tell_answer (policy : Policy) (b : Octets) :
    (∀ p, (Packet.decode policy b).outcome = .ok p →
      (Packet.decode policy b).records = p.messages.flatMap Message.records ++ [p.finished]) ∧
    (∀ error, (Packet.decode policy b).outcome = .error (.refused error) →
      (∃ before tail, Packet.StopsAt policy b error before tail ∧
        (Packet.decode policy b).records =
          before.flatMap Message.records ++ Message.recordsRefused tail ++
            [failure "failed to decode packet" error]) ∧
      ∀ r ∈ (Packet.decode policy b).records,
        r.text ≠ "decoded packet" ∧ r.text ≠ "failed to decode message") ∧
    (∀ m, (Message.decode policy b).outcome = .ok m →
      (Message.decode policy b).records = m.records) ∧
    (∀ error, (Message.decode policy b).outcome = .error (.refused error) →
      (Message.decode policy b).records =
        Message.recordsRefused b ++ [failure "failed to decode message" error]) ∧
    ∀ r ∈ (Message.decode policy b).records,
      r.text ≠ "decoded packet" ∧ r.text ≠ "failed to decode packet" := by
  refine ⟨fun p => Packet.records_decode_of_ok, fun error refused => ?_,
    fun m => Message.records_decode_of_ok, fun error => Message.records_decode_of_refused,
    fun r => Message.text_ne_of_mem_records_decode⟩
  obtain ⟨before, tail, stops, same⟩ := Packet.records_decode_of_refused refused
  refine ⟨⟨before, tail, stops, same⟩, fun r member => ?_⟩
  rw [same, List.mem_append, List.mem_append, List.mem_singleton] at member
  obtain (noted | noted) | rfl := member
  · obtain ⟨m, -, noted⟩ := List.mem_flatMap.mp noted
    have text := (Message.ofMessage_of_mem_records noted).text_ne
    exact ⟨text.1, text.2.2⟩
  · have text := (Message.ofMessage_of_mem_recordsRefused noted).text_ne
    exact ⟨text.1, text.2.2⟩
  · rw [failure_text]
    decide

/-- The records of a packet with one message of a foreign type. -/
theorem foreign_message_recorded :
    let w : Octets := [0, 17, 0, 7] ++ [9, 0, 0, 13, 10, 0, 0, 1, 255, 0, 0, 1, 5]
    (Packet.decode .strict w).outcome = .ok (Packet.ofFrame w) ∧
      (Packet.decode .strict w).records =
        [⟨"TRACE", "decoding message",
            [("type_byte", "9"), ("size", "13"), ("originator", "10.0.0.1"),
              ("sequence_number", "1")]⟩,
          ⟨"DEBUG", "passing through message of unknown type",
            [("type_byte", "9"), ("size", "13"), ("originator", "10.0.0.1")]⟩,
          ⟨"TRACE", "decoded packet",
            [("length", "17"), ("sequence_number", "7"), ("messages", "1")]⟩] := by
  intro w
  have accepted : (Packet.decode .strict w).outcome = .ok (Packet.ofFrame w) := by
    decide +kernel
  refine ⟨accepted, ?_⟩
  rw [(records_tell_answer .strict w).1 _ accepted]
  decide +kernel

end Olsr
