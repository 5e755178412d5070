import Olsr.Proofs.Acceptance

/-!
Decoding arbitrary octets. A decoder answers with a value or a refusal and comes to no fault: each
unguarded read finds its octets, and no length is taken below zero. Inside a body even the guarded
reads find their octets, because the lengths have been checked before. That rests on one invariant:
what a run of link messages has consumed and what is left of it make up what was declared.
-/

namespace Olsr

open Octets

def DecodeError.RefusesBody (policy : Policy) : DecodeError → Prop
  | malformedLength _ _ _ => True
  | bufferUnderrun _ _ => False
  | reservedNonZero _ value => policy.strictReserved = true ∧ value ≠ 0

open DecodeError (RefusesBody)

namespace Cursor

variable {α β : Type} {P Q : DecodeError → Prop}

/-- A value or a refusal of the kind `P`, but no fault. -/
def Settles (P : DecodeError → Prop) : Except Stop α → Prop
  | .ok _ => True
  | .error (.refused error) => P error
  | .error (.fault _) => False

-- An unguarded read past the end does not settle.
example : ¬ Settles (fun _ => True) (nextWord16 [7]) := id

theorem Settles.map {r : Except Stop α} (h : Settles P r) (f : α → β) : Settles P (r.map f) := by
  cases r with
  | ok x => trivial
  | error stop =>
    cases stop with
    | refused error => exact h
    | fault fault => exact h

theorem Settles.mono {r : Except Stop α} (h : Settles P r) (imp : ∀ error, P error → Q error) :
    Settles Q r := by
  cases r with
  | ok x => trivial
  | error stop =>
    cases stop with
    | refused error => exact imp error h
    | fault fault => exact h

theorem Settles.mapReader {x : Cursor α} {b : Octets} (h : Settles P (x b)) (f : α → β) :
    Settles P ((f <$> x) b) := by
  rw [map_apply]
  exact h.map _

theorem toEnd_settles {item : Cursor α} {shrinks : Shrinks item}
    (each : ∀ b, Settles P (item b)) (b : Octets) : Settles P (toEnd item shrinks b) := by
  induction length : b.length using Nat.strongRecOn generalizing b with
  | ind n ih =>
    by_cases empty : b = []
    · rw [empty, toEnd_nil]
      trivial
    have settled := each b
    cases h : item b with
    | error stop =>
      rw [h] at settled
      rw [toEnd_of_error empty h]
      cases stop with
      | refused error => exact settled
      | fault fault => exact settled
    | ok result =>
      have shorter := shrinks b result.1 result.2 h
      rw [toEnd_of_ok h]
      exact (ih result.2.length (by omega) result.2 rfl).map _

end Cursor

open Cursor (Settles)

namespace LinkMessage

variable {policy : Policy} {links b : Octets} {declared consumed : Nat}

/-- The states in which a run over `links` comes to its test: the number of octets consumed so far
and the octets still to be read. -/
inductive LoopHead (policy : Policy) (links : Octets) : Nat → Octets → Prop where
  | start : LoopHead policy links 0 links
  | next {consumed size : Nat} {b rest : Octets} {l : LinkMessage}
      (head : LoopHead policy links consumed b) (more : consumed < links.length)
      (read : reader policy links.length consumed b = .ok ((l, size), rest)) :
      LoopHead policy links (consumed + size) rest

theorem reader_advances {size : Nat} {rest : Octets} {l : LinkMessage}
    (left : consumed + b.length = declared)
    (read : reader policy declared consumed b = .ok ((l, size), rest)) :
    linkHeaderSize ≤ size ∧ rest.length + size = b.length := by
  obtain ⟨r, front, -, -, counted⟩ := (reader_eq_ok_iff left).mp read
  refine ⟨linkHeaderSize_le_of_reader read, ?_⟩
  rw [front, List.length_append, counted, Nat.add_comm]

theorem LoopHead.consumed_add_length (head : LoopHead policy links consumed b) :
    consumed + b.length = links.length := by
  induction head with
  | start => exact Nat.zero_add _
  | next _ _ read ih =>
    have := reader_advances ih read
    omega

/-- A run passes through its loop heads: from each of them it goes on as from the start. -/
theorem LoopHead.run_eq (head : LoopHead policy links consumed b) :
    ∃ before, run policy links.length 0 links =
      (run policy links.length consumed b).map (before ++ ·) := by
  induction head with
  | start => exact ⟨[], by cases run policy links.length 0 links <;> rfl⟩
  | @next consumed size b rest l _ more read ih =>
    obtain ⟨before, same⟩ := ih
    refine ⟨before ++ [l], ?_⟩
    have pass : run policy links.length consumed b =
        (run policy links.length (consumed + size) rest).map (l :: ·) := by
      rw [run, if_pos more]
      split <;> simp_all
    rw [same, pass]
    cases run policy links.length (consumed + size) rest <;> simp [Except.map]

theorem reader_settles (left : consumed + b.length = declared) :
    Settles (RefusesBody policy) (reader policy declared consumed b) := by
  rw [reader_apply policy left]
  dsimp only
  split_ifs with short reserved least beyond odd
  · trivial
  · exact ⟨reserved.1, fun zero => reserved.2 (octet_toNat_eq_zero.mp zero)⟩
  · trivial
  · trivial
  · trivial
  · trivial

theorem run_settles (policy : Policy) (links : Octets) :
    Settles (RefusesBody policy) (run policy links.length 0 links) := by
  rw [run_eq_toEnd (Nat.zero_add _)]
  exact Cursor.toEnd_settles (fun b => (reader_settles rfl).map _) links

end LinkMessage

theorem Hello.reader_settles (policy : Policy) (b : Octets) :
    Settles (RefusesBody policy) (reader policy b) := by
  rw [reader_apply]
  split_ifs with short reserved
  · trivial
  · exact ⟨reserved.1, fun zero => reserved.2 (word_toNat_eq_zero.mp zero)⟩
  · exact (LinkMessage.run_settles policy (b.drop 4)).map _

theorem Tc.reader_settles (policy : Policy) (b : Octets) :
    Settles (RefusesBody policy) (reader policy b) := by
  rw [reader_apply]
  split_ifs with short reserved odd
  · trivial
  · exact ⟨reserved.1, fun zero => reserved.2 (word_toNat_eq_zero.mp zero)⟩
  · trivial
  · trivial

theorem Mid.reader_settles (policy : Policy) (b : Octets) :
    Settles (RefusesBody policy) (reader b) := by
  rw [reader_apply]
  split <;> trivial

theorem Hna.reader_settles (policy : Policy) (b : Octets) :
    Settles (RefusesBody policy) (reader b) := by
  rw [reader_apply]
  split <;> trivial

theorem Body.decode_settles (policy : Policy) (typeByte : UInt8) (b : Octets) :
    Settles (RefusesBody policy) (decode policy typeByte b) := by
  change Settles _ ((reader policy typeByte b).map Prod.fst)
  apply Settles.map
  unfold reader
  cases MessageType.ofByte? typeByte with
  | none => trivial
  | some type =>
    cases type with
    | mid => exact (Mid.reader_settles policy b).mapReader mid
    | hello => exact (Hello.reader_settles policy b).mapReader hello
    | tc => exact (Tc.reader_settles policy b).mapReader tc
    | hna => exact (Hna.reader_settles policy b).mapReader hna

/-- A refusal that agrees with the policy: a reserved field only if it is checked and not zero. -/
def DecodeError.Permitted (policy : Policy) : DecodeError → Prop
  | reservedNonZero _ value => policy.strictReserved = true ∧ value ≠ 0
  | _ => True

theorem DecodeError.RefusesBody.permitted {policy : Policy} {error : DecodeError}
    (h : RefusesBody policy error) : Permitted policy error := by
  cases error with
  | malformedLength | bufferUnderrun => trivial
  | reservedNonZero => exact h

theorem Message.read_permitted (policy : Policy) (b : Octets) :
    Settles (DecodeError.Permitted policy) (read policy b).outcome := by
  rw [read_apply]
  dsimp only
  split_ifs with short least beyond
  · trivial
  · trivial
  · trivial
  · exact ((Body.decode_settles policy _ _).mono fun _ => RefusesBody.permitted).map _

theorem Message.read_settles (policy : Policy) (b : Octets) :
    Settles (fun _ => True) (read policy b).outcome :=
  (read_permitted policy b).mono fun _ _ => trivial

theorem Packet.messageRun_permitted (policy : Policy) (payload : Octets) :
    Settles (DecodeError.Permitted policy) (messageRun policy payload).1 := by
  rw [messageRun_eq_toEnd]
  exact Cursor.toEnd_settles (fun b => (Message.read_permitted policy b).map _) payload

theorem Packet.read_permitted (policy : Policy) (b : Octets) :
    Settles (DecodeError.Permitted policy) (read policy b).outcome := by
  rw [read_apply]
  dsimp only
  split_ifs with short least above beyond
  · trivial
  · trivial
  · trivial
  · trivial
  · exact (messageRun_permitted policy _).map _

theorem Packet.read_settles (policy : Policy) (b : Octets) :
    Settles (fun _ => True) (read policy b).outcome :=
  (read_permitted policy b).mono fun _ _ => trivial

/-- On any octets the decoders answer with a value or a refusal. A body is refused for a length or,
by a strict policy, for a reserved field that is not zero. A run of link messages has before it what
it has not consumed and goes on by a header at least, as a run of messages does. -/
theorem decoding_never_faults (policy : Policy) :
    (∀ b, Settles (fun _ => True) (Packet.decode policy b).outcome) ∧
    (∀ b, Settles (fun _ => True) (Message.decode policy b).outcome) ∧
    (∀ typeByte b, Settles (RefusesBody policy) (Body.decode policy typeByte b)) ∧
    (∀ links consumed b, LinkMessage.LoopHead policy links consumed b →
      (∃ before, LinkMessage.run policy links.length 0 links =
        (LinkMessage.run policy links.length consumed b).map (before ++ ·)) ∧
      consumed ≤ links.length ∧ b.length = links.length - consumed ∧
      ∀ l size rest,
        LinkMessage.reader policy links.length consumed b = .ok ((l, size), rest) →
          linkHeaderSize ≤ size ∧ rest.length + size = b.length) ∧
    ∀ b m rest, (Message.read policy b).Gives m rest →
      rest.length + messageHeaderSize ≤ b.length := by
  refine ⟨fun b => ?_, fun b => ?_, Body.decode_settles policy, fun links consumed b head => ?_,
    fun b m rest given => ?_⟩
  · rw [Packet.decode, Reading.report_outcome]
    exact Packet.read_settles policy b
  · rw [Message.decode, Reading.report_outcome]
    exact Message.read_settles policy b
  · have whole := head.consumed_add_length
    exact ⟨head.run_eq, by omega, by omega, fun _ _ _ => LinkMessage.reader_advances whole⟩
  · rw [← given.2]
    exact Message.read_shrinks given.1

end Olsr
