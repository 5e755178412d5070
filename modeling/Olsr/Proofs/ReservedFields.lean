import Olsr.Proofs.Policies
import Olsr.Proofs.Safety

/-!
The reserved fields of a packet in the order in which they stand, and what a strict decoder makes of
them. Where the lenient decoder has an answer, the strict one has the same unless some reserved field
is not zero, and then it names the first such field. Where the lenient decoder refuses, the strict one
refuses too, for the same reason unless it meets a reserved field before.
-/

namespace Olsr

open Octets

structure Reserved where
  field : ReservedField
  value : Nat
  deriving DecidableEq

def LinkMessage.reserved (r : Octets) : List Reserved := [⟨.linkMessage, (octetAt r 1).toNat⟩]

def Hello.reserved (b : Octets) : List Reserved :=
  ⟨.hello, (word16At b 0).toNat⟩ :: (pieces (b.drop 4)).flatMap LinkMessage.reserved

def Tc.reserved (b : Octets) : List Reserved := [⟨.tc, (word16At b 2).toNat⟩]

def Body.reserved (typeByte : UInt8) (b : Octets) : List Reserved :=
  match MessageType.ofByte? typeByte with
  | some .hello => Hello.reserved b
  | some .tc => Tc.reserved b
  | _ => []

def Message.reserved (f : Octets) : List Reserved := Body.reserved (octetAt f 0) (f.drop 12)

def Packet.reserved (w : Octets) : List Reserved := (pieces (w.drop 4)).flatMap Message.reserved

namespace Reserved

variable {α β : Type}

def first? (fields : List Reserved) : Option Reserved := fields.find? (·.value != 0)

/-- The answer, unless one of these fields is not zero. Then the first such field is refused. -/
def guarded (fields : List Reserved) (answer : Except Stop α) : Except Stop α :=
  match first? fields with
  | none => answer
  | some r => .error (.refused (.reservedNonZero r.field r.value))

theorem guarded_nil (answer : Except Stop α) : guarded [] answer = answer := rfl

theorem guarded_cons (r : Reserved) (fields : List Reserved) (answer : Except Stop α) :
    guarded (r :: fields) answer =
      if r.value ≠ 0 then .error (.refused (.reservedNonZero r.field r.value))
      else guarded fields answer := by
  unfold guarded first?
  by_cases zero : r.value = 0 <;> simp [zero]

theorem guarded_append (xs ys : List Reserved) (answer : Except Stop α) :
    guarded (xs ++ ys) answer = guarded xs (guarded ys answer) := by
  induction xs with
  | nil => rfl
  | cons r xs ih => rw [List.cons_append, guarded_cons, guarded_cons, ih]

theorem guarded_map (fields : List Reserved) (answer : Except Stop α) (f : α → β) :
    (guarded fields answer).map f = guarded fields (answer.map f) := by
  unfold guarded
  cases first? fields <;> rfl

variable {fields : List Reserved} {r : Reserved}

theorem value_of_first? (found : first? fields = some r) : r.value ≠ 0 := by
  simpa using List.find?_some found

theorem guarded_of_first? (found : first? fields = some r) (answer : Except Stop α) :
    guarded fields answer = .error (.refused (.reservedNonZero r.field r.value)) := by
  rw [guarded, found]

theorem guarded_of_zero (zero : first? fields = none) (answer : Except Stop α) :
    guarded fields answer = answer := by
  rw [guarded, zero]

end Reserved

open Reserved (guarded first?)

/-- How the strict answer on some octets follows from the lenient one and the reserved fields. -/
structure Stricter {α : Type} (fields : List Reserved) (lenient strict : Except Stop α) : Prop where
  accepted : ∀ x, lenient = .ok x → strict = guarded fields (.ok x)
  rejected : ∀ stop, lenient = .error stop →
    strict = .error stop ∨
      ∃ field value, value ≠ 0 ∧ strict = .error (.refused (.reservedNonZero field value))

namespace Stricter

variable {α β : Type} {fields : List Reserved} {lenient strict : Except Stop α}

theorem same (answer : Except Stop α) : Stricter [] answer answer :=
  ⟨fun _ => id, fun _ => .inl⟩

theorem error (fields : List Reserved) (stop : Stop) :
    Stricter fields (.error stop : Except Stop α) (.error stop) :=
  ⟨nofun, fun _ => .inl⟩

theorem map (h : Stricter fields lenient strict) (f : α → β) :
    Stricter fields (lenient.map f) (strict.map f) := by
  cases lenient with
  | ok x =>
    rw [h.accepted x rfl, Reserved.guarded_map]
    exact ⟨fun y e => by rw [← e], nofun⟩
  | error stop =>
    refine ⟨nofun, fun stop' e => ?_⟩
    cases e
    cases h.rejected stop rfl with
    | inl equal =>
      rw [equal]
      exact .inl rfl
    | inr reserved =>
      obtain ⟨field, value, nonzero, refused⟩ := reserved
      rw [refused]
      exact .inr ⟨field, value, nonzero, rfl⟩

theorem guard (first : List Reserved) (h : Stricter fields lenient strict) :
    Stricter (first ++ fields) lenient (guarded first strict) := by
  refine ⟨fun x e => ?_, fun stop e => ?_⟩
  · rw [Reserved.guarded_append, h.accepted x e]
  · cases found : first? first with
    | none =>
      rw [Reserved.guarded_of_zero found]
      exact h.rejected stop e
    | some r =>
      rw [Reserved.guarded_of_first? found]
      exact .inr ⟨r.field, r.value, Reserved.value_of_first? found, rfl⟩

theorem check {field : ReservedField} {value : Nat} {nonzero : Prop} [Decidable nonzero]
    (nonzero_iff : nonzero ↔ value ≠ 0) {stop : Stop} (h : Stricter fields lenient strict) :
    Stricter (⟨field, value⟩ :: fields)
      (if false = true ∧ nonzero then .error stop else lenient)
      (if true = true ∧ nonzero then .error (.refused (.reservedNonZero field value))
        else strict) := by
  have guards := h.guard [⟨field, value⟩]
  rw [Reserved.guarded_cons, Reserved.guarded_nil, List.singleton_append] at guards
  simpa only [Bool.false_eq_true, false_and, if_false, true_and, nonzero_iff] using guards

end Stricter

/-- Items to the end, where each item has its reserved fields in a piece that says its own length. -/
theorem Cursor.toEnd_stricter {α : Type} {item item' : Cursor α} {shrinks : Shrinks item}
    {shrinks' : Shrinks item'} {fieldsAt fields : Octets → List Reserved}
    (each : ∀ b, Stricter (fieldsAt b) (item b) (item' b))
    (piece : ∀ b x rest, item b = .ok (x, rest) →
      ∃ r, b = r ++ rest ∧ Sized r ∧ fieldsAt b = fields r) (b : Octets) :
    Stricter ((pieces b).flatMap fields) (toEnd item shrinks b) (toEnd item' shrinks' b) := by
  induction length : b.length using Nat.strongRecOn generalizing b with
  | ind n ih =>
    by_cases empty : b = []
    · rw [empty, toEnd_nil, toEnd_nil, pieces_nil]
      exact .same _
    cases h : item b with
    | error stop =>
      rw [toEnd_of_error empty h]
      cases (each b).rejected stop h with
      | inl equal =>
        rw [toEnd_of_error empty equal]
        exact .error _ _
      | inr reserved =>
        obtain ⟨field, value, nonzero, refused⟩ := reserved
        rw [toEnd_of_error empty refused]
        exact ⟨nofun, fun _ _ => .inr ⟨field, value, nonzero, rfl⟩⟩
    | ok result =>
      obtain ⟨x, rest⟩ := result
      obtain ⟨r, front, sized, here⟩ := piece b x rest h
      have strict := (each b).accepted _ h
      have shorter := shrinks b x rest h
      have later := (ih rest.length (by omega) rest rfl).map (x :: ·)
      have both : toEnd item' shrinks' b =
          guarded (fields r) ((toEnd item' shrinks' rest).map (x :: ·)) := by
        rw [here] at strict
        cases found : first? (fields r) with
        | none =>
          rw [Reserved.guarded_of_zero found] at strict ⊢
          exact toEnd_of_ok strict
        | some reserved =>
          rw [Reserved.guarded_of_first? found] at strict ⊢
          exact toEnd_of_error empty strict
      rw [toEnd_of_ok h, both, front, pieces_append sized, List.flatMap_cons]
      exact later.guard (fields r)

variable (cap : Nat)

namespace LinkMessage

theorem item_stricter (declared : Nat) (b : Octets) :
    Stricter (reserved b) (item ⟨false, cap⟩ declared b) (item ⟨true, cap⟩ declared b) := by
  unfold item
  refine Stricter.map ?_ _
  rw [reader_apply _ rfl, reader_apply _ rfl]
  dsimp only
  by_cases short : b.length < 4
  · rw [if_pos short, if_pos short]
    exact .error _ _
  · rw [if_neg short, if_neg short]
    exact .check (not_congr octet_toNat_eq_zero).symm (.same _)

theorem run_stricter (links : Octets) :
    Stricter ((pieces links).flatMap reserved)
      (run ⟨false, cap⟩ links.length 0 links) (run ⟨true, cap⟩ links.length 0 links) := by
  rw [run_eq_toEnd (Nat.zero_add _), run_eq_toEnd (Nat.zero_add _)]
  refine Cursor.toEnd_stricter (item_stricter cap links.length) (fun b l rest read => ?_) links
  obtain ⟨r, rfl, record, -⟩ := item_eq_ok_iff.mp read
  have header := record.sized.header
  refine ⟨r, rfl, record.sized, ?_⟩
  rw [reserved, octetAt_append (by omega), reserved]

end LinkMessage

theorem Hello.reader_stricter (b : Octets) :
    Stricter (reserved b) (reader ⟨false, cap⟩ b) (reader ⟨true, cap⟩ b) := by
  rw [reader_apply, reader_apply]
  by_cases short : b.length < 4
  · rw [if_pos short, if_pos short]
    exact .error _ _
  · rw [if_neg short, if_neg short]
    exact .check (not_congr word_toNat_eq_zero).symm ((LinkMessage.run_stricter cap _).map _)

theorem Tc.reader_stricter (b : Octets) :
    Stricter (reserved b) (reader ⟨false, cap⟩ b) (reader ⟨true, cap⟩ b) := by
  rw [reader_apply, reader_apply]
  by_cases short : b.length < 4
  · rw [if_pos short, if_pos short]
    exact .error _ _
  · rw [if_neg short, if_neg short]
    exact .check (not_congr word_toNat_eq_zero).symm (.same _)

theorem Body.decode_stricter (typeByte : UInt8) (b : Octets) :
    Stricter (reserved typeByte b) (decode ⟨false, cap⟩ typeByte b)
      (decode ⟨true, cap⟩ typeByte b) := by
  change Stricter _ ((reader _ typeByte b).map Prod.fst) ((reader _ typeByte b).map Prod.fst)
  refine Stricter.map ?_ _
  unfold reader reserved
  match MessageType.ofByte? typeByte with
  | some .hello =>
    simp only [Cursor.map_apply]
    exact (Hello.reader_stricter cap b).map _
  | some .tc =>
    simp only [Cursor.map_apply]
    exact (Tc.reader_stricter cap b).map _
  | some .mid | some .hna | none => exact .same _

namespace Message

theorem read_stricter (b : Octets) :
    Stricter (reserved (b.take (word16At b 2).toNat))
      (read ⟨false, cap⟩ b).outcome (read ⟨true, cap⟩ b).outcome := by
  rw [read_apply, read_apply]
  dsimp only
  split_ifs with short least beyond
  · exact .error _ _
  · exact .error _ _
  · exact .error _ _
  · rw [reserved, octetAt_take (by omega)]
    exact (Body.decode_stricter cap _ _).map _

theorem item_stricter (b : Octets) :
    Stricter (reserved (b.take (word16At b 2).toNat)) (item ⟨false, cap⟩ b)
      (item ⟨true, cap⟩ b) := by
  unfold item
  rw [read_unread ⟨false, cap⟩, read_unread ⟨true, cap⟩]
  exact (read_stricter cap b).map _

end Message

namespace Packet

theorem messageRun_stricter (payload : Octets) :
    Stricter ((pieces payload).flatMap Message.reserved)
      (messageRun ⟨false, cap⟩ payload).1 (messageRun ⟨true, cap⟩ payload).1 := by
  rw [messageRun_eq_toEnd, messageRun_eq_toEnd]
  refine Cursor.toEnd_stricter (Message.item_stricter cap) (fun b m rest read => ?_) payload
  obtain ⟨f, rfl, frame, -⟩ := Message.item_eq_ok_iff.mp read
  have header := frame.header
  refine ⟨f, rfl, frame.sized, ?_⟩
  rw [word16At_append (by omega), ← frame.declared, List.take_left]

theorem decode_stricter (b : Octets) :
    Stricter (reserved (b.take (word16At b 0).toNat))
      (decode ⟨false, cap⟩ b).outcome (decode ⟨true, cap⟩ b).outcome := by
  rw [decode, decode, Reading.report_outcome, Reading.report_outcome, read_apply, read_apply]
  dsimp only
  split_ifs with short least above beyond
  · exact .error _ _
  · exact .error _ _
  · exact .error _ _
  · exact .error _ _
  · exact (messageRun_stricter cap _).map _

end Packet

end Olsr
