import Mathlib.Tactic.SplitIfs
import Olsr.Proofs.Policies

/-!
Why the link messages of a HELLO are refused. They are good records up to a tail that does not begin
with one. Where that tail is, is settled by the octets, and the refusal is settled by the tail and
the size of the body: nothing in the records before it has a say.
-/

namespace Olsr

open Octets

namespace LinkMessage

def refusal? (bodySize : Nat) (tail : Octets) : Option DecodeError :=
  let size := (word16At tail 2).toNat
  if tail.length < 4 then some (.malformedLength .helloBody bodySize .trailingOctets)
  else if size < 4 then some (.malformedLength .linkMessage size .belowLinkHeader)
  else if tail.length < size then some (.malformedLength .linkMessage size .overrunsHello)
  else if ¬ 4 ∣ size then some (.malformedLength .linkMessage (size - 4) .partialAddress)
  else none

variable {bodySize : Nat} {tail : Octets}

theorem refusal?_eq_none_iff :
    refusal? bodySize tail = none ↔ ∃ r rest, tail = r ++ rest ∧ IsRecord false r := by
  unfold refusal?
  dsimp only
  constructor
  · intro accepted
    split_ifs at accepted with short least beyond odd
    have count : (tail.take (word16At tail 2).toNat).length = (word16At tail 2).toNat :=
      List.length_take_of_le (by omega)
    refine ⟨_, _, (List.take_append_drop (word16At tail 2).toNat tail).symm, ⟨by omega, ?_⟩, ?_,
      nofun⟩
    · rw [count, word16At_take (by omega)]
    · rwa [count]
  · rintro ⟨r, rest, rfl, record⟩
    have header := record.sized.header
    have size : (word16At (r ++ rest) 2).toNat = r.length := by
      rw [word16At_append (by omega), ← record.sized.declared]
    have aligned := record.aligned
    rw [size, List.length_append, if_neg (by omega), if_neg (by omega), if_neg (by omega),
      if_neg (by omega)]

variable {policy : Policy} {links : Octets} {records : List Octets}

theorem exists_refusal (h : RunsTo (IsRecord false) links records tail) (bodySize : Nat) :
    ∃ error, refusal? bodySize tail = some error := by
  refine Option.ne_none_iff_exists'.mp fun accepted => ?_
  obtain ⟨r, rest, front, record⟩ := refusal?_eq_none_iff.mp accepted
  exact h.ends r rest front record

/-- The reserved octets that a run comes to are zero: those of the records, and that of the header
at the tail if the tail can hold one. -/
structure Clear (records : List Octets) (tail : Octets) : Prop where
  records : ∀ r ∈ records, octetAt r 1 = 0
  tail : 4 ≤ tail.length → octetAt tail 1 = 0

theorem item_of_refusal {declared : Nat} {error : DecodeError} (present : tail.length ≤ declared)
    (clear : policy.strictReserved = true → 4 ≤ tail.length → octetAt tail 1 = 0)
    (refused : refusal? (declared + 4) tail = some error) :
    item policy declared tail = .error (.refused error) := by
  have whole : declared - tail.length + tail.length = declared := by omega
  rw [item, reader_apply policy rfl, whole]
  unfold refusal? at refused
  dsimp only at refused ⊢
  by_cases short : tail.length < 4
  · rw [if_pos short] at refused ⊢
    cases refused
    rfl
  · have unset : ¬(policy.strictReserved = true ∧ octetAt tail 1 ≠ 0) := by
      rintro ⟨strict, nonzero⟩
      exact nonzero (clear strict (by omega))
    rw [if_neg short] at refused ⊢
    rw [if_neg unset]
    split_ifs at refused ⊢ <;> cases refused <;> rfl

theorem run_of_runsTo (h : RunsTo (IsRecord false) links records tail)
    (clear : policy.strictReserved = true → Clear records tail) :
    (tail = [] → run policy links.length 0 links = .ok (records.map ofRecord)) ∧
    (tail ≠ [] → ∀ error, refusal? (links.length + 4) tail = some error →
      run policy links.length 0 links = .error (.refused error)) := by
  have kind : ∀ r ∈ records, IsRecord policy.strictReserved r := fun r member =>
    ⟨(h.pieces r member).sized, (h.pieces r member).aligned,
      fun strict => (clear strict).records r member⟩
  have front : Cursor.toEnd (item policy links.length) (item_shrinks policy _)
      (records.flatten ++ tail) = _ :=
    Cursor.toEnd_append (fun r rest record => item_eq_ok_iff.mpr ⟨r, rfl, record, rfl⟩) kind tail
  rw [h.whole, ← run_eq_toEnd (Nat.zero_add _)] at front
  have present : tail.length ≤ links.length := by
    rw [← h.whole, List.length_append]
    exact Nat.le_add_left ..
  refine ⟨fun empty => ?_, fun nonempty error refused => ?_⟩
  · rw [front, empty, Cursor.toEnd_nil, Except.map, List.append_nil]
  · have first := item_of_refusal present (fun strict => (clear strict).tail) refused
    rw [front, Cursor.toEnd_of_error nonempty first]
    rfl

end LinkMessage

namespace Hello

structure Clear (b : Octets) (records : List Octets) (tail : Octets) : Prop where
  fixed : word16At b 0 = 0
  links : LinkMessage.Clear records tail

variable {policy : Policy} {b tail : Octets} {records : List Octets}

theorem decode_of_runsTo (fixed : 4 ≤ b.length)
    (h : RunsTo (LinkMessage.IsRecord false) (b.drop 4) records tail)
    (clear : policy.strictReserved = true → Clear b records tail) :
    (tail = [] → Body.decode policy MessageType.hello.byte b =
      .ok (.hello ⟨CompactTime.decodeDuration (octetAt b 2), ⟨octetAt b 3⟩,
        records.map LinkMessage.ofRecord⟩)) ∧
    (tail ≠ [] → ∀ error, LinkMessage.refusal? b.length tail = some error →
      Body.decode policy MessageType.hello.byte b = .error (.refused error)) := by
  have unset : ¬(policy.strictReserved = true ∧ word16At b 0 ≠ 0) :=
    fun ⟨strict, nonzero⟩ => nonzero (clear strict).fixed
  have whole : (b.drop 4).length + 4 = b.length := by
    rw [List.length_drop]
    omega
  have body : Body.decode policy MessageType.hello.byte b =
      ((.hello <$> reader policy : Cursor Body) b).map Prod.fst := rfl
  have run := LinkMessage.run_of_runsTo h fun strict => (clear strict).links
  rw [whole] at run
  rw [body, Cursor.map_apply, reader_apply, if_neg (by omega), if_neg unset]
  refine ⟨fun empty => ?_, fun nonempty error refused => ?_⟩
  · rw [run.1 empty]
    rfl
  · rw [run.2 nonempty error refused]
    rfl

theorem refused_of_runsTo (cap : Nat) (fixed : 4 ≤ b.length)
    (h : RunsTo (LinkMessage.IsRecord false) (b.drop 4) records tail) (nonempty : tail ≠ []) :
    ∃ error, LinkMessage.refusal? b.length tail = some error ∧
      Body.decode ⟨false, cap⟩ MessageType.hello.byte b = .error (.refused error) := by
  obtain ⟨error, refused⟩ := LinkMessage.exists_refusal h b.length
  have clear : (⟨false, cap⟩ : Policy).strictReserved = true → Clear b records tail := nofun
  exact ⟨error, refused, (decode_of_runsTo fixed h clear).2 nonempty error refused⟩

theorem refused_iff (cap : Nat) (fixed : 4 ≤ b.length)
    (h : RunsTo (LinkMessage.IsRecord false) (b.drop 4) records tail) :
    (∃ stop, Body.decode ⟨false, cap⟩ MessageType.hello.byte b = .error stop) ↔ tail ≠ [] := by
  have clear : (⟨false, cap⟩ : Policy).strictReserved = true → Clear b records tail := nofun
  constructor
  · rintro ⟨stop, refused⟩ empty
    rw [(decode_of_runsTo fixed h clear).1 empty] at refused
    cases refused
  · intro nonempty
    obtain ⟨error, -, refused⟩ := refused_of_runsTo cap fixed h nonempty
    exact ⟨_, refused⟩

theorem decode_strict_eq_lenient (cap : Nat) (fixed : 4 ≤ b.length)
    (h : RunsTo (LinkMessage.IsRecord false) (b.drop 4) records tail)
    (clear : Clear b records tail) (strict : Bool) :
    Body.decode ⟨strict, cap⟩ MessageType.hello.byte b =
      Body.decode ⟨false, cap⟩ MessageType.hello.byte b := by
  have either (policy : Policy) :=
    decode_of_runsTo fixed h fun (_ : policy.strictReserved = true) => clear
  by_cases empty : tail = []
  · rw [(either ⟨strict, cap⟩).1 empty, (either ⟨false, cap⟩).1 empty]
  · obtain ⟨error, refused, same⟩ := refused_of_runsTo cap fixed h empty
    rw [(either ⟨strict, cap⟩).2 empty error refused, same]

/-- The lenient decoder refuses a body exactly if its link messages run to a tail that is not empty.
There is one such tail, and with the size of the body it settles the refusal, whatever the records
before it hold. The strict decoder answers the same where no reserved field is set. -/
theorem refused_at_first_bad_record (cap : Nat) {b : Octets} (fixed : 4 ≤ b.length) :
    let answer := Body.decode ⟨false, cap⟩ MessageType.hello.byte
    ((∃ stop, answer b = .error stop) ↔
      ∃ records tail, RunsTo (LinkMessage.IsRecord false) (b.drop 4) records tail ∧ tail ≠ []) ∧
    ∀ records tail, RunsTo (LinkMessage.IsRecord false) (b.drop 4) records tail →
      (∀ records' tail', RunsTo (LinkMessage.IsRecord false) (b.drop 4) records' tail' →
        records' = records ∧ tail' = tail) ∧
      (tail ≠ [] →
        (∃ error, LinkMessage.refusal? b.length tail = some error ∧
          answer b = .error (.refused error)) ∧
        ∀ b' records', b'.length = b.length →
          RunsTo (LinkMessage.IsRecord false) (b'.drop 4) records' tail → answer b' = answer b) ∧
      (Clear b records tail → Body.decode ⟨true, cap⟩ MessageType.hello.byte b = answer b) := by
  intro answer
  refine ⟨⟨fun refused => ?_, ?_⟩, fun records tail h => ⟨fun _ _ => ?_, fun nonempty => ⟨?_, ?_⟩,
    fun clear => ?_⟩⟩
  · obtain ⟨records, tail, h⟩ := exists_runsTo (fun _ => LinkMessage.IsRecord.ne_nil) (b.drop 4)
    exact ⟨records, tail, h, (refused_iff cap fixed h).mp refused⟩
  · rintro ⟨records, tail, h, nonempty⟩
    exact (refused_iff cap fixed h).mpr nonempty
  · exact h.unique fun _ record => record.sized
  · exact refused_of_runsTo cap fixed h nonempty
  · intro b' records' count h'
    obtain ⟨error, known, refused⟩ := refused_of_runsTo cap fixed h nonempty
    obtain ⟨error', known', refused'⟩ := refused_of_runsTo cap (count ▸ fixed) h' nonempty
    -- Both refusals are what `refusal?` says of the one tail.
    rw [count, known] at known'
    cases known'
    exact refused'.trans refused.symm
  · exact decode_strict_eq_lenient cap fixed h clear true

theorem partial_address_refused :
    let good : Octets := [6, 0, 0, 8, 10, 0, 0, 1]
    let bad : Octets := [1, 0, 0, 6, 10, 0]
    let b : Octets := [0, 0, 5, 3] ++ good ++ bad
    4 ≤ b.length ∧ RunsTo (LinkMessage.IsRecord false) (b.drop 4) [good] bad ∧
      Body.decode .strict MessageType.hello.byte b =
        .error (.refused (.malformedLength .linkMessage 2 .partialAddress)) := by
  intro good bad b
  have fixed : 4 ≤ b.length := by decide
  have record : LinkMessage.IsRecord false good := ⟨⟨by decide, by decide⟩, by decide, nofun⟩
  have runs : RunsTo (LinkMessage.IsRecord false) (b.drop 4) [good] bad := by
    refine ⟨rfl, List.forall_mem_singleton.mpr record, fun r rest front another => ?_⟩
    have accepted : LinkMessage.refusal? b.length bad = none :=
      LinkMessage.refusal?_eq_none_iff.mpr ⟨r, rest, front, another⟩
    exact absurd accepted (by decide)
  have clear : Clear b [good] bad := ⟨by decide, by decide, by decide⟩
  obtain ⟨-, refuses, same⟩ := (refused_at_first_bad_record maxMessageSize fixed).2 [good] bad runs
  obtain ⟨error, known, refused⟩ := (refuses (by decide)).1
  have first : LinkMessage.refusal? b.length bad =
      some (.malformedLength .linkMessage 2 .partialAddress) := by
    decide
  rw [first] at known
  cases known
  exact ⟨fixed, runs, (same clear).trans refused⟩

end Hello
end Olsr
