import Mathlib.Order.Basic
import Olsr.Proofs.Relaying

/-!
A message forwarded again and again in memory, with no wire in between. One forwarding ages the
message by one station, and so `n` of them age it by `n` as long as its time to live lasts. Neither
the durations nor the body of the message need be of a form that the wire can carry.
-/

namespace Olsr

namespace Message

theorem aged_zero (m : Message) : m.aged 0 = m := by
  have hopCount : min 255 (m.hopCount.toNat + 0) = m.hopCount.toNat :=
    Nat.min_eq_right (Nat.le_of_lt_succ m.hopCount.toNat_lt)
  rw [aged, hopCount, Nat.sub_zero, UInt8.ofNat_toNat, UInt8.ofNat_toNat]

theorem getElem?_encode_aged {i : Nat} (timeToLive : i ≠ 8) (hopCount : i ≠ 9) (n : Nat)
    (m : Message) : (m.aged n).encode[i]? = m.encode[i]? := by
  rw [encode_aged, List.getElem?_set_ne hopCount.symm, List.getElem?_set_ne timeToLive.symm]

def forwardedTimes : Nat → Message → Option Message
  | 0, m => some m
  | n + 1, m => m.forwarded.bind (forwardedTimes n)

theorem forwardedTimes_succ (n : Nat) (m : Message) :
    forwardedTimes (n + 1) m = m.forwardedBy (n + 1) := by
  induction n generalizing m with
  | zero =>
    rw [forwardedTimes, ← forwarded_eq_forwardedBy]
    exact Option.bind_fun_some m.forwarded
  | succ n ih =>
    rw [forwardedTimes, funext ih]
    exact forwarded_bind_forwardedBy (n + 1) m

theorem forwardedTimes_eq_some_iff {n : Nat} {m next : Message} :
    forwardedTimes n m = some next ↔ (n = 0 ∨ n < m.timeToLive.toNat) ∧ m.aged n = next := by
  cases n with
  | zero => simp only [forwardedTimes, aged_zero, Option.some.injEq, true_or, true_and]
  | succ n =>
    rw [forwardedTimes_succ, forwardedBy_eq_some_iff]
    simp only [Nat.succ_ne_zero, false_or]

/-- All that is sent for one message, one forwarding after the other until there is none. -/
def retransmissions (m : Message) : List Message :=
  match _h : m.forwarded with
  | none => []
  | some next => next :: retransmissions next
termination_by m.timeToLive.toNat
decreasing_by
  rw [forwarded_eq_forwardedBy, forwardedBy_eq_some_iff] at _h
  obtain ⟨lasts, rfl⟩ := _h
  rw [aged_timeToLive]
  omega

theorem retransmissions_eq (m : Message) : retransmissions m =
    match m.forwarded with
    | none => []
    | some next => next :: retransmissions next := by
  rw [retransmissions]
  split <;> simp only [*]

theorem getElem?_retransmissions (n : Nat) (m : Message) :
    (retransmissions m)[n]? = forwardedTimes (n + 1) m := by
  induction n generalizing m with
  | zero =>
    rw [retransmissions_eq, forwardedTimes]
    cases m.forwarded with
    | none => rfl
    | some next => rfl
  | succ n ih =>
    rw [retransmissions_eq, forwardedTimes]
    cases m.forwarded with
    | none => rfl
    | some next => exact ih next

theorem retransmissions_length (m : Message) :
    (retransmissions m).length = m.timeToLive.toNat - 1 := by
  -- A position of the list holds a message as long as one more forwarding succeeds.
  refine eq_of_forall_ge_iff fun n => ?_
  rw [← List.getElem?_eq_none_iff, getElem?_retransmissions, forwardedTimes_succ, forwardedBy,
    ite_eq_right_iff]
  simp only [reduceCtorEq, imp_false]
  omega

/-- Any number of forwardings, of any message. They go on as long as the time to live lasts, each
counter moves by the number of forwardings and none wraps around, and nothing else changes, neither
in the message nor in its encoding. -/
theorem forwarding_moves_counters (m : Message) :
    (∀ n, (forwardedTimes n m).isSome ↔ n = 0 ∨ n < m.timeToLive.toNat) ∧
    (∀ n next, forwardedTimes n m = some next →
      next.timeToLive.toNat + n = m.timeToLive.toNat ∧
      next.hopCount.toNat = min 255 (m.hopCount.toNat + n) ∧
      next.validity = m.validity ∧ next.originator = m.originator ∧
      next.sequenceNumber = m.sequenceNumber ∧ next.body = m.body ∧
      (m.encodedLength ≤ maxMessageSize →
        next.measuredEncode.Fits ∧ next.encode.length = m.encode.length ∧
        ∀ i, i ≠ 8 → i ≠ 9 → next.encode[i]? = m.encode[i]?)) ∧
    (retransmissions m).length = m.timeToLive.toNat - 1 ∧
    ∀ n, (retransmissions m)[n]? = forwardedTimes (n + 1) m := by
  refine ⟨fun n => ?_, fun n next sent => ?_, retransmissions_length m, fun n =>
    getElem?_retransmissions n m⟩
  · simp only [Option.isSome_iff_exists, forwardedTimes_eq_some_iff, exists_and_left,
      exists_eq', and_true]
  · obtain ⟨lasts, rfl⟩ := forwardedTimes_eq_some_iff.mp sent
    refine ⟨?_, aged_hopCount n m, rfl, rfl, rfl, rfl, fun fits => ⟨?_, ?_, ?_⟩⟩
    · rw [aged_timeToLive]
      omega
    · exact (accounts fits).writing_fits
    · rw [encode_length, encode_length]
      rfl
    · intro i timeToLive hopCount
      exact getElem?_encode_aged timeToLive hopCount n m

theorem second_forwarding_saturates :
    let m : Message :=
      { body := .unknown ⟨9, [5]⟩, validity := ⟨0, 7⟩, timeToLive := 3, hopCount := 254 }
    let next : Message := { m with timeToLive := 1, hopCount := 255 }
    forwardedTimes 2 m = some next ∧ m.encodedLength ≤ maxMessageSize ∧
      next.measuredEncode.Fits ∧ next.encode.length = m.encode.length ∧
      ∀ i, i ≠ 8 → i ≠ 9 → next.encode[i]? = m.encode[i]? := by
  intro m next
  have sent : forwardedTimes 2 m = some next := by decide
  have fits : m.encodedLength ≤ maxMessageSize := by decide
  obtain ⟨-, -, -, -, -, -, keeps⟩ := (forwarding_moves_counters m).2.1 2 next sent
  exact ⟨sent, fits, keeps fits⟩

end Message
end Olsr
