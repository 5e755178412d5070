import Olsr.Proofs.SizeFields
import Olsr.Proofs.Streams

/-!
Packets that go from station to station. A station decodes a packet, ages its messages, drops those
whose time to live has run out, and encodes the rest. What arrives after any number of stations is
known from the first packet alone: a message that has been decoded once comes back unchanged from
every further trip, because its durations are on the grid and its reserved fields are clear.
-/

namespace Olsr

open Octets

namespace Message

/-- The message after `n` stations, as far as it gets. The hop count stops at its largest value. -/
def aged (n : Nat) (m : Message) : Message :=
  { m with
    timeToLive := UInt8.ofNat (m.timeToLive.toNat - n)
    hopCount := UInt8.ofNat (min 255 (m.hopCount.toNat + n)) }

def forwardedBy (n : Nat) (m : Message) : Option Message :=
  if n < m.timeToLive.toNat then some (m.aged n) else none

theorem forwardedBy_eq_some_iff {n : Nat} {m next : Message} :
    m.forwardedBy n = some next ↔ n < m.timeToLive.toNat ∧ m.aged n = next := by
  rw [forwardedBy, Option.ite_none_right_eq_some, Option.some.injEq]

theorem aged_timeToLive (n : Nat) (m : Message) :
    (m.aged n).timeToLive.toNat = m.timeToLive.toNat - n :=
  UInt8.toNat_ofNat_of_lt' (Nat.lt_of_le_of_lt (Nat.sub_le ..) m.timeToLive.toNat_lt)

theorem aged_hopCount (n : Nat) (m : Message) :
    (m.aged n).hopCount.toNat = min 255 (m.hopCount.toNat + n) :=
  UInt8.toNat_ofNat_of_lt' (Nat.lt_of_le_of_lt (Nat.min_le_left ..) (by decide))

theorem aged_aged (j k : Nat) (m : Message) : (m.aged j).aged k = m.aged (j + k) := by
  have timeToLive := m.aged_timeToLive j
  have hopCount := m.aged_hopCount j
  have saturated : min 255 (min 255 (m.hopCount.toNat + j) + k) =
      min 255 (m.hopCount.toNat + (j + k)) := by
    omega
  rw [aged, timeToLive, hopCount, Nat.sub_sub, saturated]
  rfl

theorem forwarded_eq_forwardedBy (m : Message) : m.forwarded = m.forwardedBy 1 := by
  have one : (1 : UInt8).toNat = 1 := rfl
  have spent_iff : m.timeToLive ≤ 1 ↔ ¬ 1 < m.timeToLive.toNat := by
    rw [UInt8.le_iff_toNat_le, one, Nat.not_lt]
  unfold forwarded forwardedBy
  by_cases lasts : 1 < m.timeToLive.toNat
  · have timeToLive : m.timeToLive - 1 = (m.aged 1).timeToLive := by
      apply UInt8.toNat_inj.mp
      rw [aged_timeToLive, UInt8.toNat_sub_of_le, one]
      exact UInt8.le_iff_toNat_le.mpr (Nat.le_of_lt lasts)
    have hopCount : (if m.hopCount = 255 then 255 else m.hopCount + 1) = (m.aged 1).hopCount := by
      have := m.hopCount.toNat_lt
      apply UInt8.toNat_inj.mp
      rw [aged_hopCount]
      by_cases top : m.hopCount = 255
      · rw [if_pos top, top]
        rfl
      · have below : m.hopCount.toNat ≠ 255 := fun e => top (UInt8.toNat_inj.mp e)
        rw [if_neg top, UInt8.toNat_add, one]
        omega
    rw [if_neg (fun spent => spent_iff.mp spent lasts), if_pos lasts, timeToLive, hopCount]
    rfl
  · rw [if_pos (spent_iff.mpr lasts), if_neg lasts]

theorem forwarded_bind_forwardedBy (n : Nat) (m : Message) :
    m.forwarded.bind (forwardedBy n) = m.forwardedBy (n + 1) := by
  rw [forwarded_eq_forwardedBy]
  unfold forwardedBy
  by_cases lasts : 1 < m.timeToLive.toNat
  · have next : n < m.timeToLive.toNat - 1 ↔ n + 1 < m.timeToLive.toNat := by omega
    rw [if_pos lasts, Option.bind_some, aged_timeToLive, aged_aged, Nat.add_comm 1 n]
    simp only [next]
  · rw [if_neg lasts, if_neg (by omega), Option.bind_none]

theorem encode_aged (n : Nat) (m : Message) :
    (m.aged n).encode =
      (m.encode.set 8 (UInt8.ofNat (m.timeToLive.toNat - n))).set 9
        (UInt8.ofNat (min 255 (m.hopCount.toNat + n))) := rfl

def onward (n : Nat) (f : Octets) : Octets :=
  ((clearReserved f).set 8 (UInt8.ofNat ((octetAt f 8).toNat - n))).set 9
    (UInt8.ofNat (min 255 ((octetAt f 9).toNat + n)))

def outlives (n : Nat) (f : Octets) : Bool := n < (octetAt f 8).toNat

theorem encode_aged_ofFrame {strict : Bool} {f : Octets} (h : IsFrame strict f) (n : Nat) :
    ((ofFrame f).aged n).encode = onward n f := by
  rw [encode_aged, encode_ofFrame h]
  rfl

theorem filterMap_forwardedBy (n : Nat) (frames : List Octets) :
    (frames.map ofFrame).filterMap (forwardedBy n) =
      (frames.filter (outlives n)).map fun f => (ofFrame f).aged n := by
  induction frames with
  | nil => rfl
  | cons f frames ih =>
    have timeToLive : (ofFrame f).timeToLive = octetAt f 8 := rfl
    rw [List.map_cons, List.filterMap_cons, forwardedBy, timeToLive, ih]
    by_cases lasts : n < (octetAt f 8).toNat <;> simp [outlives, lasts]

theorem onward_keeps {strict : Bool} {f : Octets} (h : IsFrame strict f) (n : Nat) :
    octetAt (onward n f) 1 = octetAt f 1 ∧
    (MessageType.ofByte? (octetAt f 0) = some .hello → octetAt (onward n f) 14 = octetAt f 14) ∧
    (MessageType.ofByte? (octetAt f 0) = none → (onward n f).drop 12 = f.drop 12) := by
  have body := h.body
  obtain ⟨type, validity, _, _, _, _, _, _, _, _, _, _, rest, rfl⟩ := exists_cons₁₂ h.header
  refine ⟨rfl, fun hello => ?_, fun unknown => ?_⟩
  · rw [octetAt_cons_zero] at hello
    rw [Body.WellFormed, octetAt_cons_zero, hello] at body
    obtain ⟨_, _, interval, _, links, rfl⟩ := exists_cons₄ body.fixed
    rw [onward, clearReserved, octetAt_cons_zero, Body.clearReserved, hello]
    rfl
  · rw [octetAt_cons_zero] at unknown
    rw [onward, clearReserved, octetAt_cons_zero, Body.clearReserved, unknown]
    rfl

end Message

namespace Packet

structure Stable (p : Packet) : Prop where
  fits : p.encodedLength ≤ maxMessageSize
  typed : ∀ m ∈ p.messages, m.body.IsTyped
  onGrid : ∀ m ∈ p.messages, m.quantized = m

theorem Stable.comes_back {p : Packet} (h : Stable p) : (decode .lenient p.encode).Gives p [] := by
  have same : p.quantized = p :=
    congrArg (Packet.mk _) ((List.map_congr_left h.onGrid).trans (List.map_id' _))
  refine decode_gives_iff.mpr ⟨p.encode, (List.append_nil _).symm,
    isFrame_encode h.fits h.typed false, ?_, ?_⟩
  · rw [encode_length]
    exact h.fits
  · rw [ofFrame_encode h.fits h.typed, same]

theorem stable_ofFrame {strict : Bool} {w : Octets} (h : IsFrame strict w) :
    Stable (ofFrame w) where
  fits := encodedLength_le h
  typed := isTyped_ofFrame w
  onGrid m member := by
    obtain ⟨f, -, rfl⟩ := List.mem_map.mp member
    exact Message.quantized_ofFrame f

theorem mem_relayed {q : UInt16} {p : Packet} {m : Message} (member : m ∈ (p.relayed q).messages) :
    ∃ m₀ ∈ p.messages, m = m₀.aged 1 := by
  obtain ⟨m₀, member, sent⟩ := List.mem_filterMap.mp member
  rw [Message.forwarded_eq_forwardedBy, Message.forwardedBy_eq_some_iff] at sent
  exact ⟨m₀, member, sent.2.symm⟩

theorem encodedLength_relayed_le (q : UInt16) (p : Packet) :
    (p.relayed q).encodedLength ≤ p.encodedLength := by
  have messages (ms : List Message) : total ((ms.filterMap Message.forwarded).map
      Message.encodedLength) ≤ total (ms.map Message.encodedLength) := by
    induction ms with
    | nil => exact Nat.le_refl _
    | cons m ms ih =>
      rw [List.filterMap_cons, Message.forwarded_eq_forwardedBy, Message.forwardedBy]
      by_cases lasts : 1 < m.timeToLive.toNat
      · rw [if_pos lasts]
        exact Nat.add_le_add_left ih _
      · rw [if_neg lasts]
        exact Nat.le_trans ih (Nat.le_add_left _ _)
  exact Nat.add_le_add_left (messages p.messages) _

theorem Stable.relayed {p : Packet} (h : Stable p) (q : UInt16) : Stable (p.relayed q) where
  fits := Nat.le_trans (encodedLength_relayed_le q p) h.fits
  typed m member := by
    obtain ⟨m₀, before, rfl⟩ := mem_relayed member
    exact h.typed m₀ before
  onGrid m member := by
    obtain ⟨m₀, before, rfl⟩ := mem_relayed member
    exact congrArg (Message.aged 1) (h.onGrid m₀ before)

def hop (sequenceNumber : UInt16) (b : Octets) : Reading Packet :=
  (decode .lenient b).map (relayed sequenceNumber)

/-- Stations in a row, each with the number of its packet. Each receives the octets that the one
before it has sent, and a refusal ends the row. -/
def hops : List UInt16 → Octets → List (Reading Packet)
  | [], _ => []
  | q :: numbers, b =>
    let r := hop q b
    match r.outcome with
    | .ok sent => r :: hops numbers sent.encode
    | .error _ => [r]

theorem hops_cons {b : Octets} {p : Packet} (received : (decode .lenient b).Gives p [])
    (q : UInt16) (numbers : List UInt16) :
    ∃ r, hops (q :: numbers) b = r :: hops numbers (p.relayed q).encode ∧
      r.Gives (p.relayed q) [] := by
  have sent : (hop q b).Gives (p.relayed q) [] := by
    refine ⟨?_, received.2⟩
    rw [hop, Reading.map, received.1]
    rfl
  refine ⟨hop q b, ?_, sent⟩
  rw [hops]
  simp only [sent.1]

/-- From a stable packet on, no station refuses anything or leaves anything over, and what the last
of `n + 1` stations sends depends on the first packet and its own number only. -/
theorem hops_getElem? {p : Packet} {b : Octets} (stable : Stable p)
    (received : (decode .lenient b).Gives p []) {numbers : List UInt16} {n : Nat} {q : UInt16}
    (number : numbers[n]? = some q) :
    ∃ r sent, (hops numbers b)[n]? = some r ∧ r.Gives sent [] ∧ Stable sent ∧
      sent = ⟨q, p.messages.filterMap (Message.forwardedBy (n + 1))⟩ := by
  induction numbers generalizing p b n with
  | nil => cases number
  | cons q₀ numbers ih =>
    obtain ⟨r, run, sent⟩ := hops_cons received q₀ numbers
    have next := stable.relayed q₀
    rw [run]
    cases n with
    | zero =>
      cases number
      have once : Message.forwarded = Message.forwardedBy 1 :=
        funext Message.forwarded_eq_forwardedBy
      exact ⟨r, _, rfl, sent, next, by rw [relayed, once]⟩
    | succ n =>
      have further : (p.relayed q₀).messages.filterMap (Message.forwardedBy (n + 1)) =
          p.messages.filterMap (Message.forwardedBy (n + 1 + 1)) := by
        rw [relayed, List.filterMap_filterMap]
        exact congrArg (List.filterMap · p.messages)
          (funext (Message.forwarded_bind_forwardedBy (n + 1)))
      rw [← further]
      exact ih next next.comes_back number

/-- Any number of stations after a packet that was decoded to its end: each reads all it receives
and cuts off no length in what it sends, and its packet holds the messages that outlive it, in their
order, with their octets as they were but for the two counters and the reserved fields. -/
theorem hops_carry_messages {w : Octets} {p : Packet}
    (received : (decode .lenient w).Gives p []) :
    ∃ frames, SplitsOnly (Message.IsFrame false) (w.drop 4) frames ∧
      (∀ numbers n q, numbers[n]? = some q →
        ∃ r sent, (hops numbers w)[n]? = some r ∧ r.Gives sent [] ∧
          sent.sequenceNumber = q ∧ sent.measuredEncode.Fits ∧
          SplitsOnly (Message.IsFrame true) (sent.encode.drop 4)
            ((frames.filter (Message.outlives (n + 1))).map (Message.onward (n + 1)))) ∧
      ∀ f ∈ frames, ∀ n,
        octetAt (Message.onward n f) 1 = octetAt f 1 ∧
        (MessageType.ofByte? (octetAt f 0) = some .hello →
          octetAt (Message.onward n f) 14 = octetAt f 14) ∧
        (MessageType.ofByte? (octetAt f 0) = none →
          (Message.onward n f).drop 12 = f.drop 12) := by
  obtain ⟨w', front, frame, -, rfl⟩ := decode_gives_iff.mp received
  obtain rfl : w = w' := front.trans (List.append_nil w')
  have stable := stable_ofFrame frame
  obtain ⟨frames, splits⟩ := frame.messages
  refine ⟨frames, splits.only fun _ message => message.sized, fun numbers n q number => ?_,
    fun f member => Message.onward_keeps (splits.2 f member)⟩
  obtain ⟨r, sent, run, given, again, rfl⟩ := hops_getElem? stable received number
  have written : ((ofFrame w).messages.filterMap (Message.forwardedBy (n + 1))).map
      Message.encode = (frames.filter (Message.outlives (n + 1))).map (Message.onward (n + 1)) := by
    rw [ofFrame, ← Message.frames_eq_pieces splits, Message.filterMap_forwardedBy, List.map_map]
    exact List.map_congr_left fun f member =>
      Message.encode_aged_ofFrame (splits.2 f (List.mem_filter.mp member).1) (n + 1)
  refine ⟨r, _, run, given, rfl, measuredEncode_fits.mpr again.fits, ?_⟩
  rw [← written]
  exact (splits_encode again.fits again.typed true).only fun _ message => message.sized

/-- A HELLO with reserved octets set, a message that the second station drops, and an opaque one. -/
theorem second_station_carries_hello :
    let hello : Octets := [2, 0x86, 0, 20, 10, 0, 0, 1, 3, 254, 0, 7, 1, 2, 5, 3, 6, 9, 0, 4]
    let spent : Octets := [9, 0, 0, 13, 10, 0, 0, 2, 2, 0, 0, 1, 5]
    let foreign : Octets := [9, 0, 0, 13, 10, 0, 0, 3, 255, 0, 0, 1, 6]
    let w : Octets := [0, 50, 0, 1] ++ hello ++ spent ++ foreign
    (decode .lenient w).Gives (ofFrame w) [] ∧
      ∃ r sent, (hops [8, 9] w)[1]? = some r ∧ r.Gives sent [] ∧ sent.measuredEncode.Fits ∧
        SplitsOnly (Message.IsFrame true) (sent.encode.drop 4)
          [[2, 0x86, 0, 20, 10, 0, 0, 1, 1, 255, 0, 7, 0, 0, 5, 3, 6, 0, 0, 4],
            [9, 0, 0, 13, 10, 0, 0, 3, 253, 2, 0, 1, 6]] := by
  intro hello spent foreign w
  have received : (decode .lenient w).Gives (ofFrame w) [] := ⟨by decide +kernel, by decide +kernel⟩
  obtain ⟨frames, only, run, -⟩ := hops_carry_messages received
  have cut : [hello, spent, foreign] = frames := by
    refine only.2 _ ⟨rfl, fun f member => ?_⟩
    simp only [List.mem_cons, List.not_mem_nil, or_false] at member
    rcases member with rfl | rfl | rfl <;> exact ⟨by decide, by decide⟩
  have carried : (frames.filter (Message.outlives 2)).map (Message.onward 2) =
      [[2, 0x86, 0, 20, 10, 0, 0, 1, 1, 255, 0, 7, 0, 0, 5, 3, 6, 0, 0, 4],
        [9, 0, 0, 13, 10, 0, 0, 3, 253, 2, 0, 1, 6]] := by
    rw [← cut]
    cbv
  obtain ⟨r, sent, place, given, -, fits, pieces⟩ := run [8, 9] 1 9 rfl
  exact ⟨received, r, sent, place, given, fits, carried ▸ pieces⟩

end Packet
end Olsr
