import Olsr.Json.Form
import Olsr.Proofs.Relaying

/-!
What comes back from the wire as it was. A duration does if it is on the grid of compact times, and a
body does unless it is opaque under the type byte of an interpreted type: the type byte alone decides
how octets are read, so such a body comes back as that type or not at all.
-/

namespace Olsr

open Octets

namespace Duration

def OnGrid (d : Duration) : Prop :=
  ∃ e m, e ≤ 15 ∧ m ≤ 15 ∧ d.totalNanos = 2 ^ e * (16 + m) * 62500000

theorem onGrid_decodeDuration (b : UInt8) : (CompactTime.decodeDuration b).OnGrid := by
  obtain ⟨e, m, exponent, mantissa, rfl⟩ := CompactTime.octet_parts b
  refine ⟨e, m, exponent, mantissa, ?_⟩
  rw [CompactTime.totalNanos_decodeDuration, CompactTime.sixteenths_octet exponent mantissa]

theorem OnGrid.exists_decodeDuration {d : Duration} (h : d.OnGrid) :
    ∃ b, d = CompactTime.decodeDuration b := by
  obtain ⟨e, m, exponent, mantissa, nanos⟩ := h
  refine ⟨UInt8.ofNat (16 * e + m), ?_⟩
  rw [CompactTime.decodeDuration_eq, CompactTime.sixteenths_octet exponent mantissa, ← nanos,
    ofNanos_totalNanos]

theorem quantized_eq_self_iff {d : Duration} : d.quantized = d ↔ d.OnGrid := by
  constructor
  · intro same
    rw [← same]
    exact onGrid_decodeDuration _
  · intro onGrid
    obtain ⟨b, rfl⟩ := onGrid.exists_decodeDuration
    exact quantized_decodeDuration b

end Duration

theorem MessageType.ofByte?_eq_none_iff {b : UInt8} : ofByte? b = none ↔ ¬ (1 ≤ b ∧ b ≤ 4) := by
  have named : (b = 1 ∨ b = 2 ∨ b = 3 ∨ b = 4) ↔ 1 ≤ b ∧ b ≤ 4 := by
    simp only [← UInt8.toNat_inj, UInt8.le_iff_toNat_le, UInt8.reduceToNat]
    omega
  rw [← named]
  unfold ofByte?
  split_ifs <;> simp_all

namespace Body

variable {body : Body}

theorem isTyped_iff :
    body.IsTyped ↔ ∀ o, body = .unknown o → ¬ (1 ≤ o.typeByte ∧ o.typeByte ≤ 4) := by
  cases body with
  | unknown o =>
    rw [IsTyped, MessageType.ofByte?_eq_none_iff]
    exact ⟨fun foreign o' same => unknown.inj same ▸ foreign, fun foreign => foreign o rfl⟩
  | hello | tc | mid | hna => exact ⟨fun _ => nofun, fun _ => trivial⟩

theorem quantized_eq_self_iff :
    body.quantized = body ↔ ∀ h, body = .hello h → h.interval.OnGrid := by
  cases body with
  | hello h =>
    have interval : (Body.hello h).quantized = .hello h ↔ h.interval.quantized = h.interval := by
      obtain ⟨interval, willingness, links⟩ := h
      simp [quantized, Hello.quantized]
    rw [interval, Duration.quantized_eq_self_iff]
    exact ⟨fun onGrid h' same => hello.inj same ▸ onGrid, fun onGrid => onGrid h rfl⟩
  | tc | mid | hna | unknown =>
    refine ⟨fun _ h same => ?_, fun _ => rfl⟩
    cases same

end Body

namespace Message

structure Lossless (m : Message) : Prop where
  validity : m.validity.OnGrid
  interval : ∀ h, m.body = .hello h → h.interval.OnGrid
  typed : ∀ o, m.body = .unknown o → ¬ (1 ≤ o.typeByte ∧ o.typeByte ≤ 4)

variable {m : Message} {policy : Policy}

theorem lossless_iff : m.Lossless ↔ m.body.IsTyped ∧ m.quantized = m := by
  obtain ⟨body, validity, originator, timeToLive, hopCount, sequenceNumber⟩ := m
  have parts : quantized ⟨body, validity, originator, timeToLive, hopCount, sequenceNumber⟩ =
      ⟨body, validity, originator, timeToLive, hopCount, sequenceNumber⟩ ↔
        body.quantized = body ∧ validity.OnGrid := by
    rw [← Duration.quantized_eq_self_iff]
    simp [quantized]
  rw [parts, Body.isTyped_iff, Body.quantized_eq_self_iff]
  exact ⟨fun lossless => ⟨lossless.typed, lossless.interval, lossless.validity⟩,
    fun ⟨typed, interval, validity⟩ => ⟨validity, interval, typed⟩⟩

theorem lossless_ofFrame (f : Octets) : (ofFrame f).Lossless :=
  lossless_iff.mpr ⟨isTyped_ofFrame f, quantized_ofFrame f⟩

theorem decode_encode_eq_ok_iff (fits : m.encodedLength ≤ maxMessageSize) :
    (decode policy m.encode).outcome = .ok m ↔ m.Lossless := by
  constructor
  · intro ok
    obtain ⟨f, -, -, e⟩ := decode_gives_iff.mp ⟨ok, rfl⟩
    rw [e]
    exact lossless_ofFrame f
  · intro lossless
    obtain ⟨typed, same⟩ := lossless_iff.mp lossless
    have given : (decode policy m.encode).Gives m [] := by
      refine decode_gives_iff.mpr ⟨m.encode, (List.append_nil _).symm,
        isFrame_encode typed fits policy.strictReserved, ?_⟩
      rw [ofFrame_encode typed fits, same]
    exact given.1

/-- The type byte and the octets of the body decide what comes back, whatever the body was. -/
theorem decode_encode_outcome (fits : m.encodedLength ≤ maxMessageSize) (policy : Policy) :
    (decode policy m.encode).outcome = (Body.decode policy m.typeByte m.body.encode).map
      fun body => { m with body, validity := m.validity.quantized } := by
  have count : m.encode.length = 12 + m.body.encodedLength := m.encode_length
  have delimited : Delimited m.encode := by
    refine ⟨by rw [count]; exact Nat.le_add_right .., ?_⟩
    rw [word16At_encode, sizeField_toNat _ (Nat.lt_succ_of_le fits), encode_length]
  have alone := read_delimited delimited policy []
  rw [List.append_nil, headerOf_encode] at alone
  rw [decode, Reading.report_outcome, alone]
  rfl

end Message

theorem Body.decode_typed {policy : Policy} {typeByte : UInt8} {octets : Octets} {body : Body}
    (named : MessageType.ofByte? typeByte ≠ none)
    (ok : Body.decode policy typeByte octets = .ok body) :
    body.isOpaque = false ∧ body.typeByte = typeByte := by
  obtain ⟨-, e⟩ := decode_eq_ok_iff.mp ok
  refine ⟨?_, e ▸ typeByte_ofOctets typeByte octets⟩
  rw [e, ofOctets]
  cases known : MessageType.ofByte? typeByte with
  | some kind =>
    cases kind with
    | hello | tc | mid | hna => rfl
  | none => exact absurd known named

theorem Packet.decode_encode_eq_ok_iff {p : Packet} (fits : p.encodedLength ≤ maxMessageSize) :
    (decode .lenient p.encode).outcome = .ok p ↔ ∀ m ∈ p.messages, m.Lossless := by
  constructor
  · intro ok m member
    obtain ⟨w, -, -, -, e⟩ := decode_gives_iff.mp ⟨ok, rfl⟩
    rw [e] at member
    obtain ⟨f, -, rfl⟩ := List.mem_map.mp member
    exact Message.lossless_ofFrame f
  · intro lossless
    have stable : Stable p :=
      ⟨fits, fun m member => (Message.lossless_iff.mp (lossless m member)).1,
        fun m member => (Message.lossless_iff.mp (lossless m member)).2⟩
    exact stable.comes_back.1

/-- As far as sizes can be written, exactly the lossless messages come back as they were, and exactly
the packets of such messages. An opaque body under the type byte of an interpreted type is read as
that type, from the same octets: it is refused or comes back as that type. -/
theorem comes_back_iff_lossless :
    (∀ m : Message, m.encodedLength ≤ maxMessageSize →
      ((Message.decode .lenient m.encode).outcome = .ok m ↔ m.Lossless) ∧
      ∀ o, m.body = .unknown o → 1 ≤ o.typeByte → o.typeByte ≤ 4 →
        (Message.decode .lenient m.encode).outcome =
          (Body.decode .lenient o.typeByte o.payload).map (fun body =>
            { m with body, validity := m.validity.quantized }) ∧
        ∀ body, Body.decode .lenient o.typeByte o.payload = .ok body →
          body.isOpaque = false ∧ body.typeByte = o.typeByte) ∧
    ∀ p : Packet, p.encodedLength ≤ maxMessageSize →
      ((Packet.decode .lenient p.encode).outcome = .ok p ↔ ∀ m ∈ p.messages, m.Lossless) := by
  refine ⟨fun m fits => ⟨Message.decode_encode_eq_ok_iff fits, fun o unknown least most => ?_⟩,
    fun p => Packet.decode_encode_eq_ok_iff⟩
  have named : MessageType.ofByte? o.typeByte ≠ none := fun none =>
    MessageType.ofByte?_eq_none_iff.mp none ⟨least, most⟩
  have outcome := Message.decode_encode_outcome fits .lenient
  rw [Message.typeByte, unknown] at outcome
  exact ⟨outcome, fun body => Body.decode_typed named⟩

/-- The JSON form of a message can hold an opaque body under the type byte of TC. Such a message
comes back from the wire as a TC message. -/
theorem opaque_comes_back_as_tc :
    let m : Message := { body := .unknown ⟨3, [0, 5, 0, 0]⟩ }
    Message.ofJson? m.toJson = some m ∧ m.encodedLength ≤ maxMessageSize ∧
      (Message.decode .lenient m.encode).outcome = .ok { m with body := .tc ⟨5, []⟩ } ∧
      (Message.decode .lenient m.encode).outcome ≠ .ok m := by
  intro m
  have fits : m.encodedLength ≤ maxMessageSize := by decide
  obtain ⟨same_iff, posing⟩ := comes_back_iff_lossless.1 m fits
  refine ⟨by decide +kernel, fits, ?_, fun same => ?_⟩
  · rw [(posing _ rfl (by decide) (by decide)).1]
    decide +kernel
  · exact (same_iff.mp same).typed _ rfl (by decide)

end Olsr
