import Mathlib.Tactic.SplitIfs
import Olsr.Proofs.Readers

/-!
Decoding succeeds exactly on the octets of the grammar, and then answers what the grammar reads off
them: for link records and their runs, bodies, messages and their runs, and packets.
-/

namespace Olsr

open Octets

namespace LinkMessage

variable {policy : Policy} {declared consumed : Nat} {b : Octets}

theorem reader_eq_ok_iff {size : Nat} {rest : Octets} {l : LinkMessage}
    (left : consumed + b.length = declared) :
    reader policy declared consumed b = .ok ((l, size), rest) ↔
      ∃ r, b = r ++ rest ∧ IsRecord policy.strictReserved r ∧ l = ofRecord r ∧
        size = r.length := by
  rw [reader_apply policy left]
  constructor
  · intro h
    dsimp only at h
    split_ifs at h with short strict least beyond odd
    cases h
    have length : (b.take (word16At b 2).toNat).length = (word16At b 2).toNat := by
      rw [List.length_take]
      omega
    refine ⟨b.take (word16At b 2).toNat, (List.take_append_drop _ b).symm,
      ⟨⟨by omega, ?_⟩, by rwa [length], fun h => ?_⟩, rfl, length.symm⟩
    · rw [length, word16At_take (by omega)]
    · rw [octetAt_take (by omega)]
      exact Decidable.not_not.mp fun nonzero => strict ⟨h, nonzero⟩
  · rintro ⟨r, rfl, record, rfl, rfl⟩
    have header := record.sized.header
    have size : (word16At (r ++ rest) 2).toNat = r.length := by
      rw [word16At_append (by omega), ← record.sized.declared]
    have clear : ¬(policy.strictReserved = true ∧ octetAt (r ++ rest) 1 ≠ 0) := by
      rw [octetAt_append (by omega)]
      exact fun ⟨h, nonzero⟩ => nonzero (record.clear h)
    simp only [size, clear, List.length_append, if_false, List.take_left, List.drop_left,
      record.aligned, not_true]
    rw [if_neg (by omega), if_neg (by omega), if_neg (by omega)]

def item (policy : Policy) (declared : Nat) : Cursor LinkMessage := fun b =>
  let consumed := declared - b.length
  (reader policy (consumed + b.length) consumed b).map fun p => (p.1.1, p.2)

theorem item_eq_ok_iff {rest : Octets} {l : LinkMessage} :
    item policy declared b = .ok (l, rest) ↔
      ∃ r, b = r ++ rest ∧ IsRecord policy.strictReserved r ∧ l = ofRecord r := by
  rw [item, Cursor.except_map_eq_ok_iff]
  constructor
  · rintro ⟨⟨⟨l, size⟩, rest⟩, h, e⟩
    cases e
    obtain ⟨r, front, record, hl, -⟩ := (reader_eq_ok_iff rfl).mp h
    exact ⟨r, front, record, hl⟩
  · rintro ⟨r, front, record, hl⟩
    exact ⟨((l, r.length), rest), (reader_eq_ok_iff rfl).mpr ⟨r, front, record, hl, rfl⟩, rfl⟩

theorem item_shrinks (policy : Policy) (declared : Nat) :
    Cursor.Shrinks (item policy declared) := by
  intro b l rest h
  obtain ⟨r, rfl, record, -⟩ := item_eq_ok_iff.mp h
  have := record.sized.header
  rw [List.length_append]
  omega

/-- A run reads link messages to the end of its octets, as long as what it has consumed and what is
left make up what was declared. -/
theorem run_eq_toEnd (left : consumed + b.length = declared) :
    run policy declared consumed b =
      Cursor.toEnd (item policy declared) (item_shrinks policy declared) b := by
  induction length : b.length using Nat.strongRecOn generalizing b consumed with
  | ind n ih =>
    by_cases empty : b = []
    · subst empty
      rw [run, if_neg (by simp only [List.length_nil] at left; omega), Cursor.toEnd_nil]
    have pos : 0 < b.length := List.length_pos_iff.mpr empty
    have next : item policy declared b =
        (reader policy declared consumed b).map fun p => (p.1.1, p.2) := by
      rw [item, ← left, Nat.add_sub_cancel]
    rw [run, if_pos (by omega)]
    split
    · rename_i stop h
      exact (Cursor.toEnd_of_error empty (by rw [next, h]; rfl)).symm
    · rename_i l size rest h
      obtain ⟨r, rfl, record, -, rfl⟩ := (reader_eq_ok_iff left).mp h
      have := record.sized.header
      rw [List.length_append] at left length
      rw [Cursor.toEnd_of_ok (by rw [next, h]; rfl), ih rest.length (by omega) (by omega) rfl]

theorem IsRecord.ne_nil {strict : Bool} {r : Octets} (h : IsRecord strict r) : r ≠ [] := by
  rintro rfl
  exact absurd h.sized.header (by simp)

theorem run_eq_ok_iff {ls : List LinkMessage} (left : consumed + b.length = declared) :
    run policy declared consumed b = .ok ls ↔
      ∃ records, Splits (IsRecord policy.strictReserved) b records ∧ ls = records.map ofRecord := by
  rw [run_eq_toEnd left]
  exact Cursor.toEnd_eq_ok_iff (fun _ _ _ => item_eq_ok_iff) fun _ => IsRecord.ne_nil

end LinkMessage

theorem Hello.reader_eq_ok_iff {policy : Policy} {b rest : Octets} {h : Hello} :
    reader policy b = .ok (h, rest) ↔
      WellFormed policy.strictReserved b ∧ h = ofOctets b ∧ rest = b.drop 4 := by
  rw [reader_apply]
  constructor
  · intro read
    split_ifs at read with short strict
    obtain ⟨links, hlinks, e⟩ := Cursor.except_map_eq_ok_iff.mp read
    obtain ⟨records, splits, rfl⟩ := (LinkMessage.run_eq_ok_iff (Nat.zero_add _)).mp hlinks
    cases e
    refine ⟨⟨by omega, fun h => ?_, records, splits⟩, ?_, rfl⟩
    · exact Decidable.not_not.mp fun nonzero => strict ⟨h, nonzero⟩
    · rw [ofOctets, LinkMessage.records_eq_pieces splits]
  · rintro ⟨wf, rfl, rfl⟩
    have short := wf.fixed
    have strict : ¬(policy.strictReserved = true ∧ word16At b 0 ≠ 0) :=
      fun ⟨h, nonzero⟩ => nonzero (wf.clear h)
    obtain ⟨records, splits⟩ := wf.links
    have links := (LinkMessage.run_eq_ok_iff (Nat.zero_add _)).mpr ⟨records, splits, rfl⟩
    rw [if_neg (by omega), if_neg strict, links,
      LinkMessage.records_eq_pieces splits]
    rfl

theorem Tc.reader_eq_ok_iff {policy : Policy} {b rest : Octets} {t : Tc} :
    reader policy b = .ok (t, rest) ↔
      WellFormed policy.strictReserved b ∧ t = ofOctets b ∧ rest = b.drop 4 := by
  rw [reader_apply]
  constructor
  · intro read
    split_ifs at read with short strict aligned
    cases read
    refine ⟨⟨by omega, aligned, fun h => ?_⟩, rfl, rfl⟩
    exact Decidable.not_not.mp fun nonzero => strict ⟨h, nonzero⟩
  · rintro ⟨wf, rfl, rfl⟩
    have short := wf.fixed
    have strict : ¬(policy.strictReserved = true ∧ word16At b 2 ≠ 0) :=
      fun ⟨h, nonzero⟩ => nonzero (wf.clear h)
    rw [if_neg (by omega), if_neg strict, if_neg (not_not_intro wf.aligned)]

namespace Body

theorem decode_eq_ok_iff {policy : Policy} {typeByte : UInt8} {b : Octets} {body : Body} :
    decode policy typeByte b = .ok body ↔
      WellFormed policy.strictReserved typeByte b ∧ body = ofOctets typeByte b := by
  change (reader policy typeByte b).map Prod.fst = .ok body ↔ _
  rw [Cursor.except_map_eq_ok_iff]
  unfold reader WellFormed ofOctets
  match MessageType.ofByte? typeByte with
  | some .hello => simp [Cursor.except_map_eq_ok_iff, Hello.reader_eq_ok_iff, and_assoc]
  | some .tc => simp [Cursor.except_map_eq_ok_iff, Tc.reader_eq_ok_iff, and_assoc]
  | some .mid => by_cases aligned : 4 ∣ b.length <;> simp [Mid.reader_apply, aligned, Except.map]
  | some .hna => by_cases aligned : 8 ∣ b.length <;> simp [Hna.reader_apply, aligned, Except.map]
  | none => simp

end Body

namespace Reading

variable {α : Type}

def Gives (r : Reading α) (x : α) (rest : Octets) : Prop :=
  r.outcome = .ok x ∧ r.unread = rest

theorem report_gives_iff {r : Reading α} {failed : DecodeError → Event} {x : α} {rest : Octets} :
    (r.report failed).Gives x rest ↔ r.Gives x rest := by
  obtain ⟨outcome, unread, events⟩ := r
  rcases outcome with ⟨_ | _⟩ | _ <;> rfl

theorem report_unread (r : Reading α) (failed : DecodeError → Event) :
    (r.report failed).unread = r.unread := by
  obtain ⟨outcome, unread, events⟩ := r
  rcases outcome with ⟨_ | _⟩ | _ <;> rfl

theorem report_outcome (r : Reading α) (failed : DecodeError → Event) :
    (r.report failed).outcome = r.outcome := by
  obtain ⟨outcome, unread, events⟩ := r
  rcases outcome with ⟨_ | _⟩ | _ <;> rfl

end Reading

namespace Message

variable {policy : Policy} {b rest : Octets} {m : Message}

theorem IsFrame.ne_nil {strict : Bool} {f : Octets} (h : IsFrame strict f) : f ≠ [] := by
  rintro rfl
  exact absurd h.header (by simp)

theorem headerOf_take {n : Nat} (h : 12 ≤ n) (b : Octets) :
    MessageHeader.ofOctets (b.take n) = MessageHeader.ofOctets b := by
  simp (disch := omega) only [MessageHeader.ofOctets, octetAt_take, word16At_take]

theorem read_gives_iff :
    (read policy b).Gives m rest ↔
      ∃ f, b = f ++ rest ∧ IsFrame policy.strictReserved f ∧ m = ofFrame f := by
  rw [Reading.Gives]
  constructor
  · rw [read_apply]
    rintro ⟨ok, left⟩
    dsimp only at ok left
    split_ifs at ok left with short least beyond
    generalize hn : (word16At b 2).toNat = n at *
    have length : (b.take n).length = n := by
      rw [List.length_take]
      omega
    obtain ⟨body, hbody, rfl⟩ := Cursor.except_map_eq_ok_iff.mp ok
    obtain ⟨wf, rfl⟩ := Body.decode_eq_ok_iff.mp hbody
    have type : octetAt (b.take n) 0 = octetAt b 0 := octetAt_take (by omega)
    refine ⟨b.take n, ?_, ⟨by omega, ?_, ?_⟩, ?_⟩
    · rw [← left, List.take_append_drop]
    · rw [length, word16At_take (by omega), hn]
    · rwa [type]
    · rw [ofFrame, headerOf_take (by omega), type]
  · rintro ⟨f, rfl, frame, rfl⟩
    have body := Body.decode_eq_ok_iff.mpr ⟨frame.body, rfl⟩
    rw [read_delimited ⟨frame.header, frame.declared⟩, body]
    exact ⟨rfl, rfl⟩

theorem decode_gives_iff :
    (decode policy b).Gives m rest ↔
      ∃ f, b = f ++ rest ∧ IsFrame policy.strictReserved f ∧ m = ofFrame f :=
  Reading.report_gives_iff.trans read_gives_iff

def item (policy : Policy) : Cursor Message := fun b =>
  (read policy b).outcome.map fun m => (m, (read policy b).unread)

theorem item_eq_ok_iff :
    item policy b = .ok (m, rest) ↔
      ∃ f, b = f ++ rest ∧ IsFrame policy.strictReserved f ∧ m = ofFrame f := by
  rw [← read_gives_iff, item, Cursor.except_map_eq_ok_iff, Reading.Gives]
  constructor
  · rintro ⟨x, ok, e⟩
    cases e
    exact ⟨ok, rfl⟩
  · rintro ⟨ok, rfl⟩
    exact ⟨m, ok, rfl⟩

theorem item_shrinks (policy : Policy) : Cursor.Shrinks (item policy) := by
  intro b m rest h
  obtain ⟨f, rfl, frame, -⟩ := item_eq_ok_iff.mp h
  have := frame.header
  rw [List.length_append]
  omega

end Message

namespace Packet

variable {policy : Policy} {b rest : Octets} {p : Packet}

theorem messageRun_eq_toEnd (policy : Policy) (payload : Octets) :
    (messageRun policy payload).1 =
      Cursor.toEnd (Message.item policy) (Message.item_shrinks policy) payload := by
  induction length : payload.length using Nat.strongRecOn generalizing payload with
  | ind n ih =>
    by_cases empty : payload = []
    · subst empty
      rw [messageRun, Cursor.toEnd_nil]
      rfl
    rw [messageRun, if_neg (by simpa using empty)]
    split
    · rename_i stop rest events h
      refine (Cursor.toEnd_of_error empty ?_).symm
      rw [Message.item, h]
      rfl
    · rename_i m rest events h
      have next : Message.item policy payload = .ok (m, rest) := by
        rw [Message.item, h]
        rfl
      have shorter := Message.item_shrinks policy payload m rest next
      rw [Cursor.toEnd_of_ok next, ← ih rest.length (by omega) rest rfl]

theorem messageRun_eq_ok_iff {ms : List Message} :
    (messageRun policy b).1 = .ok ms ↔
      ∃ frames, Splits (Message.IsFrame policy.strictReserved) b frames ∧
        ms = frames.map Message.ofFrame := by
  rw [messageRun_eq_toEnd]
  exact Cursor.toEnd_eq_ok_iff (fun _ _ _ => Message.item_eq_ok_iff)
    fun _ => Message.IsFrame.ne_nil

theorem decode_gives_iff :
    (decode policy b).Gives p rest ↔
      ∃ w, b = w ++ rest ∧ IsFrame policy.strictReserved w ∧ w.length ≤ policy.maxPacketLength ∧
        p = ofFrame w := by
  rw [decode, Reading.report_gives_iff, Reading.Gives]
  constructor
  · rw [read_apply]
    rintro ⟨ok, left⟩
    dsimp only at ok left
    split_ifs at ok left with short least above beyond
    generalize hn : (word16At b 0).toNat = n at *
    have length : (b.take n).length = n := by
      rw [List.length_take]
      omega
    obtain ⟨ms, run, rfl⟩ := Cursor.except_map_eq_ok_iff.mp ok
    obtain ⟨frames, splits, rfl⟩ := messageRun_eq_ok_iff.mp run
    refine ⟨b.take n, ?_, ⟨by omega, ?_, frames, splits⟩, by omega, ?_⟩
    · rw [← left, List.take_append_drop]
    · rw [length, word16At_take (by omega), hn]
    · rw [ofFrame, word16At_take (by omega), Message.frames_eq_pieces splits]
  · rintro ⟨w, rfl, frame, capped, rfl⟩
    obtain ⟨frames, splits⟩ := frame.messages
    have run := messageRun_eq_ok_iff.mpr ⟨frames, splits, rfl⟩
    rw [read_delimited ⟨frame.header, frame.declared, capped⟩, run,
      Message.frames_eq_pieces splits]
    exact ⟨rfl, rfl⟩

theorem payloadOf_append {strict : Bool} {w : Octets} (h : IsFrame strict w) (rest : Octets) :
    payloadOf (w ++ rest) = w.drop 4 := by
  have header := h.header
  rw [payloadOf, word16At_append (by omega), ← h.declared, List.take_left]

theorem decode_eq_ok_iff :
    (decode policy b).outcome = .ok p ↔
      AtFront policy.strictReserved policy.maxPacketLength b ∧
        p = ofFrame (b.take (word16At b 0).toNat) := by
  constructor
  · intro ok
    obtain ⟨w, front, frame, capped, rfl⟩ := decode_gives_iff.mp ⟨ok, rfl⟩
    generalize (decode policy b).unread = rest at front
    subst front
    have header := frame.header
    have length : (word16At (w ++ rest) 0).toNat = w.length := by
      rw [word16At_append (by omega), ← frame.declared]
    refine ⟨⟨?_, by omega, by omega, ?_, payloadOf_append frame rest ▸ frame.messages⟩, ?_⟩
    · rw [List.length_append]
      omega
    · rw [length, List.length_append]
      omega
    · rw [length, List.take_left]
  · rintro ⟨front, rfl⟩
    have least := front.least
    have length : (b.take (word16At b 0).toNat).length = (word16At b 0).toNat := by
      rw [List.length_take, Nat.min_eq_left front.present]
    have frame : IsFrame policy.strictReserved (b.take (word16At b 0).toNat) :=
      ⟨by omega, by rw [length, word16At_take (by omega)], front.messages⟩
    refine (decode_gives_iff.mpr ⟨_, (List.take_append_drop _ b).symm, frame, ?_, rfl⟩).1
    rw [length]
    exact front.capped

/-- Nothing but the grammar decides which octets decode, and the messages and link messages that
come out are the pieces of the only way to cut the payload. -/
theorem decodes_exactly_grammar (policy : Policy) (b : Octets) :
    ((∃ p, (decode policy b).outcome = .ok p) ↔
      AtFront policy.strictReserved policy.maxPacketLength b) ∧
    ∀ p, (decode policy b).outcome = .ok p →
      p.sequenceNumber = word16At b 2 ∧
      ∃ frames, SplitsOnly (Message.IsFrame policy.strictReserved) (payloadOf b) frames ∧
        p.messages = frames.map Message.ofFrame ∧
        ∀ f ∈ frames, MessageType.ofByte? (octetAt f 0) = some .hello →
          ∃ records, SplitsOnly (LinkMessage.IsRecord policy.strictReserved) (f.drop 16) records ∧
            (Message.ofFrame f).body = .hello ⟨CompactTime.decodeDuration (octetAt f 14),
              ⟨octetAt f 15⟩, records.map LinkMessage.ofRecord⟩ := by
  refine ⟨⟨?_, fun front => ⟨_, decode_eq_ok_iff.mpr ⟨front, rfl⟩⟩⟩, fun p ok => ?_⟩
  · rintro ⟨p, ok⟩
    exact (decode_eq_ok_iff.mp ok).1
  obtain ⟨front, rfl⟩ := decode_eq_ok_iff.mp ok
  have least := front.least
  obtain ⟨frames, splits⟩ := front.messages
  refine ⟨by rw [ofFrame, word16At_take (by omega)], frames,
    splits.only fun _ frame => frame.sized, ?_, fun f member type => ?_⟩
  · rw [Message.frames_eq_pieces splits]
    rfl
  have hello := (splits.2 f member).body
  rw [Body.WellFormed, type] at hello
  obtain ⟨records, links⟩ := hello.links
  rw [List.drop_drop] at links
  have only := links.only fun _ record => record.sized
  refine ⟨records, only, ?_⟩
  have body : (Message.ofFrame f).body = .hello (Hello.ofOctets (f.drop 12)) := by
    change Body.ofOctets _ _ = _
    rw [Body.ofOctets, type]
  rw [body, Hello.ofOctets, octetAt_drop, octetAt_drop, List.drop_drop,
    LinkMessage.records_eq_pieces links]

end Packet
end Olsr
