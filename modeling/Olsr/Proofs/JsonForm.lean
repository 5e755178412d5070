import Olsr.Json.Form

/-!
What is written as JSON is read back as it was. A reader of records looks its fields up by name, so
it finds what was written as long as no two fields share a name; a reader of lists succeeds if it
reads every item. From there on each type is read back because its parts are.
-/

namespace Olsr

theorem mapM_eq_some_map {α β : Type} {f : α → Option β} {g : α → β} {xs : List α}
    (h : ∀ x ∈ xs, f x = some (g x)) : xs.mapM f = some (xs.map g) := by
  induction xs with
  | nil => rfl
  | cons x xs ih =>
    rw [List.forall_mem_cons] at h
    simp [h.1, ih h.2]

theorem lookup_of_mem {α β : Type} [DecidableEq α] {fields : List (α × β)} {field : α × β}
    (distinct : (fields.map Prod.fst).Nodup) (member : field ∈ fields) :
    fields.lookup field.1 = some field.2 := by
  obtain ⟨before, after, rfl⟩ := List.append_of_mem member
  rw [List.map_append, List.map_cons, List.nodup_append] at distinct
  refine List.lookup_eq_some_iff.mpr ⟨before, after, rfl, fun other earlier => ?_⟩
  exact bne_iff_ne.mpr (distinct.2.2 other.1 (List.mem_map_of_mem earlier) field.1
    List.mem_cons_self).symm

namespace Json

def ReadsBack {α : Type} (write : α → Json) (read : Json → Option α) : Prop :=
  ∀ x, read (write x) = some x

theorem ReadsBack.list {α : Type} {write : α → Json} {read : Json → Option α}
    (h : ReadsBack write read) (xs : List α) : (array (xs.map write)).list? read = some xs := by
  have each : xs.mapM (read ∘ write) = some (xs.map id) := mapM_eq_some_map fun x _ => h x
  rw [list?, List.mapM_map, each, List.map_id]

section Record

variable {fields : List (String × Json)}

theorem record?_object (distinct : (fields.map Prod.fst).Nodup) :
    (object fields).record? (fields.map Prod.fst) = some (fields.map Prod.snd) := by
  rw [record?, List.mapM_map]
  exact mapM_eq_some_map fun field member => lookup_of_mem distinct member

theorem closedRecord?_object (distinct : (fields.map Prod.fst).Nodup) :
    (object fields).closedRecord? (fields.map Prod.fst) = some (fields.map Prod.snd) := by
  have named : fields.all ((fields.map Prod.fst).contains ·.1) = true := by
    simp only [List.all_eq_true, List.contains_iff_mem]
    exact fun field member => List.mem_map_of_mem member
  rw [closedRecord?, if_pos named, record?_object distinct]

end Record

end Json

open Json

namespace Address

theorem octetOfDigits?_digits (x : UInt8) : octetOfDigits? (digits x) = some x := by
  have value : (digits x).foldl (fun n c => 10 * n + (c.toNat - 48)) 0 = x.toNat :=
    Nat.ofDigitChars_ten_toDigits
  rw [octetOfDigits?, value, if_pos ⟨x.toNat_lt, rfl⟩, UInt8.ofNat_toNat]

theorem dot_not_mem_digits (x : UInt8) : '.' ∉ digits x := by
  intro member
  exact absurd (Nat.isDigit_of_mem_toDigits (by decide) (by decide) member) (by decide)

theorem pieces_eq_splitOn (cs : List Char) : pieces cs = cs.splitOn '.' := by
  rw [List.splitOn]
  induction cs with
  | nil => rfl
  | cons c cs ih =>
    rw [pieces, List.splitOnP_cons_eq_if_modifyHead, ih]
    by_cases dot : c = '.'
    · simp [dot]
    · -- A split is never empty, so the case without pieces does not arise.
      cases split : List.splitOnP (· == '.') cs with
      | nil => exact absurd split (List.splitOnP_ne_nil _ cs)
      | cons p ps => simp [dot]

theorem toList_text (x : Address) :
    x.text.toList = ['.'].intercalate [digits x.a, digits x.b, digits x.c, digits x.d] := by
  simp [text, List.intercalate]

theorem ofText?_text (x : Address) : ofText? x.text = some x := by
  have split : pieces x.text.toList = [digits x.a, digits x.b, digits x.c, digits x.d] := by
    rw [pieces_eq_splitOn, toList_text]
    exact List.splitOn_intercalate '.' (by simp [dot_not_mem_digits]) (List.cons_ne_nil _ _)
  simp [ofText?, split, octetOfDigits?_digits]

theorem readsBack : ReadsBack toJson ofJson? := ofText?_text

end Address

namespace Duration

theorem readsBack : ReadsBack toJson ofJson? := by
  intro d
  have fields : d.toJson.closedRecord? ["secs", "nanos"] =
      some [ofNat d.seconds.toNat, ofNat d.nanos] := closedRecord?_object (by simp)
  have seconds : d.seconds.toNat < UInt64.size := d.seconds.toNat_lt
  have nanos : (d.nanos : Nat) < UInt32.size := Nat.lt_trans d.nanos.isLt (by decide)
  have bound : d.seconds.toNat * 1000000000 + d.nanos < UInt64.size * 1000000000 := by
    have := d.nanos.isLt
    omega
  -- What was written carries nothing into the seconds, so the total is in range.
  simp only [ofJson?, fields]
  rw [natBelow?_ofNat seconds, natBelow?_ofNat nanos, Option.bind_eq_bind, Option.bind_some,
    Option.bind_some, if_pos bound]
  exact congrArg some d.ofNanos_totalNanos

end Duration

theorem Willingness.readsBack : ReadsBack toJson ofJson? := by
  intro w
  simp [toJson, ofJson?, octet?_ofNat]

theorem LinkCode.readsBack : ReadsBack toJson ofJson? := by
  intro c
  simp [toJson, ofJson?, octet?_ofNat]

theorem Mid.readsBack : ReadsBack toJson ofJson? := by
  intro m
  have fields : m.toJson.record? ["interface_addresses"] = some [_] := record?_object (by simp)
  simp [ofJson?, fields, Address.readsBack.list]

theorem LinkMessage.readsBack : ReadsBack toJson ofJson? := by
  intro l
  have fields : l.toJson.record? ["link_code", "neighbor_interface_addresses"] = some [_, _] :=
    record?_object (by simp)
  simp [ofJson?, fields, LinkCode.readsBack l.linkCode, Address.readsBack.list]

theorem Hello.readsBack : ReadsBack toJson ofJson? := by
  intro h
  have fields : h.toJson.record? ["hello_interval", "willingness", "link_messages"] =
      some [_, _, _] := record?_object (by simp)
  simp [ofJson?, fields, Duration.readsBack h.interval, Willingness.readsBack h.willingness,
    LinkMessage.readsBack.list]

theorem Tc.readsBack : ReadsBack toJson ofJson? := by
  intro t
  have fields : t.toJson.record? ["ansn", "neighbor_addresses"] = some [_, _] :=
    record?_object (by simp)
  simp [ofJson?, fields, word16?_ofNat, Address.readsBack.list]

theorem Association.readsBack : ReadsBack toJson ofJson? := by
  intro a
  have fields : a.toJson.record? ["address", "mask"] = some [_, _] := record?_object (by simp)
  simp [ofJson?, fields, Address.readsBack a.address, Address.readsBack a.mask]

theorem Hna.readsBack : ReadsBack toJson ofJson? := by
  intro h
  have fields : h.toJson.record? ["associations"] = some [_] := record?_object (by simp)
  simp [ofJson?, fields, Association.readsBack.list]

/-- The type byte is kept, also one that names an interpreted type. -/
theorem Opaque.readsBack : ReadsBack toJson ofJson? := by
  intro o
  have fields : o.toJson.record? ["type_byte", "payload"] = some [_, _] :=
    record?_object (by simp)
  have octets : ReadsBack (fun x : UInt8 => ofNat x.toNat) octet? := octet?_ofNat
  simp [ofJson?, fields, payloadOfJson?, octet?_ofNat, octets.list]

theorem Body.readsBack : ReadsBack toJson ofJson? := by
  intro b
  cases b with
  | hello h => simp [toJson, ofJson?, tagged?, Hello.readsBack h]
  | tc t => simp [toJson, ofJson?, tagged?, Tc.readsBack t]
  | mid m => simp [toJson, ofJson?, tagged?, Mid.readsBack m]
  | hna h => simp [toJson, ofJson?, tagged?, Hna.readsBack h]
  | unknown o => simp [toJson, ofJson?, tagged?, Opaque.readsBack o]

theorem Message.readsBack : ReadsBack toJson ofJson? := by
  intro m
  have fields : m.toJson.record? ["validity", "originator", "time_to_live", "hop_count",
      "sequence_number", "body"] = some [_, _, _, _, _, _] := record?_object (by simp)
  simp [ofJson?, fields, Duration.readsBack m.validity, Address.readsBack m.originator,
    octet?_ofNat, word16?_ofNat, Body.readsBack m.body]

namespace Packet

theorem readsBack : ReadsBack toJson ofJson? := by
  intro p
  have fields : p.toJson.record? ["sequence_number", "messages"] = some [_, _] :=
    record?_object (by simp)
  simp [ofJson?, fields, word16?_ofNat, Message.readsBack.list]

/-- Every packet is read back from its JSON form. What was read from any JSON value at all, written
in this form or not, is read back as well, and so has the same encoding again. -/
theorem json_reads_back :
    (∀ p : Packet, ofJson? p.toJson = some p) ∧
    ∀ (j : Json) (q : Packet), ofJson? j = some q →
      ofJson? q.toJson = some q ∧ (ofJson? q.toJson).map encode = (ofJson? j).map encode := by
  refine ⟨readsBack, fun j q read => ?_⟩
  rw [readsBack q, read]
  exact ⟨rfl, rfl⟩

/-- Fields in another order, nanoseconds that carry into the seconds, and an opaque body with the
type byte of a MID. -/
theorem carried_nanos_read_back :
    let opaqueBody := object [("payload", array [ofNat 97]), ("type_byte", ofNat 1)]
    let message := object [("body", object [("Unknown", opaqueBody)]), ("hop_count", ofNat 0),
      ("originator", string "10.0.0.1"), ("sequence_number", ofNat 9), ("time_to_live", ofNat 3),
      ("validity", object [("nanos", ofNat 1500000000), ("secs", ofNat 1)])]
    let j := object [("messages", array [message]), ("sequence_number", ofNat 7)]
    let q : Packet := ⟨7, [{
      body := .unknown ⟨1, [97]⟩, validity := ⟨2, 500000000⟩, originator := ⟨10, 0, 0, 1⟩
      timeToLive := 3, sequenceNumber := 9 }]⟩
    ofJson? j = some q ∧ ofJson? q.toJson = some q ∧
      (ofJson? q.toJson).map encode = (ofJson? j).map encode := by
  intro opaqueBody message j q
  have read : ofJson? j = some q := by decide +kernel
  exact ⟨read, json_reads_back.2 j q read⟩

end Packet
end Olsr
