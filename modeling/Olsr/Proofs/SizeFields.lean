import Olsr.Proofs.Policies

/-!
The lengths that are put into size fields. Sizes are computed in two ways, by adding up the 16-bit
sizes of the parts and by measuring what has been written. Both are run here with a record of every
length that is turned into 16 bits, those included that only reserve room for octets. None of them
is cut off exactly if the whole encoding is no longer than a size field can say, and then both ways
agree for every part.
-/

namespace Olsr

open Octets

/-- A value, and the lengths that were turned into 16 bits for it. -/
structure Measured (α : Type) where
  value : α
  lengths : List Nat

namespace Measured

variable {α β : Type}

instance : Monad Measured where
  pure x := ⟨x, []⟩
  bind x f := ⟨(f x.value).value, x.lengths ++ (f x.value).lengths⟩

def sizeField (length : Nat) : Measured UInt16 := ⟨Olsr.sizeField length, [length]⟩

def each (f : α → Measured β) (xs : List α) : Measured (List β) :=
  ⟨xs.map fun x => (f x).value, xs.flatMap fun x => (f x).lengths⟩

def Fits (x : Measured α) : Prop := ∀ n ∈ x.lengths, n ≤ maxMessageSize

@[simp] theorem bind_value (x : Measured α) (f : α → Measured β) :
    (x >>= f).value = (f x.value).value := rfl

@[simp] theorem pure_value (x : α) : (pure x : Measured α).value = x := rfl

@[simp] theorem sizeField_value (n : Nat) : (sizeField n).value = Olsr.sizeField n := rfl

@[simp] theorem each_value (f : α → Measured β) (xs : List α) :
    (each f xs).value = xs.map fun x => (f x).value := rfl

@[simp] theorem pure_fits (x : α) : (pure x : Measured α).Fits := nofun

@[simp] theorem bind_fits {x : Measured α} {f : α → Measured β} :
    (x >>= f).Fits ↔ x.Fits ∧ (f x.value).Fits :=
  List.forall_mem_append

@[simp] theorem sizeField_fits {n : Nat} : (sizeField n).Fits ↔ n ≤ maxMessageSize := by
  simp [Fits, sizeField]

@[simp] theorem each_fits {f : α → Measured β} {xs : List α} :
    (each f xs).Fits ↔ ∀ x ∈ xs, (f x).Fits :=
  List.forall_mem_flatMap

/-- Computing the size of a part and writing it: neither cuts off a length, and the size is the
length of what is written. -/
structure Accounts (computing : Measured UInt16) (writing : Measured Octets) (size : UInt16)
    (octets : Octets) : Prop where
  computes : computing.value = size
  writes : writing.value = octets
  computing_fits : computing.Fits
  writing_fits : writing.Fits
  exact : size.toNat = octets.length

end Measured

namespace LinkMessage

def measuredSize (l : LinkMessage) : Measured UInt16 := Measured.sizeField l.encodedLength

def measuredEncode (l : LinkMessage) : Measured Octets := do
  let size ← l.measuredSize
  return l.linkCode.byte :: 0 :: Octets.ofWord16 size ++ Address.encodeAll l.neighborAddresses

@[simp] theorem measuredSize_value (l : LinkMessage) : l.measuredSize.value = l.size := rfl

@[simp] theorem measuredEncode_value (l : LinkMessage) : l.measuredEncode.value = l.encode := rfl

@[simp] theorem measuredSize_fits {l : LinkMessage} :
    l.measuredSize.Fits ↔ l.encodedLength ≤ maxMessageSize :=
  Measured.sizeField_fits

@[simp] theorem measuredEncode_fits {l : LinkMessage} :
    l.measuredEncode.Fits ↔ l.encodedLength ≤ maxMessageSize := by
  simp [measuredEncode]

theorem accounts {l : LinkMessage} (fits : l.encodedLength ≤ maxMessageSize) :
    Measured.Accounts l.measuredSize l.measuredEncode l.size l.encode where
  computes := l.measuredSize_value
  writes := l.measuredEncode_value
  computing_fits := measuredSize_fits.mpr fits
  writing_fits := measuredEncode_fits.mpr fits
  exact := by rw [size_toNat fits, encode_length]

end LinkMessage

/-- Adding up 16-bit sizes is adding up lengths exactly if no part and not the sum is cut off. -/
theorem total_sizes_fits {α : Type} (parts : List α) {size : α → UInt16} {length : α → Nat}
    (exact : ∀ x ∈ parts, length x ≤ maxMessageSize → (size x).toNat = length x) (header : Nat) :
    (∀ x ∈ parts, length x ≤ maxMessageSize) ∧
        header + total (parts.map fun x => (size x).toNat) ≤ maxMessageSize ↔
      header + total (parts.map length) ≤ maxMessageSize := by
  have sums (each : ∀ x ∈ parts, length x ≤ maxMessageSize) :
      (parts.map fun x => (size x).toNat) = parts.map length :=
    List.map_congr_left fun x member => exact x member (each x member)
  constructor
  · rintro ⟨each, whole⟩
    rwa [sums each] at whole
  · intro whole
    have each : ∀ x ∈ parts, length x ≤ maxMessageSize := fun x member =>
      Nat.le_trans (Nat.le_trans (le_total_of_mem (List.mem_map_of_mem member))
        (Nat.le_add_left _ header)) whole
    exact ⟨each, by rwa [sums each]⟩

namespace Hello

def measuredSize (h : Hello) : Measured UInt16 := do
  let sizes ← Measured.each LinkMessage.measuredSize h.linkMessages
  Measured.sizeField (fixedFieldsSize + total (sizes.map UInt16.toNat))

def measuredEncode (h : Hello) : Measured Octets := do
  let links ← Measured.each LinkMessage.measuredEncode h.linkMessages
  return 0 :: 0 :: CompactTime.encodeDuration h.interval :: h.willingness.byte :: links.flatten

@[simp] theorem measuredSize_value (h : Hello) : h.measuredSize.value = h.size := by
  simp [measuredSize, size, Function.comp_def]

@[simp] theorem measuredEncode_value (h : Hello) : h.measuredEncode.value = h.encode := by
  simp [measuredEncode, encode, List.flatMap_def]

@[simp] theorem measuredSize_fits {h : Hello} :
    h.measuredSize.Fits ↔ h.encodedLength ≤ maxMessageSize := by
  simpa [measuredSize, encodedLength, Function.comp_def] using
    total_sizes_fits h.linkMessages (fun _ _ => LinkMessage.size_toNat) fixedFieldsSize

theorem measuredEncode_fits {h : Hello} (fits : h.encodedLength ≤ maxMessageSize) :
    h.measuredEncode.Fits := by
  simp only [measuredEncode, Measured.bind_fits, Measured.each_fits,
    LinkMessage.measuredEncode_fits, Measured.pure_fits, and_true]
  exact fun _ member => Nat.le_trans (encodedLength_of_mem member) fits

end Hello

namespace Body

def measuredSize : Body → Measured UInt16
  | hello h => h.measuredSize
  | tc t => Measured.sizeField t.encodedLength
  | mid m => Measured.sizeField m.encodedLength
  | hna h => Measured.sizeField h.encodedLength
  | unknown o => Measured.sizeField o.payload.length

/-- Only link messages have sizes of their own. -/
def measuredEncode : Body → Measured Octets
  | hello h => h.measuredEncode
  | tc t => pure t.encode
  | mid m => pure m.encode
  | hna h => pure h.encode
  | unknown o => pure o.payload

@[simp] theorem measuredSize_value (b : Body) : b.measuredSize.value = b.size := by
  cases b with
  | hello h => exact h.measuredSize_value
  | tc | mid | hna | unknown => rfl

@[simp] theorem measuredEncode_value (b : Body) : b.measuredEncode.value = b.encode := by
  cases b with
  | hello h => exact h.measuredEncode_value
  | tc | mid | hna | unknown => rfl

@[simp] theorem measuredSize_fits {b : Body} :
    b.measuredSize.Fits ↔ b.encodedLength ≤ maxMessageSize := by
  cases b with
  | hello h => exact Hello.measuredSize_fits
  | tc | mid | hna | unknown => exact Measured.sizeField_fits

theorem measuredEncode_fits {b : Body} (fits : b.encodedLength ≤ maxMessageSize) :
    b.measuredEncode.Fits := by
  cases b with
  | hello h => exact Hello.measuredEncode_fits fits
  | tc | mid | hna | unknown => exact Measured.pure_fits _

theorem accounts {b : Body} (fits : b.encodedLength ≤ maxMessageSize) :
    Measured.Accounts b.measuredSize b.measuredEncode b.size b.encode where
  computes := b.measuredSize_value
  writes := b.measuredEncode_value
  computing_fits := measuredSize_fits.mpr fits
  writing_fits := measuredEncode_fits fits
  exact := by rw [size_toNat fits, encode_length]

end Body

namespace Message

def measuredSize (m : Message) : Measured UInt16 := do
  let body ← m.body.measuredSize
  Measured.sizeField (messageHeaderSize + body.toNat)

/-- The body is written first, into room for its computed size. -/
def measuredAppend (m : Message) : Measured Octets := do
  let _ ← m.body.measuredSize
  let body ← m.body.measuredEncode
  let size ← Measured.sizeField (messageHeaderSize + body.length)
  return m.typeByte :: CompactTime.encodeDuration m.validity :: Octets.ofWord16 size ++
    m.originator.octets ++ m.timeToLive :: m.hopCount :: Octets.ofWord16 m.sequenceNumber ++ body

def measuredEncode (m : Message) : Measured Octets := do
  let _ ← m.measuredSize
  m.measuredAppend

@[simp] theorem measuredSize_value (m : Message) : m.measuredSize.value = m.size := by
  simp [measuredSize, size]

@[simp] theorem measuredAppend_value (m : Message) : m.measuredAppend.value = m.encode := by
  simp [measuredAppend, encode]

@[simp] theorem measuredEncode_value (m : Message) : m.measuredEncode.value = m.encode :=
  m.measuredAppend_value

@[simp] theorem measuredSize_fits {m : Message} :
    m.measuredSize.Fits ↔ m.encodedLength ≤ maxMessageSize := by
  simp only [measuredSize, Measured.bind_fits, Body.measuredSize_fits, Body.measuredSize_value,
    Measured.sizeField_fits]
  constructor
  · rintro ⟨body, whole⟩
    rwa [Body.size_toNat body] at whole
  · intro whole
    have body := Nat.le_trans m.body_encodedLength_le whole
    exact ⟨body, by rwa [Body.size_toNat body]⟩

@[simp] theorem measuredAppend_fits {m : Message} :
    m.measuredAppend.Fits ↔ m.encodedLength ≤ maxMessageSize := by
  simp only [measuredAppend, Measured.bind_fits, Body.measuredSize_fits,
    Body.measuredEncode_value, Measured.sizeField_fits, Measured.pure_fits, and_true,
    Body.encode_length]
  constructor
  · rintro ⟨-, -, whole⟩
    exact whole
  · intro whole
    have body := Nat.le_trans m.body_encodedLength_le whole
    exact ⟨body, Body.measuredEncode_fits body, whole⟩

theorem accounts {m : Message} (fits : m.encodedLength ≤ maxMessageSize) :
    Measured.Accounts m.measuredSize m.measuredEncode m.size m.encode where
  computes := m.measuredSize_value
  writes := m.measuredEncode_value
  computing_fits := measuredSize_fits.mpr fits
  writing_fits := Measured.bind_fits.mpr ⟨measuredSize_fits.mpr fits, measuredAppend_fits.mpr fits⟩
  exact := by rw [size_toNat fits, encode_length]

theorem word16At_encode_eq_size {m : Message} (fits : m.encodedLength ≤ maxMessageSize) :
    word16At m.encode 2 = m.size := by
  apply UInt16.toNat_inj.mp
  rw [word16At_encode, sizeField_toNat _ (Nat.lt_succ_of_le fits), size_toNat fits]

theorem sized_encode {m : Message} (fits : m.encodedLength ≤ maxMessageSize) :
    Sized m.encode where
  header := by
    rw [encode_length, encodedLength, messageHeaderSize]
    omega
  declared := by rw [word16At_encode_eq_size fits, size_toNat fits, encode_length]

theorem size_ofFrame {strict : Bool} {f : Octets} (h : IsFrame strict f) :
    (ofFrame f).size = word16At f 2 := by
  apply UInt16.toNat_inj.mp
  rw [size_toNat (encodedLength_le h), encodedLength_ofFrame h, h.declared]

end Message

namespace Packet

def measuredLength (p : Packet) : Measured UInt16 := do
  let sizes ← Measured.each Message.measuredSize p.messages
  Measured.sizeField (packetHeaderSize + total (sizes.map UInt16.toNat))

def measuredAppend (p : Packet) : Measured Octets := do
  let _ ← p.measuredLength
  let messages ← Measured.each Message.measuredAppend p.messages
  let length ← Measured.sizeField (packetHeaderSize + messages.flatten.length)
  return Octets.ofWord16 length ++ Octets.ofWord16 p.sequenceNumber ++ messages.flatten

def measuredEncode (p : Packet) : Measured Octets := do
  let _ ← p.measuredLength
  p.measuredAppend

-- A HELLO with two link messages: twice room for the packet and once for the body, and what is
-- written of the link messages, the message and the packet.
example :
    let hello : Hello := ⟨.ofSeconds 2, ⟨3⟩, [⟨⟨6⟩, []⟩, ⟨⟨6⟩, [.unspecified]⟩]⟩
    (measuredEncode ⟨7, [{ body := .hello hello }]⟩).lengths =
      [4, 8, 16, 28, 32] ++ [4, 8, 16, 28, 32] ++ [4, 8, 16] ++ [4, 8, 28, 32] := rfl

@[simp] theorem measuredLength_value (p : Packet) : p.measuredLength.value = p.length := by
  simp [measuredLength, length, Function.comp_def]

@[simp] theorem measuredAppend_value (p : Packet) : p.measuredAppend.value = p.encode := by
  simp [measuredAppend, encode, List.flatMap_def]

@[simp] theorem measuredEncode_value (p : Packet) : p.measuredEncode.value = p.encode :=
  p.measuredAppend_value

@[simp] theorem measuredLength_fits {p : Packet} :
    p.measuredLength.Fits ↔ p.encodedLength ≤ maxMessageSize := by
  simpa [measuredLength, encodedLength, Function.comp_def] using
    total_sizes_fits p.messages (fun _ _ => Message.size_toNat) packetHeaderSize

@[simp] theorem measuredAppend_fits {p : Packet} :
    p.measuredAppend.Fits ↔ p.encodedLength ≤ maxMessageSize := by
  have written : packetHeaderSize + (p.messages.map Message.encode).flatten.length =
      p.encodedLength := by
    rw [← encode_length, ← List.flatMap_def]
    simp only [encode, List.length_append, ofWord16_length, packetHeaderSize]
  simp only [measuredAppend, Measured.bind_fits, measuredLength_fits, Measured.each_fits,
    Message.measuredAppend_fits, Measured.each_value, Message.measuredAppend_value,
    Measured.sizeField_fits, Measured.pure_fits, and_true, written]
  constructor
  · rintro ⟨whole, -⟩
    exact whole
  · intro whole
    exact ⟨whole, fun _ member => Nat.le_trans (encodedLength_of_mem member) whole, whole⟩

@[simp] theorem measuredEncode_fits {p : Packet} :
    p.measuredEncode.Fits ↔ p.encodedLength ≤ maxMessageSize := by
  simp only [measuredEncode, Measured.bind_fits, measuredLength_fits, measuredAppend_fits, and_self]

theorem accounts {p : Packet} (fits : p.encodedLength ≤ maxMessageSize) :
    Measured.Accounts p.measuredLength p.measuredEncode p.length p.encode where
  computes := p.measuredLength_value
  writes := p.measuredEncode_value
  computing_fits := measuredLength_fits.mpr fits
  writing_fits := measuredEncode_fits.mpr fits
  exact := by rw [length_toNat fits, encode_length]

theorem word16At_encode_eq_length {p : Packet} (fits : p.encodedLength ≤ maxMessageSize) :
    word16At p.encode 0 = p.length := by
  apply UInt16.toNat_inj.mp
  rw [word16At_encode, sizeField_toNat _ (Nat.lt_succ_of_le fits), length_toNat fits]

theorem header_add_sizes {p : Packet} (fits : p.encodedLength ≤ maxMessageSize) :
    packetHeaderSize + total (p.messages.map fun m => m.size.toNat) = p.length.toNat := by
  have sum := ((total_sizes_fits p.messages (fun _ _ => Message.size_toNat)
    packetHeaderSize).mpr fits).2
  exact (sizeField_toNat _ (Nat.lt_succ_of_le sum)).symm

end Packet

/-- As far as a packet is no longer than a size field can say, no length in it is cut off, and the
computed size of each part is the length of its encoding and what its size field says. Every decoded
packet is of this kind, and its sizes are those that were read. -/
theorem sizes_are_exact :
    (∀ p : Packet, p.encodedLength ≤ maxMessageSize →
      Measured.Accounts p.measuredLength p.measuredEncode p.length p.encode ∧
      word16At p.encode 0 = p.length ∧
      Splits Sized (p.encode.drop 4) (p.messages.map Message.encode) ∧
      ∀ m ∈ p.messages,
        Measured.Accounts m.measuredSize m.measuredEncode m.size m.encode ∧
        word16At m.encode 2 = m.size ∧
        m.encode.drop 12 = m.body.encode ∧
        Measured.Accounts m.body.measuredSize m.body.measuredEncode m.body.size m.body.encode ∧
        ∀ h, m.body = .hello h →
          Splits Sized (h.encode.drop 4) (h.linkMessages.map LinkMessage.encode) ∧
          ∀ l ∈ h.linkMessages,
            Measured.Accounts l.measuredSize l.measuredEncode l.size l.encode ∧
            word16At l.encode 2 = l.size) ∧
    ∀ policy b p, (Packet.decode policy b).outcome = .ok p →
      p.encodedLength ≤ maxMessageSize ∧ p.length = word16At b 0 ∧
      packetHeaderSize + total (p.messages.map fun m => m.size.toNat) = p.length.toNat ∧
      ∃ frames, SplitsOnly (Message.IsFrame policy.strictReserved) (Packet.payloadOf b) frames ∧
        p.messages.map Message.size = frames.map (word16At · 2) := by
  refine ⟨fun p fits => ?_, fun policy b p ok => ?_⟩
  · have messages : ∀ m ∈ p.messages, m.encodedLength ≤ maxMessageSize := fun _ member =>
      Nat.le_trans (Packet.encodedLength_of_mem member) fits
    refine ⟨Packet.accounts fits, Packet.word16At_encode_eq_length fits,
      splits_flatMap fun m member => Message.sized_encode (messages m member), fun m member => ?_⟩
    have message := messages m member
    have body := Nat.le_trans m.body_encodedLength_le message
    refine ⟨Message.accounts message, Message.word16At_encode_eq_size message, rfl,
      Body.accounts body, fun h hello => ?_⟩
    rw [hello] at body
    have links : ∀ l ∈ h.linkMessages, l.encodedLength ≤ maxMessageSize := fun _ member =>
      Nat.le_trans (Hello.encodedLength_of_mem member) body
    exact ⟨(Hello.splits_encode body true).mono fun _ record => record.sized, fun l member =>
      ⟨LinkMessage.accounts (links l member), LinkMessage.word16At_encode l⟩⟩
  · obtain ⟨w, front, frame, -, rfl⟩ := Packet.decode_gives_iff.mp ⟨ok, rfl⟩
    have fits := Packet.encodedLength_le frame
    have header := frame.header
    obtain ⟨frames, splits⟩ := frame.messages
    rw [front, Packet.payloadOf_append frame, word16At_append (by omega)]
    refine ⟨fits, ?_, Packet.header_add_sizes fits, frames,
      splits.only fun _ message => message.sized, ?_⟩
    · apply UInt16.toNat_inj.mp
      rw [Packet.length_ofFrame frame, ← frame.declared]
    · rw [Packet.ofFrame, ← Message.frames_eq_pieces splits, List.map_map]
      exact List.map_congr_left fun f member => Message.size_ofFrame (splits.2 f member)

end Olsr
