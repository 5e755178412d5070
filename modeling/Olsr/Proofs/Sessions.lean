import Olsr.Proofs.Relaying
import Olsr.Proofs.Safety
import Olsr.Session

/-!
A station over any list of steps. A decode that is refused takes octets and changes nothing else, no
step comes to a fault, and only turning around brings new octets in. A station that is handed typed
bodies holds typed bodies, so whatever steps have built its packet, what it writes is read back.
-/

namespace Olsr

open DecodeError (Permitted)

theorem Cursor.Settles.exists_refused {α : Type} {P : DecodeError → Prop} {r : Except Stop α}
    {stop : Stop} (h : Settles P r) (stopped : r = .error stop) :
    ∃ error, stop = .refused error ∧ P error := by
  subst stopped
  cases stop with
  | refused error => exact ⟨error, rfl, h⟩
  | fault fault => exact h.elim

namespace Message

theorem decode_suffix (policy : Policy) (b : Octets) : (decode policy b).unread <:+ b := by
  rw [decode_unread]
  split_ifs
  · exact List.suffix_refl b
  all_goals exact List.drop_suffix _ b

theorem decode_permitted (policy : Policy) (b : Octets) :
    Cursor.Settles (Permitted policy) (decode policy b).outcome := by
  rw [decode, Reading.report_outcome]
  exact read_permitted policy b

theorem isTyped_of_decode {policy : Policy} {b : Octets} {m : Message}
    (ok : (decode policy b).outcome = .ok m) : m.body.IsTyped := by
  obtain ⟨f, -, -, rfl⟩ := decode_gives_iff.mp ⟨ok, rfl⟩
  exact isTyped_ofFrame f

theorem isTyped_of_forwarded {m next : Message} (typed : m.body.IsTyped)
    (sent : m.forwarded = some next) : next.body.IsTyped := by
  rw [forwarded_eq_forwardedBy, forwardedBy_eq_some_iff] at sent
  rw [← sent.2]
  exact typed

end Message

namespace Packet

theorem decode_suffix (policy : Policy) (b : Octets) : (decode policy b).unread <:+ b := by
  rw [decode_unread]
  split_ifs
  · exact List.suffix_refl b
  all_goals exact List.drop_suffix _ b

theorem decode_permitted (policy : Policy) (b : Octets) :
    Cursor.Settles (Permitted policy) (decode policy b).outcome := by
  rw [decode, Reading.report_outcome]
  exact read_permitted policy b

theorem isTyped_of_decode {policy : Policy} {b : Octets} {p : Packet}
    (ok : (decode policy b).outcome = .ok p) : ∀ m ∈ p.messages, m.body.IsTyped := by
  obtain ⟨w, -, -, -, rfl⟩ := decode_gives_iff.mp ⟨ok, rfl⟩
  exact isTyped_ofFrame w

end Packet

theorem Body.isTyped_of_edit {change : Edit} {b next : Body} (edited : b.edit? change = some next) :
    next.IsTyped := by
  unfold edit? at edited
  split at edited
  case h_3 =>
    obtain ⟨links, -, rfl⟩ := Option.map_eq_some_iff.mp edited
    trivial
  case h_8 => cases edited
  all_goals
    cases edited
    trivial

namespace Session

variable {s next : Session} {t : Step} {ts : List Step}

/-- Octets of the input may be gone, and nothing else is different. -/
structure ReadOn (s next : Session) : Prop where
  packet : next.packet = s.packet
  register : next.register = s.register
  outgoing : next.outgoing = s.outgoing
  policy : next.policy = s.policy
  incoming : next.incoming <:+ s.incoming

theorem ReadOn.refl (s : Session) : ReadOn s s := ⟨rfl, rfl, rfl, rfl, List.suffix_refl _⟩

theorem ReadOn.trans {last : Session} (h : ReadOn s next) (h' : ReadOn next last) :
    ReadOn s last where
  packet := h'.packet.trans h.packet
  register := h'.register.trans h.register
  outgoing := h'.outgoing.trans h.outgoing
  policy := h'.policy.trans h.policy
  incoming := h'.incoming.trans h.incoming

def Step.Reads : Step → Bool
  | .turnAround | .decode | .decodeRegister => true
  | _ => false

theorem step_of_not_reads (aside : t.Reads = false) :
    (s.step t).2.incoming = s.incoming ∧ ∀ stop, (s.step t).1 ≠ .stopped stop := by
  cases t with
  | turnAround | decode | decodeRegister => cases aside
  | forward | replaceBody | encodeRegister | showRegister =>
    simp only [step]
    split <;> exact ⟨rfl, nofun⟩
  | edit =>
    simp only [step]
    split
    · split <;> exact ⟨rfl, nofun⟩
    · exact ⟨rfl, nofun⟩
  | _ => exact ⟨rfl, nofun⟩

theorem step_stopped {stop : Stop} (stopped : (s.step t).1 = .stopped stop) :
    (∃ error, stop = .refused error ∧ Permitted s.policy error) ∧ ReadOn s (s.step t).2 := by
  cases t with
  | decode =>
    have settled := Packet.decode_permitted s.policy s.incoming
    cases outcome : (Packet.decode s.policy s.incoming).outcome with
    | ok p =>
      simp only [step, outcome] at stopped
      cases stopped
    | error cause =>
      simp only [step, outcome] at stopped ⊢
      cases stopped
      exact ⟨settled.exists_refused outcome, rfl, rfl, rfl, rfl, Packet.decode_suffix _ _⟩
  | decodeRegister =>
    have settled := Message.decode_permitted s.policy s.incoming
    cases outcome : (Message.decode s.policy s.incoming).outcome with
    | ok m =>
      simp only [step, outcome] at stopped
      cases stopped
    | error cause =>
      simp only [step, outcome] at stopped ⊢
      cases stopped
      exact ⟨settled.exists_refused outcome, rfl, rfl, rfl, rfl, Message.decode_suffix _ _⟩
  | turnAround => cases stopped
  | _ => exact absurd stopped ((step_of_not_reads rfl).2 stop)

theorem step_incoming (forth : t ≠ .turnAround) : (s.step t).2.incoming <:+ s.incoming := by
  cases t with
  | turnAround => exact absurd rfl forth
  | decode =>
    simp only [step]
    split <;> exact Packet.decode_suffix _ _
  | decodeRegister =>
    simp only [step]
    split <;> exact Message.decode_suffix _ _
  | _ => rw [(step_of_not_reads rfl).1]

/-- No message in hand has a body that poses as another type. -/
structure Typed (s : Session) : Prop where
  packet : ∀ m ∈ s.packet.messages, m.body.IsTyped
  register : ∀ m, s.register = some m → m.body.IsTyped

-- A new session holds nothing.
example : Typed {} := ⟨nofun, nofun⟩

def Step.Typed : Step → Prop
  | .push m => m.body.IsTyped
  | .replaceBody b => b.IsTyped
  | _ => True

theorem Typed.pushing (h : s.Typed) {ms : List Message} (typed : ∀ m ∈ ms, m.body.IsTyped) :
    Typed { s with packet.messages := s.packet.messages ++ ms } := by
  refine ⟨fun m member => ?_, h.register⟩
  rcases List.mem_append.mp member with before | added
  · exact h.packet m before
  · exact typed m added

theorem Typed.holding (h : s.Typed) {m : Message} (typed : m.body.IsTyped) :
    Typed { s with register := some m } :=
  ⟨h.packet, fun _ same => Option.some.inj same ▸ typed⟩

theorem step_typed (h : s.Typed) (handed : t.Typed) : (s.step t).2.Typed := by
  cases t with
  | startPacket => exact ⟨nofun, h.register⟩
  | push m => exact h.pushing fun _ only => List.mem_singleton.mp only ▸ handed
  | pushRegister => exact h.pushing fun m held => h.register m (Option.mem_toList.mp held)
  | take i => exact ⟨h.packet, fun m taken => h.packet m (List.mem_of_getElem? taken)⟩
  | adjust settings =>
    refine ⟨h.packet, fun m' adjusted => ?_⟩
    obtain ⟨m, held, rfl⟩ := Option.map_eq_some_iff.mp adjusted
    exact h.register m held
  | forward =>
    simp only [step]
    split
    case h_1 m sent =>
      obtain ⟨m₀, held, sent⟩ := Option.bind_eq_some_iff.mp sent
      exact h.holding (Message.isTyped_of_forwarded (h.register m₀ held) sent)
    case h_2 => exact h
  | relay q =>
    refine ⟨fun m' member => ?_, h.register⟩
    obtain ⟨m₀, before, rfl⟩ := Packet.mem_relayed member
    exact h.packet m₀ before
  | reverse q => exact ⟨fun m member => h.packet m (List.mem_reverse.mp member), h.register⟩
  | replaceBody b =>
    simp only [step]
    split
    case h_1 => exact h.holding handed
    case h_2 => exact h
  | edit change =>
    simp only [step]
    split
    case h_1 =>
      split
      case h_1 b edited => exact h.holding (Body.isTyped_of_edit edited)
      case h_2 => exact h
    case h_2 => exact h
  | encodeRegister | showRegister =>
    simp only [step]
    split <;> exact ⟨h.packet, h.register⟩
  | decode =>
    simp only [step]
    split
    case h_1 p ok => exact ⟨Packet.isTyped_of_decode ok, h.register⟩
    case h_2 => exact ⟨h.packet, h.register⟩
  | decodeRegister =>
    simp only [step]
    split
    case h_1 m ok => exact ⟨h.packet, (h.holding (Message.isTyped_of_decode ok)).register⟩
    case h_2 => exact ⟨h.packet, h.register⟩
  | _ => exact ⟨h.packet, h.register⟩

def after (s : Session) (ts : List Step) : Session := ts.foldl (fun s t => (s.step t).2) s

theorem run_getElem? (s : Session) (ts : List Step) (i : Nat) :
    (s.run ts)[i]? = ts[i]?.map (s.after (ts.take i)).step := by
  induction ts generalizing s i with
  | nil => rfl
  | cons t ts ih =>
    cases i with
    | zero => rfl
    | succ i => exact ih (s.step t).2 i

theorem after_induction {P : Session → Prop} {allowed : Step → Prop}
    (kept : ∀ s t, P s → allowed t → P (s.step t).2) (start : P s) (steps : ∀ t ∈ ts, allowed t) :
    P (s.after ts) := by
  induction ts generalizing s with
  | nil => exact start
  | cons t ts ih =>
    exact ih (kept s t start (steps t List.mem_cons_self))
      fun t' later => steps t' (List.mem_cons_of_mem t later)

theorem after_typed (h : s.Typed) (handed : ∀ t ∈ ts, t.Typed) : (s.after ts).Typed :=
  after_induction (fun _ _ => step_typed) h handed

theorem after_incoming (forth : ∀ t ∈ ts, t ≠ .turnAround) :
    (s.after ts).incoming <:+ s.incoming :=
  after_induction (P := fun s' => s'.incoming <:+ s.incoming)
    (fun _ _ before once => (step_incoming once).trans before) (List.suffix_refl _) forth

/-- Wherever a run stops, it stops at a refusal, and the session is as it was but for octets of the
input. -/
theorem run_stopped {i : Nat} {stop : Stop}
    (stopped : (s.run ts)[i]? = some (.stopped stop, next)) :
    (∃ error, stop = .refused error ∧ Permitted (s.after (ts.take i)).policy error) ∧
      ReadOn (s.after (ts.take i)) next := by
  rw [run_getElem?] at stopped
  obtain ⟨t, -, answer⟩ := Option.map_eq_some_iff.mp stopped
  have := step_stopped (congrArg Prod.fst answer)
  rwa [answer] at this

theorem after_readOn (refused : ∀ answer ∈ s.run ts, ∃ stop, answer.1 = .stopped stop) :
    ReadOn s (s.after ts) := by
  induction ts generalizing s with
  | nil => exact .refl s
  | cons t ts ih =>
    obtain ⟨stop, stopped⟩ := refused _ List.mem_cons_self
    exact (step_stopped stopped).2.trans
      (ih fun answer later => refused answer (List.mem_cons_of_mem _ later))

theorem Typed.decode_encode_packet (h : s.Typed) {policy : Policy} (rest : Octets)
    (fits : s.packet.encodedLength ≤ maxMessageSize)
    (capped : s.packet.encodedLength ≤ policy.maxPacketLength) :
    (Packet.decode policy (s.packet.encode ++ rest)).Gives s.packet.quantized rest := by
  refine Packet.decode_gives_iff.mpr ⟨_, rfl, Packet.isFrame_encode fits h.packet _, ?_,
    (Packet.ofFrame_encode fits h.packet).symm⟩
  rwa [Packet.encode_length]

/-- Whatever steps have built it, a packet that fits is written so that it is read back. -/
theorem run_encode_reads_back (h : s.Typed) (handed : ∀ t ∈ ts, t.Typed) {i : Nat}
    {octets : Octets} (encode : ts[i]? = some .encode)
    (written : (s.run ts)[i]? = some (.octets octets, next)) {policy : Policy} (rest : Octets)
    (fits : next.packet.encodedLength ≤ maxMessageSize)
    (capped : next.packet.encodedLength ≤ policy.maxPacketLength) :
    (Packet.decode policy (octets ++ rest)).Gives next.packet.quantized rest := by
  have typed : (s.after (ts.take i)).Typed :=
    after_typed h fun t early => handed t (List.mem_of_mem_take early)
  rw [run_getElem?, encode] at written
  cases written
  exact typed.decode_encode_packet rest fits capped

theorem after_encode_turnAround_decode (h : s.Typed) (empty : s.outgoing = [])
    (fits : s.packet.encodedLength ≤ maxMessageSize)
    (capped : s.packet.encodedLength ≤ s.policy.maxPacketLength) :
    s.after [.encode, .turnAround, .decode] =
      { s with packet := s.packet.quantized, incoming := [] } := by
  have read := h.decode_encode_packet [] fits capped
  rw [List.append_nil] at read
  simp only [after, List.foldl, step, empty, List.nil_append, read.1, read.2]

end Session
end Olsr
