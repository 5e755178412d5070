import Olsr.Address
import Olsr.DecodeError
import Olsr.Policy

/-!
Reading octets from the front. A reader stops with a refusal, which is an answer about the input,
or with a fault: an unguarded read past the end, or a length taken below zero. Unguarded readers
are named `next...`; each guarded reader asks for its octets first and refuses if they are missing.
-/

namespace Olsr

/-- An unguarded step that the octets at hand did not allow. -/
inductive Fault where
  | overread
  | negativeLength
  deriving DecidableEq

inductive Stop where
  | refused (error : DecodeError)
  | fault (fault : Fault)
  deriving DecidableEq

/-- Octets of the fixed fields in front of the repeated part of a HELLO or TC body. -/
def fixedFieldsSize : Nat := 4

abbrev Cursor := StateT Octets (Except Stop)

namespace Cursor

def refuse {α : Type} (error : DecodeError) : Cursor α := fun _ => .error (.refused error)

def unread : Cursor Octets := fun b => .ok (b, b)

def require (n : Nat) : Cursor Unit := fun b =>
  if b.holds n then .ok ((), b) else .error (.refused (.bufferUnderrun n b.length))

def nextOctet : Cursor UInt8 := fun b =>
  match b with
  | x :: rest => .ok (x, rest)
  | [] => .error (.fault .overread)

def nextWord16 : Cursor UInt16 := fun b =>
  match b with
  | high :: low :: rest => .ok (Octets.word16 high low, rest)
  | _ => .error (.fault .overread)

def nextAddress : Cursor Address := fun b =>
  match b with
  | p :: q :: r :: s :: rest => .ok (⟨p, q, r, s⟩, rest)
  | _ => .error (.fault .overread)

def nextBlock (n : Nat) : Cursor Octets := fun b =>
  if b.holds n then .ok (b.take n, b.drop n) else .error (.fault .overread)

def octet : Cursor UInt8 := do
  require 1
  nextOctet

def word16 : Cursor UInt16 := do
  require 2
  nextWord16

def address : Cursor Address := do
  require 4
  nextAddress

def block (n : Nat) : Cursor Octets := do
  require n
  nextBlock n

def difference (whole part : Nat) : Cursor Nat := fun b =>
  if part ≤ whole then .ok (whole - part, b) else .error (.fault .negativeLength)

def checkReserved (policy : Policy) (field : ReservedField) (value : Nat) : Cursor Unit :=
  if policy.strictReserved && value != 0 then refuse (.reservedNonZero field value) else pure ()

def refuseIf (cond : Bool) (error : DecodeError) : Cursor Unit :=
  if cond then refuse error else pure ()

/-- Run a reader on other octets, keeping the place in these. -/
def within {α : Type} (b : Octets) (reader : Cursor α) : Cursor α := fun rest =>
  (reader b).map fun (x, _) => (x, rest)

theorem bind_eq_ok {α β : Type} {x : Cursor α} {f : α → Cursor β} {b rest : Octets} {y : β} :
    (x >>= f) b = .ok (y, rest) ↔ ∃ a mid, x b = .ok (a, mid) ∧ f a mid = .ok (y, rest) := by
  show Except.bind (x b) (fun p => f p.1 p.2) = _ ↔ _
  cases h : x b with
  | error stop => simp [Except.bind]
  | ok p =>
    obtain ⟨a, mid⟩ := p
    constructor
    · intro h
      exact ⟨a, mid, rfl, h⟩
    · rintro ⟨_, _, e, h⟩
      cases e
      exact h

theorem refuseIf_eq_ok {cond : Bool} {error : DecodeError} {b rest : Octets} {u : Unit} :
    refuseIf cond error b = .ok (u, rest) ↔ cond = false ∧ rest = b := by
  cases cond
  · show Except.ok (u, b) = Except.ok (u, rest) ↔ _
    simp [eq_comm]
  · simp [refuseIf, refuse]

theorem require_rest {n : Nat} {b rest : Octets} {u : Unit} (h : require n b = .ok (u, rest)) :
    rest = b := by
  unfold require at h
  split at h <;> cases h
  rfl

theorem difference_rest {whole part n : Nat} {b rest : Octets}
    (h : difference whole part b = .ok (n, rest)) : rest = b := by
  unfold difference at h
  split at h <;> cases h
  rfl

theorem nextOctet_rest {b rest : Octets} {x : UInt8} (h : nextOctet b = .ok (x, rest)) :
    b = x :: rest := by
  cases b <;> cases h
  rfl

theorem nextWord16_length {b rest : Octets} {w : UInt16} (h : nextWord16 b = .ok (w, rest)) :
    b.length = rest.length + 2 := by
  match b with
  | [] | [_] => cases h
  | _ :: _ :: _ =>
    cases h
    rfl

theorem nextAddress_rest {b rest : Octets} {x : Address} (h : nextAddress b = .ok (x, rest)) :
    b = x.octets ++ rest := by
  match b with
  | [] | [_] | [_, _] | [_, _, _] => cases h
  | _ :: _ :: _ :: _ :: _ =>
    cases h
    rfl

theorem block_append {n : Nat} {b octets rest : Octets} (h : block n b = .ok (octets, rest)) :
    b = octets ++ rest := by
  simp only [block, bind_eq_ok] at h
  obtain ⟨_, b', hr, h⟩ := h
  cases require_rest hr
  unfold nextBlock at h
  split at h <;> cases h
  exact (List.take_append_drop n b).symm

theorem address_rest {b rest : Octets} {x : Address} (h : address b = .ok (x, rest)) :
    b = x.octets ++ rest := by
  simp only [address, bind_eq_ok] at h
  obtain ⟨_, b', hr, h⟩ := h
  cases require_rest hr
  exact nextAddress_rest h

def Shrinks {α : Type} (item : Cursor α) : Prop :=
  ∀ b x rest, item b = .ok (x, rest) → rest.length < b.length

theorem address_shrinks : Shrinks address := by
  intro b x rest h
  simp [address_rest h]

def toEnd {α : Type} (item : Cursor α) (shrinks : Shrinks item) (b : Octets) :
    Except Stop (List α) :=
  if b.isEmpty then .ok []
  else match _h : item b with
    | .error stop => .error stop
    | .ok (x, rest) => (toEnd item shrinks rest).map (x :: ·)
termination_by b.length
decreasing_by exact shrinks _ _ _ _h

def addressList (field : LengthField) : Cursor (List Address) := do
  let b ← unread
  refuseIf (b.length % 4 != 0) (.malformedLength field b.length .partialAddress)
  toEnd address address_shrinks b

def requireFixedFields (field : LengthField) : Cursor Unit := do
  let b ← unread
  refuseIf (b.length < fixedFieldsSize) (.malformedLength field b.length .belowFixedFields)

end Cursor
end Olsr
