import Olsr.Octets

/-!
Four-octet interface addresses, their dotted text and the length of a network mask.
A text is read only in the form in which it is written: four decimal numbers below 256,
without leading zeros, separated by single dots.
-/

namespace Olsr

structure Address where
  a : UInt8
  b : UInt8
  c : UInt8
  d : UInt8
  deriving DecidableEq

namespace Address

def unspecified : Address := ⟨0, 0, 0, 0⟩

def octets (x : Address) : Octets := [x.a, x.b, x.c, x.d]

@[simp] theorem octets_length (x : Address) : x.octets.length = 4 := rfl

def encodeAll (xs : List Address) : Octets := xs.flatMap octets

theorem encodeAll_length (xs : List Address) : (encodeAll xs).length = 4 * xs.length := by
  induction xs with
  | nil => rfl
  | cons x xs ih =>
    simp only [encodeAll, List.flatMap_cons, List.length_append, octets_length,
      List.length_cons] at ih ⊢
    omega

def digits (x : UInt8) : List Char := Nat.toDigits 10 x.toNat

/-- The octet whose decimal digits are given; other digit strings name no octet. -/
def octetOfDigits? (piece : List Char) : Option UInt8 :=
  let n := piece.foldl (fun n c => 10 * n + (c.toNat - 48)) 0
  if n < 256 ∧ Nat.toDigits 10 n = piece then some (UInt8.ofNat n) else none

def pieces : List Char → List (List Char)
  | [] => [[]]
  | c :: rest =>
    if c = '.' then [] :: pieces rest
    else match pieces rest with
      | [] => [[c]]
      | p :: ps => (c :: p) :: ps

def text (x : Address) : String :=
  String.ofList (digits x.a ++ '.' :: digits x.b ++ '.' :: digits x.c ++ '.' :: digits x.d)

def ofText? (s : String) : Option Address :=
  match pieces s.toList with
  | [a, b, c, d] => do
    return ⟨← octetOfDigits? a, ← octetOfDigits? b, ← octetOfDigits? c, ← octetOfDigits? d⟩
  | _ => none

def bits (x : UInt8) : List Bool :=
  (List.range 8).map fun i => x.toNat.testBit (7 - i)

/-- Number of one bits before the first zero bit. -/
def maskLength (x : Address) : Nat :=
  ((x.octets.flatMap bits).takeWhile id).length

theorem maskLength_le (x : Address) : x.maskLength ≤ 32 := by
  have h := (List.takeWhile_sublist (id : Bool → Bool) (l := x.octets.flatMap bits)).length_le
  simpa [maskLength, octets, bits] using h

end Address
end Olsr
