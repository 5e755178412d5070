/-!
Octet strings. A 16-bit number is written most significant octet first.
`holds n b` looks at no more than `n` octets, so a length check costs what it checks.
-/

namespace Olsr

abbrev Octets := List UInt8

namespace Octets

def ofWord16 (w : UInt16) : Octets :=
  [UInt8.ofNat (w.toNat / 256), UInt8.ofNat (w.toNat % 256)]

def word16 (high low : UInt8) : UInt16 :=
  UInt16.ofNat (256 * high.toNat + low.toNat)

@[simp] theorem ofWord16_length (w : UInt16) : (ofWord16 w).length = 2 := rfl

theorem word16_toNat (high low : UInt8) :
    (word16 high low).toNat = 256 * high.toNat + low.toNat := by
  have := high.toNat_lt
  have := low.toNat_lt
  simp only [word16, UInt16.toNat_ofNat']
  omega

theorem word16_ofWord16 (w : UInt16) :
    word16 (UInt8.ofNat (w.toNat / 256)) (UInt8.ofNat (w.toNat % 256)) = w := by
  have := w.toNat_lt
  apply UInt16.toNat_inj.mp
  simp only [word16_toNat, UInt8.toNat_ofNat']
  omega

theorem ofWord16_word16 (high low : UInt8) : ofWord16 (word16 high low) = [high, low] := by
  have := high.toNat_lt
  have := low.toNat_lt
  simp only [ofWord16, word16_toNat, List.cons.injEq, and_true]
  constructor <;> apply UInt8.toNat_inj.mp <;> simp only [UInt8.toNat_ofNat'] <;> omega

def holds : Nat → Octets → Bool
  | 0, _ => true
  | _ + 1, [] => false
  | n + 1, _ :: rest => holds n rest

theorem holds_iff (n : Nat) (b : Octets) : holds n b = true ↔ n ≤ b.length := by
  induction n generalizing b with
  | zero => simp [holds]
  | succ n ih => cases b <;> simp [holds, ih]

end Octets

def total (lengths : List Nat) : Nat := lengths.foldr (fun n rest => n + rest) 0

@[simp] theorem total_nil : total [] = 0 := rfl

@[simp] theorem total_cons (n : Nat) (lengths : List Nat) :
    total (n :: lengths) = n + total lengths := rfl

/-- The 16-bit field for a measured length. A length above 65535 loses its high bits. -/
def sizeField (length : Nat) : UInt16 := UInt16.ofNat length

theorem sizeField_toNat (length : Nat) (h : length < 65536) :
    (sizeField length).toNat = length := by
  simp only [sizeField, UInt16.toNat_ofNat']
  omega

end Olsr
