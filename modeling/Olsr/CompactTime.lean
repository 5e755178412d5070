import Olsr.Duration

/-!
The one-octet form of a duration. The high four bits are an exponent e, the low four a mantissa
m, and the octet stands for 2^e * (16 + m) sixteenths of a second, from 1 s to 63488 s. A number
of seconds is encoded with the least exponent whose rounded mantissa fits into four bits; below
1 s it becomes 0x00 and past the top 0xFF.
-/

namespace Olsr.CompactTime

open Binary64 (finite ofNat unit)

def sixteenth : Nat := 1 <<< 1070

def scale : Binary64 := finite sixteenth

def minSeconds : Binary64 := scale.mul (ofNat 16)

def maxEncoded : UInt8 := 0xFF

def sixteenths (b : UInt8) : Nat := (16 + b.toNat % 16) <<< (b.toNat / 16)

/-- What is left for the mantissa at an exponent, whether or not it fits. -/
def mantissaAt (steps : Binary64) (exponent : Nat) : Binary64 :=
  (steps.div (ofNat (1 <<< exponent))).whole.sub (ofNat 16)

def fits (steps : Binary64) (exponent : Nat) : Bool :=
  (mantissaAt steps exponent).le (ofNat 15)

def encode (seconds : Binary64) : UInt8 :=
  if seconds.isNan || seconds.lt minSeconds then 0
  else
    let steps := seconds.div scale
    match (List.range 16).find? (fits steps) with
    | some exponent =>
      UInt8.ofNat (16 * exponent) + ((mantissaAt steps exponent).max (finite 0)).toOctet
    | none => maxEncoded

def decode (b : UInt8) : Binary64 :=
  ((ofNat (1 <<< (b.toNat / 16))).mul scale).mul ((ofNat 16).add (ofNat (b.toNat % 16)))

theorem unit_eq : unit = 16 * sixteenth := by decide

theorem one_shiftLeft_lt {e : Nat} (small : e ≤ 15) : 1 <<< e < 1 <<< 53 := by
  rw [Nat.one_shiftLeft, Nat.one_shiftLeft]
  exact Nat.pow_lt_pow_right (by decide) (by omega)

theorem sixteenths_lt (b : UInt8) : sixteenths b < 1 <<< 20 := by
  have octet := b.toNat_lt
  rw [sixteenths, Nat.shiftLeft_eq, Nat.one_shiftLeft]
  calc (16 + b.toNat % 16) * 2 ^ (b.toNat / 16) < 2 ^ 5 * 2 ^ (b.toNat / 16) :=
        Nat.mul_lt_mul_of_pos_right (by omega) (Nat.two_pow_pos _)
    _ = 2 ^ (5 + b.toNat / 16) := (Nat.pow_add 2 5 _).symm
    _ ≤ 2 ^ 20 := Nat.pow_le_pow_right (by decide) (by omega)

theorem exact_decode (b : UInt8) : Binary64.Exact (sixteenths b * sixteenth) :=
  Binary64.exact_mul_shiftLeft (Nat.lt_trans (sixteenths_lt b) (by decide)) (by decide)

/-- Both products and the sum are doubles, so nothing is rounded. -/
theorem decode_eq (b : UInt8) : decode b = finite (sixteenths b * sixteenth : Nat) := by
  have octet := b.toNat_lt
  have exponent : 1 <<< (b.toNat / 16) < 1 <<< 53 := one_shiftLeft_lt (by omega)
  have power : (ofNat (1 <<< (b.toNat / 16))).mul scale =
      finite (1 <<< (b.toNat / 16) * sixteenth : Nat) := by
    rw [Binary64.ofNat_of_lt exponent]
    refine Binary64.mul_of_exact ?_ (Binary64.exact_mul_shiftLeft exponent (by decide))
    exact Nat.mul_right_comm _ _ _
  have mantissa : (ofNat 16).add (ofNat (b.toNat % 16)) =
      finite ((16 + b.toNat % 16) * unit : Nat) := by
    have sum : ((16 * unit : Nat) : Int) + (b.toNat % 16 * unit : Nat) =
        ((16 + b.toNat % 16) * unit : Nat) := by
      rw [Nat.add_mul, Int.natCast_add]
    rw [Binary64.ofNat_of_lt (by decide), Binary64.ofNat_of_lt (by omega), Binary64.add_of_exact,
      sum]
    rw [sum, Int.natAbs_natCast]
    exact Binary64.exact_mul_unit (by omega)
  rw [decode, power, mantissa]
  refine Binary64.mul_of_exact ?_ (exact_decode b)
  calc sixteenths b * sixteenth * unit
      = 1 <<< (b.toNat / 16) * (16 + b.toNat % 16) * (sixteenth * unit) := by
        rw [sixteenths, Nat.shiftLeft_eq, Nat.one_shiftLeft, Nat.mul_comm (2 ^ _), Nat.mul_assoc]
    _ = 1 <<< (b.toNat / 16) * sixteenth * ((16 + b.toNat % 16) * unit) :=
        Nat.mul_mul_mul_comm _ _ _ _

def encodeDuration (d : Duration) : UInt8 := encode d.toBinary64

theorem ofBinary64?_decode (b : UInt8) :
    Duration.ofBinary64? (decode b) = some (Duration.ofNanos (sixteenths b * 62500000)) := by
  have small : sixteenths b < 1048576 := sixteenths_lt b
  have product : sixteenths b * sixteenth * 1000000000 = sixteenths b * 62500000 * unit := by
    rw [unit_eq, Nat.mul_assoc, Nat.mul_assoc, ← Nat.mul_assoc 62500000, Nat.mul_comm sixteenth]
  rw [decode_eq]
  apply Duration.ofBinary64?_of_exact product
  rw [UInt64.size]
  omega

/-- The duration of an octet: every octet stands for seconds that a duration can have. -/
def decodeDuration (b : UInt8) : Duration :=
  (Duration.ofBinary64? (decode b)).get (Option.isSome_of_eq_some (ofBinary64?_decode b))

theorem decodeDuration_eq (b : UInt8) :
    decodeDuration b = Duration.ofNanos (sixteenths b * 62500000) :=
  Option.get_of_eq_some _ (ofBinary64?_decode b)

end Olsr.CompactTime
