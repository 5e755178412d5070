/-!
Values of the IEEE 754 binary64 format. A finite value is a count of units of 2^-1074, the
least positive double: `unit` of them make one, and from `limit` on a magnitude is infinite. Every
operation takes the exact result and rounds it once, to the nearest double, a tie going to the even
significand. The two zeros are one value: no result of this library depends on the sign of a zero.
-/

namespace Olsr

inductive Binary64 where
  | nan
  | infinite (negative : Bool)
  | finite (units : Int)
  deriving DecidableEq

namespace Binary64

def unit : Nat := 1 <<< 1074

def limit : Nat := 1 <<< 2098

/-- Distance from a double of magnitude `n` units to the next larger one. -/
def gap (n : Nat) : Nat := 1 <<< (n.log2 - 52)

/-- The whole number nearest to the quotient, a tie going to the even one. -/
def nearestEven (num den : Nat) : Nat :=
  let quotient := num / den
  let remainder := num % den
  if den < 2 * remainder ∨ (den = 2 * remainder ∧ quotient % 2 = 1) then quotient + 1 else quotient

def nearest (num den : Nat) : Nat :=
  let spacing := gap (num / den)
  nearestEven num (den * spacing) * spacing

def round (num : Int) (den : Nat) : Binary64 :=
  let magnitude := nearest num.natAbs den
  if limit ≤ magnitude then .infinite (decide (num < 0)) else .finite (num.sign * magnitude)

def ofNat (n : Nat) : Binary64 := round (n * unit) 1

def neg : Binary64 → Binary64
  | nan => nan
  | infinite negative => infinite (!negative)
  | finite u => finite (-u)

def add : Binary64 → Binary64 → Binary64
  | finite u, finite v => round (u + v) 1
  | infinite s, infinite t => if s = t then infinite s else nan
  | infinite s, finite _ => infinite s
  | finite _, infinite t => infinite t
  | _, _ => nan

def sub (x y : Binary64) : Binary64 := add x (neg y)

def mul : Binary64 → Binary64 → Binary64
  | finite u, finite v => round (u * v) unit
  | infinite s, infinite t => infinite (s != t)
  | infinite s, finite v => if v = 0 then nan else infinite (s != decide (v < 0))
  | finite u, infinite t => if u = 0 then nan else infinite (t != decide (u < 0))
  | _, _ => nan

/-- Quotient, with a zero divisor counted as positive. -/
def div : Binary64 → Binary64 → Binary64
  | finite u, finite v =>
    if v = 0 then (if u = 0 then nan else infinite (decide (u < 0)))
    else round (u * unit * v.sign) v.natAbs
  | infinite s, finite v => infinite (s != decide (v < 0))
  | finite _, infinite _ => finite 0
  | _, _ => nan

/-- The nearest whole number, a half going away from zero. -/
def whole : Binary64 → Binary64
  | finite u => finite (u.sign * (((2 * u.natAbs + unit) / (2 * unit) * unit : Nat) : Int))
  | x => x

def isNan : Binary64 → Bool
  | nan => true
  | _ => false

def le : Binary64 → Binary64 → Bool
  | finite u, finite v => decide (u ≤ v)
  | finite _, infinite t => !t
  | infinite s, finite _ => s
  | infinite s, infinite t => s || !t
  | _, _ => false

def lt (x y : Binary64) : Bool := le x y && !le y x

def max (x y : Binary64) : Binary64 := if le x y then y else x

def toOctet : Binary64 → UInt8
  | nan => 0
  | infinite negative => if negative then 0 else 255
  | finite u => UInt8.ofNat (Nat.min 255 (u.toNat / unit))

def ofBits (bits : UInt64) : Binary64 :=
  let negative := decide (1 <<< 63 ≤ bits.toNat)
  let exponent := (bits.toNat >>> 52) % 2048
  let fraction := bits.toNat % (1 <<< 52)
  if exponent = 2047 then (if fraction = 0 then infinite negative else nan)
  else
    let magnitude : Nat :=
      if exponent = 0 then fraction else ((1 <<< 52) + fraction) <<< (exponent - 1)
    finite (if negative then -(magnitude : Int) else magnitude)

def toBits : Binary64 → UInt64
  | nan => 0x7ff8000000000000
  | infinite negative => if negative then 0xfff0000000000000 else 0x7ff0000000000000
  | finite u =>
    let exponent := u.natAbs.log2 - 52
    let pattern := (exponent <<< 52) + (u.natAbs >>> exponent)
    UInt64.ofNat (if u < 0 then (1 <<< 63) + pattern else pattern)

end Binary64
end Olsr
