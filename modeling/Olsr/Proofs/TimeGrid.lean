import Mathlib.Order.Monotone.Basic
import Mathlib.Tactic.Positivity
import Mathlib.Tactic.Ring
import Olsr.CompactTime

/-!
The grid of compact times. An octet with exponent e and mantissa m stands for (16 + m) * 2^e
sixteenths of a second. A time belongs to the octet whose point it is nearest to, the larger one
half way, and so a time is known well enough by the midpoints that it reaches. A sum of two points
counts thirty-seconds of a second up to the midpoint between them.
-/

namespace Olsr.CompactTime

def point (n : Nat) : Nat := (16 + n % 16) <<< (n / 16)

theorem point_succ (n : Nat) : point (n + 1) = point n + 2 ^ (n / 16) := by
  simp only [point, Nat.shiftLeft_eq]
  by_cases carry : n % 16 = 15
  · have high : (n + 1) / 16 = n / 16 + 1 := by omega
    have low : (n + 1) % 16 = 0 := by omega
    rw [high, low, carry]
    ring
  · have high : (n + 1) / 16 = n / 16 := by omega
    have low : (n + 1) % 16 = n % 16 + 1 := by omega
    rw [high, low]
    ring

theorem strictMono_point : StrictMono point := by
  refine strictMono_nat_of_lt_succ fun n => ?_
  rw [point_succ]
  exact Nat.lt_add_of_pos_right (by positivity)

theorem point_add_succ (n : Nat) :
    point n + point (n + 1) = (2 * (16 + n % 16) + 1) * 2 ^ (n / 16) := by
  rw [point_succ, point, Nat.shiftLeft_eq]
  ring

theorem sixteenths_lt_sixteenths {b c : UInt8} (h : b < c) : sixteenths b < sixteenths c :=
  strictMono_point (UInt8.lt_iff_toNat_lt.mp h)

theorem le_sixteenths (b : UInt8) : point 0 ≤ sixteenths b :=
  strictMono_point.monotone (Nat.zero_le b.toNat)

theorem sixteenths_le (b : UInt8) : sixteenths b ≤ point 255 :=
  strictMono_point.monotone (Nat.le_of_lt_succ b.toNat_lt)

section Octet

variable {e m : Nat}

theorem octet_parts (b : UInt8) : ∃ e m : Nat, e ≤ 15 ∧ m ≤ 15 ∧ b = UInt8.ofNat (16 * e + m) := by
  have := b.toNat_lt
  have whole : 16 * (b.toNat / 16) + b.toNat % 16 = b.toNat := Nat.div_add_mod b.toNat 16
  refine ⟨b.toNat / 16, b.toNat % 16, by omega, by omega, ?_⟩
  rw [whole, UInt8.ofNat_toNat]

theorem toNat_octet (exponent : e ≤ 15) (mantissa : m ≤ 15) :
    (UInt8.ofNat (16 * e + m)).toNat = 16 * e + m :=
  UInt8.toNat_ofNat_of_lt' (Nat.lt_of_le_of_lt (by omega : 16 * e + m ≤ 255) (by decide))

theorem sixteenths_octet (exponent : e ≤ 15) (mantissa : m ≤ 15) :
    sixteenths (UInt8.ofNat (16 * e + m)) = 2 ^ e * (16 + m) := by
  have high : (16 * e + m) / 16 = e := by omega
  have low : (16 * e + m) % 16 = m := by omega
  rw [sixteenths, toNat_octet exponent mantissa, high, low, Nat.shiftLeft_eq, Nat.mul_comm]

end Octet

/-- What `s` leaves at an exponent, a half going up. -/
def roundedAt (s exponent : Nat) : Nat := (2 * s + 1 <<< exponent) / (2 * 1 <<< exponent)

theorem lt_roundedAt_iff {k s exponent : Nat} :
    k < roundedAt s exponent ↔ (2 * k + 1) * 2 ^ exponent ≤ 2 * s := by
  have pos : 0 < 2 ^ exponent := Nat.two_pow_pos exponent
  have sum : (k + 1) * (2 * 2 ^ exponent) = (2 * k + 1) * 2 ^ exponent + 2 ^ exponent := by ring
  rw [roundedAt, Nat.one_shiftLeft, ← Nat.succ_le_iff, Nat.succ_eq_add_one,
    Nat.le_div_iff_mul_le (by omega), sum, Nat.add_le_add_iff_right]

theorem roundedAt_mul (s exponent j : Nat) :
    roundedAt (2 ^ exponent * s) (exponent + j) = roundedAt s j := by
  refine eq_of_forall_lt_iff fun k => ?_
  have left : (2 * k + 1) * 2 ^ (exponent + j) = 2 ^ exponent * ((2 * k + 1) * 2 ^ j) := by ring
  have right : 2 * (2 ^ exponent * s) = 2 ^ exponent * (2 * s) := by ring
  rw [lt_roundedAt_iff, lt_roundedAt_iff, left, right,
    Nat.mul_le_mul_left_iff (Nat.two_pow_pos exponent)]

/-- A time that reaches the midpoints in `reaches` is nearest to the octet's point. -/
structure Owns (reaches : Nat → Prop) (b : UInt8) : Prop where
  above : ∀ c < b, reaches (sixteenths c + sixteenths b)
  below : ∀ c, b < c → ¬ reaches (sixteenths b + sixteenths c)

section Owns

variable {reaches reaches' : Nat → Prop} {b b' : UInt8}

theorem owns_of_neighbours (closed : ∀ s t, s ≤ t → reaches t → reaches s)
    (above : ∀ n, b.toNat = n + 1 → reaches (point n + point (n + 1)))
    (below : b.toNat < 255 → ¬ reaches (point b.toNat + point (b.toNat + 1))) : Owns reaches b := by
  constructor
  · intro c less
    have order := UInt8.lt_iff_toNat_lt.mp less
    obtain ⟨n, previous⟩ : ∃ n, b.toNat = n + 1 := ⟨b.toNat - 1, by omega⟩
    refine closed _ _ ?_ (above n previous)
    change point c.toNat + point b.toNat ≤ _
    rw [previous]
    exact Nat.add_le_add_right (strictMono_point.monotone (by omega)) _
  · intro c less reached
    have order := UInt8.lt_iff_toNat_lt.mp less
    have last := c.toNat_lt
    refine below (by omega) (closed _ _ ?_ reached)
    exact Nat.add_le_add_left (strictMono_point.monotone order) _

theorem Owns.mono (later : ∀ t, reaches t → reaches' t) (h : Owns reaches b)
    (h' : Owns reaches' b') : b ≤ b' := by
  by_contra less
  have order : b' < b := UInt8.not_le.mp less
  exact h'.below b order (later _ (h.above b' order))

theorem Owns.unique (h : Owns reaches b) (h' : Owns reaches b') : b = b' :=
  UInt8.le_antisymm (h.mono (fun _ => id) h') (h'.mono (fun _ => id) h)

theorem Owns.congr (same : ∀ t < 1 <<< 21, reaches t ↔ reaches' t) (h : Owns reaches b) :
    Owns reaches' b := by
  have sum (c c' : UInt8) : sixteenths c + sixteenths c' < 1 <<< 20 + 1 <<< 20 :=
    Nat.add_lt_add (sixteenths_lt c) (sixteenths_lt c')
  exact ⟨fun c less => (same _ (sum c b)).mp (h.above c less),
    fun c less reached => h.below c less ((same _ (sum b c)).mpr reached)⟩

theorem owns_self (b : UInt8) : Owns (· ≤ 2 * sixteenths b) b := by
  constructor
  · intro c less
    have := sixteenths_lt_sixteenths less
    omega
  · intro c less
    have := sixteenths_lt_sixteenths less
    omega

end Owns

end Olsr.CompactTime
