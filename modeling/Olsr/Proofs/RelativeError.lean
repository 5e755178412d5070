import Mathlib.Data.Nat.Order.Lemmas
import Mathlib.Order.Bounds.Basic
import Olsr.Proofs.NearestTime

/-!
The relative error of compact times. Neighbouring points of the grid are at most a sixteenth of the
lower one apart, and the nearest of them is at most half of that away from a number between them.
Beyond the ends of the grid its end points are nearest, and the error stays within a thirty-second
down to 32/33 s and up to 65536 s, but no further.
-/

namespace Olsr

section Ends

variable {points : Set ℚ} {x y z : ℚ}

theorem IsNearest.eq_of_isLeast (h : IsNearest points x y) (first : IsLeast points z)
    (below : x ≤ z) : y = z := by
  have order : z ≤ y := first.2 h.mem
  have distance := h.least z first.1
  rw [abs_sub_comm x y, abs_sub_comm x z, abs_of_nonneg (by linarith),
    abs_of_nonneg (by linarith)] at distance
  linarith

theorem IsNearest.eq_of_isGreatest (h : IsNearest points x y) (last : IsGreatest points z)
    (above : z ≤ x) : y = z := by
  have order : y ≤ z := last.2 h.mem
  have distance := h.least z last.1
  rw [abs_of_nonneg (by linarith), abs_of_nonneg (by linarith)] at distance
  linarith

theorem IsNearest.two_mul_abs_sub_le {a b : ℚ} (h : IsNearest points x y) (lower : a ∈ points)
    (upper : b ∈ points) (above : a ≤ x) (below : x ≤ b) : 2 * |x - y| ≤ b - a := by
  have fromLower : |x - y| ≤ x - a := (h.least a lower).trans_eq (abs_of_nonneg (by linarith))
  have fromUpper : |x - y| ≤ b - x := by
    rw [← abs_of_nonneg (sub_nonneg.mpr below), abs_sub_comm b x]
    exact h.least b upper
  linarith

end Ends

namespace CompactTime

open Binary64 (ofBits)

theorem two_pow_le_point (n : ℕ) : 16 * 2 ^ (n / 16) ≤ point n := by
  rw [point, Nat.shiftLeft_eq]
  exact Nat.mul_le_mul_right _ (Nat.le_add_right 16 (n % 16))

section Grid

variable {n : ℕ} {step x y : ℚ}

theorem point_mem_grid (h : n ≤ 255) : point n * step ∈ grid step := by
  have octet : (UInt8.ofNat n).toNat = n := UInt8.toNat_ofNat_of_lt' (Nat.lt_succ_of_le h)
  refine mem_grid_iff.mpr ⟨UInt8.ofNat n, ?_⟩
  rw [sixteenths, octet, point]

theorem point_first : (point 0 : ℚ) = 16 := by
  exact_mod_cast (by decide : point 0 = 16)

theorem point_last : (point 255 : ℚ) = 1015808 := by
  exact_mod_cast (by decide : point 255 = 1015808)

theorem isLeast_grid : IsLeast (grid (1 / 16)) 1 := by
  refine ⟨⟨0, 0, by decide, by decide, by norm_num⟩, fun z member => ?_⟩
  obtain ⟨b, rfl⟩ := mem_grid_iff.mp member
  have first : (point 0 : ℚ) ≤ sixteenths b := by exact_mod_cast le_sixteenths b
  rw [point_first] at first
  linarith

theorem isGreatest_grid : IsGreatest (grid (1 / 16)) 63488 := by
  refine ⟨⟨15, 15, by decide, by decide, by norm_num⟩, fun z member => ?_⟩
  obtain ⟨b, rfl⟩ := mem_grid_iff.mp member
  have last : (sixteenths b : ℚ) ≤ point 255 := by exact_mod_cast sixteenths_le b
  rw [point_last] at last
  linarith

theorem exists_neighbours (low : 1 ≤ x) (high : x < 63488) :
    ∃ n < 255, (point n : ℚ) * (1 / 16) ≤ x ∧ x < point (n + 1) * (1 / 16) := by
  have first : ¬ x < point 0 * (1 / 16) := by
    rw [point_first]
    linarith
  have last : x < point 255 * (1 / 16) := by
    rw [point_last]
    linarith
  -- The number reaches the least point and not the last, so it stops short of some next one.
  obtain ⟨n, reached, missed⟩ := Nat.exists_not_and_succ_of_not_zero_of_exists
    (p := fun k => x < point k * (1 / 16)) first ⟨255, last⟩
  refine ⟨n, ?_, not_lt.mp reached, missed⟩
  by_contra beyond
  have top : (point 255 : ℚ) ≤ point n := by
    exact_mod_cast strictMono_point.monotone (not_lt.mp beyond)
  exact reached (by linarith)

theorem abs_sub_le_of_isNearest (h : IsNearest (grid (1 / 16)) x y) (low : 1 ≤ x)
    (high : x < 63488) : |x - y| ≤ x / 32 := by
  obtain ⟨n, inside, above, below⟩ := exists_neighbours low high
  have half := h.two_mul_abs_sub_le (point_mem_grid inside.le) (point_mem_grid inside) above below.le
  have next : (point (n + 1) : ℚ) = point n + 2 ^ (n / 16) := by exact_mod_cast point_succ n
  have wide : 16 * (2 : ℚ) ^ (n / 16) ≤ point n := by exact_mod_cast two_pow_le_point n
  rw [next] at half
  linarith

/-- The whole law: the bound holds between 32/33 s and 65536 s and nowhere else. -/
theorem relative_error_iff (h : IsNearest (grid (1 / 16)) x y) :
    |x - y| ≤ x / 32 ↔ 32 / 33 ≤ x ∧ x ≤ 65536 := by
  rcases lt_or_ge x 1 with small | low
  · obtain rfl := h.eq_of_isLeast isLeast_grid small.le
    rw [abs_sub_comm, abs_of_nonneg (by linarith)]
    constructor
    · intro bound
      exact ⟨by linarith, by linarith⟩
    · rintro ⟨enough, -⟩
      linarith
  rcases lt_or_ge x 63488 with high | large
  · have bound := abs_sub_le_of_isNearest h low high
    exact ⟨fun _ => ⟨by linarith, by linarith⟩, fun _ => bound⟩
  · obtain rfl := h.eq_of_isGreatest isGreatest_grid large
    rw [abs_of_nonneg (by linarith)]
    constructor
    · intro bound
      exact ⟨by linarith, by linarith⟩
    · rintro ⟨-, enough⟩
      linarith

end Grid

/-- What an encoded double loses, against the exact number that the double stands for. -/
theorem encode_error_within_iff {bits : UInt64} {q : ℚ} (number : (ofBits bits).number? = some q) :
    ∃ r, (decode (encode (ofBits bits))).number? = some r ∧
      (|r - q| ≤ q / 32 ↔ 32 / 33 ≤ q ∧ q ≤ 65536) := by
  refine ⟨_, number_decode _, ?_⟩
  rw [abs_sub_comm]
  exact relative_error_iff (isNearest_encode number)

theorem bound_met_at_end :
    (ofBits 0x40F0000000000000).number? = some 65536 ∧
      (decode (encode (ofBits 0x40F0000000000000))).number? = some 63488 ∧
      |(63488 : ℚ) - 65536| ≤ 65536 / 32 := by
  have number : (ofBits 0x40F0000000000000).number? = some 65536 := by decide +kernel
  have decoded : (decode (encode (ofBits 0x40F0000000000000))).number? = some 63488 := by
    decide +kernel
  obtain ⟨r, value, bound⟩ := encode_error_within_iff number
  obtain rfl : 63488 = r := Option.some.inj (decoded.symm.trans value)
  exact ⟨number, decoded, bound.mpr ⟨by norm_num, le_rfl⟩⟩

end CompactTime
end Olsr
