import Mathlib.Data.Int.Cast.Basic
import Mathlib.Data.Nat.Log
import Mathlib.Tactic.Ring
import Mathlib.Tactic.SplitIfs
import Olsr.Binary64.Exact

/-!
Rounding and the order. No rounding crosses a double: what lies on one side of a double before is on
that side or on the double itself afterwards. What comes out is a double, as is the value of every
bit pattern.
-/

namespace Olsr.Binary64

theorem gap_eq (n : Nat) : gap n = 2 ^ (n.log2 - 52) := Nat.one_shiftLeft _

theorem gap_dvd_gap {m n : Nat} (h : m ≤ n) : gap m ∣ gap n := by
  rw [gap_eq, gap_eq, Nat.log2_eq_log_two, Nat.log2_eq_log_two]
  exact Nat.pow_dvd_pow 2 (Nat.sub_le_sub_right (Nat.log_mono_right h) 52)

/-- Above a double and up to `v` there is a multiple of the gap at `v`. -/
theorem exists_multiple {t v : Nat} (spaced : gap t ∣ t) (h : t ≤ v) :
    ∃ q, t ≤ q * gap v ∧ q * gap v ≤ v := by
  by_cases zero : v = 0
  · exact ⟨0, by omega, by omega⟩
  by_cases same : t.log2 = v.log2
  · obtain ⟨q, hq⟩ := spaced
    rw [gap, same, ← gap, Nat.mul_comm] at hq
    exact ⟨q, hq.le, hq ▸ h⟩
  · -- The power of two at `v` lies between them.
    have power : 2 ^ v.log2 = 2 ^ (v.log2 - (v.log2 - 52)) * gap v := by
      rw [gap_eq, ← Nat.pow_add]
      congr 1
      omega
    refine ⟨2 ^ (v.log2 - (v.log2 - 52)), ?_, ?_⟩
    · rw [← power]
      by_cases none : t = 0
      · omega
      have width : t.log2 ≤ v.log2 := by
        rw [Nat.log2_eq_log_two, Nat.log2_eq_log_two]
        exact Nat.log_mono_right h
      exact ((Nat.log2_lt none).mp (by omega)).le
    · rw [← power]
      exact Nat.log2_self_le zero

theorem exact_two_pow_mul_unit {j : Nat} (small : j ≤ 971) : Exact (2 ^ j * unit) := by
  have shift : 2 ^ j * unit = 1 <<< (j + 1074) := by
    rw [unit, Nat.one_shiftLeft, Nat.one_shiftLeft, Nat.pow_add]
  rw [shift]
  exact exact_shiftLeft (by decide) (by omega)

variable {t num den : Nat}

theorem div_le_nearestEven (num den : Nat) : num / den ≤ nearestEven num den := by
  unfold nearestEven
  dsimp only
  split_ifs
  · exact Nat.le_succ _
  · exact le_rfl

theorem nearestEven_le_succ (num den : Nat) : nearestEven num den ≤ num / den + 1 := by
  unfold nearestEven
  dsimp only
  split_ifs
  · exact le_rfl
  · exact Nat.le_succ _

theorem nearestEven_le {k num den : Nat} (pos : 0 < den) (h : num ≤ k * den) :
    nearestEven num den ≤ k := by
  have quotient : num / den ≤ k := Nat.div_le_of_le_mul (Nat.mul_comm k den ▸ h)
  have split := Nat.div_add_mod num den
  unfold nearestEven
  dsimp only
  split_ifs with up
  · refine Nat.succ_le_of_lt (Nat.lt_of_le_of_ne quotient fun last => ?_)
    -- With the last quotient nothing remains, so nothing is rounded up.
    rw [last, Nat.mul_comm] at split
    generalize num % den = rest at *
    omega
  · exact quotient

theorem le_nearest (pos : 0 < den) (spaced : gap t ∣ t) (h : t * den ≤ num) :
    t ≤ nearest num den := by
  obtain ⟨q, above, below⟩ := exists_multiple spaced ((Nat.le_div_iff_mul_le pos).mpr h)
  have step : 0 < den * gap (num / den) := Nat.mul_pos pos (gap_pos _)
  have quotient : q ≤ num / (den * gap (num / den)) := by
    rw [Nat.le_div_iff_mul_le step, Nat.mul_comm den, ← Nat.mul_assoc]
    exact (Nat.le_div_iff_mul_le pos).mp below
  calc t ≤ q * gap (num / den) := above
    _ ≤ nearest num den :=
      Nat.mul_le_mul_right _ (quotient.trans (div_le_nearestEven num (den * gap (num / den))))

theorem nearest_le (pos : 0 < den) (spaced : gap t ∣ t) (h : num ≤ t * den) :
    nearest num den ≤ t := by
  have bound : num / den ≤ t := Nat.div_le_of_le_mul (Nat.mul_comm t den ▸ h)
  obtain ⟨k, hk⟩ := (gap_dvd_gap bound).trans spaced
  have step : 0 < den * gap (num / den) := Nat.mul_pos pos (gap_pos _)
  have top : num ≤ k * (den * gap (num / den)) := by
    calc num ≤ t * den := h
      _ = k * (den * gap (num / den)) := by
        conv_lhs => rw [hk]
        ring
  calc nearest num den ≤ k * gap (num / den) := Nat.mul_le_mul_right _ (nearestEven_le step top)
    _ = t := by
      conv_rhs => rw [hk, Nat.mul_comm]

/-- The carry out of the significand leaves a power of two, which is a double again. -/
theorem gap_dvd_mul_gap {q v : Nat} (bits : q ≤ 1 <<< 53) : gap (q * gap v) ∣ q * gap v := by
  rw [gap_eq v, ← Nat.shiftLeft_eq]
  rcases Nat.lt_or_eq_of_le bits with below | carry
  · exact gap_dvd_shiftLeft below _
  · rw [carry, ← Nat.shiftLeft_add]
    exact gap_dvd_shiftLeft (by decide) _

theorem quotient_lt (num den : Nat) : num / (den * gap (num / den)) < 1 <<< 53 := by
  rw [← Nat.div_div_eq_div_mul, gap_eq]
  generalize num / den = v
  have width : v < 2 ^ (v.log2 + 1) := Nat.lt_log2_self
  rw [Nat.div_lt_iff_lt_mul (Nat.two_pow_pos _), Nat.one_shiftLeft, ← Nat.pow_add]
  exact width.trans_le (Nat.pow_le_pow_right (by decide) (by omega))

theorem gap_dvd_nearest (num den : Nat) : gap (nearest num den) ∣ nearest num den := by
  have := quotient_lt num den
  have := nearestEven_le_succ num (den * gap (num / den))
  exact gap_dvd_mul_gap (by omega)

theorem nearest_zero (den : Nat) : nearest 0 den = 0 := by
  simp [nearest, nearestEven]

theorem round_natCast (n den : Nat) :
    round n den =
      if limit ≤ nearest n den then .infinite false else .finite (nearest n den : Nat) := by
  have sign : (n : Int).sign * (nearest n den : Nat) = (nearest n den : Nat) := by
    rcases Nat.eq_zero_or_pos n with rfl | pos
    · rw [nearest_zero, Nat.cast_zero, Int.mul_zero]
    · rw [Int.sign_eq_one_of_pos (by omega), Int.one_mul]
  have positive : decide ((n : Int) < 0) = false := decide_eq_false (by omega)
  unfold round
  simp only [Int.natAbs_natCast, sign, positive]

theorem exact_of_ofBits {bits : UInt64} {u : Int} (h : ofBits bits = .finite u) :
    Exact u.natAbs := by
  have fraction : bits.toNat % 1 <<< 52 < 1 <<< 52 := Nat.mod_lt _ (by decide)
  have exponent : (bits.toNat >>> 52) % 2048 < 2048 := Nat.mod_lt _ (by decide)
  have carried : 1 <<< 52 + bits.toNat % 1 <<< 52 < 1 <<< 53 := Nat.add_lt_add_left fraction _
  have magnitude : ∃ k j, k < 1 <<< 53 ∧ j ≤ 2045 ∧ u.natAbs = k <<< j := by
    unfold ofBits at h
    dsimp only at h
    split_ifs at h
    all_goals rw [← finite.inj h]
    · exact ⟨_, 0, fraction.trans (by decide), by omega, Int.natAbs_neg _⟩
    · exact ⟨_, _, carried, by omega, Int.natAbs_neg _⟩
    · exact ⟨_, 0, fraction.trans (by decide), by omega, rfl⟩
    · exact ⟨_, _, carried, by omega, rfl⟩
  obtain ⟨k, j, bits, scale, same⟩ := magnitude
  rw [same]
  exact exact_shiftLeft bits scale

end Olsr.Binary64
