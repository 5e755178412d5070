import Olsr.Binary64

/-!
Where arithmetic on doubles rounds nothing. A magnitude is exact if a double has it; an operation
whose exact result is such a magnitude answers that result.
-/

namespace Olsr.Binary64

/-- The magnitudes, in units, of the finite doubles. -/
def Exact (n : Nat) : Prop := gap n ∣ n ∧ n < limit

theorem gap_pos (n : Nat) : 0 < gap n := by
  rw [gap, Nat.one_shiftLeft]
  exact Nat.two_pow_pos _

theorem log2_shiftLeft {k : Nat} (h : k ≠ 0) (j : Nat) : (k <<< j).log2 = k.log2 + j := by
  rw [Nat.shiftLeft_eq]
  induction j with
  | zero => rw [Nat.pow_zero, Nat.mul_one, Nat.add_zero]
  | succ j ih =>
    have nonzero : k * 2 ^ j ≠ 0 := Nat.mul_ne_zero h (Nat.ne_of_gt (Nat.two_pow_pos j))
    rw [Nat.pow_succ', Nat.mul_left_comm, Nat.log2_two_mul nonzero, ih, Nat.add_assoc]

theorem gap_shiftLeft {n : Nat} (normal : 52 ≤ n.log2) (j : Nat) :
    gap (n <<< j) = gap n <<< j := by
  have nonzero : n ≠ 0 := by
    rintro rfl
    exact absurd normal (by decide)
  have exponent : n.log2 + j - 52 = n.log2 - 52 + j := by omega
  rw [gap, log2_shiftLeft nonzero, gap, exponent, Nat.shiftLeft_add]

/-- Away from the least doubles a power of two only moves the exponent. -/
theorem gap_dvd_shiftLeft_iff {n : Nat} (normal : 52 ≤ n.log2) (j : Nat) :
    gap (n <<< j) ∣ n <<< j ↔ gap n ∣ n := by
  rw [gap_shiftLeft normal, Nat.shiftLeft_eq, Nat.shiftLeft_eq,
    Nat.mul_dvd_mul_iff_right (Nat.two_pow_pos j)]

theorem gap_dvd_shiftLeft {k : Nat} (bits : k < 1 <<< 53) (j : Nat) : gap (k <<< j) ∣ k <<< j := by
  by_cases h : k = 0
  · rw [h, Nat.zero_shiftLeft]
    exact Nat.dvd_zero _
  have width : k.log2 < 53 := (Nat.log2_lt h).mpr bits
  rw [gap, log2_shiftLeft h, Nat.one_shiftLeft, Nat.shiftLeft_eq]
  exact Nat.dvd_mul_left_of_dvd (Nat.pow_dvd_pow 2 (by omega)) k

theorem exact_shiftLeft {k j : Nat} (bits : k < 1 <<< 53) (scale : j ≤ 2045) : Exact (k <<< j) := by
  refine ⟨gap_dvd_shiftLeft bits j, ?_⟩
  have top : 53 + j ≤ 2098 := by omega
  rw [limit, Nat.one_shiftLeft, Nat.shiftLeft_eq]
  calc k * 2 ^ j < 2 ^ 53 * 2 ^ j := Nat.mul_lt_mul_of_pos_right bits (Nat.two_pow_pos j)
    _ = 2 ^ (53 + j) := (Nat.pow_add 2 53 j).symm
    _ ≤ 2 ^ 2098 := Nat.pow_le_pow_right (by decide) top

theorem Exact.of_shiftLeft {n j : Nat} (h : Exact (n <<< j)) (normal : 52 + j ≤ (n <<< j).log2) :
    Exact n := by
  have nonzero : n ≠ 0 := by
    rintro rfl
    rw [Nat.zero_shiftLeft, Nat.log2_zero] at normal
    omega
  have below : n ≤ n <<< j := by
    rw [Nat.shiftLeft_eq]
    exact Nat.le_mul_of_pos_right n (Nat.two_pow_pos j)
  rw [log2_shiftLeft nonzero] at normal
  exact ⟨(gap_dvd_shiftLeft_iff (by omega) j).mp h.1, Nat.lt_of_le_of_lt below h.2⟩

theorem nearestEven_mul {den : Nat} (q : Nat) (pos : 0 < den) : nearestEven (q * den) den = q := by
  have quotient : q * den / den = q := Nat.mul_div_cancel q pos
  have remainder : q * den % den = 0 := Nat.mul_mod_left q den
  unfold nearestEven
  simp only [quotient, remainder]
  rw [if_neg (by omega)]

theorem nearest_of_dvd {n den : Nat} (pos : 0 < den) (spaced : gap n ∣ n) :
    nearest (n * den) den = n := by
  obtain ⟨q, hq⟩ := spaced
  have step : n * den = q * (den * gap n) := by
    calc n * den = gap n * q * den := congrArg (· * den) hq
      _ = q * (den * gap n) := by rw [Nat.mul_comm (gap n), Nat.mul_assoc, Nat.mul_comm (gap n)]
  have whole : nearestEven (n * den) (den * gap n) = q := by
    rw [step, nearestEven_mul q (Nat.mul_pos pos (gap_pos n))]
  unfold nearest
  simp only [Nat.mul_div_cancel n pos, whole]
  rw [Nat.mul_comm]
  exact hq.symm

theorem round_of_exact {u : Int} {den : Nat} (pos : 0 < den) (h : Exact u.natAbs) :
    round (u * den) den = finite u := by
  have magnitude : nearest (u * den).natAbs den = u.natAbs := by
    rw [Int.natAbs_mul, Int.natAbs_natCast, nearest_of_dvd pos h.1]
  have sign : (u * den).sign = u.sign := by
    rw [Int.sign_mul, Int.sign_eq_one_of_pos (by omega : (0 : Int) < den), Int.mul_one]
  unfold round
  simp only [magnitude, sign]
  rw [if_neg (Nat.not_le.mpr h.2), Int.sign_mul_natAbs]

theorem add_of_exact {u v : Int} (h : Exact (u + v).natAbs) :
    (finite u).add (finite v) = finite (u + v) := by
  have := round_of_exact Nat.one_pos h
  rwa [Int.natCast_one, Int.mul_one] at this

theorem exact_mul_shiftLeft {k j : Nat} (bits : k < 1 <<< 53) (scale : j ≤ 2045) :
    Exact (k * 1 <<< j) := by
  rw [Nat.one_shiftLeft, ← Nat.shiftLeft_eq]
  exact exact_shiftLeft bits scale

theorem exact_mul_unit {k : Nat} (bits : k < 1 <<< 53) : Exact (k * unit) :=
  exact_mul_shiftLeft bits (by decide)

theorem ofNat_of_lt {k : Nat} (bits : k < 1 <<< 53) : ofNat k = finite (k * unit : Nat) := by
  have := round_of_exact (u := (k * unit : Nat)) Nat.one_pos (exact_mul_unit bits)
  rwa [Int.natCast_one, Int.mul_one, Int.natCast_mul] at this

theorem mul_of_exact {m n q : Nat} (product : q * unit = m * n) (h : Exact q) :
    (finite m).mul (finite n) = finite q := by
  have whole : (m : Int) * n = q * unit := by exact_mod_cast product.symm
  rw [mul, whole]
  exact round_of_exact (by decide) h

theorem div_of_exact {n den q : Nat} (pos : 0 < den) (product : q * den = n * unit)
    (h : Exact q) : (finite n).div (finite den) = finite q := by
  have sign : (den : Int).sign = 1 := Int.sign_eq_one_of_pos (by omega)
  have whole : (n : Int) * unit = q * den := by exact_mod_cast product.symm
  rw [div, if_neg (by omega), sign, Int.mul_one, whole, Int.natAbs_natCast]
  exact round_of_exact pos h

end Olsr.Binary64
