import Mathlib.Algebra.Order.Ring.Rat
import Mathlib.Tactic.FieldSimp
import Mathlib.Tactic.Linarith
import Olsr.Proofs.Lossless

/-!
The encoders of compact times against the exact numbers that they are given. Each picks the point of
the grid nearest to its argument, and half way the larger one. For a duration this is so although
three operations on doubles round before the search.
-/

namespace Olsr

/-- The point is nearest to the number, and the larger one of two such points. -/
structure IsNearest (points : Set ℚ) (x y : ℚ) : Prop where
  mem : y ∈ points
  least : ∀ z ∈ points, |x - y| ≤ |x - z|
  ties : ∀ z ∈ points, |x - z| = |x - y| → z ≤ y

theorem isNearest_of_midpoints {points : Set ℚ} {x y : ℚ} (mem : y ∈ points)
    (above : ∀ z ∈ points, z < y → z + y ≤ 2 * x)
    (below : ∀ z ∈ points, y < z → 2 * x < y + z) : IsNearest points x y := by
  have closer (z : ℚ) (point : z ∈ points) (more : y < z) : |x - y| < |x - z| := by
    have := below z point more
    have less : |x - y| < z - x := abs_lt.mpr ⟨by linarith, by linarith⟩
    rw [abs_sub_comm x z]
    exact less.trans_le (le_abs_self (z - x))
  constructor
  · exact mem
  · intro z point
    rcases lt_trichotomy z y with less | rfl | more
    · have := above z point less
      have least : |x - y| ≤ x - z := abs_le.mpr ⟨by linarith, by linarith⟩
      exact least.trans (le_abs_self (x - z))
    · exact le_rfl
    · exact (closer z point more).le
  · intro z point tie
    by_contra more
    exact absurd tie (closer z point (not_le.mp more)).ne'

namespace Binary64

def number? : Binary64 → Option ℚ
  | finite u => some (u / unit)
  | _ => none

end Binary64

namespace CompactTime

open Binary64 (finite infinite unit Exact ofBits)

def grid (step : ℚ) : Set ℚ :=
  {x | ∃ e m : ℕ, e ≤ 15 ∧ m ≤ 15 ∧ x = 2 ^ e * (16 + m) * step}

theorem mem_grid_iff {step x : ℚ} : x ∈ grid step ↔ ∃ b, x = sixteenths b * step := by
  constructor
  · rintro ⟨e, m, exponent, mantissa, value⟩
    refine ⟨UInt8.ofNat (16 * e + m), ?_⟩
    rw [sixteenths_octet exponent mantissa, value]
    push_cast
    rfl
  · rintro ⟨b, value⟩
    obtain ⟨e, m, exponent, mantissa, rfl⟩ := octet_parts b
    refine ⟨e, m, exponent, mantissa, ?_⟩
    rw [value, sixteenths_octet exponent mantissa]
    push_cast
    rfl

section Owns

variable {reaches : ℕ → Prop} {b c : UInt8} {step x : ℚ}

theorem lt_of_point_lt (positive : 0 < step)
    (less : (sixteenths c : ℚ) * step < sixteenths b * step) : c < b := by
  have points : sixteenths c < sixteenths b := by
    exact_mod_cast lt_of_mul_lt_mul_right less positive.le
  by_contra order
  rcases UInt8.lt_or_eq_of_le (UInt8.not_lt.mp order) with more | rfl
  · exact absurd points (sixteenths_lt_sixteenths more).not_gt
  · exact absurd points (Nat.lt_irrefl _)

theorem Owns.isNearest (positive : 0 < step) (same : ∀ t, reaches t ↔ t * step ≤ 2 * x)
    (h : Owns reaches b) : IsNearest (grid step) x (sixteenths b * step) := by
  apply isNearest_of_midpoints (mem_grid_iff.mpr ⟨b, rfl⟩)
  · intro z point less
    obtain ⟨c, rfl⟩ := mem_grid_iff.mp point
    have reached := (same _).mp (h.above c (lt_of_point_lt positive less))
    rw [Nat.cast_add] at reached
    linarith
  · intro z point more
    obtain ⟨c, rfl⟩ := mem_grid_iff.mp point
    have missed := mt (same _).mpr (h.below c (lt_of_point_lt positive more))
    rw [Nat.cast_add] at missed
    linarith

end Owns

theorem reaches_iff_number {u : ℤ} {t : ℕ} :
    Reaches u t ↔ (t : ℚ) * (1 / 16) ≤ 2 * (u / unit) := by
  have positive : (0 : ℚ) < unit := by exact_mod_cast unit_pos
  have times : (t : ℚ) * unit ≤ 32 * u ↔ (t : ℚ) ≤ 32 * (u / unit) := by
    rw [← mul_div_assoc, le_div_iff₀ positive]
  have halves : (t : ℚ) * (1 / 16) ≤ 2 * (u / unit) ↔ (t : ℚ) ≤ 32 * (u / unit) := by
    constructor
    · intro le
      linarith
    · intro le
      linarith
  rw [halves, ← times, Reaches]
  exact_mod_cast Iff.rfl

theorem number_decode (b : UInt8) : (decode b).number? = some ((sixteenths b : ℚ) * (1 / 16)) := by
  have nonzero : (sixteenth : ℚ) ≠ 0 := by exact_mod_cast sixteenth_pos.ne'
  have value : ((sixteenths b * sixteenth : ℕ) : ℚ) / (16 * sixteenth : ℕ) =
      sixteenths b * (1 / 16) := by
    rw [Nat.cast_mul, Nat.cast_mul, mul_div_mul_right _ _ nonzero, Nat.cast_ofNat, mul_one_div]
  rw [decode_eq, Binary64.number?, unit_eq, Int.cast_natCast, value]

theorem isNearest_encode {bits : UInt64} {q : ℚ} (number : (ofBits bits).number? = some q) :
    IsNearest (grid (1 / 16)) q (sixteenths (encode (ofBits bits)) * (1 / 16)) := by
  cases value : ofBits bits with
  | nan | infinite =>
    rw [value] at number
    exact absurd number nofun
  | finite u =>
    rw [value] at number
    rw [← Option.some.inj number]
    exact (encode_owns (Binary64.exact_of_ofBits value)).isNearest (by norm_num)
      fun _ => reaches_iff_number

/-- The encoder on all doubles: the nearest point for the finite ones, the ends of the grid for the
others, a clamp without effect, and the order kept. -/
theorem encode_rounds_to_nearest :
    (∀ bits q, (ofBits bits).number? = some q →
      ∃ r, (decode (encode (ofBits bits))).number? = some r ∧ IsNearest (grid (1 / 16)) q r) ∧
    (encode .nan = 0x00 ∧ encode (infinite true) = 0x00 ∧ encode (infinite false) = 0xFF) ∧
    (∀ bits e, ((ofBits bits).isNan || (ofBits bits).lt minSeconds) = false →
      (List.range 16).find? (fits ((ofBits bits).div scale)) = some e →
        (mantissaAt ((ofBits bits).div scale) e).max (finite 0) =
          mantissaAt ((ofBits bits).div scale) e) ∧
    ∀ bits bits', (ofBits bits).le (ofBits bits') = true →
      encode (ofBits bits) ≤ encode (ofBits bits') := by
  refine ⟨?_, ⟨rfl, ?_, ?_⟩, ?_, ?_⟩
  · intro bits q number
    exact ⟨_, number_decode _, isNearest_encode number⟩
  · exact encode_infinite true
  · exact encode_infinite false
  · intro bits e large first
    exact max_mantissaAt large first
  · intro bits bits' le
    exact encode_le_encode (fun _ => Binary64.exact_of_ofBits)
      (fun _ => Binary64.exact_of_ofBits) le

theorem half_way_carries :
    (ofBits 0x3FFF800000000000).number? = some (63 / 32) ∧
      encode (ofBits 0x3FFF800000000000) = 0x10 ∧ IsNearest (grid (1 / 16)) (63 / 32) 2 := by
  have number : (ofBits 0x3FFF800000000000).number? = some (63 / 32) := by decide +kernel
  have octet : encode (ofBits 0x3FFF800000000000) = 0x10 := by decide +kernel
  obtain ⟨r, value, nearest⟩ := encode_rounds_to_nearest.1 _ _ number
  have two : (decode 0x10).number? = some 2 := by decide +kernel
  rw [octet, two] at value
  cases value
  exact ⟨number, octet, nearest⟩

-- The least double below is another octet.
example : encode (ofBits 0x3FFF7FFFFFFFFFFF) = 0x0F := by decide +kernel

section Duration

variable {d : Duration}

theorem mem_grid_iff_onGrid : (d.totalNanos : ℚ) ∈ grid 62500000 ↔ d.OnGrid := by
  constructor
  · rintro ⟨e, m, exponent, mantissa, value⟩
    exact ⟨e, m, exponent, mantissa, by exact_mod_cast value⟩
  · rintro ⟨e, m, exponent, mantissa, value⟩
    exact ⟨e, m, exponent, mantissa, by exact_mod_cast value⟩

theorem isNearest_encodeDuration (d : Duration) :
    IsNearest (grid 62500000) d.totalNanos (sixteenths (encodeDuration d) * 62500000) := by
  refine (encodeDuration_owns d).isNearest (by norm_num) fun t => ?_
  have halves : (t : ℚ) * 62500000 ≤ 2 * d.totalNanos ↔ (t : ℚ) * 31250000 ≤ d.totalNanos := by
    constructor
    · intro le
      linarith
    · intro le
      linarith
  rw [halves]
  exact_mod_cast Iff.rfl

end Duration

/-- Durations are rounded as if no double stood between. -/
theorem encodeDuration_rounds_to_nearest :
    (∀ d : Duration, ∃ e m : ℕ, e ≤ 15 ∧ m ≤ 15 ∧
      encodeDuration d = UInt8.ofNat (e <<< 4 ||| m) ∧
      IsNearest (grid 62500000) d.totalNanos (2 ^ e * (16 + m) * 62500000)) ∧
    (∀ d d' : Duration, d.totalNanos ≤ d'.totalNanos → encodeDuration d ≤ encodeDuration d') ∧
    ∀ d : Duration, decodeDuration (encodeDuration d) = d ↔
      (d.totalNanos : ℚ) ∈ grid 62500000 := by
  refine ⟨?_, ?_, ?_⟩
  · intro d
    obtain ⟨e, m, exponent, mantissa, octet⟩ := octet_parts (encodeDuration d)
    have joined : e <<< 4 ||| m = 16 * e + m := by
      rw [← Nat.shiftLeft_add_eq_or_of_lt (by omega), Nat.shiftLeft_eq, Nat.mul_comm]
    have nearest := isNearest_encodeDuration d
    rw [octet, sixteenths_octet exponent mantissa] at nearest
    push_cast at nearest
    exact ⟨e, m, exponent, mantissa, joined ▸ octet, nearest⟩
  · intro d d' le
    exact (encodeDuration_owns d).mono (fun _ reached => reached.trans le) (encodeDuration_owns d')
  · intro d
    rw [mem_grid_iff_onGrid]
    exact Duration.quantized_eq_self_iff

-- The last midpoint, and a nanosecond less.
example : encodeDuration ⟨62464, 0⟩ = 0xFF := by decide +kernel
example : encodeDuration ⟨62463, 999999999⟩ = 0xFE := by decide +kernel

end CompactTime
end Olsr
