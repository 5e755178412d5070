import Olsr.Proofs.TimeCoding

/-!
Durations through the encoder. The seconds, the fraction and their sum are each rounded once. A
midpoint of the grid is a double, and so are its rest after the whole seconds and what lies 2^-30
seconds below it. Rounding crosses no double, and a duration that misses a midpoint misses it by a
nanosecond, which is more than 2^-30 seconds. So the double of a duration reaches the same
midpoints.
-/

namespace Olsr

open Binary64 (finite unit limit gap nearest Exact)

namespace Duration

open CompactTime (Reaches unit_pos)

def wholeUnits (d : Duration) : Nat := nearest (d.seconds.toNat * unit) 1

def fractionUnits (d : Duration) : Nat :=
  nearest (d.nanos * unit * unit) (1000000000 * unit)

def units (d : Duration) : Nat := nearest (d.wholeUnits + d.fractionUnits) 1

variable (d : Duration)

theorem wholeUnits_le : d.wholeUnits ≤ 2 ^ 64 * unit := by
  apply Binary64.nearest_le Nat.one_pos (Binary64.exact_two_pow_mul_unit (by decide)).1
  rw [Nat.mul_one]
  exact Nat.mul_le_mul_right unit d.seconds.toNat_lt.le

theorem billion_pos : 0 < 1000000000 * unit := Nat.mul_pos (by decide) unit_pos

theorem fractionUnits_le : d.fractionUnits ≤ unit := by
  have exact : Exact unit := Binary64.exact_shiftLeft (by decide) (by decide)
  apply Binary64.nearest_le billion_pos exact.1
  have nanos : (d.nanos : Nat) ≤ 1000000000 := d.nanos.isLt.le
  calc d.nanos * unit * unit ≤ 1000000000 * unit * unit :=
        Nat.mul_le_mul_right unit (Nat.mul_le_mul_right unit nanos)
    _ = unit * (1000000000 * unit) := by ring

theorem units_le : d.units ≤ 2 ^ 65 * unit := by
  have whole := d.wholeUnits_le
  have fraction := d.fractionUnits_le
  apply Binary64.nearest_le Nat.one_pos (Binary64.exact_two_pow_mul_unit (by decide)).1
  omega

theorem round_natCast_of_le {num den : Nat} (h : nearest num den ≤ 2 ^ 65 * unit) :
    Binary64.round num den = finite (nearest num den : Nat) := by
  have room : 2 ^ 65 * unit < limit := (Binary64.exact_two_pow_mul_unit (by decide)).2
  rw [Binary64.round_natCast, if_neg (by omega)]

theorem toBinary64_eq : d.toBinary64 = finite d.units := by
  have whole : Binary64.ofNat d.seconds.toNat = finite d.wholeUnits := by
    have bound := d.wholeUnits_le
    rw [Binary64.ofNat, ← Nat.cast_mul]
    exact round_natCast_of_le (bound.trans (Nat.mul_le_mul_right unit (by decide)))
  have fraction : (finite (d.nanos * unit : Nat)).div (finite (1000000000 * unit : Nat)) =
      finite d.fractionUnits := by
    have bound := d.fractionUnits_le
    have pos := billion_pos
    rw [Binary64.div, if_neg (by omega), Int.sign_eq_one_of_pos (by omega), Int.mul_one,
      Int.natAbs_natCast, ← Nat.cast_mul]
    exact round_natCast_of_le (bound.trans (Nat.le_mul_of_pos_left unit (by decide)))
  have nanos := d.nanos.isLt
  rw [toBinary64, whole, Binary64.ofNat_of_lt (by omega), Binary64.ofNat_of_lt (by decide),
    fraction, Binary64.add, ← Nat.cast_add]
  exact round_natCast_of_le d.units_le

theorem exact_units : Exact d.units := by
  have room : 2 ^ 65 * unit < limit := (Binary64.exact_two_pow_mul_unit (by decide)).2
  exact ⟨Binary64.gap_dvd_nearest _ _, d.units_le.trans_lt room⟩

/-- A thirty-second of a second in units. Every midpoint is a whole number of them. -/
def thirtySecond : Nat := 1 <<< 1069

/-- A little less than a nanosecond, in units. -/
def grain : Nat := 1 <<< 1044

theorem unit_eq_thirtySecond : unit = 32 * thirtySecond := by decide

theorem unit_eq_grain : unit = 2 ^ 30 * grain := by decide

theorem thirtySecond_eq : thirtySecond = 2 ^ 25 * grain := by decide

variable {d} {t : Nat}

theorem wholeUnits_of_lt (small : d.seconds.toNat < 1 <<< 53) :
    d.wholeUnits = d.seconds.toNat * unit := by
  have same := Binary64.nearest_of_dvd Nat.one_pos (Binary64.exact_mul_unit small).1
  rwa [Nat.mul_one] at same

theorem le_units_of_reached (below : t < 1 <<< 21) (h : t * 31250000 ≤ d.totalNanos) :
    t * thirtySecond ≤ d.units := by
  have limit : t < 2097152 := below
  have exact {k : Nat} (le : k ≤ t) : Exact (k * thirtySecond) :=
    Binary64.exact_mul_shiftLeft (Nat.lt_of_le_of_lt le (below.trans (by decide))) (by decide)
  rw [totalNanos] at h
  apply Binary64.le_nearest Nat.one_pos (exact le_rfl).1
  rw [Nat.mul_one]
  by_cases seconds : t ≤ d.seconds.toNat * 32
  · have reached : t * thirtySecond ≤ d.wholeUnits := by
      apply Binary64.le_nearest Nat.one_pos (exact le_rfl).1
      calc t * thirtySecond * 1 ≤ d.seconds.toNat * 32 * thirtySecond := by
            rw [Nat.mul_one]
            exact Nat.mul_le_mul_right _ seconds
        _ = d.seconds.toNat * unit := by rw [Nat.mul_assoc, unit_eq_thirtySecond]
    exact reached.trans (Nat.le_add_right _ _)
  · obtain ⟨rest, split⟩ : ∃ rest, t = d.seconds.toNat * 32 + rest :=
      ⟨t - d.seconds.toNat * 32, by omega⟩
    have total : t * 31250000 = d.seconds.toNat * 1000000000 + rest * 31250000 := by
      rw [split]
      ring
    have nanos : rest * 31250000 ≤ (d.nanos : Nat) := by
      rwa [total, Nat.add_le_add_iff_left] at h
    have reached : rest * thirtySecond ≤ d.fractionUnits := by
      have shorter : rest ≤ t := by omega
      apply Binary64.le_nearest billion_pos (exact shorter).1
      calc rest * thirtySecond * (1000000000 * unit)
          = rest * 31250000 * (32 * thirtySecond) * unit := by ring
        _ = rest * 31250000 * unit * unit := by rw [← unit_eq_thirtySecond]
        _ ≤ d.nanos * unit * unit :=
          Nat.mul_le_mul_right unit (Nat.mul_le_mul_right unit nanos)
    rw [wholeUnits_of_lt (by omega)]
    calc t * thirtySecond = d.seconds.toNat * (32 * thirtySecond) + rest * thirtySecond := by
          rw [split]
          ring
      _ = d.seconds.toNat * unit + rest * thirtySecond := by rw [← unit_eq_thirtySecond]
      _ ≤ d.seconds.toNat * unit + d.fractionUnits := Nat.add_le_add_left reached _

theorem units_le_of_missed (below : t < 1 <<< 21) (h : d.totalNanos < t * 31250000) :
    d.units ≤ (t * 2 ^ 25 - 1) * grain := by
  have limit : t < 2097152 := below
  have exact {k : Nat} (small : k < 1 <<< 53) : Exact (k * grain) :=
    Binary64.exact_mul_shiftLeft small (by decide)
  rw [totalNanos] at h
  obtain ⟨rest, split⟩ : ∃ rest, t * 2 ^ 25 - 1 = d.seconds.toNat * 2 ^ 30 + rest :=
    ⟨t * 2 ^ 25 - 1 - d.seconds.toNat * 2 ^ 30, by omega⟩
  -- A nanosecond is 10^-9 s and the grain 2^-30 s, and 2^30 is more than 10^9.
  have nanos : d.nanos * 2 ^ 30 ≤ rest * 1000000000 := by omega
  have short : rest < 1 <<< 53 := by omega
  have fraction : d.fractionUnits ≤ rest * grain := by
    apply Binary64.nearest_le billion_pos (exact short).1
    calc d.nanos * unit * unit = d.nanos * (2 ^ 30 * grain) * unit := by rw [← unit_eq_grain]
      _ = d.nanos * 2 ^ 30 * (grain * unit) := by ring
      _ ≤ rest * 1000000000 * (grain * unit) := Nat.mul_le_mul_right _ nanos
      _ = rest * grain * (1000000000 * unit) := by ring
  have whole : d.wholeUnits = d.seconds.toNat * 2 ^ 30 * grain := by
    rw [wholeUnits_of_lt (by omega), Nat.mul_assoc, ← unit_eq_grain]
  have long : t * 2 ^ 25 - 1 < 1 <<< 53 := by omega
  apply Binary64.nearest_le Nat.one_pos (exact long).1
  rw [split, whole, Nat.mul_one, Nat.add_mul]
  exact Nat.add_le_add_left fraction _

/-- The double of a duration reaches the midpoints that the duration itself reaches. -/
theorem reaches_iff (below : t < 1 <<< 21) :
    Reaches d.units t ↔ t * 31250000 ≤ d.totalNanos := by
  have scaled : t * unit = 32 * (t * thirtySecond) := by
    rw [unit_eq_thirtySecond]
    ring
  rw [CompactTime.reaches_natCast, scaled, Nat.mul_le_mul_left_iff (by decide)]
  constructor
  · intro reached
    by_contra missed
    have positive : t ≠ 0 := by
      rintro rfl
      omega
    have bound := units_le_of_missed below (Nat.not_le.mp missed)
    have less : (t * 2 ^ 25 - 1) * grain < t * 2 ^ 25 * grain :=
      Nat.mul_lt_mul_of_pos_right (by omega) (by decide)
    rw [thirtySecond_eq, ← Nat.mul_assoc] at reached
    exact absurd (reached.trans bound) (Nat.not_le.mpr less)
  · exact le_units_of_reached below

end Duration

namespace CompactTime

theorem encodeDuration_owns (d : Duration) :
    Owns (fun t => t * 31250000 ≤ d.totalNanos) (encodeDuration d) := by
  have exact : Exact (d.units : Int).natAbs := by
    rw [Int.natAbs_natCast]
    exact d.exact_units
  rw [encodeDuration, d.toBinary64_eq]
  exact (encode_owns exact).congr fun t below => Duration.reaches_iff below

theorem totalNanos_decodeDuration (b : UInt8) :
    (decodeDuration b).totalNanos = sixteenths b * 62500000 := by
  have small : sixteenths b < 1048576 := sixteenths_lt b
  rw [decodeDuration_eq]
  apply Duration.totalNanos_ofNanos
  simp only [UInt64.size]
  omega

theorem encodeDuration_decodeDuration (b : UInt8) : encodeDuration (decodeDuration b) = b := by
  refine (encodeDuration_owns _).unique ((owns_self b).congr fun t _ => ?_)
  rw [totalNanos_decodeDuration]
  omega

end CompactTime
end Olsr
