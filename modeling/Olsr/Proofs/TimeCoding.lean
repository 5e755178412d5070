import Olsr.Proofs.Rounding
import Olsr.Proofs.TimeGrid

/-!
The encoder gives every double the octet it belongs to. From one second up the scalings by powers of
two are exact or overflow, so a quotient is rounded once, to a whole number. The first exponent with
a mantissa that fits has one of at least zero: the exponent before it was refused because the time
reaches the last midpoint there, where the next exponent begins.
-/

namespace Olsr.CompactTime

open Binary64 (finite infinite unit limit gap ofNat ofBits Exact)

/-- A time of `u` units lasts for at least `t` thirty-seconds of a second. -/
def Reaches (u : Int) (t : Nat) : Prop := t * unit ≤ 32 * u

section Reaches

variable {u v : Int} {s t x : Nat}

theorem reaches_natCast : Reaches x t ↔ t * unit ≤ 32 * x := by
  unfold Reaches
  exact_mod_cast Iff.rfl

theorem Reaches.of_le (h : Reaches u t) (le : s ≤ t) : Reaches u s := by
  have : (s : Int) * unit ≤ t * unit :=
    Int.mul_le_mul_of_nonneg_right (Int.ofNat_le.mpr le) (Int.natCast_nonneg unit)
  exact this.trans h

theorem Reaches.mono (h : Reaches u t) (le : u ≤ v) : Reaches v t := by
  unfold Reaches at *
  omega

end Reaches

theorem sixteenth_pos : 0 < sixteenth := by decide

theorem unit_pos : 0 < unit := by decide

theorem one_shiftLeft_pos (j : Nat) : 0 < 1 <<< j := by
  rw [Nat.one_shiftLeft]
  exact Nat.two_pow_pos j

theorem whole_natCast (n : Nat) : (finite n).whole = finite (roundedAt n 1074 * unit : Nat) := by
  have rounded : (2 * n + unit) / (2 * unit) = roundedAt n 1074 := rfl
  have sign : (n : Int).sign * (roundedAt n 1074 * unit : Nat) =
      (roundedAt n 1074 * unit : Nat) := by
    rcases Nat.eq_zero_or_pos n with rfl | pos
    · decide
    · rw [Int.sign_eq_one_of_pos (by omega), Int.one_mul]
  rw [Binary64.whole, Int.natAbs_natCast, rounded, sign]

theorem rest_of_le {m : Nat} (h : m ≤ 15) :
    (finite ((16 + m) * unit : Nat)).sub (ofNat 16) = finite (m * unit : Nat) := by
  have difference : (((16 + m) * unit : Nat) : Int) + -((16 * unit : Nat) : Int) =
      (m * unit : Nat) := by
    push_cast
    ring
  rw [Binary64.ofNat_of_lt (by decide), Binary64.sub, Binary64.neg, Binary64.add_of_exact,
    difference]
  rw [difference, Int.natAbs_natCast]
  exact Binary64.exact_mul_unit (by omega)

/-- Thirty-two and more do not fit, also when the difference from sixteen is rounded. -/
theorem rest_le (n : Nat) :
    ((finite (n * unit : Nat)).sub (ofNat 16)).le (ofNat 15) = decide (n ≤ 31) := by
  have unit_pos := unit_pos
  have difference : ((n * unit : Nat) : Int) + -((16 * unit : Nat) : Int) =
      ((n : Int) - 16) * unit := by
    push_cast
    ring
  rw [Binary64.ofNat_of_lt (by decide), Binary64.ofNat_of_lt (by decide), Binary64.sub,
    Binary64.neg]
  by_cases fits : n ≤ 31
  · have le : ((n : Int) - 16) * unit ≤ (15 * unit : Nat) := by
      rw [Nat.cast_mul, Int.mul_le_mul_iff_of_pos_right (by omega)]
      omega
    rw [Binary64.add_of_exact, difference, Binary64.le, decide_eq_true le, decide_eq_true fits]
    rw [difference, Int.natAbs_mul, Int.natAbs_natCast]
    exact Binary64.exact_mul_unit (by omega)
  · obtain ⟨k, rfl⟩ : ∃ k, n = 32 + k := ⟨n - 32, by omega⟩
    have rest : (((32 + k : Nat) : Int) - 16) * unit = ((16 + k) * unit : Nat) := by
      push_cast
      ring
    have large : 16 * unit ≤ Binary64.nearest ((16 + k) * unit) 1 := by
      apply Binary64.le_nearest Nat.one_pos (Binary64.exact_mul_unit (by decide)).1
      rw [Nat.mul_one]
      exact Nat.mul_le_mul_right unit (Nat.le_add_right 16 k)
    rw [Binary64.add, difference, rest, Binary64.round_natCast, decide_eq_false fits]
    split_ifs
    · rfl
    · rw [Binary64.le, decide_eq_false_iff_not]
      omega

theorem fits_infinite {e : Nat} (small : e ≤ 15) : fits (infinite false) e = false := by
  have positive : decide (((1 <<< e * unit : Nat) : Int) < 0) = false :=
    decide_eq_false (Int.not_lt.mpr (Int.natCast_nonneg _))
  rw [fits, mantissaAt, Binary64.ofNat_of_lt (one_shiftLeft_lt small),
    Binary64.ofNat_of_lt (by decide), Binary64.ofNat_of_lt (by decide), Binary64.div, positive]
  rfl

theorem le_log2 {s : Nat} (large : unit ≤ s) : 1074 ≤ s.log2 := by
  have unit_pos := unit_pos
  exact (Nat.le_log2 (by omega)).mpr ((Nat.one_shiftLeft 1074).symm.trans_le large)

/-- The quotient by a power of two is exact, so all rounding is that to a whole number. -/
theorem mantissaAt_finite {s e : Nat} (h : Exact s) (large : unit ≤ s) (small : e ≤ 15) :
    mantissaAt (finite s) e =
      (finite (roundedAt s (e + 1074) * unit : Nat)).sub (ofNat 16) := by
  have width := le_log2 large
  have divides : 2 ^ e ∣ s := by
    refine Nat.dvd_trans ?_ h.1
    rw [Binary64.gap_eq]
    exact Nat.pow_dvd_pow 2 (by omega)
  obtain ⟨v, rfl⟩ := divides
  have exact : Exact v := by
    have shift : 2 ^ e * v = v <<< e := by rw [Nat.shiftLeft_eq, Nat.mul_comm]
    rw [shift] at h width
    exact h.of_shiftLeft (by omega)
  have quotient : (finite (2 ^ e * v : Nat)).div (finite (1 <<< e * unit : Nat)) = finite v := by
    apply Binary64.div_of_exact (Nat.mul_pos (one_shiftLeft_pos e) unit_pos) ?_ exact
    rw [Nat.one_shiftLeft]
    ring
  rw [mantissaAt, Binary64.ofNat_of_lt (one_shiftLeft_lt small), quotient, whole_natCast,
    roundedAt_mul]

section Search

variable {x e : Nat}

theorem lt_roundedAt_steps {k : Nat} :
    k < roundedAt (16 * x) (e + 1074) ↔ Reaches x ((2 * k + 1) * 2 ^ e) := by
  have left : (2 * k + 1) * 2 ^ (e + 1074) = (2 * k + 1) * 2 ^ e * unit := by
    rw [unit, Nat.one_shiftLeft, Nat.pow_add, Nat.mul_assoc]
  have right : 2 * (16 * x) = 32 * x := by omega
  rw [lt_roundedAt_iff, reaches_natCast, left, right]

section Steps

variable (h : Exact x) (large : unit ≤ x)
include h large

theorem gap_dvd_steps : gap (16 * x) ∣ 16 * x := by
  have shift : 16 * x = x <<< 4 := by rw [Nat.shiftLeft_eq, Nat.mul_comm]
  have width := le_log2 large
  rw [shift, Binary64.gap_dvd_shiftLeft_iff (by omega)]
  exact h.1

theorem div_scale :
    (finite x).div scale =
      if limit ≤ 16 * x then infinite false else finite (16 * x : Nat) := by
  have numerator : (x : Int) * unit * (sixteenth : Int).sign = (16 * x * sixteenth : Nat) := by
    rw [Int.sign_eq_one_of_pos (by exact_mod_cast sixteenth_pos), unit_eq]
    push_cast
    ring
  have pos := sixteenth_pos
  rw [scale, Binary64.div, if_neg (by omega), numerator, Int.natAbs_natCast,
    Binary64.round_natCast, Binary64.nearest_of_dvd pos (gap_dvd_steps h large)]

theorem mantissaAt_steps (below : 16 * x < limit) (small : e ≤ 15) :
    mantissaAt ((finite x).div scale) e =
      (finite (roundedAt (16 * x) (e + 1074) * unit : Nat)).sub (ofNat 16) := by
  rw [div_scale h large, if_neg (Nat.not_le.mpr below)]
  exact mantissaAt_finite ⟨gap_dvd_steps h large, below⟩ (by omega) small

theorem fits_steps (small : e ≤ 15) :
    fits ((finite x).div scale) e = true ↔ ¬ Reaches x (63 * 2 ^ e) := by
  by_cases overflow : limit ≤ 16 * x
  · have reached : Reaches x (63 * 2 ^ e) := by
      rw [reaches_natCast]
      calc 63 * 2 ^ e * unit ≤ 63 * 2 ^ 15 * unit :=
            Nat.mul_le_mul_right unit
              (Nat.mul_le_mul_left 63 (Nat.pow_le_pow_right (by decide) small))
        _ ≤ 2 * limit := by decide
        _ ≤ 32 * x := by omega
    rw [div_scale h large, if_pos overflow, fits_infinite small]
    exact iff_of_false Bool.false_ne_true (not_not_intro reached)
  · have last : 63 * 2 ^ e = (2 * 31 + 1) * 2 ^ e := rfl
    rw [fits, mantissaAt_steps h large (Nat.not_le.mp overflow) small, rest_le, decide_eq_true_eq,
      last, ← lt_roundedAt_steps, Nat.not_lt]

variable (first : (List.range 16).find? (fits ((finite x).div scale)) = some e)
include first

theorem reaches_of_first {j : Nat} (below : j < e) : Reaches x (63 * 2 ^ j) := by
  obtain ⟨-, small, before⟩ := List.find?_range_eq_some.mp first
  have := List.mem_range.mp small
  have refused := before j below
  by_contra missed
  rw [(fits_steps h large (by omega)).mpr missed] at refused
  exact absurd refused (by decide)

/-- The mantissa found is a whole number from zero up, in front of the clamp. -/
theorem mantissa_of_first :
    ∃ m ≤ 15, roundedAt (16 * x) (e + 1074) = 16 + m ∧
      mantissaAt ((finite x).div scale) e = finite (m * unit : Nat) := by
  obtain ⟨fit, small, -⟩ := List.find?_range_eq_some.mp first
  have exponent : e ≤ 15 := Nat.le_of_lt_succ (List.mem_range.mp small)
  have below : 16 * x < limit := by
    by_contra overflow
    rw [div_scale h large, if_pos (Nat.not_lt.mp overflow), fits_infinite exponent] at fit
    exact Bool.false_ne_true fit
  have atMost : ¬ 31 < roundedAt (16 * x) (e + 1074) := by
    rw [lt_roundedAt_steps]
    exact (fits_steps h large exponent).mp fit
  have atLeast : 15 < roundedAt (16 * x) (e + 1074) := by
    rw [lt_roundedAt_steps]
    rcases e with - | j
    · -- One second is 32 thirty-seconds, and 31 are enough here.
      rw [reaches_natCast]
      omega
    · refine (reaches_of_first h large first (Nat.lt_succ_self j)).of_le ?_
      rw [Nat.pow_succ]
      omega
  obtain ⟨m, rounded⟩ : ∃ m, roundedAt (16 * x) (e + 1074) = 16 + m :=
    ⟨roundedAt (16 * x) (e + 1074) - 16, by omega⟩
  refine ⟨m, by omega, rounded, ?_⟩
  rw [mantissaAt_steps h large below exponent, rounded, rest_of_le (by omega)]

end Steps

theorem owns_octet {m : Nat} (exponent : e ≤ 15) (mantissa : m ≤ 15)
    (rounded : roundedAt (16 * x) (e + 1074) = 16 + m)
    (before : ∀ j < e, Reaches x (63 * 2 ^ j)) : Owns (Reaches x) (UInt8.ofNat (16 * e + m)) := by
  have octet := toNat_octet exponent mantissa
  have high : (16 * e + m) / 16 = e := by omega
  have low : (16 * e + m) % 16 = m := by omega
  apply owns_of_neighbours (fun s t le reached => reached.of_le le)
  · intro n previous
    rw [point_add_succ]
    by_cases inside : m = 0
    · -- The point before is the last one of the exponent before.
      have previousHigh : n / 16 = e - 1 := by omega
      have previousLow : n % 16 = 15 := by omega
      rw [previousHigh, previousLow]
      exact before (e - 1) (by omega)
    · have previousHigh : n / 16 = e := by omega
      have previousLow : n % 16 = m - 1 := by omega
      rw [previousHigh, previousLow, ← lt_roundedAt_steps, rounded]
      omega
  · intro _
    rw [point_add_succ, octet, high, low, ← lt_roundedAt_steps, rounded]
    exact Nat.lt_irrefl _

end Search

theorem max_zero (m : Nat) :
    (finite (m * unit : Nat)).max (finite 0) = finite (m * unit : Nat) := by
  rw [Binary64.max, Binary64.le]
  split_ifs with below
  · have zero : ((m * unit : Nat) : Int) = 0 :=
      Int.le_antisymm (of_decide_eq_true below) (Int.natCast_nonneg _)
    rw [zero]
  · rfl

theorem toOctet_natCast {m : Nat} (h : m ≤ 15) :
    (finite (m * unit : Nat)).toOctet = UInt8.ofNat m := by
  have capped : Nat.min 255 m = m := Nat.min_eq_right (by omega)
  rw [Binary64.toOctet, Int.toNat_natCast, Nat.mul_div_cancel _ unit_pos, capped]

section Encode

variable {u : Int} {x : Nat}

theorem minSeconds_eq : minSeconds = finite unit := by decide +kernel

theorem guard_finite : ((finite u).isNan || (finite u).lt minSeconds) = decide (u < unit) := by
  have number : (finite u).isNan = false := rfl
  rw [number, Bool.false_or, minSeconds_eq, Binary64.lt, Binary64.le, Binary64.le, ← decide_not,
    ← Bool.decide_and, decide_eq_decide]
  omega

theorem encode_of_lt (h : u < unit) : encode (finite u) = 0 := by
  rw [encode, guard_finite, decide_eq_true h, if_pos rfl]

theorem owns_zero (h : u < unit) : Owns (Reaches u) 0 := by
  apply owns_of_neighbours (fun s t le reached => reached.of_le le)
  · intro n previous
    exact absurd previous (Nat.succ_ne_zero n).symm
  · intro _ reached
    have first : ((33 : Nat) : Int) * unit ≤ 32 * u := reached
    omega

theorem owns_max (h : Reaches x (63 * 2 ^ 15)) : Owns (Reaches x) maxEncoded := by
  apply owns_of_neighbours (fun s t le reached => reached.of_le le)
  · intro n previous
    obtain rfl : n = 254 := Nat.succ.inj previous.symm
    exact h.of_le (by decide)
  · intro less
    exact absurd less (by decide)

theorem encode_of_none (large : unit ≤ x)
    (none : (List.range 16).find? (fits ((finite x).div scale)) = none) :
    encode (finite x) = maxEncoded := by
  rw [encode, guard_finite, decide_eq_false (by omega), if_neg Bool.false_ne_true]
  simp only [none]

theorem encode_of_first {e m : Nat} (large : unit ≤ x)
    (first : (List.range 16).find? (fits ((finite x).div scale)) = some e) (mantissa : m ≤ 15)
    (found : mantissaAt ((finite x).div scale) e = finite (m * unit : Nat)) :
    encode (finite x) = UInt8.ofNat (16 * e + m) := by
  rw [encode, guard_finite, decide_eq_false (by omega), if_neg Bool.false_ne_true]
  simp only [first, found, max_zero, toOctet_natCast mantissa, UInt8.ofNat_add]

/-- Every double belongs to the octet that it is encoded as. -/
theorem encode_owns (h : Exact u.natAbs) : Owns (Reaches u) (encode (finite u)) := by
  by_cases small : u < unit
  · rw [encode_of_lt small]
    exact owns_zero small
  obtain ⟨x, rfl⟩ : ∃ x : Nat, u = x := ⟨u.toNat, by omega⟩
  rw [Int.natAbs_natCast] at h
  have large : unit ≤ x := by omega
  cases first : (List.range 16).find? (fits ((finite x).div scale)) with
  | none =>
    have refused := List.find?_range_eq_none.mp first 15 (by decide)
    rw [encode_of_none large first]
    apply owns_max
    by_contra missed
    rw [(fits_steps h large (by decide)).mpr missed] at refused
    exact absurd refused (by decide)
  | some e =>
    have exponent : e ≤ 15 :=
      Nat.le_of_lt_succ (List.mem_range.mp (List.find?_range_eq_some.mp first).2.1)
    obtain ⟨m, mantissa, rounded, found⟩ := mantissa_of_first h large first
    rw [encode_of_first large first mantissa found]
    exact owns_octet exponent mantissa rounded fun j => reaches_of_first h large first

theorem guard_infinite (negative : Bool) :
    ((infinite negative).isNan || (infinite negative).lt minSeconds) = negative := by
  have number : (infinite negative).isNan = false := rfl
  rw [number, Bool.false_or, minSeconds_eq, Binary64.lt, Binary64.le, Binary64.le, Bool.not_not,
    Bool.and_self]

theorem infinite_div_scale : (infinite false).div scale = infinite false := by
  have positive : decide ((sixteenth : Int) < 0) = false :=
    decide_eq_false (Int.not_lt.mpr (Int.natCast_nonneg sixteenth))
  rw [scale, Binary64.div, positive]
  rfl

theorem find_infinite : (List.range 16).find? (fits (infinite false)) = none := by
  refine List.find?_range_eq_none.mpr fun e small => ?_
  rw [fits_infinite (Nat.le_of_lt_succ small)]
  rfl

theorem encode_infinite (negative : Bool) :
    encode (infinite negative) = if negative then 0 else maxEncoded := by
  rw [encode, guard_infinite]
  cases negative with
  | true => rw [if_pos rfl, if_pos rfl]
  | false =>
    rw [if_neg Bool.false_ne_true, if_neg Bool.false_ne_true]
    simp only [infinite_div_scale, find_infinite]

theorem encode_mono {u v : Int} (hu : Exact u.natAbs) (hv : Exact v.natAbs) (le : u ≤ v) :
    encode (finite u) ≤ encode (finite v) :=
  (encode_owns hu).mono (fun _ reached => reached.mono le) (encode_owns hv)

end Encode

theorem max_mantissaAt {bits : UInt64} {e : Nat}
    (large : ((ofBits bits).isNan || (ofBits bits).lt minSeconds) = false)
    (first : (List.range 16).find? (fits ((ofBits bits).div scale)) = some e) :
    (mantissaAt ((ofBits bits).div scale) e).max (finite 0) =
      mantissaAt ((ofBits bits).div scale) e := by
  cases value : ofBits bits with
  | nan =>
    rw [value] at large
    exact absurd large (by decide)
  | infinite negative =>
    rw [value, guard_infinite] at large
    rw [value, large, infinite_div_scale, find_infinite] at first
    exact absurd first nofun
  | finite u =>
    have exact := Binary64.exact_of_ofBits value
    rw [value, guard_finite, decide_eq_false_iff_not] at large
    rw [value] at first
    obtain ⟨x, rfl⟩ : ∃ x : Nat, u = x := ⟨u.toNat, by omega⟩
    rw [Int.natAbs_natCast] at exact
    obtain ⟨m, -, -, found⟩ := mantissa_of_first exact (by omega) first
    rw [found, max_zero]

theorem zero_le_octet (b : UInt8) : 0 ≤ b := UInt8.le_iff_toNat_le.mpr (Nat.zero_le _)

theorem le_maxEncoded (b : UInt8) : b ≤ maxEncoded :=
  UInt8.le_iff_toNat_le.mpr (Nat.le_of_lt_succ b.toNat_lt)

theorem encode_le_encode {x y : Binary64} (hx : ∀ u, x = finite u → Exact u.natAbs)
    (hy : ∀ u, y = finite u → Exact u.natAbs) (le : x.le y = true) : encode x ≤ encode y := by
  cases x with
  | nan => exact absurd le Bool.false_ne_true
  | infinite negative =>
    cases negative with
    | true =>
      rw [encode_infinite]
      exact zero_le_octet _
    | false =>
      cases y with
      | infinite negative' =>
        cases negative' with
        | true => exact absurd le Bool.false_ne_true
        | false => exact UInt8.le_refl _
      | nan | finite => exact absurd le Bool.false_ne_true
  | finite u =>
    cases y with
    | nan => exact absurd le Bool.false_ne_true
    | infinite negative' =>
      cases negative' with
      | true => exact absurd le Bool.false_ne_true
      | false =>
        rw [encode_infinite]
        exact le_maxEncoded _
    | finite v => exact encode_mono (hx u rfl) (hy v rfl) (of_decide_eq_true le)

theorem reaches_decode {b : UInt8} {t : Nat} :
    Reaches (sixteenths b * sixteenth : Nat) t ↔ t ≤ 2 * sixteenths b := by
  have left : t * unit = t * (16 * sixteenth) := by rw [unit_eq]
  have right : 32 * (sixteenths b * sixteenth) = 2 * sixteenths b * (16 * sixteenth) := by ring
  have pos : 0 < 16 * sixteenth := Nat.mul_pos (by decide) sixteenth_pos
  rw [reaches_natCast, left, right, Nat.mul_le_mul_right_iff pos]

theorem encode_decode (b : UInt8) : encode (decode b) = b := by
  have owns := encode_owns (u := (sixteenths b * sixteenth : Nat)) (exact_decode b)
  rw [decode_eq]
  exact owns.unique ((owns_self b).congr fun t _ => reaches_decode.symm)

end Olsr.CompactTime
