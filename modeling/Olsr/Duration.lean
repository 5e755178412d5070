import Olsr.Binary64.Exact

/-!
Durations of whole seconds and nanoseconds. A duration becomes a double by rounding the seconds,
the quotient of the nanoseconds by 10^9, and their sum. A double becomes a duration by one rounding,
to the nanosecond.
-/

namespace Olsr

structure Duration where
  seconds : UInt64
  nanos : Fin 1000000000
  deriving DecidableEq

namespace Duration

def ofSeconds (s : UInt64) : Duration := ⟨s, 0⟩

def totalNanos (d : Duration) : Nat := d.seconds.toNat * 1000000000 + d.nanos

def ofNanos (n : Nat) : Duration :=
  ⟨UInt64.ofNat (n / 1000000000), ⟨n % 1000000000, Nat.mod_lt _ (by decide)⟩⟩

theorem totalNanos_ofNanos (n : Nat) (h : n < UInt64.size * 1000000000) :
    (ofNanos n).totalNanos = n := by
  simp only [UInt64.size] at h
  simp only [ofNanos, totalNanos, UInt64.toNat_ofNat']
  omega

theorem ofNanos_totalNanos (d : Duration) : ofNanos d.totalNanos = d := by
  obtain ⟨s, n⟩ := d
  have hs := s.toNat_lt
  have hn := n.isLt
  simp only [ofNanos, totalNanos, Duration.mk.injEq]
  refine ⟨UInt64.toNat_inj.mp ?_, Fin.ext ?_⟩
  · rw [UInt64.toNat_ofNat']
    omega
  · simp only
    omega

def toBinary64 (d : Duration) : Binary64 :=
  (Binary64.ofNat d.seconds.toNat).add ((Binary64.ofNat d.nanos).div (Binary64.ofNat 1000000000))

/-- The duration of a number of seconds, to the nearest nanosecond. There is none for a number that
is negative, too large or not finite. -/
def ofBinary64? : Binary64 → Option Duration
  | .finite u =>
    let nanos := Binary64.nearestEven (u.toNat * 1000000000) Binary64.unit
    if u < 0 ∨ UInt64.size * 1000000000 ≤ nanos then none else some (ofNanos nanos)
  | _ => none

theorem ofBinary64?_of_exact {x n : Nat} (product : x * 1000000000 = n * Binary64.unit)
    (small : n < UInt64.size * 1000000000) :
    ofBinary64? (.finite x) = some (ofNanos n) := by
  have nanos : Binary64.nearestEven (x * 1000000000) Binary64.unit = n := by
    rw [product, Binary64.nearestEven_mul n (by decide)]
  unfold ofBinary64?
  simp only [Int.toNat_natCast, nanos]
  rw [if_neg (by omega)]

end Duration
end Olsr
