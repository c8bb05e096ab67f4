/-
The microseconds are exact, and they never run backwards.

The conversion to microseconds takes the quotient and the remainder of the
ticks apart. Scaling the remainder and dividing again gives exactly what
the quotient leaves out (`div_mul_add_mod_mul_div`), so the two floors are
one floor. The product of the remainder is the one that a large rate could
push over 64 bits, and the bound on the rate is what forbids it; the other
product and the sum are at most the result (`TscFits.of_le`). Monotonicity is
that of one floor.
-/
import Alix.Sys.Time

namespace Alix

-- ==== the conversion

/-- Scaling a quotient and its remainder apart is scaling the whole. -/
theorem div_mul_add_mod_mul_div (d c : Nat) {n : Nat} (hpos : 0 < n) :
    d / n * c + d % n * c / n = d * c / n := by
  calc d / n * c + d % n * c / n
      = (d % n * c + n * (d / n * c)) / n := by
        rw [Nat.add_mul_div_left _ _ hpos, Nat.add_comm]
    _ = (d % n + n * (d / n)) * c / n := by
        rw [Nat.add_mul, Nat.mul_assoc]
    _ = d * c / n := by rw [Nat.mod_add_div]

private theorem toNat_million : (1000000 : BitVec 64).toNat = 10 ^ 6 := rfl

/-- No product and no sum of `pit_tsc_delta_to_us` leaves the 64 bits. -/
structure TscFits (hz delta : BitVec 64) : Prop where
  quotient : ¬ (delta / hz).umulOverflow 1000000
  remainder : ¬ (delta % hz).umulOverflow 1000000
  sum : ¬ (delta / hz * 1000000).uaddOverflow (delta % hz * 1000000 / hz)

/-- Where nothing overflows, the result is the one floor. -/
theorem TscFits.toNat {hz delta : BitVec 64} (h : TscFits hz delta) (hpos : 0 < hz) :
    (pitTscDeltaToUs hz delta).toNat = delta.toNat * 10 ^ 6 / hz.toNat := by
  have hne : hz ≠ 0 := by
    rintro rfl
    exact absurd hpos (by decide)
  have hquot := BitVec.toNat_mul_of_not_umulOverflow h.quotient
  have hrem := BitVec.toNat_mul_of_not_umulOverflow h.remainder
  rw [pitTscDeltaToUs, if_neg hne, BitVec.toNat_add_of_not_uaddOverflow h.sum,
    BitVec.toNat_udiv, hquot, hrem, BitVec.toNat_udiv, BitVec.toNat_umod, toNat_million]
  exact div_mul_add_mod_mul_div delta.toNat (10 ^ 6) hpos

/-- A remainder is below the rate, so its product fits for every rate in
the range. -/
theorem TscFits.of_le {hz delta : BitVec 64} (hpos : 0 < hz) (hmax : hz.toNat ≤ 2 ^ 64 / 10 ^ 6)
    (hfit : delta.toNat * 10 ^ 6 / hz.toNat < 2 ^ 64) : TscFits hz delta := by
  have hsplit := div_mul_add_mod_mul_div delta.toNat (10 ^ 6) (n := hz.toNat) hpos
  have hle : delta.toNat / hz.toNat * 10 ^ 6 ≤ delta.toNat * 10 ^ 6 / hz.toNat :=
    hsplit ▸ Nat.le_add_right _ _
  have hmod : delta.toNat % hz.toNat < hz.toNat := Nat.mod_lt _ hpos
  have hquot : ¬ (delta / hz).umulOverflow 1000000 := by
    simp only [BitVec.umulOverflow, BitVec.toNat_udiv, toNat_million, decide_eq_true_eq]
    omega
  have hrem : ¬ (delta % hz).umulOverflow 1000000 := by
    simp only [BitVec.umulOverflow, BitVec.toNat_umod, toNat_million, decide_eq_true_eq]
    omega
  refine ⟨hquot, hrem, ?_⟩
  simp only [BitVec.uaddOverflow, BitVec.toNat_udiv, BitVec.toNat_umod, toNat_million,
    BitVec.toNat_mul_of_not_umulOverflow hquot, BitVec.toNat_mul_of_not_umulOverflow hrem,
    decide_eq_true_eq]
  omega

/-- For every rate in the range and every number of ticks whose microseconds
fit in 64 bits: the result is exact, no step on the way to it overflows,
and fewer ticks are no more microseconds. -/
theorem pitTscDeltaToUs_exact (hz : BitVec 64) (hpos : 0 < hz)
    (hmax : hz.toNat ≤ 2 ^ 64 / 10 ^ 6) (delta : BitVec 64)
    (hfit : delta.toNat * 10 ^ 6 / hz.toNat < 2 ^ 64) :
    (pitTscDeltaToUs hz delta).toNat = delta.toNat * 10 ^ 6 / hz.toNat ∧
      TscFits hz delta ∧
      ∀ d, d ≤ delta → pitTscDeltaToUs hz d ≤ pitTscDeltaToUs hz delta := by
  have hdelta := TscFits.of_le hpos hmax hfit
  refine ⟨hdelta.toNat hpos, hdelta, fun d hle => ?_⟩
  have hfloor : d.toNat * 10 ^ 6 / hz.toNat ≤ delta.toNat * 10 ^ 6 / hz.toNat :=
    Nat.div_le_div_right (Nat.mul_le_mul_right _ hle)
  have hd := TscFits.of_le hpos hmax (Nat.lt_of_le_of_lt hfloor hfit)
  rw [BitVec.le_def, hd.toNat hpos, hdelta.toNat hpos]
  exact hfloor

/-- Three gigahertz, and ten billion ticks. -/
theorem pitTscDeltaToUs_exact_threeGhz :
    (pitTscDeltaToUs 3000000000 10000000000).toNat = 3333333 ∧
      TscFits 3000000000 10000000000 ∧
      ∀ d : BitVec 64, d ≤ 10000000000 →
        pitTscDeltaToUs 3000000000 d ≤ pitTscDeltaToUs 3000000000 10000000000 :=
  pitTscDeltaToUs_exact 3000000000 (by decide) (by decide) 10000000000 (by decide)

end Alix
