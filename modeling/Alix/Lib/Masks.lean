/-
Rounding to multiples of a power of two.

Programs round a number up by adding `a - 1` and clearing the low bits
with `~(a - 1)`, which is right when `a` is a power of two and the sum
does not wrap. `and_mask` is the mask as a division, `up` is what is
meant, and `roundUp_toNat` says what a machine word gets: `up` as long as
there is no wrap (`roundUp_of_lt`), and nothing at all after one
(`roundUp_wrapped`), since a wrapped sum is smaller than `a`. The test
`a & (a - 1)` for a power of two is `isPow_iff`.
-/
import Mathlib.Algebra.Order.Group.Nat
import Mathlib.Data.BitVec

namespace Masks

variable {w k v n a : Nat}

-- ==== masks

/-- Clearing the low bits of a number of `w` bits. -/
theorem and_mask {x : Nat} (hk : k ≤ w) (hx : x < 2 ^ w) :
    x &&& (2 ^ w - 1 - (2 ^ k - 1)) = x / 2 ^ k * 2 ^ k := by
  have hmask : 2 ^ w - 1 - (2 ^ k - 1) = (2 ^ (w - k) - 1) * 2 ^ k := by
    have hpos : 0 < 2 ^ k := Nat.two_pow_pos k
    have hsplit : 2 ^ (w - k) * 2 ^ k = 2 ^ w := by
      rw [← Nat.pow_add, Nat.sub_add_cancel hk]
    rw [Nat.sub_mul, hsplit]
    omega
  rw [hmask]
  apply Nat.eq_of_testBit_eq
  intro i
  rw [Nat.testBit_and, Nat.testBit_mul_two_pow, Nat.testBit_mul_two_pow,
    Nat.testBit_two_pow_sub_one, Nat.testBit_div_two_pow]
  by_cases hki : k ≤ i
  · by_cases hi : i < w
    · simp [hki, show i - k < w - k by omega, show i - k + k = i by omega]
    · have hbig : x.testBit i = false :=
        Nat.testBit_lt_two_pow (Nat.lt_of_lt_of_le hx (Nat.pow_le_pow_right (by omega) (by omega)))
      simp [hbig, hki, show i - k + k = i by omega]
  · simp [hki]

-- ==== rounding up

/-- The least multiple of `a` that is not below `v`. -/
def up (v a : Nat) : Nat := (v + a - 1) / a * a

theorem up_zero (a : Nat) : up 0 a = 0 := by
  unfold up
  cases a with
  | zero => rfl
  | succ a => rw [Nat.zero_add, Nat.add_sub_cancel, Nat.div_eq_of_lt (Nat.lt_succ_self a), Nat.zero_mul]

theorem dvd_up (v a : Nat) : a ∣ up v a := Nat.dvd_mul_left a _

theorem le_up (ha : 0 < a) : v ≤ up v a := by
  have hmod := Nat.div_add_mod' (v + a - 1) a
  have hlt := Nat.mod_lt (v + a - 1) ha
  unfold up
  omega

theorem up_lt (ha : 0 < a) : up v a < v + a := by
  have hle := Nat.div_mul_le_self (v + a - 1) a
  unfold up
  omega

/-- Among multiples it is the least one. -/
theorem up_le_iff (ha : 0 < a) (hn : a ∣ n) : up v a ≤ n ↔ v ≤ n := by
  constructor
  · intro h
    exact (le_up ha).trans h
  · intro h
    obtain ⟨m, rfl⟩ := hn
    have hlt : v + a - 1 < (m + 1) * a := by
      rw [Nat.succ_mul, Nat.mul_comm m a]
      omega
    have hdiv : (v + a - 1) / a ≤ m := Nat.le_of_lt_succ ((Nat.div_lt_iff_lt_mul ha).mpr hlt)
    rw [Nat.mul_comm a m]
    exact Nat.mul_le_mul_right a hdiv

theorem le_up_iff (ha : 0 < a) (hn : a ∣ n) : n ≤ up v a ↔ n < v + a := by
  constructor
  · intro h
    exact Nat.lt_of_le_of_lt h (up_lt ha)
  · intro h
    obtain ⟨m, rfl⟩ := hn
    have hdiv : m ≤ (v + a - 1) / a := (Nat.le_div_iff_mul_le ha).mpr (by
      rw [Nat.mul_comm m a]
      omega)
    unfold up
    rw [Nat.mul_comm a m]
    exact Nat.mul_le_mul_right a hdiv

-- ==== machine words

/-- A word with one bit has no bit in common with its predecessor. -/
theorem isPow_iff (a : BitVec w) : a ≠ 0 ∧ a &&& (a - 1) = 0 ↔ ∃ k, k < w ∧ a.toNat = 2 ^ k := by
  have hzero : a ≠ 0 ↔ a.toNat ≠ 0 := by
    rw [ne_eq, ← BitVec.toNat_inj]
    rfl
  have hpred : a.toNat ≠ 0 → (a - 1).toNat = a.toNat - 1 := by
    intro hne
    have hlt := a.isLt
    rw [BitVec.toNat_sub]
    cases w with
    | zero => omega
    | succ w =>
        have hone : (1 : BitVec (w + 1)).toNat = 1 := by simp
        rw [hone, show 2 ^ (w + 1) - 1 + a.toNat = a.toNat - 1 + 2 ^ (w + 1) by omega,
          Nat.add_mod_right, Nat.mod_eq_of_lt (by omega)]
  have hand : a.toNat ≠ 0 → (a &&& (a - 1) = 0 ↔ a.toNat &&& (a.toNat - 1) = 0) := by
    intro hne
    rw [← BitVec.toNat_inj, BitVec.toNat_and, hpred hne]
    rfl
  constructor
  · intro h
    have hne := hzero.mp h.1
    obtain ⟨k, hk⟩ := (Nat.and_sub_one_eq_zero_iff_isPowerOfTwo hne).mp ((hand hne).mp h.2)
    refine ⟨k, (Nat.pow_lt_pow_iff_right (by omega : 1 < 2)).mp ?_, hk⟩
    rw [← hk]
    exact a.isLt
  · intro h
    obtain ⟨k, -, hk⟩ := h
    have hne : a.toNat ≠ 0 := by
      rw [hk]
      exact (Nat.two_pow_pos k).ne'
    exact ⟨hzero.mpr hne,
      (hand hne).mpr ((Nat.and_sub_one_eq_zero_iff_isPowerOfTwo hne).mpr ⟨k, hk⟩)⟩

/-- What the sum and the mask compute. -/
theorem roundUp_toNat (x : BitVec w) {a : BitVec w} (hk : k < w) (ha : a.toNat = 2 ^ k) :
    ((x + a - 1) &&& ~~~(a - 1)).toNat = (x.toNat + 2 ^ k - 1) % 2 ^ w / 2 ^ k * 2 ^ k := by
  have hpos : 0 < 2 ^ k := Nat.two_pow_pos k
  have hlt : 2 ^ k < 2 ^ w := Nat.pow_lt_pow_right (by omega) hk
  have hone : (1 : BitVec w).toNat = 1 :=
    Nat.mod_eq_of_lt (Nat.one_lt_two_pow (Nat.ne_of_gt (Nat.lt_of_le_of_lt (Nat.zero_le k) hk)))
  have hx := x.isLt
  have hsum : (x + a - 1).toNat = (x.toNat + 2 ^ k - 1) % 2 ^ w := by
    rw [BitVec.toNat_sub, BitVec.toNat_add, hone, ha, Nat.add_mod_mod,
      show 2 ^ w - 1 + (x.toNat + 2 ^ k) = x.toNat + 2 ^ k - 1 + 2 ^ w by omega, Nat.add_mod_right]
  have hpred : (a - 1).toNat = 2 ^ k - 1 := by
    rw [BitVec.toNat_sub, hone, ha, show 2 ^ w - 1 + 2 ^ k = 2 ^ k - 1 + 2 ^ w by omega,
      Nat.add_mod_right, Nat.mod_eq_of_lt (by omega)]
  rw [BitVec.toNat_and, BitVec.toNat_not, hsum, hpred]
  exact and_mask (Nat.le_of_lt hk) (Nat.mod_lt _ (by omega))

/-- Without a wrap it is the multiple that is meant. -/
theorem roundUp_of_lt (h : v + 2 ^ k - 1 < 2 ^ w) :
    (v + 2 ^ k - 1) % 2 ^ w / 2 ^ k * 2 ^ k = up v (2 ^ k) := by
  rw [Nat.mod_eq_of_lt h]
  rfl

/-- After a wrap nothing is left. -/
theorem roundUp_wrapped (hv : v < 2 ^ w) (hk : k < w) (h : 2 ^ w ≤ v + 2 ^ k - 1) :
    (v + 2 ^ k - 1) % 2 ^ w / 2 ^ k * 2 ^ k = 0 := by
  have hlt : 2 ^ k < 2 ^ w := Nat.pow_lt_pow_right (by omega) hk
  rw [Nat.mod_eq_sub_mod h, Nat.mod_eq_of_lt (by omega), Nat.div_eq_of_lt (by omega), Nat.zero_mul]

end Masks
