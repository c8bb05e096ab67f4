/-
The lanes of a word, and a test that finds a zero among them.

A word is a number in base `b`, and a lane is a digit of it. `dec` takes
one from every lane in a single subtraction, so a lane borrows from the one
above it. With an even base `2 * h` a lane that was below `h` and is `h` or
more after that must have been zero or have lent to a lane below it. The
lowest zero lane has lent nothing, so there is such a lane exactly when
there is a zero lane (`zero_lane_iff`); which one it is, the test does not
say.
-/
import Mathlib.Algebra.Order.Group.Nat
import Mathlib.Data.Nat.Basic

namespace Lanes

variable {b h n w i : Nat}

/-- Lane `i`, the lowest one first. -/
def lane (b w i : Nat) : Nat := w / b ^ i % b

/-- A one in each of `n` lanes. -/
def ones (b : Nat) : Nat → Nat
  | 0 => 0
  | n + 1 => 1 + b * ones b n

/-- `ones` is subtracted, modulo the size of the word. -/
def dec (b n w : Nat) : Nat := (b ^ n - ones b n + w) % b ^ n

theorem lane_zero (b w : Nat) : lane b w 0 = w % b := by
  unfold lane
  rw [Nat.pow_zero, Nat.div_one]

theorem lane_succ (b w i : Nat) : lane b w (i + 1) = lane b (w / b) i := by
  unfold lane
  rw [Nat.pow_succ', Nat.div_div_eq_div_mul]

theorem ones_succ (b n : Nat) : ones b (n + 1) = 1 + b * ones b n := rfl

theorem ones_lt (hb : 2 ≤ b) (n : Nat) : ones b n < b ^ n := by
  induction n with
  | zero => exact Nat.one_pos
  | succ n ih =>
      have hmul : b * (ones b n + 1) ≤ b * b ^ n := Nat.mul_le_mul_left b ih
      rw [Nat.mul_add, Nat.mul_one] at hmul
      rw [ones_succ, Nat.pow_succ']
      omega

-- ==== the lowest lane

/-- The sum that `dec` reduces, with the lowest lane apart. -/
theorem dec_sum (hb : 2 ≤ b) (n w : Nat) :
    b ^ (n + 1) - ones b (n + 1) + w + 1
      = w % b + b * (b ^ n - ones b n + w / b) := by
  obtain ⟨e, he⟩ := Nat.exists_eq_add_of_lt (ones_lt hb n)
  have hpow : b ^ (n + 1) = b * ones b n + b * e + b := by
    rw [Nat.pow_succ', he, Nat.mul_add, Nat.mul_add, Nat.mul_one]
  have hrest : b * (b ^ n - ones b n + w / b) = b * e + b + b * (w / b) := by
    rw [he, show ones b n + e + 1 - ones b n = e + 1 by omega, Nat.mul_add, Nat.mul_add,
      Nat.mul_one]
  have hw := Nat.mod_add_div w b
  rw [hpow, hrest, ones_succ]
  omega

/-- A lowest lane that is not zero lends nothing. -/
theorem dec_lent (hb : 2 ≤ b) (h : w % b ≠ 0) :
    dec b (n + 1) w = w % b - 1 + b * dec b n (w / b) := by
  have hlt : w % b - 1 < b := by
    have := Nat.mod_lt w (by omega : 0 < b)
    omega
  have hsum : b ^ (n + 1) - ones b (n + 1) + w
      = w % b - 1 + b * (b ^ n - ones b n + w / b) := by
    have := dec_sum hb n w
    omega
  unfold dec
  rw [hsum, Nat.pow_succ', Nat.mod_mul, Nat.add_mul_mod_self_left, Nat.mod_eq_of_lt hlt,
    Nat.add_mul_div_left _ _ (by omega : 0 < b), Nat.div_eq_of_lt hlt, Nat.zero_add]

/-- And one that is zero wraps around. -/
theorem dec_wrapped (hb : 2 ≤ b) (h : w % b = 0) : dec b (n + 1) w % b = b - 1 := by
  have hsum : b ^ (n + 1) - ones b (n + 1) + w
      = b - 1 + b * (b ^ n - ones b n - 1 + w / b) := by
    obtain ⟨e, he⟩ := Nat.exists_eq_add_of_lt (ones_lt hb n)
    have := dec_sum hb n w
    rw [h, he, show ones b n + e + 1 - ones b n = e + 1 by omega, Nat.mul_add, Nat.mul_add,
      Nat.mul_one] at this
    rw [he, show ones b n + e + 1 - ones b n - 1 = e by omega, Nat.mul_add]
    omega
  unfold dec
  rw [hsum, Nat.pow_succ', Nat.mod_mul_right_mod, Nat.add_mul_mod_self_left]
  exact Nat.mod_eq_of_lt (by omega)

-- ==== the result

/-- A lane that was in the lower half and is in the upper half. -/
def Crossed (h n w i : Nat) : Prop :=
  h ≤ lane (2 * h) (dec (2 * h) n w) i ∧ lane (2 * h) w i < h

theorem crossed_succ (hh : 0 < h) (hlow : w % (2 * h) ≠ 0) :
    Crossed h (n + 1) w (i + 1) ↔ Crossed h n (w / (2 * h)) i := by
  have hlt := Nat.mod_lt w (by omega : 0 < 2 * h)
  unfold Crossed
  rw [lane_succ, lane_succ, dec_lent (by omega) hlow,
    Nat.add_mul_div_left _ _ (by omega : 0 < 2 * h),
    Nat.div_eq_of_lt (by omega : w % (2 * h) - 1 < 2 * h), Nat.zero_add]

/-- Some lane crosses if and only if some lane is zero. -/
theorem zero_lane_iff (hh : 0 < h) (n w : Nat) :
    (∃ i, i < n ∧ Crossed h n w i) ↔ ∃ i, i < n ∧ lane (2 * h) w i = 0 := by
  induction n generalizing w with
  | zero => simp
  | succ n ih =>
      rw [Nat.exists_lt_succ_left, Nat.exists_lt_succ_left, lane_zero]
      by_cases hlow : w % (2 * h) = 0
      · refine iff_of_true (Or.inl ⟨?_, ?_⟩) (Or.inl hlow)
        · rw [lane_zero, dec_wrapped (by omega) hlow]
          omega
        · rw [lane_zero, hlow]
          exact hh
      · have hfirst : ¬ Crossed h (n + 1) w 0 := by
          have hlt := Nat.mod_lt w (by omega : 0 < 2 * h)
          unfold Crossed
          rw [lane_zero, lane_zero, dec_lent (by omega) hlow, Nat.add_mul_mod_self_left,
            Nat.mod_eq_of_lt (by omega)]
          omega
        simp only [crossed_succ hh hlow, lane_succ, ih, hfirst, hlow, false_or]

end Lanes
