/-
Things laid out one behind the other.

Of the numbered things some are taken, and each of these starts at the
next multiple of its alignment behind the one before it (`Items.start`).
The starts are aligned, a thing ends before everything after it starts
(`Items.apart`) and nothing reaches behind the end (`Items.inside`). When
the alignments are powers of two, what is aligned to the largest of them
is aligned to all (`Items.align_dvd`).
-/
import Alix.Lib.Masks

namespace Layout

open Masks (up le_up dvd_up)

variable {a b : Nat}

-- ==== layouts

/-- Which numbers are taken, and what they ask for. -/
structure Items where
  takes : Nat → Bool
  align : Nat → Nat
  size : Nat → Nat

namespace Items

variable {I : Items} {i j n : Nat}

/-- Where the first `n` end. -/
def ends (I : Items) : Nat → Nat
  | 0 => 0
  | n + 1 => if I.takes n then up (I.ends n) (I.align n) + I.size n else I.ends n

/-- Where a thing starts. -/
def start (I : Items) (i : Nat) : Nat := up (I.ends i) (I.align i)

/-- The largest alignment of the first `n`. -/
def maxAlign (I : Items) : Nat → Nat
  | 0 => 1
  | n + 1 => if I.takes n then max (I.maxAlign n) (I.align n) else I.maxAlign n

theorem align_dvd_start (I : Items) (i : Nat) : I.align i ∣ I.start i := dvd_up _ _

theorem ends_succ_of_takes (h : I.takes n = true) : I.ends (n + 1) = I.start n + I.size n :=
  if_pos h

theorem ends_succ_of_not (h : I.takes n = false) : I.ends (n + 1) = I.ends n :=
  if_neg (by rw [h]; exact Bool.false_ne_true)

theorem maxAlign_succ_of_takes (h : I.takes n = true) :
    I.maxAlign (n + 1) = max (I.maxAlign n) (I.align n) :=
  if_pos h

theorem maxAlign_succ_of_not (h : I.takes n = false) : I.maxAlign (n + 1) = I.maxAlign n :=
  if_neg (by rw [h]; exact Bool.false_ne_true)

theorem maxAlign_le_succ (I : Items) (n : Nat) : I.maxAlign n ≤ I.maxAlign (n + 1) := by
  cases ht : I.takes n with
  | false => rw [maxAlign_succ_of_not ht]
  | true =>
      rw [maxAlign_succ_of_takes ht]
      exact Nat.le_max_left _ _

theorem ends_mono (h : ∀ i, I.takes i = true → 0 < I.align i) (hij : i ≤ j) :
    I.ends i ≤ I.ends j := by
  induction j with
  | zero => rw [Nat.le_zero.mp hij]
  | succ j ih =>
      by_cases he : i = j + 1
      · rw [he]
      · have hi := ih (by omega)
        cases ht : I.takes j with
        | false => rwa [ends_succ_of_not ht]
        | true =>
            have hle : I.ends j ≤ up (I.ends j) (I.align j) := le_up (h j ht)
            rw [ends_succ_of_takes ht]
            unfold start
            omega

/-- A thing ends where the ones up to it end. -/
theorem inside (h : ∀ i, I.takes i = true → 0 < I.align i) (hi : I.takes i = true)
    (hin : i < n) : I.start i + I.size i ≤ I.ends n := by
  rw [← ends_succ_of_takes hi]
  exact ends_mono h hin

/-- What comes later starts later. -/
theorem apart (h : ∀ i, I.takes i = true → 0 < I.align i) (hi : I.takes i = true)
    (hj : I.takes j = true) (hij : i < j) : I.start i + I.size i ≤ I.start j :=
  Nat.le_trans (inside h hi hij) (le_up (h j hj))

theorem pow_max (h : ∃ k, a = 2 ^ k) (h' : ∃ k, b = 2 ^ k) : ∃ k, max a b = 2 ^ k := by
  cases Nat.le_total a b with
  | inl hle => rwa [Nat.max_eq_right hle]
  | inr hle => rwa [Nat.max_eq_left hle]

/-- Of two powers of two the smaller divides the larger. -/
theorem pow_dvd_of_le (h : ∃ k, a = 2 ^ k) (h' : ∃ k, b = 2 ^ k) (hle : a ≤ b) : a ∣ b := by
  obtain ⟨k, rfl⟩ := h
  obtain ⟨l, rfl⟩ := h'
  exact Nat.pow_dvd_pow 2 ((Nat.pow_le_pow_iff_right (by omega)).mp hle)

theorem maxAlign_pow (h : ∀ i, i < n → I.takes i = true → ∃ k, I.align i = 2 ^ k) :
    ∃ k, I.maxAlign n = 2 ^ k := by
  induction n with
  | zero => exact ⟨0, rfl⟩
  | succ n ih =>
      have hn := ih fun i hi => h i (Nat.lt_succ_of_lt hi)
      cases ht : I.takes n with
      | false => rwa [maxAlign_succ_of_not ht]
      | true =>
          rw [maxAlign_succ_of_takes ht]
          exact pow_max hn (h n (Nat.lt_succ_self n) ht)

theorem align_le (hi : I.takes i = true) (hin : i < n) : I.align i ≤ I.maxAlign n := by
  induction n with
  | zero => exact absurd hin (Nat.not_lt_zero i)
  | succ n ih =>
      by_cases he : i = n
      · rw [← he, maxAlign_succ_of_takes hi]
        exact Nat.le_max_right _ _
      · have hlt := ih (by omega)
        cases ht : I.takes n with
        | false => rwa [maxAlign_succ_of_not ht]
        | true =>
            rw [maxAlign_succ_of_takes ht]
            exact Nat.le_trans hlt (Nat.le_max_left _ _)

theorem maxAlign_le (hb : 1 ≤ b) (h : ∀ i, i < n → I.takes i = true → I.align i ≤ b) :
    I.maxAlign n ≤ b := by
  induction n with
  | zero => exact hb
  | succ n ih =>
      have hn := ih fun i hi => h i (Nat.lt_succ_of_lt hi)
      cases ht : I.takes n with
      | false => rwa [maxAlign_succ_of_not ht]
      | true =>
          rw [maxAlign_succ_of_takes ht]
          exact Nat.max_le.mpr ⟨hn, h n (Nat.lt_succ_self n) ht⟩

/-- The largest alignment is good for all. -/
theorem align_dvd (h : ∀ i, i < n → I.takes i = true → ∃ k, I.align i = 2 ^ k)
    (hi : I.takes i = true) (hin : i < n) : I.align i ∣ I.maxAlign n :=
  pow_dvd_of_le (h i hin hi) (maxAlign_pow h) (align_le hi hin)

end Items

end Layout
