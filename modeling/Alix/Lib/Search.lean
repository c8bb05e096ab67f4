/-
Halving an interval for the last index with a property.

The property is to hold of an initial segment of the indices, as an upper
bound on sorted keys does. A search keeps an interval `[lo, hi)`: below
`lo` every index has the property, from `hi` on none has it, and the
candidate it remembers is the one just below `lo` (`Bracket`). Any index of
the interval may be tried; `raise` and `lower` are the two ways on, and an
empty interval means that the candidate is the answer (`Bracket.last`).
-/
import Mathlib.Algebra.Order.Group.Nat

namespace Search

variable {P : Nat → Prop} {n lo hi mid i : Nat} {best : Option Nat}

-- ==== the statements

/-- The indices below `n` with the property come first. -/
def Initial (P : Nat → Prop) (n : Nat) : Prop := ∀ i j, i ≤ j → j < n → P j → P i

/-- The last index below `n` with the property, or that there is none. -/
def Last (P : Nat → Prop) (n : Nat) : Option Nat → Prop
  | none => ∀ i, i < n → ¬ P i
  | some i => (i < n ∧ P i) ∧ ∀ j, j < n → P j → j ≤ i

/-- Where a search is. -/
structure Bracket (P : Nat → Prop) (n lo hi : Nat) (best : Option Nat) : Prop where
  le : lo ≤ hi
  bound : hi ≤ n
  below : ∀ i, i < lo → P i
  above : ∀ i, hi ≤ i → i < n → ¬ P i
  candidate : best = if lo = 0 then none else some (lo - 1)

-- ==== the rules

theorem Bracket.start (P : Nat → Prop) (n : Nat) : Bracket P n 0 n none where
  le := Nat.zero_le n
  bound := Nat.le_refl n
  below _ h := absurd h (Nat.not_lt_zero _)
  above _ h h' := absurd h' (Nat.not_lt_of_le h)
  candidate := rfl

theorem Bracket.raise (h : Bracket P n lo hi best) (hP : Initial P n) (hmid : mid < hi)
    (hyes : P mid) : Bracket P n (mid + 1) hi (some mid) where
  le := hmid
  bound := h.bound
  below i hi := hP i mid (Nat.le_of_lt_succ hi) (Nat.lt_of_lt_of_le hmid h.bound) hyes
  above := h.above
  candidate := by simp

theorem Bracket.lower (h : Bracket P n lo hi best) (hP : Initial P n) (hlo : lo ≤ mid)
    (hmid : mid < hi) (hno : ¬ P mid) : Bracket P n lo mid best where
  le := hlo
  bound := Nat.le_of_lt (Nat.lt_of_lt_of_le hmid h.bound)
  below := h.below
  above i hi hin hyes := hno (hP mid i hi hin hyes)
  candidate := h.candidate

theorem Bracket.last (h : Bracket P n lo lo best) : Last P n best := by
  rw [h.candidate]
  cases lo with
  | zero => exact fun i hi => h.above i (Nat.zero_le i) hi
  | succ lo =>
      refine ⟨⟨h.bound, h.below lo (Nat.lt_succ_self lo)⟩, fun j hj hyes => ?_⟩
      by_contra hlt
      exact h.above j (by omega) hj hyes

-- ==== the answer

theorem Last.some_iff (h : Last P n best) :
    best = some i ↔ (i < n ∧ P i) ∧ ∀ j, j < n → P j → j ≤ i := by
  constructor
  · rintro rfl
    exact h
  · rintro ⟨⟨hi, hyes⟩, hmax⟩
    cases best with
    | none => exact absurd hyes (h i hi)
    | some j =>
        obtain ⟨⟨hj, hyes'⟩, hmax'⟩ := h
        rw [Nat.le_antisymm (hmax j hj hyes') (hmax' i hi hyes)]

theorem Last.none_iff (h : Last P n best) : best = none ↔ ∀ i, i < n → ¬ P i := by
  constructor
  · rintro rfl
    exact h
  · intro hno
    cases best with
    | none => rfl
    | some j => exact absurd h.1.2 (hno j h.1.1)

/-- The middle of an interval that is not empty. -/
theorem middle (h : lo < hi) : lo ≤ lo + (hi - lo) / 2 ∧ lo + (hi - lo) / 2 < hi := by
  omega

end Search
