/-
Numerals: a number written in a base, the most significant digit first,
and read back.

An alphabet gives each digit its sign and each sign its digit. `write` is
the numeral without zeros in front, and `read` accepts any signs of the
alphabet, so what is written is read back (`read_write`), and zeros put in
front change nothing (`read_zeros`). Reading goes up (`le_of_readFrom`), so
a reader that counts in a bounded type is exact if the result fits.
-/
import Mathlib.Data.Nat.Digits.Lemmas

/-- The signs of the digits below a base. -/
structure Alphabet (α : Type) where
  base : Nat
  two_le : 2 ≤ base
  digit : Nat → α
  value : α → Option Nat
  value_digit : ∀ d, d < base → value (digit d) = some d

namespace Alphabet

variable {α : Type} (A : Alphabet α)

/-- The numeral of a number. -/
def write (n : Nat) : List α :=
  if n = 0 then [A.digit 0] else ((A.base.digits n).map A.digit).reverse

/-- Reading on, with the value of what is in front. -/
def readFrom (n : Nat) : List α → Option Nat
  | [] => some n
  | c :: l => (A.value c).bind fun d => readFrom (n * A.base + d) l

/-- The value of a numeral, zeros in front allowed. -/
def read (l : List α) : Option Nat := A.readFrom 0 l

variable {A}

-- ==== reading

theorem readFrom_append (n : Nat) (l l' : List α) :
    A.readFrom n (l ++ l') = (A.readFrom n l).bind fun m => A.readFrom m l' := by
  induction l generalizing n with
  | nil => rfl
  | cons c l ih =>
      simp only [List.cons_append, readFrom]
      cases A.value c with
      | none => rfl
      | some d => exact ih _

/-- Signs of the alphabet, read from the least significant one on. -/
theorem readFrom_digits (n : Nat) {ds : List Nat} (h : ∀ d ∈ ds, d < A.base) :
    A.readFrom n (ds.map A.digit).reverse
      = some (n * A.base ^ ds.length + Nat.ofDigits A.base ds) := by
  induction ds with
  | nil => simp [readFrom]
  | cons d ds ih =>
      have hd := A.value_digit d (h d (by simp))
      rw [List.map_cons, List.reverse_cons, readFrom_append, ih fun e he => h e (by simp [he])]
      simp only [Option.bind_some, readFrom, hd, List.length_cons, Nat.ofDigits_cons, pow_succ]
      congr 1
      ring

theorem read_write (n : Nat) : A.read (A.write n) = some n := by
  unfold read write
  split
  · rename_i h
    simp [readFrom, A.value_digit 0 (by have := A.two_le; omega), h]
  · rw [readFrom_digits 0 fun d hd => Nat.digits_lt_base A.two_le hd, Nat.ofDigits_digits]
    simp

theorem read_zeros (z : Nat) (l : List α) :
    A.read (List.replicate z (A.digit 0) ++ l) = A.read l := by
  induction z with
  | zero => rfl
  | succ z ih =>
      rw [← ih]
      simp [read, List.replicate_succ, readFrom, A.value_digit 0 (by have := A.two_le; omega)]

/-- The value only grows. -/
theorem le_of_readFrom {n v : Nat} {l : List α} (h : A.readFrom n l = some v) : n ≤ v := by
  induction l generalizing n with
  | nil => exact (Option.some.inj h).le
  | cons c l ih =>
      obtain ⟨d, -, hrest⟩ := Option.bind_eq_some_iff.mp h
      calc n = n * 1 := (Nat.mul_one n).symm
        _ ≤ n * A.base := Nat.mul_le_mul_left n (by have := A.two_le; omega)
        _ ≤ n * A.base + d := Nat.le_add_right _ d
        _ ≤ v := ih hrest

-- ==== writing

theorem write_ne_nil (n : Nat) : A.write n ≠ [] := by
  unfold write
  split
  · simp
  · rename_i h
    simp [Nat.digits_ne_nil_iff_ne_zero.mpr h]

theorem digit_inj {d e : Nat} (hd : d < A.base) (he : e < A.base)
    (h : A.digit d = A.digit e) : d = e := by
  have := A.value_digit d hd
  rw [h, A.value_digit e he] at this
  exact (Option.some.inj this).symm

/-- Only the numeral of zero begins with a zero. -/
theorem head_write {n : Nat} (hn : n ≠ 0) : (A.write n).head? ≠ some (A.digit 0) := by
  have hne := Nat.digits_ne_nil_iff_ne_zero (b := A.base).mpr hn
  have hlast := List.getLast_mem hne
  have hpos : 0 < A.base := by have := A.two_le; omega
  rw [write, if_neg hn, List.head?_reverse, List.getLast?_map,
    List.getLast?_eq_some_getLast hne]
  intro h
  exact Nat.getLast_digit_ne_zero A.base hn
    (digit_inj (Nat.digits_lt_base A.two_le hlast) hpos (Option.some.inj h))

theorem mem_write {n : Nat} {c : α} (h : c ∈ A.write n) : ∃ d < A.base, c = A.digit d := by
  unfold write at h
  split at h
  · exact ⟨0, by have := A.two_le; omega, List.mem_singleton.mp h⟩
  · obtain ⟨d, hd, rfl⟩ := List.mem_map.mp (List.mem_reverse.mp h)
    exact ⟨d, Nat.digits_lt_base A.two_le hd, rfl⟩

end Alphabet
