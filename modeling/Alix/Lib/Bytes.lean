/-
Byte-addressed memory with little-endian numbers.

A memory is a byte at every address. `load` reads a number of so many
bytes and `store` writes one, `fill` is `memset` and `copy` is `memcpy`
from another memory or from the same one. A client follows a program by
three facts: a store reads back (`load_store_self`), a load sees only its
own bytes (`load_congr`), and so a write elsewhere does not matter
(`load_store_of_apart`).

`storeAll` writes the numbers of an array, one record after the other; an
entry reads back when the records do not overlap (`load_storeAll`).
-/
import Mathlib.Data.BitVec
import Mathlib.Data.List.Basic
import Mathlib.Algebra.Order.Group.Nat

namespace Bytes

abbrev Byte : Type := BitVec 8

/-- A byte at every address. -/
abbrev Memory : Type := Nat → Byte

/-- The number in the `n` bytes from an address on. -/
def load (m : Memory) (a : Nat) : Nat → Nat
  | 0 => 0
  | n + 1 => (m a).toNat + 256 * load m (a + 1) n

/-- Byte `i` of a number. -/
def byteOf (w i : Nat) : Byte := BitVec.ofNat 8 (w / 256 ^ i)

/-- The low `n` bytes of a number go to an address. -/
def store (m : Memory) (a n w : Nat) : Memory :=
  fun x => if a ≤ x ∧ x < a + n then byteOf w (x - a) else m x

/-- `memset`. -/
def fill (m : Memory) (a n : Nat) (b : Byte) : Memory :=
  fun x => if a ≤ x ∧ x < a + n then b else m x

/-- `memcpy`, from the memory `src`. -/
def copy (m : Memory) (dst : Nat) (src : Memory) (start n : Nat) : Memory :=
  fun x => if dst ≤ x ∧ x < dst + n then src (start + (x - dst)) else m x

variable {m m' : Memory} {a b n k w : Nat}

-- ==== loading

/-- A load sees its own bytes. -/
theorem load_congr (h : ∀ x, a ≤ x → x < a + n → m' x = m x) : load m' a n = load m a n := by
  induction n generalizing a with
  | zero => rfl
  | succ n ih =>
      unfold load
      rw [h a (Nat.le_refl a) (by omega), ih fun x h1 h2 => h x (by omega) (by omega)]

theorem load_lt (m : Memory) (a n : Nat) : load m a n < 256 ^ n := by
  induction n generalizing a with
  | zero => exact Nat.one_pos
  | succ n ih =>
      have hb : (m a).toNat < 256 := (m a).isLt
      have := ih (a + 1)
      unfold load
      rw [Nat.pow_succ]
      omega

/-- A number that was loaded is made up of the bytes that were there. -/
theorem byteOf_load {i : Nat} (m : Memory) (a : Nat) (h : i < n) :
    byteOf (load m a n) i = m (a + i) := by
  induction n generalizing a i with
  | zero => exact absurd h (Nat.not_lt_zero i)
  | succ n ih =>
      have hb : (m a).toNat < 256 := (m a).isLt
      unfold byteOf load
      cases i with
      | zero =>
          refine BitVec.eq_of_toNat_eq ?_
          rw [Nat.pow_zero, Nat.div_one, BitVec.toNat_ofNat, Nat.add_zero a]
          omega
      | succ i =>
          have hdiv : ((m a).toNat + 256 * load m (a + 1) n) / 256 = load m (a + 1) n := by omega
          rw [Nat.pow_succ', ← Nat.div_div_eq_div_mul, hdiv, show a + (i + 1) = a + 1 + i by omega]
          exact ih (a + 1) (by omega)

/-- Two numbers are equal if their bytes are. -/
theorem load_eq_iff :
    load m a n = load m' b n ↔ ∀ i, i < n → m (a + i) = m' (b + i) := by
  constructor
  · intro h i hi
    rw [← byteOf_load m a hi, h, byteOf_load m' b hi]
  · intro h
    induction n generalizing a b with
    | zero => rfl
    | succ n ih =>
        have hrest : load m (a + 1) n = load m' (b + 1) n := by
          refine ih fun i hi => ?_
          have hnext := h (i + 1) (Nat.succ_lt_succ hi)
          rw [Nat.add_right_comm a, Nat.add_right_comm b]
          exact hnext
        unfold load
        rw [hrest, show m a = m' b from h 0 (Nat.succ_pos n)]

-- ==== storing

theorem store_inside {x : Nat} (h1 : a ≤ x) (h2 : x < a + n) :
    store m a n w x = byteOf w (x - a) :=
  if_pos ⟨h1, h2⟩

theorem store_outside {x : Nat} (h : ¬ (a ≤ x ∧ x < a + n)) : store m a n w x = m x :=
  if_neg h

theorem fill_inside {v : Byte} {x : Nat} (h1 : a ≤ x) (h2 : x < a + n) : fill m a n v x = v :=
  if_pos ⟨h1, h2⟩

theorem fill_outside {v : Byte} {x : Nat} (h : ¬ (a ≤ x ∧ x < a + n)) : fill m a n v x = m x :=
  if_neg h

theorem copy_inside {src : Memory} {x : Nat} (h1 : a ≤ x) (h2 : x < a + n) :
    copy m a src b n x = src (b + (x - a)) :=
  if_pos ⟨h1, h2⟩

theorem copy_outside {src : Memory} {x : Nat} (h : ¬ (a ≤ x ∧ x < a + n)) :
    copy m a src b n x = m x :=
  if_neg h

/-- What `memset` changes is in its range. -/
theorem fill_changed {v : Byte} {x : Nat} (h : fill m a n v x ≠ m x) : a ≤ x ∧ x < a + n := by
  by_contra hout
  exact h (fill_outside hout)

/-- And `memcpy`. -/
theorem copy_changed {src : Memory} {x : Nat} (h : copy m a src b n x ≠ m x) :
    a ≤ x ∧ x < a + n := by
  by_contra hout
  exact h (copy_outside hout)

/-- The bytes of a number make it up. -/
theorem load_bytes (h : ∀ i, i < n → m (a + i) = byteOf w i) : load m a n = w % 256 ^ n := by
  induction n generalizing a w with
  | zero => rw [Nat.pow_zero, Nat.mod_one]; rfl
  | succ n ih =>
      have h0 : (m a).toNat = w % 256 := by
        have h00 := h 0 (Nat.succ_pos n)
        rw [Nat.add_zero] at h00
        rw [h00]
        unfold byteOf
        rw [Nat.pow_zero, Nat.div_one]
        exact BitVec.toNat_ofNat w 8
      have hrest : load m (a + 1) n = w / 256 % 256 ^ n := by
        refine ih fun i hi => ?_
        have hi' := h (i + 1) (by omega)
        rw [show a + 1 + i = a + (i + 1) by omega, hi']
        unfold byteOf
        rw [Nat.pow_succ, Nat.mul_comm, Nat.div_div_eq_div_mul]
      unfold load
      rw [h0, hrest, Nat.pow_succ, Nat.mul_comm (256 ^ n), Nat.mod_mul]

/-- A store reads back. -/
theorem load_store_self (m : Memory) (a n w : Nat) : load (store m a n w) a n = w % 256 ^ n := by
  refine load_bytes fun i hi => ?_
  rw [store_inside (by omega) (by omega), show a + i - a = i by omega]

theorem load_store_same (h : w < 256 ^ n) : load (store m a n w) a n = w := by
  rw [load_store_self, Nat.mod_eq_of_lt h]

/-- What is written elsewhere does not matter. -/
theorem load_store_of_apart (h : b + k ≤ a ∨ a + n ≤ b) :
    load (store m a n w) b k = load m b k :=
  load_congr fun x h1 h2 => store_outside (by omega)

-- ==== arrays

/-- The numbers `v 0`, `v 1`, .. in records of `size` bytes. -/
def storeAll (m : Memory) (a size width : Nat) (v : Nat → Nat) (n : Nat) : Memory :=
  (List.range n).foldl (fun m i => store m (a + i * size) width (v i)) m

variable {size width : Nat} {v : Nat → Nat}

theorem storeAll_succ (m : Memory) (a size width : Nat) (v : Nat → Nat) (n : Nat) :
    storeAll m a size width v (n + 1)
      = store (storeAll m a size width v n) (a + n * size) width (v n) := by
  unfold storeAll
  rw [List.range_succ, List.foldl_append]
  rfl

theorem storeAll_outside {x : Nat} (hw : width ≤ size) (h : ¬ (a ≤ x ∧ x < a + n * size)) :
    storeAll m a size width v n x = m x := by
  induction n with
  | zero => rfl
  | succ n ih =>
      have hmul : (n + 1) * size = n * size + size := Nat.succ_mul n size
      rw [storeAll_succ, store_outside (by omega)]
      exact ih (by omega)

/-- Records that do not overlap read back. -/
theorem load_storeAll (hw : width ≤ size) {i : Nat} (hi : i < n) :
    load (storeAll m a size width v n) (a + i * size) width = v i % 256 ^ width := by
  induction n with
  | zero => exact absurd hi (Nat.not_lt_zero i)
  | succ n ih =>
      rw [storeAll_succ]
      by_cases he : i = n
      · rw [he, load_store_self]
      · have hlt : i < n := by omega
        have hmul : (i + 1) * size ≤ n * size := Nat.mul_le_mul_right size hlt
        rw [Nat.succ_mul] at hmul
        rw [load_store_of_apart (Or.inl (by omega))]
        exact ih hlt

end Bytes
