/-
The page descriptor of `mm/page.h` and the page arithmetic every other
memory module uses.

A `page_t *` is a PFN here: the database is one array `mem_map`, so a
descriptor's address and its index determine each other
(`pfndb_getptr`, `pfndb_getpfn`). Flag words keep their 64 bits, because
the allocator reads flags that earlier owners of a page left behind and
the proofs are about exactly which bits survive. Addresses are naturals
below `2^64`; a place where the C arithmetic wraps says so with an
explicit `% 2^64`.
-/
import Mathlib.Algebra.Group.Nat.Defs
import Mathlib.Data.Nat.Basic
import Mathlib.Logic.Function.Basic
import Alix.Lib.Dll

namespace Alix

-- ==== page arithmetic

/-- `PAGE_SIZE`. -/
abbrev PAGE_SIZE : Nat := 4096

/-- `PAGE_ALIGN_DOWN`: clearing the low twelve bits of a 64-bit word. -/
def pageAlignDown (x : Nat) : Nat := x / PAGE_SIZE * PAGE_SIZE

/-- `PAGE_ALIGN_UP`: the addition happens in 64 bits and may wrap. -/
def pageAlignUp (x : Nat) : Nat :=
  pageAlignDown ((x + PAGE_SIZE - 1) % 2 ^ 64)

theorem pageAlignDown_le (x : Nat) : pageAlignDown x ≤ x :=
  Nat.div_mul_le_self x PAGE_SIZE

theorem pageAlignDown_mod (x : Nat) : pageAlignDown x % PAGE_SIZE = 0 :=
  Nat.mul_mod_left _ _

theorem pageAlignUp_mod (x : Nat) : pageAlignUp x % PAGE_SIZE = 0 :=
  pageAlignDown_mod _

theorem pageAlignUp_lt (x : Nat) : pageAlignUp x < 2 ^ 64 :=
  Nat.lt_of_le_of_lt (pageAlignDown_le _) (Nat.mod_lt _ (by decide))

theorem pageAlignUp_of_aligned {x : Nat} (h : x % PAGE_SIZE = 0)
    (hx : x < 2 ^ 64) : pageAlignUp x = x := by
  have hs : PAGE_SIZE = 4096 := rfl
  unfold pageAlignUp pageAlignDown
  rw [hs] at h ⊢
  omega

theorem pageAlignUp_pos {x : Nat} (h : x ≠ 0) (hx : x ≤ 2 ^ 64 - PAGE_SIZE) :
    0 < pageAlignUp x := by
  have hs : PAGE_SIZE = 4096 := rfl
  unfold pageAlignUp pageAlignDown
  rw [hs] at hx ⊢
  omega

/-- Rounding up, where the addition does not wrap. -/
theorem pageAlignUp_spec {x : Nat} (h : x + PAGE_SIZE - 1 < 2 ^ 64) :
    x ≤ pageAlignUp x ∧ pageAlignUp x < x + PAGE_SIZE ∧ PAGE_SIZE ∣ pageAlignUp x := by
  have hs : PAGE_SIZE = 4096 := rfl
  unfold pageAlignUp pageAlignDown
  rw [Nat.mod_eq_of_lt h]
  rw [hs] at h ⊢
  refine ⟨?_, ?_, Nat.dvd_mul_left _ _⟩ <;> omega

/-- `PFN_PHYS`. -/
def pfnPhys (pfn : Nat) : Nat := pfn * PAGE_SIZE

/-- `PHYS_PFN`. -/
def physPfn (phys : Nat) : Nat := phys / PAGE_SIZE

-- ==== flags

/-- `_PAGE_BIT`: the mask of one flag. -/
def pageBit (n : Nat) : BitVec 64 := 1#64 <<< n

abbrev PAGE_FREE : BitVec 64 := pageBit 0
abbrev PAGE_USED : BitVec 64 := pageBit 1
abbrev PAGE_RESERVED : BitVec 64 := pageBit 2
abbrev PAGE_COW : BitVec 64 := pageBit 4
abbrev PAGE_POISON : BitVec 64 := pageBit 5
abbrev PAGE_SLAB : BitVec 64 := pageBit 6
abbrev PAGE_LARGE_HEAD : BitVec 64 := pageBit 10
abbrev PAGE_LARGE_BODY : BitVec 64 := pageBit 11

/-- The C test `w & f`, as a truth value. -/
def hasFlag (w f : BitVec 64) : Bool := w &&& f != 0

theorem getLsbD_pageBit (n i : Nat) :
    (pageBit n).getLsbD i = (decide (i < 64) && decide (n = i)) := by
  unfold pageBit
  rw [BitVec.getLsbD_shiftLeft]
  by_cases hlt : i < n
  · have : n ≠ i := by omega
    simp [hlt, this]
  · by_cases he : n = i
    · subst he
      simp
    · have hpos : 0 < i - n := by omega
      have hne : i - n ≠ 0 := by omega
      simp [he, hne]

/-- Testing one bit reads that bit. -/
theorem hasFlag_pageBit (w : BitVec 64) {n : Nat} (hn : n < 64) :
    hasFlag w (pageBit n) = w.getLsbD n := by
  unfold hasFlag
  rw [Bool.eq_iff_iff, bne_iff_ne]
  constructor
  · intro hne
    by_contra hbit
    apply hne
    apply BitVec.eq_of_getLsbD_eq
    intro i hi
    rw [BitVec.getLsbD_and, getLsbD_pageBit]
    by_cases he : n = i
    · subst he
      simp [hbit]
    · simp [he]
  · intro hbit h0
    have : (w &&& pageBit n).getLsbD n = (0 : BitVec 64).getLsbD n := by
      rw [h0]
    rw [BitVec.getLsbD_and, getLsbD_pageBit, hbit] at this
    simp [hn] at this

/-- `w | v` has a flag that either word has. -/
theorem hasFlag_or (w v f : BitVec 64) :
    hasFlag (w ||| v) f = (hasFlag w f || hasFlag v f) := by
  unfold hasFlag
  rw [Bool.eq_iff_iff]
  simp only [bne_iff_ne, Bool.or_eq_true, ne_eq]
  rw [show (w ||| v) &&& f = (w &&& f) ||| (v &&& f) by
    apply BitVec.eq_of_getLsbD_eq
    intro i _
    simp [Bool.and_or_distrib_right]]
  constructor
  · intro h
    by_contra hc
    push Not at hc
    exact h (by rw [hc.1, hc.2]; rfl)
  · intro h hc
    have hbits : ∀ i, ((w &&& f).getLsbD i || (v &&& f).getLsbD i) = false := by
      intro i
      have := congrArg (fun x => BitVec.getLsbD x i) hc
      simpa using this
    rcases h with h | h
    · apply h
      apply BitVec.eq_of_getLsbD_eq
      intro i _
      have := hbits i
      simp only [Bool.or_eq_false_iff] at this
      simp [this.1]
    · apply h
      apply BitVec.eq_of_getLsbD_eq
      intro i _
      have := hbits i
      simp only [Bool.or_eq_false_iff] at this
      simp [this.2]

/-- `w & ~v` keeps a one-bit flag that `v` does not name. -/
theorem hasFlag_clear (w v : BitVec 64) {n : Nat} (hn : n < 64) :
    hasFlag (w &&& ~~~v) (pageBit n)
      = (hasFlag w (pageBit n) && !hasFlag v (pageBit n)) := by
  rw [hasFlag_pageBit _ hn, hasFlag_pageBit _ hn, hasFlag_pageBit _ hn]
  simp [hn]

-- ==== page descriptors

/-- `page_t`. The `atomic_int` of the source holds the count as long as it is
below `2^31`; the results about runs that take references bound them. -/
structure Page where
  next : Option Nat
  prev : Option Nat
  refcount : Int
  order : Nat
  flags : BitVec 64
  priv : Nat

namespace Page

def free (p : Page) : Bool := hasFlag p.flags PAGE_FREE
def used (p : Page) : Bool := hasFlag p.flags PAGE_USED
def reserved (p : Page) : Bool := hasFlag p.flags PAGE_RESERVED
def cow (p : Page) : Bool := hasFlag p.flags PAGE_COW
def poisoned (p : Page) : Bool := hasFlag p.flags PAGE_POISON
def slab (p : Page) : Bool := hasFlag p.flags PAGE_SLAB

/-- `SetPageFlag`. -/
def setFlag (f : BitVec 64) (p : Page) : Page :=
  { p with flags := p.flags ||| f }

/-- `ClearPageFlag`. -/
def clearFlag (f : BitVec 64) (p : Page) : Page :=
  { p with flags := p.flags &&& ~~~f }

theorem free_eq (p : Page) : p.free = p.flags.getLsbD 0 :=
  hasFlag_pageBit _ (by decide)

theorem used_eq (p : Page) : p.used = p.flags.getLsbD 1 :=
  hasFlag_pageBit _ (by decide)

theorem reserved_eq (p : Page) : p.reserved = p.flags.getLsbD 2 :=
  hasFlag_pageBit _ (by decide)

theorem poisoned_eq (p : Page) : p.poisoned = p.flags.getLsbD 5 :=
  hasFlag_pageBit _ (by decide)

/-- Everything of a descriptor but its list links. -/
def data (p : Page) : Int × Nat × BitVec 64 × Nat :=
  (p.refcount, p.order, p.flags, p.priv)

theorem data_eq_iff {p q : Page} :
    p.data = q.data ↔ p.refcount = q.refcount ∧ p.order = q.order
      ∧ p.flags = q.flags ∧ p.priv = q.priv := by
  simp [data]

/-- The merge test reads the data only. -/
theorem data_tests {p q : Page} (h : p.data = q.data) :
    p.free = q.free ∧ p.order = q.order := by
  obtain ⟨-, ho, hf, -⟩ := data_eq_iff.mp h
  exact ⟨by rw [free, free, hf], ho⟩

end Page

end Alix
