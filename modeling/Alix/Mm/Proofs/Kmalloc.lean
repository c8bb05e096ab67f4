/-
The order search of `kmalloc`.

# What can go wrong

`PAGE_SIZE << order` is an unsigned `int`, and `order` is a byte: the
shifted value is at most 2^31, whatever the order. A size above
`2^31 - 24` is compared with a `total` that nothing reaches, and the call
does not return (`orderLoop_forever`). In the last 24 sizes the addition
of the header wraps, and the loop ends at order 0, with a page for an
object of 2^64 bytes.

# What holds

For every other size the loop ends at the least order whose pages hold the
header and the object, and an order the page allocator does not have is
answered with NULL (`kmalloc_ends_iff`).
-/
import Mathlib.Order.Bounds.Basic
import Alix.Mm.Kheap

namespace Alix.Kheap

variable {total size order : Nat}

-- ==== the loop

/-- The shifted value, while the shift is one. -/
theorem orderBytes_of_lt (h : order < 20) : orderBytes order = PAGE_SIZE * 2 ^ order := by
  have hall : ∀ k, k < 20 → PAGE_SIZE * 2 ^ (k % 32) % 2 ^ 32 = PAGE_SIZE * 2 ^ k := by decide
  exact hall order h

/-- The shifted value never gets further. -/
theorem orderBytes_le (order : Nat) : orderBytes order ≤ 2 ^ 31 := by
  have hall : ∀ k, k < 32 → PAGE_SIZE * 2 ^ k % 2 ^ 32 ≤ 2 ^ 31 := by decide
  exact hall (order % 32) (Nat.mod_lt order (by decide))

/-- A total that the shifted value does not get to is searched for ever. -/
theorem orderLoop_forever (h : 2 ^ 31 < total) (n order : Nat) :
    orderLoop total n order = none := by
  induction n generalizing order with
  | zero => rfl
  | succ n ih =>
      have hlt : orderBytes order < total := Nat.lt_of_le_of_lt (orderBytes_le order) h
      unfold orderLoop
      rw [if_pos hlt]
      exact ih _

/-- The search, from an order below which no run is long enough. -/
theorem orderLoop_from (h : total ≤ 2 ^ 31) {n k : Nat} (hk : k < 20) (hn : 20 ≤ k + n)
    (hbelow : ∀ j, j < k → PAGE_SIZE * 2 ^ j < total) :
    ∃ order, orderLoop total n k = some order ∧ total ≤ PAGE_SIZE * 2 ^ order
      ∧ ∀ j, j < order → PAGE_SIZE * 2 ^ j < total := by
  induction n generalizing k with
  | zero => exact absurd hn (by omega)
  | succ n ih =>
      unfold orderLoop
      rw [orderBytes_of_lt hk]
      by_cases hlt : PAGE_SIZE * 2 ^ k < total
      · -- the last order has room for every total there is left
        have hk' : k ≠ 19 := by
          intro he
          rw [he] at hlt
          exact absurd h (Nat.not_le.mpr hlt)
        rw [if_pos hlt, Nat.mod_eq_of_lt (show k + 1 < 2 ^ 8 by omega)]
        refine ih (by omega) (by omega) fun j hj => ?_
        cases Nat.lt_succ_iff_lt_or_eq.mp hj with
        | inl hj => exact hbelow j hj
        | inr he => rw [he]; exact hlt
      · rw [if_neg hlt]
        exact ⟨k, rfl, Nat.le_of_not_lt hlt, hbelow⟩

/-- A total of at most 2^31 gets its order. -/
theorem orderLoop_spec (h : total ≤ 2 ^ 31) :
    ∃ order, orderLoop total 256 0 = some order ∧ total ≤ PAGE_SIZE * 2 ^ order
      ∧ ∀ j, j < order → PAGE_SIZE * 2 ^ j < total :=
  orderLoop_from h (by decide) (by decide) fun j hj => absurd hj (Nat.not_lt_zero j)

-- ==== the classes

/-- The classes end at 2048 bytes. -/
theorem cacheForSize_none : cacheForSize size = none ↔ 2048 < size := by
  unfold cacheForSize sizeClasses
  rw [List.findIdx?_eq_none_iff]
  constructor
  · intro h
    have h9 : decide (size ≤ 2048) = false := h 2048 (by decide)
    rw [decide_eq_false_iff_not] at h9
    exact Nat.lt_of_not_le h9
  · intro h n hn
    have hle : n ≤ 2048 := by
      have hall : ∀ n ∈ [8, 16, 32, 64, 128, 256, 512, 1024, 2048], n ≤ 2048 := by decide
      exact hall n hn
    show decide (size ≤ n) = false
    rw [decide_eq_false_iff_not]
    omega

/-- With an order, a large allocation returns; past the last order of the
page allocator, with NULL. -/
theorem largeAlloc_of_order (s : Kheap)
    (h : orderLoop ((size + sizeofLargeHdr) % 2 ^ 64) 256 0 = some order) :
    (∃ r, s.largeAlloc size = .ok r)
      ∧ (PMM_MAX_ORDER ≤ order → s.largeAlloc size = .ok (s, 0)) := by
  unfold largeAlloc
  rw [h]
  by_cases hmax : order ≥ PMM_MAX_ORDER
  · simp only [hmax, if_true]
    exact ⟨⟨_, rfl⟩, fun _ => trivial⟩
  · simp only [hmax, if_false]
    refine ⟨?_, fun hle => hle.elim⟩
    cases s.pmm.pmmAlloc order with
    | none => exact ⟨_, rfl⟩
    | some r => exact ⟨_, rfl⟩

/-- `kmalloc` returns what it found, and counts it. -/
theorem kmalloc_of_ptr {s t : Kheap} {p : Nat} (h0 : size ≠ 0)
    (h : s.allocPtr size = .ok (t, p)) :
    s.kmalloc size = .ok
      (if p ≠ 0 then { t with totalAllocCount := t.totalAllocCount + 1 } else t, p) := by
  unfold kmalloc
  rw [if_neg h0, h]

/-- A call that finds something to return returns. -/
theorem kmalloc_returns {s : Kheap} (h : ∃ r, s.allocPtr size = .ok r) :
    ∃ r, s.kmalloc size = .ok r := by
  obtain ⟨⟨t, p⟩, hr⟩ := h
  by_cases h0 : size = 0
  · exact ⟨(s, 0), by unfold kmalloc; rw [if_pos h0]⟩
  · exact ⟨_, kmalloc_of_ptr h0 hr⟩

theorem allocPtr_small (s : Kheap) {c : Nat} (h : cacheForSize size = some c) :
    s.allocPtr size = .ok (s.slabAlloc c) := by
  unfold allocPtr
  rw [h]

theorem allocPtr_large (s : Kheap) (h : cacheForSize size = none) :
    s.allocPtr size = s.largeAlloc size := by
  unfold allocPtr
  rw [h]

-- ==== the statement

/-- The least order whose pages hold the header and the object. -/
def OrderFor (size order : Nat) : Prop :=
  IsLeast (fun o => size + sizeofLargeHdr ≤ PAGE_SIZE * 2 ^ o) order

/-- The call returns; where it searches for an order, the search ends with
the least one, and if that is not one of the page allocator's, the call
returns NULL. -/
structure Ends (s : Kheap) (size : Nat) : Prop where
  returns : ∃ r, s.kmalloc size = .ok r
  least : cacheForSize size = none →
    ∃ order, orderLoop ((size + sizeofLargeHdr) % 2 ^ 64) 256 0 = some order
      ∧ OrderFor size order
  refused : ∀ order, OrderFor size order → PMM_MAX_ORDER ≤ order → s.kmalloc size = .ok (s, 0)

theorem OrderFor.unique {o : Nat} (h : OrderFor size order) (h' : OrderFor size o) :
    order = o :=
  IsLeast.unique h h'

theorem orderFor_of_search (h : size + sizeofLargeHdr ≤ PAGE_SIZE * 2 ^ order)
    (hleast : ∀ j, j < order → PAGE_SIZE * 2 ^ j < size + sizeofLargeHdr) :
    OrderFor size order := by
  refine ⟨h, fun o ho => ?_⟩
  by_contra hlt
  exact absurd ho (Nat.not_le.mpr (hleast o (Nat.lt_of_not_le hlt)))

/-- The search of a size that is not too large. -/
theorem order_found (h : size ≤ 2 ^ 31 - 24) :
    ∃ order, orderLoop ((size + sizeofLargeHdr) % 2 ^ 64) 256 0 = some order
      ∧ OrderFor size order := by
  rw [Nat.mod_eq_of_lt (show size + 24 < 2 ^ 64 by omega)]
  obtain ⟨order, hloop, hfits, hleast⟩ :=
    orderLoop_spec (show size + 24 ≤ 2 ^ 31 by omega)
  exact ⟨order, hloop, orderFor_of_search hfits hleast⟩

/-- A wrapped total is found in page 0 of the search. -/
theorem order_wrapped (hlow : 2 ^ 64 - 24 ≤ size) (hsize : size < 2 ^ 64) :
    orderLoop ((size + sizeofLargeHdr) % 2 ^ 64) 256 0 = some 0 := by
  have hsmall : (size + 24) % 2 ^ 64 < 24 := by omega
  unfold orderLoop
  refine if_neg (Nat.not_lt.mpr ?_)
  have h0 : orderBytes 0 = 4096 := by decide
  rw [h0]
  exact Nat.le_trans (Nat.le_of_lt hsmall) (by omega)

/-- `kmalloc` meets the size it is asked for up to `2^31 - 24` bytes. -/
theorem kmalloc_ends_iff (s : Kheap) (size : Nat) (hsize : size < 2 ^ 64) :
    Ends s size ↔ size ≤ 2 ^ 31 - 24 := by
  constructor
  · intro h
    by_contra hbig
    obtain ⟨order, hloop, hfits, _⟩ := h.least (cacheForSize_none.mpr (by omega))
    by_cases hwrap : 2 ^ 64 - 24 ≤ size
    · have h0 : order = 0 := by
        rw [order_wrapped hwrap hsize] at hloop
        exact (Option.some.inj hloop).symm
      rw [h0] at hfits
      have hfits' : size + 24 ≤ 4096 := hfits
      omega
    · have htotal : 2 ^ 31 < (size + sizeofLargeHdr) % 2 ^ 64 := by
        rw [Nat.mod_eq_of_lt (show size + 24 < 2 ^ 64 by omega)]
        exact (by omega : 2 ^ 31 < size + 24)
      rw [orderLoop_forever htotal] at hloop
      cases hloop
  · intro h
    obtain ⟨order, hloop, hfor⟩ := order_found h
    cases hcache : cacheForSize size with
    | some c =>
        have hle : size ≤ 2048 := by
          by_contra hgt
          rw [cacheForSize_none.mpr (by omega)] at hcache
          cases hcache
        refine ⟨kmalloc_returns ⟨_, allocPtr_small s hcache⟩, fun hnone => ?_, ?_⟩
        · rw [hcache] at hnone
          cases hnone
        · -- a small size needs one page
          intro o ho hmax
          have h0 : o ≤ 0 := ho.2 (show size + 24 ≤ 4096 * 2 ^ 0 by omega)
          have h11 : 11 ≤ o := hmax
          omega
    | none =>
        have hgt := cacheForSize_none.mp hcache
        obtain ⟨hret, hnull⟩ := largeAlloc_of_order s hloop
        rw [← allocPtr_large s hcache] at hret hnull
        refine ⟨kmalloc_returns hret, fun _ => ⟨order, hloop, hfor⟩, fun o ho hmax => ?_⟩
        rw [kmalloc_of_ptr (by omega) (hnull (by rw [hfor.unique ho]; exact hmax))]
        rfl

/-- 64 KiB are found. -/
theorem kmalloc_ends_bootHeap : Ends bootHeap 65536 :=
  (kmalloc_ends_iff bootHeap 65536 (by omega)).mpr (by omega)

/-- 2 GiB are searched for without end. -/
theorem kmalloc_two_gib :
    bootHeap.kmalloc (2 ^ 31) = .error .diverges ∧ ¬ Ends bootHeap (2 ^ 31) := by
  have hdiv : bootHeap.kmalloc (2 ^ 31) = .error .diverges := by
    have hloop : orderLoop ((2 ^ 31 + sizeofLargeHdr) % 2 ^ 64) 256 0 = none :=
      orderLoop_forever (by decide) 256 0
    unfold kmalloc
    rw [if_neg (by decide), allocPtr_large bootHeap (cacheForSize_none.mpr (by decide))]
    unfold largeAlloc
    rw [hloop]
  refine ⟨hdiv, fun h => ?_⟩
  obtain ⟨r, hr⟩ := h.returns
  rw [hdiv] at hr
  cases hr

end Alix.Kheap
