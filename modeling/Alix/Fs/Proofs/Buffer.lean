/-
The calls on a file buffer.

# What can go wrong

The capacity doubles in 64 bits. A size above `2^63` is past the last
power of two, and the loop of `tmpfs_resize_node` goes on with capacity 0
for ever (`resize_grows_iff`).

The end of a write is `offset + size` in 64 bits, and the end is what is
compared with the capacity. A write that starts near `2^64` has a small
end, and `memcpy` starts below the buffer (`tmpfsWrite_safe_iff`).

# What holds

The file owns its buffer: it is a live allocation of the heap as long as
the capacity, which is 0 or a power of two, and the file is not longer
(`Owns`). A resize keeps the bytes and puts zeros behind them
(`Resized`), a write whose end does not wrap puts its bytes there
(`Wrote`), and the other allocations of the heap do not see it
(`Spared`). A call that fails has not changed anything
(`tmpfsWrite_error`).
-/
import Alix.Fs.Buffer
import Alix.Fs.Proofs.Tmpfs
import Alix.Mm.Proofs.Payload

namespace Alix.FileState

open Bytes (Byte Memory fill)
open Dyadic (Block)
open Kheap (Kept SameBytes NoRoom released MayFree mem_released)
open Tmpfs (growLoop le_growLoop tmpfsMinSize)

variable {maxPfn : Nat} {usable : Nat → Bool} {s s' : FileState}
  {live live' : List (Nat × Nat)} {others : List Block} {capacity size c n : Nat} {rc : Int}

-- ==== the loop

/-- In so many rounds the loop sees so many shifted capacities. -/
theorem growLoop_isSome_iff (hcap : capacity < 2 ^ 64) :
    (growLoop n capacity size).isSome ↔ ∃ k, k < n ∧ size ≤ capacity * 2 ^ k % 2 ^ 64 := by
  induction n generalizing capacity with
  | zero => simp [growLoop]
  | succ n ih =>
      rw [growLoop]
      by_cases hlt : capacity < size
      · have hshift : ∀ k, capacity * 2 % 2 ^ 64 * 2 ^ k % 2 ^ 64
            = capacity * 2 ^ (k + 1) % 2 ^ 64 := by
          intro k
          rw [Nat.mod_mul_mod, Nat.mul_assoc, ← Nat.pow_succ']
        rw [if_pos hlt, ih (Nat.mod_lt _ (by omega))]
        constructor
        · intro hk
          obtain ⟨k, hk, hle⟩ := hk
          exact ⟨k + 1, by omega, by rwa [← hshift]⟩
        · intro hk
          obtain ⟨k, hk, hle⟩ := hk
          cases k with
          | zero =>
              rw [Nat.pow_zero, Nat.mul_one, Nat.mod_eq_of_lt hcap] at hle
              omega
          | succ k => exact ⟨k, by omega, by rwa [hshift]⟩
      · rw [if_neg hlt, Option.isSome_some]
        refine iff_of_true rfl ⟨0, Nat.succ_pos n, ?_⟩
        rw [Nat.pow_zero, Nat.mul_one, Nat.mod_eq_of_lt hcap]
        omega

/-- After 64 rounds it has seen all there are. -/
theorem growLoop_ends (hcap : capacity < 2 ^ 64) :
    (growLoop 66 capacity size).isSome ↔ ∃ k, size ≤ capacity * 2 ^ k % 2 ^ 64 := by
  rw [growLoop_isSome_iff hcap]
  constructor
  · intro h
    obtain ⟨k, -, hle⟩ := h
    exact ⟨k, hle⟩
  · intro h
    obtain ⟨k, hle⟩ := h
    by_cases hk : k < 66
    · exact ⟨k, hk, hle⟩
    · have hzero : capacity * 2 ^ k % 2 ^ 64 = 0 := by
        refine Nat.mod_eq_zero_of_dvd (Nat.dvd_mul_left_of_dvd ?_ _)
        exact Nat.pow_dvd_pow 2 (by omega)
      exact ⟨0, by omega, by omega⟩

/-- A capacity that the code makes. -/
def Doubled (capacity : Nat) : Prop := capacity = 0 ∨ ∃ k, capacity = 2 ^ k

theorem pow_lt_iff {k : Nat} : 2 ^ k < 2 ^ 64 ↔ k < 64 := Nat.pow_lt_pow_iff_right (by omega)

/-- A power of two does not get past `2^63`. -/
theorem shift_ends {j : Nat} (hj : 2 ^ j < 2 ^ 64) :
    (∃ k, size ≤ 2 ^ j * 2 ^ k % 2 ^ 64) ↔ size ≤ 2 ^ 63 := by
  have hj' := pow_lt_iff.mp hj
  constructor
  · intro h
    obtain ⟨k, hle⟩ := h
    rw [← Nat.pow_add] at hle
    by_cases hk : j + k < 64
    · rw [Nat.mod_eq_of_lt (pow_lt_iff.mpr hk)] at hle
      exact Nat.le_trans hle (Nat.pow_le_pow_right (by omega) (by omega))
    · rw [Nat.mod_eq_zero_of_dvd (Nat.pow_dvd_pow 2 (by omega))] at hle
      omega
  · intro h
    refine ⟨63 - j, ?_⟩
    rw [← Nat.pow_add, show j + (63 - j) = 63 by omega]
    omega

theorem Doubled.start {node : FileNode} (h : Doubled node.capacity) (hcap : node.capacity < 2 ^ 64) :
    ∃ j, startCapacity node = 2 ^ j ∧ 2 ^ j < 2 ^ 64 := by
  unfold startCapacity
  cases h with
  | inl h0 => exact ⟨6, if_neg (not_not.mpr h0), by omega⟩
  | inr hk =>
      obtain ⟨k, hk⟩ := hk
      have hpos := Nat.two_pow_pos k
      exact ⟨k, by rw [if_pos (by omega)]; exact hk, by omega⟩

theorem startCapacity_lt {node : FileNode} (hcap : node.capacity < 2 ^ 64) :
    startCapacity node < 2 ^ 64 := by
  unfold startCapacity
  split
  · exact hcap
  · omega

/-- The first of the doubled capacities that is enough. -/
def LeastDoubling (start size c : Nat) : Prop :=
  ∃ k, c = start * 2 ^ k ∧ size ≤ c ∧ ∀ i, i < k → start * 2 ^ i < size

theorem LeastDoubling.unique {start c' : Nat} (h : LeastDoubling start size c)
    (h' : LeastDoubling start size c') : c = c' := by
  obtain ⟨k, rfl, hle, hbelow⟩ := h
  obtain ⟨k', rfl, hle', hbelow'⟩ := h'
  have h1 : ¬ k < k' := fun hlt => absurd hle (Nat.not_le.mpr (hbelow' k hlt))
  have h2 : ¬ k' < k := fun hlt => absurd hle' (Nat.not_le.mpr (hbelow k' hlt))
  rw [show k = k' by omega]

/-- Up to `2^63` no bit is shifted out. -/
theorem growLoop_least (hsize : size ≤ 2 ^ 63) (h : growLoop n capacity size = some c) :
    LeastDoubling capacity size c := by
  induction n generalizing capacity with
  | zero => cases h
  | succ n ih =>
      rw [growLoop] at h
      split at h
      · rename_i hlt
        rw [Nat.mod_eq_of_lt (show capacity * 2 < 2 ^ 64 by omega)] at h
        obtain ⟨k, hc, hle, hbelow⟩ := ih h
        have hshift : ∀ i, capacity * 2 * 2 ^ i = capacity * 2 ^ (i + 1) := by
          intro i
          rw [Nat.mul_assoc, ← Nat.pow_succ']
        refine ⟨k + 1, by rw [← hshift]; exact hc, hle, fun i hi => ?_⟩
        cases i with
        | zero => rwa [Nat.pow_zero, Nat.mul_one]
        | succ i =>
            rw [← hshift]
            exact hbelow i (by omega)
      · cases h
        refine ⟨0, by rw [Nat.pow_zero, Nat.mul_one], by omega, fun i hi => ?_⟩
        exact absurd hi (Nat.not_lt_zero i)

/-- The capacity of a buffer that grows. -/
theorem Doubled.grow {node : FileNode} (h : Doubled node.capacity) (hcap : node.capacity < 2 ^ 64)
    (hgrow : growLoop 66 (startCapacity node) size = some c) :
    LeastDoubling (startCapacity node) size c ∧ (∃ k, c = 2 ^ k) ∧ c ≤ 2 ^ 63 := by
  obtain ⟨j, hj, hlt⟩ := h.start hcap
  have hends : (growLoop 66 (startCapacity node) size).isSome := by
    rw [hgrow]
    rfl
  rw [growLoop_ends (startCapacity_lt hcap), hj] at hends
  have hsize := (shift_ends hlt).mp hends
  have hleast := growLoop_least hsize hgrow
  refine ⟨hleast, ?_⟩
  obtain ⟨k, hc, -, hbelow⟩ := hleast
  rw [hj, ← Nat.pow_add] at hc
  refine ⟨⟨j + k, hc⟩, ?_⟩
  have hexp : j + k < 64 := by
    cases k with
    | zero => exact pow_lt_iff.mp hlt
    | succ k =>
        have hlast := hbelow k (by omega)
        rw [hj, ← Nat.pow_add] at hlast
        have hk : j + k < 63 := by
          rw [← Nat.pow_lt_pow_iff_right (show 1 < 2 by omega)]
          omega
        omega
  rw [hc]
  exact Nat.pow_le_pow_right (by omega) (by omega)

-- ==== resizing

/-- A resize whose loop goes on for ever. -/
theorem resizeNode_diverges (s : FileState) (h : s.node.capacity < size)
    (hgrow : growLoop 66 (startCapacity s.node) size = none) :
    s.resizeNode size = .error .diverges := by
  unfold resizeNode
  rw [if_neg (by omega), hgrow]

/-- The loop of `tmpfs_resize_node` ends with a capacity that is enough, or
the call returns an error. -/
def Grows (s : FileState) (size : Nat) : Prop :=
  (∃ rounds c, growLoop rounds (startCapacity s.node) size = some c ∧ size ≤ c)
    ∨ ∃ s' rc, s.resizeNode size = .ok (s', rc) ∧ rc ≠ 0

theorem grows_iff_ends (hcap : s.node.capacity < 2 ^ 64) :
    s.Grows size ↔ ∃ k, size ≤ startCapacity s.node * 2 ^ k % 2 ^ 64 := by
  have hstart := startCapacity_lt hcap
  constructor
  · intro h
    cases h with
    | inl h =>
        obtain ⟨rounds, c, hgrow, -⟩ := h
        obtain ⟨k, -, hle⟩ := (growLoop_isSome_iff (n := rounds) hstart).mp (by rw [hgrow]; rfl)
        exact ⟨k, hle⟩
    | inr h =>
        -- an error comes from the heap, after the loop
        obtain ⟨s', rc, hres, hrc⟩ := h
        rw [← growLoop_ends hstart]
        by_contra hnone
        rw [Option.not_isSome_iff_eq_none] at hnone
        by_cases hle : size ≤ s.node.capacity
        · unfold resizeNode at hres
          rw [if_pos hle] at hres
          cases hres
          exact hrc rfl
        · rw [resizeNode_diverges s (by omega) hnone] at hres
          cases hres
  · intro h
    rw [← growLoop_ends hstart, Option.isSome_iff_exists] at h
    obtain ⟨c, hgrow⟩ := h
    exact Or.inl ⟨66, c, hgrow, le_growLoop hgrow⟩

-- ==== the ownership

/-- The buffer of a file is an allocation as long as the capacity, and the
file ends in it. -/
structure Owns (live : List (Nat × Nat)) (node : FileNode) : Prop where
  fits : node.size ≤ node.capacity
  doubled : Doubled node.capacity
  buffer : (node.data = 0 ∧ node.capacity = 0) ∨ (node.data, node.capacity) ∈ live

/-- A file in a heap that is in order. -/
structure Sound (maxPfn : Nat) (usable : Nat → Bool) (s : FileState) (live : List (Nat × Nat))
    (others : List Block) : Prop where
  heap : Kept maxPfn usable s.heap live others
  owns : Owns live s.node

theorem Sound.mayFree (h : Sound maxPfn usable s live others) : MayFree live s.node.data := by
  cases h.owns.buffer with
  | inl h0 => exact Or.inl h0.1
  | inr hx => exact Or.inr ⟨_, hx⟩

theorem Sound.bounds (h : Sound maxPfn usable s live others) :
    s.node.data + s.node.capacity ≤ 2 ^ 64 ∧ s.node.capacity ≤ 2 ^ 22 := by
  cases h.owns.buffer with
  | inl h0 => omega
  | inr hx => exact h.heap.live_bounds hx

theorem Sound.data_pos (h : Sound maxPfn usable s live others) (hsize : s.node.size ≠ 0) :
    0 < s.node.data := by
  have hfits := h.owns.fits
  cases h.owns.buffer with
  | inl h0 => omega
  | inr hx => exact Nat.pos_of_ne_zero (h.heap.not_null hx)

/-- Another allocation is not in the buffer. -/
theorem Sound.apart (h : Sound maxPfn usable s live others) {y m : Nat} (hy : (y, m) ∈ live)
    (hne : y ≠ s.node.data) :
    y + m ≤ s.node.data ∨ s.node.data + s.node.capacity ≤ y := by
  cases h.owns.buffer with
  | inl h0 => omega
  | inr hx =>
      obtain ⟨⟨G, ref, hinv⟩, -⟩ := h.heap
      exact hinv.live_apart hy hx hne

/-- The buffer may be written. -/
theorem Sound.write (h : Sound maxPfn usable s live others) {mem : Memory}
    (hm : ∀ a, mem a ≠ s.heap.mem a → s.node.data ≤ a ∧ a < s.node.data + s.node.capacity) :
    Kept maxPfn usable { s.heap with mem } live others := by
  cases h.owns.buffer with
  | inl h0 =>
      have hsame : mem = s.heap.mem := by
        funext a
        by_contra hne
        have hin := hm a hne
        omega
      rw [hsame]
      exact h.heap
  | inr hx => exact h.heap.write hx hm

-- ==== what a resize does

/-- The live allocations after a call: a buffer that has moved is another
one. -/
def liveAfter (live : List (Nat × Nat)) (s s' : FileState) : List (Nat × Nat) :=
  if s'.node.data = s.node.data then live
  else (s'.node.data, s'.node.capacity) :: released live s.node.data

theorem liveAfter_same (live : List (Nat × Nat)) (h : s'.node.data = s.node.data) :
    liveAfter live s s' = live :=
  if_pos h

/-- The other allocations are as they were, and live. -/
def Spared (live : List (Nat × Nat)) (s s' : FileState) : Prop :=
  ∀ y m, (y, m) ∈ live → y ≠ s.node.data → (y, m) ∈ liveAfter live s s' ∧ y ≠ s'.node.data
    ∧ ∀ a, y ≤ a → a < y + m → s'.heap.mem a = s.heap.mem a

/-- The file has another size; it has the bytes it had, then zeros. -/
structure Resized (s s' : FileState) (live : List (Nat × Nat)) (size : Nat) : Prop where
  size_eq : s'.node.size = size
  bytes : ∀ i, i < size → s'.heap.mem (s'.node.data + i)
    = if i < s.node.size then s.heap.mem (s.node.data + i) else 0
  spared : Spared live s s'

/-- In the buffer that is there. -/
theorem resizeNode_inside (s : FileState) (h : size ≤ s.node.capacity) :
    s.resizeNode size = .ok ((if size > s.node.size then
        s.clear (s.node.data + s.node.size) (size - s.node.size) else s).setSize size, 0) :=
  if_pos h

theorem Sound.resize_inside (h : Sound maxPfn usable s live others)
    (hsize : size ≤ s.node.capacity) (hs : s.resizeNode size = .ok (s', rc)) :
    rc = 0 ∧ Sound maxPfn usable s' (liveAfter live s s') others ∧ Resized s s' live size := by
  rw [resizeNode_inside s hsize] at hs
  obtain ⟨hst, hrc⟩ := Prod.mk.inj (Except.ok.inj hs)
  refine ⟨hrc.symm, ?_⟩
  rw [← hst]
  have hfits := h.owns.fits
  split
  · -- the bytes from the old end to the new one
    rename_i hgt
    have hlive : liveAfter live s ((s.clear (s.node.data + s.node.size)
        (size - s.node.size)).setSize size) = live := liveAfter_same live rfl
    rw [hlive]
    refine ⟨⟨h.write fun a ha => ?_, hsize, h.owns.doubled, h.owns.buffer⟩, rfl, fun i hi => ?_,
      fun y m hy hne => ⟨by rw [hlive]; exact hy, hne, fun a h1 h2 => ?_⟩⟩
    · have hin := Bytes.fill_changed ha
      omega
    · show fill s.heap.mem _ _ 0 (s.node.data + i) = _
      split
      · exact Bytes.fill_outside (by omega)
      · exact Bytes.fill_inside (by omega) (by omega)
    · have hapart := h.apart hy hne
      exact Bytes.fill_outside (by omega)
  · have hlive : liveAfter live s (s.setSize size) = live := liveAfter_same live rfl
    rw [hlive]
    refine ⟨⟨h.heap, hsize, h.owns.doubled, h.owns.buffer⟩, rfl, fun i hi => ?_,
      fun y m hy hne => ⟨by rw [hlive]; exact hy, hne, fun a h1 h2 => rfl⟩⟩
    rw [if_pos (by omega)]
    rfl

/-- The file in a new buffer of capacity `c` at `p`. -/
def grown (s : FileState) (heap : Kheap) (p c size : Nat) : FileState :=
  FileState.setSize
    { s with
      heap := { heap with
        mem := fill (fill heap.mem (p + s.node.capacity) (c - s.node.capacity) 0)
          (p + s.node.size) (size - s.node.size) 0 }
      node := { s.node with data := p, capacity := c } } size

theorem resizeNode_grown (hfits : s.node.size ≤ s.node.capacity) (hsize : s.node.capacity < size)
    (hgrow : growLoop 66 (startCapacity s.node) size = some c) {heap : Kheap} {p : Nat}
    (hk : s.heap.krealloc s.node.data c = .ok (heap, p)) :
    s.resizeNode size
      = .ok (if p = 0 then ({ s with heap }, -1) else (s.grown heap p c size, 0)) := by
  have hc := le_growLoop hgrow
  unfold resizeNode
  rw [if_neg (by omega), hgrow]
  dsimp only
  rw [hk]
  dsimp only
  have hlonger : size > s.node.size := by omega
  split
  · rfl
  · rw [if_pos (show c > s.node.capacity by omega)]
    simp only [clear, hlonger, if_true]
    rfl

/-- A resize past the capacity: the buffer moves. -/
theorem Sound.resize_grown (h : Sound maxPfn usable s live others)
    (hsize : s.node.capacity < size) (hs : s.resizeNode size = .ok (s', rc)) :
    (rc = -1 ∧ s' = s) ∨ (rc = 0 ∧ Sound maxPfn usable s' (liveAfter live s s') others
      ∧ Resized s s' live size) := by
  have hfits := h.owns.fits
  have hbounds := h.bounds
  cases hgrow : growLoop 66 (startCapacity s.node) size with
  | none =>
      rw [resizeNode_diverges s hsize hgrow] at hs
      cases hs
  | some c =>
      obtain ⟨-, hpow, hmax⟩ := h.owns.doubled.grow (by omega) hgrow
      have hc := le_growLoop hgrow
      cases hk : s.heap.krealloc s.node.data c with
      | error e =>
          unfold resizeNode at hs
          rw [if_neg (by omega), hgrow] at hs
          dsimp only at hs
          rw [hk] at hs
          cases hs
      | ok r =>
          obtain ⟨heap, p⟩ := r
          rw [resizeNode_grown hfits hsize hgrow hk] at hs
          have hs' := Except.ok.inj hs
          cases h.heap.krealloc_bytes h.mayFree (by omega) (by omega) hk with
          | inl hz =>
              rw [if_pos hz.1, hz.2] at hs'
              obtain ⟨hst, hrc⟩ := Prod.mk.inj hs'
              exact Or.inl ⟨hrc.symm, hst.symm⟩
          | inr hz =>
              obtain ⟨hp, hmoved, hkept, hsame, hcopy⟩ := hz
              rw [if_neg hp] at hs'
              obtain ⟨hst, hrc⟩ := Prod.mk.inj hs'
              refine Or.inr ⟨hrc.symm, ?_⟩
              rw [← hst]
              have hlive : liveAfter live s (s.grown heap p c size)
                  = (p, c) :: released live s.node.data := if_neg hmoved
              rw [hlive]
              refine ⟨⟨?_, hc, Or.inr hpow, Or.inr List.mem_cons_self⟩, rfl, fun i hi => ?_,
                fun y m hy hne => ?_⟩
              · refine hkept.write List.mem_cons_self fun a ha => ?_
                by_contra hout
                refine ha ((Bytes.fill_outside (by omega)).trans (Bytes.fill_outside (by omega)))
              · show fill (fill heap.mem _ _ 0) _ _ 0 (p + i) = _
                split
                · -- it was copied
                  rename_i hold
                  have hx := h.owns.buffer.resolve_left fun h0 => by omega
                  rw [Bytes.fill_outside (by omega), Bytes.fill_outside (by omega)]
                  exact hcopy s.node.capacity hx i (by omega) (by omega)
                · exact Bytes.fill_inside (by omega) (by omega)
              · have hy' : (y, m) ∈ released live s.node.data := mem_released.mpr ⟨hy, hne⟩
                obtain ⟨⟨G, ref, hinv⟩, -⟩ := hkept
                have hyp : y ≠ p := hinv.newest_ne hy'
                have hapart := hinv.live_apart (List.mem_cons_of_mem _ hy') List.mem_cons_self hyp
                refine ⟨by rw [hlive]; exact List.mem_cons_of_mem _ hy', hyp, fun a h1 h2 => ?_⟩
                rw [← hsame y m hy' a h1 h2]
                exact (Bytes.fill_outside (by omega)).trans (Bytes.fill_outside (by omega))

/-- `tmpfs_resize_node` has done nothing, or it has resized the file. -/
theorem Sound.resize (h : Sound maxPfn usable s live others) (hs : s.resizeNode size = .ok (s', rc)) :
    (rc = -1 ∧ s' = s) ∨ (rc = 0 ∧ Sound maxPfn usable s' (liveAfter live s s') others
      ∧ Resized s s' live size) := by
  by_cases hsize : size ≤ s.node.capacity
  · obtain ⟨hrc, hsound, hr⟩ := h.resize_inside hsize hs
    exact Or.inr ⟨hrc, hsound, hr⟩
  · exact h.resize_grown (by omega) hs

/-- A resize does not change what the node is. -/
theorem resizeNode_kind (hs : s.resizeNode size = .ok (s', rc)) :
    s'.node.type = s.node.type ∧ s'.node.privateData = s.node.privateData := by
  by_cases hle : size ≤ s.node.capacity
  · rw [resizeNode_inside s hle] at hs
    obtain ⟨hst, -⟩ := Prod.mk.inj (Except.ok.inj hs)
    rw [← hst]
    split
    · exact ⟨rfl, rfl⟩
    · exact ⟨rfl, rfl⟩
  · unfold resizeNode at hs
    rw [if_neg hle] at hs
    split at hs
    · cases hs
    · split at hs
      · cases hs
      · dsimp only at hs
        split at hs
        · cases hs
          exact ⟨rfl, rfl⟩
        · cases hs
          simp only [setSize, clear, apply_ite FileState.node, ite_self, and_self]

-- ==== when it returns

/-- The buffer is too short, and the heap has no room for the next
capacity that is not. -/
def NoGrowth (s : FileState) (size : Nat) : Prop :=
  s.node.capacity < size ∧ ∃ c, LeastDoubling (startCapacity s.node) size c ∧ NoRoom s.heap c

/-- Up to 1 GiB a resize returns, and fails for want of memory only. -/
theorem Sound.resize_ends (h : Sound maxPfn usable s live others) (hsize : size ≤ 2 ^ 30) :
    ∃ s' rc, s.resizeNode size = .ok (s', rc) ∧ (rc ≠ 0 ↔ s.NoGrowth size) := by
  have hcap := h.bounds.2
  by_cases hle : size ≤ s.node.capacity
  · refine ⟨_, _, resizeNode_inside s hle, iff_of_false (not_not.mpr rfl) fun hno => ?_⟩
    exact absurd hno.1 (Nat.not_lt.mpr hle)
  · obtain ⟨j, hj, hlt⟩ := h.owns.doubled.start (by omega)
    have hends : (growLoop 66 (startCapacity s.node) size).isSome := by
      rw [growLoop_ends (startCapacity_lt (by omega)), hj, shift_ends hlt]
      omega
    obtain ⟨c, hgrow⟩ := Option.isSome_iff_exists.mp hends
    obtain ⟨hleast, -, -⟩ := h.owns.doubled.grow (by omega) hgrow
    have hc := le_growLoop hgrow
    -- the last doubling started below the size
    have hmax : c ≤ 2 ^ 30 := by
      obtain ⟨k, hck, -, hbelow⟩ := hleast
      rw [hj, ← Nat.pow_add] at hck
      have hexp : j + k ≤ 30 := by
        cases k with
        | zero =>
            unfold startCapacity at hj
            split at hj
            · rename_i hne
              have hlt' : 2 ^ j < 2 ^ 23 := by omega
              have := (Nat.pow_lt_pow_iff_right (show 1 < 2 by omega)).mp hlt'
              omega
            · have h6 : 2 ^ j = 2 ^ 6 := by omega
              have := Nat.pow_right_injective (Nat.le_refl 2) h6
              omega
        | succ k =>
            have hlast := hbelow k (by omega)
            rw [hj, ← Nat.pow_add] at hlast
            have hlt' : 2 ^ (j + k) < 2 ^ 30 := by omega
            have := (Nat.pow_lt_pow_iff_right (show 1 < 2 by omega)).mp hlt'
            omega
      rw [hck]
      exact Nat.pow_le_pow_right (by omega) hexp
    obtain ⟨heap, p, hk, hp⟩ := h.heap.krealloc_null h.mayFree (show c ≠ 0 by omega)
      (show c ≤ 2 ^ 31 - 24 by omega)
    have hroom : p = 0 ↔ s.NoGrowth size := by
      rw [hp]
      constructor
      · intro hno
        exact ⟨by omega, c, hleast, hno⟩
      · intro hno
        obtain ⟨-, c', hleast', hno⟩ := hno
        rwa [hleast.unique hleast']
    rw [resizeNode_grown h.owns.fits (by omega) hgrow hk]
    by_cases hp0 : p = 0
    · refine ⟨{ s with heap }, -1, by rw [if_pos hp0], iff_of_true (by decide) (hroom.mp hp0)⟩
    · refine ⟨s.grown heap p c size, 0, by rw [if_neg hp0], ?_⟩
      exact iff_of_false (not_not.mpr rfl) (mt hroom.mpr hp0)

/-- Past that it does not: neither the loop nor the heap's search ends. -/
theorem Sound.resize_diverges (h : Sound maxPfn usable s live others) (hsize : 2 ^ 30 < size) :
    s.resizeNode size = .error .diverges := by
  have hcap := h.bounds.2
  cases hgrow : growLoop 66 (startCapacity s.node) size with
  | none => exact resizeNode_diverges s (by omega) hgrow
  | some c =>
      obtain ⟨-, hpow, hmax⟩ := h.owns.doubled.grow (by omega) hgrow
      have hc := le_growLoop hgrow
      have hbig : 2 ^ 31 ≤ c := by
        obtain ⟨k, rfl⟩ := hpow
        have hk : 2 ^ 30 < 2 ^ k := by omega
        have := (Nat.pow_lt_pow_iff_right (show 1 < 2 by omega)).mp hk
        exact Nat.pow_le_pow_right (by omega) (by omega)
      unfold resizeNode
      rw [if_neg (by omega), hgrow]
      dsimp only
      rw [Kheap.krealloc_diverges s.heap s.node.data (n := c) (by omega) (by omega)]

/-- A new file owns the buffer it does not have. -/
theorem sound_newFile {heap : Kheap} (h : Kept maxPfn usable heap live others)
    (byteCount now : Nat) : Sound maxPfn usable (newFile heap byteCount now) live others :=
  ⟨h, Nat.le_refl 0, Or.inl rfl, Or.inl ⟨rfl, rfl⟩⟩

-- ==== what a write does

/-- `memcpy` to a place that does not wrap. -/
theorem memcpyTo_eq {m : Memory} {dst n : Nat} {src : Nat → Byte} (h : dst + n ≤ 2 ^ 64) (x : Nat) :
    memcpyTo m dst src n x = if dst ≤ x ∧ x < dst + n then src (x - dst) else m x := by
  unfold memcpyTo
  dsimp only
  by_cases hin : dst ≤ x ∧ x < dst + n
  · have hi : (x + (2 ^ 64 - dst % 2 ^ 64)) % 2 ^ 64 = x - dst := by omega
    rw [if_pos hin, hi, if_pos (by omega)]
  · rw [if_neg hin, if_neg (by omega)]

/-- Two bytes to the last offset there is: one below the buffer, and one at
its start. -/
theorem memcpyTo_wrap {m : Memory} {data : Nat} (src : Nat → Byte) (h1 : 0 < data)
    (h2 : data < 2 ^ 64) : memcpyTo m (data + (2 ^ 64 - 1)) src 2 (data - 1) = src 0
      ∧ memcpyTo m (data + (2 ^ 64 - 1)) src 2 data = src 1 := by
  unfold memcpyTo
  dsimp only
  have h0 : (data - 1 + (2 ^ 64 - (data + (2 ^ 64 - 1)) % 2 ^ 64)) % 2 ^ 64 = 0 := by omega
  have h1' : (data + (2 ^ 64 - (data + (2 ^ 64 - 1)) % 2 ^ 64)) % 2 ^ 64 = 1 := by omega
  rw [h0, h1', if_pos ⟨by omega, by omega⟩, if_pos ⟨h2, by omega⟩]
  exact ⟨rfl, rfl⟩

/-- The buffer is in the file from `offset` on, and the file ends behind
it; before it is what was there, and zeros. -/
structure Wrote (s s' : FileState) (live : List (Nat × Nat)) (a : WriteArgs) (offset : Nat) :
    Prop where
  size_eq : s'.node.size = offset + a.size
  bytes : ∀ i, i < offset + a.size → s'.heap.mem (s'.node.data + i)
    = if offset ≤ i then a.byte (i - offset)
      else if i < s.node.size then s.heap.mem (s.node.data + i) else 0
  spared : Spared live s s'

/-- The file after the resize of a write. -/
def stored (s : FileState) (a : WriteArgs) (offset now : Nat) : FileState :=
  { s with
    heap := { s.heap with
      mem := if a.size ≠ 0 then memcpyTo s.heap.mem (s.node.data + offset) a.byte a.size
        else s.heap.mem }
    node := { s.node with mtime := tmpfsNow now, ctime := tmpfsNow now } }

/-- Under the lock a write resizes, and if that works, copies. -/
theorem writeLocked_of_resize {a : WriteArgs} {offset : Nat} (now : Nat) {t : FileState}
    (h : s.resizeNode ((offset + a.size) % 2 ^ 64) = .ok (t, rc)) :
    s.writeLocked a offset now = .ok (if rc = 0 then t.stored a offset now else t, rc) := by
  unfold writeLocked
  rw [h]
  dsimp only
  by_cases hrc : rc = 0
  · by_cases hsize : a.size = 0
    · simp [hrc, hsize, stored]
    · simp [hrc, hsize, stored]
  · simp [hrc]

theorem writeLocked_stops {a : WriteArgs} {offset : Nat} {e : HeapStop} (now : Nat)
    (h : s.resizeNode ((offset + a.size) % 2 ^ 64) = .error e) :
    s.writeLocked a offset now = .error e := by
  unfold writeLocked
  rw [h]

/-- A write that fails has changed nothing; one that succeeds has resized
the file to the wrapped end. -/
theorem Sound.writeLocked_cases {a : WriteArgs} {offset now : Nat}
    (h : Sound maxPfn usable s live others) (hs : s.writeLocked a offset now = .ok (s', rc)) :
    (rc = -1 ∧ s' = s) ∨ (rc = 0 ∧ ∃ t, s' = t.stored a offset now
      ∧ Sound maxPfn usable t (liveAfter live s t) others
      ∧ Resized s t live ((offset + a.size) % 2 ^ 64)) := by
  cases hres : s.resizeNode ((offset + a.size) % 2 ^ 64) with
  | error e =>
      rw [writeLocked_stops now hres] at hs
      cases hs
  | ok r =>
      obtain ⟨t, rc'⟩ := r
      rw [writeLocked_of_resize now hres] at hs
      obtain ⟨hst, hrc⟩ := Prod.mk.inj (Except.ok.inj hs)
      rw [hrc] at hres hst
      cases h.resize hres with
      | inl hz =>
          rw [hz.1, if_neg (by decide), hz.2] at hst
          exact Or.inl ⟨hz.1, hst.symm⟩
      | inr hz =>
          rw [if_pos hz.1] at hst
          exact Or.inr ⟨hz.1, t, hst.symm, hz.2⟩

/-- What is copied below the capacity stays in the buffer. -/
theorem Sound.stored {a : WriteArgs} {offset now : Nat} {t : FileState}
    (ht : Sound maxPfn usable t (liveAfter live s t) others)
    (hr : Resized s t live (offset + a.size)) :
    Sound maxPfn usable (t.stored a offset now) (liveAfter live s (t.stored a offset now)) others
      ∧ Wrote s (t.stored a offset now) live a offset := by
  have hlive : liveAfter live s (t.stored a offset now) = liveAfter live s t := rfl
  have hfits := ht.owns.fits
  rw [hr.size_eq] at hfits
  have hmem : ∀ x, (t.stored a offset now).heap.mem x
      = if t.node.data + offset ≤ x ∧ x < t.node.data + offset + a.size then
          a.byte (x - (t.node.data + offset)) else t.heap.mem x := by
    intro x
    have hbounds := ht.bounds
    show (if a.size ≠ 0 then memcpyTo t.heap.mem (t.node.data + offset) a.byte a.size
      else t.heap.mem) x = _
    split
    · exact memcpyTo_eq (by omega) x
    · exact (if_neg (by omega)).symm
  rw [hlive]
  refine ⟨⟨ht.write fun x hx => ?_, ht.owns.fits, ht.owns.doubled, ht.owns.buffer⟩, hr.size_eq,
    fun i hi => ?_, fun y m hy hne => ?_⟩
  · have hx' : (t.stored a offset now).heap.mem x ≠ t.heap.mem x := hx
    rw [hmem] at hx'
    have hin : t.node.data + offset ≤ x ∧ x < t.node.data + offset + a.size := by
      by_contra hout
      rw [if_neg hout] at hx'
      exact hx' rfl
    omega
  · show (t.stored a offset now).heap.mem (t.node.data + i) = _
    rw [hmem]
    by_cases hi' : offset ≤ i
    · rw [if_pos (by omega), if_pos hi', show t.node.data + i - (t.node.data + offset)
        = i - offset by omega]
    · rw [if_neg (by omega), if_neg hi']
      exact hr.bytes i hi
  · obtain ⟨hy', hyt, hsame⟩ := hr.spared y m hy hne
    refine ⟨hy', hyt, fun x h1 h2 => ?_⟩
    have hapart := ht.apart hy' hyt
    rw [hmem, if_neg (by omega)]
    exact hsame x h1 h2

/-- A write whose end does not wrap. -/
theorem Sound.writeLocked {a : WriteArgs} {offset now : Nat}
    (h : Sound maxPfn usable s live others) (hwrap : offset + a.size < 2 ^ 64)
    (hs : s.writeLocked a offset now = .ok (s', rc)) :
    (rc = -1 ∧ s' = s) ∨ (rc = 0 ∧ Sound maxPfn usable s' (liveAfter live s s') others
      ∧ Wrote s s' live a offset) := by
  cases h.writeLocked_cases hs with
  | inl hz => exact Or.inl hz
  | inr hz =>
      obtain ⟨hrc, t, rfl, ht, hr⟩ := hz
      rw [Nat.mod_eq_of_lt hwrap] at hr
      exact Or.inr ⟨hrc, ht.stored hr⟩

/-- The end of a write at `offset` does not wrap, or there is no memory for
the file it would make. -/
def FitsAt (s : FileState) (a : WriteArgs) (offset : Nat) : Prop :=
  offset + a.size < 2 ^ 64 ∨ s.NoGrowth ((offset + a.size) % 2 ^ 64)

/-- There is no resize without memory for it. -/
theorem Sound.resize_refused {size : Nat} (h : Sound maxPfn usable s live others)
    (hno : s.NoGrowth size) (hs : s.resizeNode size = .ok (s', rc)) : rc ≠ 0 := by
  by_cases hsize : size ≤ 2 ^ 30
  · obtain ⟨t, rc', hres, hiff⟩ := h.resize_ends hsize
    rw [hres] at hs
    cases hs
    exact hiff.mpr hno
  · rw [h.resize_diverges (Nat.lt_of_not_le hsize)] at hs
    cases hs

theorem Sound.locked_refused {a : WriteArgs} {offset now : Nat}
    (h : Sound maxPfn usable s live others) (hno : s.NoGrowth ((offset + a.size) % 2 ^ 64))
    (hs : s.writeLocked a offset now = .ok (s', rc)) : rc ≠ 0 := by
  cases hres : s.resizeNode ((offset + a.size) % 2 ^ 64) with
  | error e =>
      rw [writeLocked_stops now hres] at hs
      cases hs
  | ok r =>
      obtain ⟨t, rc'⟩ := r
      rw [writeLocked_of_resize now hres] at hs
      obtain ⟨-, hrc⟩ := Prod.mk.inj (Except.ok.inj hs)
      rw [← hrc]
      exact h.resize_refused hno hres

/-- A write that fits, under the lock. -/
theorem Sound.lockedAt {a : WriteArgs} {offset now : Nat} (h : Sound maxPfn usable s live others)
    (hfits : s.FitsAt a offset) (hs : s.writeLocked a offset now = .ok (s', rc)) :
    (rc ≠ 0 ∧ s' = s) ∨ (rc = 0 ∧ Sound maxPfn usable s' (liveAfter live s s') others
      ∧ Wrote s s' live a offset) := by
  have hfail : rc = -1 → rc ≠ 0 := fun hrc => by omega
  cases hfits with
  | inl hwrap => exact (h.writeLocked hwrap hs).imp (fun hz => ⟨hfail hz.1, hz.2⟩) id
  | inr hno =>
      refine (h.writeLocked_cases hs).imp (fun hz => ⟨hfail hz.1, hz.2⟩) fun hz => ?_
      exact absurd hz.1 (h.locked_refused hno hs)

/-- `tmpfs_write` in terms of what it does under the lock. -/
theorem tmpfsWrite_locked {a : WriteArgs} (writec : Option Nat) {writec' : Option Nat} {now : Nat}
    (href : ¬ s.Refused a) : s.tmpfsWrite a writec now = .ok (s', writec', rc)
      ↔ s.writeLocked a (s.writeOffset a) now = .ok (s', rc)
        ∧ writec' = if rc = 0 then writec.map fun _ => a.size else writec := by
  unfold tmpfsWrite
  rw [if_neg href]
  cases s.writeLocked a (s.writeOffset a) now with
  | error e => simp
  | ok r =>
      obtain ⟨t, rc'⟩ := r
      by_cases hrc : rc' = 0
      · simp only [hrc, ne_eq, not_true_eq_false, if_false, Except.ok.injEq, Prod.mk.injEq]
        constructor
        · intro h
          exact ⟨⟨h.1, h.2.2⟩, by rw [if_pos h.2.2.symm]; exact h.2.1.symm⟩
        · intro h
          obtain ⟨⟨hst, h0⟩, hw⟩ := h
          rw [if_pos h0.symm] at hw
          exact ⟨hst, hw.symm, h0⟩
      · simp only [hrc, ne_eq, not_false_eq_true, if_true, Except.ok.injEq, Prod.mk.injEq]
        constructor
        · intro h
          exact ⟨⟨h.1, h.2.2⟩, by rw [if_neg (by rw [← h.2.2]; exact hrc)]; exact h.2.1.symm⟩
        · intro h
          obtain ⟨⟨hst, h0⟩, hw⟩ := h
          rw [if_neg (by rw [← h0]; exact hrc)] at hw
          exact ⟨hst, hw.symm, h0⟩

theorem tmpfsWrite_stops {a : WriteArgs} {e : HeapStop} (writec : Option Nat) {now : Nat}
    (href : ¬ s.Refused a) (h : s.writeLocked a (s.writeOffset a) now = .error e) :
    s.tmpfsWrite a writec now = .error e := by
  unfold tmpfsWrite
  rw [if_neg href, h]

theorem tmpfsWrite_refused {a : WriteArgs} {writec : Option Nat} {now : Nat}
    (href : s.Refused a) : s.tmpfsWrite a writec now = .ok (s, writec, -1) :=
  if_pos href

-- ==== the failures

/-- A write that fails leaves everything as it was: the file and its bytes,
its times, the counter of the file system, `*writec` and the whole heap, in
which the buffer is live. -/
theorem tmpfsWrite_error {a : WriteArgs} {writec writec' : Option Nat} {now : Nat}
    (h : Sound maxPfn usable s live others)
    (hs : s.tmpfsWrite a writec now = .ok (s', writec', rc)) (hrc : rc ≠ 0) :
    s' = s ∧ writec' = writec
      ∧ (s'.node.capacity ≠ 0 → (s'.node.data, s'.node.capacity) ∈ live)
      ∧ Sound maxPfn usable s' live others := by
  have hsame : s' = s ∧ writec' = writec := by
    by_cases href : s.Refused a
    · rw [tmpfsWrite_refused href] at hs
      cases hs
      exact ⟨rfl, rfl⟩
    · obtain ⟨hlocked, hw⟩ := (tmpfsWrite_locked writec href).mp hs
      rw [if_neg hrc] at hw
      cases h.writeLocked_cases hlocked with
      | inl hz => exact ⟨hz.2, hw⟩
      | inr hz => exact absurd hz.1 hrc
  refine ⟨hsame.1, hsame.2, fun hcap => ?_, by rw [hsame.1]; exact h⟩
  rw [hsame.1] at hcap ⊢
  exact h.owns.buffer.resolve_left fun h0 => hcap h0.2

/-- A new file in the heap of the machine with sixteen frames. -/
def bootFile : FileState := newFile Kheap.bootHeap 0 0

theorem sound_bootFile : Sound 16 (fun q => 1 ≤ q) bootFile [] [] :=
  sound_newFile Kheap.run_bootHeap.kept 0 0

/-- A write at an offset. -/
def writeAt (offset size : Nat) (byte : Nat → Byte) (h1 : size < 2 ^ 64) (h2 : offset < 2 ^ 64) :
    WriteArgs :=
  ⟨true, some byte, size, offset, 0, h1, h2⟩

theorem writeOffset_writeAt (s : FileState) {offset size : Nat} {byte : Nat → Byte}
    {h1 : size < 2 ^ 64} {h2 : offset < 2 ^ 64} :
    s.writeOffset (writeAt offset size byte h1 h2) = offset := by
  unfold writeOffset writeAt
  rw [if_neg (by simp)]

/-- A regular file takes every write with a node and a buffer. -/
theorem accepted {a : WriteArgs} {byte : Nat → Byte} (hnode : a.node = true)
    (hbuffer : a.buffer = some byte) (hpriv : s.node.privateData = true)
    (htype : s.node.type = .reg) : ¬ s.Refused a := by
  unfold Refused
  simp [hnode, hbuffer, hpriv, htype]

/-- A file with a buffer of 64 bytes: 4 MiB and a header are more than the
longest block, and the buffer stays. -/
theorem tmpfsWrite_error_full : ∃ s s' writec' rc, bootFile.resizeNode 1 = .ok (s, 0)
    ∧ s.tmpfsWrite (writeAt 0 (2 ^ 22) (fun _ => 1) (by omega) (by omega)) (some 7) 0
      = .ok (s', writec', rc)
    ∧ rc ≠ 0 ∧ s' = s ∧ writec' = some 7
    ∧ s'.node.capacity = 64 ∧ (s'.node.data, s'.node.capacity) ∈ liveAfter [] bootFile s := by
  have hplay : (bootFile.resizeNode 1).toOption.map (fun r =>
      ((r.1.node.capacity, r.1.node.type), (r.1.node.privateData, r.2)))
      = some ((64, .reg), (true, 0)) := by
    decide +kernel
  cases hstart : bootFile.resizeNode 1 with
  | error e =>
      rw [hstart] at hplay
      cases hplay
  | ok r =>
  obtain ⟨s, rc₀⟩ := r
  rw [hstart] at hplay
  obtain ⟨hleft, hright⟩ := Prod.mk.inj (Option.some.inj hplay)
  obtain ⟨hcap, htype⟩ := Prod.mk.inj hleft
  obtain ⟨hpriv, hrc₀⟩ := Prod.mk.inj hright
  dsimp only at hcap htype hpriv hrc₀
  subst hrc₀
  obtain ⟨-, hsound, -⟩ := (sound_bootFile.resize hstart).resolve_left fun hz =>
    absurd hz.1 (by decide)
  have hfull : s.NoGrowth (2 ^ 22) := by
    unfold NoGrowth startCapacity
    rw [hcap]
    refine ⟨by omega, 2 ^ 22, ⟨16, ?_, Nat.le_refl _, fun i hi => ?_⟩, ?_⟩
    · show 2 ^ 22 = 64 * 2 ^ 16
      omega
    · have hpow : 2 ^ i ≤ 2 ^ 15 := Nat.pow_le_pow_right (by omega) (by omega)
      show 64 * 2 ^ i < 2 ^ 22
      omega
    · unfold Kheap.NoRoom
      rw [Kheap.cacheForSize_none.mpr (by omega)]
      intro order hfor
      refine Or.inl ?_
      by_contra hlt
      have hpow : 2 ^ order ≤ 2 ^ 10 := Nat.pow_le_pow_right (by omega) (Nat.le_of_not_lt hlt)
      have hfits : 2 ^ 22 + 24 ≤ 4096 * 2 ^ order := hfor.1
      omega
  obtain ⟨t, rc, hres, hrc⟩ := hsound.resize_ends (show 2 ^ 22 ≤ 2 ^ 30 by omega)
  have hne := hrc.mpr hfull
  have hlocked : s.writeLocked (writeAt 0 (2 ^ 22) (fun _ => 1) (by omega) (by omega)) 0 0 = _ :=
    writeLocked_of_resize 0 hres
  rw [if_neg hne] at hlocked
  have hs := (tmpfsWrite_locked (some 7) (accepted rfl rfl hpriv htype)).mpr
    ⟨by rw [writeOffset_writeAt]; exact hlocked, (if_neg hne).symm⟩
  obtain ⟨hsame, hw, hlive, -⟩ := tmpfsWrite_error hsound hs hne
  rw [hsame] at hlive
  refine ⟨s, t, some 7, rc, rfl, hs, hne, hsame, hw, ?_, ?_⟩
  · rw [hsame]
    exact hcap
  · rw [hsame]
    exact hlive (by omega)

-- ==== the wrapped end

/-- The write fails and nothing has changed; or the bytes are in the buffer
from `offset` on, below the capacity, the file is sound, and the other
allocations have their bytes. -/
def WriteSafe (maxPfn : Nat) (usable : Nat → Bool) (s : FileState) (live : List (Nat × Nat))
    (others : List Block) (a : WriteArgs) (writec : Option Nat) (now : Nat) : Prop :=
  ∃ s' writec' rc, s.tmpfsWrite a writec now = .ok (s', writec', rc)
    ∧ ((rc ≠ 0 ∧ s' = s ∧ writec' = writec)
      ∨ (rc = 0 ∧ s.writeOffset a + a.size ≤ s'.node.capacity
        ∧ (∀ i, i < a.size → s'.heap.mem (s'.node.data + (s.writeOffset a + i)) = a.byte i)
        ∧ Sound maxPfn usable s' (liveAfter live s s') others ∧ Spared live s s'))

/-- A write is safe if it is refused at once, or if the file it makes is at
most 1 GiB long and the end of the write does not wrap or is refused by the
heap; and otherwise it is not. -/
theorem tmpfsWrite_safe_iff (h : Sound maxPfn usable s live others) (a : WriteArgs)
    (writec : Option Nat) (now : Nat) :
    WriteSafe maxPfn usable s live others a writec now
      ↔ s.Refused a ∨ ((s.writeOffset a + a.size) % 2 ^ 64 ≤ 2 ^ 30
        ∧ s.FitsAt a (s.writeOffset a)) := by
  by_cases href : s.Refused a
  · exact iff_of_true ⟨s, writec, -1, tmpfsWrite_refused href,
      Or.inl ⟨by decide, rfl, rfl⟩⟩ (Or.inl href)
  generalize hoff : s.writeOffset a = offset
  constructor
  · intro hsafe
    obtain ⟨s', writec', rc, hs, hcase⟩ := hsafe
    obtain ⟨hlocked, -⟩ := (tmpfsWrite_locked writec href).mp hs
    rw [hoff] at hlocked hcase
    have hend : (offset + a.size) % 2 ^ 64 ≤ 2 ^ 30 := by
      by_contra hgt
      rw [writeLocked_stops now (h.resize_diverges (Nat.lt_of_not_le hgt))] at hlocked
      cases hlocked
    refine Or.inr ⟨hend, ?_⟩
    cases hcase with
    | inl hfail =>
        obtain ⟨t, rc', hres, hno⟩ := h.resize_ends hend
        rw [writeLocked_of_resize now hres] at hlocked
        obtain ⟨-, hrc⟩ := Prod.mk.inj (Except.ok.inj hlocked)
        exact Or.inr (hno.mp (by rw [hrc]; exact hfail.1))
    | inr hok =>
        obtain ⟨-, hcap, -, hsound, -⟩ := hok
        have hmax := hsound.bounds.2
        exact Or.inl (by omega)
  · intro hcond
    obtain ⟨hend, hfits⟩ := hcond.resolve_left href
    obtain ⟨t, rc, hres, hno⟩ := h.resize_ends hend
    have hlocked := writeLocked_of_resize now hres
    refine ⟨_, _, rc, (tmpfsWrite_locked writec href).mpr ⟨by rw [hoff]; exact hlocked, rfl⟩, ?_⟩
    cases h.lockedAt hfits hlocked with
    | inl hz => exact Or.inl ⟨hz.1, hz.2, if_neg hz.1⟩
    | inr hz =>
        obtain ⟨hrc, hsound, hw⟩ := hz
        have hfit := hsound.owns.fits
        rw [hw.size_eq] at hfit
        refine Or.inr ⟨hrc, by rw [hoff]; exact hfit, fun i hi => ?_, hsound, hw.spared⟩
        rw [hoff, hw.bytes (offset + i) (by omega), if_pos (Nat.le_add_right _ _),
          Nat.add_sub_cancel_left]

/-- Two bytes at the start of a new file are safe. -/
theorem tmpfsWrite_safe_start : WriteSafe 16 (fun q => 1 ≤ q) bootFile [] []
    (writeAt 0 2 (fun _ => 1) (by omega) (by omega)) none 0 :=
  (tmpfsWrite_safe_iff sound_bootFile _ none 0).mpr
    (Or.inr ⟨show (0 + 2) % 2 ^ 64 ≤ 2 ^ 30 by omega, Or.inl (show 0 + 2 < 2 ^ 64 by omega)⟩)

/-- Two bytes at the last offset there is: the file ends at 1. -/
def wrapArgs : WriteArgs :=
  writeAt (2 ^ 64 - 1) 2 (fun i => if i = 0 then 98 else 99) (by omega) (by omega)

/-- There is memory for a first buffer. -/
theorem bootFile_growth : ¬ bootFile.NoGrowth 1 := by
  intro hno
  obtain ⟨-, c, hleast, hroom⟩ := hno
  have hc : c = 64 := by
    refine hleast.unique ⟨0, rfl, by omega, fun i hi => ?_⟩
    exact absurd hi (Nat.not_lt_zero i)
  rw [hc] at hroom
  have hpage : Kheap.bootHeap.pmm.pmmAllocPage.isSome = true := by decide +kernel
  have hnone : Kheap.bootHeap.pmm.pmmAllocPage = none := hroom.2
  rw [hnone] at hpage
  cases hpage

theorem bootFile_resize : ∃ t, bootFile.resizeNode 1 = .ok (t, 0) := by
  obtain ⟨t, rc, hres, hno⟩ := sound_bootFile.resize_ends (show 1 ≤ 2 ^ 30 by omega)
  have hrc : rc = 0 := by
    by_contra hne
    exact bootFile_growth (hno.mp hne)
  rw [hrc] at hres
  exact ⟨t, hres⟩

/-- One byte at the start of a new file. -/
theorem bootFile_write (byte : Nat → Byte) : ∃ s',
    bootFile.tmpfsWrite (writeAt 0 1 byte (by omega) (by omega)) none 0 = .ok (s', none, 0)
      ∧ s'.node.type = .reg ∧ s'.node.privateData = true := by
  obtain ⟨t, hres⟩ := bootFile_resize
  have hend : (0 + (writeAt 0 1 byte (by omega) (by omega)).size) % 2 ^ 64 = 1 := by
    show (0 + 1) % 2 ^ 64 = 1
    omega
  have hlocked : bootFile.writeLocked (writeAt 0 1 byte (by omega) (by omega)) 0 0 = _ :=
    writeLocked_of_resize 0 (by rw [hend]; exact hres)
  obtain ⟨htype, hpriv⟩ := resizeNode_kind hres
  rw [if_pos rfl] at hlocked
  have href : ¬ bootFile.Refused (writeAt 0 1 byte (by omega) (by omega)) :=
    accepted rfl rfl rfl rfl
  have hs := (tmpfsWrite_locked none href).mpr
    ⟨by rw [writeOffset_writeAt]; exact hlocked, rfl⟩
  exact ⟨_, hs, htype, hpriv⟩

/-- They are accepted, and the first of them goes below the buffer. -/
theorem tmpfsWrite_wraps : (∃ s', bootFile.tmpfsWrite wrapArgs none 0 = .ok (s', none, 0)
      ∧ s'.node.size = 1 ∧ 0 < s'.node.data ∧ s'.heap.mem (s'.node.data - 1) = 98)
    ∧ ¬ WriteSafe 16 (fun q => 1 ≤ q) bootFile [] [] wrapArgs none 0 := by
  have href : ¬ bootFile.Refused wrapArgs := accepted rfl rfl rfl rfl
  obtain ⟨t, hres⟩ := bootFile_resize
  have hend : (2 ^ 64 - 1 + wrapArgs.size) % 2 ^ 64 = 1 := by
    show (2 ^ 64 - 1 + 2) % 2 ^ 64 = 1
    omega
  have hlocked : bootFile.writeLocked wrapArgs (2 ^ 64 - 1) 0 = _ :=
    writeLocked_of_resize 0 (by rw [hend]; exact hres)
  rw [if_pos rfl] at hlocked
  have hs := (tmpfsWrite_locked none href).mpr ⟨hlocked, rfl⟩
  obtain ⟨-, ht, hr⟩ := (sound_bootFile.resize hres).resolve_left fun hz => absurd hz.1 (by decide)
  have hsize : t.node.size = 1 := hr.size_eq
  have hdata : 0 < t.node.data := ht.data_pos (by omega)
  refine ⟨⟨_, hs, hsize, hdata, ?_⟩, fun hsafe => ?_⟩
  · have hbound := ht.bounds.1
    have hfits := ht.owns.fits
    exact (memcpyTo_wrap wrapArgs.byte hdata (by omega)).1
  · obtain ⟨s', writec', rc', hs', hcase⟩ := hsafe
    rw [hs] at hs'
    cases hs'
    cases hcase with
    | inl hfail => exact hfail.1 rfl
    | inr hok =>
        have hcap : 2 ^ 64 - 1 + 2 ≤ t.node.capacity := hok.2.1
        have hmax := ht.bounds.2
        omega

-- ==== the loop

/-- The capacities stay powers of two. -/
theorem Doubled.resizeNode (h : Doubled s.node.capacity) (hcap : s.node.capacity < 2 ^ 64)
    (hs : s.resizeNode size = .ok (s', rc)) :
    Doubled s'.node.capacity ∧ s'.node.capacity < 2 ^ 64 := by
  by_cases hle : size ≤ s.node.capacity
  · rw [resizeNode_inside s hle] at hs
    obtain ⟨hst, -⟩ := Prod.mk.inj (Except.ok.inj hs)
    rw [← hst]
    split
    · exact ⟨h, hcap⟩
    · exact ⟨h, hcap⟩
  · unfold FileState.resizeNode at hs
    rw [if_neg hle] at hs
    split at hs
    · cases hs
    · rename_i c hgrow
      obtain ⟨-, hpow, hmax⟩ := h.grow hcap hgrow
      split at hs
      · cases hs
      · dsimp only at hs
        split at hs
        · cases hs
          exact ⟨h, hcap⟩
        · cases hs
          exact ⟨Or.inr hpow, show c < 2 ^ 64 by omega⟩

/-- The loop ends where shifting the capacity gets to the size before the
bits are gone. For a capacity that the code makes that is a size of at most
`2^63`; past it the call never returns. -/
theorem resize_grows_iff (s : FileState) (size : Nat) (hcap : s.node.capacity < 2 ^ 64) :
    (s.Grows size ↔ ∃ k, size ≤ startCapacity s.node * 2 ^ k % 2 ^ 64)
      ∧ (Doubled s.node.capacity → (s.Grows size ↔ size ≤ 2 ^ 63)
        ∧ ∀ s' rc, s.resizeNode size = .ok (s', rc) → Doubled s'.node.capacity)
      ∧ (¬ s.Grows size → s.resizeNode size = .error .diverges) := by
  refine ⟨grows_iff_ends hcap, fun hd => ⟨?_, fun s' rc hs => (hd.resizeNode hcap hs).1⟩, ?_⟩
  · obtain ⟨j, hj, hlt⟩ := hd.start hcap
    rw [grows_iff_ends hcap, hj]
    exact shift_ends hlt
  · intro hno
    rw [grows_iff_ends hcap, ← growLoop_ends (startCapacity_lt hcap),
      Option.not_isSome_iff_eq_none] at hno
    refine resizeNode_diverges s ?_ hno
    by_contra hle
    -- a buffer that is long enough ends the loop at once
    have hnow : ¬ startCapacity s.node < size := by
      unfold startCapacity
      split
      · exact hle
      · omega
    rw [growLoop, if_neg hnow] at hno
    cases hno

/-- A file of 2^63 bytes is searched for to its end. -/
theorem resize_grows_half : bootFile.Grows (2 ^ 63) :=
  ((resize_grows_iff bootFile (2 ^ 63) (show 0 < 2 ^ 64 by omega)).2.1 (Or.inl rfl)).1.mpr
    (Nat.le_refl _)

/-- One byte behind it is not: the write of it never returns. -/
theorem resize_past_half : ¬ bootFile.Grows (2 ^ 63 + 1)
    ∧ bootFile.tmpfsWrite (writeAt (2 ^ 63) 1 (fun _ => 1) (by omega) (by omega)) none 0
      = .error .diverges := by
  have hno : ¬ ∃ k, 2 ^ 63 + 1 ≤ 2 ^ 6 * 2 ^ k % 2 ^ 64 := by
    rw [shift_ends (by omega)]
    omega
  constructor
  · rw [grows_iff_ends (show 0 < 2 ^ 64 by omega)]
    exact hno
  · have hgrow : growLoop 66 64 (2 ^ 63 + 1) = none := by
      rw [← Option.not_isSome_iff_eq_none, growLoop_ends (by omega)]
      exact hno
    have hres : bootFile.resizeNode (2 ^ 63 + 1) = .error .diverges :=
      resizeNode_diverges bootFile (show 0 < 2 ^ 63 + 1 by omega) hgrow
    have hlocked : bootFile.writeLocked (writeAt (2 ^ 63) 1 (fun _ => 1) (by omega) (by omega))
        (2 ^ 63) 0 = .error .diverges := writeLocked_stops 0 hres
    exact tmpfsWrite_stops none (accepted rfl rfl rfl rfl) hlocked

end Alix.FileState
