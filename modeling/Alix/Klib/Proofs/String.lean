/-
The copying loops copy.

# The invariants

`Forward` says what a loop that comes from the front has done: the first
bytes are those of the old source, and nothing else has changed.
`Backward` says it for the last bytes. A chunk keeps either one if the
bytes written so far are not among those still to be read. From the front
that holds when the destination starts below the source, and from the back
when it starts above, whatever the size of the chunk: a word is loaded
before any byte of it is stored. So the alignment decides which loop
copies a byte, and not whether it is copied right.
-/
import Alix.Klib.String

namespace Alix.Klib

open Bytes (Memory load store copy)

variable {m : Memory} {dest src d s n k w : Nat} {c : Copy}

-- ==== chunks

theorem copy_byte (m : Memory) (d s : Nat) : Function.update m d (m s) = copy m d m s 1 := by
  funext x
  by_cases hx : x = d
  · rw [hx, Function.update_self, Bytes.copy_inside (Nat.le_refl d) (Nat.lt_succ_self d)]
    simp
  · rw [Function.update_of_ne hx, Bytes.copy_outside (by omega)]

theorem copy_word (m : Memory) (d s : Nat) :
    store m d 8 (load m s 8) = copy m d m s 8 := by
  funext x
  by_cases hx : d ≤ x ∧ x < d + 8
  · rw [Bytes.store_inside hx.1 hx.2, Bytes.copy_inside hx.1 hx.2,
      Bytes.byteOf_load m s (by omega)]
  · rw [Bytes.store_outside hx, Bytes.copy_outside hx]

/-- A chunk behind what has been copied. -/
theorem copy_forward (hsafe : dest ≤ src ∨ dest + n ≤ src ∨ src + n ≤ dest) (hkw : k + w ≤ n) :
    copy (copy m dest m src k) (dest + k) (copy m dest m src k) (src + k) w
      = copy m dest m src (k + w) := by
  funext x
  by_cases hx : dest + k ≤ x ∧ x < dest + k + w
  · rw [Bytes.copy_inside hx.1 hx.2, Bytes.copy_outside (by omega),
      Bytes.copy_inside (by omega) (by omega)]
    congr 1
    omega
  · rw [Bytes.copy_outside hx]
    by_cases hk : dest ≤ x ∧ x < dest + k
    · rw [Bytes.copy_inside hk.1 hk.2, Bytes.copy_inside hk.1 (by omega)]
    · rw [Bytes.copy_outside hk, Bytes.copy_outside (by omega)]

/-- A chunk in front of it. -/
theorem copy_backward (hsafe : src ≤ dest) :
    copy (copy m (dest + (n + w)) m (src + (n + w)) k) (dest + n)
        (copy m (dest + (n + w)) m (src + (n + w)) k) (src + n) w
      = copy m (dest + n) m (src + n) (w + k) := by
  funext x
  by_cases hx : dest + n ≤ x ∧ x < dest + n + w
  · rw [Bytes.copy_inside hx.1 hx.2, Bytes.copy_outside (by omega),
      Bytes.copy_inside hx.1 (by omega)]
  · rw [Bytes.copy_outside hx]
    by_cases hk : dest + (n + w) ≤ x ∧ x < dest + (n + w) + k
    · rw [Bytes.copy_inside hk.1 hk.2, Bytes.copy_inside (by omega) (by omega)]
      congr 1
      omega
    · rw [Bytes.copy_outside hk, Bytes.copy_outside (by omega)]

-- ==== from the front

/-- `k` bytes of `n` are copied, from the front. -/
structure Forward (m : Memory) (dest src n : Nat) (c : Copy) (k : Nat) : Prop where
  left : c.n + k = n
  d : c.d = dest + k
  s : c.s = src + k
  mem : c.mem = copy m dest m src k

/-- Where the front does not write what is still to be read. -/
def FrontSafe (dest src n : Nat) : Prop := dest ≤ src ∨ dest + n ≤ src ∨ src + n ≤ dest

theorem Forward.chunk {mem : Memory} {left : Nat} (hsafe : FrontSafe dest src n)
    (h : Forward m dest src n ⟨mem, d, s, left + w⟩ k) :
    Forward m dest src n ⟨copy mem d mem s w, d + w, s + w, left⟩ (k + w) := by
  obtain ⟨hleft, hd, hs, hmem⟩ := h
  simp only at hleft hd hs hmem
  refine ⟨by simp only; omega, by simp only; omega, by simp only; omega, ?_⟩
  show copy mem d mem s w = copy m dest m src (k + w)
  rw [hmem, hd, hs]
  exact copy_forward hsafe (by omega)

theorem Forward.memcpyHead (hsafe : FrontSafe dest src n) {mem : Memory} {left : Nat}
    (h : Forward m dest src n ⟨mem, d, s, left⟩ k) :
    ∃ k, Forward m dest src n (memcpyHead mem d s left) k := by
  induction left generalizing mem d s k with
  | zero => exact ⟨k, h⟩
  | succ left ih =>
      unfold Klib.memcpyHead
      split
      · rw [copy_byte]
        exact ih (h.chunk hsafe)
      · exact ⟨k, h⟩

theorem Forward.memcpyWords (hsafe : FrontSafe dest src n) {mem : Memory} {left : Nat}
    (h : Forward m dest src n ⟨mem, d, s, left⟩ k) :
    ∃ k, Forward m dest src n (memcpyWords mem d s left) k := by
  induction mem, d, s, left using Klib.memcpyWords.induct generalizing k with
  | case1 mem d s left ih =>
      rw [copy_word] at ih
      unfold Klib.memcpyWords
      rw [copy_word]
      exact ih (h.chunk hsafe)
  | case2 mem d s left hleft =>
      rw [Klib.memcpyWords.eq_2 mem d s left hleft]
      exact ⟨k, h⟩

theorem Forward.memcpyTail (hsafe : FrontSafe dest src n) {mem : Memory} {left : Nat}
    (h : Forward m dest src n ⟨mem, d, s, left⟩ k) :
    Forward m dest src n (memcpyTail mem d s left) n := by
  induction left generalizing mem d s k with
  | zero =>
      have hk : k = n := by
        have := h.left
        simpa using this
      rwa [hk] at h
  | succ left ih =>
      unfold Klib.memcpyTail
      rw [copy_byte]
      exact ih (h.chunk hsafe)

theorem memcpy_copies (m : Memory) (hsafe : FrontSafe dest src n) :
    memcpy m dest src n = (copy m dest m src n, dest) := by
  have hstart : Forward m dest src n ⟨m, dest, src, n⟩ 0 := by
    refine ⟨rfl, rfl, rfl, ?_⟩
    funext x
    exact (Bytes.copy_outside (by omega)).symm
  obtain ⟨k, hhead⟩ := hstart.memcpyHead hsafe
  obtain ⟨k, hwords⟩ := Forward.memcpyWords hsafe hhead
  have htail := Forward.memcpyTail hsafe hwords
  exact Prod.ext htail.mem rfl

-- ==== from the back

/-- All but the first bytes are copied. -/
structure Backward (m : Memory) (dest src n : Nat) (c : Copy) (k : Nat) : Prop where
  left : c.n + k = n
  d : c.d = dest + c.n
  s : c.s = src + c.n
  mem : c.mem = copy m (dest + c.n) m (src + c.n) k

theorem Backward.chunk {mem : Memory} {left : Nat} (hsafe : src ≤ dest)
    (h : Backward m dest src n ⟨mem, d, s, left + w⟩ k) :
    Backward m dest src n ⟨copy mem (d - w) mem (s - w) w, d - w, s - w, left⟩ (w + k) := by
  obtain ⟨hleft, hd, hs, hmem⟩ := h
  simp only at hleft hd hs hmem
  have hd' : d - w = dest + left := by omega
  have hs' : s - w = src + left := by omega
  refine ⟨by simp only; omega, hd', hs', ?_⟩
  show copy mem (d - w) mem (s - w) w = copy m (dest + left) m (src + left) (w + k)
  rw [hmem, hd', hs']
  exact copy_backward hsafe

theorem Backward.memmoveHead (hsafe : src ≤ dest) {mem : Memory} {left : Nat}
    (h : Backward m dest src n ⟨mem, d, s, left⟩ k) :
    ∃ k, Backward m dest src n (memmoveHead mem d s left) k := by
  induction left generalizing mem d s k with
  | zero => exact ⟨k, h⟩
  | succ left ih =>
      unfold Klib.memmoveHead
      split
      · rw [copy_byte]
        exact ih (h.chunk hsafe)
      · exact ⟨k, h⟩

theorem Backward.memmoveWords (hsafe : src ≤ dest) {mem : Memory} {left : Nat}
    (h : Backward m dest src n ⟨mem, d, s, left⟩ k) :
    ∃ k, Backward m dest src n (memmoveWords mem d s left) k := by
  induction mem, d, s, left using Klib.memmoveWords.induct generalizing k with
  | case1 mem d s left ih =>
      rw [copy_word] at ih
      unfold Klib.memmoveWords
      rw [copy_word]
      exact ih (h.chunk hsafe)
  | case2 mem d s left hleft =>
      rw [Klib.memmoveWords.eq_2 mem d s left hleft]
      exact ⟨k, h⟩

theorem Backward.memmoveTail (hsafe : src ≤ dest) {mem : Memory} {left : Nat}
    (h : Backward m dest src n ⟨mem, d, s, left⟩ k) :
    (Klib.memmoveTail mem d s left).mem = copy m dest m src n := by
  induction left generalizing mem d s k with
  | zero =>
      have hk : k = n := by
        have := h.left
        simpa using this
      rw [hk] at h
      exact h.mem
  | succ left ih =>
      unfold Klib.memmoveTail
      rw [copy_byte]
      exact ih (h.chunk hsafe)

/-- The loops of `memmove` that come from the end. -/
theorem backward_copies (m : Memory) (hsafe : src ≤ dest) :
    let c := memmoveHead m (dest + n) (src + n) n
    let c := memmoveWords c.mem c.d c.s c.n
    (memmoveTail c.mem c.d c.s c.n).mem = copy m dest m src n := by
  have hstart : Backward m dest src n ⟨m, dest + n, src + n, n⟩ 0 := by
    refine ⟨rfl, rfl, rfl, ?_⟩
    funext x
    exact (Bytes.copy_outside (by omega)).symm
  obtain ⟨k, hhead⟩ := hstart.memmoveHead hsafe
  obtain ⟨k, hwords⟩ := Backward.memmoveWords hsafe hhead
  exact Backward.memmoveTail hsafe hwords

-- ==== the results

/-- `memmove` leaves the old source in the destination and everything else
alone, and so does `memcpy` where the regions do not overlap or the
destination starts below the source. -/
theorem memmove_copies (m : Memory) (hd : dest + n ≤ 2 ^ 64) (hs : src + n ≤ 2 ^ 64) :
    memmove m dest src n = (copy m dest m src n, dest)
      ∧ (dest + n ≤ src ∨ src + n ≤ dest ∨ dest < src →
        memcpy m dest src n = (copy m dest m src n, dest)) := by
  refine ⟨?_, fun happart => memcpy_copies m ?_⟩
  · unfold memmove
    split
    · rename_i hnone
      refine Prod.ext ?_ rfl
      funext x
      show m x = copy m dest m src n x
      by_cases hx : dest ≤ x ∧ x < dest + n
      · have heq : dest = src := by omega
        rw [Bytes.copy_inside hx.1 hx.2]
        congr 1
        omega
      · rw [Bytes.copy_outside hx]
    · split
      · rename_i hne hfront
        apply memcpy_copies
        unfold FrontSafe
        -- a source that ends at 2^64 is below no destination
        omega
      · rename_i hne hback
        exact Prod.ext (backward_copies m (by omega)) rfl
  · unfold FrontSafe
    omega

/-- Three bytes up by one place, over each other. -/
theorem memmove_copies_overlap :
    (memmove (fun x => BitVec.ofNat 8 x) 9 8 3).1 11 = 10#8
      ∧ (memcpy (fun x => BitVec.ofNat 8 x) 8 9 3).1 8 = 9#8 := by
  have hmove : memmove (fun x => BitVec.ofNat 8 x) 9 8 3
      = (copy (fun x => BitVec.ofNat 8 x) 9 (fun x => BitVec.ofNat 8 x) 8 3, 9) :=
    (memmove_copies (fun x => BitVec.ofNat 8 x) (by decide) (by decide)).1
  have hcopy : memcpy (fun x => BitVec.ofNat 8 x) 8 9 3
      = (copy (fun x => BitVec.ofNat 8 x) 8 (fun x => BitVec.ofNat 8 x) 9 3, 8) :=
    (memmove_copies (fun x => BitVec.ofNat 8 x) (by decide) (by decide)).2 (by decide)
  rw [hmove, hcopy]
  exact ⟨rfl, rfl⟩

end Alix.Klib
