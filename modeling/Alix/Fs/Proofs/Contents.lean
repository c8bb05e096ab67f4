/-
What a tmpfs file holds: the first `size` bytes of its buffer, which is
what reads return.

# What can go wrong

`tmpfs_write` resizes the file to the end of the write before it copies,
and the resize helper serves growing and shrinking alike. A write that
ends before the current end of the file therefore cuts the file off
there: the bytes after the write are lost.

# What holds

`contents_tmpfsWrite` is what a write leaves, for every offset and
length: the old bytes up to the offset, zeros up to it if the file was
shorter, then the buffer, and nothing more. So the bytes after the write
survive exactly where there were none.
-/
import Alix.Fs.Proofs.Tmpfs

namespace Alix.Tmpfs

variable {s s' : Tmpfs} {n : Nat}

-- ==== contents

/-- The bytes of a file. -/
def contents (s : Tmpfs) (n : Nat) : List UInt8 :=
  (s.file n).data.take (s.file n).size

theorem length_contents (h : (s.file n).size ≤ (s.file n).capacity) :
    (s.contents n).length = (s.file n).size := by
  rw [contents, List.length_take]
  exact Nat.min_eq_left h

/-- A file of a reachable store has its bytes in its buffer. -/
theorem Reachable.size_le (h : Reachable s) (hn : n < s.fs.count) :
    (s.file n).size ≤ (s.file n).capacity :=
  (h.inv.each _ (h.inv.vfs_lt n hn)).size_le n (mem_nodesOf.mpr ⟨hn, rfl⟩)

/-- A read returns a slice of the contents. -/
theorem tmpfsRead_eq (ht : (s.fs.nodes n).type = .reg) (size offset : Nat) :
    s.tmpfsRead (some n) true size offset
      = (0, ((s.contents n).drop offset).take size) := by
  unfold tmpfsRead
  simp only [Bool.not_true, Bool.false_eq_true, if_false, ht, ne_eq,
    not_true_eq_false]
  split
  · rename_i hoff
    rw [contents, List.drop_eq_nil_of_le (Nat.le_trans (List.length_take_le _ _) hoff),
      List.take_nil]
  · have hmin : tmpfsMinSize size ((s.file n).size - offset)
        = min size ((s.file n).size - offset) := by
      unfold tmpfsMinSize
      split
      · omega
      · omega
    rw [hmin, contents, List.drop_take, List.take_take]

-- ==== the buffer

/-- What precedes a `memcpy` stays, and what it copies follows. -/
theorem take_memcpyAt {data src : List UInt8} {off : Nat}
    (h : off ≤ data.length) :
    (memcpyAt data off src).take (off + src.length) = data.take off ++ src := by
  have hlen : (data.take off ++ src).length = off + src.length := by
    rw [List.length_append, List.length_take, Nat.min_eq_left h]
  rw [memcpyAt, ← hlen, List.take_left]

/-- The buffer as a resize leaves it: up to any point below the new end
the old bytes, then zeros. -/
theorem take_zeroed {data : List UInt8} {size stop off : Nat}
    (hsize : size ≤ data.length) (hoff : off ≤ stop) :
    (if size < stop then memset0 data size (stop - size) else data).take off
      = (data.take size).take off ++ List.replicate (off - size) 0 := by
  have hlen : (data.take size).length = size := by
    rw [List.length_take, Nat.min_eq_left hsize]
  by_cases hlt : size < stop
  · rw [if_pos hlt, memset0, List.append_assoc, List.take_append, hlen,
      List.take_append, List.take_replicate, List.length_replicate]
    have h1 : min (off - size) (stop - size) = off - size := by omega
    have h2 : off - size - (stop - size) = 0 := by omega
    rw [h1, h2, List.take_zero, List.append_nil]
  · have h1 : min off size = off := by omega
    have h2 : off - size = 0 := by omega
    rw [if_neg hlt, List.take_take, h1, h2, List.replicate_zero, List.append_nil]

-- ==== resizing

/-- A capacity that doubles passes any size below `2 ^ 63` before it
loses a bit. -/
theorem growLoop_isSome : ∀ (fuel : Nat) {capacity size : Nat},
    size ≤ 2 ^ 63 → 2 ^ 63 ≤ capacity * 2 ^ fuel →
    (growLoop (fuel + 1) capacity size).isSome
  | 0, capacity, size, hsize, hcap => by
      have hle : ¬ capacity < size := by omega
      rw [growLoop, if_neg hle, Option.isSome_some]
  | fuel + 1, capacity, size, hsize, hcap => by
      rw [growLoop]
      split
      · have hmod : capacity * 2 % 2 ^ 64 = capacity * 2 :=
          Nat.mod_eq_of_lt (by omega)
        rw [hmod]
        refine growLoop_isSome fuel hsize ?_
        rw [Nat.mul_assoc, ← Nat.pow_succ']
        exact hcap
      · rfl

/-- With memory a resize below `2 ^ 63` succeeds. It keeps the bytes
below the smaller of the two sizes and puts zeros after them. -/
theorem tmpfsResizeNode_ok {stop : Nat}
    (hsize : (s.file n).size ≤ (s.file n).capacity) (hstop : stop ≤ 2 ^ 63) :
    ∃ s', s.tmpfsResizeNode n stop true = some (s', 0) ∧ Resized s s' n stop
      ∧ ∀ off, off ≤ stop → (s'.file n).data.take off
        = (s.contents n).take off ++ List.replicate (off - (s.file n).size) 0 := by
  by_cases hcap : stop ≤ (s.file n).capacity
  -- in place
  · obtain ⟨s', heq, hs'⟩ : ∃ s', s.tmpfsResizeNode n stop true = some (s', 0)
        ∧ s' = (if stop > (s.file n).size then
            s.modFile n fun f => { f with data := memset0 f.data f.size (stop - f.size) }
          else s).setSize n stop := by
      refine ⟨_, ?_, rfl⟩
      unfold tmpfsResizeNode
      rw [if_pos hcap]
    obtain ⟨-, hne⟩ | ⟨hr, -⟩ := tmpfsResizeNode_cases heq
    · exact absurd rfl hne
    refine ⟨s', heq, hr, fun off hoff => ?_⟩
    rw [contents, ← take_zeroed hsize hoff, hs']
    by_cases hgt : (s.file n).size < stop
    · simp [hgt, setSize, modFile, modSuper]
    · simp [hgt, setSize, modFile, modSuper]
  -- in a longer buffer, whose new part is zero
  · have hstart : (growLoop 66 (if (s.file n).capacity ≠ 0 then (s.file n).capacity
        else 64) stop).isSome := by
      refine growLoop_isSome 65 hstop ?_
      split
      · omega
      · omega
    obtain ⟨newCapacity, hgrow⟩ := Option.isSome_iff_exists.mp hstart
    have hlt : (s.file n).size < stop := by omega
    have hgt : stop > (s.file n).size := hlt
    have heq : s.tmpfsResizeNode n stop true
        = some ((s.modFile n fun f => { f with
            data := memset0 ((s.file n).data
                ++ List.replicate (newCapacity - (s.file n).capacity) 0)
              (s.file n).size (stop - (s.file n).size) }).setSize n stop, 0) := by
      simp only [tmpfsResizeNode, if_neg hcap, hgrow, if_pos hgt, Bool.not_true,
        Bool.false_eq_true, if_false]
    obtain ⟨-, hne⟩ | ⟨hr, -⟩ := tmpfsResizeNode_cases heq
    · exact absurd rfl hne
    refine ⟨_, heq, hr, fun off hoff => ?_⟩
    have hle : (s.file n).size ≤ ((s.file n).data
        ++ List.replicate (newCapacity - (s.file n).capacity) 0).length := by
      rw [List.length_append]
      exact Nat.le_trans hsize (Nat.le_add_right _ _)
    have hold : ((s.file n).data
        ++ List.replicate (newCapacity - (s.file n).capacity) (0 : UInt8)).take
          (s.file n).size = s.contents n :=
      List.take_append_of_le_length hsize
    rw [← hold, ← take_zeroed hle hoff, if_pos hlt]
    simp [setSize, modFile, modSuper]

-- ==== writing

/-- What a write leaves: the bytes before it, and itself. -/
theorem contents_tmpfsWrite (offset : Nat) (buffer : List UInt8)
    (flags : BitVec 32) (ht : (s.fs.nodes n).type = .reg)
    (hsize : (s.file n).size ≤ (s.file n).capacity)
    (hflags : flags &&& O_APPEND = 0) (hstop : offset + buffer.length < 2 ^ 63) :
    ∃ s', s.tmpfsWrite (some n) (some buffer) buffer.length offset flags true
        = some (s', 0)
      ∧ Resized s s' n (offset + buffer.length)
      ∧ s'.contents n = (s.contents n).take offset
          ++ List.replicate (offset - (s.contents n).length) 0 ++ buffer := by
  obtain ⟨s1, hres, hr, hdata⟩ := tmpfsResizeNode_ok hsize (Nat.le_of_lt hstop)
  have hoff : s.writeOffset n offset flags = offset := by
    simp [writeOffset, hflags]
  have hmod : (offset + buffer.length) % 2 ^ 64 = offset + buffer.length :=
    Nat.mod_eq_of_lt (by omega)
  rw [length_contents hsize, ← hdata offset (Nat.le_add_right _ _)]
  have hle : offset + buffer.length ≤ (s1.file n).data.length := hr.size_le
  simp only [tmpfsWrite, Option.isNone_some, Bool.false_eq_true, false_and, if_false,
    ht, ne_eq, not_true_eq_false, hoff, hmod, hres, Option.getD_some, List.take_length]
  by_cases hlen : buffer.length = 0
  · have hnil : buffer = [] := List.length_eq_zero_iff.mp hlen
    subst hnil
    refine ⟨s1, by simp, hr, ?_⟩
    rw [contents, hr.resized, List.append_nil]
    rfl
  · refine ⟨s1.modFile n fun f => { f with data := memcpyAt f.data offset buffer },
      by rw [if_pos hlen], hr.memcpyAt hle, ?_⟩
    rw [contents, (hr.memcpyAt hle).resized]
    show ((Function.update s1.file n _) n).data.take (offset + buffer.length) = _
    rw [Function.update_self]
    exact take_memcpyAt (by omega)

/-- A write as it should be: in a file with contents `old`, the bytes `b`
at an offset, and every other byte as before. -/
structure Overwritten (old : List UInt8) (offset : Nat) (b new : List UInt8) :
    Prop where
  length : new.length = max old.length (offset + b.length)
  inside : ∀ i, offset ≤ i → i < offset + b.length → new[i]? = b[i - offset]?
  gap : ∀ i, old.length ≤ i → i < offset → new[i]? = some 0
  outside : ∀ i, i < old.length → i < offset ∨ offset + b.length ≤ i →
    new[i]? = old[i]?

/-- The bytes a write leaves are as they should be when nothing comes
after it. -/
theorem overwritten_iff (c b : List UInt8) (offset : Nat) :
    Overwritten c offset b (c.take offset ++ List.replicate (offset - c.length) 0 ++ b)
      ↔ c.length ≤ offset + b.length := by
  have hfront : (c.take offset ++ List.replicate (offset - c.length) (0 : UInt8)).length
      = offset := by
    rw [List.length_append, List.length_take, List.length_replicate]
    omega
  constructor
  · intro h
    have hlen := h.length
    rw [List.length_append, hfront] at hlen
    omega
  · intro hle
    constructor
    · rw [List.length_append, hfront]
      omega
    · intro i hi _
      rw [List.getElem?_append_right (by omega), hfront]
    · intro i hi hlt
      rw [List.getElem?_append_left (by omega), List.getElem?_append_right
        (Nat.le_trans (List.length_take_le' _ _) hi), List.getElem?_replicate,
        List.length_take, if_pos (by omega)]
    · intro i hi hout
      have hlt : i < offset := by omega
      have hin : i < (c.take offset).length := by
        rw [List.length_take]
        omega
      rw [List.append_assoc, List.getElem?_append_left hin, List.getElem?_take,
        if_pos hlt]

/-- A write to a regular file, and what reads return after it: every
byte outside the write is kept if and only if the file does not reach
past it. -/
theorem tmpfsWrite_overwritten (s : Tmpfs) (n offset : Nat) (buffer : List UInt8)
    (flags : BitVec 32) (ht : (s.fs.nodes n).type = .reg)
    (hsize : (s.file n).size ≤ (s.file n).capacity)
    (hflags : flags &&& O_APPEND = 0) (hstop : offset + buffer.length < 2 ^ 63) :
    ∃ s', s.tmpfsWrite (some n) (some buffer) buffer.length offset flags true
        = some (s', 0)
      ∧ ((∃ c, Overwritten (s.contents n) offset buffer c ∧ s'.contents n = c
            ∧ ∀ off size, s'.tmpfsRead (some n) true size off
              = (0, (c.drop off).take size))
          ↔ (s.contents n).length ≤ offset + buffer.length) := by
  obtain ⟨s', hw, hr, hc⟩ := contents_tmpfsWrite offset buffer flags ht hsize
    hflags hstop
  refine ⟨s', hw, ?_⟩
  rw [← overwritten_iff, ← hc]
  constructor
  · rintro ⟨c, hover, rfl, -⟩
    exact hover
  · intro hover
    refine ⟨_, hover, rfl, fun off size => tmpfsRead_eq ?_ size off⟩
    rw [hr.fs]
    exact ht

/-- A run that leaves a file of three bytes. -/
theorem reachable_threeBytes :
    ∃ s, Reachable s ∧ 1 < s.fs.count ∧ (s.fs.nodes 1).type = .reg
      ∧ s.contents 1 = [1, 2, 3] := by
  have hrun : Reachable _ :=
    .write (some 1) (some [1, 2, 3]) 3 0 O_WRONLY true
      (.create (some 0) (some [97]) none S_IFREG true true
        (.mount true .init rfl (by unfold Fits; decide +kernel))
        (fun p hp => by cases hp; decide +kernel) rfl
        (by unfold Fits; decide +kernel))
      (fun n hn => by cases hn; decide +kernel)
      (fun n hn => by cases hn; decide +kernel) rfl
      (by unfold Fits; decide +kernel)
  exact ⟨_, hrun, by decide +kernel, rfl, by decide +kernel⟩

/-- One byte written at the start of that file: it is one byte long
afterwards. -/
theorem tmpfsWrite_cuts :
    ∃ s, Reachable s ∧ (s.fs.nodes 1).type = .reg ∧ s.contents 1 = [1, 2, 3]
      ∧ ∃ s', s.tmpfsWrite (some 1) (some [9]) 1 0 O_WRONLY true = some (s', 0)
        ∧ s'.contents 1 = [9] ∧ ¬ Overwritten [1, 2, 3] 0 [9] (s'.contents 1) := by
  obtain ⟨s, hs, hlt, ht, hc⟩ := reachable_threeBytes
  obtain ⟨s', hw, -, hc'⟩ := contents_tmpfsWrite 0 [9] O_WRONLY ht
    (hs.size_le hlt) (by decide) (by decide)
  rw [hc] at hc'
  refine ⟨s, hs, ht, hc, s', hw, hc', fun h => ?_⟩
  have hlen := h.length
  rw [hc'] at hlen
  cases hlen

/-- And one byte written at its end: it is there, and so are the others. -/
theorem tmpfsWrite_appends :
    ∃ s s', Reachable s ∧ s.contents 1 = [1, 2, 3]
      ∧ s.tmpfsWrite (some 1) (some [9]) 1 3 O_WRONLY true = some (s', 0)
      ∧ Overwritten [1, 2, 3] 3 [9] (s'.contents 1) := by
  obtain ⟨s, hs, hlt, ht, hc⟩ := reachable_threeBytes
  obtain ⟨s', hw, hiff⟩ := tmpfsWrite_overwritten s 1 3 [9] O_WRONLY ht
    (hs.size_le hlt) (by decide) (by decide)
  rw [hc] at hiff
  obtain ⟨c, hover, rfl, -⟩ := hiff.mpr (by decide)
  exact ⟨s, s', hs, hc, hw, hover⟩

end Alix.Tmpfs
