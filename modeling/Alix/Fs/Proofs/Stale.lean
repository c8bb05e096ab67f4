/-
What a read of a file returns, over whole runs.

# What can go wrong

A truncation resets the size and leaves the bytes, and a new buffer comes
with what its last owner left in it; a resize has to clear both. A write
whose end wraps puts its bytes at the start of the buffer and below it,
where the file does not have them (`read_unwritten`).

# What holds

The history of a file is what was written at each position since the file
last ended there. In a run whose writes do not wrap, a read returns the
history, and zero where there is none (`run_noStale`). The rest of the
kernel uses the heap between the calls, and does not touch the buffer.
-/
import Alix.Fs.Proofs.Buffer

namespace Alix.FileState

open Bytes (Byte)
open Dyadic (Block)
open Kheap (Kept Elsewhere)

variable {maxPfn : Nat} {usable : Nat → Bool} {s s' : FileState}
  {live live' : List (Nat × Nat)} {others others' : List Block} {rc : Int}

-- ==== the history

/-- The byte last written at a position, if any was since the file ended
at or below it. -/
abbrev History : Type := Nat → Option Byte

/-- The file ends. -/
def History.cut (hist : History) (size : Nat) : History :=
  fun p => if p < size then hist p else none

/-- Bytes are written. -/
def History.put (hist : History) (offset n : Nat) (byte : Nat → Byte) : History :=
  fun p => if offset ≤ p ∧ p < offset + n then some (byte (p - offset)) else hist p

/-- A read of the file returns what was written, and zero where nothing
was. -/
def NoStale (s : FileState) (hist : History) : Prop :=
  ∀ node buffer size offset readc now i b,
    (s.tmpfsRead node buffer size offset readc now).2.2.2[i]? = some b →
      hist (offset + i) = some b ∨ (hist (offset + i) = none ∧ b = 0)

-- ==== the runs

/-- The states of a file with their histories, and the allocations of its
heap. The writes meet `C`. -/
inductive Run (maxPfn : Nat) (usable : Nat → Bool) (C : FileState → WriteArgs → Prop) :
    FileState → List (Nat × Nat) → List Block → History → Prop
  /-- A new file, in a heap that has been used before. -/
  | init {heap : Kheap} {live : List (Nat × Nat)} {others : List Block} (byteCount now : Nat) :
      Kheap.Run maxPfn usable heap live others →
      Run maxPfn usable C (newFile heap byteCount now) live others fun _ => none
  /-- The rest of the kernel uses the heap. -/
  | elsewhere {s : FileState} {heap : Kheap} {live live' : List (Nat × Nat)}
      {others others' : List Block} {hist : History} : Run maxPfn usable C s live others hist →
      Elsewhere maxPfn usable s.node.data s.heap live others heap live' others' →
      Run maxPfn usable C { s with heap } live' others' hist
  | opened {s : FileState} {live : List (Nat × Nat)} {others : List Block} {hist : History}
      (node : Bool) (flags : BitVec 32) (now : Nat) : Run maxPfn usable C s live others hist →
      Run maxPfn usable C (s.tmpfsOpen node flags now).1 live others
        (hist.cut (s.tmpfsOpen node flags now).1.node.size)
  | read {s : FileState} {live : List (Nat × Nat)} {others : List Block} {hist : History}
      (node buffer : Bool) (size offset : Nat) (readc : Option Nat) (now : Nat) :
      Run maxPfn usable C s live others hist →
      Run maxPfn usable C (s.tmpfsRead node buffer size offset readc now).1 live others hist
  /-- A write that returns. -/
  | write {s s' : FileState} {live : List (Nat × Nat)} {others : List Block} {hist : History}
      {a : WriteArgs} {writec writec' : Option Nat} {now : Nat} {rc : Int} :
      Run maxPfn usable C s live others hist → C s a →
      s.tmpfsWrite a writec now = .ok (s', writec', rc) →
      Run maxPfn usable C s' (liveAfter live s s') others
        (if rc = 0 then (hist.put (s.writeOffset a) a.size a.byte).cut s'.node.size else hist)

/-- The write is refused at once, or its end does not wrap, or the heap
refuses it. -/
def Unwrapped (s : FileState) (a : WriteArgs) : Prop :=
  s.Refused a ∨ s.FitsAt a (s.writeOffset a)

theorem unwrapped_writeAt (s : FileState) {offset size : Nat} {byte : Nat → Byte}
    {h1 : size < 2 ^ 64} {h2 : offset < 2 ^ 64} (h : offset + size < 2 ^ 64) :
    s.Unwrapped (writeAt offset size byte h1 h2) := by
  refine Or.inr (Or.inl ?_)
  rw [writeOffset_writeAt]
  exact h

-- ==== the invariant

/-- The file is its history. -/
structure Recorded (s : FileState) (hist : History) : Prop where
  bytes : ∀ p, p < s.node.size → s.heap.mem (s.node.data + p) = (hist p).getD 0
  beyond : ∀ p, s.node.size ≤ p → hist p = none

/-- A file whose bytes are the same. -/
theorem Recorded.congr {hist : History} (h : Recorded s hist)
    (hsize : s'.node.size = s.node.size)
    (hm : ∀ p, p < s.node.size → s'.heap.mem (s'.node.data + p) = s.heap.mem (s.node.data + p)) :
    Recorded s' hist := by
  refine ⟨fun p hp => ?_, fun p hp => h.beyond p (by rwa [hsize] at hp)⟩
  rw [hsize] at hp
  rw [hm p hp]
  exact h.bytes p hp

/-- Where the file does not change its size there is nothing to cut. -/
theorem Recorded.cut_self {hist : History} (h : Recorded s hist) : hist.cut s.node.size = hist := by
  funext p
  unfold History.cut
  split
  · rfl
  · rename_i hp
    exact (h.beyond p (Nat.le_of_not_lt hp)).symm

/-- The heap does not touch the buffer of another. -/
theorem Sound.elsewhere {heap : Kheap} (h : Sound maxPfn usable s live others)
    (e : Elsewhere maxPfn usable s.node.data s.heap live others heap live' others') :
    Sound maxPfn usable { s with heap } live' others'
      ∧ ∀ p, p < s.node.capacity → heap.mem (s.node.data + p) = s.heap.mem (s.node.data + p) := by
  have hkept := e.kept h.heap
  cases h.owns.buffer with
  | inl h0 => exact ⟨⟨hkept, h.owns.fits, h.owns.doubled, Or.inl h0⟩, fun p hp => by omega⟩
  | inr hx =>
      obtain ⟨hx', hsame⟩ := e.bytes h.heap hx
      refine ⟨⟨hkept, h.owns.fits, h.owns.doubled, Or.inr hx'⟩, fun p hp => ?_⟩
      exact hsame _ (by omega) (by omega)

theorem tmpfsOpen_cases (s : FileState) (node : Bool) (flags : BitVec 32) (now : Nat) :
    (s.tmpfsOpen node flags now).1 = s ∨ ((s.tmpfsOpen node flags now).1.heap = s.heap
      ∧ (s.tmpfsOpen node flags now).1.node
        = { s.node with size := 0, mtime := tmpfsNow now, ctime := tmpfsNow now }) := by
  unfold tmpfsOpen
  split
  · exact Or.inl rfl
  · split
    · exact Or.inl rfl
    · split
      · exact Or.inl rfl
      · split
        · exact Or.inr ⟨rfl, rfl⟩
        · exact Or.inl rfl

theorem tmpfsRead_same (s : FileState) (node buffer : Bool) (size offset : Nat)
    (readc : Option Nat) (now : Nat) : ∃ atime,
      (s.tmpfsRead node buffer size offset readc now).1 = { s with node := { s.node with atime } } := by
  unfold tmpfsRead
  split
  · exact ⟨s.node.atime, rfl⟩
  · split
    · exact ⟨s.node.atime, rfl⟩
    · exact ⟨tmpfsNow now, rfl⟩

/-- A write that returns, and does not wrap. -/
theorem Sound.tmpfsWrite {a : WriteArgs} {writec writec' : Option Nat} {now : Nat}
    (h : Sound maxPfn usable s live others) (hu : s.Unwrapped a)
    (hs : s.tmpfsWrite a writec now = .ok (s', writec', rc)) :
    (rc ≠ 0 ∧ s' = s) ∨ (rc = 0 ∧ Sound maxPfn usable s' (liveAfter live s s') others
      ∧ Wrote s s' live a (s.writeOffset a)) := by
  by_cases href : s.Refused a
  · rw [tmpfsWrite_refused href] at hs
    cases hs
    exact Or.inl ⟨by decide, rfl⟩
  · obtain ⟨hlocked, -⟩ := (tmpfsWrite_locked writec href).mp hs
    exact h.lockedAt (hu.resolve_left href) hlocked

/-- What one write makes of the history. -/
theorem Recorded.wrote {hist : History} {a : WriteArgs} {offset : Nat} (h : Recorded s hist)
    (hw : Wrote s s' live a offset) :
    Recorded s' ((hist.put offset a.size a.byte).cut s'.node.size) := by
  refine ⟨fun p hp => ?_, fun p hp => if_neg (Nat.not_lt.mpr hp)⟩
  have hp' := hp
  rw [hw.size_eq] at hp'
  rw [hw.bytes p hp']
  have hcut : (hist.put offset a.size a.byte).cut s'.node.size p
      = if offset ≤ p then some (a.byte (p - offset)) else hist p := by
    unfold History.cut History.put
    rw [if_pos hp]
    by_cases hin : offset ≤ p
    · rw [if_pos hin, if_pos ⟨hin, hp'⟩]
    · rw [if_neg hin, if_neg fun hc => hin hc.1]
  rw [hcut]
  by_cases hin : offset ≤ p
  · rw [if_pos hin, if_pos hin]
    rfl
  · rw [if_neg hin, if_neg hin]
    split
    · rename_i hold
      exact h.bytes p hold
    · rename_i hnew
      rw [h.beyond p (Nat.le_of_not_lt hnew)]
      rfl

/-- Every step of a run keeps the file sound, and its history. -/
theorem Run.recorded {hist : History} (h : Run maxPfn usable Unwrapped s live others hist) :
    Sound maxPfn usable s live others ∧ Recorded s hist := by
  induction h with
  | init byteCount now hrun =>
      refine ⟨sound_newFile hrun.kept byteCount now, fun p hp => ?_, fun _ _ => rfl⟩
      exact absurd hp (Nat.not_lt_zero p)
  | elsewhere _ e ih =>
      obtain ⟨hsound, hrec⟩ := ih
      obtain ⟨hsound', hsame⟩ := hsound.elsewhere e
      have hfits := hsound.owns.fits
      exact ⟨hsound', hrec.congr rfl fun p hp => hsame p (by omega)⟩
  | @opened s live others hist node flags now _ ih =>
      obtain ⟨hsound, hrec⟩ := ih
      cases tmpfsOpen_cases s node flags now with
      | inl hsame =>
          rw [hsame, hrec.cut_self]
          exact ⟨hsound, hrec⟩
      | inr hcut =>
          obtain ⟨hheap, hnode⟩ := hcut
          refine ⟨⟨by rw [hheap]; exact hsound.heap, ?_⟩, fun p hp => ?_, fun p hp => ?_⟩
          · rw [hnode]
            exact ⟨Nat.zero_le _, hsound.owns.doubled, hsound.owns.buffer⟩
          · rw [hnode] at hp
            exact absurd hp (Nat.not_lt_zero p)
          · exact if_neg (Nat.not_lt.mpr hp)
  | @read s live others hist node buffer size offset readc now _ ih =>
      obtain ⟨hsound, hrec⟩ := ih
      obtain ⟨atime, hsame⟩ := tmpfsRead_same s node buffer size offset readc now
      rw [hsame]
      exact ⟨⟨hsound.heap, hsound.owns.fits, hsound.owns.doubled, hsound.owns.buffer⟩,
        hrec.congr rfl fun _ _ => rfl⟩
  | @write s s' live others hist a writec writec' now rc _ hc hs ih =>
      obtain ⟨hsound, hrec⟩ := ih
      cases hsound.tmpfsWrite hc hs with
      | inl hz =>
          rw [if_neg hz.1, hz.2, liveAfter_same live rfl]
          exact ⟨hsound, hrec⟩
      | inr hz =>
          rw [if_pos hz.1]
          exact ⟨hz.2.1, hrec.wrote hz.2.2⟩

-- ==== the reads

/-- What a read returns. -/
theorem tmpfsRead_byte {node buffer : Bool} {size offset : Nat} {readc : Option Nat} {now i : Nat}
    {b : Byte} (h : (s.tmpfsRead node buffer size offset readc now).2.2.2[i]? = some b) :
    offset + i < s.node.size ∧ b = s.heap.mem (s.node.data + (offset + i)) := by
  unfold tmpfsRead at h
  split at h
  · cases h
  · split at h
    · cases h
    · dsimp only at h
      rw [List.getElem?_map] at h
      obtain ⟨j, hj, hb⟩ := Option.map_eq_some_iff.mp h
      obtain ⟨hlt, hji⟩ := List.getElem?_eq_some_iff.mp hj
      rw [List.length_range] at hlt
      rw [List.getElem_range] at hji
      rw [← hji, Nat.add_assoc] at hb
      refine ⟨?_, hb.symm⟩
      split at hlt
      · exact absurd hlt (Nat.not_lt_zero i)
      · unfold Tmpfs.tmpfsMinSize at hlt
        split at hlt
        · omega
        · omega

/-- A read after writes that do not wrap returns what was written at each
position since the file last ended there, and zero where nothing was. -/
theorem run_noStale {hist : History} (h : Run maxPfn usable Unwrapped s live others hist) :
    NoStale s hist := by
  obtain ⟨-, hrec⟩ := h.recorded
  intro node buffer size offset readc now i b hread
  obtain ⟨hlt, hb⟩ := tmpfsRead_byte hread
  rw [hrec.bytes _ hlt] at hb
  cases hp : hist (offset + i) with
  | none =>
      rw [hp] at hb
      exact Or.inr ⟨rfl, hb⟩
  | some v =>
      rw [hp] at hb
      exact Or.inl (congrArg some hb.symm)

/-- After one byte at the start of a new file. -/
theorem run_noStale_byte : ∃ s live hist,
    Run 16 (fun q => 1 ≤ q) Unwrapped s live [] hist ∧ NoStale s hist := by
  obtain ⟨s, hs, -, -⟩ := bootFile_write fun _ => 97
  have hrun : Run 16 (fun q => 1 ≤ q) Unwrapped s (liveAfter [] bootFile s) [] _ :=
    (Run.init 0 0 Kheap.run_bootHeap).write (unwrapped_writeAt _ (by omega)) hs
  exact ⟨s, _, _, hrun, run_noStale hrun⟩

/-- 97 is written at the start, then two bytes at the last offset there is:
a read at the start returns the second of them. -/
theorem read_unwritten : ∃ s live hist,
    Run 16 (fun q => 1 ≤ q) (fun _ _ => True) s live [] hist ∧ hist 0 = some 97
      ∧ (s.tmpfsRead true true 1 0 none 0).2.2.2 = [99] ∧ ¬ NoStale s hist := by
  obtain ⟨s, hs, htype, hpriv⟩ := bootFile_write fun _ => 97
  obtain ⟨-, hsound, hw⟩ := (sound_bootFile.tmpfsWrite
    (unwrapped_writeAt _ (by omega)) hs).resolve_left fun hz => hz.1 rfl
  have hsize : s.node.size = 1 := by
    rw [hw.size_eq, writeOffset_writeAt]
    rfl
  have hrun : Run 16 (fun q => 1 ≤ q) (fun _ _ => True) s (liveAfter [] bootFile s) []
      (if (0 : Int) = 0 then (History.put (fun _ => none)
        (bootFile.writeOffset (writeAt 0 1 (fun _ => 97) (by omega) (by omega))) 1
          fun _ => 97).cut s.node.size else fun _ => none) :=
    (Run.init 0 0 Kheap.run_bootHeap).write trivial hs
  rw [if_pos rfl, hsize, writeOffset_writeAt] at hrun
  have hfits := hsound.owns.fits
  have hbound := hsound.bounds.1
  have hdata := hsound.data_pos (by omega)
  -- the second write ends at 1, in the buffer that is there
  have href : ¬ s.Refused wrapArgs := accepted rfl rfl hpriv htype
  have hres : s.resizeNode 1 = .ok (s.setSize 1, 0) := by
    rw [resizeNode_inside s (by omega), if_neg (by omega)]
  have hend : (2 ^ 64 - 1 + wrapArgs.size) % 2 ^ 64 = 1 := by
    show (2 ^ 64 - 1 + 2) % 2 ^ 64 = 1
    omega
  have hlocked : s.writeLocked wrapArgs (2 ^ 64 - 1) 0 = _ :=
    writeLocked_of_resize 0 (by rw [hend]; exact hres)
  rw [if_pos rfl] at hlocked
  have hs' := (tmpfsWrite_locked none href).mpr ⟨hlocked, rfl⟩
  have hbyte : ((s.setSize 1).stored wrapArgs (2 ^ 64 - 1) 0).heap.mem s.node.data = 99 :=
    (memcpyTo_wrap wrapArgs.byte hdata (by omega)).2
  have hread : (((s.setSize 1).stored wrapArgs (2 ^ 64 - 1) 0).tmpfsRead true true 1 0 none 0).2.2.2
      = [99] := by
    unfold tmpfsRead
    rw [if_neg (by simp)]
    rw [if_neg (by simp [stored, setSize, hpriv, htype])]
    show [((s.setSize 1).stored wrapArgs (2 ^ 64 - 1) 0).heap.mem s.node.data] = [99]
    rw [hbyte]
  refine ⟨_, _, _, hrun.write trivial hs', ?_⟩
  rw [if_pos rfl, show s.writeOffset wrapArgs = 2 ^ 64 - 1 from writeOffset_writeAt s]
  -- position 0 is in front of the second write
  have hhist : (((History.put (fun _ => none) 0 1 fun _ => 97).cut 1).put (2 ^ 64 - 1)
      wrapArgs.size wrapArgs.byte).cut 1 0 = some 97 := by
    unfold History.cut
    rw [if_pos (by omega)]
    unfold History.put
    rw [if_neg (by omega)]
    rfl
  refine ⟨hhist, hread, fun hno => ?_⟩
  cases hno true true 1 0 none 0 0 99 (by rw [hread]; rfl) with
  | inl h => exact absurd (hhist.symm.trans h) (by decide)
  | inr h => exact absurd (hhist.symm.trans h.1) (by decide)

end Alix.FileState
