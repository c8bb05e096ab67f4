/-
Threads that append to one file.

# What can go wrong

`tmpfs_write` reads the size of the file and takes `size_lock` then. A
second thread that has read the size before the first one has written has
the same offset. It writes over what the first one wrote, and the file
ends behind its own bytes (`append_lost`).

# What holds

Where every call that gets its memory finds the file as long as it has
read it to be, each of them puts its bytes behind the others'
(`append_inOrder`), whatever the rest of the kernel does with the heap in
between.
-/
import Alix.Fs.Proofs.Stale

namespace Alix.FileState

open Bytes (Byte)
open Dyadic (Block)
open Kheap (Elsewhere)

variable {maxPfn : Nat} {usable : Nat → Bool} {s s' s₀ : FileState}
  {live live' : List (Nat × Nat)} {others : List Block}

/-- The bytes of the file. -/
def contents (s : FileState) : List Byte :=
  (List.range s.node.size).map fun i => s.heap.mem (s.node.data + i)

/-- The bytes a call is given. -/
def bytesOf (a : WriteArgs) : List Byte := (List.range a.size).map a.byte

-- ==== the threads

/-- A call that has read the size and not yet taken the lock: its
arguments, and the offset. -/
abbrev Pending : Type := Nat → Option (WriteArgs × Nat)

/-- The states of a file that threads append to, starting from `s₀`, with
the calls that wait for the lock and the buffers of those that have
succeeded. What is done under the lock is one step, and meets `C`. -/
inductive Appending (maxPfn : Nat) (usable : Nat → Bool)
    (C : FileState → WriteArgs → Nat → Prop) (s₀ : FileState) :
    FileState → List (Nat × Nat) → List Block → Pending → List (List Byte) → Prop
  | init {live : List (Nat × Nat)} {others : List Block} : Sound maxPfn usable s₀ live others →
      Appending maxPfn usable C s₀ s₀ live others (fun _ => none) []
  | elsewhere {s : FileState} {heap : Kheap} {live live' : List (Nat × Nat)}
      {others others' : List Block} {pending : Pending} {done : List (List Byte)} :
      Appending maxPfn usable C s₀ s live others pending done →
      Elsewhere maxPfn usable s.node.data s.heap live others heap live' others' →
      Appending maxPfn usable C s₀ { s with heap } live' others' pending done
  /-- A thread calls `tmpfs_write` with `O_APPEND`, up to the lock. -/
  | start {s : FileState} {live : List (Nat × Nat)} {others : List Block} {pending : Pending}
      {done : List (List Byte)} (thread : Nat) (a : WriteArgs) :
      Appending maxPfn usable C s₀ s live others pending done →
      pending thread = none → ¬ s.Refused a → a.flags &&& O_APPEND ≠ 0 →
      Appending maxPfn usable C s₀ s live others
        (Function.update pending thread (some (a, s.writeOffset a))) done
  /-- It has the lock. -/
  | locked {s s' : FileState} {live : List (Nat × Nat)} {others : List Block} {pending : Pending}
      {done : List (List Byte)} {thread offset now : Nat} {a : WriteArgs} {rc : Int} :
      Appending maxPfn usable C s₀ s live others pending done →
      pending thread = some (a, offset) → C s a offset →
      s.writeLocked a offset now = .ok (s', rc) →
      Appending maxPfn usable C s₀ s' (liveAfter live s s') others
        (Function.update pending thread none) (if rc = 0 then done ++ [bytesOf a] else done)

/-- The file is what it was, and then the buffers, in some order. -/
def Appended (s₀ s : FileState) (done : List (List Byte)) : Prop :=
  ∃ order : List (List Byte), order.Perm done ∧ s.contents = s₀.contents ++ order.flatten

/-- There is no memory for the write, or the file is as long as the call
has read it to be, and the end does not wrap. -/
def InOrder (s : FileState) (a : WriteArgs) (offset : Nat) : Prop :=
  s.NoGrowth ((offset + a.size) % 2 ^ 64)
    ∨ (offset = s.node.size ∧ offset + a.size < 2 ^ 64)

-- ==== the bytes

theorem contents_congr (hsize : s'.node.size = s.node.size)
    (hm : ∀ i, i < s.node.size → s'.heap.mem (s'.node.data + i) = s.heap.mem (s.node.data + i)) :
    s'.contents = s.contents := by
  unfold contents
  rw [hsize]
  refine List.map_congr_left fun i hi => hm i ?_
  rwa [List.mem_range] at hi

/-- A write leaves the bytes before it, zeros up to it and its own. -/
theorem Wrote.contents_at {a : WriteArgs} {offset : Nat} (h : Wrote s s' live a offset) :
    s'.contents = s.contents.take offset
      ++ List.replicate (offset - s.contents.length) 0 ++ bytesOf a := by
  apply List.ext_getElem
  · simp [FileState.contents, bytesOf, h.size_eq]
    omega
  · intro i h1 h2
    have hi : i < offset + a.size := by simpa [FileState.contents, h.size_eq] using h1
    simp only [FileState.contents, List.getElem_map, List.getElem_range, h.bytes i hi]
    rcases Nat.lt_or_ge i offset with hlt | hge
    · rw [if_neg (by omega)]
      rcases Nat.lt_or_ge i s.node.size with hold | hzero
      · simp [hlt, hold]
      · have hgap : i - min offset s.node.size < offset - s.node.size := by omega
        simp [hzero, hgap, Nat.not_lt.mpr hzero]
    · -- behind the gap, whether there is one or not
      have hskip : i - min offset s.node.size - (offset - s.node.size) = i - offset := by omega
      have hgap : ¬ i - min offset s.node.size < offset - s.node.size := by omega
      simp [hge, List.getElem_append, bytesOf, hgap, hskip]

/-- A write at the end puts its bytes there. -/
theorem Wrote.contents {a : WriteArgs} (h : Wrote s s' live a s.node.size) :
    s'.contents = s.contents ++ bytesOf a := by
  have hlen : s.contents.length = s.node.size := by simp [FileState.contents]
  rw [h.contents_at, hlen, Nat.sub_self, ← hlen, List.take_length, List.replicate_zero,
    List.append_nil]

-- ==== the runs

/-- What every step keeps: the buffers are behind each other in the order
in which their calls had the lock. -/
theorem Appending.inOrder {pending : Pending} {done : List (List Byte)}
    (h : Appending maxPfn usable InOrder s₀ s live others pending done) :
    Sound maxPfn usable s live others ∧ s.contents = s₀.contents ++ done.flatten := by
  induction h with
  | init hsound => exact ⟨hsound, (List.append_nil _).symm⟩
  | elsewhere _ e ih =>
      obtain ⟨hsound, hcontents⟩ := ih
      obtain ⟨hsound', hsame⟩ := hsound.elsewhere e
      have hfits := hsound.owns.fits
      refine ⟨hsound', Eq.trans ?_ hcontents⟩
      exact contents_congr rfl fun i hi => hsame i (by omega)
  | start _ _ _ _ _ _ ih => exact ih
  | @locked s s' live others pending done thread offset now a rc _ _ hc hs ih =>
      obtain ⟨hsound, hcontents⟩ := ih
      have hfits : s.FitsAt a offset := hc.symm.imp (fun hin => hin.2) id
      cases hsound.lockedAt hfits hs with
      | inl hz =>
          rw [if_neg hz.1, hz.2, liveAfter_same live rfl]
          exact ⟨hsound, hcontents⟩
      | inr hz =>
          obtain ⟨hrc, hsound', hw⟩ := hz
          rw [if_pos hrc]
          have hoff : offset = s.node.size := by
            cases hc with
            | inl hno =>
                -- without memory it would have failed
                exact absurd hrc (hsound.locked_refused hno hs)
            | inr hin => exact hin.1
          rw [hoff] at hw
          refine ⟨hsound', ?_⟩
          rw [hw.contents, hcontents, List.flatten_append, List.flatten_singleton,
            List.append_assoc]

/-- Where every call that gets its memory finds the size it has read, no
buffer is lost and none is cut. -/
theorem append_inOrder {pending : Pending} {done : List (List Byte)}
    (h : Appending maxPfn usable InOrder s₀ s live others pending done) : Appended s₀ s done :=
  ⟨done, List.Perm.refl done, h.inOrder.2⟩

-- ==== two threads

/-- One byte, to be appended. -/
def appendByte (b : Byte) : WriteArgs :=
  ⟨true, some fun _ => b, 1, 0, O_APPEND, Nat.one_lt_two_pow' 63, Nat.two_pow_pos 64⟩

theorem appendByte_offset (s : FileState) (b : Byte) : s.writeOffset (appendByte b) = s.node.size :=
  if_pos (show O_APPEND &&& O_APPEND ≠ 0 by decide)

/-- One call is behind what was there. -/
theorem append_inOrder_one : ∃ s live pending,
    Appending 16 (fun q => 1 ≤ q) InOrder bootFile s live [] pending [bytesOf (appendByte 97)]
      ∧ Appended bootFile s [bytesOf (appendByte 97)] := by
  obtain ⟨t, hres⟩ := bootFile_resize
  have hlocked : bootFile.writeLocked (appendByte 97) 0 0 = _ :=
    writeLocked_of_resize 0 hres
  have hstart := (Appending.init (C := InOrder) sound_bootFile).start 0 (appendByte 97) rfl
    (accepted rfl rfl rfl rfl) (by decide)
  rw [appendByte_offset] at hstart
  have hrun := hstart.locked (Function.update_self 0 _ _)
    (Or.inr ⟨rfl, show 0 + 1 < 2 ^ 64 by omega⟩) hlocked
  rw [if_pos rfl, List.nil_append] at hrun
  exact ⟨_, _, _, hrun, append_inOrder hrun⟩

/-- Two threads read the size of an empty file, and then write a byte
each: both calls succeed, and the file has one byte. -/
theorem append_lost : ∃ s live pending,
    Appending 16 (fun q => 1 ≤ q) (fun _ _ _ => True) bootFile s live [] pending
      [bytesOf (appendByte 97), bytesOf (appendByte 98)]
      ∧ s.node.size = 1
      ∧ ¬ Appended bootFile s [bytesOf (appendByte 97), bytesOf (appendByte 98)] := by
  obtain ⟨t, hres⟩ := bootFile_resize
  have hfirst : bootFile.writeLocked (appendByte 97) 0 0 = _ :=
    writeLocked_of_resize 0 hres
  rw [if_pos rfl] at hfirst
  have hstart := ((Appending.init (C := fun _ _ _ => True) sound_bootFile).start 0 (appendByte 97)
    rfl (accepted rfl rfl rfl rfl) (by decide)).start 1 (appendByte 98)
    (Function.update_of_ne (by decide) _ _) (accepted rfl rfl rfl rfl) (by decide)
  rw [appendByte_offset, appendByte_offset] at hstart
  have hrun := hstart.locked
    ((Function.update_of_ne (by decide) _ _).trans (Function.update_self 0 _ _)) trivial hfirst
  -- the second one finds a file of one byte, and writes at 0
  obtain ⟨-, hsound, hw⟩ := (sound_bootFile.lockedAt
    (Or.inl (show 0 + 1 < 2 ^ 64 by omega)) hfirst).resolve_left fun hz => hz.1 rfl
  have hfits := hsound.owns.fits
  have hone : (t.stored (appendByte 97) 0 0).node.size = 1 := hw.size_eq
  have hres' : (t.stored (appendByte 97) 0 0).resizeNode 1
      = .ok ((t.stored (appendByte 97) 0 0).setSize 1, 0) := by
    rw [resizeNode_inside _ (by omega), if_neg (by omega)]
  have hsecond : (t.stored (appendByte 97) 0 0).writeLocked (appendByte 98) 0 0 = _ :=
    writeLocked_of_resize 0 hres'
  rw [if_pos rfl] at hsecond
  have hrun' := hrun.locked
    ((Function.update_of_ne (by decide) _ _).trans (Function.update_self 1 _ _)) trivial hsecond
  rw [if_pos rfl, if_pos rfl] at hrun'
  refine ⟨_, _, _, hrun', rfl, fun happ => ?_⟩
  obtain ⟨order, hperm, hcontents⟩ := happ
  -- one byte is not two
  have hlen := congrArg List.length hcontents
  rw [List.length_append, hperm.flatten.length_eq] at hlen
  cases hlen

end Alix.FileState
