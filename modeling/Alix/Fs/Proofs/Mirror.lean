/-
The two models of a file agree.

`Files.lean` has a file's buffer as a list, `Buffer.lean` has it in the
kernel's heap. `Shows` is what connects them: the same type, and the same
bytes. A write in the heap that succeeds is one in the store, and keeps
`Shows` (`Shows.write`); what a read copies is the same in both
(`Shows.read`). So what is said of the contents of files holds of the
bytes in the heap. Writes that append or wrap are left to the two models.
-/
import Alix.Fs.Proofs.Append
import Alix.Fs.Proofs.Contents

namespace Alix.FileState

open Bytes (Byte)
open Dyadic (Block)

variable {maxPfn n : Nat} {usable : Nat → Bool} {f f' : FileState} {s : Tmpfs}
  {live : List (Nat × Nat)} {others : List Block} {a : WriteArgs}

/-- Node `n` of the store is the file in the heap. -/
structure Shows (s : Tmpfs) (n : Nat) (f : FileState) : Prop where
  type_eq : (s.fs.nodes n).type = f.node.type
  bytes : s.contents n = f.contents.map UInt8.ofBitVec
  fits : (s.file n).size ≤ (s.file n).capacity

/-- An empty file of the store is a new one in the heap. -/
theorem shows_newFile (heap : Kheap) (byteCount now : Nat) (hreg : (s.fs.nodes n).type = .reg)
    (hempty : (s.file n).size = 0) : Shows s n (newFile heap byteCount now) :=
  ⟨hreg, by simp [Tmpfs.contents, hempty, contents, newFile], by simp [hempty]⟩

-- ==== writing

theorem writeLocked_kind {offset now : Nat} {rc : Int}
    (h : f.writeLocked a offset now = .ok (f', rc)) : f'.node.type = f.node.type := by
  cases hres : f.resizeNode ((offset + a.size) % 2 ^ 64) with
  | error e => simp [writeLocked_stops now hres] at h
  | ok r =>
      rw [writeLocked_of_resize now hres] at h
      obtain ⟨rfl, -⟩ := Prod.mk.inj (Except.ok.inj h)
      rw [← (resizeNode_kind hres).1]
      split
      · rfl
      · rfl

/-- A write that does not wrap succeeds in the store as well. -/
theorem Shows.write {writec writec' : Option Nat} {now : Nat} (h : Shows s n f)
    (hf : Sound maxPfn usable f live others) (href : ¬ f.Refused a)
    (happend : a.flags &&& O_APPEND = 0) (hend : a.offset + a.size < 2 ^ 63)
    (hw : f.tmpfsWrite a writec now = .ok (f', writec', 0)) :
    ∃ s', s.tmpfsWrite (some n) (some ((bytesOf a).map UInt8.ofBitVec)) a.size a.offset
        a.flags true = some (s', 0)
      ∧ Shows s' n f' := by
  obtain ⟨hlocked, -⟩ := (tmpfsWrite_locked writec href).mp hw
  rw [show f.writeOffset a = a.offset by simp [writeOffset, happend]] at hlocked
  have htype : f.node.type = .reg := by
    by_contra hne
    exact href (Or.inr (Or.inr (Or.inr hne)))
  rcases hf.writeLocked (by omega) hlocked with ⟨hrc, -⟩ | ⟨-, -, hwrote⟩
  · cases hrc
  · have hlen : ((bytesOf a).map UInt8.ofBitVec).length = a.size := by simp [bytesOf]
    rw [← hlen] at hend
    obtain ⟨s', hs', hr, hc⟩ := Tmpfs.contents_tmpfsWrite a.offset _ a.flags
      (h.type_eq.trans htype) h.fits happend hend
    rw [hlen] at hs'
    refine ⟨s', hs', ?_, ?_, ?_⟩
    · rw [hr.fs, h.type_eq, writeLocked_kind hlocked]
    · rw [hc, h.bytes, hwrote.contents_at, List.map_append, List.map_append, List.map_take,
        List.map_replicate, List.length_map]
      rfl
    · rw [hr.resized]
      exact hr.size_le

-- ==== reading

/-- Both models copy the same bytes. -/
theorem Shows.read {readc : Option Nat} {now size offset : Nat} (h : Shows s n f)
    (hreg : f.node.type = .reg) (hdata : f.node.privateData = true) :
    s.tmpfsRead (some n) true size offset
      = (0, (f.tmpfsRead true true size offset readc now).2.2.2.map UInt8.ofBitVec) := by
  rw [Tmpfs.tmpfsRead_eq (h.type_eq.trans hreg), h.bytes]
  simp only [FileState.tmpfsRead, hreg, hdata, Bool.not_true, Bool.false_eq_true, ne_eq,
    not_true_eq_false, or_self, if_false]
  apply congrArg
  apply List.ext_getElem
  · simp only [contents, Tmpfs.tmpfsMinSize, List.length_take, List.length_drop,
      List.length_map, List.length_range]
    split
    · omega
    · split
      · omega
      · omega
  · intro i h1 h2
    simp [contents, Nat.add_assoc]

end Alix.FileState
