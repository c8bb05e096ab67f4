/-
The page tables in the memory of the heap.

`paging.c` reads and writes tables through the direct map, and the heap
gives out the same memory by the byte. `tables` is the memory as
`Paging.lean` sees it, words by frame; `withTables` puts the words back
where they came from. A mapping that the kernel makes for itself is then a
function of the heap's state.
-/
import Alix.Mm.Paging
import Alix.Mm.Kheap

namespace Alix.Kheap

open Paging (Machine Word)

/-- The words of the frames; a table has 512. -/
def tables (s : Kheap) : Machine Pmm :=
  ⟨s.pmm, fun frame index =>
    if index < 512 then BitVec.ofNat 64 (s.get64 (s.physToVirt (pfnPhys frame) + index * 8)) else 0⟩

/-- The bytes of the words. -/
def withTables (s : Kheap) (m : Machine Pmm) : Kheap :=
  { s with
    pmm := m.pmm
    mem := fun a =>
      if a < s.hhdm then s.mem a
      else Bytes.byteOf (m.mem ((a - s.hhdm) / 4096) ((a - s.hhdm) % 4096 / 8)).toNat
        ((a - s.hhdm) % 8) }

/-- `paging_map_range`, of the space with this root. -/
def pagingMapRange (s : Kheap) (pml4 : Option Nat) (virt phys size : Nat) (flags : Word) :
    Kheap × Int :=
  let r := Paging.pagingMapRange Pmm.pmmAllocPage s.tables pml4 virt phys size flags
  (s.withTables r.1, r.2)

/-- The heap of a machine that has just booted, with an empty root for the
kernel in frame 16. -/
def rootedHeap : Kheap :=
  match bootHeap.pmm.pmmAllocPage with
  | none => bootHeap
  | some (pmm, _) => { bootHeap with pmm }

end Alix.Kheap
