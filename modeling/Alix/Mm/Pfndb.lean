/-
The PFN database, `mm/pfndb.c`: one `page_t` for every page up to the last
usable one, in memory that is taken out of the first usable entry of the
memory map that has room for it.

The memory map is the list of its entries; addresses and lengths are
64-bit, and the sums wrap. `mem` is what the memory behind `mem_map` held
before, so that a store that is not made shows. A function answers nothing
where the source panics.
-/
import Alix.Mm.Pmm

namespace Alix

abbrev LIMINE_MEMMAP_USABLE : Nat := 0

/-- `struct limine_memmap_entry`. -/
structure MemmapEntry where
  base : Nat
  length : Nat
  type : Nat

/-- `sizeof(page_t)`: the structure is aligned to a cache line. -/
abbrev PAGE_T_SIZE : Nat := 64

/-- `mem_map`, `max_pfn` and `pfndb_phys`. -/
structure Pfndb where
  memMap : Nat → Page
  maxPfn : Nat
  phys : Nat

namespace Pfndb

/-- One round of `calc_max_pfn`. -/
def maxRound (maxPfn : Nat) (e : MemmapEntry) : Nat :=
  if e.type ≠ LIMINE_MEMMAP_USABLE then maxPfn
  else
    let endPfn := pageAlignUp ((e.base + e.length) % 2 ^ 64) / PAGE_SIZE
    if endPfn > maxPfn then endPfn else maxPfn

/-- `calc_max_pfn`. -/
def calcMaxPfn (memmap : List MemmapEntry) : Nat := memmap.foldl maxRound 0

/-- The loop of `reserve_pfndb_storage`: where the storage is, and the
entries that are left. -/
def reserveLoop (size : Nat) : List MemmapEntry → Option (Nat × List MemmapEntry)
  | [] => none
  | e :: es =>
      if e.type ≠ LIMINE_MEMMAP_USABLE ∨ e.length < size then
        (reserveLoop size es).map fun r => (r.1, e :: r.2)
      else
        let rest := { e with base := (e.base + size) % 2 ^ 64, length := e.length - size }
        some (e.base, rest :: es)

/-- The bytes that `reserve_pfndb_storage` takes. -/
def storageSize (maxPfn : Nat) : Nat :=
  pageAlignUp ((maxPfn + 1) % 2 ^ 64 * PAGE_T_SIZE % 2 ^ 64)

/-- `reserve_pfndb_storage`. -/
def reservePfndbStorage (maxPfn : Nat) (memmap : List MemmapEntry) :
    Option (Nat × List MemmapEntry) :=
  reserveLoop (storageSize maxPfn) memmap

/-- `mem_map[pfn] = page`. -/
def store (p : Pfndb) (pfn : Nat) (page : Page) : Pfndb :=
  { p with memMap := Function.update p.memMap pfn page }

/-- `state_mask`. -/
abbrev stateMask : BitVec 64 :=
  PAGE_FREE ||| PAGE_USED ||| PAGE_RESERVED ||| PAGE_POISON ||| PAGE_SLAB

/-- One round of the loop of `pfndb_mark_range`. -/
def markPage (newFlags : BitVec 64) (p : Pfndb) (pfn : Nat) : Pfndb :=
  let page := p.memMap pfn
  p.store pfn { page with flags := (page.flags &&& ~~~stateMask) ||| newFlags }

/-- `pfndb_mark_range`. -/
def pfndbMarkRange (p : Pfndb) (base length : Nat) (newFlags : BitVec 64) : Pfndb :=
  let startPfn := base / PAGE_SIZE
  let endPfn := pageAlignUp ((base + length) % 2 ^ 64) / PAGE_SIZE
  if startPfn > p.maxPfn then p
  else
    let endPfn := if endPfn > p.maxPfn + 1 then p.maxPfn + 1 else endPfn
    (List.range' startPfn (endPfn - startPfn)).foldl (markPage newFlags) p

/-- One round of the first loop of `pfndb_init`. -/
def initPage (p : Pfndb) (pfn : Nat) : Pfndb :=
  p.store pfn
    { next := if pfn < p.maxPfn then some (pfn + 1) else none
      prev := if pfn > 0 then some (pfn - 1) else none
      refcount := 0, order := 0, flags := PAGE_RESERVED, priv := 0 }

/-- One round of the second loop of `pfndb_init`. -/
def markEntry (p : Pfndb) (e : MemmapEntry) : Pfndb :=
  if e.type ≠ LIMINE_MEMMAP_USABLE then p
  else p.pfndbMarkRange e.base e.length PAGE_FREE

/-- `pfndb_init`, with the memory map it leaves. -/
def pfndbInit (memmap : List MemmapEntry) (mem : Nat → Page) :
    Option (Pfndb × List MemmapEntry) :=
  let maxPfn := calcMaxPfn memmap
  match reservePfndbStorage maxPfn memmap with
  | none => none
  | some (phys, memmap) =>
      let p : Pfndb := { memMap := mem, maxPfn, phys }
      let p := (List.range (maxPfn + 1)).foldl initPage p
      some (memmap.foldl markEntry p, memmap)

end Pfndb

end Alix
