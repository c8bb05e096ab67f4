/-
The four-level page tables of `mm/paging.c`.

Physical memory is read and written through the direct map, so a table
is named by the frame it lives in: `table_virt` of an entry is the frame
the entry points to, and `table[index]` is a 64-bit word of that frame.
Virtual and physical addresses are naturals below `2^64`; entries and
flag words keep their 64 bits.

The frames come from `pmm_alloc_page`. The functions here take it as the
parameter `alloc` over a state of any type, because nothing in this file
looks into the allocator; `Machine` is that state beside the memory. A
`vas_t` is read for its `pml4` alone, which may be null. Flushing the
translation cache (`invlpg`, `write_cr3`), the count of tables that
`ktrace` prints and the traces themselves change neither.
-/
import Alix.Mm.Page

namespace Alix.Paging

-- ==== entries

/-- A page table entry, and a word of flags. -/
abbrev Word : Type := BitVec 64

abbrev PAGE_PRESENT : Word := pageBit 0
abbrev PAGE_WRITE : Word := pageBit 1
abbrev PAGE_USER : Word := pageBit 2
abbrev PAGE_GLOBAL : Word := pageBit 8
abbrev PAGE_NX : Word := pageBit 63
abbrev PAGE_ADDR_MASK : Word := 0x000ffffffffff000#64

/-- `(virt >> 39) & 0x1ff`. -/
def pml4Index (virt : Nat) : Nat := virt / 2 ^ 39 % 512

/-- `(virt >> 30) & 0x1ff`. -/
def pdptIndex (virt : Nat) : Nat := virt / 2 ^ 30 % 512

/-- `(virt >> 21) & 0x1ff`. -/
def pdIndex (virt : Nat) : Nat := virt / 2 ^ 21 % 512

/-- `(virt >> 12) & 0x1ff`. -/
def ptIndex (virt : Nat) : Nat := virt / 2 ^ 12 % 512

/-- `table_virt`: the frame of the table an entry points to. -/
def tableVirt (phys : Word) : Nat := physPfn (phys &&& PAGE_ADDR_MASK).toNat

/-- `flags_to_pte`. -/
def flagsToPte (flags : Word) : Word :=
  let entry := PAGE_PRESENT
  let entry := if hasFlag flags PAGE_WRITE then entry ||| PAGE_WRITE else entry
  let entry := if hasFlag flags PAGE_USER then entry ||| PAGE_USER else entry
  let entry :=
    if hasFlag flags PAGE_GLOBAL then entry ||| PAGE_GLOBAL else entry
  if hasFlag flags PAGE_NX then entry ||| PAGE_NX else entry

-- ==== memory

/-- The state of the frame allocator beside the words of every frame. -/
structure Machine (σ : Type) where
  pmm : σ
  mem : Nat → Nat → Word

variable {σ : Type}

namespace Machine

/-- `table[index] = entry`. -/
def store (s : Machine σ) (table index : Nat) (entry : Word) : Machine σ :=
  let words := Function.update (s.mem table) index entry
  { s with mem := Function.update s.mem table words }

/-- `memset(PHYS_TO_VIRT(phys), 0, PAGE_SIZE)`. -/
def clear (s : Machine σ) (table : Nat) : Machine σ :=
  { s with mem := Function.update s.mem table (fun _ => 0) }

end Machine

-- ==== tables

variable (alloc : σ → Option (σ × Nat))

/-- `alloc_table`: the physical address of a zeroed frame, or 0. -/
def allocTable (s : Machine σ) : Machine σ × Nat :=
  match alloc s.pmm with
  | none => (s, 0)
  | some (pmm, page) => ({ s with pmm }.clear page, pfnPhys page)

/-- `next_table`: the table below a slot. With `create` an empty slot
gets a fresh one; a table at physical address 0 counts as none. -/
def nextTable (s : Machine σ) (table index : Nat) (flags : Word)
    (create : Bool) : Machine σ × Option Nat :=
  let entry := s.mem table index
  if hasFlag entry PAGE_PRESENT then (s, some (tableVirt entry))
  else if !create then (s, none)
  else
    let (s, phys) := allocTable alloc s
    if phys = 0 then (s, none)
    else
      let entry := BitVec.ofNat 64 phys ||| PAGE_PRESENT ||| PAGE_WRITE
      let entry := if hasFlag flags PAGE_USER then entry ||| PAGE_USER else entry
      (s.store table index entry, some (tableVirt (BitVec.ofNat 64 phys)))

/-- `lookup_pt`: the last-level table of an address. -/
def lookupPt (s : Machine σ) (pml4 virt : Nat) (create : Bool)
    (flags : Word) : Machine σ × Option Nat :=
  match nextTable alloc s pml4 (pml4Index virt) flags create with
  | (s, none) => (s, none)
  | (s, some pdpt) =>
      match nextTable alloc s pdpt (pdptIndex virt) flags create with
      | (s, none) => (s, none)
      | (s, some pd) => nextTable alloc s pd (pdIndex virt) flags create

/-- `lookup_leaf`: the slot of an address in its last-level table. -/
def lookupLeaf (s : Machine σ) (pml4 virt : Nat) (create : Bool)
    (flags : Word) : Machine σ × Option (Nat × Nat) :=
  match lookupPt alloc s pml4 virt create flags with
  | (s, none) => (s, none)
  | (s, some pt) => (s, some (pt, ptIndex virt))

/-- `ptable_create`: a fresh root that shares the kernel's upper half. -/
def ptableCreate (s : Machine σ) (kernelPml4 : Option Nat) :
    Machine σ × Option Nat :=
  let (s, phys) := allocTable alloc s
  if phys = 0 then (s, none)
  else
    let pt := tableVirt (BitVec.ofNat 64 phys)
    match kernelPml4 with
    | none => (s, some pt)
    | some k =>
        ((List.range' 256 256).foldl (fun s i => s.store pt i (s.mem k i)) s,
          some pt)

-- ==== mapping and lookup

/-- `paging_map_page`, with its return code. -/
def pagingMapPage (s : Machine σ) (pml4 : Option Nat) (virt phys : Nat)
    (flags : Word) : Machine σ × Int :=
  match pml4 with
  | none => (s, -1)
  | some pml4 =>
      if virt % PAGE_SIZE ≠ 0 ∨ phys % PAGE_SIZE ≠ 0 then (s, -1)
      else
        match lookupLeaf alloc s pml4 virt true flags with
        | (s, none) => (s, -1)
        | (s, some (pt, index)) =>
            (s.store pt index
              ((BitVec.ofNat 64 phys &&& PAGE_ADDR_MASK) ||| flagsToPte flags), 0)

/-- The stores of one round of `paging_map_range`: `run` slots of a
last-level table, from `index` on. -/
def mapRun (pt : Nat) (pteFlags : Word) :
    Nat → Machine σ → Nat → Nat → Machine σ
  | 0, s, _, _ => s
  | run + 1, s, index, phys =>
      mapRun pt pteFlags run
        (s.store pt index ((BitVec.ofNat 64 phys &&& PAGE_ADDR_MASK) ||| pteFlags))
        (index + 1) ((phys + PAGE_SIZE) % 2 ^ 64)

/-- The loop of `paging_map_range`. Every round maps a page, so the first
argument, which bounds the rounds, is the number of pages left. -/
def mapRounds (pml4 : Nat) (flags : Word) :
    Nat → Machine σ → Nat → Nat → Nat → Machine σ × Int
  | 0, s, _, _, _ => (s, 0)
  | n + 1, s, virt, phys, pages =>
      if pages = 0 then (s, 0)
      else
        match lookupPt alloc s pml4 virt true flags with
        | (s, none) => (s, -1)
        | (s, some pt) =>
            let index := ptIndex virt
            let run := 512 - index
            let run := if run > pages then pages else run
            let s := mapRun pt (flagsToPte flags) run s index phys
            mapRounds pml4 flags n s ((virt + run * PAGE_SIZE) % 2 ^ 64)
              ((phys + run * PAGE_SIZE) % 2 ^ 64) (pages - run)

/-- `paging_map_range`. -/
def pagingMapRange (s : Machine σ) (pml4 : Option Nat)
    (virt phys size : Nat) (flags : Word) : Machine σ × Int :=
  let pages := pageAlignUp size / PAGE_SIZE
  if size = 0 then (s, 0)
  else
    match pml4 with
    | none => (s, -1)
    | some pml4 =>
        if virt % PAGE_SIZE ≠ 0 ∨ phys % PAGE_SIZE ≠ 0 then (s, -1)
        else mapRounds alloc pml4 flags pages s virt phys pages

/-- `paging_unmap_page`. -/
def pagingUnmapPage (s : Machine σ) (pml4 : Option Nat) (virt : Nat) :
    Machine σ :=
  match pml4 with
  | none => s
  | some pml4 =>
      if virt % PAGE_SIZE ≠ 0 then s
      else
        match lookupLeaf alloc s pml4 virt false 0 with
        | (s, none) => s
        | (s, some (pt, index)) => s.store pt index 0

/-- `paging_virt_to_phys`, 0 where nothing is mapped. -/
def pagingVirtToPhys (s : Machine σ) (pml4 : Option Nat) (virt : Nat) : Nat :=
  match pml4 with
  | none => 0
  | some pml4 =>
      match (lookupLeaf alloc s pml4 virt false 0).2 with
      | none => 0
      | some (pt, index) =>
          let leaf := s.mem pt index
          if !hasFlag leaf PAGE_PRESENT then 0
          else ((leaf &&& PAGE_ADDR_MASK)
            ||| BitVec.ofNat 64 (virt % PAGE_SIZE)).toNat

/-- `paging_get_flags`, 0 where nothing is mapped. -/
def pagingGetFlags (s : Machine σ) (pml4 : Option Nat) (virt : Nat) : Word :=
  match pml4 with
  | none => 0
  | some pml4 =>
      match (lookupLeaf alloc s pml4 virt false 0).2 with
      | none => 0
      | some (pt, index) =>
          let leaf := s.mem pt index
          if !hasFlag leaf PAGE_PRESENT then 0
          else leaf &&& (PAGE_PRESENT ||| PAGE_WRITE ||| PAGE_USER
            ||| PAGE_GLOBAL ||| PAGE_NX)

end Alix.Paging
