/-
The address space the kernel boots into: `paging_init` of `mm/paging.c`.

The inputs are what the boot loader answers (the memory map, the framebuffer,
where the image was loaded), the symbols of the linker script, and the
database of `pfndb_init`. Pointers among them are addresses, 0 for a
framebuffer that is not mapped; sums and differences wrap at `2^64`.

The result is the machine, `kernel_vas` and the two control registers that
were written; a run that ends in `kpanic` has its message instead. The
traces, and the count of tables that only they print, are left out.

Over it, `bootMap` says what the kernel should see: the extents it was asked
to map, laid one over the other.
-/
import Alix.Lib.Overlay
import Alix.Mm.Pfndb
import Alix.Mm.Vmm

namespace Alix.Paging

-- ==== inputs

/-- The symbols of the linker script. -/
structure KernelImage where
  kernelStart : Nat
  textStart : Nat
  textEnd : Nat
  rodataStart : Nat
  rodataEnd : Nat
  dataStart : Nat
  kernelEnd : Nat

/-- `struct limine_executable_address_response`. -/
structure ExecutableAddress where
  physicalBase : Nat
  virtualBase : Nat

/-- `struct limine_framebuffer`, of which the place is read. -/
structure Framebuffer where
  address : Nat
  pitch : Nat
  height : Nat

abbrev VAD_KERNEL : Word := pageBit 16
abbrev VAD_HHDM : Word := pageBit 17
abbrev VAD_DEVICE : Word := pageBit 18

abbrev X86_CR4_PGE : Word := pageBit 7

/-- `a - b` on 64 bits. -/
def wrapSub (a b : Nat) : Nat := (a + (2 ^ 64 - b)) % 2 ^ 64

/-- `PHYS_TO_VIRT`. -/
def physToVirt (hhdmOffset phys : Nat) : Nat := (phys + hhdmOffset) % 2 ^ 64

/-- `VIRT_TO_PHYS`. -/
def virtToPhys (hhdmOffset virt : Nat) : Nat := wrapSub virt hhdmOffset

-- ==== the code

/-- The ways `paging_init` ends in `kpanic`. -/
inductive InitPanic where
  /-- "paging: missing memory map" -/
  | memmap
  /-- "paging: missing executable address response" -/
  | address
  /-- "paging: linker base 0x%llx != Limine base 0x%llx" -/
  | base (linker limine : Nat)
  /-- "paging: failed to allocate kernel PML4" -/
  | pml4
  /-- "paging: failed to map HHDM" -/
  | hhdm
  /-- "paging: failed to map PFNDB" -/
  | pfndb
  /-- "paging: failed to map Limine request segment" -/
  | requests
  /-- "paging: failed to map kernel text" -/
  | text
  /-- "paging: failed to map kernel rodata" -/
  | rodata
  /-- "paging: failed to map kernel data" -/
  | data
  /-- "paging: failed to map framebuffer" -/
  | framebuffer
  /-- "paging: vad overlap for [0x%llx, 0x%llx)" -/
  | vadOverlap (start stop : Nat)

section code

variable {σ : Type} (alloc : σ → Option (σ × Nat)) (hhdmOffset pml4 : Nat)

/-- `map_kernel_segment`. -/
def mapKernelSegment (virtStart virtEnd : Nat) (kernelAddr : ExecutableAddress)
    (flags : Word) (s : Machine σ) : Machine σ × Int :=
  let start := pageAlignDown virtStart
  let stop := pageAlignUp virtEnd
  if stop ≤ start then (s, 0)
  else
    let phys := (kernelAddr.physicalBase + wrapSub start kernelAddr.virtualBase) % 2 ^ 64
    pagingMapRange alloc s (some pml4) start phys (stop - start) flags

/-- One round of `memmap_top`. -/
def topRound (top : Nat) (e : MemmapEntry) : Nat :=
  let stop := (e.base + e.length) % 2 ^ 64
  if stop > top then stop else top

/-- `memmap_top`. -/
def memmapTop (memmap : List MemmapEntry) : Nat := pageAlignUp (memmap.foldl topRound 0)

/-- The flags of memory that is only data. -/
abbrev DATA_FLAGS : Word := PAGE_PRESENT ||| PAGE_WRITE ||| PAGE_GLOBAL ||| PAGE_NX

/-- `map_hhdm`. -/
def mapHhdm : List MemmapEntry → Machine σ → Machine σ × Int
  | [], s => (s, 0)
  | e :: memmap, s =>
      let start := pageAlignDown e.base
      let stop := pageAlignUp ((e.base + e.length) % 2 ^ 64)
      if stop ≤ start then mapHhdm memmap s
      else
        match pagingMapRange alloc s (some pml4) ((hhdmOffset + start) % 2 ^ 64) start
          (stop - start) DATA_FLAGS with
        | (s, rc) => if rc ≠ 0 then (s, -1) else mapHhdm memmap s

/-- `map_pfndb`; `pfndb_getdb` is in the direct map. -/
def mapPfndb (db : Pfndb) (s : Machine σ) : Machine σ × Int :=
  let phys := virtToPhys hhdmOffset (physToVirt hhdmOffset db.phys)
  let start := pageAlignDown phys
  let stop := pageAlignUp ((phys + (db.maxPfn + 1) * PAGE_T_SIZE) % 2 ^ 64)
  pagingMapRange alloc s (some pml4) ((hhdmOffset + start) % 2 ^ 64) start
    (wrapSub stop start) DATA_FLAGS

/-- Where a framebuffer begins and ends, in whole pages. -/
def Framebuffer.bounds (f : Framebuffer) : Nat × Nat :=
  (pageAlignDown f.address, pageAlignUp ((f.address + f.pitch * f.height % 2 ^ 64) % 2 ^ 64))

/-- `map_framebuffer`. -/
def mapFramebuffer (framebuffer : Option Framebuffer) (s : Machine σ) : Machine σ × Int :=
  match framebuffer with
  | none => (s, 0)
  | some f =>
      if f.address = 0 then (s, 0)
      else
        let (start, stop) := f.bounds
        let phys := if f.address ≥ hhdmOffset then virtToPhys hhdmOffset start else start
        pagingMapRange alloc s (some pml4) start phys (wrapSub stop start) DATA_FLAGS

/-- `vas_add` on the list of `kernel_vas`: nothing for -1. -/
def kernelVasAdd (list : List Vad) (vad : Vad) : Option (List Vad) :=
  if vad.start ≥ vad.stop then none
  else if vad.start % PAGE_SIZE ≠ 0 ∨ vad.stop % PAGE_SIZE ≠ 0 then none
  else if vasOverlaps list vad.start vad.stop then none
  else some (vadInsert vad list)

/-- `add_static_vad`. -/
def addStaticVad (list : List Vad) (start stop : Nat) (flags : Word) :
    Except InitPanic (List Vad) :=
  match kernelVasAdd list ⟨start, stop, flags⟩ with
  | none => .error (.vadOverlap start stop)
  | some list => .ok list

/-- The descriptor of the framebuffer, if none has its start yet. -/
def addFramebufferVad (framebuffer : Option Framebuffer) (list : List Vad) :
    Except InitPanic (List Vad) :=
  match framebuffer with
  | none => .ok list
  | some f =>
      if f.address = 0 then .ok list
      else
        let (start, stop) := f.bounds
        match vasFind list start with
        | some _ => .ok list
        | none => addStaticVad list start stop (DATA_FLAGS ||| VAD_DEVICE ||| VAD_KERNEL)

/-- `if (.. != 0) kpanic(..)`. -/
def orPanic (e : InitPanic) (r : Machine σ × Int) : Except InitPanic (Machine σ) :=
  if r.2 ≠ 0 then .error e else .ok r.1

/-- What `paging_init` leaves. -/
structure Booted (σ : Type) where
  machine : Machine σ
  kernelVas : Vas
  cr3 : Nat
  cr4 : Word

/-- The calls of `paging_init` that map, on a new root. -/
def mapBoot (image : KernelImage) (db : Pfndb) (memmap : List MemmapEntry)
    (framebuffer : Option Framebuffer) (kernelAddr : ExecutableAddress) (s : Machine σ) :
    Except InitPanic (Machine σ) := do
  let s ← orPanic .hhdm (mapHhdm alloc hhdmOffset pml4 memmap s)
  let s ← orPanic .pfndb (mapPfndb alloc hhdmOffset pml4 db s)
  let s ← orPanic .requests (mapKernelSegment alloc pml4 image.kernelStart image.textStart
    kernelAddr (PAGE_PRESENT ||| PAGE_WRITE ||| PAGE_GLOBAL) s)
  let s ← orPanic .text (mapKernelSegment alloc pml4 image.textStart image.textEnd
    kernelAddr (PAGE_PRESENT ||| PAGE_GLOBAL) s)
  let s ← orPanic .rodata (mapKernelSegment alloc pml4 image.rodataStart image.rodataEnd
    kernelAddr (PAGE_PRESENT ||| PAGE_GLOBAL ||| PAGE_NX) s)
  let s ← orPanic .data (mapKernelSegment alloc pml4 image.dataStart image.kernelEnd
    kernelAddr DATA_FLAGS s)
  orPanic .framebuffer (mapFramebuffer alloc hhdmOffset pml4 framebuffer s)

/-- The static descriptors. -/
def addVads (image : KernelImage) (memmap : List MemmapEntry)
    (framebuffer : Option Framebuffer) : Except InitPanic (List Vad) := do
  let list ← addStaticVad [] hhdmOffset ((hhdmOffset + memmapTop memmap) % 2 ^ 64)
    (DATA_FLAGS ||| VAD_HHDM ||| VAD_KERNEL)
  let list ← addStaticVad list image.kernelStart image.kernelEnd
    (PAGE_PRESENT ||| PAGE_WRITE ||| PAGE_GLOBAL ||| VAD_KERNEL)
  addFramebufferVad framebuffer list

/-- `paging_init`. -/
def pagingInit (image : KernelImage) (db : Pfndb) (memmap : Option (List MemmapEntry))
    (framebuffer : Option Framebuffer) (kernelAddr : Option ExecutableAddress) (cr4 : Word)
    (s : Machine σ) : Except InitPanic (Booted σ) :=
  match memmap with
  | none => .error .memmap
  | some memmap =>
      match kernelAddr with
      | none => .error .address
      | some kernelAddr =>
          if kernelAddr.virtualBase ≠ image.kernelStart then
            .error (.base image.kernelStart kernelAddr.virtualBase)
          else
            let (s, pml4Phys) := allocTable alloc s
            if pml4Phys = 0 then .error .pml4
            else do
              let pml4 := tableVirt (BitVec.ofNat 64 pml4Phys)
              let s ← mapBoot alloc hhdmOffset pml4 image db memmap framebuffer kernelAddr s
              let list ← addVads hhdmOffset image memmap framebuffer
              -- `vas_switch` writes the address of the root
              return ⟨s, ⟨pml4, list, VAS_USER_START⟩, pfnPhys pml4, cr4 ||| X86_CR4_PGE⟩

end code

-- ==== the purpose

/-- Pages that stand for one frame after the other. -/
structure Extent where
  virt : Nat
  phys : Nat
  pages : Nat
  flags : Word

/-- The frame behind a page, and its flags. A page has 36 bits; an extent that
goes round the address space shows its last pages, and the address of a frame
keeps 52 bits. -/
def Extent.at (x : Extent) (page : Nat) : Option (Nat × Word) :=
  let i := (page + 2 ^ 36 - x.virt / PAGE_SIZE % 2 ^ 36) % 2 ^ 36
  if i < x.pages then
    let i := i + (x.pages - 1 - i) / 2 ^ 36 * 2 ^ 36
    some ((x.phys + i * PAGE_SIZE) % 2 ^ 52, x.flags)
  else none

/-- The direct map of an entry of the memory map. -/
def hhdmExtent (hhdmOffset : Nat) (e : MemmapEntry) : Extent :=
  let start := pageAlignDown e.base
  let stop := pageAlignUp ((e.base + e.length) % 2 ^ 64)
  ⟨(hhdmOffset + start) % 2 ^ 64, start, (stop - start) / PAGE_SIZE, DATA_FLAGS⟩

/-- The direct map of the database. -/
def pfndbExtent (hhdmOffset : Nat) (db : Pfndb) : Extent :=
  let start := pageAlignDown db.phys
  let stop := pageAlignUp ((db.phys + (db.maxPfn + 1) * PAGE_T_SIZE) % 2 ^ 64)
  ⟨(hhdmOffset + start) % 2 ^ 64, start, wrapSub stop start / PAGE_SIZE, DATA_FLAGS⟩

/-- A segment of the image, at its distance from the image's base. -/
def segmentExtent (kernelAddr : ExecutableAddress) (virtStart virtEnd : Nat)
    (flags : Word) : Extent :=
  let start := pageAlignDown virtStart
  ⟨start, (kernelAddr.physicalBase + wrapSub start kernelAddr.virtualBase) % 2 ^ 64,
    (pageAlignUp virtEnd - start) / PAGE_SIZE, flags⟩

/-- The framebuffer, at the frames the direct map has there. -/
def framebufferExtent (hhdmOffset : Nat) (f : Framebuffer) : Extent :=
  let (start, stop) := f.bounds
  ⟨start, if f.address ≥ hhdmOffset then wrapSub start hhdmOffset else start,
    wrapSub stop start / PAGE_SIZE, DATA_FLAGS⟩

section purpose

variable (hhdmOffset : Nat) (image : KernelImage) (db : Pfndb) (memmap : List MemmapEntry)
  (framebuffer : Option Framebuffer) (kernelAddr : ExecutableAddress)

/-- The boot requests, which stay writable and executable. -/
def requestsExtent : Extent :=
  segmentExtent kernelAddr image.kernelStart image.textStart
    (PAGE_PRESENT ||| PAGE_WRITE ||| PAGE_GLOBAL)

def textExtent : Extent :=
  segmentExtent kernelAddr image.textStart image.textEnd (PAGE_PRESENT ||| PAGE_GLOBAL)

def rodataExtent : Extent :=
  segmentExtent kernelAddr image.rodataStart image.rodataEnd
    (PAGE_PRESENT ||| PAGE_GLOBAL ||| PAGE_NX)

def dataExtent : Extent :=
  segmentExtent kernelAddr image.dataStart image.kernelEnd DATA_FLAGS

/-- The framebuffer, where there is one. -/
def framebufferExtents : List Extent :=
  match framebuffer with
  | none => []
  | some f => if f.address = 0 then [] else [framebufferExtent hhdmOffset f]

/-- Everything that is mapped at boot, in this order. -/
def bootExtents : List Extent :=
  memmap.map (hhdmExtent hhdmOffset) ++ [pfndbExtent hhdmOffset db,
    requestsExtent image kernelAddr, textExtent image kernelAddr,
    rodataExtent image kernelAddr, dataExtent image kernelAddr]
    ++ framebufferExtents hhdmOffset framebuffer

/-- What the kernel sees: of the extents that have a page, the last. -/
def bootMap (page : Nat) : Option (Nat × Word) :=
  Overlay.overlay
    ((bootExtents hhdmOffset image db memmap framebuffer kernelAddr).map Extent.at) page

end purpose

end Alix.Paging
