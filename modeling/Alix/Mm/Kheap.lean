/-
The kernel heap, `mm/kheap.c`.

Memory is bytes at virtual addresses, and a pointer is a number: 0 is the
null pointer, and `void *` and the structures behind it are loads and
stores at their offsets. Physical memory appears at `hhdm`
(`hhdm_offset`). A `page_t *` is a PFN, as everywhere; the pointer to
`caches[i]`, which the heap keeps in `page->private`, is the number
`i + 1`, because of the static array only the identity of its members
matters.

The order of a large allocation comes from a loop that a 64-bit size need
not end: `PAGE_SIZE << order` is an unsigned `int`. The shift is the
machine's, which takes the count modulo 32, and `order` is a byte, so
after 256 rounds the loop has been everywhere; `diverges` stands for a
call that does not return.

`memset` and `memcpy` write as many bytes as they are told to. What the
owners of memory write to it is a step of the runs, not of these
functions.
-/
import Alix.Mm.Pmm
import Alix.Lib.Bytes

namespace Alix

open Bytes (Memory load store fill copy)

-- ==== constants

abbrev LARGE_MAGIC : Nat := 0x4B484541504C4741
abbrev LARGE_PAGE_TAG : BitVec 64 := 0x4B48454150000000
abbrev LARGE_PAGE_TAG_MASK : BitVec 64 := 0xffffffffffffff00

def sizeClasses : List Nat := [8, 16, 32, 64, 128, 256, 512, 1024, 2048]

abbrev NUM_SIZE_CLASSES : Nat := 9

/-- `sizeof(slab_t)`: `next`, `prev`, `freelist`, `inuse`, `total` and
`page` are at 0, 8, 16, 24, 28 and 32. -/
abbrev sizeofSlab : Nat := 40

/-- `sizeof(large_hdr_t)`: `magic`, `size` and `order` are at 0, 8 and
16. -/
abbrev sizeofLargeHdr : Nat := 24

-- ==== the state

/-- `slab_cache_t`; `partial` is `partialHead` here, and `full` is
`fullHead`. -/
structure SlabCache where
  objSize : Nat
  objAlign : Nat
  partialHead : Nat
  fullHead : Nat
  allocCount : BitVec 64
  freeCount : BitVec 64

/-- The ways a call ends in `kpanic`. -/
inductive HeapPanic where
  /-- "krealloc: invalid heap pointer %p", "kfree: invalid heap pointer %p" -/
  | invalidPointer (ptr : Nat)
  /-- "krealloc: slab page at %p has no cache", and of `kfree` -/
  | noCache (ptr : Nat)
  /-- "krealloc: bad large-allocation header at %p", "kfree: bad magic at
  %p - double free or corruption" -/
  | badMagic (ptr : Nat)
  /-- "krealloc: pointer %p is not a kheap allocation", and of `kfree` -/
  | notAllocation (ptr : Nat)
  | pmm (e : Kpanic)

/-- The ways a call does not return. -/
inductive HeapStop where
  | diverges
  | panic (e : HeapPanic)

/-- The heap over the page allocator and the memory. -/
structure Kheap where
  pmm : Pmm
  mem : Memory
  hhdm : Nat
  caches : Nat → SlabCache
  totalAllocCount : BitVec 64
  totalFreeCount : BitVec 64

namespace Kheap

-- ==== memory

/-- `PHYS_TO_VIRT`. -/
def physToVirt (s : Kheap) (phys : Nat) : Nat := phys + s.hhdm

/-- `VIRT_TO_PHYS`. -/
def virtToPhys (s : Kheap) (virt : Nat) : Nat := virt - s.hhdm

/-- A 64-bit field. -/
def get64 (s : Kheap) (a : Nat) : Nat := load s.mem a 8

/-- A 32-bit field. -/
def get32 (s : Kheap) (a : Nat) : Nat := load s.mem a 4

def put (s : Kheap) (a n w : Nat) : Kheap := { s with mem := store s.mem a n w }

def modCache (s : Kheap) (c : Nat) (f : SlabCache → SlabCache) : Kheap :=
  { s with caches := Function.update s.caches c (f (s.caches c)) }

/-- A field of `page_t`. -/
def modPage (s : Kheap) (page : Nat) (f : Page → Page) : Kheap :=
  { s with pmm := s.pmm.modPage page f }

/-- `phys_to_page`. -/
def physToPage (s : Kheap) (phys : Nat) : Option Nat :=
  if physPfn phys > s.pmm.maxPfn then none else some (physPfn phys)

/-- `page_from_alloc_ptr`. -/
def pageFromAllocPtr (s : Kheap) (ptr : Nat) : Option Nat :=
  if ptr < s.hhdm then none else s.physToPage (s.virtToPhys (pageAlignDown ptr))

/-- `page_is_large_alloc`. -/
def pageIsLargeAlloc (p : Page) : Bool :=
  !hasFlag p.flags PAGE_SLAB && BitVec.ofNat 64 p.priv &&& LARGE_PAGE_TAG_MASK == LARGE_PAGE_TAG

/-- `slab_from_page`. -/
def slabFromPage (s : Kheap) (page : Nat) : Nat := s.physToVirt (pfnPhys page)

-- ==== slabs

/-- `hdr` of `slab_create`: the header, up to the alignment, which is a
power of two. -/
def slabHdr (c : SlabCache) : Nat := (sizeofSlab + c.objAlign - 1) / c.objAlign * c.objAlign

/-- `total` of `slab_create`. -/
def slabTotal (c : SlabCache) : Nat := (PAGE_SIZE - slabHdr c) / c.objSize

/-- The pointer to `caches[c]`. -/
def cachePtr (c : Nat) : Nat := c + 1

/-- `slab_create`. -/
def slabCreate (s : Kheap) (c : Nat) : Option (Kheap × Nat) :=
  match s.pmm.pmmAllocPage with
  | none => none
  | some (pmm, page) =>
      let s := { s with pmm }
      let s := s.modPage page (Page.setFlag PAGE_SLAB)
      let s := s.modPage page fun p => { p with priv := cachePtr c }
      let slab := s.slabFromPage page
      let cache := s.caches c
      let total := slabTotal cache
      let s := s.put slab 8 0
      let s := s.put (slab + 8) 8 0
      let s := s.put (slab + 24) 4 0
      let s := s.put (slab + 28) 4 total
      let s := s.put (slab + 32) 8 page
      let base := slab + slabHdr cache
      let s := s.put (slab + 16) 8 base
      let slot := fun i => if i + 1 < total then base + (i + 1) * cache.objSize else 0
      some ({ s with mem := Bytes.storeAll s.mem base cache.objSize 8 slot total }, slab)

/-- The two lists of a cache. -/
inductive SlabList where
  | partials
  | full
deriving DecidableEq

/-- `*head`. -/
def head (s : Kheap) (c : Nat) : SlabList → Nat
  | .partials => (s.caches c).partialHead
  | .full => (s.caches c).fullHead

/-- `*head = slab`. -/
def setHead (s : Kheap) (c : Nat) (k : SlabList) (slab : Nat) : Kheap :=
  s.modCache c fun cache =>
    match k with
    | .partials => { cache with partialHead := slab }
    | .full => { cache with fullHead := slab }

/-- `slab_list_push`. -/
def slabListPush (s : Kheap) (c : Nat) (k : SlabList) (slab : Nat) : Kheap :=
  let s := s.put (slab + 8) 8 0
  let s := s.put slab 8 (s.head c k)
  let s := if s.head c k ≠ 0 then s.put (s.head c k + 8) 8 slab else s
  s.setHead c k slab

/-- `slab_list_remove`. -/
def slabListRemove (s : Kheap) (c : Nat) (k : SlabList) (slab : Nat) : Kheap :=
  let s :=
    if s.get64 (slab + 8) ≠ 0 then s.put (s.get64 (slab + 8)) 8 (s.get64 slab)
    else s.setHead c k (s.get64 slab)
  let s :=
    if s.get64 slab ≠ 0 then s.put (s.get64 slab + 8) 8 (s.get64 (slab + 8)) else s
  let s := s.put slab 8 0
  s.put (slab + 8) 8 0

/-- `slab_alloc` once the partial list has a slab. -/
def slabTake (s : Kheap) (c : Nat) : Kheap × Nat :=
  let slab := s.head c .partials
  let obj := s.get64 (slab + 16)
  let s := s.put (slab + 16) 8 (s.get64 obj)
  let s := s.put (slab + 24) 4 ((s.get32 (slab + 24) + 1) % 2 ^ 32)
  let s := s.modCache c fun cache => { cache with allocCount := cache.allocCount + 1 }
  let s :=
    if s.get64 (slab + 16) = 0 then
      (s.slabListRemove c .partials slab).slabListPush c .full slab
    else s
  (s, obj)

/-- `slab_alloc`. -/
def slabAlloc (s : Kheap) (c : Nat) : Kheap × Nat :=
  if s.head c .partials = 0 then
    match s.slabCreate c with
    | none => (s, 0)
    | some (s, slab) => (s.slabListPush c .partials slab).slabTake c
  else s.slabTake c

/-- `slab_free`. -/
def slabFree (s : Kheap) (c ptr : Nat) : Kheap :=
  let slab := s.slabFromPage (physPfn (s.virtToPhys (pageAlignDown ptr)))
  let s :=
    if s.get64 (slab + 16) = 0 ∧ s.get32 (slab + 24) = s.get32 (slab + 28) then
      (s.slabListRemove c .full slab).slabListPush c .partials slab
    else s
  let s := s.put ptr 8 (s.get64 (slab + 16))
  let s := s.put (slab + 16) 8 ptr
  let s := s.put (slab + 24) 4 ((s.get32 (slab + 24) + (2 ^ 32 - 1)) % 2 ^ 32)
  s.modCache c fun cache => { cache with freeCount := cache.freeCount + 1 }

-- ==== the heap

/-- `cache_for_size`. -/
def cacheForSize (size : Nat) : Option Nat := sizeClasses.findIdx? fun n => size ≤ n

/-- `kheap_init`. -/
def kheapInit (s : Kheap) : Kheap :=
  { s with
    caches := fun i =>
      if i < NUM_SIZE_CLASSES then
        let sz := sizeClasses.getD i 0
        ⟨sz, if sz < 16 then sz else 16, 0, 0, 0, 0⟩
      else s.caches i
    totalAllocCount := 0
    totalFreeCount := 0 }

/-- A machine of sixteen frames and frame 0, which is not usable, after
`pmm_init`. -/
def bareHeap : Kheap :=
  ⟨Pmm.pmmInit 16 (Pmm.pfndb 16 fun q => 1 ≤ q), fun _ => 0, 0xffff800000000000,
    fun _ => ⟨0, 0, 0, 0, 0, 0⟩, 0, 0⟩

/-- Its heap. -/
def bootHeap : Kheap := bareHeap.kheapInit

/-- `PAGE_SIZE << order`, in 32 bits. -/
def orderBytes (order : Nat) : Nat := PAGE_SIZE * 2 ^ (order % 32) % 2 ^ 32

/-- The loop of `kmalloc` from `order` on, for at most so many rounds. -/
def orderLoop (total : Nat) : Nat → Nat → Option Nat
  | 0, _ => none
  | n + 1, order =>
      if orderBytes order < total then orderLoop total n ((order + 1) % 2 ^ 8)
      else some order

/-- The pages of a large allocation: header, tag and object. -/
def largeTake (s : Kheap) (page size order : Nat) : Kheap × Nat :=
  let hdr := s.physToVirt (pfnPhys page)
  let s := s.put hdr 8 LARGE_MAGIC
  let s := s.put (hdr + 8) 8 size
  let s := s.put (hdr + 16) 1 order
  let s := s.modPage page fun p =>
    { p with priv := (LARGE_PAGE_TAG ||| BitVec.ofNat 64 order).toNat }
  (s, hdr + sizeofLargeHdr)

/-- The large branch of `kmalloc`. -/
def largeAlloc (s : Kheap) (size : Nat) : Except HeapStop (Kheap × Nat) :=
  match orderLoop ((size + sizeofLargeHdr) % 2 ^ 64) 256 0 with
  | none => .error .diverges
  | some order =>
      if order ≥ PMM_MAX_ORDER then .ok (s, 0)
      else
        match s.pmm.pmmAlloc order with
        | none => .ok (s, 0)
        | some (pmm, page) => .ok (largeTake { s with pmm } page size order)

/-- `ptr` of `kmalloc`. -/
def allocPtr (s : Kheap) (size : Nat) : Except HeapStop (Kheap × Nat) :=
  match cacheForSize size with
  | some c => .ok (s.slabAlloc c)
  | none => s.largeAlloc size

/-- `kmalloc`. -/
def kmalloc (s : Kheap) (size : Nat) : Except HeapStop (Kheap × Nat) :=
  if size = 0 then .ok (s, 0)
  else
    match s.allocPtr size with
    | .error e => .error e
    | .ok (s, ptr) =>
        .ok (if ptr ≠ 0 then { s with totalAllocCount := s.totalAllocCount + 1 } else s, ptr)

/-- `kzalloc`. -/
def kzalloc (s : Kheap) (size : Nat) : Except HeapStop (Kheap × Nat) :=
  match s.kmalloc size with
  | .error e => .error e
  | .ok (s, ptr) =>
      .ok (if ptr ≠ 0 then { s with mem := fill s.mem ptr size 0 } else s, ptr)

/-- The large branch of `kfree`. -/
def largeFree (s : Kheap) (page ptr : Nat) : Except HeapStop Kheap :=
  let hdr := ptr - sizeofLargeHdr
  if s.get64 hdr ≠ LARGE_MAGIC then .error (.panic (.badMagic ptr))
  else
    let s := s.put hdr 8 0
    let s := s.modPage page fun p => { p with priv := 0 }
    match s.pmm.pmmFree (some page) with
    | .error e => .error (.panic (.pmm e))
    | .ok pmm => .ok { s with pmm }

/-- `kfree` of a pointer into a page. -/
def freePtr (s : Kheap) (page ptr : Nat) : Except HeapStop Kheap :=
  if hasFlag (s.pmm.pages page).flags PAGE_SLAB then
    let cache := (s.pmm.pages page).priv
    if cache = 0 then .error (.panic (.noCache ptr))
    else .ok (s.slabFree (cache - 1) ptr)
  else if pageIsLargeAlloc (s.pmm.pages page) then s.largeFree page ptr
  else .error (.panic (.notAllocation ptr))

/-- `kfree`. -/
def kfree (s : Kheap) (ptr : Nat) : Except HeapStop Kheap :=
  if ptr = 0 then .ok s
  else
    match s.pageFromAllocPtr ptr with
    | none => .error (.panic (.invalidPointer ptr))
    | some page =>
        match s.freePtr page ptr with
        | .error e => .error e
        | .ok s => .ok { s with totalFreeCount := s.totalFreeCount + 1 }

/-- `old_size` of `krealloc`. -/
def oldSize (s : Kheap) (ptr : Nat) : Except HeapStop Nat :=
  match s.pageFromAllocPtr ptr with
  | none => .error (.panic (.invalidPointer ptr))
  | some page =>
      if hasFlag (s.pmm.pages page).flags PAGE_SLAB then
        let cache := (s.pmm.pages page).priv
        if cache = 0 then .error (.panic (.noCache ptr))
        else .ok (s.caches (cache - 1)).objSize
      else if pageIsLargeAlloc (s.pmm.pages page) then
        let hdr := ptr - sizeofLargeHdr
        if s.get64 hdr ≠ LARGE_MAGIC then .error (.panic (.badMagic ptr))
        else .ok (s.get64 (hdr + 8))
      else .error (.panic (.notAllocation ptr))

/-- `krealloc`. -/
def krealloc (s : Kheap) (ptr newSize : Nat) : Except HeapStop (Kheap × Nat) :=
  if ptr = 0 then s.kmalloc newSize
  else if newSize = 0 then
    match s.kfree ptr with
    | .error e => .error e
    | .ok s => .ok (s, 0)
  else
    match s.kmalloc newSize with
    | .error e => .error e
    | .ok (s, newPtr) =>
        if newPtr = 0 then .ok (s, 0)
        else
          match s.oldSize ptr with
          | .error e => .error e
          | .ok oldSize =>
              let s := { s with
                mem := copy s.mem newPtr s.mem ptr (if oldSize < newSize then oldSize else newSize) }
              match s.kfree ptr with
              | .error e => .error e
              | .ok s => .ok (s, newPtr)

end Kheap

end Alix
