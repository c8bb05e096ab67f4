/-
Caches with sizes of one's own, `slab_cache_create` of `mm/kheap.c`.

The caches of `kmalloc` have nine fixed sizes. Here the object size and
the alignment are the caller's, and so is everything `slab_create` computes
from them in 32 bits: the header, which `sizeof` only seems to make wider
because the mask has 32 bits, the room that is left of the page, and the
number of objects in it. `slab_list_push`, `slab_list_remove` and
`slab_free` compute nothing from the sizes and are those of `Kheap.lean`,
as is `slab_alloc` once there is a slab.

A cache is an allocation of the heap. Its number is the pointer less one,
so that `cachePtr` is what `slab_create` leaves in `page->private`. Its
`name` is for the log.
-/
import Alix.Mm.Kheap

namespace Alix

/-- `sizeof(slab_cache_t)`. -/
abbrev sizeofSlabCache : Nat := 48

/-- The ways a call does not return. -/
inductive SlabStop where
  /-- "slab: align must be power of two" -/
  | align
  /-- the division by `obj_size` -/
  | divide
  | heap (e : HeapStop)

namespace Slab

/-- `(size + align - 1) & ~(align - 1)`. -/
def roundUp (size align : BitVec 32) : BitVec 32 := (size + align - 1) &&& ~~~(align - 1)

/-- `hdr` of `slab_create`. -/
def hdr (align : BitVec 32) : BitVec 32 := roundUp (BitVec.ofNat 32 sizeofSlab) align

/-- `total` of `slab_create`, and `avail` with it. -/
def total (objSize align : BitVec 32) : BitVec 32 :=
  (BitVec.ofNat 32 PAGE_SIZE - hdr align) / objSize

/-- `slab_cache_create`. -/
def slabCacheCreate (s : Kheap) (size align : BitVec 32) : Except SlabStop (Kheap × Nat) :=
  if align = 0 ∨ align &&& (align - 1) ≠ 0 then .error .align
  else
    match s.kmalloc sizeofSlabCache with
    | .error e => .error (.heap e)
    | .ok (s, cache) =>
        if cache = 0 then .ok (s, 0)
        else
          .ok (s.modCache (cache - 1) fun _ =>
            ⟨(roundUp size align).toNat, align.toNat, 0, 0, 0, 0⟩, cache)

/-- `slab_create`. -/
def slabCreate (s : Kheap) (c : Nat) : Except SlabStop (Option (Kheap × Nat)) :=
  match s.pmm.pmmAllocPage with
  | none => .ok none
  | some (pmm, page) =>
      let s := { s with pmm }
      let s := s.modPage page (Page.setFlag PAGE_SLAB)
      let s := s.modPage page fun p => { p with priv := Kheap.cachePtr c }
      let slab := s.slabFromPage page
      let cache := s.caches c
      let hdr := (hdr (BitVec.ofNat 32 cache.objAlign)).toNat
      if cache.objSize = 0 then .error .divide
      else
        let total :=
          (total (BitVec.ofNat 32 cache.objSize) (BitVec.ofNat 32 cache.objAlign)).toNat
        let s := s.put slab 8 0
        let s := s.put (slab + 8) 8 0
        let s := s.put (slab + 24) 4 0
        let s := s.put (slab + 28) 4 total
        let s := s.put (slab + 32) 8 page
        let base := slab + hdr
        let s := s.put (slab + 16) 8 base
        let slot := fun i => if i + 1 < total then base + (i + 1) * cache.objSize else 0
        .ok (some ({ s with mem := Bytes.storeAll s.mem base cache.objSize 8 slot total }, slab))

/-- `slab_alloc`. -/
def slabAlloc (s : Kheap) (c : Nat) : Except SlabStop (Kheap × Nat) :=
  if s.head c .partials = 0 then
    match slabCreate s c with
    | .error e => .error e
    | .ok none => .ok (s, 0)
    | .ok (some (s, slab)) => .ok ((s.slabListPush c .partials slab).slabTake c)
  else .ok (s.slabTake c)

end Slab

end Alix
