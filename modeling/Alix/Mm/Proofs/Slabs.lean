/-
The slabs of the size classes.

Each class divides its slabs as `classShape` says, and its freelists are
those of `SlabShape.lean`. `SlabAt` says that the page of a slab of a class
has a given list of free slots; taking the first slot (`SlabAt.take`),
giving one back (`SlabAt.give`) and setting up a page (`slabAt_init`) are
the three ways it changes. `LargeAt` is the header of a large allocation.
-/
import Alix.Mm.Proofs.SlabShape

namespace Alix.Kheap

open Bytes (Memory load store load_store_same load_store_of_apart load_congr)

variable {hhdm q c x y i : Nat} {m m' : Memory} {free : List Nat}

-- ==== the classes

/-- `obj_size` of a cache. -/
def objSize (c : Nat) : Nat := sizeClasses.getD c 0

/-- A cache as `kheap_init` leaves it. -/
def classCache (c : Nat) : SlabCache :=
  ⟨objSize c, if objSize c < 16 then objSize c else 16, 0, 0, 0, 0⟩

/-- Where the first object of a slab is, and how many there are. -/
def slabBase (c : Nat) : Nat := slabHdr (classCache c)

def slabCount (c : Nat) : Nat := slabTotal (classCache c)

/-- Header and objects fit in a page, and an object holds a pointer. -/
theorem class_fits (hc : c < NUM_SIZE_CLASSES) :
    8 ≤ objSize c ∧ 40 ≤ slabBase c ∧ slabBase c + slabCount c * objSize c ≤ 4096
      ∧ 0 < slabCount c ∧ slabCount c ≤ 4096 := by
  have hall : ∀ c, c < 9 → 8 ≤ objSize c ∧ 40 ≤ slabBase c
      ∧ slabBase c + slabCount c * objSize c ≤ 4096
      ∧ 0 < slabCount c ∧ slabCount c ≤ 4096 := by decide
  exact hall c hc

/-- The class of a size is the first one with room for it. -/
theorem cacheForSize_some {size : Nat} (h : cacheForSize size = some c) :
    c < NUM_SIZE_CLASSES ∧ size ≤ objSize c := by
  unfold cacheForSize at h
  obtain ⟨hlt, hle, -⟩ := List.findIdx?_eq_some_iff_getElem.mp h
  refine ⟨hlt, ?_⟩
  unfold objSize
  rw [List.getD_eq_getElem _ _ hlt]
  exact of_decide_eq_true hle

/-- How a slab of a class is divided. -/
def classShape (hc : c < NUM_SIZE_CLASSES) : Shape where
  base := slabBase c
  size := objSize c
  count := slabCount c
  pointer := (class_fits hc).1
  header := (class_fits hc).2.1
  room := (class_fits hc).2.2.1
  pos := (class_fits hc).2.2.2.1

-- ==== slots

/-- Object `i` of a slab. -/
def slotAt (hhdm c q i : Nat) : Nat := pageAt hhdm q + slabBase c + i * objSize c

/-- The address is one of the slab's objects. -/
def IsSlot (hhdm c q x : Nat) : Prop := ∃ i, i < slabCount c ∧ x = slotAt hhdm c q i

theorem isSlot_iff (hc : c < NUM_SIZE_CLASSES) :
    IsSlot hhdm c q x ↔ (classShape hc).IsSlot hhdm q x := Iff.rfl

theorem IsSlot.bounds (hc : c < NUM_SIZE_CLASSES) (h : IsSlot hhdm c q x) :
    pageAt hhdm q + 40 ≤ x ∧ x + objSize c ≤ pageAt hhdm q + 4096 :=
  ((isSlot_iff hc).mp h).bounds

/-- Two objects of a slab do not overlap. -/
theorem IsSlot.apart (hx : IsSlot hhdm c q x) (hy : IsSlot hhdm c q y) (hne : x ≠ y) :
    x + objSize c ≤ y ∨ y + objSize c ≤ x := by
  obtain ⟨i, hi, rfl⟩ := hx
  obtain ⟨j, hj, rfl⟩ := hy
  have hij : i ≠ j := fun e => hne (by rw [e])
  cases Nat.lt_or_gt_of_ne hij with
  | inl hlt => exact Or.inl (record_le _ _ hlt)
  | inr hlt => exact Or.inr (record_le _ _ hlt)

/-- The objects of a slab, in order. -/
def allSlots (hhdm c q : Nat) : List Nat := (List.range (slabCount c)).map (slotAt hhdm c q)

-- ==== the freelist

/-- The page of a slab of cache `c` with these free slots. -/
structure SlabAt (hhdm : Nat) (m : Memory) (c q : Nat) (free : List Nat) : Prop where
  chain : Chain m (load m (pageAt hhdm q + 16) 8) free
  inuse : load m (pageAt hhdm q + 24) 4 + free.length = slabCount c
  total : load m (pageAt hhdm q + 28) 4 = slabCount c
  slots : ∀ x ∈ free, IsSlot hhdm c q x
  nodup : free.Nodup

theorem slabAt_iff (hc : c < NUM_SIZE_CLASSES) :
    SlabAt hhdm m c q free ↔ (classShape hc).At hhdm m q free := by
  constructor
  · intro h
    exact ⟨h.chain, h.inuse, h.total, h.slots, h.nodup⟩
  · intro h
    exact ⟨h.chain, h.inuse, h.total, h.slots, h.nodup⟩

/-- The sizes of a cache are those of its class. -/
def SizesOf (cache : SlabCache) (c : Nat) : Prop :=
  cache.objSize = objSize c ∧ cache.objAlign = (classCache c).objAlign

theorem SizesOf.hdr {cache : SlabCache} (h : SizesOf cache c) : slabHdr cache = slabBase c := by
  unfold slabBase slabHdr
  rw [h.2]

theorem SizesOf.total {cache : SlabCache} (h : SizesOf cache c) :
    slabTotal cache = slabCount c := by
  unfold slabCount slabTotal
  rw [h.1, h.hdr]
  rfl

theorem SizesOf.shape {cache : SlabCache} (hc : c < NUM_SIZE_CLASSES) (h : SizesOf cache c) :
    (classShape hc).Of cache :=
  ⟨h.hdr, h.1, h.total⟩

/-- A new slab has all its slots free. -/
theorem slabAt_init {cache : SlabCache} (hc : c < NUM_SIZE_CLASSES) (hs : SizesOf cache c)
    (hroom : pageAt hhdm q + 4096 ≤ 2 ^ 64) :
    SlabAt hhdm (initSlab m (pageAt hhdm q) q cache) c q (allSlots hhdm c q) :=
  (slabAt_iff hc).mpr (Shape.at_init (hs.shape hc) hroom)

/-- Setting a slab up writes to its page. -/
theorem initSlab_outside {cache : SlabCache} (hc : c < NUM_SIZE_CLASSES) (hs : SizesOf cache c)
    (hx : ¬ (pageAt hhdm q ≤ x ∧ x < pageAt hhdm q + 4096)) :
    initSlab m (pageAt hhdm q) q cache x = m x :=
  Shape.init_outside (hs.shape hc) hx

-- ==== large allocations

/-- The pages of a large allocation: its header, and room for it. -/
structure LargeAt (hhdm : Nat) (m : Memory) (q order size : Nat) : Prop where
  magic : load m (pageAt hhdm q) 8 = LARGE_MAGIC
  bytes : load m (pageAt hhdm q + 8) 8 = size
  room : size + sizeofLargeHdr ≤ 4096 * 2 ^ order

theorem LargeAt.congr {order size : Nat} (h : LargeAt hhdm m q order size)
    (hm : ∀ a, pageAt hhdm q ≤ a → a < pageAt hhdm q + 24 → m' a = m a) :
    LargeAt hhdm m' q order size where
  magic := by
    rw [load_congr fun a h1 h2 => hm a h1 (by omega)]
    exact h.magic
  bytes := by
    rw [load_congr fun a h1 h2 => hm a (by omega) (by omega)]
    exact h.bytes
  room := h.room

/-- The header `kmalloc` writes. -/
theorem largeAt_init {order size : Nat} (hsize : size < 2 ^ 64)
    (hroom : size + sizeofLargeHdr ≤ 4096 * 2 ^ order) :
    LargeAt hhdm (store (store (store m (pageAt hhdm q) 8 LARGE_MAGIC) (pageAt hhdm q + 8) 8 size)
      (pageAt hhdm q + 16) 1 order) q order size where
  magic := by
    rw [load_store_of_apart (Or.inl (by omega)), load_store_of_apart (Or.inl (by omega)),
      load_store_same (by decide)]
  bytes := by
    rw [load_store_of_apart (Or.inl (by omega)), load_store_same hsize]
  room := hroom

end Alix.Kheap
