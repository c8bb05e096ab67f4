/-
The sizes a cache can have.

The object size is the size up to a multiple of the alignment, or 0 if
that does not fit in 32 bits (`objSize_toNat`), and the header is 40 bytes
up to one. An object is of use if it holds the link of a freelist and one
fits behind the header: `Fits`, in terms of what the caller asked for, is
just that (`fits_iff`). A cache that fits divides its pages like one of
the heap's own (`shape`), and `slab_alloc` of it is that of the heap's
(`slabAlloc_eq`).
-/
import Alix.Lib.Masks
import Alix.Mm.SlabCache
import Alix.Mm.Proofs.SlabShape

namespace Alix.Slab

open Masks (up)
open Kheap (Shape slabHdr slabTotal)

variable {size align : BitVec 32} {s : Kheap} {k c : Nat}

-- ==== the numbers

theorem pow_lt (hk : k < 32) : 2 ^ k ≤ 2 ^ 31 := Nat.pow_le_pow_right (by omega) (by omega)

theorem hdr_toNat (hk : k < 32) (ha : align.toNat = 2 ^ k) :
    (hdr align).toNat = up 40 (2 ^ k) := by
  have hle := pow_lt hk
  unfold hdr roundUp
  rw [Masks.roundUp_toNat _ hk ha]
  exact Masks.roundUp_of_lt (show 40 + 2 ^ k - 1 < 2 ^ 32 by omega)

theorem objSize_toNat (hk : k < 32) (ha : align.toNat = 2 ^ k) :
    (roundUp size align).toNat
      = if size.toNat + 2 ^ k - 1 < 2 ^ 32 then up size.toNat (2 ^ k) else 0 := by
  unfold roundUp
  rw [Masks.roundUp_toNat _ hk ha]
  split
  · exact Masks.roundUp_of_lt ‹_›
  · exact Masks.roundUp_wrapped size.isLt hk (by omega)

theorem total_toNat {obj : BitVec 32} (h : (hdr align).toNat ≤ 4096) :
    (total obj align).toNat = (4096 - (hdr align).toNat) / obj.toNat := by
  have havail : (BitVec.ofNat 32 PAGE_SIZE - hdr align).toNat = 4096 - (hdr align).toNat := by
    have hpage : (BitVec.ofNat 32 PAGE_SIZE).toNat = 4096 := rfl
    rw [BitVec.toNat_sub, hpage]
    omega
  unfold total
  rw [BitVec.toNat_udiv, havail]

-- ==== what fits

/-- An object holds a pointer, and there is room for one behind the
header. -/
def Fits (size align : Nat) : Prop :=
  0 < size ∧ 8 < size + align ∧ size + up sizeofSlab align ≤ PAGE_SIZE

instance (size align : Nat) : Decidable (Fits size align) := by
  unfold Fits
  infer_instance

/-- A power of two up to a page divides it. -/
theorem pow_dvd_page (h : 2 ^ k ≤ 4096) : 2 ^ k ∣ 4096 :=
  Nat.pow_dvd_pow 2 ((Nat.pow_le_pow_iff_right (by omega : 1 < 2)).mp (show 2 ^ k ≤ 2 ^ 12 from h))

/-- What the caller asked for fits if what `slab_create` computes does. -/
theorem fits_iff (hk : k < 32) (ha : align.toNat = 2 ^ k) :
    Fits size.toNat (2 ^ k)
      ↔ 8 ≤ (roundUp size align).toNat
        ∧ (hdr align).toNat + (roundUp size align).toNat ≤ 4096 := by
  have hpos : 0 < 2 ^ k := Nat.two_pow_pos k
  have hdvd := Masks.dvd_up 40 (2 ^ k)
  have hhdr : 2 ^ k ≤ up 40 (2 ^ k) :=
    Nat.le_of_dvd (Nat.lt_of_lt_of_le (by omega) (Masks.le_up (v := 40) hpos)) hdvd
  rw [hdr_toNat hk ha, objSize_toNat hk ha]
  constructor
  · intro h
    obtain ⟨h0, h8, hroom⟩ := h
    have hroom' : size.toNat + up 40 (2 ^ k) ≤ 4096 := hroom
    rw [if_pos (by omega)]
    constructor
    · -- an alignment of 8 or more is a size of 8 or more
      by_cases hbig : 8 ≤ 2 ^ k
      · have hle : 2 ^ k ≤ up size.toNat (2 ^ k) :=
          (Masks.le_up_iff hpos (Nat.dvd_refl _)).mpr (by omega)
        omega
      · have hk3 : k ≤ 3 := by
          by_contra hcon
          have hle : 2 ^ 3 ≤ 2 ^ k := Nat.pow_le_pow_right (by omega) (by omega)
          omega
        exact (Masks.le_up_iff hpos (Nat.pow_dvd_pow 2 hk3 : 2 ^ k ∣ 2 ^ 3)).mpr (by omega)
    · -- what is left of the page is a multiple of the alignment
      have hleft : 2 ^ k ∣ 4096 - up 40 (2 ^ k) := Nat.dvd_sub (pow_dvd_page (by omega)) hdvd
      have hle := (Masks.up_le_iff hpos hleft).mpr (show size.toNat ≤ 4096 - up 40 (2 ^ k) by omega)
      omega
  · intro h
    obtain ⟨h8, hroom⟩ := h
    split at h8
    · rename_i hwrap
      rw [if_pos hwrap] at hroom
      have hle := Masks.le_up (v := size.toNat) hpos
      have hlt := Masks.up_lt (v := size.toNat) hpos
      refine ⟨?_, by omega, show size.toNat + up 40 (2 ^ k) ≤ 4096 by omega⟩
      -- of no bytes there is nothing to round up
      by_contra h0
      have hzero : up size.toNat (2 ^ k) ≤ 0 :=
        (Masks.up_le_iff hpos (Nat.dvd_zero _)).mpr (by omega)
      omega
    · omega

/-- How a cache that fits divides its pages. -/
def shape (hk : k < 32) (ha : align.toNat = 2 ^ k) (hf : Fits size.toNat (2 ^ k)) : Shape where
  base := (hdr align).toNat
  size := (roundUp size align).toNat
  count := (4096 - (hdr align).toNat) / (roundUp size align).toNat
  pointer := ((fits_iff hk ha).mp hf).1
  header := by
    rw [hdr_toNat hk ha]
    exact Masks.le_up (Nat.two_pow_pos k)
  room := by
    have hroom := ((fits_iff hk ha).mp hf).2
    have hle := Nat.div_mul_le_self (4096 - (hdr align).toNat) (roundUp size align).toNat
    omega
  pos := by
    obtain ⟨h8, hroom⟩ := (fits_iff hk ha).mp hf
    exact Nat.div_pos (by omega) (by omega)

/-- Its objects are aligned in every page. -/
theorem slot_aligned (hk : k < 32) (ha : align.toNat = 2 ^ k) (hf : Fits size.toNat (2 ^ k))
    {hhdm q x : Nat} (hh : hhdm % 4096 = 0) (hx : (shape hk ha hf).IsSlot hhdm q x) :
    align.toNat ∣ x := by
  obtain ⟨i, -, rfl⟩ := hx
  obtain ⟨-, hroom⟩ := (fits_iff hk ha).mp hf
  have hhdr : 2 ^ k ∣ (hdr align).toNat := by
    rw [hdr_toNat hk ha]
    exact Masks.dvd_up 40 _
  have hobj : 2 ^ k ∣ (roundUp size align).toNat := by
    rw [objSize_toNat hk ha]
    split
    · exact Masks.dvd_up _ _
    · exact Nat.dvd_zero _
  have hpage : 2 ^ k ∣ 4096 := by
    refine pow_dvd_page ?_
    have hpos := (shape hk ha hf).header
    have hle : 2 ^ k ≤ (hdr align).toNat := Nat.le_of_dvd (Nat.lt_of_lt_of_le (by omega) hpos) hhdr
    omega
  rw [ha]
  exact Nat.dvd_add (Nat.dvd_add (Nat.dvd_add (Nat.dvd_mul_left_of_dvd hpage q)
    (hpage.trans (Nat.dvd_of_mod_eq_zero hh))) hhdr) (Nat.dvd_mul_left_of_dvd hobj i)

-- ==== a cache of it

/-- A cache has the sizes `slab_cache_create` gave it. -/
def Sized (cache : SlabCache) (size align : BitVec 32) : Prop :=
  cache.objSize = (roundUp size align).toNat ∧ cache.objAlign = align.toNat

theorem Sized.hdr {cache : SlabCache} (h : Sized cache size align) :
    Slab.hdr (BitVec.ofNat 32 cache.objAlign) = Slab.hdr align := by
  rw [h.2, BitVec.ofNat_toNat, BitVec.setWidth_eq]

theorem Sized.total {cache : SlabCache} (h : Sized cache size align) :
    Slab.total (BitVec.ofNat 32 cache.objSize) (BitVec.ofNat 32 cache.objAlign)
      = Slab.total (roundUp size align) align := by
  rw [h.1, h.2, BitVec.ofNat_toNat, BitVec.setWidth_eq, BitVec.ofNat_toNat, BitVec.setWidth_eq]

theorem Sized.shape {cache : SlabCache} (h : Sized cache size align) (hk : k < 32)
    (ha : align.toNat = 2 ^ k) (hf : Fits size.toNat (2 ^ k)) : (Slab.shape hk ha hf).Of cache := by
  have hhdr : slabHdr cache = (Slab.hdr align).toNat := by
    rw [hdr_toNat hk ha]
    unfold slabHdr up
    rw [h.2, ha]
  refine ⟨hhdr, h.1, ?_⟩
  unfold slabTotal
  rw [hhdr, h.1]
  rfl

/-- With sizes that fit the 32 bits do not matter. -/
theorem slabCreate_eq (h : Sized (s.caches c) size align) (hk : k < 32)
    (ha : align.toNat = 2 ^ k) (hf : Fits size.toNat (2 ^ k)) :
    slabCreate s c = .ok (s.slabCreate c) := by
  obtain ⟨h8, hroom⟩ := (fits_iff hk ha).mp hf
  have ho := h.shape hk ha hf
  have htotal : (total (roundUp size align) align).toNat = slabTotal (s.caches c) := by
    rw [total_toNat (by omega), ho.total]
    rfl
  have hhdr : (hdr align).toNat = slabHdr (s.caches c) := ho.hdr.symm
  have hne : (s.caches c).objSize ≠ 0 := by
    rw [h.1]
    omega
  unfold slabCreate Kheap.slabCreate
  cases s.pmm.pmmAllocPage with
  | none => rfl
  | some r =>
      have hcaches : ∀ pmm, ((Kheap.modPage { s with pmm } r.2 (Page.setFlag PAGE_SLAB)).modPage r.2
          fun p => { p with priv := Kheap.cachePtr c }).caches c = s.caches c := fun _ => rfl
      simp only [hcaches, if_neg hne, h.hdr, h.total, htotal, hhdr]

/-- Nor in `slab_alloc`. -/
theorem slabAlloc_eq (h : Sized (s.caches c) size align) (hk : k < 32)
    (ha : align.toNat = 2 ^ k) (hf : Fits size.toNat (2 ^ k)) :
    slabAlloc s c = .ok (s.slabAlloc c) := by
  unfold slabAlloc Kheap.slabAlloc
  rw [slabCreate_eq h hk ha hf]
  split
  · cases s.slabCreate c with
    | none => rfl
    | some r => rfl
  · rfl

end Alix.Slab
