/-
What a user of `slab_cache_create` can rely on.

# What goes wrong

`slab_cache_create` looks at the alignment only. The object size may be 0,
for a size of 0 or one that wraps with its alignment, and then the first
`slab_alloc` divides by it (`slabAlloc_divides`). It may be less than 8,
and then the link that `slab_create` writes into a slot runs into the next
one (`first_overlaps`). It may be more than the page has behind the
header, or the header may take the whole page or more; then `slab_alloc`
returns the end of the header all the same (`first_outside`).

# What holds

Everything, in every run, as long as an object holds a pointer and one of
them fits (`slab_cache_sound_iff`). The condition is in terms of what the
caller asks for.
-/
import Alix.Mm.Proofs.CacheRun
import Alix.Mm.Proofs.Kheap

namespace Alix.Slab

open Bytes (Memory load store load_store_same load_store_of_apart)
open Dyadic (Block)
open Masks (up)
open Kheap (SlabList pageAt cachePtr bootHeap)

variable {maxPfn : Nat} {usable : Nat → Bool} {size align : BitVec 32} {s t : Kheap}
  {c k p q : Nat} {pmm : Pmm}

-- ==== the first slab

/-- The page as `slab_create` writes it, with so large a header and so many
objects. -/
def pageInit (m : Memory) (slab page hdr total size : Nat) : Memory :=
  let m := store (store m slab 8 0) (slab + 8) 8 0
  let m := store (store m (slab + 24) 4 0) (slab + 28) 4 total
  let m := store m (slab + 32) 8 page
  let base := slab + hdr
  let slot := fun i => if i + 1 < total then base + (i + 1) * size else 0
  Bytes.storeAll (store m (slab + 16) 8 base) base size 8 slot total

/-- The heap with the first slab, which is on no list yet. -/
def firstSlab (s : Kheap) (c : Nat) (pmm : Pmm) (page : Nat) (size align : BitVec 32) : Kheap :=
  { s.newSlab c pmm page with
    mem := pageInit s.mem (pageAt s.hhdm page) page (hdr align).toNat (slotCount size align)
      (roundUp size align).toNat }

theorem slabCreate_some (h : Sized (s.caches c) size align) (hne : (roundUp size align).toNat ≠ 0)
    (ha : s.pmm.pmmAllocPage = some (pmm, p)) :
    slabCreate s c = .ok (some (firstSlab s c pmm p size align, pageAt s.hhdm p)) := by
  have htwice := Kheap.modPage_modPage pmm p (Page.setFlag PAGE_SLAB)
    fun pg => { pg with priv := cachePtr c }
  have hne' : (s.caches c).objSize ≠ 0 := by rwa [h.1]
  unfold slabCreate
  rw [ha]
  simp only [Kheap.modPage, htwice]
  rw [if_neg hne', h.hdr, h.total, h.1]
  rfl

/-- The division by `obj_size`. -/
theorem slabAlloc_divides (h : Created maxPfn usable s size align c)
    (h0 : (roundUp size align).toNat = 0) (ha : s.pmm.pmmAllocPage = some (pmm, p)) :
    slabAlloc s c = .error .divide := by
  have hcreate : slabCreate s c = .error .divide := by
    unfold slabCreate
    rw [ha]
    simp only [Kheap.modPage, h.cache, h0, if_true]
  unfold slabAlloc
  rw [if_pos (h.head .partials), hcreate]

/-- The heap after the first `slab_alloc`, and the object. -/
def firstAlloc (s : Kheap) (c : Nat) (pmm : Pmm) (page : Nat) (size align : BitVec 32) :
    Kheap × Nat :=
  ((firstSlab s c pmm page size align).slabListPush c .partials (pageAt s.hhdm page)).slabTake c

theorem slabAlloc_first (h : Created maxPfn usable s size align c)
    (hne : (roundUp size align).toNat ≠ 0) (ha : s.pmm.pmmAllocPage = some (pmm, p)) :
    slabAlloc s c
      = .ok ((firstAlloc s c pmm p size align).1, (firstAlloc s c pmm p size align).2) := by
  unfold slabAlloc
  rw [if_pos (h.head .partials), slabCreate_some h.sized hne ha]
  exact congrArg Except.ok Prod.mk.eta.symm

-- ==== what it does

theorem firstAlloc_frame (s : Kheap) (c : Nat) (pmm : Pmm) (p : Nat) (size align : BitVec 32) :
    (firstAlloc s c pmm p size align).1.pmm = (s.newSlab c pmm p).pmm
      ∧ (firstAlloc s c pmm p size align).1.hhdm = s.hhdm := by
  obtain ⟨hp, hh⟩ :=
    Kheap.slabListPush_frame (firstSlab s c pmm p size align) c .partials (pageAt s.hhdm p)
  obtain ⟨hp', hh'⟩ := Kheap.slabTake_frame
    ((firstSlab s c pmm p size align).slabListPush c .partials (pageAt s.hhdm p)) c
  exact ⟨hp'.trans hp, hh'.trans hh⟩

/-- The cache has one slab. -/
theorem firstAlloc_own (h : Created maxPfn usable s size align c)
    (ha : s.pmm.pmmAllocPage = some (pmm, p)) (q : Nat) :
    OwnSlab (firstAlloc s c pmm p size align).1 c q ↔ q = p := by
  rw [ownSlab_congr (firstAlloc_frame s c pmm p size align).1]
  constructor
  · intro hq
    exact (ownSlab_old ha hq).resolve_right (h.slabless q)
  · intro hq
    rw [hq]
    exact ownSlab_new s c pmm p

/-- The links of objects of less than 8 bytes overlap. -/
theorem first_overlaps (h : Created maxPfn usable s size align c) (hk : k < 32)
    (hal : align.toNat = 2 ^ k) (h0 : (roundUp size align).toNat ≠ 0)
    (h8 : (roundUp size align).toNat < 8) (ha : s.pmm.pmmAllocPage = some (pmm, p))
    (objs : List Nat) : ¬ Sound (firstAlloc s c pmm p size align).1 size align c objs := by
  intro hsound
  have hpos : 0 < 2 ^ k := Nat.two_pow_pos k
  -- the alignment is not more than the object
  have hdvd : 2 ^ k ∣ (roundUp size align).toNat := by
    unfold roundUp
    rw [Masks.roundUp_toNat size hk hal]
    exact Nat.dvd_mul_left _ _
  have hle : 2 ^ k ≤ (roundUp size align).toNat := Nat.le_of_dvd (by omega) hdvd
  have hhdr : (hdr align).toNat < 40 + 8 := by
    rw [hdr_toNat hk hal]
    have hlt := Masks.up_lt (v := 40) hpos
    omega
  have hcount : 1 < slotCount size align := by
    unfold slotCount
    rw [total_toNat (by omega)]
    exact (Nat.le_div_iff_mul_le (by omega)).mpr (by omega)
  have hlinks := hsound.links p ((firstAlloc_own h ha p).mpr rfl) 0 1 (by omega) hcount (by omega)
  unfold slotOf at hlinks
  omega

/-- The first object is where the header ends. -/
theorem firstAlloc_object (h8 : 8 ≤ (roundUp size align).toNat) (hhdr : 40 ≤ (hdr align).toNat)
    (hlow : pageAt s.hhdm p + (hdr align).toNat < 2 ^ 64)
    (hhead : s.head c .partials = 0) :
    (firstAlloc s c pmm p size align).2 = pageAt s.hhdm p + (hdr align).toNat := by
  have hfirst : (firstSlab s c pmm p size align).head c .partials = 0 := hhead
  have hpush : (firstSlab s c pmm p size align).slabListPush c .partials (pageAt s.hhdm p)
      = (((firstSlab s c pmm p size align).put (pageAt s.hhdm p + 8) 8 0).put (pageAt s.hhdm p) 8
        ((firstSlab s c pmm p size align).head c .partials)).setHead c .partials
          (pageAt s.hhdm p) :=
    congrArg (fun t => Kheap.setHead t c .partials (pageAt s.hhdm p)) (if_neg (not_not.mpr hfirst))
  unfold firstAlloc
  rw [hpush, Kheap.slabTake_eq]
  dsimp only
  rw [Kheap.head_setHead_self]
  show load (store (store (pageInit s.mem (pageAt s.hhdm p) p (hdr align).toNat
    (slotCount size align) (roundUp size align).toNat) (pageAt s.hhdm p + 8) 8 0)
      (pageAt s.hhdm p) 8 _) (pageAt s.hhdm p + 16) 8 = _
  rw [load_store_of_apart (Or.inr (by omega)), load_store_of_apart (Or.inr (by omega))]
  unfold pageInit
  rw [Bytes.load_congr fun x h1 h2 => Bytes.storeAll_outside h8 (by omega)]
  exact load_store_same hlow

/-- An object that does not fit is not in the page. -/
theorem first_outside (h : Created maxPfn usable s size align c)
    (hbig : 4096 < (hdr align).toNat + (roundUp size align).toNat)
    (ha : s.pmm.pmmAllocPage = some (pmm, p)) {objs : List Nat}
    (hobj : pageAt s.hhdm p + (hdr align).toNat ∈ objs) :
    ¬ Sound (firstAlloc s c pmm p size align).1 size align c objs := by
  intro hsound
  obtain ⟨q, hq, -, hin⟩ := hsound.inside _ hobj
  have hqp := (firstAlloc_own h ha q).mp hq
  have hslab : (firstAlloc s c pmm p size align).1.slabFromPage q = pageAt s.hhdm p := by
    rw [hqp, Kheap.slabFromPage_eq, (firstAlloc_frame s c pmm p size align).2]
  rw [hslab] at hin
  have hin' : pageAt s.hhdm p + (hdr align).toNat + (roundUp size align).toNat
      ≤ pageAt s.hhdm p + 4096 := hin
  omega

-- ==== the machine

/-- On the machine of sixteen frames there is room for a cache and a slab. -/
theorem boot_created (size align : BitVec 32) (hk : k < 32) (hal : align.toNat = 2 ^ k) :
    ∃ s₀ c pmm p, slabCacheCreate bootHeap size align = .ok (s₀, cachePtr c)
      ∧ s₀.pmm.pmmAllocPage = some (pmm, p)
      ∧ pageAt s₀.hhdm p + (hdr align).toNat < 2 ^ 64 := by
  have hprobe : (bootHeap.kmalloc sizeofSlabCache).toOption.any (fun r =>
      decide (r.2 ≠ 0) && (r.1.pmm.pmmAllocPage.any fun a => decide (a.2 < 17))
        && decide (r.1.hhdm = 0xffff800000000000)) = true := by decide +kernel
  cases hm : bootHeap.kmalloc sizeofSlabCache with
  | error e =>
      rw [hm] at hprobe
      cases hprobe
  | ok r =>
      obtain ⟨u, x⟩ := r
      rw [hm] at hprobe
      have hprobe' : (decide (x ≠ 0) && (u.pmm.pmmAllocPage.any fun a => decide (a.2 < 17))
          && decide (u.hhdm = 0xffff800000000000)) = true := hprobe
      rw [Bool.and_eq_true, Bool.and_eq_true, decide_eq_true_iff, decide_eq_true_iff] at hprobe'
      obtain ⟨⟨hx, hpage⟩, hhdm⟩ := hprobe'
      obtain ⟨c, rfl⟩ : ∃ c, x = cachePtr c := ⟨x - 1, by unfold cachePtr; omega⟩
      cases ha : u.pmm.pmmAllocPage with
      | none =>
          rw [ha] at hpage
          cases hpage
      | some a =>
          obtain ⟨pmm, p⟩ := a
          rw [ha] at hpage
          have hp : p < 17 := of_decide_eq_true hpage
          refine ⟨u.modCache c fun _ =>
            ⟨(roundUp size align).toNat, align.toNat, 0, 0, 0, 0⟩, c, pmm, p, ?_, ha, ?_⟩
          · have hacc := (Masks.isPow_iff align).mpr ⟨k, hk, hal⟩
            unfold slabCacheCreate
            rw [if_neg (not_or.mpr ⟨hacc.1, not_not.mpr hacc.2⟩), hm]
            simp only [hx, if_false]
            rfl
          · have hlt := Masks.up_lt (v := 40) (Nat.two_pow_pos k)
            have hle := pow_lt hk
            rw [hdr_toNat hk hal]
            show p * 4096 + u.hhdm + up 40 (2 ^ k) < 2 ^ 64
            rw [hhdm]
            omega

/-- With sizes that do not fit there is a run that goes wrong. -/
theorem unsound_of_not_fits (size align : BitVec 32) (hk : k < 32) (hal : align.toNat = 2 ^ k)
    (hf : ¬ Fits size.toNat (2 ^ k)) :
    ∃ c t objs, Reached size align c t objs ∧ ¬ Sound t size align c objs := by
  obtain ⟨s₀, c, pmm, p, hs, ha, hlow⟩ := boot_created size align hk hal
  have hc := created Kheap.run_bootHeap hs
  have hrun : CacheRun size align c s₀ s₀ [] := .init
  by_cases h0 : (roundUp size align).toNat = 0
  · refine ⟨c, s₀, [], ⟨_, _, _, _, _, s₀, Kheap.run_bootHeap, hs, hrun⟩, fun hsound => ?_⟩
    obtain ⟨r, hr⟩ := hsound.returns
    rw [slabAlloc_divides hc h0 ha] at hr
    cases hr
  · have hfirst := slabAlloc_first hc h0 ha
    have hafter := hrun.alloc hfirst
    refine ⟨c, _, _, ⟨_, _, _, _, _, s₀, Kheap.run_bootHeap, hs, hafter⟩, ?_⟩
    by_cases h8 : 8 ≤ (roundUp size align).toNat
    · have hhdr : 40 ≤ (hdr align).toNat := by
        rw [hdr_toNat hk hal]
        exact Masks.le_up (Nat.two_pow_pos k)
      have hbig : 4096 < (hdr align).toNat + (roundUp size align).toNat := by
        by_contra hno
        exact hf ((fits_iff hk hal).mpr ⟨h8, by omega⟩)
      refine first_outside hc hbig ha ?_
      rw [firstAlloc_object h8 hhdr hlow (hc.head .partials), if_neg (by omega)]
      exact List.mem_cons_self
    · exact first_overlaps hc hk hal h0 (by omega) ha _

-- ==== the cache

/-- An alignment that is accepted makes a sound cache with just the sizes
that fit. -/
theorem slab_cache_sound_iff (size align : BitVec 32)
    (ha : align ≠ 0 ∧ align &&& (align - 1) = 0) :
    (∀ c t objs, Reached size align c t objs → Sound t size align c objs)
      ↔ Fits size.toNat align.toNat := by
  obtain ⟨k, hk, hal⟩ := (Masks.isPow_iff align).mp ha
  rw [hal]
  constructor
  · intro h
    by_contra hf
    obtain ⟨c, t, objs, hr, hno⟩ := unsound_of_not_fits size align hk hal hf
    exact hno (h c t objs hr)
  · intro hf c t objs hr
    exact sound_of_fits hk hal hf hr

/-- Objects of 24 bytes: one is taken, and given back. -/
theorem slab_cache_sound_small : ∃ c t x, x ≠ 0 ∧ Reached 24 8 c t [x] ∧ Sound t 24 8 c [x]
    ∧ Reached 24 8 c (t.slabFree c x) [] ∧ Sound (t.slabFree c x) 24 8 c [] := by
  obtain ⟨s₀, c, pmm, p, hs, ha, hlow⟩ := boot_created 24 8 (k := 3) (by omega) rfl
  have hc := created Kheap.run_bootHeap hs
  have hobject : (firstAlloc s₀ c pmm p 24 8).2 = pageAt s₀.hhdm p + (hdr 8).toNat :=
    firstAlloc_object (by decide) (by decide) hlow (hc.head .partials)
  have hhdr : 40 ≤ (hdr 8).toNat := by decide
  have hne : (firstAlloc s₀ c pmm p 24 8).2 ≠ 0 := by omega
  have hinit : CacheRun 24 8 c s₀ s₀ [] := .init
  have hout := hinit.alloc (slabAlloc_first hc (by decide) ha)
  rw [if_neg hne] at hout
  have hback := hout.free List.mem_cons_self
  rw [List.erase_cons_head] at hback
  have hsound := (slab_cache_sound_iff 24 8 (by decide)).mpr (by decide) c
  have hr : Reached 24 8 c _ _ := ⟨_, _, _, _, _, s₀, Kheap.run_bootHeap, hs, hout⟩
  have hr' : Reached 24 8 c _ _ := ⟨_, _, _, _, _, s₀, Kheap.run_bootHeap, hs, hback⟩
  exact ⟨c, _, _, hne, hr, hsound _ _ hr, hr', hsound _ _ hr'⟩

/-- Of no bytes, of four, and of more than a page. -/
theorem slab_cache_unsound :
    (¬ ∀ c t objs, Reached 0 8 c t objs → Sound t 0 8 c objs)
      ∧ (¬ ∀ c t objs, Reached 4 4 c t objs → Sound t 4 4 c objs)
      ∧ ¬ ∀ c t objs, Reached 5000 8 c t objs → Sound t 5000 8 c objs := by
  refine ⟨fun h => ?_, fun h => ?_, fun h => ?_⟩
  · obtain ⟨c, t, objs, hr, hno⟩ := unsound_of_not_fits 0 8 (k := 3) (by omega) rfl
      (by decide)
    exact hno (h c t objs hr)
  · obtain ⟨c, t, objs, hr, hno⟩ := unsound_of_not_fits 4 4 (k := 2) (by omega) rfl
      (by decide)
    exact hno (h c t objs hr)
  · obtain ⟨c, t, objs, hr, hno⟩ := unsound_of_not_fits 5000 8 (k := 3) (by omega) rfl
      (by decide)
    exact hno (h c t objs hr)

end Alix.Slab
