/-
The boot map, where the boot loader and the linker script place things.

# What a reader may ask

The direct map, the database, the image and the framebuffer are mapped one over
the other. Is the direct map one at every address the memory map has? Can a
page be written and executed? Does the list of descriptors know all of it?

# What holds

In the upper half an extent is an interval of addresses (`Extent.Spans.at_eq`).
Below the image everything that is mapped is the direct map, whichever extent
an address is in (`bootMap_below`), and from the image on its segments decide
(`bootMap_image`). The theorems about `paging_init` read these off.
-/
import Alix.Mm.Proofs.PagingInit
import Alix.Mm.Proofs.VadRun

namespace Alix.Paging

open Overlay

variable {σ : Type} {A : FrameAlloc σ} {s : Machine σ} {virt : Nat} {flags : Word}
  {hhdmOffset : Nat} {image : KernelImage} {db : Pfndb} {memmap : List MemmapEntry}
  {framebuffer : Option Framebuffer} {kernelAddr : ExecutableAddress} {cr4 : Word} {b : Booted σ}

-- ==== where it lies

/-- How the boot loader and the linker script place things: the direct map
starts in the upper half and ends, with the database and the framebuffer in it,
below the image, whose segments follow one another on page boundaries. -/
structure Placed (hhdmOffset : Nat) (image : KernelImage) (db : Pfndb) (memmap : List MemmapEntry)
    (framebuffer : Option Framebuffer) (kernelAddr : ExecutableAddress) : Prop where
  hhdm : 2 ^ 64 - 2 ^ 47 ≤ hhdmOffset ∧ hhdmOffset % PAGE_SIZE = 0
  entries : ∀ e ∈ memmap, hhdmOffset + (e.base + e.length) ≤ image.kernelStart
  db : hhdmOffset + (db.phys + (db.maxPfn + 1) * PAGE_T_SIZE) ≤ image.kernelStart
  framebuffer : ∀ f, framebuffer = some f → hhdmOffset ≤ f.address
    ∧ f.address + f.pitch * f.height ≤ image.kernelStart
  order : image.kernelStart ≤ image.textStart ∧ image.textStart ≤ image.textEnd
    ∧ image.textEnd ≤ image.rodataStart ∧ image.rodataStart ≤ image.rodataEnd
    ∧ image.rodataEnd ≤ image.dataStart ∧ image.dataStart ≤ image.kernelEnd
    ∧ image.kernelEnd < 2 ^ 64
  boundaries : image.kernelStart % PAGE_SIZE = 0 ∧ image.textStart % PAGE_SIZE = 0
    ∧ image.rodataStart % PAGE_SIZE = 0 ∧ image.dataStart % PAGE_SIZE = 0
    ∧ image.kernelEnd % PAGE_SIZE = 0
  loaded : kernelAddr.virtualBase = image.kernelStart
    ∧ kernelAddr.physicalBase + (image.kernelEnd - image.kernelStart) ≤ 2 ^ 52

/-- An extent that stays in the upper half, from one address to another. -/
structure Extent.Spans (x : Extent) (start stop : Nat) : Prop where
  first : x.virt = start ∧ start % PAGE_SIZE = 0 ∧ 2 ^ 64 - 2 ^ 47 ≤ start
  last : start + x.pages * PAGE_SIZE = stop ∧ stop < 2 ^ 64

theorem Extent.Spans.at_eq {x : Extent} {start stop : Nat} (h : x.Spans start stop)
    (hv : Canonical virt) : x.at (virt / PAGE_SIZE % 2 ^ 36)
      = if start ≤ virt ∧ virt < stop then
          some ((x.phys + (virt - start) / PAGE_SIZE * PAGE_SIZE) % 2 ^ 52, x.flags)
        else none := by
  have hs : PAGE_SIZE = 4096 := rfl
  obtain ⟨⟨h1, h2, h3⟩, h4, h5⟩ := h
  unfold Canonical at hv
  unfold Extent.at
  rw [h1]
  simp only
  rw [hs] at h2 h4 ⊢
  have hi : start ≤ virt → (virt / 4096 % 2 ^ 36 + 2 ^ 36 - start / 4096 % 2 ^ 36) % 2 ^ 36
      = (virt - start) / 4096 := by omega
  have hno : virt < start → x.pages ≤ (virt / 4096 % 2 ^ 36 + 2 ^ 36 - start / 4096 % 2 ^ 36)
      % 2 ^ 36 := by omega
  by_cases hle : start ≤ virt
  · rw [hi hle]
    by_cases hin : virt < stop
    · rw [if_pos (by omega), if_pos ⟨hle, hin⟩]
      refine congrArg some (Prod.ext ?_ rfl)
      simp only
      omega
    · rw [if_neg (by omega), if_neg fun e => hin e.2]
  · rw [if_neg (Nat.not_lt_of_le (hno (by omega))), if_neg fun e => hle e.1]

/-- Rounding up does not pass a page boundary. -/
theorem pageAlignUp_le {x y : Nat} (h : x ≤ y) (hy : y % PAGE_SIZE = 0) (hlt : y < 2 ^ 64) :
    pageAlignUp x ≤ y ∧ x ≤ pageAlignUp x := by
  have hs : PAGE_SIZE = 4096 := rfl
  unfold pageAlignUp pageAlignDown
  rw [hs] at hy ⊢
  omega

section placed

variable (hp : Placed hhdmOffset image db memmap framebuffer kernelAddr)
include hp

/-- A segment between two symbols. -/
theorem Placed.segment (flags : Word) {start stop : Nat} (h1 : image.kernelStart ≤ start)
    (h2 : start % PAGE_SIZE = 0) (h3 : start ≤ stop) (h4 : stop ≤ image.kernelEnd) :
    (segmentExtent kernelAddr start stop flags).Spans start (pageAlignUp stop)
      ∧ pageAlignUp stop ≤ image.kernelEnd
      ∧ (segmentExtent kernelAddr start stop flags).phys
        = kernelAddr.physicalBase + (start - image.kernelStart) := by
  have hs : PAGE_SIZE = 4096 := rfl
  obtain ⟨-, -, -, -, -, -, hend⟩ := hp.order
  obtain ⟨hk, -, -, -, ha⟩ := hp.boundaries
  obtain ⟨hbase, hload⟩ := hp.loaded
  have hd : pageAlignDown start = start := by
    unfold pageAlignDown
    rw [hs] at h2 ⊢
    omega
  obtain ⟨hle, hge⟩ := pageAlignUp_le h4 ha hend
  have hup := pageAlignUp_mod stop
  have hlow := hp.db
  have hh := hp.hhdm.1
  refine ⟨⟨⟨hd, h2, by omega⟩, ?_, by omega⟩, hle, ?_⟩
  · unfold segmentExtent
    simp only
    rw [hd]
    rw [hs] at h2 hup ⊢
    omega
  · unfold segmentExtent wrapSub
    simp only
    rw [hd, hbase]
    omega

end placed

-- ==== the direct map

/-- A part of the direct map, below `top`. -/
def Extent.Direct (x : Extent) (hhdmOffset top : Nat) : Prop :=
  ∃ start stop, x.Spans start stop ∧ hhdmOffset ≤ start ∧ stop ≤ top
    ∧ x.phys = start - hhdmOffset ∧ x.flags = DATA_FLAGS

theorem Extent.Direct.at_some {x : Extent} {top p : Nat} {fl : Word}
    (h : x.Direct hhdmOffset top)
    (hh : 2 ^ 64 - 2 ^ 47 ≤ hhdmOffset ∧ hhdmOffset % PAGE_SIZE = 0) (hv : Canonical virt)
    (hx : x.at (virt / PAGE_SIZE % 2 ^ 36) = some (p, fl)) :
    hhdmOffset ≤ virt ∧ virt < top ∧ p + virt % PAGE_SIZE = virt - hhdmOffset
      ∧ fl = DATA_FLAGS := by
  have hs : PAGE_SIZE = 4096 := rfl
  obtain ⟨start, stop, hspan, hle, hstop, hphys, hflags⟩ := h
  obtain ⟨-, h2, h3⟩ := hspan.first
  obtain ⟨-, h5⟩ := hspan.last
  rw [hspan.at_eq hv] at hx
  split at hx
  · rename_i hin
    obtain ⟨rfl, rfl⟩ := Prod.mk.inj (Option.some.inj hx)
    refine ⟨by omega, by omega, ?_, hflags⟩
    rw [hphys]
    rw [hs] at hh h2 ⊢
    omega
  · cases hx

theorem wrapSub_of_le {a b : Nat} (h : b ≤ a) (ha : a < 2 ^ 64) : wrapSub a b = a - b := by
  unfold wrapSub
  omega

section placed

variable (hp : Placed hhdmOffset image db memmap framebuffer kernelAddr)
include hp

/-- The direct map of a range of physical memory below the image. -/
theorem Placed.direct {start stop : Nat} {x : Extent}
    (hstop : hhdmOffset + stop ≤ image.kernelStart) (hle : start ≤ stop)
    (hx : x = ⟨(hhdmOffset + pageAlignDown start) % 2 ^ 64, pageAlignDown start,
      wrapSub (pageAlignUp (stop % 2 ^ 64)) (pageAlignDown start) / PAGE_SIZE, DATA_FLAGS⟩) :
    x.Spans (hhdmOffset + pageAlignDown start) (hhdmOffset + pageAlignUp stop)
      ∧ x.Direct hhdmOffset image.kernelStart
      ∧ hhdmOffset + pageAlignUp stop ≤ image.kernelStart
      ∧ pageAlignDown start ≤ pageAlignUp stop ∧ stop < 2 ^ 64 := by
  have hs : PAGE_SIZE = 4096 := rfl
  obtain ⟨h1, h2, h3, h4, h5, h6, h7⟩ := hp.order
  obtain ⟨hk, -⟩ := hp.boundaries
  obtain ⟨hh, ha⟩ := hp.hhdm
  have hd := pageAlignDown_mod start
  have hdl := pageAlignDown_le start
  have hu := pageAlignUp_mod stop
  obtain ⟨hup, hge⟩ := pageAlignUp_le (x := stop) (y := image.kernelStart - hhdmOffset) (by omega)
    (by rw [hs] at hk ha ⊢; omega) (by omega)
  have hlt : stop < 2 ^ 64 := by omega
  rw [Nat.mod_eq_of_lt hlt, wrapSub_of_le (by omega) (pageAlignUp_lt _),
    Nat.mod_eq_of_lt (by omega)] at hx
  have hspan : x.Spans (hhdmOffset + pageAlignDown start) (hhdmOffset + pageAlignUp stop) := by
    rw [hx]
    refine ⟨⟨rfl, ?_, by omega⟩, ?_, by omega⟩
    · rw [hs] at hd ha ⊢
      omega
    · simp only
      rw [hs] at hd hu ⊢
      omega
  refine ⟨hspan, ⟨_, _, hspan, Nat.le_add_right _ _, by omega, ?_, ?_⟩, by omega, by omega, hlt⟩
  · rw [hx, Nat.add_sub_cancel_left]
  · rw [hx]

theorem Placed.hhdmExtent {e : MemmapEntry} (he : e ∈ memmap) :
    (Paging.hhdmExtent hhdmOffset e).Spans (hhdmOffset + pageAlignDown e.base)
        (hhdmOffset + pageAlignUp (e.base + e.length))
      ∧ (Paging.hhdmExtent hhdmOffset e).Direct hhdmOffset image.kernelStart
      ∧ hhdmOffset + pageAlignUp (e.base + e.length) ≤ image.kernelStart := by
  obtain ⟨hspan, hdirect, htop, hle, hlt⟩ := hp.direct (hp.entries e he) (Nat.le_add_right _ _) rfl
  have hx : Paging.hhdmExtent hhdmOffset e = ⟨(hhdmOffset + pageAlignDown e.base) % 2 ^ 64,
      pageAlignDown e.base, wrapSub (pageAlignUp ((e.base + e.length) % 2 ^ 64))
        (pageAlignDown e.base) / PAGE_SIZE, DATA_FLAGS⟩ := by
    unfold Paging.hhdmExtent
    rw [wrapSub_of_le (by rwa [Nat.mod_eq_of_lt hlt]) (pageAlignUp_lt _)]
  rw [hx]
  exact ⟨hspan, hdirect, htop⟩

theorem Placed.pfndbExtent :
    (Paging.pfndbExtent hhdmOffset db).Spans (hhdmOffset + pageAlignDown db.phys)
        (hhdmOffset + pageAlignUp (db.phys + (db.maxPfn + 1) * PAGE_T_SIZE))
      ∧ (Paging.pfndbExtent hhdmOffset db).Direct hhdmOffset image.kernelStart := by
  obtain ⟨hspan, hdirect, -⟩ := hp.direct hp.db (Nat.le_add_right _ _) rfl
  exact ⟨hspan, hdirect⟩

theorem Placed.framebufferExtent {f : Framebuffer} (hf : framebuffer = some f) :
    (Paging.framebufferExtent hhdmOffset f).Spans f.bounds.1 f.bounds.2
      ∧ (Paging.framebufferExtent hhdmOffset f).Direct hhdmOffset image.kernelStart
      ∧ f.bounds.2 ≤ image.kernelStart := by
  have hs : PAGE_SIZE = 4096 := rfl
  obtain ⟨hlow, hhigh⟩ := hp.framebuffer f hf
  obtain ⟨hh, ha⟩ := hp.hhdm
  have hord := hp.order
  -- what the framebuffer has in the direct map
  obtain ⟨hspan, hdirect, htop, hle, -⟩ := hp.direct
    (show hhdmOffset + (f.address - hhdmOffset + f.pitch * f.height) ≤ image.kernelStart by omega)
    (Nat.le_add_right (f.address - hhdmOffset) _) rfl
  have hdown : hhdmOffset + pageAlignDown (f.address - hhdmOffset) = pageAlignDown f.address := by
    unfold pageAlignDown
    rw [hs] at ha ⊢
    omega
  have hk := hp.boundaries.1
  have hup : hhdmOffset + pageAlignUp (f.address - hhdmOffset + f.pitch * f.height)
      = pageAlignUp ((f.address + f.pitch * f.height % 2 ^ 64) % 2 ^ 64) := by
    unfold pageAlignUp pageAlignDown
    rw [hs] at ha hk ⊢
    omega
  have hstop : pageAlignUp ((f.address - hhdmOffset + f.pitch * f.height) % 2 ^ 64)
      = f.bounds.2 - hhdmOffset := by
    rw [Nat.mod_eq_of_lt (by omega)]
    exact (Nat.sub_eq_of_eq_add (by rw [Nat.add_comm]; exact hup.symm)).symm
  have hx : Paging.framebufferExtent hhdmOffset f
      = ⟨(hhdmOffset + pageAlignDown (f.address - hhdmOffset)) % 2 ^ 64,
        pageAlignDown (f.address - hhdmOffset),
        wrapSub (pageAlignUp ((f.address - hhdmOffset + f.pitch * f.height) % 2 ^ 64))
          (pageAlignDown (f.address - hhdmOffset)) / PAGE_SIZE, DATA_FLAGS⟩ := by
    have hb : f.bounds = (pageAlignDown f.address, f.bounds.2) := rfl
    have hlt : f.bounds.2 < 2 ^ 64 := pageAlignUp_lt _
    have hb2 : hhdmOffset + pageAlignDown (f.address - hhdmOffset) ≤ f.bounds.2 := by
      show _ ≤ pageAlignUp _
      omega
    unfold Paging.framebufferExtent
    rw [hb, hstop]
    simp only
    rw [if_pos hlow, ← hdown, wrapSub_of_le (Nat.le_add_right _ _) (by omega),
      wrapSub_of_le hb2 hlt, wrapSub_of_le (by omega) (by omega), Nat.add_sub_cancel_left,
      Nat.mod_eq_of_lt (by omega), Nat.sub_sub]
  rw [← hx, hdown, hup] at hspan
  rw [← hx] at hdirect
  rw [hup] at htop
  exact ⟨hspan, hdirect, htop⟩

/-- What is behind the database and the memory map, or is the framebuffer. -/
theorem Placed.direct_of_mem {x : Extent}
    (hx : x ∈ memmap.map (Paging.hhdmExtent hhdmOffset) ++ [Paging.pfndbExtent hhdmOffset db]
      ∨ x ∈ framebufferExtents hhdmOffset framebuffer) :
    x.Direct hhdmOffset image.kernelStart := by
  obtain hx | hx := hx
  · obtain hx | hx := List.mem_append.mp hx
    · obtain ⟨e, he, rfl⟩ := List.mem_map.mp hx
      exact (hp.hhdmExtent he).2.1
    · rw [List.mem_singleton.mp hx]
      exact hp.pfndbExtent.2
  · unfold framebufferExtents at hx
    split at hx
    · cases hx
    split at hx
    · cases hx
    · rw [List.mem_singleton.mp hx]
      exact (hp.framebufferExtent rfl).2.1

end placed

-- ==== the image

theorem mem_bootExtents_hhdm {e : MemmapEntry} (he : e ∈ memmap) :
    hhdmExtent hhdmOffset e
      ∈ bootExtents hhdmOffset image db memmap framebuffer kernelAddr :=
  List.mem_append_left _ (List.mem_append_left _ (List.mem_map_of_mem he))

/-- The layers of the boot map. -/
theorem bootMap_eq (page : Nat) :
    bootMap hhdmOffset image db memmap framebuffer kernelAddr page
      = (overlay ((framebufferExtents hhdmOffset framebuffer).map Extent.at) page).or
        (((dataExtent image kernelAddr).at page).or
        (((rodataExtent image kernelAddr).at page).or
        (((textExtent image kernelAddr).at page).or
        (((requestsExtent image kernelAddr).at page).or
        (overlay ((memmap.map (hhdmExtent hhdmOffset)
          ++ [pfndbExtent hhdmOffset db]).map Extent.at) page))))) := by
  unfold bootMap bootExtents
  simp only [List.append_cons _ _ (_ :: _), List.map_append, List.map_cons, List.map_nil,
    overlay_append, overlay_singleton]

section placed

variable (hp : Placed hhdmOffset image db memmap framebuffer kernelAddr) (hv : Canonical virt)
include hp hv

/-- The direct map is below the image. -/
theorem Placed.overlay_none {xs : List Extent}
    (hxs : ∀ x ∈ xs, x.Direct hhdmOffset image.kernelStart) (hle : image.kernelStart ≤ virt) :
    overlay (xs.map Extent.at) (virt / PAGE_SIZE % 2 ^ 36) = none := by
  refine overlay_eq_none.mpr fun f hf => ?_
  obtain ⟨x, hx, rfl⟩ := List.mem_map.mp hf
  cases hat : x.at (virt / PAGE_SIZE % 2 ^ 36) with
  | none => rfl
  | some r =>
      have := ((hxs x hx).at_some hp.hhdm hv hat).2.1
      omega

/-- The page of an address in a segment. -/
theorem Placed.segment_at {start stop : Nat} (h1 : image.kernelStart ≤ start)
    (h2 : start % PAGE_SIZE = 0) (h3 : start ≤ stop) (h4 : stop ≤ image.kernelEnd) :
    (segmentExtent kernelAddr start stop flags).at (virt / PAGE_SIZE % 2 ^ 36)
      = if start ≤ virt ∧ virt < pageAlignUp stop then
          some (kernelAddr.physicalBase
            + (virt - image.kernelStart) / PAGE_SIZE * PAGE_SIZE, flags)
        else none := by
  have hs : PAGE_SIZE = 4096 := rfl
  obtain ⟨hspan, hle, hphys⟩ := hp.segment flags h1 h2 h3 h4
  obtain ⟨-, hload⟩ := hp.loaded
  have hk := hp.boundaries.1
  rw [hspan.at_eq hv, hphys]
  split
  · refine congrArg some (Prod.ext ?_ rfl)
    simp only
    rw [hs] at hk h2 ⊢
    omega
  · rfl

/-- From the image on, its segments decide. -/
theorem bootMap_image (hle : image.kernelStart ≤ virt) :
    bootMap hhdmOffset image db memmap framebuffer kernelAddr (virt / PAGE_SIZE % 2 ^ 36)
      = (if virt < image.textStart then some (PAGE_PRESENT ||| PAGE_WRITE ||| PAGE_GLOBAL)
        else if virt < pageAlignUp image.textEnd then some (PAGE_PRESENT ||| PAGE_GLOBAL)
        else if image.rodataStart ≤ virt ∧ virt < pageAlignUp image.rodataEnd then
          some (PAGE_PRESENT ||| PAGE_GLOBAL ||| PAGE_NX)
        else if image.dataStart ≤ virt ∧ virt < image.kernelEnd then some DATA_FLAGS
        else none).map fun flags => (kernelAddr.physicalBase
          + (virt - image.kernelStart) / PAGE_SIZE * PAGE_SIZE, flags) := by
  obtain ⟨h1, h2, h3, h4, h5, h6, h7⟩ := hp.order
  obtain ⟨a1, a2, a3, a4, a5⟩ := hp.boundaries
  have e1 := pageAlignUp_of_aligned a2 (by omega)
  have e5 := pageAlignUp_of_aligned a5 h7
  have e2 := (pageAlignUp_le h3 a3 (by omega)).1
  have e2' := (pageAlignUp_le h3 a3 (by omega)).2
  have e3 := (pageAlignUp_le h5 a4 (by omega)).1
  have e3' := (pageAlignUp_le h5 a4 (by omega)).2
  rw [bootMap_eq, hp.overlay_none hv (fun x hx => hp.direct_of_mem (Or.inr hx)) hle,
    hp.overlay_none hv (fun x hx => hp.direct_of_mem (Or.inl hx)) hle]
  unfold dataExtent rodataExtent textExtent requestsExtent
  rw [hp.segment_at hv (by omega) a4 h6 (Nat.le_refl _),
    hp.segment_at hv (by omega) a3 h4 (by omega), hp.segment_at hv h1 a2 h2 (by omega),
    hp.segment_at hv (Nat.le_refl _) a1 h1 (by omega), e1, e5]
  -- the segments are apart
  by_cases c1 : virt < image.textStart
  · rw [if_neg (by omega), if_neg (by omega), if_neg (by omega), if_pos ⟨hle, c1⟩, if_pos c1]
    rfl
  rw [if_neg c1]
  by_cases c2 : virt < pageAlignUp image.textEnd
  · rw [if_neg (by omega), if_neg (by omega), if_pos ⟨by omega, c2⟩, if_pos c2]
    rfl
  rw [if_neg c2]
  by_cases c3 : image.rodataStart ≤ virt ∧ virt < pageAlignUp image.rodataEnd
  · rw [if_neg (by omega), if_pos c3, if_pos c3]
    rfl
  rw [if_neg c3, if_neg c3]
  by_cases c4 : image.dataStart ≤ virt ∧ virt < image.kernelEnd
  · rw [if_pos c4, if_pos c4]
    rfl
  · rw [if_neg c4, if_neg c4, if_neg (by omega), if_neg (by omega)]
    rfl

/-- Below the image there is the direct map. -/
theorem bootMap_below {p : Nat} {fl : Word} (hlt : virt < image.kernelStart)
    (hm : bootMap hhdmOffset image db memmap framebuffer kernelAddr (virt / PAGE_SIZE % 2 ^ 36)
      = some (p, fl)) :
    hhdmOffset ≤ virt ∧ p + virt % PAGE_SIZE = virt - hhdmOffset ∧ fl = DATA_FLAGS := by
  obtain ⟨h1, h2, h3, h4, h5, h6, h7⟩ := hp.order
  obtain ⟨a1, a2, a3, a4, a5⟩ := hp.boundaries
  rw [bootMap_eq] at hm
  unfold dataExtent rodataExtent textExtent requestsExtent at hm
  rw [hp.segment_at hv (by omega) a4 h6 (Nat.le_refl _),
    hp.segment_at hv (by omega) a3 h4 (by omega), hp.segment_at hv h1 a2 h2 (by omega),
    hp.segment_at hv (Nat.le_refl _) a1 h1 (by omega),
    if_neg (by omega), if_neg (by omega), if_neg (by omega), if_neg (by omega), Option.none_or,
    Option.none_or, Option.none_or, Option.none_or, ← overlay_append, ← List.map_append] at hm
  obtain ⟨f, hmem, hf⟩ := exists_of_overlay hm
  obtain ⟨x, hx, rfl⟩ := List.mem_map.mp hmem
  obtain ⟨k1, -, k3, k4⟩ := (hp.direct_of_mem (List.mem_append.mp hx)).at_some hp.hhdm hv hf
  exact ⟨k1, k3, k4⟩

end placed

-- ==== the result

section boot

variable (hfit : Fits hhdmOffset image db memmap framebuffer)
  (hrun : pagingInit A.alloc hhdmOffset image db (some memmap) framebuffer (some kernelAddr) cr4 s
    = .ok b)
include hfit hrun

/-- What the two lookups read at an address the boot map has. -/
theorem boot_some {r : Nat × Word} (hv : virt < 2 ^ 64)
    (hr : bootMap hhdmOffset image db memmap framebuffer kernelAddr (virt / PAGE_SIZE % 2 ^ 36)
      = some r) :
    pagingVirtToPhys A.alloc b.machine (some b.kernelVas.pml4) virt = r.1 + virt % PAGE_SIZE
      ∧ pagingGetFlags A.alloc b.machine (some b.kernelVas.pml4) virt
        = PAGE_PRESENT ||| (r.2 &&& PTE_FLAGS) := by
  have h := (pagingInit_drawn hfit hrun).refines virt hv
  rw [show overlay _ _ = some r from hr] at h
  exact h

theorem boot_none (hv : virt < 2 ^ 64)
    (hr : bootMap hhdmOffset image db memmap framebuffer kernelAddr (virt / PAGE_SIZE % 2 ^ 36)
      = none) :
    pagingVirtToPhys A.alloc b.machine (some b.kernelVas.pml4) virt = 0
      ∧ pagingGetFlags A.alloc b.machine (some b.kernelVas.pml4) virt = 0 := by
  have h := (pagingInit_drawn hfit hrun).refines virt hv
  rw [show overlay _ _ = none from hr] at h
  exact h

/-- The flags of an address, by where it lies. -/
theorem boot_flags (hp : Placed hhdmOffset image db memmap framebuffer kernelAddr)
    (hv : Canonical virt) {flags : Word}
    (hflags : flags = pagingGetFlags A.alloc b.machine (some b.kernelVas.pml4) virt) :
    (flags = PAGE_PRESENT ||| PAGE_WRITE ||| PAGE_GLOBAL
        ∧ image.kernelStart ≤ virt ∧ virt < image.textStart)
      ∨ (flags = PAGE_PRESENT ||| PAGE_GLOBAL
        ∧ image.textStart ≤ virt ∧ virt < pageAlignUp image.textEnd)
      ∨ ((flags = 0 ∨ flags = PAGE_PRESENT ||| PAGE_GLOBAL ||| PAGE_NX ∨ flags = DATA_FLAGS)
        ∧ (virt < image.kernelStart ∨ image.textStart ≤ virt ∧ pageAlignUp image.textEnd ≤ virt)) := by
  have hlt : virt < 2 ^ 64 := by
    unfold Canonical at hv
    omega
  -- what an entry with these flags reads
  have hread : ∀ {p : Nat} {fl : Word}, PAGE_PRESENT ||| (fl &&& PTE_FLAGS) = fl →
      bootMap hhdmOffset image db memmap framebuffer kernelAddr (virt / PAGE_SIZE % 2 ^ 36)
        = some (p, fl) → flags = fl := fun hfl hm =>
    (hflags.trans (boot_some hfit hrun hlt hm).2).trans hfl
  have hzero : bootMap hhdmOffset image db memmap framebuffer kernelAddr
      (virt / PAGE_SIZE % 2 ^ 36) = none → flags = 0 := fun hm =>
    hflags.trans (boot_none hfit hrun hlt hm).2
  by_cases hle : image.kernelStart ≤ virt
  · have hm := bootMap_image hp hv hle
    by_cases c1 : virt < image.textStart
    · rw [if_pos c1] at hm
      exact Or.inl ⟨hread (by decide) hm, hle, c1⟩
    rw [if_neg c1] at hm
    by_cases c2 : virt < pageAlignUp image.textEnd
    · rw [if_pos c2] at hm
      exact Or.inr (Or.inl ⟨hread (by decide) hm, Nat.le_of_not_lt c1, c2⟩)
    rw [if_neg c2] at hm
    refine Or.inr (Or.inr ⟨?_, Or.inr ⟨Nat.le_of_not_lt c1, Nat.le_of_not_lt c2⟩⟩)
    split at hm
    · exact Or.inr (Or.inl (hread (by decide) hm))
    split at hm
    · exact Or.inr (Or.inr (hread (by decide) hm))
    · exact Or.inl (hzero hm)
  · have hlow := Nat.lt_of_not_le hle
    refine Or.inr (Or.inr ⟨?_, Or.inl hlow⟩)
    cases hm : bootMap hhdmOffset image db memmap framebuffer kernelAddr
        (virt / PAGE_SIZE % 2 ^ 36) with
    | none => exact Or.inl (hzero hm)
    | some r =>
        obtain ⟨p, fl⟩ := r
        obtain ⟨-, -, rfl⟩ := bootMap_below hp hv hlow hm
        exact Or.inr (Or.inr (hread (by decide) hm))

end boot

/-- Flags of a page that can be executed. -/
abbrev Executable (flags : Word) : Prop :=
  hasFlag flags PAGE_PRESENT = true ∧ hasFlag flags PAGE_NX = false

/-- In the space the kernel boots into no page is the user's, the pages that can
be executed are those from the start of the image to the end of its text, and
the ones of them that can also be written are those of the boot requests. -/
theorem boot_wx (A : FrameAlloc σ) (s : Machine σ)
    (hfit : Fits hhdmOffset image db memmap framebuffer)
    (hp : Placed hhdmOffset image db memmap framebuffer kernelAddr)
    (hrun : pagingInit A.alloc hhdmOffset image db (some memmap) framebuffer (some kernelAddr) cr4 s
      = .ok b) (hv : Canonical virt) (flags : Word)
    (hflags : flags = pagingGetFlags A.alloc b.machine (some b.kernelVas.pml4) virt) :
    hasFlag flags PAGE_USER = false
      ∧ (Executable flags ↔ image.kernelStart ≤ virt ∧ virt < pageAlignUp image.textEnd)
      ∧ (Executable flags ∧ hasFlag flags PAGE_WRITE = true
        ↔ image.kernelStart ≤ virt ∧ virt < image.textStart) := by
  obtain ⟨h1, h2, h3, h4, h5, h6, h7⟩ := hp.order
  have hup := (pageAlignUp_le h3 hp.boundaries.2.2.1 (by omega)).2
  obtain ⟨rfl, hle, hlt⟩ | ⟨rfl, hle, hlt⟩ | ⟨hno, hout⟩ := boot_flags hfit hrun hp hv hflags
  · exact ⟨by decide, iff_of_true (by decide) ⟨hle, by omega⟩,
      iff_of_true (by decide) ⟨hle, hlt⟩⟩
  · exact ⟨by decide, iff_of_true (by decide) ⟨by omega, hlt⟩,
      iff_of_false (by decide) fun e => by omega⟩
  · obtain rfl | rfl | rfl := hno <;>
    · exact ⟨by decide, iff_of_false (by decide) fun e => by omega,
        iff_of_false (by decide) fun e => by omega⟩

theorem smallPlaced : Placed smallOffset smallImage smallDb smallMemmap smallScreen
    smallAddress where
  hhdm := by decide
  entries := by
    intro e he
    rw [List.mem_singleton.mp he]
    decide
  db := by decide
  framebuffer := by
    intro f hf
    rw [← Option.some.inj hf]
    decide
  order := by decide
  boundaries := by decide
  loaded := by decide

/-- The first page of the image of the small machine. -/
theorem boot_wx_small : ∃ b flags, SmallBoot b
    ∧ flags = pagingGetFlags bumpFrames.alloc b.machine (some b.kernelVas.pml4) 0xffffffff80000000
    ∧ Executable flags ∧ hasFlag flags PAGE_WRITE = true := by
  obtain ⟨b, hb⟩ := smallBoot_ok
  exact ⟨b, _, hb, rfl, (boot_wx bumpFrames smallStart smallFits smallPlaced hb (Or.inr (by decide)) _
    rfl).2.2.mpr (by decide)⟩

/-- In that space the direct map is one: every address of the memory map, up to
whole pages, is behind its sum with the offset, as data; and an address of a
segment of the image is as far from the start in memory as it is in the image. -/
theorem boot_places (A : FrameAlloc σ) (s : Machine σ)
    (hfit : Fits hhdmOffset image db memmap framebuffer)
    (hp : Placed hhdmOffset image db memmap framebuffer kernelAddr)
    (hrun : pagingInit A.alloc hhdmOffset image db (some memmap) framebuffer (some kernelAddr) cr4 s
      = .ok b) :
    (∀ e ∈ memmap, ∀ phys, pageAlignDown e.base ≤ phys → phys < pageAlignUp (e.base + e.length) →
      pagingVirtToPhys A.alloc b.machine (some b.kernelVas.pml4) (hhdmOffset + phys) = phys
        ∧ pagingGetFlags A.alloc b.machine (some b.kernelVas.pml4) (hhdmOffset + phys) = DATA_FLAGS)
    ∧ ∀ virt, (image.kernelStart ≤ virt ∧ virt < pageAlignUp image.textEnd)
        ∨ (image.rodataStart ≤ virt ∧ virt < pageAlignUp image.rodataEnd)
        ∨ (image.dataStart ≤ virt ∧ virt < image.kernelEnd) →
      pagingVirtToPhys A.alloc b.machine (some b.kernelVas.pml4) virt
        = kernelAddr.physicalBase + (virt - image.kernelStart) := by
  obtain ⟨h1, h2, h3, h4, h5, h6, h7⟩ := hp.order
  obtain ⟨a1, a2, a3, a4, a5⟩ := hp.boundaries
  have hh := hp.hhdm.1
  constructor
  · intro e he phys hlo hhi
    obtain ⟨hspan, -, htop⟩ := hp.hhdmExtent he
    have hlt : hhdmOffset + phys < image.kernelStart := by omega
    have hv : Canonical (hhdmOffset + phys) := by
      unfold Canonical
      omega
    -- the entry has the page, so something is mapped there
    cases hm : bootMap hhdmOffset image db memmap framebuffer kernelAddr
        ((hhdmOffset + phys) / PAGE_SIZE % 2 ^ 36) with
    | none =>
        have hat := overlay_eq_none.mp hm (Extent.at (hhdmExtent hhdmOffset e))
          (List.mem_map.mpr ⟨_, mem_bootExtents_hhdm he, rfl⟩)
        rw [hspan.at_eq hv, if_pos (by omega)] at hat
        cases hat
    | some r =>
        obtain ⟨p, fl⟩ := r
        obtain ⟨-, hphys, rfl⟩ := bootMap_below hp hv hlt hm
        obtain ⟨r1, r2⟩ := boot_some hfit hrun (by omega) hm
        refine ⟨?_, r2.trans (show PAGE_PRESENT ||| (DATA_FLAGS &&& PTE_FLAGS) = DATA_FLAGS by decide)⟩
        rw [r1, hphys, Nat.add_sub_cancel_left]
  · intro virt hin
    have hup := pageAlignUp_le h3 a3 (by omega)
    have hup' := pageAlignUp_le h5 a4 (by omega)
    have hle : image.kernelStart ≤ virt := by omega
    have hv : Canonical virt := by
      have := hp.db
      unfold Canonical
      omega
    have hm : ∃ fl, bootMap hhdmOffset image db memmap framebuffer kernelAddr
        (virt / PAGE_SIZE % 2 ^ 36) = some (kernelAddr.physicalBase
          + (virt - image.kernelStart) / PAGE_SIZE * PAGE_SIZE, fl) := by
      rw [bootMap_image hp hv hle]
      split
      · exact ⟨_, rfl⟩
      split
      · exact ⟨_, rfl⟩
      split
      · exact ⟨_, rfl⟩
      split
      · exact ⟨_, rfl⟩
      · omega
    obtain ⟨fl, hm⟩ := hm
    rw [(boot_some hfit hrun (by omega) hm).1]
    have hs : PAGE_SIZE = 4096 := rfl
    rw [hs] at a1 ⊢
    omega

-- ==== the descriptors

theorem addStaticVad_ok {list list' : List Vad} {start stop : Nat} (h : VadsOk list)
    (hstop : stop < 2 ^ 64) (hadd : addStaticVad list start stop flags = .ok list') :
    VadsOk list'
      ∧ ∀ x, Covers list' x ↔ (start ≤ x ∧ x < stop) ∨ Covers list x := by
  unfold addStaticVad kernelVasAdd at hadd
  simp only at hadd
  split at hadd
  · cases hadd
  rename_i list'' hins
  cases hadd
  split at hins
  · cases hins
  split at hins
  · cases hins
  split at hins
  · cases hins
  rename_i hlt halign hover
  rw [not_or, not_not, not_not] at halign
  rw [← Option.some.inj hins]
  refine ⟨h.insert ⟨Nat.lt_of_not_le hlt, hstop, halign⟩ fun hm => ?_, fun x => covers_vadInsert⟩
  exact hover (h.overlaps.mpr hm)

theorem topRound_eq {top : Nat} {e : MemmapEntry} (h : e.base + e.length < 2 ^ 64) :
    topRound top e = max top (e.base + e.length) := by
  unfold topRound
  rw [Nat.mod_eq_of_lt h]
  simp only
  split <;> omega

/-- The loop of `memmap_top` keeps the largest end. -/
theorem foldl_topRound {top : Nat} (ht : top < 2 ^ 64) :
    ∀ {memmap : List MemmapEntry} {init : Nat}, (∀ e ∈ memmap, e.base + e.length ≤ top) →
      init ≤ top → init ≤ memmap.foldl topRound init ∧ memmap.foldl topRound init ≤ top
        ∧ ∀ e ∈ memmap, e.base + e.length ≤ memmap.foldl topRound init := by
  intro memmap
  induction memmap with
  | nil => exact fun _ hinit => ⟨Nat.le_refl _, hinit, fun e he => by cases he⟩
  | cons e memmap ih =>
      intro init hle hinit
      have he := hle e List.mem_cons_self
      rw [List.foldl_cons, topRound_eq (by omega)]
      obtain ⟨h1, h2, h3⟩ := ih (fun x hx => hle x (List.mem_cons_of_mem _ hx))
        (show max init (e.base + e.length) ≤ top by omega)
      refine ⟨by omega, h2, fun x hx => ?_⟩
      obtain rfl | hx := List.mem_cons.mp hx
      · omega
      · exact h3 x hx

/-- The top of the memory map, below a page boundary. -/
theorem memmapTop_spec {top : Nat} (ha : top % PAGE_SIZE = 0) (ht : top < 2 ^ 64)
    (hle : ∀ e ∈ memmap, e.base + e.length ≤ top) :
    memmapTop memmap ≤ top
      ∧ ∀ e ∈ memmap, pageAlignUp (e.base + e.length) ≤ memmapTop memmap := by
  have hs : PAGE_SIZE = 4096 := rfl
  obtain ⟨-, h2, h3⟩ := foldl_topRound ht hle (Nat.zero_le _)
  refine ⟨(pageAlignUp_le h2 ha ht).1, fun e he => ?_⟩
  have hend := h3 e he
  unfold memmapTop
  generalize memmap.foldl topRound 0 = r at h2 hend ⊢
  unfold pageAlignUp pageAlignDown
  rw [hs] at ha ⊢
  omega

theorem Placed.top_le (hp : Placed hhdmOffset image db memmap framebuffer kernelAddr) :
    hhdmOffset + memmapTop memmap ≤ image.kernelStart
      ∧ ∀ e ∈ memmap, pageAlignUp (e.base + e.length) ≤ memmapTop memmap := by
  have hs : PAGE_SIZE = 4096 := rfl
  have hk := hp.boundaries.1
  have ha := hp.hhdm.2
  have hdb := hp.db
  obtain ⟨htop, hends⟩ := memmapTop_spec
    (show (image.kernelStart - hhdmOffset) % PAGE_SIZE = 0 by rw [hs] at hk ha ⊢; omega)
    (by have := hp.order; omega) fun e (he : e ∈ memmap) => by have := hp.entries e he; omega
  exact ⟨by omega, hends⟩

/-- The static descriptors, and what they cover. -/
theorem addVads_ok {list : List Vad}
    (hp : Placed hhdmOffset image db memmap framebuffer kernelAddr)
    (hadd : addVads hhdmOffset image memmap framebuffer = .ok list) :
    VadsOk list
      ∧ (∀ x, hhdmOffset ≤ x → x < hhdmOffset + memmapTop memmap → Covers list x)
      ∧ (∀ x, image.kernelStart ≤ x → x < image.kernelEnd → Covers list x)
      ∧ ∀ f, framebuffer = some f → f.address ≠ 0 → ∀ x, f.bounds.1 ≤ x → x < f.bounds.2 →
        f.bounds.1 < hhdmOffset + memmapTop memmap ∨ Covers list x := by
  obtain ⟨h1, h2, h3, h4, h5, h6, h7⟩ := hp.order
  have htop := hp.top_le.1
  obtain ⟨l1, ha1, hadd⟩ := bind_ok hadd
  obtain ⟨l2, ha2, hadd⟩ := bind_ok hadd
  rw [Nat.mod_eq_of_lt (by omega)] at ha1
  obtain ⟨ok1, cov1⟩ := addStaticVad_ok vadsOk_nil (by omega) ha1
  obtain ⟨ok2, cov2⟩ := addStaticVad_ok ok1 h7 ha2
  have hhdm : ∀ x, hhdmOffset ≤ x → x < hhdmOffset + memmapTop memmap → Covers l2 x :=
    fun x hlo hhi => (cov2 x).mpr (Or.inr ((cov1 x).mpr (Or.inl ⟨hlo, hhi⟩)))
  have himage : ∀ x, image.kernelStart ≤ x → x < image.kernelEnd → Covers l2 x :=
    fun x hlo hhi => (cov2 x).mpr (Or.inl ⟨hlo, hhi⟩)
  unfold addFramebufferVad at hadd
  cases framebuffer with
  | none =>
      cases hadd
      exact ⟨ok2, hhdm, himage, fun f hf => by cases hf⟩
  | some f =>
      simp only at hadd
      split at hadd
      · rename_i hnull
        cases hadd
        refine ⟨ok2, hhdm, himage, fun f' hf' hne => ?_⟩
        cases hf'
        exact (hne hnull).elim
      split at hadd
      · -- the start has a descriptor already
        rename_i v hfind
        cases hadd
        refine ⟨ok2, hhdm, himage, fun f' hf' _ x hlo hhi => ?_⟩
        cases hf'
        have hbelow := (hp.framebufferExtent rfl).2.2
        obtain hin | hin := (cov2 _).mp ⟨v, vasFind_some hfind⟩
        · omega
        obtain hin | ⟨w, hw, -⟩ := (cov1 _).mp hin
        · exact Or.inl hin.2
        · cases hw
      · rename_i hfind
        obtain ⟨ok3, cov3⟩ := addStaticVad_ok ok2 (pageAlignUp_lt _) hadd
        refine ⟨ok3, fun x hlo hhi => (cov3 x).mpr (Or.inr (hhdm x hlo hhi)),
          fun x hlo hhi => (cov3 x).mpr (Or.inr (himage x hlo hhi)), fun f' hf' _ x hlo hhi => ?_⟩
        cases hf'
        exact Or.inr ((cov3 x).mpr (Or.inl ⟨hlo, hhi⟩))

/-- The last page of the memory of the small machine, and its text. -/
theorem boot_places_small : ∃ b, SmallBoot b
    ∧ pagingVirtToPhys bumpFrames.alloc b.machine (some b.kernelVas.pml4) 0xffff800000008123 = 0x8123
    ∧ pagingVirtToPhys bumpFrames.alloc b.machine (some b.kernelVas.pml4) 0xffffffff80001234
      = 0x201234 := by
  obtain ⟨b, hb⟩ := smallBoot_ok
  obtain ⟨h1, h2⟩ := boot_places bumpFrames smallStart smallFits smallPlaced hb
  exact ⟨b, hb, (h1 _ List.mem_cons_self 0x8123 (by decide) (by decide)).1,
    h2 _ (Or.inl (by decide))⟩

/-- A range of pages that the list of descriptors calls free has nothing in it:
each page that is mapped lies in the direct map's descriptor, in the image's, or in
the framebuffer's own. -/
theorem boot_vads (A : FrameAlloc σ) (s : Machine σ)
    (hfit : Fits hhdmOffset image db memmap framebuffer)
    (hp : Placed hhdmOffset image db memmap framebuffer kernelAddr)
    (hdb : db.phys + (db.maxPfn + 1) * PAGE_T_SIZE ≤ memmapTop memmap)
    (hfb : ∀ f, framebuffer = some f → f.bounds.1 < hhdmOffset + memmapTop memmap →
      f.bounds.2 ≤ hhdmOffset + memmapTop memmap)
    (hrun : pagingInit A.alloc hhdmOffset image db (some memmap) framebuffer (some kernelAddr) cr4 s
      = .ok b) :
    VadsOk b.kernelVas.list
      ∧ ∀ start stop, vasOverlaps b.kernelVas.list start stop = false →
        ∀ virt, Canonical virt → start ≤ virt → virt < stop →
          pagingGetFlags A.alloc b.machine (some b.kernelVas.pml4) virt = 0 := by
  obtain ⟨-, -, -, -, -, -, -, hadd, -⟩ := pagingInit_ok hrun
  obtain ⟨hok, hdirect, himage, hscreen⟩ := addVads_ok hp hadd
  obtain ⟨htop, hends⟩ := hp.top_le
  refine ⟨hok, fun start stop hfree virt hv hlo hhi => ?_⟩
  have hnot : ¬ Covers b.kernelVas.list virt := by
    rintro ⟨v, hv, h1, h2⟩
    rw [hok.overlaps.mpr ⟨v, hv, by omega, by omega⟩] at hfree
    cases hfree
  have hlt : virt < 2 ^ 64 := by
    unfold Canonical at hv
    omega
  refine (boot_none hfit hrun hlt (overlay_eq_none.mpr fun f hf => ?_)).2
  obtain ⟨x, hx, rfl⟩ := List.mem_map.mp hf
  -- an extent that is covered does not have the page
  have hout : ∀ {x : Extent} {lo hi : Nat}, x.Spans lo hi →
      (lo ≤ virt → virt < hi → Covers b.kernelVas.list virt) →
      x.at (virt / PAGE_SIZE % 2 ^ 36) = none := fun hspan hcov => by
    rw [hspan.at_eq hv, if_neg fun hin => hnot (hcov hin.1 hin.2)]
  obtain ⟨h1, h2, h3, h4, h5, h6, h7⟩ := hp.order
  obtain ⟨a1, a2, a3, a4, a5⟩ := hp.boundaries
  have hsegment : ∀ {lo hi : Nat} {fl : Word}, image.kernelStart ≤ lo → lo % PAGE_SIZE = 0 →
      lo ≤ hi → hi ≤ image.kernelEnd →
      (segmentExtent kernelAddr lo hi fl).at (virt / PAGE_SIZE % 2 ^ 36) = none :=
    fun k1 k2 k3 k4 => by
      obtain ⟨hspan, hle, -⟩ := hp.segment _ k1 k2 k3 k4
      exact hout hspan fun hin1 hin2 => himage virt (by omega) (by omega)
  unfold bootExtents at hx
  simp only [List.mem_append, List.mem_map, List.mem_cons, List.not_mem_nil, or_false] at hx
  rcases hx with (⟨e, he, rfl⟩ | rfl | rfl | rfl | rfl | rfl) | hx
  · have hend := hends e he
    exact hout (hp.hhdmExtent he).1 fun hin1 hin2 => hdirect virt (by omega) (by omega)
  · have hend := (pageAlignUp_le hdb (pageAlignUp_mod _) (pageAlignUp_lt _)).1
    exact hout hp.pfndbExtent.1 fun hin1 hin2 => hdirect virt (by omega) (by omega)
  · exact hsegment (Nat.le_refl _) a1 h1 (by omega)
  · exact hsegment h1 a2 h2 (by omega)
  · exact hsegment (by omega) a3 h4 (by omega)
  · exact hsegment (by omega) a4 h6 (Nat.le_refl _)
  · unfold framebufferExtents at hx
    split at hx
    · cases hx
    rename_i f
    split at hx
    · cases hx
    rename_i hnull
    rw [List.mem_singleton.mp hx]
    refine hout (hp.framebufferExtent rfl).1 fun hin1 hin2 => ?_
    obtain hlow | hcov := hscreen f rfl hnull virt hin1 hin2
    · have hend := hfb f rfl hlow
      have hstart : hhdmOffset ≤ f.bounds.1 := by
        have hs : PAGE_SIZE = 4096 := rfl
        have ha := hp.hhdm.2
        have haddr := (hp.framebuffer f rfl).1
        show hhdmOffset ≤ f.address / PAGE_SIZE * PAGE_SIZE
        rw [hs] at ha ⊢
        omega
      exact hdirect virt (by omega) (by omega)
    · exact hcov

theorem boot_vads_small : ∃ b, SmallBoot b ∧ VadsOk b.kernelVas.list := by
  obtain ⟨b, hb⟩ := smallBoot_ok
  refine ⟨b, hb, (boot_vads bumpFrames smallStart smallFits smallPlaced (by decide) (fun f hf => ?_) hb).1⟩
  rw [← Option.some.inj hf]
  decide

end Alix.Paging
