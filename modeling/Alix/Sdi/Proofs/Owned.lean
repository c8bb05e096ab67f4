/-
What the loader of driver images leaves allocated.

# The leak

`sdi_elf_prepare_sections` gets two tables from the heap, and the block of
the module. No path of the loader calls `kfree`: the tables stay when the
image has been loaded, and whatever has been allocated stays when it has
not. So a call leaves no more than it should only if it allocates nothing
at all (`loadDriverImage_frugal_iff`): the header is refused, or the heap
has no room for the first table. The third case does not return: the
tables are there and the sections add up to a size that `kmalloc` searches
for without end.

# The proof

The tables are blocks of eight bytes a section, at most 65535 sections,
so `kzalloc` of one returns; it returns NULL exactly without room, and
then the heap is as it was and the second call returns NULL as well
(`kzalloc_cases`). What follows `reserveModule` does not change the live
allocations (`loadDriverImage_of_reserved`).
-/
import Alix.Mm.Proofs.Payload
import Alix.Sdi.Owned
import Alix.Sdi.Proofs.Relocs

namespace Alix

open Bytes (Memory)
open Dyadic (Block)
open Elf
open Kheap (Run NoRoom granted)

variable {maxPfn : Nat} {usable : Nat → Bool} {s : Kheap} {live live' : List (Nat × Nat)}
  {others : List Block} {n : Nat} {rc : Int}

-- ==== the heap

/-- NULL without room, and nothing is done; or a new allocation. -/
theorem Kheap.kzalloc_cases (h : Run maxPfn usable s live others) (h0 : n ≠ 0)
    (hn : n ≤ 2 ^ 31 - 24) :
    (NoRoom s n ∧ s.kzalloc n = .ok (s, 0))
      ∨ ∃ s' p, ¬ NoRoom s n ∧ s.kzalloc n = .ok (s', p) ∧ p ≠ 0 ∧ (∀ e ∈ live, e.1 ≠ p)
        ∧ Run maxPfn usable s' ((p, n) :: live) others := by
  obtain ⟨⟨G, ref, hinv⟩, -⟩ := h.kept
  obtain ⟨t, p, hk, hnull⟩ := hinv.kmalloc_null h0 hn
  by_cases hp : p = 0
  · left
    refine ⟨hnull.mp hp, ?_⟩
    cases hinv.kmalloc (by omega) hk with
    | inl hz =>
        unfold Kheap.kzalloc
        rw [hk, hz.1, hz.2]
        rfl
    | inr hz => exact absurd hp hz.1
  · right
    obtain ⟨s', hz⟩ : ∃ s', s.kzalloc n = .ok (s', p) := by
      unfold Kheap.kzalloc
      rw [hk]
      exact ⟨_, rfl⟩
    have hrun := h.call (k := .kzalloc n) (show n < 2 ^ 64 - 24 by omega) hz
    have hafter : Kheap.HeapCall.after live p (.kzalloc n) = (p, n) :: live := if_neg hp
    rw [hafter] at hrun
    refine ⟨s', p, fun hno => hp (hnull.mpr hno), hz, hp, ?_, hrun⟩
    intro e he
    obtain ⟨⟨G', ref', hinv'⟩, -⟩ := hrun.kept
    exact hinv'.newest_ne (m := e.2) he

/-- Apart from the sizes that are searched for without end, `kmalloc`
returns. -/
theorem Kheap.kmalloc_ok (s : Kheap) (hn : n < 2 ^ 64) (h : n ≤ 2 ^ 31 - 24 ∨ 2 ^ 64 - 24 ≤ n) :
    ∃ r, s.kmalloc n = .ok r := by
  cases h with
  | inl hsmall => exact ((Kheap.kmalloc_ends_iff s n hn).mpr hsmall).returns
  | inr hbig =>
      obtain ⟨hret, -⟩ := Kheap.largeAlloc_of_order s (Kheap.order_wrapped hbig hn)
      rw [← Kheap.allocPtr_large s (Kheap.cacheForSize_none.mpr (by omega))] at hret
      exact Kheap.kmalloc_returns hret

-- ==== the statement

/-- A call that fails leaves the live allocations as they were, and one
that succeeds leaves one more. -/
structure Frugal (live live' : List (Nat × Nat)) (rc : Int) : Prop where
  failed : rc ≠ 0 → ∀ e, e ∈ live' ↔ e ∈ live
  loaded : rc = 0 → ∃ m, m ∉ live ∧ ∀ e, e ∈ live' ↔ e = m ∨ e ∈ live

/-- `sizeof(void *) * ctx->ehdr->e_shnum`. -/
def tableBytes (image : Memory) : Nat := 8 * (ehdr image).eShnum

/-- `total + max_align - 1`. -/
def moduleBytes (l : SectionLayout) : Nat := (l.total + l.maxAlign - 1) % 2 ^ 64

/-- There is room for two tables. -/
def Tabled (s : Kheap) (n : Nat) : Prop :=
  ∃ s₁ p₁ s₂ p₂, s.kzalloc n = .ok (s₁, p₁) ∧ p₁ ≠ 0 ∧ s₁.kzalloc n = .ok (s₂, p₂) ∧ p₂ ≠ 0

/-- The tables are allocated, the sections are accepted, and the search
for their size does not end. -/
def Endless (s : Kheap) (image : Memory) (imageSize : Nat) : Prop :=
  Tabled s (tableBytes image)
    ∧ ∃ l, layoutUpto (.start image imageSize) (ehdr image).eShnum = some l ∧ l.total ≠ 0
      ∧ 2 ^ 31 - 24 < moduleBytes l ∧ moduleBytes l < 2 ^ 64 - 24

theorem tableBytes_le (image : Memory) : tableBytes image ≤ 8 * 65535 := by
  have hlt : (ehdr image).eShnum < 256 ^ 2 := Bytes.load_lt image 60 2
  unfold tableBytes
  omega

/-- A header that is accepted has sections. -/
theorem tableBytes_ne {image : Memory} {imageSize : Nat}
    (h : validateHeader image imageSize = true) : tableBytes image ≠ 0 := by
  intro h0
  have hnum : (ehdr image).eShnum = 0 := by
    unfold tableBytes at h0
    omega
  unfold validateHeader at h
  simp [hnum] at h

namespace LiveHeap

variable {h h₁ : LiveHeap} {ctx : ElfContext} {image : Memory} {imageSize p : Nat}
  {pml4 : Option Nat} {address : String → Nat} {register : Kheap → Nat → Kheap × Int}
  {r : Option (ElfContext × Nat)}

-- ==== the erasure

/-- Without the live allocations it is `Kheap.reserveModule`. -/
theorem reserveModule_heap (h : LiveHeap) (ctx : ElfContext) :
    (h.reserveModule ctx).map (fun r => (r.1.heap, r.2)) = h.heap.reserveModule ctx := by
  unfold reserveModule Kheap.reserveModule call Kheap.heapCall
  dsimp only
  cases h.heap.kzalloc (8 * ctx.shnum) with
  | error e => rfl
  | ok r₁ =>
  dsimp only
  cases r₁.1.kzalloc (8 * ctx.shnum) with
  | error e => rfl
  | ok r₂ =>
  dsimp only
  by_cases hnull : r₁.2 = 0 ∨ r₂.2 = 0
  · simp only [hnull, if_true]
    rfl
  · simp only [hnull, if_false]
    cases layoutUpto ctx ctx.shnum with
    | none => rfl
    | some l =>
    dsimp only
    by_cases htotal : l.total = 0
    · simp only [htotal, if_true]
      rfl
    · simp only [htotal, if_false]
      cases r₂.1.kmalloc ((l.total + l.maxAlign - 1) % 2 ^ 64) with
      | error e => rfl
      | ok r₃ =>
      dsimp only
      by_cases hblock : r₃.2 = 0
      · simp only [hblock, if_true]
        rfl
      · simp only [hblock, if_false]
        rfl

/-- Without the live allocations it is the loader of `Elf.lean`, with
what `register` does behind it. -/
theorem loadDriverImage_heap (h : LiveHeap) (pml4 : Option Nat) (image : Memory)
    (imageSize : Nat) :
    (h.loadDriverImage address register pml4 image imageSize).map (fun r => (r.1.heap, r.2))
      = (h.heap.loadDriverImage address pml4 image imageSize).map fun r =>
        r.2.elim (r.1, -1) fun found => register r.1 found.2 := by
  unfold loadDriverImage Kheap.loadDriverImage Kheap.prepareSections
  by_cases hvalid : (!validateHeader image imageSize) = true
  · simp only [hvalid, if_true]
    rfl
  · simp only [hvalid]
    rw [← reserveModule_heap]
    cases h.reserveModule (.start image imageSize) with
    | error e => rfl
    | ok r =>
    obtain ⟨h₁, r⟩ := r
    cases r with
    | none => rfl
    | some m =>
    obtain ⟨ctx, maxAlign⟩ := m
    obtain ⟨t, ht⟩ : ∃ t, h₁.heap.fillModule pml4 ctx maxAlign = t := ⟨_, rfl⟩
    simp only [Except.map, ht]
    by_cases hrc : t.2.2 = 0
    · simp only [hrc, ne_eq, not_true_eq_false, if_false]
      by_cases hrc' : (applyRelocations address t.2.1).2 = 0
      · simp only [hrc', not_true_eq_false, if_false]
        cases findLoadedSymbol address t.2.1 "sdi_driver" with
        | none => rfl
        | some symbol => rfl
      · simp only [hrc', not_false_eq_true, if_true]
        rfl
    · simp only [hrc, ne_eq, not_false_eq_true, if_true]
      rfl

-- ==== the calls

/-- A `kzalloc` hands out what it returns. -/
theorem call_kzalloc (hk : h.heap.kzalloc n = .ok (s, p)) :
    h.call (.kzalloc n) = .ok (⟨s, granted h.live p n⟩, p) := by
  have hcall : h.heap.heapCall (.kzalloc n) = .ok (s, p) := hk
  unfold call
  rw [hcall]
  rfl

theorem mem_granted {l : List (Nat × Nat)} {e : Nat × Nat} (he : e ∈ l) : e ∈ granted l p n := by
  unfold granted
  split
  · exact he
  · exact List.mem_cons_of_mem _ he

theorem mem_granted_self {l : List (Nat × Nat)} (hp : p ≠ 0) : (p, n) ∈ granted l p n := by
  unfold granted
  rw [if_neg hp]
  exact List.mem_cons_self

theorem call_kmalloc_adds {e : Nat × Nat} (hk : h.call (.kmalloc n) = .ok (h₁, p))
    (he : e ∈ h.live) : e ∈ h₁.live := by
  unfold call at hk
  cases hcall : h.heap.heapCall (.kmalloc n) with
  | error e =>
      rw [hcall] at hk
      cases hk
  | ok r =>
      rw [hcall] at hk
      cases hk
      exact mem_granted he

/-- No room for the first table: nothing happens. -/
theorem reserveModule_refused (ctx : ElfContext)
    (hk : h.heap.kzalloc (8 * ctx.shnum) = .ok (h.heap, 0)) :
    h.reserveModule ctx = .ok (h, none) := by
  have hcall : h.call (.kzalloc (8 * ctx.shnum)) = .ok (h, 0) := call_kzalloc hk
  unfold reserveModule
  simp [hcall]

/-- The first table stays, and so does the second where the module is
reserved. -/
theorem reserveModule_keeps (ctx : ElfContext) {s₁ : Kheap} {p₁ : Nat}
    (hk : h.heap.kzalloc (8 * ctx.shnum) = .ok (s₁, p₁)) (hp₁ : p₁ ≠ 0)
    (hr : h.reserveModule ctx = .ok (h₁, r)) :
    (p₁, 8 * ctx.shnum) ∈ h₁.live
      ∧ (r ≠ none → ∃ s₂ p₂, s₁.kzalloc (8 * ctx.shnum) = .ok (s₂, p₂) ∧ p₂ ≠ 0
        ∧ (p₂, 8 * ctx.shnum) ∈ h₁.live) := by
  unfold reserveModule at hr
  rw [call_kzalloc hk] at hr
  cases hk₂ : s₁.kzalloc (8 * ctx.shnum) with
  | error e =>
      have hcall : s₁.heapCall (.kzalloc (8 * ctx.shnum)) = .error e := hk₂
      simp [call, hcall] at hr
  | ok r₂ =>
  obtain ⟨s₂, p₂⟩ := r₂
  obtain ⟨h₂, hh₂⟩ : ∃ h₂ : LiveHeap,
      h₂ = ⟨s₂, granted (granted h.live p₁ (8 * ctx.shnum)) p₂ (8 * ctx.shnum)⟩ := ⟨_, rfl⟩
  have hfirst : (p₁, 8 * ctx.shnum) ∈ h₂.live := by
    rw [hh₂]
    exact mem_granted (mem_granted_self hp₁)
  dsimp only at hr
  rw [call_kzalloc (h := ⟨s₁, granted h.live p₁ (8 * ctx.shnum)⟩) hk₂, ← hh₂] at hr
  dsimp only at hr
  by_cases hnull : p₁ = 0 ∨ p₂ = 0
  · rw [if_pos hnull] at hr
    cases hr
    exact ⟨hfirst, fun e => absurd rfl e⟩
  · rw [if_neg hnull] at hr
    rw [not_or] at hnull
    have hsecond : (p₂, 8 * ctx.shnum) ∈ h₂.live := by
      rw [hh₂]
      exact mem_granted_self hnull.2
    have hadds : ∀ e ∈ h₂.live, e ∈ h₁.live := by
      intro e he
      cases hl : layoutUpto ctx ctx.shnum with
      | none =>
          rw [hl] at hr
          cases hr
          exact he
      | some l =>
          simp only [hl] at hr
          split at hr
          · cases hr
            exact he
          · cases hk₃ : h₂.call (.kmalloc ((l.total + l.maxAlign - 1) % 2 ^ 64)) with
            | error e =>
                rw [hk₃] at hr
                cases hr
            | ok r₃ =>
                have hlast := call_kmalloc_adds hk₃ he
                simp only [hk₃] at hr
                split at hr
                · cases hr
                  exact hlast
                · cases hr
                  exact hlast
    exact ⟨hadds _ hfirst, fun _ => ⟨s₂, p₂, rfl, hnull.2, hadds _ hsecond⟩⟩

/-- What follows does not change the live allocations. -/
theorem loadDriverImage_of_reserved (address : String → Nat)
    (register : Kheap → Nat → Kheap × Int) (pml4 : Option Nat)
    (hvalid : validateHeader image imageSize = true)
    (hr : h.reserveModule (.start image imageSize) = .ok (h₁, r)) :
    ∃ s rc, h.loadDriverImage address register pml4 image imageSize
        = .ok ({ h₁ with heap := s }, rc) ∧ (r = none → rc ≠ 0) := by
  unfold loadDriverImage
  simp only [hvalid, Bool.not_true, Bool.false_eq_true, if_false, hr]
  cases r with
  | none => exact ⟨h₁.heap, -1, rfl, fun _ => by decide⟩
  | some m =>
      obtain ⟨ctx, maxAlign⟩ := m
      obtain ⟨t, ht⟩ : ∃ t, h₁.heap.fillModule pml4 ctx maxAlign = t := ⟨_, rfl⟩
      simp only [ht]
      split
      · exact ⟨_, _, rfl, fun e => by cases e⟩
      · split
        · exact ⟨_, _, rfl, fun e => by cases e⟩
        · split
          · exact ⟨_, _, rfl, fun e => by cases e⟩
          · exact ⟨_, _, rfl, fun e => by cases e⟩

/-- It returns, or searches for the size of the module without end. -/
theorem reserveModule_returns (hrun : Run maxPfn usable s live others)
    (hvalid : validateHeader image imageSize = true) (hends : ¬ Endless s image imageSize) :
    ∃ h₁ r, (⟨s, live⟩ : LiveHeap).reserveModule (.start image imageSize) = .ok (h₁, r) := by
  have hle := tableBytes_le image
  have hbytes : 8 * (ElfContext.start image imageSize).shnum = tableBytes image := rfl
  rcases Kheap.kzalloc_cases hrun (tableBytes_ne hvalid) (by omega) with
    ⟨-, hk₁⟩ | ⟨s₁, p₁, -, hk₁, hp₁, -, hrun₁⟩
  · exact ⟨_, _, reserveModule_refused _ hk₁⟩
  obtain ⟨s₂, p₂, hk₂⟩ : ∃ s₂ p₂, s₁.kzalloc (tableBytes image) = .ok (s₂, p₂) := by
    rcases Kheap.kzalloc_cases hrun₁ (tableBytes_ne hvalid) (by omega) with
      ⟨-, hk₂⟩ | ⟨s₂, p₂, -, hk₂, -⟩
    · exact ⟨_, _, hk₂⟩
    · exact ⟨_, _, hk₂⟩
  unfold reserveModule
  rw [hbytes, call_kzalloc (h := ⟨s, live⟩) hk₁]
  dsimp only
  rw [call_kzalloc (h := ⟨s₁, granted live p₁ (tableBytes image)⟩) hk₂]
  dsimp only
  by_cases hnull : p₁ = 0 ∨ p₂ = 0
  · exact ⟨_, _, if_pos hnull⟩
  rw [if_neg hnull]
  rw [not_or] at hnull
  cases hl : layoutUpto (.start image imageSize) (ElfContext.start image imageSize).shnum with
  | none => exact ⟨_, _, rfl⟩
  | some l =>
  dsimp only
  by_cases htotal : l.total = 0
  · exact ⟨_, _, if_pos htotal⟩
  rw [if_neg htotal]
  have hsize : moduleBytes l ≤ 2 ^ 31 - 24 ∨ 2 ^ 64 - 24 ≤ moduleBytes l := by
    by_contra hmid
    rw [not_or] at hmid
    exact hends ⟨⟨s₁, p₁, s₂, p₂, hk₁, hnull.1, hk₂, hnull.2⟩, l, hl, htotal, by omega, by omega⟩
  obtain ⟨r₃, hk₃⟩ := s₂.kmalloc_ok (Nat.mod_lt _ (by omega)) hsize
  have hcall : s₂.heapCall (.kmalloc ((l.total + l.maxAlign - 1) % 2 ^ 64)) = .ok r₃ := hk₃
  unfold call
  rw [hcall]
  dsimp only
  split
  · exact ⟨_, _, rfl⟩
  · exact ⟨_, _, rfl⟩

/-- And then it does. -/
theorem reserveModule_endless (hends : Endless s image imageSize) :
    (⟨s, live⟩ : LiveHeap).reserveModule (.start image imageSize) = .error .diverges := by
  obtain ⟨⟨s₁, p₁, s₂, p₂, hk₁, hp₁, hk₂, hp₂⟩, l, hl, htotal, hlow, hhigh⟩ := hends
  have hbytes : 8 * (ElfContext.start image imageSize).shnum = tableBytes image := rfl
  have hl' : layoutUpto (.start image imageSize) (ElfContext.start image imageSize).shnum
      = some l := hl
  have hcall : s₂.heapCall (.kmalloc ((l.total + l.maxAlign - 1) % 2 ^ 64)) = .error .diverges :=
    s₂.kmalloc_diverges hlow hhigh
  unfold reserveModule
  rw [hbytes, call_kzalloc (h := ⟨s, live⟩) hk₁]
  dsimp only
  rw [call_kzalloc (h := ⟨s₁, granted live p₁ (tableBytes image)⟩) hk₂]
  dsimp only
  rw [if_neg (by simp [hp₁, hp₂]), hl']
  dsimp only
  rw [if_neg htotal]
  unfold call
  rw [hcall]

-- ==== the result

/-- A call of `sdi_load_driver_image` leaves the allocations it should
exactly if the header is refused, the heap has no room for a table, or it
does not return. -/
theorem loadDriverImage_frugal_iff (address : String → Nat)
    (register : Kheap → Nat → Kheap × Int) (pml4 : Option Nat) (image : Memory) (imageSize : Nat)
    (hrun : Run maxPfn usable s live others) :
    (∀ h' rc, (⟨s, live⟩ : LiveHeap).loadDriverImage address register pml4 image imageSize
        = .ok (h', rc) → Frugal live h'.live rc)
      ↔ validateHeader image imageSize = false ∨ NoRoom s (tableBytes image)
        ∨ Endless s image imageSize := by
  have hle := tableBytes_le image
  have hsame : Frugal live live (-1) :=
    ⟨fun _ e => Iff.rfl, fun h => absurd h (by decide)⟩
  constructor
  · intro hall
    by_contra hcon
    rw [not_or, not_or, Bool.not_eq_false] at hcon
    obtain ⟨hvalid, hroom, hends⟩ := hcon
    obtain ⟨h₁, r, hr⟩ := reserveModule_returns hrun hvalid hends
    rcases Kheap.kzalloc_cases hrun (tableBytes_ne hvalid) (by omega) with
      ⟨hno, -⟩ | ⟨s₁, p₁, -, hk₁, hp₁, hfresh₁, hrun₁⟩
    · exact hroom hno
    obtain ⟨hmem₁, hmem₂⟩ :=
      reserveModule_keeps (h := ⟨s, live⟩) (.start image imageSize) hk₁ hp₁ hr
    obtain ⟨t, rc, hload, hfailed⟩ := loadDriverImage_of_reserved address register pml4 hvalid hr
    have hfrugal := hall _ _ hload
    by_cases hrc : rc = 0
    · obtain ⟨m, -, hm⟩ := hfrugal.loaded hrc
      obtain ⟨s₂, p₂, hk₂, hp₂, hin₂⟩ := hmem₂ fun e => hfailed e hrc
      rcases Kheap.kzalloc_cases hrun₁ (tableBytes_ne hvalid) (by omega) with
        ⟨-, hz⟩ | ⟨s₂', p₂', -, hz, -, hfresh₂, -⟩
      · have heq := hk₂.symm.trans hz
        cases heq
        exact hp₂ rfl
      · have heq := hk₂.symm.trans hz
        cases heq
        -- neither table was there before, so both are the module
        have h1 := ((hm _).mp hmem₁).resolve_right fun hin => hfresh₁ _ hin rfl
        have h2 := ((hm _).mp hin₂).resolve_right fun hin =>
          hfresh₂ _ (List.mem_cons_of_mem _ hin) rfl
        exact hfresh₂ _ List.mem_cons_self (congrArg Prod.fst (h1.trans h2.symm))
    · have hin := (hfrugal.failed hrc _).mp hmem₁
      exact hfresh₁ _ hin rfl
  · intro hcond h' rc hload
    by_cases hvalid : validateHeader image imageSize = true
    · rcases hcond with hbad | hno | hends
      · rw [hvalid] at hbad
        cases hbad
      · rcases Kheap.kzalloc_cases hrun (tableBytes_ne hvalid) (by omega) with
          ⟨-, hk₁⟩ | ⟨s₁, p₁, hroom, -⟩
        · have hr := reserveModule_refused (h := ⟨s, live⟩) (.start image imageSize) hk₁
          unfold loadDriverImage at hload
          simp only [hvalid, Bool.not_true, Bool.false_eq_true, if_false, hr] at hload
          cases hload
          exact hsame
        · exact absurd hno hroom
      · unfold loadDriverImage at hload
        simp only [hvalid, Bool.not_true, Bool.false_eq_true, if_false,
          reserveModule_endless hends] at hload
        cases hload
    · unfold loadDriverImage at hload
      rw [if_pos (by simpa using hvalid)] at hload
      cases hload
      exact hsame

/-- An image with one section, which is not loaded. -/
def emptyImage : Memory := imageOf (ehdrFields 1 ++ shdrFields 0 0 0 0 0 0 0 0 0)

/-- It is not loaded, and the tables stay. -/
theorem loadDriverImage_leaks : ∃ h' rc,
    (⟨Kheap.bootHeap, []⟩ : LiveHeap).loadDriverImage (fun _ => 0) (fun s _ => (s, 0)) none
      emptyImage 128 = .ok (h', rc) ∧ rc ≠ 0 ∧ ¬ Frugal [] h'.live rc := by
  have hrun : ((⟨Kheap.bootHeap, []⟩ : LiveHeap).loadDriverImage (fun _ => 0)
      (fun s _ => (s, 0)) none emptyImage 128).toOption.any
        (fun r => decide (r.2 ≠ 0 ∧ r.1.live.length = 2)) = true := by
    decide +kernel
  cases hload : (⟨Kheap.bootHeap, []⟩ : LiveHeap).loadDriverImage (fun _ => 0)
      (fun s _ => (s, 0)) none emptyImage 128 with
  | error e =>
      rw [hload] at hrun
      cases hrun
  | ok r =>
      obtain ⟨h', rc⟩ := r
      rw [hload] at hrun
      obtain ⟨hrc, hlen⟩ := of_decide_eq_true hrun
      refine ⟨h', rc, rfl, hrc, fun hfrugal => ?_⟩
      cases hlive : h'.live with
      | nil =>
          rw [hlive] at hlen
          cases hlen
      | cons e l =>
          have hin : e ∈ h'.live := by
            rw [hlive]
            exact List.mem_cons_self
          have hnil := (hfrugal.failed hrc e).mp hin
          cases hnil

-- a driver that is loaded leaves the tables as well as its module
example : ((⟨Kheap.rootedHeap, []⟩ : LiveHeap).loadDriverImage (fun _ => 0) (fun s _ => (s, 0))
    (some 16) (driverImage 0) 480).toOption.any
      (fun r => decide (r.2 = 0 ∧ r.1.live.length = 3)) = true := by
  decide +kernel

/-- Without a header nothing is allocated; a driver's image leaves
more than it should. -/
theorem loadDriverImage_frugal_iff_driver :
    (validateHeader (fun _ => 0) 64 = false
      ∧ ∀ h' rc, (⟨Kheap.bootHeap, []⟩ : LiveHeap).loadDriverImage (fun _ => 0)
        (fun s _ => (s, 0)) none (fun _ => 0) 64 = .ok (h', rc) → Frugal [] h'.live rc)
      ∧ validateHeader (driverImage 0) 480 = true
      ∧ ∃ h' rc, (⟨Kheap.bootHeap, []⟩ : LiveHeap).loadDriverImage (fun _ => 0)
        (fun s _ => (s, 0)) none (driverImage 0) 480 = .ok (h', rc)
          ∧ ¬ Frugal [] h'.live rc := by
  have hbad : validateHeader (fun _ => 0) 64 = false := by decide
  have hvalid : validateHeader (driverImage 0) 480 = true := by decide +kernel
  have hroom : ¬ NoRoom Kheap.bootHeap (tableBytes (driverImage 0)) := by
    have hclass : Kheap.cacheForSize (tableBytes (driverImage 0)) = some 3 := by decide +kernel
    unfold NoRoom
    rw [hclass]
    rintro ⟨-, hnone⟩
    revert hnone
    decide +kernel
  have hends : ¬ Endless Kheap.bootHeap (driverImage 0) 480 := by
    have hsmall : (layoutUpto (.start (driverImage 0) 480) (ehdr (driverImage 0)).eShnum).all
        (fun l => decide (moduleBytes l ≤ 8)) = true := by decide +kernel
    rintro ⟨-, l, hl, -, hbig, -⟩
    rw [hl] at hsmall
    have hle : moduleBytes l ≤ 8 := of_decide_eq_true hsmall
    omega
  refine ⟨⟨hbad, (loadDriverImage_frugal_iff (fun _ => 0) (fun s _ => (s, 0)) none (fun _ => 0) 64
    Kheap.run_bootHeap).mpr (Or.inl hbad)⟩, hvalid, ?_⟩
  by_contra hall
  push Not at hall
  rcases (loadDriverImage_frugal_iff (fun _ => 0) (fun s _ => (s, 0)) none (driverImage 0) 480
    Kheap.run_bootHeap).mp hall with hno | hno | hno
  · rw [hvalid] at hno
    cases hno
  · exact hroom hno
  · exact hends hno

end LiveHeap

end Alix
