/-
What a user of the heap can rely on.

# What can go wrong

`size + sizeof(large_hdr_t)` is not checked. For the last 24 sizes it
wraps to less than a header, the search ends at order 0, and the caller
who asked for nearly 2^64 bytes gets 4072 (`kmalloc_room_wrapped`);
`kzalloc` then clears everything.

# What holds

Runs of the heap are in order in every state (`run_intact`), and below
`2^64 - 24` a pointer that `kmalloc` returns has the room that was asked
for (`kmalloc_room_iff`).
-/
import Alix.Mm.Proofs.KheapRun

namespace Alix.Kheap

open Bytes (Memory load)
open Dyadic (Block)
open Pmm (Ledger Usable)

variable {maxPfn : Nat} {usable : Nat → Bool} {s s' : Kheap} {G : Ghost} {c q p n x o size : Nat}
  {live : List (Nat × Nat)} {others : List Block} {ref : Nat → Nat}

-- ==== in order

/-- A region and another one share no byte. -/
def ApartFrom (x n y m : Nat) : Prop := ∀ a, x ≤ a → a < x + n → ¬ (y ≤ a ∧ a < y + m)

/-- A slab: it is the page of a cache, its freelist runs through as many
distinct slots as its counts say, no live allocation meets its header or a
free slot, and it is on the one list the counts say. -/
structure SlabIntact (s : Kheap) (live : List (Nat × Nat)) (lists : Nat → SlabList → List Nat)
    (q c : Nat) (free : List Nat) : Prop where
  cache : c < NUM_SIZE_CLASSES ∧ (s.pmm.pages q).priv = cachePtr c
  chain : Chain s.mem (s.get64 (s.slabFromPage q + 16)) free
  slots : ∀ y ∈ free, IsSlot s.hhdm c q y
  nodup : free.Nodup
  counts : s.get32 (s.slabFromPage q + 24) + free.length = s.get32 (s.slabFromPage q + 28)
  header : ∀ x n, (x, n) ∈ live → ApartFrom x n (s.slabFromPage q) sizeofSlab
  apart : ∀ y ∈ free, ∀ x n, (x, n) ∈ live → ApartFrom x n y (objSize c)
  full : ∀ c', q ∈ lists c' .full ↔ c' = c
    ∧ s.get32 (s.slabFromPage q + 24) = s.get32 (s.slabFromPage q + 28)
  partials : ∀ c', q ∈ lists c' .partials ↔ c' = c
    ∧ s.get32 (s.slabFromPage q + 24) < s.get32 (s.slabFromPage q + 28)

/-- The heap is in order: the live allocations do not meet, they are in
blocks that the page allocator has given to the heap, and no header and
no free slot is in one; the slabs are intact, and nothing else is on a
list; the counters count, and a live pointer can be freed. -/
structure Intact (maxPfn : Nat) (usable : Nat → Bool) (s : Kheap) (live : List (Nat × Nat))
    (others heap : List Block) (lists : Nat → SlabList → List Nat) : Prop where
  held : ∃ ref, Ledger maxPfn usable s.pmm (heap ++ others) ref
  disjoint : live.Pairwise fun a b => ApartFrom a.1 a.2 b.1 b.2
  inside : ∀ x n, (x, n) ∈ live → ∃ b ∈ heap,
    s.slabFromPage b.base ≤ x ∧ x + n ≤ s.slabFromPage b.base + PAGE_SIZE * 2 ^ b.order
  slab : ∀ q, hasFlag (s.pmm.pages q).flags PAGE_SLAB = true →
    ⟨q, 0⟩ ∈ heap ∧ ∃ c free, SlabIntact s live lists q c free
  large : ∀ b ∈ heap, hasFlag (s.pmm.pages b.base).flags PAGE_SLAB = false →
    s.get64 (s.slabFromPage b.base) = LARGE_MAGIC
      ∧ ∀ x n, (x, n) ∈ live → ApartFrom x n (s.slabFromPage b.base) sizeofLargeHdr
  listed : Listed s lists fun q => hasFlag (s.pmm.pages q).flags PAGE_SLAB = true
  counters : s.totalAllocCount - s.totalFreeCount = BitVec.ofNat 64 live.length
  free : ∀ x n, (x, n) ∈ live → ∃ s', s.kfree x = .ok s'

/-- The pages with the flag are the slabs. -/
theorem Inv.isSlab_iff (h : Inv maxPfn usable s G live others ref) (q : Nat) :
    hasFlag (s.pmm.pages q).flags PAGE_SLAB = true ↔ G.IsSlab q := by
  constructor
  · exact h.flag q
  · intro hq
    obtain ⟨c, free, hq⟩ := hq
    exact (h.role q _ hq).2.1

/-- A header, of links and of what a role rests on, is not in a live
allocation. -/
theorem Inv.header_apart {r : Role} {m : Nat} (h : Inv maxPfn usable s G live others ref)
    (hq : G.role q = some r) (hx : (x, n) ∈ live)
    (hmeta : ∀ a, pageAt s.hhdm q ≤ a → a < pageAt s.hhdm q + m →
      Meta s.hhdm q r a ∨ a < pageAt s.hhdm q + 16) :
    ApartFrom x n (pageAt s.hhdm q) m := by
  intro a h1 h2 hin
  obtain ⟨hm, hlink⟩ := h.backs_clear (h.backed x n hx) h1 h2 hq
  cases hmeta a hin.1 hin.2 with
  | inl hin => exact hm hin
  | inr hlt => exact hlink ⟨hin.1, hlt⟩

/-- A slab of the invariant is intact. -/
theorem Inv.slabIntact {free : List Nat} (h : Inv maxPfn usable s G live others ref)
    (hq : G.role q = some (.slab c free)) : SlabIntact s live G.lists q c free := by
  obtain ⟨hc, -, hpriv, hs⟩ := h.role q _ hq
  have hin : s.get32 (s.slabFromPage q + 24) + free.length = s.get32 (s.slabFromPage q + 28) :=
    hs.inuse.trans hs.total.symm
  have hon := h.onList q c free hq
  have hlist : ∀ c' k, q ∈ G.lists c' k ↔ c' = c ∧ k = listOf free := by
    intro c' k
    constructor
    · intro hmem
      obtain ⟨free', hq', hk⟩ := h.inList c' k q hmem
      cases hq.symm.trans hq'
      exact ⟨rfl, hk⟩
    · intro he
      rw [he.1, he.2]
      exact hon
  refine ⟨⟨hc, hpriv⟩, hs.chain, hs.slots, hs.nodup, hin, fun x n hx => ?_, fun y hy x n hx => ?_,
    fun c' => ?_, fun c' => ?_⟩
  · refine h.header_apart hq hx fun a h1 h2 => ?_
    by_cases ha : a < pageAt s.hhdm q + 16
    · exact Or.inr ha
    · exact Or.inl (Or.inl ⟨by omega, h2⟩)
  · intro a h1 h2 hin
    exact (h.backs_clear (h.backed x n hx) h1 h2 hq).1 (Or.inr ⟨y, hy, hin⟩)
  · rw [hlist]
    have hfull : SlabList.full = listOf free ↔ free.length = 0 := by
      unfold listOf
      rw [List.length_eq_zero_iff]
      by_cases he : free = []
      · simp only [he, if_true]
      · simp only [he, if_false, iff_false]
        intro e
        cases e
    rw [hfull]
    exact and_congr_right fun _ => by omega
  · rw [hlist]
    have hpart : SlabList.partials = listOf free ↔ 0 < free.length := by
      unfold listOf
      rw [List.length_pos_iff]
      by_cases he : free = []
      · simp only [he, if_true, ne_eq, not_true_eq_false, iff_false]
        intro e
        cases e
      · simp only [he, if_false, ne_eq, not_false_eq_true]
    rw [hpart]
    exact and_congr_right fun _ => by omega

/-- In every state of a run the heap is in order. -/
theorem run_intact (h : Run maxPfn usable s live others) :
    ∃ heap lists, Intact maxPfn usable s live others heap lists := by
  obtain ⟨⟨G, ref, h⟩, hcount⟩ := h.kept
  have hslab := h.isSlab_iff
  refine ⟨G.blocks, G.lists, ⟨ref, h.ledger⟩, ?_, fun x n hx => ?_, fun q hq => ?_,
    fun b hb hno => ?_, ?_, hcount, fun x n hx => ?_⟩
  · refine (List.pairwise_map.mp h.alone).imp_of_mem fun {a b} ha hb hne => ?_
    have hapart := h.backs_apart (h.backed a.1 a.2 ha) (h.backed b.1 b.2 hb) hne
    intro d h1 h2 hin
    omega
  · obtain ⟨q, r, hq, hback⟩ := h.backed x n hx
    obtain ⟨h1, h2⟩ := (h.role q r hq).backed_inside hback
    exact ⟨⟨q, r.order⟩, (h.block q r.order).mpr ⟨r, hq, rfl⟩,
      Nat.le_trans (Nat.le_add_right _ 24) h1, h2⟩
  · obtain ⟨c, free, hrole⟩ := (hslab q).mp hq
    exact ⟨(h.block q 0).mpr ⟨_, hrole, rfl⟩, c, free, h.slabIntact hrole⟩
  · obtain ⟨r, hr, -⟩ := (h.block b.base b.order).mp hb
    cases r with
    | slab c free =>
        rw [(hslab b.base).mpr ⟨c, free, hr⟩] at hno
        cases hno
    | large order size =>
        obtain ⟨-, hlarge⟩ := h.role b.base _ hr
        exact ⟨hlarge.magic, fun x n hx =>
          h.header_apart hr hx fun a h1 h2 => Or.inl ⟨h1, h2⟩⟩
  · have hset : (fun q => hasFlag (s.pmm.pages q).flags PAGE_SLAB = true) = G.IsSlab :=
      funext fun q => propext (hslab q)
    rw [hset]
    exact h.listed
  · obtain ⟨s', hok, -⟩ := h.kfree hx
    exact ⟨s', hok⟩

/-- A run can begin after `pmm_init`. -/
theorem run_boot (hp : Placed maxPfn s)
    (hpmm : s.pmm = Pmm.pmmInit maxPfn (Pmm.pfndb maxPfn usable)) :
    Run maxPfn usable s.kheapInit [] [] := by
  obtain ⟨L, hinv⟩ : ∃ L, Pmm.RunInv maxPfn usable
      (Pmm.pmmInit maxPfn (Pmm.pfndb maxPfn usable)) [] L := Pmm.runInv_init
  refine Run.init hp (by rw [hpmm]; exact hinv.ledger) fun q => ?_
  rw [hpmm, hasFlag_pageBit _ (by omega)]
  exact Pmm.pmmInit_foreign maxPfn usable q (by unfold Pmm.ownBit; omega) (by omega)

theorem run_bootHeap : Run 16 (fun q => 1 ≤ q) bootHeap [] [] := by
  have hplaced : Placed 16 bareHeap := by
    refine ⟨?_, ?_, ?_⟩
    · show 0 < 0xffff800000000000
      omega
    · show 0xffff800000000000 % 4096 = 0
      omega
    · show (16 + 1) * 4096 + 0xffff800000000000 ≤ 2 ^ 64
      omega
  refine run_boot hplaced ?_
  unfold bareHeap
  dsimp only

/-- The pointer a call of `kmalloc` returns. -/
def ptrOf : Except HeapStop (Kheap × Nat) → Option Nat
  | .ok (_, p) => some p
  | .error _ => none

/-- An object of 2048 bytes fills its slab. -/
theorem run_intact_object : ∃ s x heap lists,
    Intact 16 (fun q => 1 ≤ q) s [(x, 2048)] [] heap lists := by
  have hptr : ptrOf (bootHeap.kmalloc 2048) = some 0xffff800000010030 := by decide +kernel
  cases hk : bootHeap.kmalloc 2048 with
  | error e =>
      rw [hk] at hptr
      cases hptr
  | ok r =>
      obtain ⟨s, x⟩ := r
      rw [hk] at hptr
      have hx : x = 0xffff800000010030 := Option.some.inj hptr
      have hrun : Run 16 (fun q => 1 ≤ q) s [(x, 2048)] [] := by
        have hcall := Run.call (k := .kmalloc 2048) run_bootHeap
          (show (2048 : Nat) < 2 ^ 64 - 24 by omega) hk
        have hafter : (HeapCall.kmalloc 2048).after [] x = [(x, 2048)] := by
          rw [hx]
          rfl
        rwa [hafter] at hcall
      exact ⟨s, x, run_intact hrun⟩

-- ==== the room

/-- The bytes from a pointer to the end of what backs it, as the
descriptors have it: the slot of a slab, or the pages of a large
allocation. -/
def room (s : Kheap) (ptr : Nat) : Nat :=
  match s.pageFromAllocPtr ptr with
  | none => 0
  | some page =>
      if hasFlag (s.pmm.pages page).flags PAGE_SLAB then
        let cache := s.caches ((s.pmm.pages page).priv - 1)
        cache.objSize - (ptr - (s.slabFromPage page + slabHdr cache)) % cache.objSize
      else if pageIsLargeAlloc (s.pmm.pages page) then
        s.slabFromPage page + PAGE_SIZE * 2 ^ (s.pmm.pages page).order - ptr
      else 0

/-- A pointer that `kmalloc` returns has room for what was asked for, and
what `kzalloc` clears is inside. -/
structure Roomy (s : Kheap) (size : Nat) : Prop where
  enough : ∀ s' p, s.kmalloc size = .ok (s', p) → p ≠ 0 → size ≤ s'.room p
  cleared : ∀ s' p, s.kzalloc size = .ok (s', p) → p ≠ 0 →
    ∃ t, s.kmalloc size = .ok (t, p)
      ∧ ∀ a, s'.mem a ≠ t.mem a → p ≤ a ∧ a < p + t.room p

/-- A live allocation has the room it was asked to have. -/
theorem Inv.live_room (h : Inv maxPfn usable s G live others ref) (hx : (x, n) ∈ live) :
    n ≤ s.room x := by
  obtain ⟨q, r, hq, hb⟩ := h.backed x n hx
  obtain ⟨hpage, -⟩ := h.page_of_ptr hq hb
  unfold room
  rw [hpage]
  cases r with
  | slab c free =>
      obtain ⟨hc, hflag, hpriv, -⟩ := h.role q _ hq
      obtain ⟨⟨i, -, hxi⟩, -, hn⟩ := hb
      have hsizes := h.sizes c hc
      have hcache : (s.pmm.pages q).priv - 1 = c := by
        rw [hpriv]
        rfl
      have hoff : x - (s.slabFromPage q + slabBase c) = i * objSize c := by
        rw [hxi]
        exact Nat.add_sub_cancel_left _ _
      simp only [hflag, if_true, hcache, hsizes.hdr, hsizes.1, hoff, Nat.mul_mod_left]
      exact hn
  | large order size =>
      obtain ⟨hflag, hlarge⟩ := large_recognised h hq
      obtain ⟨-, hat⟩ := h.role q _ hq
      obtain ⟨-, horder, -, -⟩ := h.ledger.head _ (h.role_block hq)
      have hord : (s.pmm.pages q).order = order := horder
      have hfits : size + 24 ≤ 4096 * 2 ^ order := hat.room
      have hxq : x = pageAt s.hhdm q + 24 := hb.1
      have hns : n = size := hb.2
      simp only [hflag, Bool.false_eq_true, if_false, hlarge, if_true, hord]
      show n ≤ pageAt s.hhdm q + 4096 * 2 ^ order - x
      omega

/-- In the last 24 sizes the caller gets nothing if there is no page. -/
theorem kmalloc_wrapped_none (hlow : 2 ^ 64 - 24 ≤ size) (hsize : size < 2 ^ 64)
    (hnone : s.pmm.pmmAlloc 0 = none) : s.kmalloc size = .ok (s, 0) := by
  have hlarge : s.largeAlloc size = .ok (s, 0) := by
    unfold Kheap.largeAlloc
    rw [order_wrapped hlow hsize]
    simp only [ge_iff_le, Nat.le_zero, Nat.succ_ne_zero, if_false, hnone]
  have hptr := (allocPtr_large s (cacheForSize_none.mpr (by omega))).trans hlarge
  exact kmalloc_of_ptr (by omega) hptr

/-- Clearing as much as there is. -/
theorem roomy_of_enough (h : ∀ s' p, s.kmalloc size = .ok (s', p) → p ≠ 0 → size ≤ s'.room p) :
    Roomy s size := by
  refine ⟨h, fun s' p hk hne => ?_⟩
  unfold Kheap.kzalloc at hk
  cases hm : s.kmalloc size with
  | error e =>
      rw [hm] at hk
      cases hk
  | ok r =>
      obtain ⟨t, p'⟩ := r
      rw [hm] at hk
      have hk' := Except.ok.inj hk
      have hp : p' = p := congrArg Prod.snd hk'
      rw [hp] at hm hk'
      have hs' : s' = { t with mem := Bytes.fill t.mem p size 0 } :=
        (congrArg Prod.fst hk').symm.trans (if_pos hne)
      have hroom := h t p hm hne
      refine ⟨t, by rw [hp], fun a ha => ?_⟩
      rw [hs'] at ha
      have hin := Bytes.fill_changed ha
      exact ⟨hin.1, by omega⟩

/-- In the last 24 sizes the caller gets one page, if there is one. -/
theorem Inv.wrapped_room (h : Inv maxPfn usable s G live others ref) (hlow : 2 ^ 64 - 24 ≤ size)
    (hsize : size < 2 ^ 64) {pmm : Pmm} (ha : s.pmm.pmmAlloc 0 = some (pmm, p)) :
    ∃ s' x, s.kmalloc size = .ok (s', x) ∧ x ≠ 0 ∧ s'.room x ≤ 4096 := by
  obtain ⟨t, ht, hhdm, hpmm⟩ : ∃ t, s.largeAlloc size = .ok (t, pageAt s.hhdm p + 24)
      ∧ t.hhdm = s.hhdm
      ∧ t.pmm = pmm.modPage p fun pg =>
        { pg with priv := (LARGE_PAGE_TAG ||| BitVec.ofNat 64 0).toNat } := by
    refine ⟨(Kheap.largeTake { s with pmm } p size 0).1, ?_, rfl, rfl⟩
    unfold Kheap.largeAlloc
    rw [order_wrapped hlow hsize]
    simp only [ge_iff_le, Nat.le_zero, Nat.succ_ne_zero, if_false, ha]
    rfl
  have hok := kmalloc_of_ptr (by omega)
    ((allocPtr_large s (cacheForSize_none.mpr (by omega))).trans ht)
  rw [if_pos (Nat.succ_ne_zero _)] at hok
  refine ⟨_, _, hok, Nat.succ_ne_zero _, ?_⟩
  obtain ⟨hle, -⟩ := h.alloc_room ha
  obtain ⟨hledger, -, -⟩ := h.ledger.alloc ha
  obtain ⟨-, horder, -, -⟩ := hledger.head ⟨p, 0⟩ List.mem_cons_self
  -- the page is nobody's slab
  have hflag : hasFlag (t.pmm.pages p).flags PAGE_SLAB = false := by
    rw [hpmm, Pmm.modPage_pages_self]
    show hasFlag (pmm.pages p).flags PAGE_SLAB = false
    cases hf : hasFlag (pmm.pages p).flags PAGE_SLAB with
    | false => rfl
    | true =>
        obtain ⟨c, free, hrole⟩ := h.flag p (slab_of_foreign (Pmm.foreign_pmmAlloc ha) hf)
        rw [h.role_none ha] at hrole
        cases hrole
  have hord : (t.pmm.pages p).order = 0 := by
    rw [hpmm, Pmm.modPage_pages_self]
    exact horder
  have hpage : pageFromAllocPtr { t with totalAllocCount := t.totalAllocCount + 1 }
      (pageAt s.hhdm p + 24) = some p := by
    rw [← hhdm]
    refine pageFromAllocPtr_eq (s := { t with totalAllocCount := t.totalAllocCount + 1 })
      (show t.hhdm % 4096 = 0 by rw [hhdm]; exact h.placed.aligned) ?_ (Nat.le_add_right _ _)
      (show pageAt t.hhdm p + 24 < pageAt t.hhdm p + 4096 by omega)
    show p ≤ t.pmm.maxPfn
    rw [hpmm]
    exact Nat.le_trans hle (Nat.le_of_eq hledger.bound.symm)
  unfold room
  rw [hpage]
  simp only [hflag, Bool.false_eq_true, if_false, hord]
  split
  · show pageAt t.hhdm p + 4096 * 2 ^ 0 - (pageAt s.hhdm p + 24) ≤ 4096
    rw [hhdm]
    omega
  · exact Nat.zero_le _

/-- Below the last 24 sizes there is room for what was asked for; in
them only if there is not a page left to return. -/
theorem kmalloc_room_iff (h : Run maxPfn usable s live others) (hsize : size < 2 ^ 64) :
    Roomy s size ↔ size < 2 ^ 64 - 24 ∨ s.pmm.pmmAlloc 0 = none := by
  obtain ⟨⟨G, ref, h⟩, -⟩ := h.kept
  constructor
  · intro hroomy
    by_contra hcon
    rw [not_or] at hcon
    cases ha : s.pmm.pmmAlloc 0 with
    | none => exact hcon.2 ha
    | some r =>
        obtain ⟨pmm, p⟩ := r
        obtain ⟨s', x, hok, hne, hroom⟩ := h.wrapped_room (by omega) hsize ha
        have henough := hroomy.enough s' x hok hne
        omega
  · intro hcond
    refine roomy_of_enough fun s' p hok hne => ?_
    by_cases hn : size < 2 ^ 64 - 24
    · cases h.kmalloc hn hok with
      | inl hz => exact absurd hz.1 hne
      | inr hz =>
          obtain ⟨-, -, -, G', ref', h'⟩ := hz
          exact h'.live_room List.mem_cons_self
    · -- nothing is returned
      rw [kmalloc_wrapped_none (by omega) hsize (hcond.resolve_left hn)] at hok
      exact absurd (congrArg Prod.snd (Except.ok.inj hok)).symm hne

/-- 5000 bytes have their room. -/
theorem kmalloc_room_bootHeap : Roomy bootHeap 5000 :=
  (kmalloc_room_iff run_bootHeap (by omega)).mpr (Or.inl (by omega))

/-- 2^64 - 10 bytes do not. -/
theorem kmalloc_room_wrapped : ∃ s p, bootHeap.kmalloc (2 ^ 64 - 10) = .ok (s, p) ∧ p ≠ 0
    ∧ s.room p = 4072 ∧ ¬ Roomy bootHeap (2 ^ 64 - 10) := by
  have hroom : (match bootHeap.kmalloc (2 ^ 64 - 10) with
      | .ok (s, p) => some (p, s.room p)
      | .error _ => none) = some (0xffff800000010018, 4072) := by decide +kernel
  cases hk : bootHeap.kmalloc (2 ^ 64 - 10) with
  | error e =>
      rw [hk] at hroom
      cases hroom
  | ok r =>
      obtain ⟨s, p⟩ := r
      rw [hk] at hroom
      have heq := Option.some.inj hroom
      have hp : p = 0xffff800000010018 := congrArg Prod.fst heq
      have hr : s.room p = 4072 := congrArg Prod.snd heq
      have hne : p ≠ 0 := by omega
      refine ⟨s, p, rfl, hne, hr, fun hroomy => ?_⟩
      have henough := hroomy.enough s p hk hne
      omega

end Alix.Kheap
