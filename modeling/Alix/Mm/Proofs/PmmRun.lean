/-
The buddy allocator over whole runs.

A run starts from `pmm_init` over a database with any set of usable
pages and takes any number of `pmm_alloc` and `pmm_free` calls.
`RunInv` is what a run keeps: the buddy invariant over the usable pages,
the free counter, and the descriptors of the blocks that are out. It
implies `Safe`, the statement about free lists, runs and counters that
a reader of the allocator wants, and that a free of an outstanding block
never ends in a panic (`reachable_free_ok`).
-/
import Alix.Mm.Proofs.Pmm

namespace Alix.Pmm

open Dyadic (Block)
open Dll (Links IsList)

variable {maxPfn : Nat} {usable : Nat → Bool}

-- ==== the run invariant

/-- The pages the memory map calls usable. -/
def Usable (maxPfn : Nat) (usable : Nat → Bool) (q : Nat) : Prop :=
  q < maxPfn + 1 ∧ usable q = true

/-- What a run of `pmm_alloc` and `pmm_free` keeps. -/
structure RunInv (maxPfn : Nat) (usable : Nat → Bool) (s : Pmm)
    (out : List Block) (L : Nat → List Nat) : Prop where
  buddy : Buddy s L out (Usable maxPfn usable)
  bound : s.maxPfn = maxPfn
  count : s.freePageCount = listedPages L
  head : ∀ b ∈ out, b.order < PMM_MAX_ORDER
    ∧ (s.pages b.base).order = b.order ∧ (s.pages b.base).refcount = 1
  clean : ∀ q, Usable maxPfn usable q →
    (s.pages q).reserved = false ∧ (s.pages q).poisoned = false
  merged : Merged L

/-- `Foreign` calls keep usable pages clean. -/
theorem clean_of_foreign {s s' : Pmm} (hf : Foreign s s') {q : Nat}
    (h : (s.pages q).reserved = false ∧ (s.pages q).poisoned = false) :
    (s'.pages q).reserved = false ∧ (s'.pages q).poisoned = false := by
  rw [Page.reserved_eq, Page.poisoned_eq] at h ⊢
  obtain ⟨h2, h5⟩ := h
  constructor
  · by_contra hc
    have := (hf q).2 2 (by simp [ownBit]) (by simpa using hc)
    rw [h2] at this
    cases this
  · by_contra hc
    have := (hf q).2 5 (by simp [ownBit]) (by simpa using hc)
    rw [h5] at this
    cases this

/-- The first loop of `pmm_init` sets no foreign bit, -/
theorem foreign_claimPage (s : Pmm) (p : Nat) : Foreign s (s.claimPage p) := by
  unfold claimPage
  split
  · refine ((foreign_setOrder s p 0).trans (foreign_clearFlag _ p PAGE_FREE)).trans ?_
    refine foreign_modPage _ p (fun _ => rfl) fun pg n hn hb => ?_
    have h1 : ¬1 = n := fun e => hn (Or.inr (Or.inl e.symm))
    simpa only [Page.setFlag, BitVec.getLsbD_or, getLsbD_pageBit, h1, decide_false,
      Bool.and_false, Bool.or_false] using hb
  · exact Foreign.refl s

/-- and neither does the second. -/
theorem foreign_releasePage (s : Pmm) (p : Nat) : Foreign s (s.releasePage p) := by
  unfold releasePage
  split
  · exact Foreign.refl s
  · exact foreign_freeBlock s p

theorem foreign_foldl {f : Pmm → Nat → Pmm} (hf : ∀ s p, Foreign s (f s p)) (l : List Nat)
    (s : Pmm) : Foreign s (l.foldl f s) := by
  induction l generalizing s with
  | nil => exact Foreign.refl s
  | cons p l ih => exact (hf s p).trans (ih (f s p))

/-- After `pmm_init` no page has a foreign flag. -/
theorem pmmInit_foreign (maxPfn : Nat) (usable : Nat → Bool) (q : Nat) {n : Nat} (hn : ¬ownBit n)
    (h2 : n ≠ 2) : ((pmmInit maxPfn (pfndb maxPfn usable)).pages q).flags.getLsbD n = false := by
  by_contra hset
  have hclaim : Foreign ⟨pfndb maxPfn usable, maxPfn, fun _ => ⟨none, 0⟩, 0, 0⟩
      (pmmInit maxPfn (pfndb maxPfn usable)) :=
    (foreign_foldl foreign_claimPage (List.range (maxPfn + 1)) _).trans
      (foreign_foldl foreign_releasePage (List.range (maxPfn + 1)) _)
  have hdb := (hclaim q).2 n hn (by simpa using hset)
  have h0 : ¬0 = n := fun e => hn (Or.inl e.symm)
  have h2' : ¬2 = n := fun e => h2 e.symm
  unfold pfndb at hdb
  simp only at hdb
  split at hdb
  · simp [getLsbD_pageBit, h0] at hdb
  · simp [getLsbD_pageBit, h2'] at hdb

theorem runInv_init : ∃ L, RunInv maxPfn usable
    (pmmInit maxPfn (pfndb maxPfn usable)) [] L := by
  obtain ⟨L, hcore, hmax, hcount, hL, -⟩ := pmmInit_spec maxPfn usable
  refine ⟨L, hcore.close (fun q _ hx _ => hx.elim) (fun q _ _ => rfl), hmax,
    hcount, fun b hb => by simp at hb, ?_, hL⟩
  -- the second loop sets no foreign bit, and the first left none
  intro q hq
  refine clean_of_foreign
    (foreign_foldl foreign_releasePage (List.range (maxPfn + 1)) _) ?_
  rw [(claimLoop _ (maxPfn + 1)).1 q, if_pos hq.1]
  obtain ⟨-, -, hr, hp, -⟩ := claimed_pfndb maxPfn usable q
  exact ⟨hr.trans (by rw [hq.2]; rfl), hp⟩

theorem RunInv.alloc {s s' : Pmm} {out : List Block} {L : Nat → List Nat}
    {order p : Nat} (h : RunInv maxPfn usable s out L)
    (ha : s.pmmAlloc order = some (s', p)) :
    ∃ L', RunInv maxPfn usable s' (⟨p, order⟩ :: out) L' := by
  obtain ⟨L', spec⟩ := pmmAlloc_spec h.buddy ha
  refine ⟨L', spec.buddy, spec.maxPfn.trans h.bound, ?_, ?_,
    fun q hq => clean_of_foreign (foreign_pmmAlloc ha) (h.clean q hq),
    spec.merged h.merged⟩
  · have hc := spec.count
    have hp := spec.pages
    rw [h.count] at hc
    omega
  · intro b hb
    rcases List.mem_cons.mp hb with rfl | hb
    · obtain ⟨-, ho, hr⟩ := spec.stamp _ (Block.base_mem ⟨p, order⟩)
      exact ⟨spec.order_lt, ho, hr⟩
    · have hframe := spec.frame b.base
        (h.buddy.held_not_inFree hb (Block.base_mem b))
      obtain ⟨hr, ho, -, -⟩ := Page.data_eq_iff.mp hframe
      rw [hr, ho]
      exact h.head b hb

/-- On a run's states a free of an outstanding block succeeds and keeps
the invariant. -/
theorem RunInv.free {s : Pmm} {out : List Block} {L : Nat → List Nat}
    {b : Block} (h : RunInv maxPfn usable s out L) (hb : b ∈ out) :
    ∃ s' L', s.pmmFree (some b.base) = .ok s'
      ∧ RunInv maxPfn usable s' (out.erase b) L' := by
  obtain ⟨ho, hord, href⟩ := h.head b hb
  have hU : Usable maxPfn usable b.base :=
    (h.buddy.cover b.base).mp (Or.inr ⟨b, hb, Block.base_mem b⟩)
  obtain ⟨hres, hpoi⟩ := h.clean _ hU
  obtain ⟨s', L', hok, spec⟩ :=
    pmmFree_last h.buddy hb ho hord hres hpoi href
  refine ⟨s', L', hok, spec.buddy, spec.maxPfn.trans h.bound, ?_, ?_,
    fun q hq => clean_of_foreign (foreign_pmmFree hok) (h.clean q hq),
    spec.merged h.merged⟩
  · rw [spec.count, h.count, spec.pages]
  · intro c hc
    have hcout : c ∈ out := List.mem_of_mem_erase hc
    -- `c` is another block: the two are apart
    have hapart : c.Apart b := by
      have hp := ((List.perm_cons_erase hb).pairwise_iff
        fun hbc => Block.Apart.symm hbc).mp h.buddy.apartOut
      exact ((List.pairwise_cons.mp hp).1 c hc).symm
    have hframe := spec.frame c.base
      (h.buddy.held_not_inFree hcout (Block.base_mem c))
      (hapart.not_mem (Block.base_mem c))
    obtain ⟨hr, ho', -, -⟩ := Page.data_eq_iff.mp hframe
    rw [hr, ho']
    exact h.head c hcout

theorem RunInv.freed {s s' : Pmm} {out : List Block} {L : Nat → List Nat} {b : Block}
    (h : RunInv maxPfn usable s out L) (hb : b ∈ out)
    (hfree : s.pmmFree (some b.base) = .ok s') :
    ∃ L', RunInv maxPfn usable s' (out.erase b) L' := by
  obtain ⟨s₁, L', hok, hinv⟩ := h.free hb
  rw [hfree] at hok
  cases hok
  exact ⟨L', hinv⟩

theorem reachable_runInv {s : Pmm} {out : List Block}
    (h : Reachable maxPfn usable s out) :
    ∃ L, RunInv maxPfn usable s out L := by
  induction h with
  | init => exact runInv_init
  | alloc _ ha ih =>
      obtain ⟨L, hinv⟩ := ih
      exact hinv.alloc ha
  | free _ hb _ hok ih =>
      obtain ⟨L, hinv⟩ := ih
      exact hinv.freed hb hok

/-- Freeing an outstanding block of a run never panics, and it is the
last reference. -/
theorem reachable_free_ok {s : Pmm} {out : List Block}
    (h : Reachable maxPfn usable s out) {b : Block} (hb : b ∈ out) :
    (s.pages b.base).refcount = 1
      ∧ ∃ s', s.pmmFree (some b.base) = .ok s' := by
  obtain ⟨L, hinv⟩ := reachable_runInv h
  obtain ⟨s', -, hok, -⟩ := hinv.free hb
  exact ⟨(hinv.head b hb).2.2, s', hok⟩

-- ==== safety

/-- The allocator's safety property, with `L o` the heads on
`free_lists[o]` in list order and `out` the outstanding blocks. -/
structure Safe (maxPfn : Nat) (usable : Nat → Bool) (s : Pmm)
    (out : List Block) (L : Nat → List Nat) : Prop where
  /-- the links of each list are consistent both ways -/
  links : ∀ o < PMM_MAX_ORDER, IsList s.links (L o)
  head : ∀ o < PMM_MAX_ORDER, (s.freeLists o).head = (L o).head?
  count : ∀ o < PMM_MAX_ORDER, (s.freeLists o).count = (L o).length
  /-- an entry heads an aligned run inside the database and says so -/
  entry : ∀ o < PMM_MAX_ORDER, ∀ p ∈ L o,
    2 ^ o ∣ p ∧ p + 2 ^ o ≤ maxPfn + 1
      ∧ (s.pages p).free = true ∧ (s.pages p).order = o
  apart_free : ∀ b c, Listed L b → Listed L c → b ≠ c → b.Apart c
  apart_out : ∀ b c, Listed L b → c ∈ out → b.Apart c
  out_apart : out.Pairwise Block.Apart
  reserved : ∀ q ≤ maxPfn, (s.pages q).reserved = true →
    (∀ b, Listed L b → q ∉ b) ∧ ∀ b ∈ out, q ∉ b
  /-- free runs and outstanding blocks are exactly the usable pages -/
  cover : ∀ q, (InFree L q ∨ ∃ b ∈ out, q ∈ b)
    ↔ q ≤ maxPfn ∧ usable q = true
  total : s.freePageCount
    = ∑ o ∈ Finset.range PMM_MAX_ORDER, (s.freeLists o).count * 2 ^ o

theorem RunInv.safe {s : Pmm} {out : List Block} {L : Nat → List Nat}
    (h : RunInv maxPfn usable s out L) : Safe maxPfn usable s out L := by
  have hres : ∀ q, (s.pages q).reserved = true →
      ¬Usable maxPfn usable q := by
    intro q hr hU
    rw [(h.clean q hU).1] at hr
    cases hr
  refine ⟨h.buddy.list, h.buddy.head, h.buddy.count, ?_, h.buddy.apartFree,
    h.buddy.apartHeld, h.buddy.apartOut, ?_, ?_, ?_⟩
  · intro o ho p hp
    obtain ⟨hal, hfit⟩ := h.buddy.fits ⟨p, o⟩ (Or.inl ⟨ho, hp⟩)
    obtain ⟨hf, hord⟩ := h.buddy.marked ⟨p, o⟩ ⟨ho, hp⟩
    rw [h.bound] at hfit
    exact ⟨hal, hfit, hf, hord⟩
  · intro q _ hr
    refine ⟨fun b hb hq => ?_, fun b hb hq => ?_⟩
    · exact hres q hr ((h.buddy.cover q).mp (Or.inl ⟨b, hb, hq⟩))
    · exact hres q hr ((h.buddy.cover q).mp (Or.inr ⟨b, hb, hq⟩))
  · intro q
    rw [h.buddy.cover q, Usable, Nat.lt_succ_iff]
  · rw [h.count, listedPages]
    refine Finset.sum_congr rfl fun o ho => ?_
    rw [h.buddy.count o (Finset.mem_range.mp ho)]

/-- Every state a run reaches is safe. -/
theorem reachable_safe {s : Pmm} {out : List Block}
    (h : Reachable maxPfn usable s out) :
    ∃ L, Safe maxPfn usable s out L := by
  obtain ⟨L, hinv⟩ := reachable_runInv h
  exact ⟨L, hinv.safe⟩

/-- The two-page machine: `pmm_init` merges both pages into one block of
order one, and `pmm_alloc(0)` splits it. -/
theorem reachable_safe_split :
    ∃ s L, (pmmInit 1 (pfndb 1 fun _ => true)).pmmAlloc 0 = some (s, 0)
      ∧ Safe 1 (fun _ => true) s [⟨0, 0⟩] L := by
  have hpage : ((pmmInit 1 (pfndb 1 fun _ => true)).pmmAlloc 0).map Prod.snd
      = some 0 := by decide
  obtain ⟨⟨s, p⟩, halloc, hp⟩ := Option.map_eq_some_iff.mp hpage
  change p = 0 at hp
  subst hp
  obtain ⟨L, hsafe⟩ := reachable_safe (Reachable.alloc Reachable.init halloc)
  exact ⟨s, L, halloc, hsafe⟩

-- ==== history independence

/-- `b.base` is on `free_lists[b.order]`: a walk along `list.next` from
the head comes to it. -/
def FreeBlock (s : Pmm) (b : Block) : Prop :=
  b.order < PMM_MAX_ORDER
    ∧ Dll.Reached s.links (s.freeLists b.order).head b.base

/-- The frames of the free blocks. -/
def freeFrames (m : Pmm) : Set Nat := {q | ∃ b, FreeBlock m b ∧ q ∈ b}

/-- Page `q` is in one of the blocks handed out. -/
def Allocated (out : List Block) (q : Nat) : Prop := ∃ b ∈ out, q ∈ b

section free

variable {s : Pmm} {L : Nat → List Nat} {U : List Block} {X : Nat → Prop}
  {keep : Nat → Page} {C : Nat → Prop}

theorem Core.freeBlock_iff (h : Core s L U X keep C) (b : Block) :
    FreeBlock s b ↔ Listed L b := by
  unfold FreeBlock Listed
  refine and_congr_right fun ho => ?_
  rw [h.head _ ho]
  exact (h.list _ ho).reached_iff

/-- The free blocks have the pages that are not out. -/
theorem Core.free_iff (h : Core s L U X keep C) (q : Nat) :
    (∃ b, FreeBlock s b ∧ q ∈ b) ↔ C q ∧ ¬ Allocated U q := by
  simp only [h.freeBlock_iff]
  constructor
  · intro hq
    obtain ⟨b, hb, hqb⟩ := hq
    refine ⟨(h.cover q).mp (Or.inl ⟨b, hb, hqb⟩), fun hout => ?_⟩
    obtain ⟨c, hc, hqc⟩ := hout
    exact (h.apartHeld b c hb hc).not_mem hqb hqc
  · intro hq
    exact ((h.cover q).mpr hq.1).resolve_right hq.2

end free

/-- The listed blocks partition the usable pages that are not out. -/
theorem Buddy.partition {s : Pmm} {out : List Block} {L : Nat → List Nat} {C : Nat → Prop}
    (h : Buddy s L out C) :
    Dyadic.Partition PMM_MAX_ORDER (Listed L) fun q => C q ∧ ¬ Allocated out q where
  lt := fun _ hb => hb.1
  aligned := fun b hb => (h.fits b (Or.inl hb)).1
  apart := h.apartFree
  cover := by
    intro q
    rw [← Core.free_iff h q]
    simp only [Core.freeBlock_iff h]

/-- On every state of a run the free blocks are the maximal blocks of the
free pages. -/
theorem reachable_free_maximal {s : Pmm} {out : List Block}
    (h : Reachable maxPfn usable s out) (b : Block) :
    FreeBlock s b ↔ Dyadic.Maximal PMM_MAX_ORDER
      (fun q => Usable maxPfn usable q ∧ ¬ Allocated out q) b := by
  obtain ⟨L, hinv⟩ := reachable_runInv h
  rw [Core.freeBlock_iff hinv.buddy b]
  exact hinv.buddy.partition.iff_maximal hinv.merged b

/-- The allocator is fully coalescing and forgets its history: no list
holds two buddies that could be merged, the free blocks are a function of
the free pages, and two runs that end with the same pages allocated end
with the same free blocks. -/
theorem reachable_coalesced {s s' : Pmm} {out out' : List Block}
    (h : Reachable maxPfn usable s out) (h' : Reachable maxPfn usable s' out') :
    (∀ p o, o < PMM_MAX_ORDER - 1 → FreeBlock s ⟨p, o⟩ →
        ¬ FreeBlock s ⟨Dyadic.buddy p o, o⟩)
      ∧ (∀ b, FreeBlock s b ↔ Dyadic.Maximal PMM_MAX_ORDER
          (fun q => Usable maxPfn usable q ∧ ¬ Allocated out q) b)
      ∧ ((∀ q, Allocated out q ↔ Allocated out' q) →
          ∀ b, FreeBlock s b ↔ FreeBlock s' b)
      ∧ (out = [] → ∀ b, FreeBlock s b
          ↔ FreeBlock (pmmInit maxPfn (pfndb maxPfn usable)) b) := by
  refine ⟨?_, reachable_free_maximal h, ?_, ?_⟩
  · intro p o ho hp hb
    obtain ⟨L, hinv⟩ := reachable_runInv h
    rw [Core.freeBlock_iff hinv.buddy] at hp hb
    exact hinv.merged p o (by omega) hp hb
  · intro hsame b
    rw [reachable_free_maximal h, reachable_free_maximal h']
    simp only [hsame]
  · intro hnil b
    subst hnil
    rw [reachable_free_maximal h, reachable_free_maximal .init]

/-- On the two-page machine, allocating a page and freeing it merges both
pages again. -/
theorem reachable_coalesced_pair :
    ∃ s s', (pmmInit 1 (pfndb 1 fun _ => true)).pmmAlloc 0 = some (s, 0)
      ∧ s.pmmFree (some 0) = .ok s'
      ∧ ∀ b, FreeBlock s' b ↔ FreeBlock (pmmInit 1 (pfndb 1 fun _ => true)) b := by
  have hpage : ((pmmInit 1 (pfndb 1 fun _ => true)).pmmAlloc 0).map Prod.snd
      = some 0 := by decide
  obtain ⟨⟨s, p⟩, halloc, hp⟩ := Option.map_eq_some_iff.mp hpage
  change p = 0 at hp
  subst hp
  have hinit : Reachable 1 (fun _ => true) (pmmInit 1 (pfndb 1 fun _ => true)) [] := .init
  have hrun := hinit.alloc halloc
  obtain ⟨href, s', hfree⟩ := reachable_free_ok hrun List.mem_cons_self
  have hrun' := Reachable.free hrun List.mem_cons_self href hfree
  exact ⟨s, s', halloc, hfree, (reachable_coalesced hrun' hrun').2.2.2 rfl⟩

end Alix.Pmm
