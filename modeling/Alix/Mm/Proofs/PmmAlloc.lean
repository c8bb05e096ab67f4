/-
`pmm_alloc` over whole runs: when it fails, and what it takes.

# What could go wrong

`pmm_alloc` looks at the heads of the free lists only, and never joins two
free blocks. A run of free pages that is spread over two blocks is invisible
to it, so that it finds every aligned run rests on `free_block`: no list may
hold two buddies.

# What holds

It fails if and only if there is no aligned run of free pages of that size
(`Stocked.alloc_none_iff`), and otherwise takes one and nothing else
(`Stocked.alloc_some`). `Stocked` is kept by every step of a run
(`refRun_stocked`), the runs with references included.
-/
import Alix.Mm.Proofs.PageRefs

namespace Alix.Pmm

open Dyadic (Block)
open Function (update update_of_ne)

variable {maxPfn : Nat} {usable : Nat → Bool} {m m' : Pmm} {out : List Block}
  {refs : Nat → Nat} {b : Block} {order p q : Nat} {room : Pmm → Nat → Prop}

-- ==== the invariant

/-- The free lists hold the usable pages that are not out, two buddies are
never both on a list, and `free_page_count` counts the pages listed. -/
def Stocked (maxPfn : Nat) (usable : Nat → Bool) (m : Pmm) (out : List Block) : Prop :=
  ∃ L, Buddy m L out (Usable maxPfn usable) ∧ Merged L ∧ m.freePageCount = listedPages L

theorem RunInv.stocked {L : Nat → List Nat} (h : RunInv maxPfn usable m out L) :
    Stocked maxPfn usable m out :=
  ⟨L, h.buddy, h.merged, h.count⟩

theorem Stocked.alloc (h : Stocked maxPfn usable m out)
    (ha : m.pmmAlloc order = some (m', p)) :
    Stocked maxPfn usable m' (⟨p, order⟩ :: out) := by
  obtain ⟨L, hL, hmerged, hcount⟩ := h
  obtain ⟨L', spec⟩ := pmmAlloc_spec hL ha
  refine ⟨L', spec.buddy, spec.merged hmerged, ?_⟩
  have hpages := spec.pages
  rw [spec.count, hcount]
  omega

/-- A new count on a page of a block that is out. -/
theorem Stocked.write (h : Stocked maxPfn usable m out) (hb : b ∈ out) (hq : q ∈ b)
    {f : Page → Page} (hf : ∀ p, f p = { p with refcount := (f p).refcount }) :
    Stocked maxPfn usable (m.modPage q f) out := by
  obtain ⟨L, hL, hmerged, hcount⟩ := h
  refine ⟨L, hL.write hb hq (fun p => by rw [hf p]) (fun p => by rw [hf p]) ?_, hmerged,
    hcount⟩
  have hflags : (f (m.pages q)).flags = (m.pages q).flags := by rw [hf]
  unfold Page.free
  rw [hflags]
  exact hL.held_not_free hb hq

/-- The last count of a block. -/
theorem Stocked.free (h : Stocked maxPfn usable m out) (hl : Ledger maxPfn usable m out refs)
    (hb : b ∈ out) (hone : (m.pages b.base).refcount = 1)
    (hfree : m.pmmFree (some b.base) = .ok m') :
    Stocked maxPfn usable m' (out.erase b) := by
  obtain ⟨L, hL, hmerged, hcount⟩ := h
  obtain ⟨L', spec⟩ := hl.freed hb hL hone hfree
  refine ⟨L', spec.buddy, spec.merged hmerged, ?_⟩
  rw [spec.count, hcount, spec.pages]

-- ==== the runs

/-- Every step of a run with references keeps the free lists stocked. -/
theorem refRun_stocked (h : RefRun HeadLast room maxPfn usable m out refs) :
    Stocked maxPfn usable m out := by
  induction h with
  | init =>
      obtain ⟨L, hinv⟩ := @runInv_init maxPfn usable
      exact hinv.stocked
  | alloc _ ha ih => exact ih.alloc ha
  | inc _ hb hq _ ih => exact ih.write hb hq fun _ => rfl
  | @free m m' out refs q hrun hpos hlast hfree ih =>
      have hcounted := refRun_counted hrun
      obtain ⟨b, hb, hq⟩ := hcounted.out q hpos
      unfold outAfter
      by_cases hone : (m.pages q).refcount = 1
      · -- a page behind a head has a count of two at least
        have hhead : q = b.base := by
          by_contra hne
          have := hcounted.body b hb q hq hne
          omega
        subst hhead
        rw [if_pos hone, (hcounted.ledger.head b hb).2.1]
        exact ih.free hcounted.ledger hb hone hfree
      · rw [if_neg hone, hcounted.free_eq hb hq hone hfree]
        exact ih.write hb hq fun _ => rfl

-- ==== the free set

theorem Stocked.mem_freeFrames (h : Stocked maxPfn usable m out) :
    q ∈ m.freeFrames ↔ Usable maxPfn usable q ∧ ¬ Allocated out q := by
  obtain ⟨L, hL, -, -⟩ := h
  exact Core.free_iff hL q

/-- `pmm_alloc` finds a run of free pages wherever there is one: the run is
inside one block, and the search comes to the list of that block. -/
theorem Stocked.alloc_none_iff (h : Stocked maxPfn usable m out)
    (ho : order < PMM_MAX_ORDER) :
    m.pmmAlloc order = none
      ↔ ¬ ∃ p, 2 ^ order ∣ p ∧ ∀ q ∈ Block.mk p order, q ∈ m.freeFrames := by
  constructor
  · intro ha hrun
    obtain ⟨p, hal, hfree⟩ := hrun
    obtain ⟨L, hL, hmerged, -⟩ := id h
    have hinside : ∀ q ∈ Block.mk p order, Usable maxPfn usable q ∧ ¬ Allocated out q :=
      fun q hq => h.mem_freeFrames.mp (hfree q hq)
    obtain ⟨c, hc, hle, -⟩ := hL.partition.inside_one hmerged order p ho hal hinside
    unfold pmmAlloc at ha
    rw [if_neg (by omega)] at ha
    have hlt : c.order < order + (PMM_MAX_ORDER - order) := by
      have := hc.1
      omega
    have hhead := allocFrom_none _ _ ha c.order hle hlt
    rw [hL.head _ hc.1] at hhead
    have hnil := List.head?_eq_none_iff.mp hhead
    have hmem := hc.2
    rw [hnil] at hmem
    cases hmem
  · intro hno
    cases ha : m.pmmAlloc order with
    | none => rfl
    | some r =>
        obtain ⟨m', p⟩ := r
        obtain ⟨L, hL, -, -⟩ := id h
        obtain ⟨L', spec⟩ := pmmAlloc_spec hL ha
        refine absurd ⟨p, (spec.buddy.fits _ (Or.inr List.mem_cons_self)).1, fun q hq => ?_⟩ hno
        obtain ⟨c, hc, hqc⟩ := spec.was_free q hq
        exact ⟨c, (Core.freeBlock_iff hL c).mpr hc, hqc⟩

/-- What `pmm_alloc` hands out. -/
theorem Stocked.alloc_some (h : Stocked maxPfn usable m out)
    (ha : m.pmmAlloc order = some (m', p)) :
    2 ^ order ∣ p ∧ (∀ q ∈ Block.mk p order, q ∈ m.freeFrames)
      ∧ (m'.pages p).refcount = 1 ∧ (m'.pages p).order = order
      ∧ m'.freeFrames = m.freeFrames \ {q | q ∈ Block.mk p order}
      ∧ m'.freePageCount + 2 ^ order = m.freePageCount := by
  obtain ⟨L, hL, -, hcount⟩ := id h
  obtain ⟨L', spec⟩ := pmmAlloc_spec hL ha
  obtain ⟨-, hord, href⟩ := spec.stamp p (Block.base_mem ⟨p, order⟩)
  have hfree : ∀ q ∈ Block.mk p order, q ∈ m.freeFrames := by
    intro q hq
    obtain ⟨c, hc, hqc⟩ := spec.was_free q hq
    exact ⟨c, (Core.freeBlock_iff hL c).mpr hc, hqc⟩
  refine ⟨(spec.buddy.fits _ (Or.inr List.mem_cons_self)).1, hfree, href, hord, ?_, ?_⟩
  · ext q
    have hcons : Allocated (⟨p, order⟩ :: out) q ↔ q ∈ Block.mk p order ∨ Allocated out q := by
      unfold Allocated
      simp only [List.mem_cons, exists_eq_or_imp]
    show q ∈ m'.freeFrames ↔ q ∈ m.freeFrames ∧ ¬ q ∈ Block.mk p order
    rw [(h.alloc ha).mem_freeFrames, h.mem_freeFrames, hcons]
    tauto
  · have hpages := spec.pages
    rw [spec.count, hcount]
    show listedPages L - 2 ^ order + 2 ^ order = listedPages L
    have hle : listedPages L' + 2 ^ order = listedPages L := hpages
    omega

-- ==== the statement

/-- `pmm_alloc` in every state of a run: it fails exactly when no aligned
run of `2^order` pages is free, and what it returns is the head of one,
which alone leaves the free pages. -/
theorem refRun_alloc_iff (h : RefRun HeadLast (fun _ _ => True) maxPfn usable m out refs)
    (ho : order < PMM_MAX_ORDER) :
    (m.pmmAlloc order = none
        ↔ ¬ ∃ p, 2 ^ order ∣ p ∧ ∀ q ∈ Block.mk p order, q ∈ m.freeFrames)
      ∧ ∀ m' p, m.pmmAlloc order = some (m', p) →
        2 ^ order ∣ p ∧ (∀ q ∈ Block.mk p order, q ∈ m.freeFrames)
          ∧ (m'.pages p).refcount = 1 ∧ (m'.pages p).order = order
          ∧ m'.freeFrames = m.freeFrames \ {q | q ∈ Block.mk p order}
          ∧ m'.freePageCount + 2 ^ order = m.freePageCount :=
  ⟨(refRun_stocked h).alloc_none_iff ho, fun _ _ ha => (refRun_stocked h).alloc_some ha⟩

/-- Four pages, of which the first two are out, with a reference on the
second. -/
def halfOut : Option Pmm :=
  ((pmmInit 3 (pfndb 3 fun _ => true)).pmmAlloc 1).map fun r => r.1.pageRefInc 1

/-- The other two are found, and then no four pages are. -/
theorem refRun_alloc_iff_pair : ∃ m m', halfOut = some m
    ∧ m.pmmAlloc 2 = none
    ∧ (¬ ∃ p, 2 ^ 2 ∣ p ∧ ∀ q ∈ Block.mk p 2, q ∈ m.freeFrames)
    ∧ m.pmmAlloc 1 = some (m', 2) ∧ (∀ q ∈ Block.mk 2 1, q ∈ m.freeFrames)
    ∧ m'.freeFrames = m.freeFrames \ {q | q ∈ Block.mk 2 1} := by
  have hplay : ((pmmInit 3 (pfndb 3 fun _ => true)).pmmAlloc 1).map (fun r =>
      (r.2, ((r.1.pageRefInc 1).pmmAlloc 2).isNone,
        ((r.1.pageRefInc 1).pmmAlloc 1).map Prod.snd)) = some (0, true, some 2) := by
    decide +kernel
  obtain ⟨⟨m, p⟩, halloc, heq⟩ := Option.map_eq_some_iff.mp hplay
  obtain ⟨hp, heq⟩ := Prod.mk.inj heq
  obtain ⟨hnone, hsome⟩ := Prod.mk.inj heq
  obtain ⟨⟨m', p'⟩, halloc', hp'⟩ := Option.map_eq_some_iff.mp hsome
  change p = 0 at hp
  change p' = 2 at hp'
  subst hp hp'
  have hinit : RefRun HeadLast (fun _ _ => True) 3 (fun _ => true) _ _ _ := .init
  have hrun := (hinit.alloc halloc).inc (q := 1) List.mem_cons_self ⟨by decide, by decide⟩ trivial
  have hno : (m.pageRefInc 1).pmmAlloc 2 = none := Option.isNone_iff_eq_none.mp hnone
  obtain ⟨-, hfree, -, -, htaken, -⟩ := (refRun_alloc_iff hrun (by decide)).2 m' 2 halloc'
  refine ⟨m.pageRefInc 1, m', ?_, hno, (refRun_alloc_iff hrun (by decide)).1.mp hno, halloc',
    hfree, htaken⟩
  unfold halfOut
  rw [halloc]
  rfl

end Alix.Pmm
