/-
The flags of the pages that `pmm_alloc` hands out.

# What goes wrong

The head of a block is to be handed out as `PAGE_USED`, or as `PAGE_USED`
and `PAGE_LARGE_HEAD` if there are pages behind it. But neither side wipes
the word. `free_block` clears the flags of the allocator and leaves the
others, so a page that `vas_clone` marked is still marked when it comes
back. And the loop that splits a block marks each upper half
`PAGE_LARGE_HEAD`, the last one too, which is a single page, and for a
single page `pmm_alloc` does not clear the flag: the first allocation of a
page after the boot has it (`pageRun_unclean`).

# What holds

As long as no single page is cut out of a larger block and no page goes
back with `PAGE_COW`, the heads on the lists have the flags of free blocks
and no others (`Tended`), and each block is handed out clean. From there,
an allocation is unclean if and only if it cuts (`pageRun_clean_iff`).

The runs are those of the owners of pages, and their steps are what the
calls do to the page database: `slab_create` allocates and labels,
`slab_destroy` takes the label off and frees, and `vas_clone` takes
references, marks pages and allocates tables.
-/
import Alix.Mm.Proofs.PageRefs
import Alix.Mm.Proofs.HeapRun

namespace Alix.Pmm

open Dyadic (Block)
open Function (update update_self update_of_ne)
open Vm (markPage)

-- ==== the runs

/-- What the owners of pages do to the page database. -/
inductive PageOp where
  | alloc (order : Nat)
  | inc (q : Nat)
  | free (q : Nat)
  /-- `PAGE_COW`, which `vas_clone` sets and the fault handler clears -/
  | cow (q : Nat) (on : Bool)
  /-- `PAGE_SLAB` and the private word -/
  | label (q : Nat) (slab : Bool) (priv : Nat)

def cowPage (on : Bool) (p : Page) : Page :=
  if on then p.setFlag PAGE_COW else p.clearFlag PAGE_COW

/-- The runs. A page is labelled and marked by an owner of its block. A
reference is dropped by one who has it, the last one on the head of a block
after those behind it, and that of the heap on a slab when the label is
off: `slabs` are the pages that have it. -/
inductive PageRun (may : Pmm → PageOp → Prop) (maxPfn : Nat) (usable : Nat → Bool) :
    Pmm → List Block → (Nat → Nat) → (Nat → Bool) → Prop
  | init : PageRun may maxPfn usable (pmmInit maxPfn (pfndb maxPfn usable)) []
      (fun _ => 0) fun _ => false
  | alloc {m m' : Pmm} {out : List Block} {refs : Nat → Nat} {slabs : Nat → Bool}
      {order p : Nat} :
      PageRun may maxPfn usable m out refs slabs → may m (.alloc order) →
      m.pmmAlloc order = some (m', p) →
      PageRun may maxPfn usable m' (⟨p, order⟩ :: out) (update refs p (refs p + 1)) slabs
  | inc {m : Pmm} {out : List Block} {refs : Nat → Nat} {slabs : Nat → Bool} {b : Block}
      {q : Nat} :
      PageRun may maxPfn usable m out refs slabs → may m (.inc q) → b ∈ out → q ∈ b →
      PageRun may maxPfn usable (m.pageRefInc q) out (update refs q (refs q + 1)) slabs
  | free {m m' : Pmm} {out : List Block} {refs : Nat → Nat} {slabs : Nat → Bool} {q : Nat} :
      PageRun may maxPfn usable m out refs slabs → may m (.free q) → 0 < refs q →
      HeadLast out refs q → (slabs q = true → 2 ≤ refs q) → m.pmmFree (some q) = .ok m' →
      PageRun may maxPfn usable m' (outAfter m out q) (update refs q (refs q - 1)) slabs
  | cow {m : Pmm} {out : List Block} {refs : Nat → Nat} {slabs : Nat → Bool} {b : Block}
      {q : Nat} (on : Bool) :
      PageRun may maxPfn usable m out refs slabs → may m (.cow q on) → b ∈ out → q ∈ b →
      PageRun may maxPfn usable (m.modPage q (cowPage on)) out refs slabs
  | label {m : Pmm} {out : List Block} {refs : Nat → Nat} {slabs : Nat → Bool} {b : Block}
      (slab : Bool) (priv : Nat) :
      PageRun may maxPfn usable m out refs slabs → may m (.label b.base slab priv) →
      b ∈ out →
      PageRun may maxPfn usable (m.modPage b.base (markPage slab priv)) out refs
        (update slabs b.base slab)

/-- No single page is cut out of a larger block, and no block goes back
with `PAGE_COW` on its head. -/
def Careful (m : Pmm) : PageOp → Prop
  | .alloc order => m.Uncut order
  | .free q => (m.pages q).refcount = 1 → (m.pages q).cow = false
  | _ => True

variable {maxPfn : Nat} {usable : Nat → Bool} {m m' : Pmm} {out : List Block}
  {refs : Nat → Nat} {slabs : Nat → Bool} {b : Block} {order p q : Nat}

theorem harmless_cowPage (on : Bool) : Harmless (cowPage on) := by
  cases on with
  | false => exact harmless_clearFlag PAGE_COW
  | true => exact harmless_setFlag (by decide)

-- ==== the free blocks

/-- The heads of the free blocks have the flags of free blocks. -/
def PlainFree (m : Pmm) : Prop :=
  ∀ b, FreeBlock m b → (m.pages b.base).flags = listedFlags b.order

theorem Buddy.plain_iff {L : Nat → List Nat} {C : Nat → Prop} (h : Buddy m L out C) :
    Plain m L ↔ PlainFree m := by
  unfold Plain PlainFree
  simp only [Core.freeBlock_iff h]

theorem plainFree_init : PlainFree (pmmInit maxPfn (pfndb maxPfn usable)) := by
  obtain ⟨L, hcore, -, -, -, hplain⟩ := pmmInit_spec maxPfn usable
  intro b hb
  exact hplain b ((hcore.freeBlock_iff b).mp hb)

/-- `pmm_alloc` from lists with plain heads. -/
theorem PlainFree.alloc (h : PlainFree m) (hl : Ledger maxPfn usable m out refs)
    (ha : m.pmmAlloc order = some (m', p)) :
    ((m'.pages p).flags = headFlags order ↔ m.Uncut order)
      ∧ (m.Uncut order → PlainFree m') := by
  obtain ⟨L, hL⟩ := hl.buddy
  obtain ⟨L', spec⟩ := pmmAlloc_spec hL ha
  have hplain := hL.plain_iff.mpr h
  exact ⟨spec.flags hplain, fun huncut => spec.buddy.plain_iff.mp (spec.plain hplain huncut)⟩

/-- The last reference on a block whose head has none but the allocator's
flags. -/
theorem PlainFree.free (h : PlainFree m) (hl : Ledger maxPfn usable m out refs)
    (hb : b ∈ out) (hone : (m.pages b.base).refcount = 1)
    (hown : OwnOnly (m.pages b.base).flags) (hfree : m.pmmFree (some b.base) = .ok m') :
    PlainFree m' := by
  obtain ⟨L, hL⟩ := hl.buddy
  obtain ⟨L', spec⟩ := hl.freed hb hL hone hfree
  exact spec.buddy.plain_iff.mp (spec.plain (hL.plain_iff.mpr h) hown)

/-- What the owner of a page writes to its descriptor is not on the lists. -/
theorem PlainFree.mark (h : PlainFree m) (hl : Ledger maxPfn usable m out refs)
    (hb : b ∈ out) (hq : q ∈ b) {f : Page → Page} (hf : Harmless f) :
    PlainFree (m.modPage q f) := by
  intro c hc
  have hold : FreeBlock m c := by
    unfold FreeBlock at hc ⊢
    rwa [modPage_links m q hf.next hf.prev] at hc
  have hne : c.base ≠ q := fun e => hl.free_or_out hold (e ▸ Block.base_mem c) hb hq
  rw [modPage_pages_of_ne m hne]
  exact h c hold

-- ==== the labels

/-- Apart from the allocator's flags a page has at most `PAGE_COW`, and
`PAGE_SLAB` if it is a slab. -/
def Labelled (maxPfn : Nat) (usable : Nat → Bool) (m : Pmm) (slabs : Nat → Bool) : Prop :=
  ∀ q, Usable maxPfn usable q → ∀ n, ¬ ownBit n → (m.pages q).flags.getLsbD n = true →
    n = 4 ∨ n = 6 ∧ slabs q = true

theorem labelled_init : Labelled maxPfn usable (pmmInit maxPfn (pfndb maxPfn usable))
    fun _ => false := by
  intro q hq n hn hbit
  obtain ⟨L, h⟩ := @runInv_init maxPfn usable
  obtain ⟨hres, -⟩ := h.clean q hq
  rw [Page.reserved_eq] at hres
  by_cases h2 : n = 2
  · rw [h2, hres] at hbit
    cases hbit
  · rw [pmmInit_foreign maxPfn usable q hn h2] at hbit
    cases hbit

theorem Labelled.foreign (h : Labelled maxPfn usable m slabs) (hf : Foreign m m') :
    Labelled maxPfn usable m' slabs :=
  fun q hq n hn hbit => h q hq n hn ((hf q).2 n hn hbit)

theorem Labelled.cow (h : Labelled maxPfn usable m slabs) (r : Nat) (on : Bool) :
    Labelled maxPfn usable (m.modPage r (cowPage on)) slabs := by
  intro q hq n hn hbit
  by_cases hqr : q = r
  · subst hqr
    rw [modPage_pages_self] at hbit
    by_cases h4 : n = 4
    · exact Or.inl h4
    · have h4' : ¬4 = n := fun e => h4 e.symm
      refine h q hq n hn ?_
      cases on with
      | true =>
          simpa only [cowPage, if_true, Page.setFlag, BitVec.getLsbD_or, getLsbD_pageBit, h4',
            decide_false, Bool.and_false, Bool.or_false] using hbit
      | false =>
          simp only [cowPage, Bool.false_eq_true, if_false, Page.clearFlag, BitVec.getLsbD_and,
            Bool.and_eq_true] at hbit
          exact hbit.1
  · rw [modPage_pages_of_ne m hqr] at hbit
    exact h q hq n hn hbit

theorem Labelled.label (h : Labelled maxPfn usable m slabs) (r : Nat) (slab : Bool)
    (priv : Nat) :
    Labelled maxPfn usable (m.modPage r (markPage slab priv)) (update slabs r slab) := by
  intro q hq n hn hbit
  by_cases hqr : q = r
  · subst hqr
    rw [modPage_pages_self] at hbit
    rw [update_self]
    cases slab with
    | true =>
        by_cases h6 : n = 6
        · exact Or.inr ⟨h6, rfl⟩
        · have h6' : ¬6 = n := fun e => h6 e.symm
          simp only [markPage, if_true, Page.setFlag, BitVec.getLsbD_or, getLsbD_pageBit, h6',
            decide_false, Bool.and_false, Bool.or_false] at hbit
          exact Or.inl ((h q hq n hn hbit).resolve_right fun e => h6 e.1)
    | false =>
        simp only [markPage, Bool.false_eq_true, if_false, Page.clearFlag, BitVec.getLsbD_and,
          BitVec.getLsbD_not, getLsbD_pageBit, Bool.and_eq_true] at hbit
        refine Or.inl ((h q hq n hn hbit.1).resolve_right fun e => ?_)
        rw [e.1] at hbit
        simp at hbit
  · rw [modPage_pages_of_ne m hqr] at hbit
    rw [update_of_ne hqr]
    exact h q hq n hn hbit

/-- A page that is no slab and not marked has none but the allocator's
flags. -/
theorem Labelled.own (h : Labelled maxPfn usable m slabs) (hq : Usable maxPfn usable q)
    (hslab : slabs q = false) (hcow : (m.pages q).cow = false) :
    OwnOnly (m.pages q).flags := by
  intro n hn
  rw [Bool.eq_false_iff]
  intro hbit
  rcases h q hq n hn hbit with rfl | ⟨rfl, e⟩
  · unfold Page.cow at hcow
    rw [hasFlag_pageBit _ (by decide), hbit] at hcow
    cases hcow
  · rw [hslab] at e
    cases e

-- ==== the invariant

/-- What a careful run keeps. -/
structure Tended (maxPfn : Nat) (usable : Nat → Bool) (m : Pmm) (out : List Block)
    (refs : Nat → Nat) (slabs : Nat → Bool) : Prop where
  counted : Counted maxPfn usable m out refs
  plain : PlainFree m
  labels : Labelled maxPfn usable m slabs

/-- Writing a label of ours to a page of a block that is out. -/
theorem Tended.mark (h : Tended maxPfn usable m out refs slabs) (hb : b ∈ out) (hq : q ∈ b)
    {f : Page → Page} {slabs' : Nat → Bool} (hf : Harmless f)
    (href : ∀ p, (f p).refcount = p.refcount)
    (hlabels : Labelled maxPfn usable (m.modPage q f) slabs') :
    Tended maxPfn usable (m.modPage q f) out refs slabs' where
  counted := h.counted.mark hb hq hf href
  plain := h.plain.mark h.counted.ledger hb hq hf
  labels := hlabels

theorem Tended.free (h : Tended maxPfn usable m out refs slabs)
    (hmay : (m.pages q).refcount = 1 → (m.pages q).cow = false) (hpos : 0 < refs q)
    (hlast : HeadLast out refs q) (hslab : slabs q = true → 2 ≤ refs q)
    (hfree : m.pmmFree (some q) = .ok m') :
    Tended maxPfn usable m' (outAfter m out q) (update refs q (refs q - 1)) slabs := by
  have hl := h.counted.ledger
  refine ⟨h.counted.free hpos hlast hfree, ?_, h.labels.foreign (foreign_pmmFree hfree)⟩
  obtain ⟨b, hb, hq⟩ := h.counted.out q hpos
  by_cases hone : (m.pages q).refcount = 1
  · have hhead : q = b.base := by
      by_contra hne
      have := h.counted.body b hb q hq hne
      omega
    subst hhead
    have hrefs := (hl.head b hb).2.2.1
    have hno : slabs b.base = false := by
      rw [Bool.eq_false_iff]
      intro e
      have := hslab e
      omega
    exact h.plain.free hl hb hone
      (h.labels.own (hl.mem_usable hb hq) hno (hmay hone)) hfree
  · rw [h.counted.free_eq hb hq hone hfree]
    exact h.plain.mark hl hb hq (harmless_refcount (· - 1))

/-- Every step of a careful run keeps the free blocks plain. -/
theorem pageRun_tended (h : PageRun Careful maxPfn usable m out refs slabs) :
    Tended maxPfn usable m out refs slabs := by
  induction h with
  | init => exact ⟨counted_init, plainFree_init, labelled_init⟩
  | alloc _ hmay ha ih =>
      exact ⟨(ih.counted.alloc ha).2, (ih.plain.alloc ih.counted.ledger ha).2 hmay,
        ih.labels.foreign (foreign_pmmAlloc ha)⟩
  | inc _ _ hb hq ih =>
      refine ⟨ih.counted.inc hb hq, ih.plain.mark ih.counted.ledger hb hq
        (harmless_refcount (· + 1)), ih.labels.foreign ?_⟩
      exact foreign_modPage _ _ (fun _ => rfl) fun _ _ _ hbit => hbit
  | free _ hmay hpos hlast hslab hfree ih => exact ih.free hmay hpos hlast hslab hfree
  | cow on _ _ hb hq ih =>
      exact ih.mark hb hq (harmless_cowPage on) (fun p => by cases on <;> rfl)
        (ih.labels.cow _ on)
  | label slab priv _ _ hb ih =>
      exact ih.mark hb (Block.base_mem _) (Vm.harmless_markPage slab priv)
        (Vm.markPage_refcount slab priv) (ih.labels.label _ slab priv)

-- ==== the statement

/-- In a run that has been careful so far, the next block is clean if and
only if the allocation is careful too. -/
theorem pageRun_clean_iff (h : PageRun Careful maxPfn usable m out refs slabs)
    (ha : m.pmmAlloc order = some (m', p)) :
    (m'.pages p).flags = headFlags order ↔ Careful m (.alloc order) :=
  ((pageRun_tended h).plain.alloc (pageRun_tended h).counted.ledger ha).1

/-- The last reference on the only block that is out is dropped. -/
theorem pageRun_back {may : Pmm → PageOp → Prop} (h : PageRun may maxPfn usable m [⟨p, order⟩]
    (update (fun _ => 0) p 1) fun _ => false) (hmay : may m (.free p))
    (hfree : (m.pmmFree (some p)).toOption = some m') : ∃ out refs slabs,
    m.pmmFree (some p) = .ok m' ∧ PageRun may maxPfn usable m' out refs slabs := by
  cases hok : m.pmmFree (some p) with
  | error e =>
      rw [hok] at hfree
      cases hfree
  | ok m₂ =>
      rw [hok] at hfree
      cases hfree
      exact ⟨_, _, _, rfl, h.free hmay (by simp) (fun _ _ _ _ r _ hne => update_of_ne hne _ _)
        (fun e => by cases e) hok⟩

/-- Two pages are taken, marked, cleared and given back, and the next time
they are handed out clean. -/
theorem pageRun_clean_pair : ∃ m₁ m₂ m₃ p q,
    (pmmInit 1 (pfndb 1 fun _ => true)).pmmAlloc 1 = some (m₁, p)
      ∧ ((m₁.modPage p (cowPage true)).modPage p (cowPage false)).pmmFree (some p) = .ok m₂
      ∧ m₂.pmmAlloc 1 = some (m₃, q) ∧ (m₃.pages q).flags = headFlags 1 := by
  have hplay : ((pmmInit 1 (pfndb 1 fun _ => true)).pmmAlloc 1).bind (fun r =>
      (((r.1.modPage r.2 (cowPage true)).modPage r.2 (cowPage false)).pmmFree
        (some r.2)).toOption.bind fun m => (m.pmmAlloc 1).map fun _ =>
          (((r.1.modPage r.2 (cowPage true)).modPage r.2 (cowPage false)).pages r.2).cow)
      = some false := by
    decide +kernel
  obtain ⟨⟨m₁, p⟩, ha, hrest⟩ := Option.bind_eq_some_iff.mp hplay
  obtain ⟨m₂, hfree, hrest⟩ := Option.bind_eq_some_iff.mp hrest
  obtain ⟨⟨m₃, q⟩, ha', hcow⟩ := Option.map_eq_some_iff.mp hrest
  have hinit : PageRun Careful 1 (fun _ => true) (pmmInit 1 (pfndb 1 fun _ => true)) []
      (fun _ => 0) fun _ => false := .init
  have hmarked := (hinit.alloc (fun e => absurd e (by decide)) ha).cow true trivial
    List.mem_cons_self (Block.base_mem ⟨p, 1⟩)
  have hcleared := hmarked.cow false trivial List.mem_cons_self (Block.base_mem ⟨p, 1⟩)
  obtain ⟨out, refs, slabs, hok, hback⟩ := pageRun_back hcleared (fun _ => hcow) hfree
  exact ⟨m₁, m₂, m₃, p, q, ha, hok, ha',
    (pageRun_clean_iff hback ha').mpr fun e => absurd e (by decide)⟩

/-- But the first single page has `PAGE_LARGE_HEAD`, and a page that comes
back with `PAGE_COW` is handed out with it. -/
theorem pageRun_unclean :
    (∃ m out refs slabs m' p, PageRun (fun _ _ => True) 1 (fun _ => true) m out refs slabs
        ∧ m.pmmAlloc 0 = some (m', p)
        ∧ (m'.pages p).flags = headFlags 0 ||| PAGE_LARGE_HEAD
        ∧ (m'.pages p).flags ≠ headFlags 0)
      ∧ ∃ m out refs slabs m' p, PageRun (fun _ _ => True) 1 (fun _ => true) m out refs slabs
        ∧ m.pmmAlloc 1 = some (m', p) ∧ (m'.pages p).flags = headFlags 1 ||| PAGE_COW
        ∧ (m'.pages p).flags ≠ headFlags 1 := by
  have hinit : PageRun (fun _ _ => True) 1 (fun _ => true) (pmmInit 1 (pfndb 1 fun _ => true))
      [] (fun _ => 0) fun _ => false := .init
  constructor
  · have hflags : ((pmmInit 1 (pfndb 1 fun _ => true)).pmmAlloc 0).map
        (fun r => (r.1.pages r.2).flags) = some (headFlags 0 ||| PAGE_LARGE_HEAD) := by
      decide +kernel
    obtain ⟨⟨m', p⟩, ha, hp⟩ := Option.map_eq_some_iff.mp hflags
    have hp' : (m'.pages p).flags = headFlags 0 ||| PAGE_LARGE_HEAD := hp
    exact ⟨_, _, _, _, m', p, hinit, ha, hp', by rw [hp']; decide⟩
  · -- both pages are taken, marked and given back, and taken again
    have hflags : ((pmmInit 1 (pfndb 1 fun _ => true)).pmmAlloc 1).bind (fun r =>
        ((r.1.modPage r.2 (cowPage true)).pmmFree (some r.2)).toOption.bind fun m =>
          (m.pmmAlloc 1).map fun r' => (r'.1.pages r'.2).flags)
        = some (headFlags 1 ||| PAGE_COW) := by decide +kernel
    obtain ⟨⟨m₁, p₁⟩, ha₁, hflags⟩ := Option.bind_eq_some_iff.mp hflags
    obtain ⟨m₂, hfree, hflags⟩ := Option.bind_eq_some_iff.mp hflags
    obtain ⟨⟨m', p⟩, ha, hp⟩ := Option.map_eq_some_iff.mp hflags
    have hp' : (m'.pages p).flags = headFlags 1 ||| PAGE_COW := hp
    have hmarked := (hinit.alloc trivial ha₁).cow true trivial List.mem_cons_self
      (Block.base_mem ⟨p₁, 1⟩)
    obtain ⟨out, refs, slabs, -, hback⟩ := pageRun_back hmarked trivial hfree
    exact ⟨_, _, _, _, m', p, hback, ha, hp', by rw [hp']; decide⟩

end Alix.Pmm
