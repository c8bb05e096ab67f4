/-
The page allocator with references: `page_ref_inc` beside `pmm_alloc` and
`pmm_free`.

`Ledger m out ref` says that the blocks `out` are handed out and that the
head page of each carries `ref` references. It forgets what the runs of
`PmmRun.lean` know about the counters and keeps what a client of the
allocator needs: a block it gets is new, a reference it drops is the last
one or not, and the descriptors of the other blocks do not change.
-/
import Alix.Mm.Proofs.PmmRun

namespace Alix.Pmm

open Dyadic (Block)

/-- The blocks handed out, with their references. -/
structure Ledger (maxPfn : Nat) (usable : Nat → Bool) (m : Pmm)
    (out : List Block) (ref : Nat → Nat) : Prop where
  buddy : ∃ L, Buddy m L out (Usable maxPfn usable)
  bound : m.maxPfn = maxPfn
  head : ∀ b ∈ out, b.order < PMM_MAX_ORDER
    ∧ (m.pages b.base).order = b.order
    ∧ (m.pages b.base).refcount = ref b.base ∧ 0 < ref b.base
  clean : ∀ q, Usable maxPfn usable q →
    (m.pages q).reserved = false ∧ (m.pages q).poisoned = false

variable {maxPfn : Nat} {usable : Nat → Bool} {m m' : Pmm} {out : List Block}
  {ref : Nat → Nat} {b c : Block} {q : Nat}

theorem RunInv.ledger {L : Nat → List Nat} (h : RunInv maxPfn usable m out L) :
    Ledger maxPfn usable m out fun _ => 1 where
  buddy := ⟨L, h.buddy⟩
  bound := h.bound
  head := by
    intro b hb
    obtain ⟨h1, h2, h3⟩ := h.head b hb
    exact ⟨h1, h2, h3, by decide⟩
  clean := h.clean

theorem Ledger.congr (h : Ledger maxPfn usable m out ref) {ref' : Nat → Nat}
    (hr : ∀ b ∈ out, ref' b.base = ref b.base) :
    Ledger maxPfn usable m out ref' := by
  refine ⟨h.buddy, h.bound, fun b hb => ?_, h.clean⟩
  rw [hr b hb]
  exact h.head b hb

theorem Ledger.perm (h : Ledger maxPfn usable m out ref) {out' : List Block}
    (hp : out.Perm out') : Ledger maxPfn usable m out' ref := by
  obtain ⟨L, hL⟩ := h.buddy
  exact ⟨⟨L, Core.perm hL hp⟩, h.bound,
    fun b hb => h.head b (hp.mem_iff.mpr hb), h.clean⟩

theorem Ledger.apart (h : Ledger maxPfn usable m out ref) (hb : b ∈ out)
    (hc : c ∈ out) (hne : b ≠ c) (hq : q ∈ b) : q ∉ c := by
  obtain ⟨L, hL⟩ := h.buddy
  have hp := ((List.perm_cons_erase hb).pairwise_iff
    fun hbc => Block.Apart.symm hbc).mp hL.apartOut
  have hce : c ∈ out.erase b := (List.mem_erase_of_ne hne.symm).mpr hc
  exact ((List.pairwise_cons.mp hp).1 c hce).not_mem hq

theorem Ledger.nodup (h : Ledger maxPfn usable m out ref) : out.Nodup := by
  obtain ⟨L, hL⟩ := h.buddy
  refine hL.apartOut.imp ?_
  intro b c hbc e
  rw [e] at hbc
  exact hbc.not_mem (Block.base_mem c) (Block.base_mem c)

/-- Two blocks with one head are one block. -/
theorem Ledger.head_inj (h : Ledger maxPfn usable m out ref) (hb : b ∈ out)
    (hc : c ∈ out) (he : b.base = c.base) : b = c := by
  by_contra hne
  refine h.apart hb hc hne (Block.base_mem b) ?_
  rw [he]
  exact Block.base_mem c

theorem Ledger.mem_usable (h : Ledger maxPfn usable m out ref) (hb : b ∈ out)
    (hq : q ∈ b) : Usable maxPfn usable q := by
  obtain ⟨L, hL⟩ := h.buddy
  exact (hL.cover q).mp (Or.inr ⟨b, hb, hq⟩)

theorem Ledger.not_free (h : Ledger maxPfn usable m out ref) (hb : b ∈ out)
    (hq : q ∈ b) : (m.pages q).free = false := by
  obtain ⟨L, hL⟩ := h.buddy
  exact hL.held_not_free hb hq

/-- What is usable and not out is free. -/
theorem Ledger.free_iff (h : Ledger maxPfn usable m out ref) (q : Nat) :
    (∃ b, FreeBlock m b ∧ q ∈ b) ↔ Usable maxPfn usable q ∧ ¬ Allocated out q := by
  obtain ⟨L, hL⟩ := h.buddy
  exact Core.free_iff hL q

/-- `pmm_alloc`: a block of new pages with one reference. -/
theorem Ledger.alloc (h : Ledger maxPfn usable m out ref) {order p : Nat}
    (ha : m.pmmAlloc order = some (m', p)) :
    Ledger maxPfn usable m' (⟨p, order⟩ :: out) (Function.update ref p 1)
      ∧ (∀ q ∈ Block.mk p order, ∀ c ∈ out, q ∉ c)
      ∧ ∀ c ∈ out, ∀ q ∈ c, (m'.pages q).data = (m.pages q).data := by
  obtain ⟨L, hL⟩ := h.buddy
  obtain ⟨L', spec⟩ := pmmAlloc_spec hL ha
  have hnew : ∀ q ∈ Block.mk p order, ∀ c ∈ out, q ∉ c := fun q hq c hc hqc =>
    hL.held_not_inFree hc hqc (spec.was_free q hq)
  have hframe : ∀ c ∈ out, ∀ q ∈ c, (m'.pages q).data = (m.pages q).data :=
    fun c hc q hq => spec.frame q (hL.held_not_inFree hc hq)
  refine ⟨⟨⟨L', spec.buddy⟩, spec.maxPfn.trans h.bound, ?_,
    fun q hq => clean_of_foreign (foreign_pmmAlloc ha) (h.clean q hq)⟩, hnew, hframe⟩
  intro c hc
  rcases List.mem_cons.mp hc with rfl | hc
  · obtain ⟨-, ho, hr⟩ := spec.stamp p (Block.base_mem ⟨p, order⟩)
    rw [Function.update_self]
    exact ⟨spec.order_lt, ho, hr, by decide⟩
  · have hne : c.base ≠ p := fun e =>
      hnew p (Block.base_mem ⟨p, order⟩) c hc (by rw [← e]; exact Block.base_mem c)
    obtain ⟨hr, ho, -, -⟩ :=
      Page.data_eq_iff.mp (hframe c hc c.base (Block.base_mem c))
    rw [Function.update_of_ne hne, hr, ho]
    exact h.head c hc

/-- A write to a descriptor that keeps the links and the order, and sets
none of the flags that the allocator tests on a page it is given. -/
structure Harmless (f : Page → Page) : Prop where
  next : ∀ p, (f p).next = p.next
  prev : ∀ p, (f p).prev = p.prev
  order : ∀ p, (f p).order = p.order
  flags : ∀ i, i = 0 ∨ i = 2 ∨ i = 5 → ∀ p : Page,
    (f p).flags.getLsbD i = true → p.flags.getLsbD i = true

theorem Harmless.comp {f g : Page → Page} (hg : Harmless g) (hf : Harmless f) :
    Harmless fun p => g (f p) where
  next := fun p => (hg.next _).trans (hf.next p)
  prev := fun p => (hg.prev _).trans (hf.prev p)
  order := fun p => (hg.order _).trans (hf.order p)
  flags := fun i hi p hp => hf.flags i hi p (hg.flags i hi _ hp)

theorem harmless_setFlag {n : Nat} (hn : n ≠ 0 ∧ n ≠ 2 ∧ n ≠ 5) :
    Harmless (Page.setFlag (pageBit n)) := by
  refine ⟨fun _ => rfl, fun _ => rfl, fun _ => rfl, fun i hi p hp => ?_⟩
  have hin : n ≠ i := by omega
  unfold Page.setFlag at hp
  simp only [BitVec.getLsbD_or, getLsbD_pageBit, hin, decide_false, Bool.and_false,
    Bool.or_false] at hp
  exact hp

theorem harmless_clearFlag (w : BitVec 64) : Harmless (Page.clearFlag w) := by
  refine ⟨fun _ => rfl, fun _ => rfl, fun _ => rfl, fun i _ p hp => ?_⟩
  unfold Page.clearFlag at hp
  simp only [BitVec.getLsbD_and, Bool.and_eq_true] at hp
  exact hp.1

theorem harmless_priv (x : Nat) : Harmless fun p => { p with priv := x } :=
  ⟨fun _ => rfl, fun _ => rfl, fun _ => rfl, fun _ _ _ hp => hp⟩

theorem harmless_refcount (g : Int → Int) :
    Harmless fun p => { p with refcount := g p.refcount } :=
  ⟨fun _ => rfl, fun _ => rfl, fun _ => rfl, fun _ _ _ hp => hp⟩

/-- A bit that a write does not set. -/
theorem bit_off {p p' : Page} {i : Nat}
    (h : p'.flags.getLsbD i = true → p.flags.getLsbD i = true)
    (hp : p.flags.getLsbD i = false) : p'.flags.getLsbD i = false := by
  rw [Bool.eq_false_iff] at hp ⊢
  exact mt h hp

/-- A write that sets neither flag keeps the pages clean. -/
theorem Ledger.clean_write (h : Ledger maxPfn usable m out ref) {f : Page → Page}
    (hf : Harmless f) (r : Nat) (hq : Usable maxPfn usable q) :
    ((m.modPage r f).pages q).reserved = false ∧ ((m.modPage r f).pages q).poisoned = false := by
  obtain ⟨hr, hp⟩ := h.clean q hq
  by_cases he : q = r
  · subst he
    rw [modPage_pages_self]
    rw [Page.reserved_eq, Page.poisoned_eq] at *
    exact ⟨bit_off (hf.flags 2 (Or.inr (Or.inl rfl)) _) hr,
      bit_off (hf.flags 5 (Or.inr (Or.inr rfl)) _) hp⟩
  · rw [modPage_pages_of_ne m he]
    exact ⟨hr, hp⟩

/-- The owner of a block may write its head descriptor. -/
theorem Ledger.write (h : Ledger maxPfn usable m out ref) (hb : b ∈ out)
    {f : Page → Page} {n : Nat} (hf : Harmless f)
    (href : (f (m.pages b.base)).refcount = n) (hpos : 0 < n) :
    Ledger maxPfn usable (m.modPage b.base f) out (Function.update ref b.base n) := by
  obtain ⟨L, hL⟩ := h.buddy
  have hfree : (f (m.pages b.base)).free = false := by
    have hnot := h.not_free hb (Block.base_mem b)
    rw [Page.free_eq] at hnot ⊢
    exact bit_off (hf.flags 0 (Or.inl rfl) _) hnot
  refine ⟨⟨L, hL.write hb (Block.base_mem b) hf.next hf.prev hfree⟩, h.bound, ?_,
    fun q hq => h.clean_write hf b.base hq⟩
  intro c hc
  by_cases he : c.base = b.base
  · have hcb := h.head_inj hc hb he
    subst hcb
    rw [modPage_pages_self, Function.update_self, hf.order]
    exact ⟨(h.head c hc).1, (h.head c hc).2.1, href, hpos⟩
  · rw [modPage_pages_of_ne m he, Function.update_of_ne he]
    exact h.head c hc

/-- And that of a page behind the head, which the ledger does not count. -/
theorem Ledger.writeBody (h : Ledger maxPfn usable m out ref) (hb : b ∈ out)
    (hq : q ∈ b) (hne : q ≠ b.base) {f : Page → Page} (hf : Harmless f) :
    Ledger maxPfn usable (m.modPage q f) out ref := by
  obtain ⟨L, hL⟩ := h.buddy
  have hnot := h.not_free hb hq
  have hfree : (f (m.pages q)).free = false := by
    rw [Page.free_eq] at hnot ⊢
    exact bit_off (hf.flags 0 (Or.inl rfl) _) hnot
  refine ⟨⟨L, hL.write hb hq hf.next hf.prev hfree⟩, h.bound, fun c hc => ?_,
    fun r hr => h.clean_write hf q hr⟩
  have hcq : c.base ≠ q := by
    intro e
    by_cases hcb : c = b
    · rw [hcb] at e
      exact hne e.symm
    · refine h.apart hb hc (Ne.symm hcb) hq ?_
      rw [← e]
      exact Block.base_mem c
  rw [modPage_pages_of_ne m hcq]
  exact h.head c hc

/-- A write of the head that keeps the references. -/
theorem Ledger.touch (h : Ledger maxPfn usable m out ref) (hb : b ∈ out)
    {f : Page → Page} (hf : Harmless f) (href : ∀ q, (f q).refcount = q.refcount) :
    Ledger maxPfn usable (m.modPage b.base f) out ref := by
  obtain ⟨-, -, hr, hpos⟩ := h.head b hb
  have hw := h.write hb hf (by rw [href, hr]) hpos
  rwa [Function.update_eq_self] at hw

theorem Ledger.refInc (h : Ledger maxPfn usable m out ref) (hb : b ∈ out) :
    Ledger maxPfn usable (m.pageRefInc b.base) out
      (Function.update ref b.base (ref b.base + 1)) := by
  obtain ⟨-, -, hr, hpos⟩ := h.head b hb
  refine h.write hb (harmless_refcount (· + 1)) ?_ (by omega)
  show (m.pages b.base).refcount + 1 = _
  rw [hr]
  push_cast
  rfl

/-- Setting a flag bit that the allocator does not test on a free page. -/
theorem Ledger.setFlag (h : Ledger maxPfn usable m out ref) (hb : b ∈ out)
    {n : Nat} (hn : n ≠ 0 ∧ n ≠ 2 ∧ n ≠ 5) :
    Ledger maxPfn usable (m.modPage b.base (Page.setFlag (pageBit n))) out ref :=
  h.touch hb (harmless_setFlag hn) fun _ => rfl

theorem Ledger.clearFlag (h : Ledger maxPfn usable m out ref) (hb : b ∈ out)
    (w : BitVec 64) :
    Ledger maxPfn usable (m.modPage b.base (Page.clearFlag w)) out ref :=
  h.touch hb (harmless_clearFlag w) fun _ => rfl

/-- What the free lists are after the last reference on a block. -/
theorem Ledger.freed (h : Ledger maxPfn usable m out ref) (hb : b ∈ out) {L : Nat → List Nat}
    (hL : Buddy m L out (Usable maxPfn usable)) (hone : (m.pages b.base).refcount = 1)
    (hfree : m.pmmFree (some b.base) = .ok m') :
    ∃ L', FreeSpec m m' L L' (out.erase b) (Usable maxPfn usable) b := by
  obtain ⟨hlt, hord, -, -⟩ := h.head b hb
  obtain ⟨hres, hpoi⟩ := h.clean b.base (h.mem_usable hb (Block.base_mem b))
  obtain ⟨m₁, L', hok, spec⟩ := pmmFree_last hL hb hlt hord hres hpoi hone
  obtain rfl : m₁ = m' := Except.ok.inj (hok.symm.trans hfree)
  exact ⟨L', spec⟩

/-- `pmm_free` drops one reference, and with the last one the block. -/
theorem Ledger.drop (h : Ledger maxPfn usable m out ref) (hb : b ∈ out) :
    ∃ m', m.pmmFree (some b.base) = .ok m'
      ∧ Ledger maxPfn usable m' (if ref b.base = 1 then out.erase b else out)
        (Function.update ref b.base (ref b.base - 1))
      ∧ ∀ c ∈ out, c ≠ b → ∀ q ∈ c, (m'.pages q).data = (m.pages q).data := by
  obtain ⟨ho, hord, href, hpos⟩ := h.head b hb
  obtain ⟨hres, hpoi⟩ := h.clean b.base (h.mem_usable hb (Block.base_mem b))
  have hfree := h.not_free hb (Block.base_mem b)
  by_cases hone : ref b.base = 1
  · obtain ⟨L, hL⟩ := h.buddy
    obtain ⟨m', L', hok, spec⟩ := pmmFree_last hL hb ho hord hres hpoi
      (by rw [href, hone]; rfl)
    have hframe : ∀ c ∈ out, c ≠ b → ∀ q ∈ c,
        (m'.pages q).data = (m.pages q).data := fun c hc hne q hq =>
      spec.frame q (hL.held_not_inFree hc hq) (h.apart hc hb hne hq)
    refine ⟨m', hok, ?_, hframe⟩
    rw [if_pos hone]
    refine ⟨⟨L', spec.buddy⟩, spec.maxPfn.trans h.bound, fun c hc => ?_,
      fun q hq => clean_of_foreign (foreign_pmmFree hok) (h.clean q hq)⟩
    have hcout := List.mem_of_mem_erase hc
    have hne : c ≠ b := by
      rintro rfl
      exact h.nodup.not_mem_erase hc
    have hbase : c.base ≠ b.base := fun e => hne (h.head_inj hcout hb e)
    obtain ⟨hr, ho', -, -⟩ :=
      Page.data_eq_iff.mp (hframe c hcout hne c.base (Block.base_mem c))
    rw [Function.update_of_ne hbase, hr, ho']
    exact h.head c hcout
  · have hne : (m.pages b.base).refcount ≠ 1 := by
      rw [href]
      intro e
      exact hone (by exact_mod_cast e)
    refine ⟨m.pageRefDec b.base, ?_, ?_, ?_⟩
    · unfold pmmFree
      simp only [hres, hpoi, hfree, Bool.or_self, Bool.false_eq_true, if_false, hne]
    · rw [if_neg hone]
      refine h.write hb (harmless_refcount (· - 1)) ?_ (by omega)
      show (m.pages b.base).refcount - 1 = _
      rw [href]
      omega
    · intro c hc hcb q hq
      have hqb : q ≠ b.base := by
        rintro rfl
        exact h.apart hc hb hcb hq (Block.base_mem b)
      unfold pageRefDec
      rw [modPage_pages_of_ne m hqb]

/-- `pmm_alloc` does not touch the pages that are not the allocator's. -/
theorem Ledger.alloc_outside (h : Ledger maxPfn usable m out ref) {order p : Nat}
    (ha : m.pmmAlloc order = some (m', p)) (hq : ¬ Usable maxPfn usable q) :
    (m'.pages q).data = (m.pages q).data := by
  obtain ⟨L, hL⟩ := h.buddy
  obtain ⟨L', spec⟩ := pmmAlloc_spec hL ha
  exact spec.frame q fun hin => hq ((hL.cover q).mp (Or.inl hin))

/-- Nor does `pmm_free`. -/
theorem Ledger.drop_outside (h : Ledger maxPfn usable m out ref) (hb : b ∈ out)
    (hok : m.pmmFree (some b.base) = .ok m') (hq : ¬ Usable maxPfn usable q) :
    (m'.pages q).data = (m.pages q).data := by
  have hqb : q ∉ b := fun hc => hq (h.mem_usable hb hc)
  by_cases hone : (m.pages b.base).refcount = 1
  · obtain ⟨L, hL⟩ := h.buddy
    obtain ⟨L', spec⟩ := h.freed hb hL hone hok
    exact spec.frame q (fun hc => hq ((hL.cover q).mp (Or.inl hc))) hqb
  · obtain ⟨hres, hpoi⟩ := h.clean b.base (h.mem_usable hb (Block.base_mem b))
    have hfree := h.not_free hb (Block.base_mem b)
    unfold pmmFree at hok
    simp only [hres, hpoi, hfree, Bool.or_self, Bool.false_eq_true, if_false, hone] at hok
    cases hok
    have hne : q ≠ b.base := by
      rintro rfl
      exact hqb (Block.base_mem b)
    unfold pageRefDec
    rw [modPage_pages_of_ne m hne]

/-- A write to any page of a block that leaves the allocator's fields. -/
theorem Ledger.stamp (h : Ledger maxPfn usable m out ref) (hq : Allocated out q)
    {f : Page → Page} (hf : Harmless f)
    (hpos : 0 < (m.pages q).refcount → 0 < (f (m.pages q)).refcount) :
    ∃ ref', Ledger maxPfn usable (m.modPage q f) out ref' := by
  obtain ⟨b, hb, hqb⟩ := hq
  by_cases hhead : ∃ c ∈ out, c.base = q
  · obtain ⟨c, hc, rfl⟩ := hhead
    have hc0 := (h.head c hc).2.2
    have hnew := hpos (by rw [hc0.1]; exact_mod_cast hc0.2)
    exact ⟨_, h.write hc (n := (f (m.pages c.base)).refcount.toNat) hf (by omega)
      (by omega)⟩
  · -- a page in the middle of a block
    exact ⟨ref, h.writeBody hb hqb (fun e => hhead ⟨b, hb, e.symm⟩) hf⟩

/-- `pmm_free` of a page with more than one reference takes one. -/
theorem Ledger.free_more (h : Ledger maxPfn usable m out ref) (hq : Allocated out q)
    (hmore : 1 < (m.pages q).refcount) :
    m.pmmFree (some q) = .ok (m.pageRefDec q)
      ∧ ∃ ref', Ledger maxPfn usable (m.pageRefDec q) out ref' := by
  obtain ⟨b, hb, hqb⟩ := hq
  obtain ⟨hres, hpoi⟩ := h.clean q (h.mem_usable hb hqb)
  refine ⟨?_, h.stamp ⟨b, hb, hqb⟩ (harmless_refcount (· - 1)) fun _ => ?_⟩
  · unfold pmmFree
    simp only [hres, hpoi, h.not_free hb hqb, Bool.or_self, Bool.false_eq_true, if_false,
      show (m.pages q).refcount ≠ 1 by omega]
  · show 0 < (m.pages q).refcount - 1
    omega

end Alix.Pmm
