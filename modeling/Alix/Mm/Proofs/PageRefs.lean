/-
References on the pages of a block.

# What can go wrong

`pmm_alloc` gives every page of a block a count of one, and
`page_ref_inc` may be called on any of them. `pmm_free` counts down the
page it is given. For a page behind the head that is all it ever does,
since the count that `pmm_alloc` put there is nobody's reference; for the
head, the last reference gives the whole block back and overwrites the
counts of the pages behind it (`free_head_lists_body`).

# The invariant

The count of a head is its references, and the count of a page behind it
is one more than its references; every page with a reference is in a block
that is handed out.

A count is a number here and an `int` in the source, which are the same as
long as the number is one of an `int`. It is, in the runs in which no
reference is taken on a page whose count is the largest (`CountsFit`).
-/
import Alix.Mm.Proofs.Ledger

namespace Alix.Pmm

open Dyadic (Block)
open Function (update update_self update_of_ne)

variable {maxPfn : Nat} {usable : Nat → Bool} {m m' : Pmm} {out : List Block}
  {refs : Nat → Nat} {b c : Block} {q : Nat} {room : Pmm → Nat → Prop}

-- ==== the statement

/-- The blocks that are out after `pmm_free(q)`: the last count of a page
gives back the block of its order. -/
def outAfter (m : Pmm) (out : List Block) (q : Nat) : List Block :=
  if (m.pages q).refcount = 1 then out.erase ⟨q, (m.pages q).order⟩ else out

/-- The runs of `pmm_alloc`, `page_ref_inc` on a page of a block that is
out, and `pmm_free` of a reference, on the page it was taken on. `refs`
counts the references; the first one on a block is on its head. `may` says
which pages may be freed, and `room` on which a reference may be taken. -/
inductive RefRun (may : List Block → (Nat → Nat) → Nat → Prop) (room : Pmm → Nat → Prop)
    (maxPfn : Nat) (usable : Nat → Bool) : Pmm → List Block → (Nat → Nat) → Prop
  | init : RefRun may room maxPfn usable (pmmInit maxPfn (pfndb maxPfn usable)) []
      fun _ => 0
  | alloc {m m' : Pmm} {out : List Block} {refs : Nat → Nat} {order p : Nat} :
      RefRun may room maxPfn usable m out refs → m.pmmAlloc order = some (m', p) →
      RefRun may room maxPfn usable m' (⟨p, order⟩ :: out) (update refs p (refs p + 1))
  | inc {m : Pmm} {out : List Block} {refs : Nat → Nat} {b : Block} {q : Nat} :
      RefRun may room maxPfn usable m out refs → b ∈ out → q ∈ b → room m q →
      RefRun may room maxPfn usable (m.pageRefInc q) out (update refs q (refs q + 1))
  | free {m m' : Pmm} {out : List Block} {refs : Nat → Nat} {q : Nat} :
      RefRun may room maxPfn usable m out refs → 0 < refs q → may out refs q →
      m.pmmFree (some q) = .ok m' →
      RefRun may room maxPfn usable m' (outAfter m out q) (update refs q (refs q - 1))

/-- The last reference on the head of a block is dropped after those on the
pages behind it. -/
def HeadLast (out : List Block) (refs : Nat → Nat) (q : Nat) : Prop :=
  ∀ b ∈ out, b.base = q → refs q = 1 → ∀ r ∈ b, r ≠ q → refs r = 0

/-- The count of the page is not the largest `int`. -/
def IntRoom (m : Pmm) (q : Nat) : Prop := (m.pages q).refcount < 2 ^ 31 - 1

/-- The counts of the pages that are out are positive and fit an `int`. -/
def CountsFit (m : Pmm) (out : List Block) : Prop :=
  ∀ b ∈ out, ∀ q ∈ b, 0 < (m.pages q).refcount ∧ (m.pages q).refcount < 2 ^ 31

/-- No page with a reference is on a free list. -/
def RefsHeld (m : Pmm) (refs : Nat → Nat) : Prop :=
  ∀ b, FreeBlock m b → ∀ q ∈ b, refs q = 0

-- ==== the invariant

/-- The counts agree with the references. -/
structure Counted (maxPfn : Nat) (usable : Nat → Bool) (m : Pmm)
    (out : List Block) (refs : Nat → Nat) : Prop where
  ledger : Ledger maxPfn usable m out refs
  body : ∀ b ∈ out, ∀ q ∈ b, q ≠ b.base → (m.pages q).refcount = refs q + 1
  out : ∀ q, 0 < refs q → ∃ b ∈ out, q ∈ b

theorem Ledger.free_or_out (h : Ledger maxPfn usable m out refs)
    (hf : FreeBlock m c) (hq : q ∈ c) (hb : b ∈ out) : q ∉ b := by
  obtain ⟨L, hL⟩ := h.buddy
  intro hqb
  refine hL.held_not_inFree hb hqb ⟨c, ⟨hf.1, ?_⟩, hq⟩
  have hreached := hf.2
  rw [hL.head _ hf.1] at hreached
  exact (hL.list _ hf.1).reached_iff.mp hreached

theorem Counted.held (h : Counted maxPfn usable m out refs) : RefsHeld m refs := by
  intro c hc q hq
  by_contra hne
  obtain ⟨b, hb, hqb⟩ := h.out q (by omega)
  exact h.ledger.free_or_out hc hq hb hqb

-- ==== the calls

theorem Counted.alloc (h : Counted maxPfn usable m out refs) {order p : Nat}
    (ha : m.pmmAlloc order = some (m', p)) :
    (∀ q ∈ Block.mk p order, refs q = 0)
      ∧ Counted maxPfn usable m' (⟨p, order⟩ :: out) (update refs p (refs p + 1)) := by
  obtain ⟨hledger, hnew, hframe⟩ := h.ledger.alloc ha
  obtain ⟨L, hL⟩ := h.ledger.buddy
  obtain ⟨L', spec⟩ := pmmAlloc_spec hL ha
  have hzero : ∀ q ∈ Block.mk p order, refs q = 0 := by
    intro q hq
    by_contra hne
    obtain ⟨c, hc, hqc⟩ := h.out q (by omega)
    exact hnew q hq c hc hqc
  have hp := Block.base_mem ⟨p, order⟩
  rw [hzero p hp]
  refine ⟨hzero, hledger, fun c hc q hq hne => ?_, fun q hq => ?_⟩
  · rcases List.mem_cons.mp hc with rfl | hcout
    · rw [update_of_ne hne, hzero q hq, (spec.stamp q hq).2.2]
      rfl
    · have hqp : q ≠ p := by
        rintro rfl
        exact hnew q hp c hcout hq
      rw [update_of_ne hqp, (Page.data_eq_iff.mp (hframe c hcout q hq)).1]
      exact h.body c hcout q hq hne
  · by_cases hqp : q = p
    · exact ⟨_, List.mem_cons_self, hqp ▸ hp⟩
    · rw [update_of_ne hqp] at hq
      obtain ⟨c, hc, hqc⟩ := h.out q hq
      exact ⟨c, List.mem_cons_of_mem _ hc, hqc⟩

/-- A count that changes with the references on one page. -/
theorem Counted.write (h : Counted maxPfn usable m out refs) (hb : b ∈ out)
    (hq : q ∈ b) {f : Page → Page} {n : Nat} (hf : Harmless f)
    (hn : (f (m.pages q)).refcount + refs q = (m.pages q).refcount + n)
    (hpos : q = b.base → 0 < n) :
    Counted maxPfn usable (m.modPage q f) out (update refs q n) := by
  have hbody : ∀ c ∈ out, ∀ r ∈ c, r ≠ c.base →
      ((m.modPage q f).pages r).refcount = update refs q n r + 1 := by
    intro c hc r hr hne
    have hold := h.body c hc r hr hne
    by_cases hrq : r = q
    · rw [hrq] at hold ⊢
      rw [modPage_pages_self, update_self]
      omega
    · rw [modPage_pages_of_ne m hrq, update_of_ne hrq]
      exact hold
  have hout : ∀ r, 0 < update refs q n r → ∃ c ∈ out, r ∈ c := by
    intro r hr
    by_cases hrq : r = q
    · exact ⟨b, hb, hrq ▸ hq⟩
    · rw [update_of_ne hrq] at hr
      exact h.out r hr
  by_cases hhead : q = b.base
  · subst hhead
    have href := (h.ledger.head b hb).2.2.1
    exact ⟨h.ledger.write hb hf (by omega) (hpos rfl), hbody, hout⟩
  · refine ⟨(h.ledger.writeBody hb hq hhead hf).congr fun c hc => update_of_ne ?_ _ _,
      hbody, hout⟩
    intro e
    by_cases hcb : c = b
    · rw [hcb] at e
      exact hhead e.symm
    · exact h.ledger.apart hb hc (Ne.symm hcb) hq (by rw [← e]; exact Block.base_mem c)

theorem Counted.inc (h : Counted maxPfn usable m out refs) (hb : b ∈ out)
    (hq : q ∈ b) :
    Counted maxPfn usable (m.pageRefInc q) out (update refs q (refs q + 1)) := by
  refine h.write hb hq (harmless_refcount (· + 1)) ?_ fun _ => Nat.succ_pos _
  show (m.pages q).refcount + 1 + refs q = _
  push_cast
  omega

/-- The owner of a page may label it. -/
theorem Counted.mark (h : Counted maxPfn usable m out refs) (hb : b ∈ out)
    (hq : q ∈ b) {f : Page → Page} (hf : Harmless f)
    (href : ∀ p, (f p).refcount = p.refcount) :
    Counted maxPfn usable (m.modPage q f) out refs := by
  have hpos : q = b.base → 0 < refs q := fun e => e ▸ (h.ledger.head b hb).2.2.2
  have hw := h.write hb hq (n := refs q) hf (by rw [href]) hpos
  rwa [Function.update_eq_self] at hw

/-- `pmm_free` of a page whose count is not the last only counts down. -/
theorem Counted.free_eq (h : Counted maxPfn usable m out refs) (hb : b ∈ out)
    (hq : q ∈ b) (hne : (m.pages q).refcount ≠ 1)
    (hfree : m.pmmFree (some q) = .ok m') : m' = m.pageRefDec q := by
  obtain ⟨hres, hpoi⟩ := h.ledger.clean q (h.ledger.mem_usable hb hq)
  have hnot := h.ledger.not_free hb hq
  unfold pmmFree at hfree
  simp only [hres, hpoi, hnot, Bool.or_self, Bool.false_eq_true, if_false, hne] at hfree
  cases hfree
  rfl

/-- A reference is dropped, and the block with the last one. -/
theorem Counted.free (h : Counted maxPfn usable m out refs) (hpos : 0 < refs q)
    (hlast : HeadLast out refs q) (hfree : m.pmmFree (some q) = .ok m') :
    Counted maxPfn usable m' (outAfter m out q) (update refs q (refs q - 1)) := by
  obtain ⟨b, hb, hq⟩ := h.out q hpos
  by_cases hone : (m.pages q).refcount = 1
  · -- the last count: `q` is the head, and its references are one
    have hhead : q = b.base := by
      by_contra hne
      have := h.body b hb q hq hne
      omega
    subst hhead
    obtain ⟨-, hord, href, -⟩ := h.ledger.head b hb
    have hrefs : refs b.base = 1 := by omega
    obtain ⟨m₁, hok, hledger, hframe⟩ := h.ledger.drop hb
    obtain rfl : m₁ = m' := Except.ok.inj (hok.symm.trans hfree)
    have hout : outAfter m out b.base = out.erase b := by
      unfold outAfter
      rw [if_pos hone, hord]
    rw [if_pos hrefs] at hledger
    rw [hout]
    have hne_of : ∀ c ∈ out.erase b, c ∈ out ∧ c ≠ b := fun c hc =>
      ⟨List.mem_of_mem_erase hc, fun e => h.ledger.nodup.not_mem_erase (e ▸ hc)⟩
    refine ⟨hledger, fun c hc r hr hne => ?_, fun r hr => ?_⟩
    · obtain ⟨hcout, hcb⟩ := hne_of c hc
      have hrb : r ≠ b.base := by
        rintro rfl
        exact h.ledger.apart hcout hb hcb hr (Block.base_mem b)
      rw [update_of_ne hrb, (Page.data_eq_iff.mp (hframe c hcout hcb r hr)).1]
      exact h.body c hcout r hr hne
    · by_cases hrb : r = b.base
      · rw [hrb, update_self, hrefs] at hr
        omega
      · rw [update_of_ne hrb] at hr
        obtain ⟨c, hc, hrc⟩ := h.out r hr
        have hcb : c ≠ b := by
          rintro rfl
          have := hlast c hb rfl hrefs r hrc hrb
          omega
        exact ⟨c, (List.mem_erase_of_ne hcb).mpr hc, hrc⟩
  · rw [h.free_eq hb hq hone hfree]
    unfold outAfter
    rw [if_neg hone]
    refine h.write hb hq (harmless_refcount (· - 1)) ?_ fun e => ?_
    · show (m.pages q).refcount - 1 + refs q = _
      omega
    · have href := (h.ledger.head b hb).2.2.1
      rw [← e] at href
      omega

-- ==== the runs

theorem counted_init :
    Counted maxPfn usable (pmmInit maxPfn (pfndb maxPfn usable)) [] fun _ => 0 := by
  obtain ⟨L, h⟩ := @runInv_init maxPfn usable
  have hledger := h.ledger
  exact ⟨⟨hledger.buddy, hledger.bound, fun b hb => (by cases hb), hledger.clean⟩,
    fun b hb => (by cases hb), fun q hq => (by omega)⟩

theorem refRun_counted
    (h : RefRun HeadLast room maxPfn usable m out refs) :
    Counted maxPfn usable m out refs := by
  induction h with
  | init => exact counted_init
  | alloc _ ha ih => exact (ih.alloc ha).2
  | inc _ hb hq _ ih => exact ih.inc hb hq
  | free _ hpos hlast hfree ih => exact ih.free hpos hlast hfree

/-- The count of a page that is out, by its references. -/
theorem Counted.count_eq (h : Counted maxPfn usable m out refs) (hb : b ∈ out) (hq : q ∈ b) :
    (m.pages q).refcount = if q = b.base then (refs q : Int) else refs q + 1 := by
  by_cases hhead : q = b.base
  · rw [if_pos hhead, hhead]
    exact (h.ledger.head b hb).2.2.1
  · rw [if_neg hhead]
    exact h.body b hb q hq hhead

/-- Every count that is out is positive, -/
theorem Counted.count_pos (h : Counted maxPfn usable m out refs) (hb : b ∈ out) (hq : q ∈ b) :
    0 < (m.pages q).refcount := by
  rw [h.count_eq hb hq]
  split
  · rename_i hhead
    have hpos := (h.ledger.head b hb).2.2.2
    rw [← hhead] at hpos
    exact_mod_cast hpos
  · omega

/-- and it fits where every reference had room. -/
theorem refRun_fit (h : RefRun HeadLast IntRoom maxPfn usable m out refs) :
    CountsFit m out := by
  have hbound : ∀ b ∈ out, ∀ q ∈ b, (m.pages q).refcount < 2 ^ 31 := by
    induction h with
    | init =>
        intro b hb
        cases hb
    | @alloc m m' out refs order p hrun ha ih =>
        have hcounted := (refRun_counted hrun).alloc ha
        obtain ⟨-, -, hframe⟩ := (refRun_counted hrun).ledger.alloc ha
        intro b hb q hq
        rcases List.mem_cons.mp hb with rfl | hold
        · -- the new pages had no reference
          rw [hcounted.2.count_eq List.mem_cons_self hq]
          have hzero := hcounted.1
          by_cases hqp : q = p
          · rw [if_pos hqp, hqp, update_self, hzero p (Block.base_mem ⟨p, order⟩)]
            decide
          · rw [if_neg hqp, update_of_ne hqp, hzero q hq]
            decide
        · rw [(Page.data_eq_iff.mp (hframe b hold q hq)).1]
          exact ih b hold q hq
    | @inc m out refs b q _ hb hq hroom ih =>
        intro c hc r hr
        by_cases hrq : r = q
        · rw [hrq]
          unfold pageRefInc
          rw [modPage_pages_self]
          have hlt : (m.pages q).refcount < 2 ^ 31 - 1 := hroom
          show (m.pages q).refcount + 1 < 2 ^ 31
          omega
        · unfold pageRefInc
          rw [modPage_pages_of_ne m hrq]
          exact ih c hc r hr
    | @free m m' out refs q hrun hpos hlast hfree ih =>
        have hcounted := refRun_counted hrun
        have hafter := hcounted.free hpos hlast hfree
        intro c hc r hr
        have hcout : c ∈ out := by
          unfold outAfter at hc
          split at hc
          · exact List.mem_of_mem_erase hc
          · exact hc
        -- a page loses a reference or none
        have hle : update refs q (refs q - 1) r ≤ refs r := by
          by_cases hrq : r = q
          · rw [hrq, update_self]
            omega
          · rw [update_of_ne hrq]
        have hold := ih c hcout r hr
        rw [hcounted.count_eq hcout hr] at hold
        rw [hafter.count_eq hc hr]
        split
        · rename_i hhead
          rw [if_pos hhead] at hold
          omega
        · rename_i hhead
          rw [if_neg hhead] at hold
          omega
  exact fun b hb q hq => ⟨(refRun_counted h).count_pos hb hq, hbound b hb q hq⟩

/-- Dropping a reference keeps the pages with references off the free lists
if and only if the head of its block goes last. -/
theorem Counted.free_held_iff (h : Counted maxPfn usable m out refs) (hpos : 0 < refs q)
    (hfree : m.pmmFree (some q) = .ok m') :
    RefsHeld m' (update refs q (refs q - 1)) ↔ HeadLast out refs q := by
  refine ⟨fun hheld b hb hbase hone r hr hne => ?_,
    fun hlast => (h.free hpos hlast hfree).held⟩
  subst hbase
  obtain ⟨m₁, hok, hledger, -⟩ := h.ledger.drop hb
  obtain rfl : m₁ = m' := Except.ok.inj (hok.symm.trans hfree)
  rw [if_pos hone] at hledger
  -- the page is usable and no longer out, so it is free
  obtain ⟨L, hL⟩ := hledger.buddy
  rcases (hL.cover r).mpr (h.ledger.mem_usable hb hr) with ⟨c, hc, hrc⟩ | ⟨c, hc, hrc⟩
  · have hblock : FreeBlock m₁ c := by
      refine ⟨hc.1, ?_⟩
      rw [hL.head _ hc.1]
      exact (hL.list _ hc.1).reached_iff.mpr hc.2
    have hzero := hheld c hblock r hrc
    rw [update_of_ne hne] at hzero
    exact hzero
  · have hcb : c ≠ b := fun e => h.ledger.nodup.not_mem_erase (e ▸ hc)
    exact (h.ledger.apart (List.mem_of_mem_erase hc) hb hcb hrc hr).elim

/-- Where the head of every block goes last and no count overflows, no page
with a reference is on a free list, and `pmm_alloc` returns none; and a
reference dropped in another order breaks this. -/
theorem refRun_held (h : RefRun HeadLast IntRoom maxPfn usable m out refs) :
    CountsFit m out ∧ RefsHeld m refs
      ∧ (∀ order m' p, m.pmmAlloc order = some (m', p) →
        ∀ q ∈ Block.mk p order, refs q = 0)
      ∧ ∀ q m', 0 < refs q → m.pmmFree (some q) = .ok m' →
        (RefsHeld m' (update refs q (refs q - 1)) ↔ HeadLast out refs q) :=
  ⟨refRun_fit h, (refRun_counted h).held, fun _ _ _ ha => ((refRun_counted h).alloc ha).1,
    fun _ _ hpos hfree => (refRun_counted h).free_held_iff hpos hfree⟩

-- ==== traces

/-- On a machine with the pages 2 and 3, the allocation of both and a
reference on the second. -/
theorem refRun_pair : ∃ m, ∀ may : List Block → (Nat → Nat) → Nat → Prop,
    RefRun may IntRoom 3 (fun q => decide (2 ≤ q)) m [⟨2, 1⟩]
      (update (update (fun _ => 0) 2 1) 3 1) := by
  have hpage : ((pmmInit 3 (pfndb 3 fun q => decide (2 ≤ q))).pmmAlloc 1).map Prod.snd
      = some 2 := by decide +kernel
  obtain ⟨⟨m, p⟩, halloc, hp⟩ := Option.map_eq_some_iff.mp hpage
  change p = 2 at hp
  subst hp
  refine ⟨m.pageRefInc 3, fun may => ?_⟩
  have hinit : RefRun may IntRoom 3 (fun q => decide (2 ≤ q)) _ _ _ := .init
  have hsecond : (3 : Nat) ∈ Block.mk 2 1 := ⟨by decide, by decide⟩
  refine (hinit.alloc halloc).inc (q := 3) List.mem_cons_self hsecond ?_
  have hcounted := (counted_init.alloc halloc).2
  unfold IntRoom
  rw [hcounted.count_eq List.mem_cons_self hsecond]
  decide

/-- There the reference on the second page keeps it off the free lists. -/
theorem refRun_held_pair : ∃ m refs, refs 3 = 1 ∧ (m.pages 3).refcount = 2 ∧ RefsHeld m refs := by
  obtain ⟨m, hrun⟩ := refRun_pair
  have hcount := (refRun_counted (hrun HeadLast)).count_eq (q := 3) List.mem_cons_self
    ⟨by decide, by decide⟩
  exact ⟨m, _, rfl, hcount, (refRun_held (hrun HeadLast)).2.1⟩

/-- And when the reference on the first page goes before it, the second is
on a free list with a reference. -/
theorem free_head_lists_body : ∃ m out refs,
    RefRun (fun _ _ _ => True) IntRoom 3 (fun q => decide (2 ≤ q)) m out refs
      ∧ ¬ RefsHeld m refs := by
  obtain ⟨m, hrun⟩ := refRun_pair
  have hcounted := refRun_counted (hrun HeadLast)
  obtain ⟨m', hok, -, -⟩ := hcounted.ledger.drop (b := ⟨2, 1⟩) List.mem_cons_self
  refine ⟨m', _, _, (hrun _).free (q := 2) (by decide) trivial hok, fun hheld => ?_⟩
  have hlast := (hcounted.free_held_iff (by decide) hok).mp hheld
  have hzero := hlast ⟨2, 1⟩ List.mem_cons_self rfl rfl 3 ⟨by decide, by decide⟩
    (by decide)
  revert hzero
  decide

end Alix.Pmm
