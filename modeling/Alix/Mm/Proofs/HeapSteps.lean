/-
The operations of the heap keep its invariant.

`Inv.reslab` is a slab whose free slots change, `Inv.grow` a block that
joins the heap, `Inv.drop` one that leaves it. The branches of `kmalloc`
and `kfree` are each one of these: taking a slot (`Inv.take`), giving one
back (`Inv.give`), a new slab (`Inv.create`), a large allocation
(`Inv.largeTake`) and its end (`Inv.largeFree`).
-/
import Alix.Mm.Proofs.HeapOps

namespace Alix.Kheap

open Bytes (Memory load store store_outside)
open Dyadic (Block)
open Pmm (Ledger Usable modPage_pages_self modPage_pages_of_ne)

variable {maxPfn : Nat} {usable : Nat → Bool} {s s' : Kheap} {G : Ghost} {c q p n x o : Nat}
  {r : Role} {free free' : List Nat} {live live' : List (Nat × Nat)} {others : List Block}
  {ref : Nat → Nat} {lists' : Nat → SlabList → List Nat} {pmm : Pmm}

-- ==== what is apart

/-- The bytes a role rests on are not links, and in no other page. -/
theorem Inv.meta_apart (h : Inv maxPfn usable s G live others ref) (hq : G.role q = some r)
    {a : Nat} (hm : Meta s.hhdm q r a) :
    (∀ p, G.IsSlab p → ¬ (pageAt s.hhdm p ≤ a ∧ a < pageAt s.hhdm p + 16))
      ∧ ∀ p, p ≠ q → ¬ (pageAt s.hhdm p ≤ a ∧ a < pageAt s.hhdm p + 4096) := by
  obtain ⟨h1, h2, h3⟩ := (h.role q r hq).meta_inside hm
  have hother : ∀ p, p ≠ q → ¬ (pageAt s.hhdm p ≤ a ∧ a < pageAt s.hhdm p + 4096) := by
    intro p hne hp
    unfold pageAt at h1 h2 hp
    omega
  refine ⟨fun p hslab hp => ?_, hother⟩
  by_cases he : p = q
  · obtain ⟨c, free, hp'⟩ := hslab
    rw [he] at hp hp'
    have h16 := h3 c free (Option.some.inj (hq.symm.trans hp'))
    omega
  · exact hother p he ⟨hp.1, by omega⟩

/-- A live allocation is not behind a pointer that no page backs. -/
theorem Inv.not_live (h : Inv maxPfn usable s G live others ref)
    (hx : ¬ ∃ n, Backs s.hhdm G x n) : x ∉ live.map Prod.fst := by
  intro hmem
  obtain ⟨⟨x', n⟩, hin, rfl⟩ := List.mem_map.mp hmem
  exact hx ⟨n, h.backed x' n hin⟩

/-- An allocation points into the page that backs it. -/
theorem RoleAt.backed_page (h : RoleAt s q r) (hb : BackedBy s.hhdm q x n r) :
    pageAt s.hhdm q ≤ x ∧ x < pageAt s.hhdm q + 4096 := by
  have hin := h.backed_inside hb
  cases r with
  | slab c free =>
      have hbx := hb.1.bounds h.1
      have hsize := (class_fits h.1).1
      omega
  | large order size =>
      have hx : x = pageAt s.hhdm q + 24 := hb.1
      omega

-- ==== a slab changes

/-- The slabs are the slabs still. -/
theorem isSlab_congr {blocks : List Block} {r₀ : Option Role}
    (h : (∃ c free, r₀ = some (.slab c free)) ↔ G.IsSlab p) :
    (Ghost.mk (Function.update G.role p r₀) lists' blocks).IsSlab = G.IsSlab := by
  funext q
  refine propext ?_
  show (∃ c free, Function.update G.role p r₀ q = some (.slab c free)) ↔ _
  by_cases he : q = p
  · subst he
    rw [Function.update_self]
    exact h
  · rw [Function.update_of_ne he]
    rfl

theorem isSlab_update {blocks : List Block} {c' : Nat}
    (hq : G.role q = some (.slab c free)) :
    (Ghost.mk (Function.update G.role q (some (.slab c' free'))) lists' blocks).IsSlab
      = G.IsSlab :=
  isSlab_congr ⟨fun _ => ⟨c, free, hq⟩, fun _ => ⟨c', free', rfl⟩⟩

/-- A slab gets other free slots. -/
theorem Inv.reslab (h : Inv maxPfn usable s G live others ref)
    (hq : G.role q = some (.slab c free)) (hw : Worked s s' G.IsSlab q)
    (hs' : SlabAt s.hhdm s'.mem c q free') (hl' : Listed s' lists' G.IsSlab)
    (hre : Regrouped G.lists lists' c q free')
    (hbacked : ∀ x n, (x, n) ∈ live' → BackedBy s.hhdm q x n (.slab c free')
      ∨ ∃ p r, p ≠ q ∧ G.role p = some r ∧ BackedBy s.hhdm p x n r)
    (halone : (live'.map Prod.fst).Nodup) :
    Inv maxPfn usable s' ⟨Function.update G.role q (some (.slab c free')), lists', G.blocks⟩
      live' others ref := by
  obtain ⟨hc, hflag, hpriv, -⟩ := h.role q _ hq
  refine h.update hw.hhdm (fun c' hc' => ?_) (by rw [hw.pmm]; exact h.ledger) ?_ h.once ?_ ?_ ?_ ?_
    (by rw [isSlab_update hq]; exact hl') ?_ ?_ halone
  · exact ⟨(hw.sizes c').1.trans (h.sizes c' hc').1, (hw.sizes c').2.trans (h.sizes c' hc').2⟩
  · -- a slab is a block of one page, before and after
    intro p o
    rw [h.block p o]
    by_cases he : p = q
    · rw [he, Function.update_self, hq]
      constructor
      · intro hr
        obtain ⟨r, hr, ho⟩ := hr
        cases hr
        exact ⟨_, rfl, ho⟩
      · intro hr
        obtain ⟨r, hr, ho⟩ := hr
        cases hr
        exact ⟨_, rfl, ho⟩
    · rw [Function.update_of_ne he]
  · intro r hr
    cases hr
    exact ⟨hc, by rw [hw.pmm]; exact hflag, by rw [hw.pmm]; exact hpriv,
      by rw [hw.hhdm]; exact hs'⟩
  · intro p r _ _
    rw [hw.pmm]
    exact ⟨rfl, rfl⟩
  · intro p r a hne hp hm
    obtain ⟨h1, h2⟩ := h.meta_apart hp hm
    exact hw.mem a h1 (h2 q hne.symm)
  · intro p hf
    rw [hw.pmm] at hf
    by_cases he : p = q
    · exact Or.inl ⟨he, c, free', rfl⟩
    · exact Or.inr ⟨he, hf⟩
  · intro c₁ k p
    rw [hre c₁ k p]
    constructor
    · intro hp
      cases hp with
      | inl hp =>
          obtain ⟨he, rfl, hk⟩ := hp
          exact Or.inl ⟨he, free', rfl, hk⟩
      | inr hp => exact Or.inr hp
    · intro hp
      cases hp with
      | inl hp =>
          obtain ⟨he, free₁, hr, hk⟩ := hp
          cases hr
          exact Or.inl ⟨he, rfl, hk⟩
      | inr hp => exact Or.inr hp
  · intro x n hx
    cases hbacked x n hx with
    | inl hb => exact Or.inl ⟨_, rfl, hb⟩
    | inr hb => exact Or.inr hb

/-- What is live elsewhere, or in a slot that stays taken, stays backed. -/
theorem Inv.backed_or (h : Inv maxPfn usable s G live others ref)
    (hq : G.role q = some (.slab c free)) (hx : (x, n) ∈ live)
    (hkeep : IsSlot s.hhdm c q x → x ∉ free → x ∉ free') :
    BackedBy s.hhdm q x n (.slab c free')
      ∨ ∃ p r, p ≠ q ∧ G.role p = some r ∧ BackedBy s.hhdm p x n r := by
  obtain ⟨p, r, hp, hb⟩ := h.backed x n hx
  by_cases he : p = q
  · rw [he] at hp hb
    have hr : r = .slab c free := Option.some.inj (hp.symm.trans hq)
    rw [hr] at hb
    exact Or.inl ⟨hb.1, hkeep hb.1 hb.2.1, hb.2.2⟩
  · exact Or.inr ⟨p, r, he, hp, hb⟩

/-- A slab is taken from: the first slot of the first slab with a free one
becomes a live allocation. -/
theorem Inv.take (h : Inv maxPfn usable s G live others ref) (hc : c < NUM_SIZE_CLASSES)
    (hhead : (G.lists c .partials).head? = some q) (hn : n ≤ objSize c) :
    (s.slabTake c).2 ≠ 0
      ∧ (∃ G', Inv maxPfn usable (s.slabTake c).1 G' (((s.slabTake c).2, n) :: live) others ref)
      ∧ Worked s (s.slabTake c).1 G.IsSlab q := by
  have hmem : q ∈ G.lists c .partials := List.mem_of_mem_head? (by rw [hhead]; rfl)
  obtain ⟨free, hq, hk⟩ := h.inList c .partials q hmem
  obtain ⟨-, -, -, hs⟩ := h.role q _ hq
  cases free with
  | nil => cases hk
  | cons x free =>
      obtain ⟨hx, hs', hw, lists', hl', hre⟩ :=
        slabTake_spec h.placed.pos hc h.listed hhead hs
      have hslot := hs.slots x List.mem_cons_self
      have hbx := hslot.bounds hc
      have hxfree : x ∉ free := (List.nodup_cons.mp hs.nodup).1
      rw [hx]
      refine ⟨by omega, ⟨_, h.reslab hq hw hs' hl' hre ?_ ?_⟩, hw⟩
      · intro y m hy
        cases List.mem_cons.mp hy with
        | inl he =>
            cases he
            exact Or.inl ⟨hslot, hxfree, hn⟩
        | inr hy => exact h.backed_or hq hy fun _ hnot hin => hnot (List.mem_cons_of_mem x hin)
      · -- a free slot is not live
        rw [List.map_cons, List.nodup_cons]
        refine ⟨h.not_live fun hback => ?_, h.alone⟩
        obtain ⟨m, p, r, hp, hb⟩ := hback
        have hpage := (h.role p r hp).backed_page hb
        have hpq : p = q := by
          have hsize := (class_fits hc).1
          unfold pageAt at hbx hpage
          omega
        rw [hpq] at hp hb
        have hr : r = .slab c (x :: free) := Option.some.inj (hp.symm.trans hq)
        rw [hr] at hb
        exact hb.2.1 List.mem_cons_self

/-- The pointers of the live allocations are different. -/
theorem Inv.live_inj (h : Inv maxPfn usable s G live others ref) {m : Nat}
    (hx : (x, n) ∈ live) (hx' : (x, m) ∈ live) : (x, m) = (x, n) :=
  List.inj_on_of_nodup_map h.alone hx' hx rfl

theorem Inv.alone_erase (h : Inv maxPfn usable s G live others ref) (e : Nat × Nat) :
    ((live.erase e).map Prod.fst).Nodup :=
  h.alone.sublist (List.erase_sublist.map Prod.fst)

/-- A slot is given back. -/
theorem Inv.give (h : Inv maxPfn usable s G live others ref)
    (hq : G.role q = some (.slab c free)) (hx : (x, n) ∈ live)
    (hb : BackedBy s.hhdm q x n (.slab c free)) :
    (∃ G', Inv maxPfn usable (s.slabFree c x) G' (live.erase (x, n)) others ref)
      ∧ Worked s (s.slabFree c x) G.IsSlab q := by
  obtain ⟨hc, -, -, hs⟩ := h.role q _ hq
  obtain ⟨-, hroom⟩ := h.low hq (Block.base_mem ⟨q, _⟩)
  obtain ⟨hs', hw, lists', hl', hre⟩ := slabFree_spec h.placed.pos h.placed.aligned hc h.listed
    (h.onList q c free hq) hs hb.1 hb.2.1 hroom
  refine ⟨⟨_, h.reslab hq hw hs' hl' hre ?_ (h.alone_erase _)⟩, hw⟩
  intro y m hy
  have hy' := List.mem_of_mem_erase hy
  refine h.backed_or hq hy' fun _ hnot hin => ?_
  cases List.mem_cons.mp hin with
  | inl he =>
      -- the slot itself is not live any more
      rw [he] at hy hy'
      rw [h.live_inj hx hy'] at hy
      exact (List.Nodup.of_map Prod.fst h.alone).not_mem_erase hy
  | inr hin => exact hnot hin

-- ==== a new block

/-- A page that `pmm_alloc` returns has no role. -/
theorem Inv.role_none (h : Inv maxPfn usable s G live others ref)
    (ha : s.pmm.pmmAlloc o = some (pmm, p)) : G.role p = none := by
  cases hr : G.role p with
  | none => rfl
  | some r =>
      obtain ⟨-, hnew, -⟩ := h.ledger.alloc ha
      exact absurd (Block.base_mem ⟨p, r.order⟩)
        (hnew p (Block.base_mem ⟨p, o⟩) _ (h.role_block hr))

/-- `pmm_alloc` leaves the descriptors of the heap's pages alone. -/
theorem Inv.alloc_data (h : Inv maxPfn usable s G live others ref)
    (ha : s.pmm.pmmAlloc o = some (pmm, p)) (hq : G.role q = some r) :
    (pmm.pages q).flags = (s.pmm.pages q).flags ∧ (pmm.pages q).priv = (s.pmm.pages q).priv := by
  obtain ⟨-, -, hdata⟩ := h.ledger.alloc ha
  obtain ⟨-, -, hf, hp⟩ := Page.data_eq_iff.mp
    (hdata _ (h.role_block hq) q (Block.base_mem ⟨q, r.order⟩))
  exact ⟨hf, hp⟩

/-- No call of the page allocator makes a page look like a slab. -/
theorem slab_of_foreign {pmm pmm' : Pmm} (hf : Pmm.Foreign pmm pmm')
    (h : hasFlag (pmm'.pages q).flags PAGE_SLAB = true) :
    hasFlag (pmm.pages q).flags PAGE_SLAB = true := by
  rw [hasFlag_pageBit _ (by omega)] at h ⊢
  exact (hf q).2 6 (by unfold Pmm.ownBit; omega) h

/-- A block joins the heap, its first page getting a role. -/
theorem Inv.grow (h : Inv maxPfn usable s G live others ref)
    (ha : s.pmm.pmmAlloc o = some (pmm, p)) (hr : r.order = o) {f : Page → Page}
    (hf : Pmm.Harmless f) (href : ∀ pg, (f pg).refcount = pg.refcount)
    (hslab : (∃ c free, r = .slab c free) ∨ ∀ pg, (f pg).flags = pg.flags)
    (hpmm : s'.pmm = pmm.modPage p f) (hhdm : s'.hhdm = s.hhdm)
    (hsizes : ∀ c, c < NUM_SIZE_CLASSES → SizesOf (s'.caches c) c) (hrole : RoleAt s' p r)
    (hmem : ∀ a, (∀ q, G.IsSlab q → ¬ (pageAt s.hhdm q ≤ a ∧ a < pageAt s.hhdm q + 16)) →
      ¬ (pageAt s.hhdm p ≤ a ∧ a < pageAt s.hhdm p + 4096) → s'.mem a = s.mem a)
    (hlisted : Listed s' lists' (Ghost.mk (Function.update G.role p (some r)) lists'
      (⟨p, o⟩ :: G.blocks)).IsSlab)
    (hlists : ∀ c k q, q ∈ lists' c k ↔
      (q = p ∧ ∃ free, some r = some (.slab c free) ∧ k = listOf free)
        ∨ (q ≠ p ∧ q ∈ G.lists c k))
    (hbacked : ∀ x n, (x, n) ∈ live' → BackedBy s.hhdm p x n r ∨ (x, n) ∈ live)
    (halone : (live'.map Prod.fst).Nodup) :
    Inv maxPfn usable s' ⟨Function.update G.role p (some r), lists', ⟨p, o⟩ :: G.blocks⟩ live'
      others (Function.update ref p 1) := by
  have hnone := h.role_none ha
  obtain ⟨hledger, -, -⟩ := h.ledger.alloc ha
  have hout : ∀ b ∈ G.blocks, b.base ≠ p := by
    intro b hb he
    obtain ⟨r', hr', -⟩ := (h.block b.base b.order).mp hb
    rw [he, hnone] at hr'
    cases hr'
  refine h.update hhdm hsizes ?_ ?_ ?_ ?_ ?_ ?_ ?_ hlisted hlists ?_ halone
  · rw [hpmm]
    exact hledger.touch (b := ⟨p, o⟩) List.mem_cons_self hf href
  · intro q o'
    by_cases he : q = p
    · rw [he, Function.update_self, List.mem_cons]
      constructor
      · intro hb
        refine ⟨r, rfl, ?_⟩
        cases hb with
        | inl hb => rw [hr]; exact (congrArg Block.order hb).symm
        | inr hb => exact absurd rfl (hout _ hb)
      · intro hb
        obtain ⟨r', hr', ho⟩ := hb
        cases hr'
        rw [← ho, hr]
        exact Or.inl rfl
    · rw [Function.update_of_ne he, ← h.block q o', List.mem_cons]
      constructor
      · intro hb
        cases hb with
        | inl hb => exact absurd (congrArg Block.base hb) he
        | inr hb => exact hb
      · exact Or.inr
  · intro b hb
    cases List.mem_cons.mp hb with
    | inl he =>
        rw [he]
        exact Function.update_self p 1 ref
    | inr hb =>
        rw [Function.update_of_ne (hout b hb)]
        exact h.once b hb
  · intro r' hr'
    cases hr'
    exact hrole
  · intro q r' hne hq
    rw [hpmm, modPage_pages_of_ne pmm hne]
    exact h.alloc_data ha hq
  · intro q r' a hne hq hm
    obtain ⟨h1, h2⟩ := h.meta_apart hq hm
    exact hmem a h1 (h2 p hne.symm)
  · intro q hflag
    rw [hpmm] at hflag
    by_cases he : q = p
    · refine Or.inl ⟨he, ?_⟩
      cases hslab with
      | inl hslab =>
          obtain ⟨c, free, hrs⟩ := hslab
          exact ⟨c, free, congrArg some hrs⟩
      | inr hkeep =>
          rw [he, modPage_pages_self, hkeep] at hflag
          obtain ⟨c, free, hp⟩ := h.flag p (slab_of_foreign (Pmm.foreign_pmmAlloc ha) hflag)
          rw [hnone] at hp
          cases hp
    · rw [modPage_pages_of_ne pmm he] at hflag
      exact Or.inr ⟨he, slab_of_foreign (Pmm.foreign_pmmAlloc ha) hflag⟩
  · intro x n hx
    cases hbacked x n hx with
    | inl hb => exact Or.inl ⟨r, rfl, hb⟩
    | inr hx =>
        obtain ⟨q, r', hq, hb⟩ := h.backed x n hx
        refine Or.inr ⟨q, r', fun he => ?_, hq, hb⟩
        rw [he, hnone] at hq
        cases hq

/-- The room a new page is in. -/
theorem Inv.alloc_room (h : Inv maxPfn usable s G live others ref)
    (ha : s.pmm.pmmAlloc o = some (pmm, p)) :
    p ≤ maxPfn ∧ pageAt s.hhdm p + 4096 ≤ 2 ^ 64 := by
  obtain ⟨hledger, -, -⟩ := h.ledger.alloc ha
  obtain ⟨hlt, -⟩ := hledger.mem_usable (b := ⟨p, o⟩) List.mem_cons_self
    (Block.base_mem ⟨p, o⟩)
  have hlt' : p < maxPfn + 1 := hlt
  have hroom := h.placed.room
  unfold pageAt at hroom ⊢
  omega

/-- The pages that are slabs when `p` becomes one. -/
theorem isSlab_add {blocks : List Block} :
    (Ghost.mk (Function.update G.role p (some (.slab c free))) lists' blocks).IsSlab
      = fun q => q = p ∨ G.IsSlab q := by
  funext q
  refine propext ?_
  by_cases he : q = p
  · constructor
    · intro _
      exact Or.inl he
    · intro _
      rw [he]
      exact ⟨c, free, Function.update_self p _ _⟩
  · constructor
    · intro hq
      obtain ⟨c₁, free₁, hq⟩ := hq
      exact Or.inr ⟨c₁, free₁, (Function.update_of_ne he _ _).symm.trans hq⟩
    · intro hq
      obtain ⟨c₁, free₁, hq⟩ := hq.resolve_left he
      exact ⟨c₁, free₁, (Function.update_of_ne he _ _).trans hq⟩

/-- The pages that are slabs when `p` becomes something else, and was
nothing. -/
theorem isSlab_skip {blocks : List Block} {r₀ : Option Role} (hp : ¬ G.IsSlab p)
    (hr : ∀ c free, r₀ ≠ some (.slab c free)) :
    (Ghost.mk (Function.update G.role p r₀) lists' blocks).IsSlab = G.IsSlab :=
  isSlab_congr ⟨fun ⟨c, free, e⟩ => absurd e (hr c free), fun h => absurd h hp⟩

theorem Inv.inList_skip (h : Inv maxPfn usable s G live others ref) {r₀ : Option Role}
    (hp : ¬ G.IsSlab p) (hr : ∀ c free, r₀ ≠ some (.slab c free)) {c : Nat} {k : SlabList}
    {q : Nat} : q ∈ G.lists c k
      ↔ (q = p ∧ ∃ free, r₀ = some (.slab c free) ∧ k = listOf free)
        ∨ (q ≠ p ∧ q ∈ G.lists c k) := by
  constructor
  · intro hq
    obtain ⟨free, hrole, -⟩ := h.inList c k q hq
    exact Or.inr ⟨fun e => hp ⟨c, free, by rw [← e]; exact hrole⟩, hq⟩
  · intro hq
    cases hq with
    | inl hq =>
        obtain ⟨-, free, hfree, -⟩ := hq
        exact absurd hfree (hr c free)
    | inr hq => exact hq.2

/-- A page becomes a slab with all its slots free, and is put on the list
of its cache. -/
theorem Inv.create (h : Inv maxPfn usable s G live others ref) (hc : c < NUM_SIZE_CLASSES)
    (ha : s.pmm.pmmAllocPage = some (pmm, p)) :
    ∃ G', Inv maxPfn usable ((s.newSlab c pmm p).slabListPush c .partials (pageAt s.hhdm p)) G'
        live others (Function.update ref p 1)
      ∧ (G'.lists c .partials).head? = some p
      ∧ Relinked (s.newSlab c pmm p)
        ((s.newSlab c pmm p).slabListPush c .partials (pageAt s.hhdm p))
        fun q => q = p ∨ G.IsSlab q := by
  have hnone := h.role_none ha
  obtain ⟨-, hroom⟩ := h.alloc_room ha
  have hsizes := h.sizes c hc
  have hnew : ∀ c' k', p ∉ G.lists c' k' := by
    intro c' k' hp
    obtain ⟨free, hp, -⟩ := h.inList c' k' p hp
    rw [hnone] at hp
    cases hp
  have hlist : Listed (s.newSlab c pmm p) G.lists G.IsSlab := by
    refine h.listed.congr rfl (fun _ _ => rfl) fun q hq a h1 h2 => ?_
    refine initSlab_outside hc hsizes fun hp => ?_
    have hqp : q ≠ p := by
      intro he
      obtain ⟨c', free, hq⟩ := hq
      rw [he, hnone] at hq
      cases hq
    unfold pageAt at h1 h2 hp
    omega
  obtain ⟨hon, hr⟩ := OnLists.push (s := s.newSlab c pmm p) (q := p) (k := .partials)
    h.placed.pos (listed_iff.mp hlist) hc hnew (show pageAt s.hhdm p < 2 ^ 64 by omega)
  have hpush := listed_iff.mpr hon
  have hlo : listOf (allSlots s.hhdm c p) = .partials := (classShape hc).listOf_slots s.hhdm p
  have hpages : ((s.newSlab c pmm p).slabListPush c .partials (pageAt s.hhdm p)).pmm.pages p
      = { Page.setFlag PAGE_SLAB (pmm.pages p) with priv := cachePtr c } := by
    rw [show ((s.newSlab c pmm p).slabListPush c .partials (pageAt s.hhdm p)).pmm
      = (s.newSlab c pmm p).pmm from hr.pmm]
    exact modPage_pages_self pmm p fun pg => { Page.setFlag PAGE_SLAB pg with priv := cachePtr c }
  refine ⟨⟨Function.update G.role p (some (.slab c (allSlots s.hhdm c p))), _, _⟩,
    h.grow (r := .slab c (allSlots s.hhdm c p)) (o := 0) ha rfl
      (f := fun pg => { Page.setFlag PAGE_SLAB pg with priv := cachePtr c })
      ((Pmm.harmless_priv _).comp (Pmm.harmless_setFlag (by decide))) (fun _ => rfl)
      (Or.inl ⟨c, _, rfl⟩) hr.pmm hr.hhdm ?_ ?_ ?_
      (by rw [isSlab_add]; exact hpush) ?_ (fun x n hx => Or.inr hx) h.alone, ?_, hr⟩
  · intro c' hc'
    have hold := h.sizes c' hc'
    exact ⟨(hr.sizes c').1.trans hold.1, (hr.sizes c').2.trans hold.2⟩
  · have hs := (slabAt_init (m := s.mem) hc hsizes hroom)
    have hs' := SlabAt.relinked (s := s.newSlab c pmm p) hc hs hr
    refine ⟨hc, ?_, by rw [hpages], ?_⟩
    · rw [hpages]
      show hasFlag ((pmm.pages p).flags ||| PAGE_SLAB) PAGE_SLAB = true
      rw [hasFlag_or]
      exact Bool.or_eq_true_iff.mpr (Or.inr rfl)
    · rw [show ((s.newSlab c pmm p).slabListPush c .partials (pageAt s.hhdm p)).hhdm = s.hhdm
        from hr.hhdm]
      exact hs'
  · intro a hlink hpage
    refine (hr.mem a fun q hq hin => ?_).trans (initSlab_outside hc hsizes hpage)
    have hin' : pageAt s.hhdm q ≤ a ∧ a < pageAt s.hhdm q + 16 := hin
    cases hq with
    | inl he =>
        rw [he] at hin'
        omega
    | inr hq => exact hlink q hq hin'
  · intro c' k' q
    rw [mem_pushed hnew]
    refine or_congr_left (and_congr_right fun _ => ?_)
    constructor
    · intro hq
      rw [hq.1, hq.2]
      exact ⟨_, rfl, hlo.symm⟩
    · intro hq
      obtain ⟨free, hfree, hk⟩ := hq
      cases hfree
      exact ⟨rfl, hk.trans hlo⟩
  · show (setList _ _ _ _ c .partials).head? = some p
    rw [setList_self]
    rfl

theorem largeTake_outside (s : Kheap) (pmm : Pmm) (n o : Nat) {a : Nat}
    (h : ¬ (pageAt s.hhdm p ≤ a ∧ a < pageAt s.hhdm p + 4096)) :
    (Kheap.largeTake { s with pmm } p n o).1.mem a = s.mem a := by
  show store (store (store s.mem (pageAt s.hhdm p) 8 _) (pageAt s.hhdm p + 8) 8 _)
    (pageAt s.hhdm p + 16) 1 _ a = _
  rw [store_outside (by omega), store_outside (by omega), store_outside (by omega)]

/-- A large allocation. -/
theorem Inv.largeTake (h : Inv maxPfn usable s G live others ref)
    (ha : s.pmm.pmmAlloc o = some (pmm, p)) (hn : n < 2 ^ 64)
    (hroom : n + sizeofLargeHdr ≤ 4096 * 2 ^ o) :
    ∃ G', Inv maxPfn usable (Kheap.largeTake { s with pmm } p n o).1 G'
      ((pageAt s.hhdm p + sizeofLargeHdr, n) :: live) others (Function.update ref p 1) := by
  have hnone := h.role_none ha
  have hnot : ¬ G.IsSlab p := by
    intro hp
    obtain ⟨c, free, hp⟩ := hp
    rw [hnone] at hp
    cases hp
  have hout : ∀ a, ¬ (pageAt s.hhdm p ≤ a ∧ a < pageAt s.hhdm p + 4096) →
      (Kheap.largeTake { s with pmm } p n o).1.mem a = s.mem a :=
    fun _ hpage => largeTake_outside s pmm n o hpage
  refine ⟨⟨Function.update G.role p (some (.large o n)), G.lists, ⟨p, o⟩ :: G.blocks⟩,
    h.grow (r := .large o n) ha rfl
      (f := fun pg => { pg with priv := (LARGE_PAGE_TAG ||| BitVec.ofNat 64 o).toNat })
      (Pmm.harmless_priv _) (fun _ => rfl) (Or.inr fun _ => rfl) rfl rfl
      h.sizes ?_ (fun a _ hpage => hout a hpage) ?_ ?_ ?_ ?_⟩
  · have hpages : (Kheap.largeTake { s with pmm } p n o).1.pmm = pmm.modPage p fun pg =>
        { pg with priv := (LARGE_PAGE_TAG ||| BitVec.ofNat 64 o).toNat } := rfl
    refine ⟨?_, largeAt_init hn hroom⟩
    rw [hpages, modPage_pages_self]
  · rw [isSlab_skip hnot fun c free e => by cases e]
    refine h.listed.congr rfl (fun _ _ => rfl) fun q hq a h1 h2 => hout a fun hp => ?_
    have hqp : q ≠ p := fun e => hnot (by rw [← e]; exact hq)
    unfold pageAt at h1 h2 hp
    omega
  · exact fun c k q => h.inList_skip hnot fun c free e => by cases e
  · intro x m hx
    cases List.mem_cons.mp hx with
    | inl he =>
        cases he
        exact Or.inl ⟨rfl, rfl⟩
    | inr hx => exact Or.inr hx
  · rw [List.map_cons, List.nodup_cons]
    refine ⟨h.not_live fun hback => ?_, h.alone⟩
    obtain ⟨m, q, r, hq, hb⟩ := hback
    have hpage := (h.role q r hq).backed_page hb
    have hpq : p = q := by
      show p = q
      have h24 : pageAt s.hhdm q ≤ pageAt s.hhdm p + 24 := hpage.1
      have h24' : pageAt s.hhdm p + 24 < pageAt s.hhdm q + 4096 := hpage.2
      unfold pageAt at h24 h24'
      omega
    rw [← hpq, hnone] at hq
    cases hq

-- ==== a block leaves

/-- The descriptor of a large allocation is recognised. -/
theorem large_recognised (h : Inv maxPfn usable s G live others ref)
    (hq : G.role q = some (.large o n)) :
    hasFlag (s.pmm.pages q).flags PAGE_SLAB = false
      ∧ pageIsLargeAlloc (s.pmm.pages q) = true := by
  have hflag : hasFlag (s.pmm.pages q).flags PAGE_SLAB = false := by
    cases hb : hasFlag (s.pmm.pages q).flags PAGE_SLAB with
    | false => rfl
    | true =>
        obtain ⟨c, free, hq'⟩ := h.flag q hb
        rw [hq] at hq'
        cases hq'
  refine ⟨hflag, ?_⟩
  obtain ⟨hpriv, -⟩ := h.role q _ hq
  obtain ⟨ho, -⟩ := h.ledger.head _ (h.role_block hq)
  unfold pageIsLargeAlloc
  rw [hflag, hpriv, BitVec.ofNat_toNat, BitVec.setWidth_eq]
  have hall : ∀ o, o < 11 → ((LARGE_PAGE_TAG ||| BitVec.ofNat 64 o) &&& LARGE_PAGE_TAG_MASK
      == LARGE_PAGE_TAG) = true := by decide
  exact Bool.and_eq_true_iff.mpr ⟨rfl, hall o ho⟩

/-- A large allocation is freed. -/
theorem Inv.largeFree (h : Inv maxPfn usable s G live others ref)
    (hq : G.role q = some (.large o n)) :
    ∃ s', Kheap.largeFree s q (pageAt s.hhdm q + sizeofLargeHdr) = .ok s'
      ∧ (∃ G', Inv maxPfn usable s' G' (live.erase (pageAt s.hhdm q + sizeofLargeHdr, n)) others
        (Function.update ref q (ref q - 1)))
      ∧ s'.totalAllocCount = s.totalAllocCount ∧ s'.totalFreeCount = s.totalFreeCount := by
  have hb : (⟨q, o⟩ : Block) ∈ G.blocks := (h.block q o).mpr ⟨_, hq, rfl⟩
  have hbout := List.mem_append_left others hb
  obtain ⟨-, hlarge⟩ := h.role q _ hq
  have hone : ref q = 1 := h.once _ hb
  have hhdr : pageAt s.hhdm q + sizeofLargeHdr - sizeofLargeHdr = pageAt s.hhdm q :=
    Nat.add_sub_cancel _ _
  -- the descriptor is cleared, and the block given back
  have htouch : Ledger maxPfn usable (s.pmm.modPage q fun pg => { pg with priv := 0 })
      (G.blocks ++ others) ref :=
    h.ledger.touch hbout (Pmm.harmless_priv 0) fun _ => rfl
  obtain ⟨pmm, hok, hledger, hdata⟩ := htouch.drop hbout
  rw [if_pos hone, List.erase_append_left _ hb] at hledger
  have hnot : ¬ G.IsSlab q := by
    intro hs
    obtain ⟨c, free, hs⟩ := hs
    rw [hq] at hs
    cases hs
  have hnd : G.blocks.Nodup := (List.nodup_append.mp h.ledger.nodup).1
  have hfree : Kheap.largeFree s q (pageAt s.hhdm q + sizeofLargeHdr)
      = .ok { s with pmm, mem := store s.mem (pageAt s.hhdm q) 8 0 } := by
    have hmagic : s.get64 (pageAt s.hhdm q) = LARGE_MAGIC := hlarge.magic
    unfold Kheap.largeFree
    simp only [hhdr, hmagic, ne_eq, not_true_eq_false, if_false]
    have hpmm : ((s.put (pageAt s.hhdm q) 8 0).modPage q fun p => { p with priv := 0 }).pmm.pmmFree
        (some q) = .ok pmm := hok
    rw [hpmm]
    rfl
  refine ⟨_, hfree, ⟨⟨Function.update G.role q none, G.lists, G.blocks.erase ⟨q, o⟩⟩,
    h.update rfl h.sizes hledger ?_ ?_ (fun r hr => by cases hr) ?_ ?_ ?_ ?_ ?_ ?_
      (h.alone_erase _)⟩, rfl, rfl⟩
  · intro p o'
    rw [hnd.mem_erase_iff, h.block p o']
    by_cases he : p = q
    · rw [he, Function.update_self]
      constructor
      · intro hr
        obtain ⟨hne, r, hr, ho⟩ := hr
        rw [hq] at hr
        cases hr
        exact absurd (by rw [← ho]; rfl) hne
      · intro hr
        obtain ⟨r, hr, -⟩ := hr
        cases hr
    · rw [Function.update_of_ne he]
      exact ⟨fun hr => hr.2, fun hr => ⟨fun e => he (congrArg Block.base e), hr⟩⟩
  · intro b hb'
    obtain ⟨hne, hin⟩ := hnd.mem_erase_iff.mp hb'
    have hbase : b.base ≠ q := fun e =>
      hne (h.ledger.head_inj (List.mem_append_left others hin) hbout e)
    rw [Function.update_of_ne hbase]
    exact h.once b hin
  · intro p r hne hp
    have hne' : Block.mk p r.order ≠ ⟨q, o⟩ := fun e => hne (congrArg Block.base e)
    obtain ⟨-, -, hf, hpv⟩ := Page.data_eq_iff.mp
      (hdata _ (h.role_block hp) hne' p (Block.base_mem ⟨p, r.order⟩))
    rw [modPage_pages_of_ne _ hne] at hf hpv
    exact ⟨hf, hpv⟩
  · intro p r a hne hp hm
    have hout := (h.meta_apart hp hm).2 q hne.symm
    exact store_outside (by omega)
  · intro p hflag
    have hold := slab_of_foreign (Pmm.foreign_pmmFree hok) hflag
    have hold' : hasFlag (s.pmm.pages p).flags PAGE_SLAB = true := by
      by_cases he : p = q
      · rw [he, modPage_pages_self] at hold
        rw [he]
        exact hold
      · rwa [modPage_pages_of_ne _ he] at hold
    exact Or.inr ⟨fun e => hnot (by rw [← e]; exact h.flag p hold'), hold'⟩
  · rw [isSlab_skip hnot fun c free e => by cases e]
    refine h.listed.congr rfl (fun _ _ => rfl) fun p hp a h1 h2 => store_outside fun hin => ?_
    have hne : p ≠ q := fun e => hnot (by rw [← e]; exact hp)
    unfold pageAt at h1 h2 hin
    omega
  · exact fun c k p => h.inList_skip hnot fun c free e => by cases e
  · intro x m hx
    have hx' := List.mem_of_mem_erase hx
    obtain ⟨p, r, hp, hback⟩ := h.backed x m hx'
    refine Or.inr ⟨p, r, fun he => ?_, hp, hback⟩
    -- what the block backs is the allocation that is freed
    rw [he, hq] at hp
    cases hp
    obtain ⟨hxq, hmn⟩ := hback
    rw [he] at hxq
    rw [hxq, hmn] at hx
    exact (List.Nodup.of_map Prod.fst h.alone).not_mem_erase hx

end Alix.Kheap
