/-
The buddy allocator's invariant and the moves that keep it.

`Core s L U X keep C` ties the allocator's representation to a set of
blocks: the lists hold `L`, the blocks of `U` are off the lists, and
together they cover exactly the pages of `C`. The allocator works by
moving one block at a time between the two sides, so the same statement
serves between calls and in the middle of one, where `U` also names the
block a merge or a split is working on.

# Stale descriptors

A page absorbed by a merge keeps `PAGE_FREE` and its old order, and a
page absorbed as the upper half keeps `PAGE_USED`. `Core.stale` is what
makes this harmless: every page with `PAGE_FREE` set lies inside a
listed block, or in the region `X` a call has open. A stale descriptor
is therefore inside a listed block without being its head, so the block
is of larger order and holds the other buddy too (`buddy_listed`): the
buddy of a block that is off the lists is never stale.

# What stays put

`Core.kept` pins the descriptor of every page that is neither listed nor
in `X` to `keep`. With `keep` the descriptors before a call, it is the
frame condition of the call.
-/
import Alix.Mm.Proofs.Lists
import Mathlib.Algebra.BigOperators.Group.Finset.Basic
import Mathlib.Algebra.BigOperators.Ring.Finset

namespace Alix.Pmm

open Dyadic (Block buddy)
open Dll (Links IsList)

-- ==== listed blocks

/-- The block is on the free list of its order. -/
def Listed (L : Nat → List Nat) (b : Block) : Prop :=
  b.order < PMM_MAX_ORDER ∧ b.base ∈ L b.order

/-- The page lies in a listed block. -/
def InFree (L : Nat → List Nat) (q : Nat) : Prop := ∃ b, Listed L b ∧ q ∈ b

/-- The pages of all listed blocks, counted by list lengths. -/
def listedPages (L : Nat → List Nat) : Nat :=
  ∑ o ∈ Finset.range PMM_MAX_ORDER, (L o).length * 2 ^ o

theorem listed_push {L : Nat → List Nat} {p o : Nat}
    (ho : o < PMM_MAX_ORDER) (b : Block) :
    Listed (Function.update L o (p :: L o)) b ↔ b = ⟨p, o⟩ ∨ Listed L b := by
  obtain ⟨base, order⟩ := b
  unfold Listed
  by_cases h : order = o
  · subst h
    simp only [Function.update_self, List.mem_cons, Block.mk.injEq, and_true]
    tauto
  · simp [h]

theorem listed_erase {L : Nat → List Nat} {p o : Nat} (hnd : (L o).Nodup)
    (b : Block) :
    Listed (Function.update L o ((L o).erase p)) b
      ↔ Listed L b ∧ b ≠ ⟨p, o⟩ := by
  obtain ⟨base, order⟩ := b
  unfold Listed
  by_cases h : order = o
  · subst h
    simp only [Function.update_self, hnd.mem_erase_iff, ne_eq, Block.mk.injEq,
      and_true]
    tauto
  · simp [h]

/-- Changing one list changes the page total by that list's share. -/
theorem listedPages_update (L : Nat → List Nat) {o : Nat}
    (ho : o < PMM_MAX_ORDER) (l : List Nat) :
    listedPages (Function.update L o l) + (L o).length * 2 ^ o
      = listedPages L + l.length * 2 ^ o := by
  have hmem : o ∈ Finset.range PMM_MAX_ORDER := Finset.mem_range.mpr ho
  have hrest : ∑ j ∈ (Finset.range PMM_MAX_ORDER).erase o,
        (Function.update L o l j).length * 2 ^ j
      = ∑ j ∈ (Finset.range PMM_MAX_ORDER).erase o, (L j).length * 2 ^ j := by
    refine Finset.sum_congr rfl fun j hj => ?_
    rw [Function.update_of_ne (Finset.ne_of_mem_erase hj)]
  unfold listedPages
  rw [← Finset.add_sum_erase _ _ hmem, ← Finset.add_sum_erase _ _ hmem,
    hrest, Function.update_self]
  ring

theorem listedPages_push (L : Nat → List Nat) {o : Nat}
    (ho : o < PMM_MAX_ORDER) (p : Nat) :
    listedPages (Function.update L o (p :: L o))
      = listedPages L + 2 ^ o := by
  have h := listedPages_update L ho (p :: L o)
  rw [List.length_cons, Nat.add_mul] at h
  omega

theorem listedPages_erase {L : Nat → List Nat} {p o : Nat}
    (ho : o < PMM_MAX_ORDER) (hp : p ∈ L o) :
    listedPages (Function.update L o ((L o).erase p)) + 2 ^ o
      = listedPages L := by
  have h := listedPages_update L ho ((L o).erase p)
  have hlen : (L o).length = ((L o).erase p).length + 1 := by
    have hpos := List.length_pos_of_mem hp
    rw [List.length_erase_of_mem hp]
    omega
  rw [hlen, Nat.add_mul] at h
  omega

-- ==== no buddies

/-- No list below the last holds two buddies. -/
abbrev Merged (L : Nat → List Nat) : Prop :=
  Dyadic.NoBuddies PMM_MAX_ORDER (Listed L)

theorem Merged.erase {L : Nat → List Nat} {p o : Nat} (h : Merged L)
    (hnd : (L o).Nodup) : Merged (Function.update L o ((L o).erase p)) := by
  intro q j hj hq hb
  exact h q j hj ((listed_erase hnd _).mp hq).1 ((listed_erase hnd _).mp hb).1

/-- A block may be listed when its buddy is not. -/
theorem Merged.push {L : Nat → List Nat} {p o : Nat} (h : Merged L)
    (ho : o < PMM_MAX_ORDER) (hal : 2 ^ o ∣ p)
    (hb : o + 1 < PMM_MAX_ORDER → ¬ Listed L ⟨buddy p o, o⟩) :
    Merged (Function.update L o (p :: L o)) := by
  intro q j hj hq hqb
  rcases (listed_push ho _).mp hq with e | hold
  · obtain ⟨rfl, rfl⟩ := Block.mk.inj e
    rcases (listed_push ho _).mp hqb with e' | hqb
    · exact Dyadic.buddy_ne hal (Block.mk.inj e').1
    · exact hb hj hqb
  · rcases (listed_push ho _).mp hqb with e' | hqb
    · obtain ⟨he, rfl⟩ := Block.mk.inj e'
      apply hb hj
      rw [← he, Dyadic.buddy_buddy]
      exact hold
    · exact h q j hj hold hqb

-- ==== the invariant

/-- The representation `s` holds the free blocks `L`, while the blocks
`U` are off the lists; both together are the pages `C`. -/
structure Core (s : Pmm) (L : Nat → List Nat) (U : List Block)
    (X : Nat → Prop) (keep : Nat → Page) (C : Nat → Prop) : Prop where
  list : ∀ o < PMM_MAX_ORDER, IsList s.links (L o)
  head : ∀ o < PMM_MAX_ORDER, (s.freeLists o).head = (L o).head?
  count : ∀ o < PMM_MAX_ORDER, (s.freeLists o).count = (L o).length
  fits : ∀ b, Listed L b ∨ b ∈ U →
    b.Aligned ∧ b.base + 2 ^ b.order ≤ s.maxPfn + 1
  marked : ∀ b, Listed L b →
    (s.pages b.base).free = true ∧ (s.pages b.base).order = b.order
  apartFree : ∀ b c, Listed L b → Listed L c → b ≠ c → b.Apart c
  apartHeld : ∀ b c, Listed L b → c ∈ U → b.Apart c
  apartOut : U.Pairwise Block.Apart
  cover : ∀ q, (InFree L q ∨ ∃ b ∈ U, q ∈ b) ↔ C q
  stale : ∀ q ≤ s.maxPfn, (s.pages q).free = true → InFree L q ∨ X q
  kept : ∀ q, ¬InFree L q → ¬X q → (s.pages q).data = (keep q).data

section Moves

variable {s : Pmm} {L : Nat → List Nat} {U : List Block} {X : Nat → Prop}
  {keep : Nat → Page} {C : Nat → Prop}

/-- A head is on one list only. -/
theorem Core.lists_disjoint (h : Core s L U X keep C) {i j : Nat}
    (hi : i < PMM_MAX_ORDER) (hj : j < PMM_MAX_ORDER) (hij : i ≠ j) :
    ∀ p ∈ L i, p ∉ L j := by
  intro p hp hq
  have hne : (Block.mk p i) ≠ ⟨p, j⟩ := fun e => hij (by injection e)
  have hap := h.apartFree ⟨p, i⟩ ⟨p, j⟩ ⟨hi, hp⟩ ⟨hj, hq⟩ hne
  exact hap.not_mem (Block.base_mem ⟨p, i⟩) (Block.base_mem ⟨p, j⟩)

/-- The key fact about stale descriptors: if the descriptor of the
buddy of an unlisted block says "free, same order", the buddy really is
on the list of that order. -/
theorem Core.buddy_listed (h : Core s L U X keep C) {p o : Nat}
    (hp : Block.mk p o ∈ U) (hX : ∀ q, X q → q ∈ Block.mk p o)
    (hmax : buddy p o ≤ s.maxPfn)
    (hfree : (s.pages (buddy p o)).free = true)
    (hord : (s.pages (buddy p o)).order = o) :
    buddy p o ∈ L o := by
  have hal : 2 ^ o ∣ p := (h.fits _ (Or.inr hp)).1
  have hnot : buddy p o ∉ Block.mk p o := by
    intro hm
    have hm1 : p ≤ buddy p o := hm.1
    have hm2 : buddy p o < p + 2 ^ o := hm.2
    have hpos := Nat.two_pow_pos o
    rcases Dyadic.buddy_cases hal with ⟨he, -⟩ | ⟨he, -⟩ <;> omega
  rcases h.stale _ hmax hfree with ⟨c, hc, hmem⟩ | hx
  · rcases Dyadic.of_mem_buddy hal (h.fits c (Or.inl hc)).1 hmem with
      ⟨hbase, -⟩ | hpc
    · -- the buddy heads a listed block: its order is the one it records
      have hmark := (h.marked c hc).2
      rw [hbase, hord] at hmark
      have hlisted := hc.2
      rw [hbase, ← hmark] at hlisted
      exact hlisted
    · -- the listed block would hold `p`, which is off the lists
      exact absurd hpc
        ((h.apartHeld c _ hc hp).symm.not_mem (Block.base_mem ⟨p, o⟩))
  · exact absurd (hX _ hx) hnot

/-- Taking a block off its list. -/
theorem Core.remove (h : Core s L U X keep C) {p o : Nat}
    (ho : o < PMM_MAX_ORDER) (hp : p ∈ L o) :
    Core (s.freeListRemove o p) (Function.update L o ((L o).erase p))
      (⟨p, o⟩ :: U) (fun q => X q ∨ q ∈ Block.mk p o) keep C := by
  have hnd := (h.list o ho).nodup
  have hb : Listed L ⟨p, o⟩ := ⟨ho, hp⟩
  have hlisted := listed_erase (L := L) (p := p) hnd
  have hdata := freeListRemove_data s o p
  have hmax := (freeListRemove_fixed s o p).1
  have hfree : ∀ q, InFree L q →
      InFree (Function.update L o ((L o).erase p)) q ∨ q ∈ Block.mk p o := by
    rintro q ⟨b, hbl, hq⟩
    by_cases he : b = ⟨p, o⟩
    · exact Or.inr (he ▸ hq)
    · exact Or.inl ⟨b, (hlisted b).mpr ⟨hbl, he⟩, hq⟩
  have hfree' : ∀ q, InFree (Function.update L o ((L o).erase p)) q →
      InFree L q := by
    rintro q ⟨b, hbl, hq⟩
    exact ⟨b, ((hlisted b).mp hbl).1, hq⟩
  refine ⟨?_, ?_, ?_, ?_, ?_, ?_, ?_, ?_, ?_, ?_, ?_⟩
  · intro j hj
    rw [freeListRemove_links]
    by_cases hjo : j = o
    · subst hjo
      rw [Function.update_self]
      exact (h.list j hj).erase hp
    · rw [Function.update_of_ne hjo]
      exact (h.list o ho).unlink_frame hp (h.list j hj)
        (h.lists_disjoint hj ho hjo)
  · intro j hj
    by_cases hjo : j = o
    · subst hjo
      rw [Function.update_self, freeListRemove_head_self, h.head j hj]
      exact (h.list j hj).erase_head hp
    · rw [Function.update_of_ne hjo, freeListRemove_freeLists_of_ne s hjo]
      exact h.head j hj
  · intro j hj
    by_cases hjo : j = o
    · subst hjo
      rw [Function.update_self, freeListRemove_count_self, h.count j hj,
        List.length_erase_of_mem hp]
    · rw [Function.update_of_ne hjo, freeListRemove_freeLists_of_ne s hjo]
      exact h.count j hj
  · rintro b (hbl | hbu)
    · rw [hmax]
      exact h.fits b (Or.inl ((hlisted b).mp hbl).1)
    · rw [hmax]
      rcases List.mem_cons.mp hbu with rfl | hbu
      · exact h.fits _ (Or.inl hb)
      · exact h.fits b (Or.inr hbu)
  · intro b hbl
    obtain ⟨hf, hord⟩ := Page.data_tests (hdata b.base)
    rw [hf, hord]
    exact h.marked b ((hlisted b).mp hbl).1
  · intro b c hbl hcl hne
    exact h.apartFree b c ((hlisted b).mp hbl).1 ((hlisted c).mp hcl).1 hne
  · intro b c hbl hcu
    obtain ⟨hbl, hne⟩ := (hlisted b).mp hbl
    rcases List.mem_cons.mp hcu with rfl | hcu
    · exact h.apartFree b _ hbl hb hne
    · exact h.apartHeld b c hbl hcu
  · exact List.pairwise_cons.mpr
      ⟨fun c hc => h.apartHeld _ c hb hc, h.apartOut⟩
  · intro q
    rw [← h.cover q]
    constructor
    · rintro (hq | ⟨c, hc, hq⟩)
      · exact Or.inl (hfree' q hq)
      · rcases List.mem_cons.mp hc with rfl | hc
        · exact Or.inl ⟨_, hb, hq⟩
        · exact Or.inr ⟨c, hc, hq⟩
    · rintro (hq | ⟨c, hc, hq⟩)
      · rcases hfree q hq with hq | hq
        · exact Or.inl hq
        · exact Or.inr ⟨_, List.mem_cons_self, hq⟩
      · exact Or.inr ⟨c, List.mem_cons_of_mem _ hc, hq⟩
  · intro q hq hf
    rw [hmax] at hq
    rw [(Page.data_tests (hdata q)).1] at hf
    rcases h.stale q hq hf with hin | hx
    · rcases hfree q hin with hin | hin
      · exact Or.inl hin
      · exact Or.inr (Or.inr hin)
    · exact Or.inr (Or.inl hx)
  · intro q hnin hnx
    rw [hdata q]
    refine h.kept q (fun hin => ?_) fun hx => hnx (Or.inl hx)
    rcases hfree q hin with hin | hin
    · exact hnin hin
    · exact hnx (Or.inr hin)

/-- Putting a block on the list of its order, its head marked. -/
theorem Core.push {p o : Nat} (h : Core s L (⟨p, o⟩ :: U) X keep C)
    (ho : o < PMM_MAX_ORDER) (hfree : (s.pages p).free = true)
    (hord : (s.pages p).order = o) {Y : Nat → Prop}
    (hX : ∀ q, X q → Y q ∨ q ∈ Block.mk p o) :
    Core (s.freeListPush o p) (Function.update L o (p :: L o)) U Y keep C := by
  have hlisted := listed_push (L := L) (p := p) ho
  have hdata := freeListPush_data s o p
  have hmax := (freeListPush_fixed s o p).1
  have hself : Block.mk p o ∈ Block.mk p o :: U := List.mem_cons_self
  have hnot : ∀ j < PMM_MAX_ORDER, p ∉ L j := by
    intro j hj hm
    exact (h.apartHeld ⟨p, j⟩ _ ⟨hj, hm⟩ hself).not_mem
      (Block.base_mem ⟨p, j⟩) (Block.base_mem ⟨p, o⟩)
  have hin : ∀ q, InFree (Function.update L o (p :: L o)) q ↔
      InFree L q ∨ q ∈ Block.mk p o := by
    intro q
    constructor
    · rintro ⟨b, hbl, hq⟩
      rcases (hlisted b).mp hbl with rfl | hbl
      · exact Or.inr hq
      · exact Or.inl ⟨b, hbl, hq⟩
    · rintro (⟨b, hbl, hq⟩ | hq)
      · exact ⟨b, (hlisted b).mpr (Or.inr hbl), hq⟩
      · exact ⟨_, (hlisted _).mpr (Or.inl rfl), hq⟩
  obtain ⟨hap, hapU⟩ := List.pairwise_cons.mp h.apartOut
  refine ⟨?_, ?_, ?_, ?_, ?_, ?_, ?_, hapU, ?_, ?_, ?_⟩
  · intro j hj
    rw [freeListPush_links, h.head o ho]
    by_cases hjo : j = o
    · subst hjo
      rw [Function.update_self]
      exact (h.list j hj).pushFront (hnot j hj)
    · rw [Function.update_of_ne hjo]
      exact (h.list j hj).pushFront_frame (hnot j hj)
        (h.lists_disjoint hj ho hjo)
  · intro j hj
    by_cases hjo : j = o
    · subst hjo
      rw [Function.update_self, freeListPush_head_self]
      rfl
    · rw [Function.update_of_ne hjo, freeListPush_freeLists_of_ne s hjo]
      exact h.head j hj
  · intro j hj
    by_cases hjo : j = o
    · subst hjo
      rw [Function.update_self, freeListPush_count_self, h.count j hj]
      rfl
    · rw [Function.update_of_ne hjo, freeListPush_freeLists_of_ne s hjo]
      exact h.count j hj
  · rintro b (hbl | hbu)
    · rw [hmax]
      rcases (hlisted b).mp hbl with rfl | hbl
      · exact h.fits _ (Or.inr hself)
      · exact h.fits b (Or.inl hbl)
    · rw [hmax]
      exact h.fits b (Or.inr (List.mem_cons_of_mem _ hbu))
  · intro b hbl
    obtain ⟨hf, hod⟩ := Page.data_tests (hdata b.base)
    rw [hf, hod]
    rcases (hlisted b).mp hbl with rfl | hbl
    · exact ⟨hfree, hord⟩
    · exact h.marked b hbl
  · intro b c hbl hcl hne
    rcases (hlisted b).mp hbl with rfl | hbl
    · rcases (hlisted c).mp hcl with rfl | hcl
      · exact absurd rfl hne
      · exact (h.apartHeld c _ hcl hself).symm
    · rcases (hlisted c).mp hcl with rfl | hcl
      · exact h.apartHeld b _ hbl hself
      · exact h.apartFree b c hbl hcl hne
  · intro b c hbl hcu
    rcases (hlisted b).mp hbl with rfl | hbl
    · exact hap c hcu
    · exact h.apartHeld b c hbl (List.mem_cons_of_mem _ hcu)
  · intro q
    rw [← h.cover q, hin q]
    constructor
    · rintro ((hq | hq) | ⟨c, hc, hq⟩)
      · exact Or.inl hq
      · exact Or.inr ⟨_, hself, hq⟩
      · exact Or.inr ⟨c, List.mem_cons_of_mem _ hc, hq⟩
    · rintro (hq | ⟨c, hc, hq⟩)
      · exact Or.inl (Or.inl hq)
      · rcases List.mem_cons.mp hc with rfl | hc
        · exact Or.inl (Or.inr hq)
        · exact Or.inr ⟨c, hc, hq⟩
  · intro q hq hf
    rw [hmax] at hq
    rw [(Page.data_tests (hdata q)).1] at hf
    rw [hin q]
    rcases h.stale q hq hf with hL | hx
    · exact Or.inl (Or.inl hL)
    · rcases hX q hx with hx | hx
      · exact Or.inr hx
      · exact Or.inl (Or.inr hx)
  · intro q hnin hnx
    rw [hin q] at hnin
    rw [hdata q]
    refine h.kept q (fun hL => hnin (Or.inl hL)) fun hx => ?_
    rcases hX q hx with hx | hx
    · exact hnx hx
    · exact hnin (Or.inr hx)

/-- Descriptors of unlisted pages may change, as long as the links do
not. -/
theorem Core.restamp (h : Core s L U X keep C) {s' : Pmm}
    (hlinks : s'.links = s.links) (hlists : s'.freeLists = s.freeLists)
    (hmax : s'.maxPfn = s.maxPfn)
    (hdata : ∀ q, ¬X q → (s'.pages q).data = (s.pages q).data)
    (hX : ∀ q, X q → ∃ b ∈ U, q ∈ b) : Core s' L U X keep C := by
  refine ⟨?_, ?_, ?_, ?_, ?_, h.apartFree, h.apartHeld, h.apartOut, h.cover,
    ?_, ?_⟩
  · rw [hlinks]; exact h.list
  · rw [hlists]; exact h.head
  · rw [hlists]; exact h.count
  · rw [hmax]; exact h.fits
  · intro b hb
    have hnx : ¬X b.base := by
      intro hx
      obtain ⟨c, hc, hm⟩ := hX _ hx
      exact (h.apartHeld b c hb hc).not_mem (Block.base_mem b) hm
    obtain ⟨hf, ho⟩ := Page.data_tests (hdata _ hnx)
    rw [hf, ho]
    exact h.marked b hb
  · intro q hq hf
    by_cases hx : X q
    · exact Or.inr hx
    · rw [(Page.data_tests (hdata q hx)).1] at hf
      rw [hmax] at hq
      exact h.stale q hq hf
  · intro q hnin hnx
    rw [hdata q hnx]
    exact h.kept q hnin hnx

/-- `restamp` for a store into one page of the open region. -/
theorem Core.stamp (h : Core s L U X keep C)
    (hX : ∀ q, X q → ∃ b ∈ U, q ∈ b) {p : Nat} (hp : X p) {f : Page → Page}
    (hn : ∀ q, (f q).next = q.next) (hpv : ∀ q, (f q).prev = q.prev) :
    Core (s.modPage p f) L U X keep C := by
  refine h.restamp (modPage_links s p hn hpv) rfl rfl ?_ hX
  intro q hq
  have hne : q ≠ p := fun e => hq (by rw [e]; exact hp)
  rw [modPage_pages_of_ne s hne]

/-- Closing part of the open region: nothing in it is marked free any
more, and its descriptors are what is kept from here on. -/
theorem Core.close (h : Core s L U X keep C) {Y : Nat → Prop}
    {keep' : Nat → Page}
    (hfree : ∀ q ≤ s.maxPfn, X q → (s.pages q).free = true → Y q)
    (hkeep : ∀ q, ¬InFree L q → ¬Y q →
      (s.pages q).data = (keep' q).data) :
    Core s L U Y keep' C := by
  refine ⟨h.list, h.head, h.count, h.fits, h.marked, h.apartFree,
    h.apartHeld, h.apartOut, h.cover, ?_, hkeep⟩
  intro q hq hf
  rcases h.stale q hq hf with hin | hx
  · exact Or.inl hin
  · exact Or.inr (hfree q hq hx hf)

/-- Replacing unlisted blocks by others on the same pages. -/
theorem Core.repartition (h : Core s L U X keep C) {U' : List Block}
    (hfits : ∀ b ∈ U', b.Aligned ∧ b.base + 2 ^ b.order ≤ s.maxPfn + 1)
    (hapart : U'.Pairwise Block.Apart)
    (hsame : ∀ q, (∃ b ∈ U', q ∈ b) ↔ ∃ b ∈ U, q ∈ b) :
    Core s L U' X keep C := by
  refine ⟨h.list, h.head, h.count, ?_, h.marked, h.apartFree, ?_, hapart,
    ?_, h.stale, h.kept⟩
  · rintro b (hb | hb)
    · exact h.fits b (Or.inl hb)
    · exact hfits b hb
  · intro b c hb hc
    refine Block.apart_of_not_mem fun q hqb hqc => ?_
    obtain ⟨d, hd, hqd⟩ := (hsame q).mp ⟨c, hc, hqc⟩
    exact (h.apartHeld b d hb hd).not_mem hqb hqd
  · intro q
    rw [hsame q]
    exact h.cover q

/-- The order in which the unlisted blocks are named does not matter. -/
theorem Core.perm (h : Core s L U X keep C) {U' : List Block}
    (hp : U.Perm U') : Core s L U' X keep C := by
  refine h.repartition ?_ ?_ ?_
  · intro b hb
    exact h.fits b (Or.inr (hp.mem_iff.mpr hb))
  · exact (hp.pairwise_iff fun hbc => Block.Apart.symm hbc).mp h.apartOut
  · intro q
    constructor
    · rintro ⟨b, hb, hq⟩
      exact ⟨b, hp.mem_iff.mpr hb, hq⟩
    · rintro ⟨b, hb, hq⟩
      exact ⟨b, hp.mem_iff.mp hb, hq⟩

/-- Taking charge of a block of pages not covered so far. -/
theorem Core.adopt (h : Core s L U X keep C) {b : Block}
    (hb : b.Aligned) (hfit : b.base + 2 ^ b.order ≤ s.maxPfn + 1)
    (hnew : ∀ q ∈ b, ¬C q) :
    Core s L (b :: U) (fun q => X q ∨ q ∈ b) keep
      (fun q => C q ∨ q ∈ b) := by
  refine ⟨h.list, h.head, h.count, ?_, h.marked, h.apartFree, ?_, ?_, ?_,
    ?_, ?_⟩
  · rintro c (hc | hc)
    · exact h.fits c (Or.inl hc)
    · rcases List.mem_cons.mp hc with rfl | hc
      · exact ⟨hb, hfit⟩
      · exact h.fits c (Or.inr hc)
  · intro c d hc hd
    rcases List.mem_cons.mp hd with rfl | hd
    · exact Block.apart_of_not_mem fun q hqc hqd =>
        hnew q hqd ((h.cover q).mp (Or.inl ⟨c, hc, hqc⟩))
    · exact h.apartHeld c d hc hd
  · refine List.pairwise_cons.mpr ⟨fun c hc => ?_, h.apartOut⟩
    exact Block.apart_of_not_mem fun q hqb hqc =>
      hnew q hqb ((h.cover q).mp (Or.inr ⟨c, hc, hqc⟩))
  · intro q
    rw [← h.cover q, List.exists_mem_cons_iff, or_assoc]
    exact or_congr Iff.rfl or_comm
  · intro q hq hf
    rcases h.stale q hq hf with hin | hx
    · exact Or.inl hin
    · exact Or.inr (Or.inl hx)
  · intro q hin hx
    exact h.kept q hin fun hq => hx (Or.inl hq)

/-- Two unlisted buddies are one unlisted block of the next order. -/
theorem Core.merge {p o : Nat}
    (h : Core s L (⟨buddy p o, o⟩ :: ⟨p, o⟩ :: U) X keep C) :
    Core s L (⟨min p (buddy p o), o + 1⟩ :: U) X keep C := by
  have hp : Block.mk p o ∈ Block.mk (buddy p o) o :: ⟨p, o⟩ :: U := by simp
  have hb : Block.mk (buddy p o) o ∈ Block.mk (buddy p o) o :: ⟨p, o⟩ :: U := by
    simp
  obtain ⟨hal, hpe⟩ := h.fits _ (Or.inr hp)
  obtain ⟨-, hbe⟩ := h.fits _ (Or.inr hb)
  change 2 ^ o ∣ p at hal
  obtain ⟨hab, hrest⟩ := List.pairwise_cons.mp h.apartOut
  obtain ⟨hap, hU⟩ := List.pairwise_cons.mp hrest
  refine h.repartition ?_ ?_ ?_
  · intro b hbU
    rcases List.mem_cons.mp hbU with rfl | hbU
    · refine ⟨Dyadic.merge_aligned hal, ?_⟩
      change p + 2 ^ o ≤ s.maxPfn + 1 at hpe
      change buddy p o + 2 ^ o ≤ s.maxPfn + 1 at hbe
      change min p (buddy p o) + 2 ^ (o + 1) ≤ s.maxPfn + 1
      rw [pow_succ]
      rcases Dyadic.buddy_cases hal with ⟨he, -⟩ | ⟨he, -⟩ <;> omega
    · exact h.fits b (Or.inr (by simp [hbU]))
  · refine List.pairwise_cons.mpr ⟨fun c hc => ?_, hU⟩
    refine Block.apart_of_not_mem fun q hq hqc => ?_
    rcases (Dyadic.mem_merge hal).mp hq with hq | hq
    · exact (hap c hc).not_mem hq hqc
    · exact (hab c (List.mem_cons_of_mem _ hc)).not_mem hq hqc
  · intro q
    simp only [List.exists_mem_cons_iff, Dyadic.mem_merge hal]
    tauto

/-- An unlisted block is its two halves. -/
theorem Core.split {p o : Nat}
    (h : Core s L (⟨p, o + 1⟩ :: U) X keep C) :
    Core s L (⟨p + 2 ^ o, o⟩ :: ⟨p, o⟩ :: U) X keep C := by
  obtain ⟨hal, hpe⟩ := h.fits ⟨p, o + 1⟩ (Or.inr List.mem_cons_self)
  change 2 ^ (o + 1) ∣ p at hal
  change p + 2 ^ (o + 1) ≤ s.maxPfn + 1 at hpe
  have hhalf : 2 ^ o ∣ p := Nat.dvd_trans ⟨2, by ring⟩ hal
  obtain ⟨hap, hU⟩ := List.pairwise_cons.mp h.apartOut
  have hmem : ∀ q, q ∈ Block.mk p (o + 1)
      ↔ q ∈ Block.mk (p + 2 ^ o) o ∨ q ∈ Block.mk p o := by
    intro q
    simp only [Block.mem_def, pow_succ]
    omega
  refine h.repartition ?_ ?_ ?_
  · intro b hb
    simp only [List.mem_cons] at hb
    rcases hb with rfl | rfl | hb
    · refine ⟨Nat.dvd_add hhalf (Nat.dvd_refl _), ?_⟩
      change p + 2 ^ o + 2 ^ o ≤ _
      omega
    · refine ⟨hhalf, ?_⟩
      change p + 2 ^ o ≤ _
      omega
    · exact h.fits b (Or.inr (by simp [hb]))
  · refine List.pairwise_cons.mpr ⟨fun c hc => ?_,
      List.pairwise_cons.mpr ⟨fun c hc => ?_, hU⟩⟩
    · rcases List.mem_cons.mp hc with rfl | hc
      · exact Or.inr (Nat.le_refl _)
      · refine Block.apart_of_not_mem fun q hq hqc => ?_
        exact (hap c hc).not_mem ((hmem q).mpr (Or.inl hq)) hqc
    · refine Block.apart_of_not_mem fun q hq hqc => ?_
      exact (hap c hc).not_mem ((hmem q).mpr (Or.inr hq)) hqc
  · intro q
    simp only [List.exists_mem_cons_iff, hmem q]
    tauto

end Moves

end Alix.Pmm
