/-
What `slab_alloc` and `slab_free` do to one slab.

Both work on one page, and on the link words of the slabs when the page
changes its list (`Worked`). `slabTake_at` and `slabFree_at` say what is
in the page afterwards and which list it is on, for any cache and however
its slabs are divided; `slabTake_outside` and `slabFree_outside` say which
bytes are written. `slabTake_spec` and `slabFree_spec` are the case of the
size classes.
-/
import Alix.Mm.Proofs.HeapInv

namespace Alix.Kheap

open Bytes (Memory load store store_outside)
open Dll (Links IsList)

variable {s s' t : Kheap} {C P : Nat → Prop} {c q x : Nat} {free : List Nat} {S : Shape}
  {lists : Nat → SlabList → List Nat}

-- ==== the frame

/-- Only the page `q` has been written, and link words of `P`. -/
structure Worked (s s' : Kheap) (P : Nat → Prop) (q : Nat) : Prop where
  pmm : s'.pmm = s.pmm
  hhdm : s'.hhdm = s.hhdm
  allocs : s'.totalAllocCount = s.totalAllocCount
  frees : s'.totalFreeCount = s.totalFreeCount
  sizes : ∀ c, (s'.caches c).objSize = (s.caches c).objSize
    ∧ (s'.caches c).objAlign = (s.caches c).objAlign
  mem : ∀ x, (∀ p, P p → ¬ (pageAt s.hhdm p ≤ x ∧ x < pageAt s.hhdm p + 16)) →
    ¬ (pageAt s.hhdm q ≤ x ∧ x < pageAt s.hhdm q + 4096) → s'.mem x = s.mem x

theorem Relinked.worked (h : Relinked s s' P) (q : Nat) : Worked s s' P q :=
  ⟨h.pmm, h.hhdm, h.allocs, h.frees, h.sizes, fun x hx _ => h.mem x hx⟩

theorem Worked.trans (h : Worked s s' P q) (h' : Worked s' t P q) : Worked s t P q where
  pmm := h'.pmm.trans h.pmm
  hhdm := h'.hhdm.trans h.hhdm
  allocs := h'.allocs.trans h.allocs
  frees := h'.frees.trans h.frees
  sizes c := ⟨(h'.sizes c).1.trans (h.sizes c).1, (h'.sizes c).2.trans (h.sizes c).2⟩
  mem x hx hq :=
    (h'.mem x (by rw [h.hhdm]; exact hx) (by rw [h.hhdm]; exact hq)).trans (h.mem x hx hq)

theorem worked_put (s : Kheap) (P : Nat → Prop) {a n w h : Nat} (hh : s.hhdm = h)
    (h1 : pageAt h q ≤ a) (h2 : a + n ≤ pageAt h q + 4096) : Worked s (s.put a n w) P q := by
  refine ⟨rfl, rfl, rfl, rfl, fun _ => ⟨rfl, rfl⟩, fun x _ hq => ?_⟩
  rw [hh] at hq
  exact store_outside (by omega)

theorem worked_modCache (s : Kheap) (P : Nat → Prop) (c q : Nat) {f : SlabCache → SlabCache}
    (hf : ∀ cache, (f cache).objSize = cache.objSize ∧ (f cache).objAlign = cache.objAlign) :
    Worked s (s.modCache c f) P q := by
  refine ⟨rfl, rfl, rfl, rfl, fun c' => ?_, fun _ _ _ => rfl⟩
  by_cases h : c' = c
  · rw [h, modCache_self]
    exact hf _
  · rw [modCache_of_ne s h]
    exact ⟨rfl, rfl⟩

/-- A store that keeps the heads and the links keeps the lists. -/
theorem OnLists.congr (h : OnLists C s lists P) (hhdm : s'.hhdm = s.hhdm)
    (hhead : ∀ c k, s'.head c k = s.head c k)
    (hm : ∀ p, P p → ∀ x, pageAt s.hhdm p ≤ x → x < pageAt s.hhdm p + 16 →
      s'.mem x = s.mem x) : OnLists C s' lists P := by
  obtain ⟨⟨l, hl, hlist⟩, hheads, hmember, halone, hlow⟩ := h
  refine ⟨⟨l, ?_, hlist⟩, fun c k hc => ?_, hmember, halone, fun p hp => ?_⟩
  · rw [hhdm]
    exact hl.congr hm
  · rw [hhead, hhdm]
    exact hheads c k hc
  · rw [hhdm]
    exact hlow p hp

theorem Listed.congr (h : Listed s lists P) (hhdm : s'.hhdm = s.hhdm)
    (hhead : ∀ c k, s'.head c k = s.head c k)
    (hm : ∀ p, P p → ∀ x, pageAt s.hhdm p ≤ x → x < pageAt s.hhdm p + 16 →
      s'.mem x = s.mem x) : Listed s' lists P :=
  listed_iff.mpr ((listed_iff.mp h).congr hhdm hhead hm)

/-- Relinking leaves the inside of a slab alone. -/
theorem Shape.At.relinked (h : S.At s.hhdm s.mem q free) (hr : Relinked s s' P) :
    S.At s.hhdm s'.mem q free := by
  refine h.congr_page fun a h1 h2 => hr.mem a fun p _ hp => ?_
  unfold pageAt at h1 h2 hp
  omega

-- ==== slab_alloc

/-- The first slot is off the freelist, and counted. -/
def takeSlot (s : Kheap) (c slab : Nat) : Kheap :=
  let s := s.put (slab + 16) 8 (s.get64 (s.get64 (slab + 16)))
  let s := s.put (slab + 24) 4 ((s.get32 (slab + 24) + 1) % 2 ^ 32)
  s.modCache c fun cache => { cache with allocCount := cache.allocCount + 1 }

theorem slabTake_eq (s : Kheap) (c : Nat) :
    s.slabTake c
      = (if (s.takeSlot c (s.head c .partials)).get64 (s.head c .partials + 16) = 0 then
          ((s.takeSlot c (s.head c .partials)).slabListRemove c .partials
            (s.head c .partials)).slabListPush c .full (s.head c .partials)
        else s.takeSlot c (s.head c .partials), s.get64 (s.head c .partials + 16)) := rfl

theorem slabTake_frame (s : Kheap) (c : Nat) :
    (s.slabTake c).1.pmm = s.pmm ∧ (s.slabTake c).1.hhdm = s.hhdm := by
  rw [slabTake_eq]
  dsimp only
  split
  · obtain ⟨hp, hh⟩ := slabListRemove_frame (s.takeSlot c (s.head c .partials)) c .partials
      (s.head c .partials)
    obtain ⟨hp', hh'⟩ := slabListPush_frame
      ((s.takeSlot c (s.head c .partials)).slabListRemove c .partials (s.head c .partials))
      c .full (s.head c .partials)
    exact ⟨hp'.trans hp, hh'.trans hh⟩
  · exact ⟨rfl, rfl⟩

theorem head_modCache (s : Kheap) (c : Nat) {f : SlabCache → SlabCache}
    (hf : ∀ cache, (f cache).partialHead = cache.partialHead
      ∧ (f cache).fullHead = cache.fullHead) (c' : Nat) (k : SlabList) :
    (s.modCache c f).head c' k = s.head c' k := by
  unfold head
  by_cases h : c' = c
  · rw [h, modCache_self]
    cases k with
    | partials => exact (hf _).1
    | full => exact (hf _).2
  · rw [modCache_of_ne s h]

/-- Taking a slot writes two words of the header. -/
theorem takeSlot_outside (s : Kheap) (c slab : Nat) {a : Nat}
    (h : ¬ (slab + 16 ≤ a ∧ a < slab + 28)) : (s.takeSlot c slab).mem a = s.mem a := by
  show store (store s.mem (slab + 16) 8 _) (slab + 24) 4 _ a = _
  rw [store_outside (by omega), store_outside (by omega)]

/-- The lists do not see it. -/
theorem OnLists.takeSlot (h : OnLists C s lists P) (c q : Nat) :
    OnLists C (s.takeSlot c (pageAt s.hhdm q)) lists P := by
  have hheads : ∀ c' k, (s.takeSlot c (pageAt s.hhdm q)).head c' k = s.head c' k := by
    intro c' k
    exact head_modCache _ c
      (f := fun cache => { cache with allocCount := cache.allocCount + 1 })
      (fun _ => ⟨rfl, rfl⟩) c' k
  refine h.congr rfl hheads fun p hp a h1 h2 => s.takeSlot_outside c _ ?_
  unfold pageAt at h1 h2 ⊢
  omega

/-- The lists after a slab has other free slots: it is on the list they put
it on, and the other pages are where they were. -/
def Regrouped (lists lists' : Nat → SlabList → List Nat) (c q : Nat) (free : List Nat) : Prop :=
  ∀ c₁ k₁ p, p ∈ lists' c₁ k₁ ↔
    (p = q ∧ c₁ = c ∧ k₁ = listOf free) ∨ (p ≠ q ∧ p ∈ lists c₁ k₁)

/-- A slab that stays where it is. -/
theorem regrouped_stay (h : OnLists C s lists P) (hq : q ∈ lists c (listOf free)) :
    Regrouped lists lists c q free := by
  intro c₁ k₁ p
  by_cases he : p = q
  · rw [he]
    constructor
    · intro hp
      exact Or.inl ⟨rfl, h.alone c (listOf free) c₁ k₁ q hq hp⟩
    · intro hp
      cases hp with
      | inl hp =>
          obtain ⟨-, rfl, rfl⟩ := hp
          exact hq
      | inr hp => exact absurd rfl hp.1
  · constructor
    · intro hp
      exact Or.inr ⟨he, hp⟩
    · intro hp
      cases hp with
      | inl hp => exact absurd hp.1 he
      | inr hp => exact hp.2

/-- A slab that goes to the other list of its cache. -/
theorem regrouped_move (free : List Nat) (h : OnLists C s lists P) {k : SlabList}
    (hk : listOf free ≠ k) (hq : q ∈ lists c k) :
    Regrouped lists (setList (setList lists c k ((lists c k).erase q)) c (listOf free)
      (q :: setList lists c k ((lists c k).erase q) c (listOf free))) c q free := by
  intro c₁ k₁ p
  obtain ⟨l, -, hlist⟩ := h.linked
  rw [mem_moved hk (hlist c k).nodup]
  by_cases he : p = q
  · rw [he]
    constructor
    · intro hp
      cases hp with
      | inl hp => exact Or.inl hp
      | inr hp => exact absurd ⟨rfl, h.alone c k c₁ k₁ q hq hp.1⟩ hp.2
    · intro hp
      cases hp with
      | inl hp => exact Or.inl hp
      | inr hp => exact absurd rfl hp.1
  · constructor
    · intro hp
      cases hp with
      | inl hp => exact absurd hp.1 he
      | inr hp => exact Or.inr ⟨he, hp.1⟩
    · intro hp
      cases hp with
      | inl hp => exact absurd hp.1 he
      | inr hp => exact Or.inr ⟨hp.2, fun e => he e.1⟩

/-- The first slot of the first slab with a free one. -/
theorem slabTake_at (hh : 0 < s.hhdm) (h : OnLists C s lists P) (hc : C c)
    (hhead : (lists c .partials).head? = some q) (hs : S.At s.hhdm s.mem q (x :: free)) :
    (s.slabTake c).2 = x ∧ S.At s.hhdm (s.slabTake c).1.mem q free
      ∧ Worked s (s.slabTake c).1 P q
      ∧ ∃ lists', OnLists C (s.slabTake c).1 lists' P ∧ Regrouped lists lists' c q free := by
  have hq : q ∈ lists c .partials := List.mem_of_mem_head? (by rw [hhead]; rfl)
  have hptr : s.head c .partials = pageAt s.hhdm q := by
    rw [h.head c .partials hc, hhead]
    rfl
  obtain ⟨hx, -⟩ := hs.chain
  have hobj : s.get64 (pageAt s.hhdm q + 16) = x := hx
  rw [slabTake_eq, hptr]
  refine ⟨hobj, ?_⟩
  -- the slot is off the list
  have hslab : S.At s.hhdm (s.takeSlot c (pageAt s.hhdm q)).mem q free := by
    unfold takeSlot
    rw [hobj]
    exact hs.take rfl
  have hwork : Worked s (s.takeSlot c (pageAt s.hhdm q)) P q := by
    unfold takeSlot
    refine ((worked_put s P (h := s.hhdm) rfl ?_ ?_).trans
      (worked_put _ P (h := s.hhdm) rfl ?_ ?_)).trans
      (worked_modCache _ P c q fun _ => ⟨rfl, rfl⟩)
    all_goals omega
  have hlist := h.takeSlot c q
  revert hslab hwork hlist
  generalize s.takeSlot c (pageAt s.hhdm q) = t
  intro hslab hwork hlist
  have hzero : t.get64 (pageAt s.hhdm q + 16) = 0 ↔ free = [] := hslab.freelist_zero
  by_cases he : free = []
  · simp only [hzero.mpr he, if_true]
    have hlo : listOf free = .full := if_pos he
    rw [← hwork.hhdm] at hslab hh ⊢
    obtain ⟨hmoved, hr⟩ := hlist.move hh hc .full hq
    refine ⟨hslab.relinked hr, hwork.trans (hr.worked q), _, hmoved, ?_⟩
    have hre := regrouped_move free h (k := .partials)
      (by rw [hlo]; intro e; cases e) hq
    rw [hlo] at hre
    exact hre
  · simp only [mt hzero.mp he, if_false]
    have hlo : listOf free = .partials := if_neg he
    exact ⟨hslab, hwork, lists, hlist, regrouped_stay h (by rw [hlo]; exact hq)⟩

/-- Two words of its header are written, and links. -/
theorem slabTake_outside (hh : 0 < s.hhdm) (h : OnLists C s lists P) (hc : C c)
    (hhead : (lists c .partials).head? = some q) {a : Nat}
    (hlink : ∀ p, P p → ¬ (pageAt s.hhdm p ≤ a ∧ a < pageAt s.hhdm p + 16))
    (hmeta : ¬ (pageAt s.hhdm q + 16 ≤ a ∧ a < pageAt s.hhdm q + 28)) :
    (s.slabTake c).1.mem a = s.mem a := by
  have hq : q ∈ lists c .partials := List.mem_of_mem_head? (by rw [hhead]; rfl)
  have hptr : s.head c .partials = pageAt s.hhdm q := by
    rw [h.head c .partials hc, hhead]
    rfl
  have htaken := s.takeSlot_outside c (pageAt s.hhdm q) hmeta
  have hlist := h.takeSlot c q
  have hhdm : (s.takeSlot c (pageAt s.hhdm q)).hhdm = s.hhdm := rfl
  rw [slabTake_eq, hptr]
  revert htaken hlist hhdm
  generalize s.takeSlot c (pageAt s.hhdm q) = t
  intro htaken hlist hhdm
  rw [← htaken]
  rw [← hhdm] at hh hlink ⊢
  obtain ⟨-, hr⟩ := hlist.move hh hc .full hq
  dsimp only
  split
  · exact hr.mem a hlink
  · rfl

-- ==== slab_free

/-- The page of a pointer. -/
theorem pfn_of_ptr {h : Nat} (ha : h % 4096 = 0) (h1 : pageAt h q ≤ x)
    (h2 : x < pageAt h q + 4096) : physPfn (pageAlignDown x - h) = q := by
  have hs : PAGE_SIZE = 4096 := rfl
  unfold physPfn pageAlignDown
  rw [hs]
  unfold pageAt at h1 h2
  omega

/-- The slot is on the freelist, and counted. -/
def giveSlot (s : Kheap) (c slab ptr : Nat) : Kheap :=
  let s := s.put ptr 8 (s.get64 (slab + 16))
  let s := s.put (slab + 16) 8 ptr
  let s := s.put (slab + 24) 4 ((s.get32 (slab + 24) + (2 ^ 32 - 1)) % 2 ^ 32)
  s.modCache c fun cache => { cache with freeCount := cache.freeCount + 1 }

theorem slabFree_eq (s : Kheap) (c ptr : Nat) {slab : Nat}
    (h : s.slabFromPage (physPfn (s.virtToPhys (pageAlignDown ptr))) = slab) :
    s.slabFree c ptr
      = (if s.get64 (slab + 16) = 0 ∧ s.get32 (slab + 24) = s.get32 (slab + 28) then
          (s.slabListRemove c .full slab).slabListPush c .partials slab
        else s).giveSlot c slab ptr := by
  rw [← h]
  rfl

/-- A slab without a free slot looks full to `slab_free`. -/
theorem Shape.At.full_iff (hs : S.At s.hhdm s.mem q free) :
    (s.get64 (pageAt s.hhdm q + 16) = 0
      ∧ s.get32 (pageAt s.hhdm q + 24) = s.get32 (pageAt s.hhdm q + 28)) ↔ free = [] := by
  constructor
  · intro hf
    exact hs.freelist_zero.mp hf.1
  · intro he
    refine ⟨hs.freelist_zero.mpr he, ?_⟩
    have hin := hs.inuse
    rw [he] at hin
    exact hin.trans hs.total.symm

/-- A slot given back to a slab whose lists are in order. -/
theorem giveSlot_at (h : OnLists C s lists P) (hs : S.At s.hhdm s.mem q free)
    (hx : S.IsSlot s.hhdm q x) (hnew : x ∉ free) (hroom : pageAt s.hhdm q + 4096 ≤ 2 ^ 64) :
    S.At s.hhdm (s.giveSlot c (pageAt s.hhdm q) x).mem q (x :: free)
      ∧ Worked s (s.giveSlot c (pageAt s.hhdm q) x) P q
      ∧ OnLists C (s.giveSlot c (pageAt s.hhdm q) x) lists P := by
  have hsize := S.pointer
  have hb := hx.bounds
  refine ⟨?_, ?_, ?_⟩
  · unfold giveSlot
    exact hs.give hx hnew hroom rfl rfl
  · unfold giveSlot
    refine (((worked_put s P (h := s.hhdm) rfl ?_ ?_).trans
      (worked_put _ P (h := s.hhdm) rfl ?_ ?_)).trans
      (worked_put _ P (h := s.hhdm) rfl ?_ ?_)).trans
      (worked_modCache _ P c q fun _ => ⟨rfl, rfl⟩)
    all_goals omega
  · have hheads : ∀ c' k, (s.giveSlot c (pageAt s.hhdm q) x).head c' k = s.head c' k := by
      intro c' k
      exact head_modCache _ c (f := fun cache => { cache with freeCount := cache.freeCount + 1 })
        (fun _ => ⟨rfl, rfl⟩) c' k
    refine h.congr rfl hheads fun p hp a h1 h2 => ?_
    show store (store (store s.mem x 8 _) (pageAt s.hhdm q + 16) 8 _) (pageAt s.hhdm q + 24) 4 _ a
      = _
    unfold pageAt at h1 h2 hb ⊢
    rw [store_outside (by omega), store_outside (by omega), store_outside (by omega)]

/-- The page behind a slot. -/
theorem slab_of_slot (ha : s.hhdm % 4096 = 0) (hx : S.IsSlot s.hhdm q x) :
    s.slabFromPage (physPfn (s.virtToPhys (pageAlignDown x))) = pageAt s.hhdm q := by
  have hsize := S.pointer
  have hb := hx.bounds
  unfold virtToPhys
  rw [pfn_of_ptr ha (q := q) (by omega) (by omega)]
  rfl

/-- A slot that somebody has is given back. -/
theorem slabFree_at (hh : 0 < s.hhdm) (ha : s.hhdm % 4096 = 0) (h : OnLists C s lists P) (hc : C c)
    (hq : q ∈ lists c (listOf free)) (hs : S.At s.hhdm s.mem q free) (hx : S.IsSlot s.hhdm q x)
    (hnew : x ∉ free) (hroom : pageAt s.hhdm q + 4096 ≤ 2 ^ 64) :
    S.At s.hhdm (s.slabFree c x).mem q (x :: free) ∧ Worked s (s.slabFree c x) P q
      ∧ ∃ lists', OnLists C (s.slabFree c x) lists' P
        ∧ Regrouped lists lists' c q (x :: free) := by
  rw [slabFree_eq s c x (slab_of_slot ha hx)]
  have hfull := hs.full_iff
  have hpart : listOf (x :: free) = .partials := if_neg (by intro e; cases e)
  by_cases he : free = []
  · rw [if_pos (hfull.mpr he)]
    have hlo : listOf free = .full := if_pos he
    rw [hlo] at hq
    obtain ⟨hmoved, hr⟩ := h.move hh hc .partials hq
    have hre := regrouped_move (x :: free) h (k := .full)
      (by rw [hpart]; intro e; cases e) hq
    rw [hpart] at hre
    have hs' := hs.relinked hr
    revert hmoved hr hs'
    generalize (s.slabListRemove c .full (pageAt s.hhdm q)).slabListPush c .partials
      (pageAt s.hhdm q) = t
    intro hmoved hr hs'
    rw [← hr.hhdm] at hs' hx hroom ⊢
    obtain ⟨h1, h2, h3⟩ := giveSlot_at (c := c) hmoved hs' hx hnew hroom
    exact ⟨h1, (hr.worked q).trans h2, _, h3, hre⟩
  · rw [if_neg (mt hfull.mp he)]
    have hlo : listOf free = .partials := if_neg he
    obtain ⟨h1, h2, h3⟩ := giveSlot_at (c := c) h hs hx hnew hroom
    exact ⟨h1, h2, lists, h3, regrouped_stay h (by rw [hpart, ← hlo]; exact hq)⟩

/-- The word in the slot, the header, and links. -/
theorem slabFree_outside (hh : 0 < s.hhdm) (ha : s.hhdm % 4096 = 0)
    (h : OnLists C s lists P) (hc : C c) (hq : q ∈ lists c (listOf free))
    (hs : S.At s.hhdm s.mem q free) (hx : S.IsSlot s.hhdm q x) {a : Nat}
    (hlink : ∀ p, P p → ¬ (pageAt s.hhdm p ≤ a ∧ a < pageAt s.hhdm p + 16))
    (hmeta : ¬ (pageAt s.hhdm q + 16 ≤ a ∧ a < pageAt s.hhdm q + 28))
    (hslot : ¬ (x ≤ a ∧ a < x + 8)) : (s.slabFree c x).mem a = s.mem a := by
  have hgive : ∀ t : Kheap, (t.giveSlot c (pageAt s.hhdm q) x).mem a = t.mem a := by
    intro t
    show store (store (store t.mem x 8 _) (pageAt s.hhdm q + 16) 8 _)
      (pageAt s.hhdm q + 24) 4 _ a = _
    rw [store_outside (by omega), store_outside (by omega), store_outside hslot]
  rw [slabFree_eq s c x (slab_of_slot ha hx), hgive]
  by_cases he : free = []
  · rw [if_pos (hs.full_iff.mpr he)]
    have hlo : listOf free = .full := if_pos he
    rw [hlo] at hq
    obtain ⟨-, hr⟩ := h.move hh hc .partials hq
    exact hr.mem a hlink
  · rw [if_neg (mt hs.full_iff.mp he)]

-- ==== the size classes

/-- Relinking leaves the inside of a slab alone. -/
theorem SlabAt.relinked (hc : c < NUM_SIZE_CLASSES) (h : SlabAt s.hhdm s.mem c q free)
    (hr : Relinked s s' P) : SlabAt s.hhdm s'.mem c q free :=
  (slabAt_iff hc).mpr (((slabAt_iff hc).mp h).relinked hr)

/-- The first slot of the first slab with a free one. -/
theorem slabTake_spec (hh : 0 < s.hhdm) (hc : c < NUM_SIZE_CLASSES) (h : Listed s lists P)
    (hhead : (lists c .partials).head? = some q) (hs : SlabAt s.hhdm s.mem c q (x :: free)) :
    (s.slabTake c).2 = x ∧ SlabAt s.hhdm (s.slabTake c).1.mem c q free
      ∧ Worked s (s.slabTake c).1 P q
      ∧ ∃ lists', Listed (s.slabTake c).1 lists' P ∧ Regrouped lists lists' c q free := by
  obtain ⟨hx, hs', hw, lists', hl, hre⟩ :=
    slabTake_at hh (listed_iff.mp h) hc hhead ((slabAt_iff hc).mp hs)
  exact ⟨hx, (slabAt_iff hc).mpr hs', hw, lists', listed_iff.mpr hl, hre⟩

/-- A slot that somebody has is given back. -/
theorem slabFree_spec (hh : 0 < s.hhdm) (ha : s.hhdm % 4096 = 0) (hc : c < NUM_SIZE_CLASSES)
    (h : Listed s lists P) (hq : q ∈ lists c (listOf free)) (hs : SlabAt s.hhdm s.mem c q free)
    (hx : IsSlot s.hhdm c q x) (hnew : x ∉ free) (hroom : pageAt s.hhdm q + 4096 ≤ 2 ^ 64) :
    SlabAt s.hhdm (s.slabFree c x).mem c q (x :: free) ∧ Worked s (s.slabFree c x) P q
      ∧ ∃ lists', Listed (s.slabFree c x) lists' P ∧ Regrouped lists lists' c q (x :: free) := by
  obtain ⟨hs', hw, lists', hl, hre⟩ := slabFree_at hh ha (listed_iff.mp h) hc hq
    ((slabAt_iff hc).mp hs) ((isSlot_iff hc).mp hx) hnew hroom
  exact ⟨(slabAt_iff hc).mpr hs', hw, lists', listed_iff.mpr hl, hre⟩

end Alix.Kheap
