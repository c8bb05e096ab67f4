/-
What `slab_alloc` and `slab_free` keep of a cache.

`Stocked` is for a cache what the invariant of the heap is for its size
classes, but for any way to divide the slabs: the pages the descriptors
give to the cache are slabs with their free slots, a slab is on the list
its free slots put it on, and what has been handed out are the slots that
are not free. Both calls change one slab (`Stocked.reslab`), and a new
slab is one page more (`Stocked.create`). Neither writes to an object that
somebody has (`Untouched`), and writing to an object is no concern of the
cache (`Stocked.write`).
-/
import Alix.Mm.Proofs.HeapSteps

namespace Alix.Slab

open Bytes (Memory load store)
open Dyadic (Block)
open Pmm (Ledger)
open Kheap (Shape SlabList OnLists Worked Regrouped Placed pageAt listOf cachePtr)

variable {maxPfn : Nat} {usable : Nat → Bool} {S : Shape} {s s' : Kheap} {c n p q x : Nat}
  {free free' objs objs' : List Nat} {lists' : Nat → SlabList → List Nat} {pmm : Pmm}
  {mem mem' : Memory}

-- ==== the cache

/-- The descriptor gives the page to the cache. -/
def OwnSlab (s : Kheap) (c q : Nat) : Prop :=
  hasFlag (s.pmm.pages q).flags PAGE_SLAB = true ∧ (s.pmm.pages q).priv = cachePtr c

/-- The free slots of the slabs, and the lists. -/
structure Stock where
  free : Nat → Option (List Nat)
  lists : Nat → SlabList → List Nat

/-- The pages that are slabs of the cache. -/
def Stock.Has (G : Stock) (q : Nat) : Prop := ∃ free, G.free q = some free

/-- What a cache with alignment `n` keeps between the calls. -/
structure Stocked (maxPfn : Nat) (usable : Nat → Bool) (S : Shape) (n : Nat) (s : Kheap) (c : Nat)
    (G : Stock) (objs : List Nat) : Prop where
  placed : Placed maxPfn s
  sized : S.Of (s.caches c)
  align : (s.caches c).objAlign = n
  ledger : ∃ out ref, Ledger maxPfn usable s.pmm out ref ∧ ∀ q, G.Has q → ⟨q, 0⟩ ∈ out
  own : ∀ q, OwnSlab s c q ↔ G.Has q
  page : ∀ q free, G.free q = some free → S.At s.hhdm s.mem q free
  listed : OnLists (fun c' => c' = c) s G.lists G.Has
  onList : ∀ q free, G.free q = some free → q ∈ G.lists c (listOf free)
  inList : ∀ c' k q, q ∈ G.lists c' k → c' = c ∧ ∃ free, G.free q = some free ∧ k = listOf free
  out : ∀ x, x ∈ objs ↔ ∃ q free, G.free q = some free ∧ S.IsSlot s.hhdm q x ∧ x ∉ free
  nodup : objs.Nodup

variable {G : Stock}

theorem ownSlab_congr (hpmm : s'.pmm = s.pmm) : OwnSlab s' c q ↔ OwnSlab s c q := by
  unfold OwnSlab
  rw [hpmm]

/-- A new slab is one of the cache. -/
theorem ownSlab_new (s : Kheap) (c : Nat) (pmm : Pmm) (p : Nat) :
    OwnSlab (s.newSlab c pmm p) c p := by
  have hpage : (s.newSlab c pmm p).pmm.pages p
      = { Page.setFlag PAGE_SLAB (pmm.pages p) with priv := cachePtr c } :=
    Pmm.modPage_pages_self pmm p fun pg => { Page.setFlag PAGE_SLAB pg with priv := cachePtr c }
  unfold OwnSlab
  rw [hpage]
  refine ⟨?_, rfl⟩
  show hasFlag ((pmm.pages p).flags ||| PAGE_SLAB) PAGE_SLAB = true
  rw [hasFlag_or]
  exact Bool.or_eq_true_iff.mpr (Or.inr rfl)

theorem newSlab_pages (s : Kheap) (c : Nat) (pmm : Pmm) (h : q ≠ p) :
    (s.newSlab c pmm p).pmm.pages q = pmm.pages q :=
  Pmm.modPage_pages_of_ne pmm h fun pg => { Page.setFlag PAGE_SLAB pg with priv := cachePtr c }

/-- Another one was before. -/
theorem ownSlab_old (ha : s.pmm.pmmAllocPage = some (pmm, p))
    (hq : OwnSlab (s.newSlab c pmm p) c q) : q = p ∨ OwnSlab s c q := by
  by_cases he : q = p
  · exact Or.inl he
  · have hforeign := Pmm.foreign_pmmAlloc ha
    unfold OwnSlab at hq
    rw [newSlab_pages s c pmm he] at hq
    exact Or.inr ⟨Kheap.slab_of_foreign hforeign hq.1, (hforeign q).1.symm.trans hq.2⟩

-- ==== what is apart

/-- No header is where a slot is. -/
theorem slot_clear {hhdm a : Nat} (hx : S.IsSlot hhdm q x) (h1 : x ≤ a) (h2 : a < x + S.size)
    (p : Nat) : ¬ (pageAt hhdm p ≤ a ∧ a < pageAt hhdm p + 40) := by
  have hb := hx.bounds
  unfold pageAt at hb ⊢
  omega

/-- Nor is another page. -/
theorem slot_page {hhdm a : Nat} (hx : S.IsSlot hhdm q x) (h1 : x ≤ a) (h2 : a < x + S.size)
    (hne : p ≠ q) : ¬ (pageAt hhdm p ≤ a ∧ a < pageAt hhdm p + 4096) := by
  have hb := hx.bounds
  unfold pageAt at hb ⊢
  omega

/-- Where a page of the machine ends. -/
theorem page_room (h : Placed maxPfn s) (hq : q < maxPfn + 1) :
    pageAt s.hhdm q + 4096 ≤ 2 ^ 64 := by
  have hroom := h.room
  unfold pageAt at hroom ⊢
  omega

/-- A slab that is not worked on stays as it is. -/
theorem page_worked {P : Nat → Prop} (h : S.At s.hhdm s.mem q free) (hw : Worked s s' P p)
    (hne : q ≠ p) : S.At s.hhdm s'.mem q free := by
  refine h.congr_page fun a h1 h2 => hw.mem a (fun r _ hr => ?_) fun hp => ?_
  · unfold pageAt at h1 h2 hr
    omega
  · unfold pageAt at h1 h2 hp
    omega

/-- The sizes are all that counts. -/
theorem of_congr {cache cache' : SlabCache} (h : S.Of cache)
    (hsize : cache'.objSize = cache.objSize) (halign : cache'.objAlign = cache.objAlign) :
    S.Of cache' := by
  have hhdr : Kheap.slabHdr cache' = Kheap.slabHdr cache := by
    unfold Kheap.slabHdr
    rw [halign]
  refine ⟨hhdr.trans h.hdr, hsize.trans h.size, ?_⟩
  rw [← h.total]
  unfold Kheap.slabTotal
  rw [hhdr, hsize]

/-- The objects that are out are slots. -/
theorem Stocked.slot (h : Stocked maxPfn usable S n s c G objs) (hx : x ∈ objs) :
    ∃ q free, G.free q = some free ∧ S.IsSlot s.hhdm q x ∧ x ∉ free :=
  (h.out x).mp hx

/-- One slab has a slot. -/
theorem slot_unique {hhdm : Nat} (hx : S.IsSlot hhdm q x) (hx' : S.IsSlot hhdm p x) : p = q := by
  have hsize := S.pointer
  have hb := hx.bounds
  have hb' := hx'.bounds
  unfold pageAt at hb hb'
  omega

/-- Two objects do not overlap. -/
theorem Stocked.apart (h : Stocked maxPfn usable S n s c G objs) {y : Nat} (hx : x ∈ objs)
    (hy : y ∈ objs) (hne : x ≠ y) : x + S.size ≤ y ∨ y + S.size ≤ x := by
  obtain ⟨q, free, hq, hx, -⟩ := h.slot hx
  obtain ⟨p, free', hp, hy, -⟩ := h.slot hy
  by_cases he : q = p
  · rw [← he] at hy
    exact hx.apart hy hne
  · have hbx := hx.bounds
    have hby := hy.bounds
    unfold pageAt at hbx hby
    omega

-- ==== a slab changes

/-- The slabs are the slabs still. -/
theorem has_update (lists' : Nat → SlabList → List Nat) (free' : List Nat)
    (hq : G.free q = some free) :
    (Stock.mk (Function.update G.free q (some free')) lists').Has = G.Has := by
  funext p
  refine propext ?_
  by_cases he : p = q
  · rw [he]
    exact ⟨fun _ => ⟨free, hq⟩, fun _ => ⟨free', Function.update_self q _ _⟩⟩
  · have hsame : Function.update G.free q (some free') p = G.free p := Function.update_of_ne he _ _
    show (∃ fr, Function.update G.free q (some free') p = some fr) ↔ ∃ fr, G.free p = some fr
    rw [hsame]

/-- A slab gets other free slots. -/
theorem Stocked.reslab (h : Stocked maxPfn usable S n s c G objs) (hq : G.free q = some free)
    (hw : Worked s s' G.Has q) (hs' : S.At s.hhdm s'.mem q free')
    (hl' : OnLists (fun c' => c' = c) s' lists' G.Has)
    (hre : Regrouped G.lists lists' c q free')
    (hobjs : ∀ x, x ∈ objs' ↔ (S.IsSlot s.hhdm q x ∧ x ∉ free')
      ∨ x ∈ objs ∧ ¬ S.IsSlot s.hhdm q x)
    (hnodup : objs'.Nodup) :
    Stocked maxPfn usable S n s' c ⟨Function.update G.free q (some free'), lists'⟩ objs' := by
  have hhas := has_update lists' free' hq
  obtain ⟨out, ref, hledger, hout⟩ := h.ledger
  refine ⟨?_, of_congr h.sized (hw.sizes c).1 (hw.sizes c).2, (hw.sizes c).2.trans h.align,
    ⟨out, ref, ?_, ?_⟩, fun p => ?_,
    fun p fr hp => ?_, ?_, fun p fr hp => ?_, fun c' k p hp => ?_, fun x => ?_, hnodup⟩
  · refine ⟨?_, ?_, ?_⟩
    · rw [hw.hhdm]; exact h.placed.pos
    · rw [hw.hhdm]; exact h.placed.aligned
    · rw [hw.hhdm]; exact h.placed.room
  · rw [hw.pmm]; exact hledger
  · rw [hhas]; exact hout
  · rw [hhas, ← h.own p]
    unfold OwnSlab
    rw [hw.pmm]
  · rw [hw.hhdm]
    by_cases he : p = q
    · rw [he] at hp ⊢
      have hfr : free' = fr := Option.some.inj ((Function.update_self q _ _).symm.trans hp)
      rw [← hfr]
      exact hs'
    · exact page_worked (h.page p fr ((Function.update_of_ne he _ _).symm.trans hp)) hw he
  · rw [hhas]; exact hl'
  · rw [hre]
    by_cases he : p = q
    · rw [he] at hp
      have hfr : free' = fr := Option.some.inj ((Function.update_self q _ _).symm.trans hp)
      exact Or.inl ⟨he, rfl, by rw [hfr]⟩
    · exact Or.inr ⟨he, h.onList p fr ((Function.update_of_ne he _ _).symm.trans hp)⟩
  · cases (hre c' k p).mp hp with
    | inl hp =>
        obtain ⟨he, hc, hk⟩ := hp
        exact ⟨hc, free', by rw [he]; exact Function.update_self q _ _, hk⟩
    | inr hp =>
        obtain ⟨hc, fr, hfr, hk⟩ := h.inList c' k p hp.2
        exact ⟨hc, fr, (Function.update_of_ne hp.1 _ _).trans hfr, hk⟩
  · rw [hobjs, hw.hhdm, h.out]
    constructor
    · intro hx
      cases hx with
      | inl hx => exact ⟨q, free', Function.update_self q _ _, hx⟩
      | inr hx =>
          obtain ⟨⟨p, fr, hp, hx, hnot⟩, hno⟩ := hx
          have hne : p ≠ q := fun e => hno (by rw [← e]; exact hx)
          exact ⟨p, fr, (Function.update_of_ne hne _ _).trans hp, hx, hnot⟩
    · intro hx
      obtain ⟨p, fr, hp, hx, hnot⟩ := hx
      by_cases he : p = q
      · rw [he] at hp hx
        have hfr : free' = fr := Option.some.inj ((Function.update_self q _ _).symm.trans hp)
        exact Or.inl ⟨hx, by rw [hfr]; exact hnot⟩
      · exact Or.inr ⟨⟨p, fr, (Function.update_of_ne he _ _).symm.trans hp, hx, hnot⟩,
          fun hq' => he (slot_unique hq' hx)⟩

/-- The slots of a slab that are out. -/
theorem Stocked.out_iff (h : Stocked maxPfn usable S n s c G objs) (hq : G.free q = some free)
    (hx : S.IsSlot s.hhdm q x) : x ∈ objs ↔ x ∉ free := by
  rw [h.out]
  constructor
  · intro hin
    obtain ⟨p, fr, hp, hx', hnot⟩ := hin
    rw [slot_unique hx hx', hq] at hp
    cases hp
    exact hnot
  · intro hnot
    exact ⟨q, free, hq, hx, hnot⟩

-- ==== slab_alloc

/-- Objects of `n` bytes that are not written to. -/
def Untouched (n : Nat) (objs : List Nat) (mem mem' : Memory) : Prop :=
  ∀ x ∈ objs, ∀ a, x ≤ a → a < x + n → mem' a = mem a

/-- The first slot of the first slab with a free one. -/
theorem Stocked.take (h : Stocked maxPfn usable S n s c G objs)
    (hhead : (G.lists c .partials).head? = some q) :
    (s.slabTake c).2 ≠ 0
      ∧ (∃ G', Stocked maxPfn usable S n (s.slabTake c).1 c G' ((s.slabTake c).2 :: objs))
      ∧ Untouched S.size objs s.mem (s.slabTake c).1.mem := by
  have hmem : q ∈ G.lists c .partials := List.mem_of_mem_head? (by rw [hhead]; rfl)
  obtain ⟨-, free, hq, hk⟩ := h.inList c .partials q hmem
  have hs := h.page q free hq
  cases free with
  | nil => cases hk
  | cons x free =>
      obtain ⟨hx, hs', hw, lists', hl', hre⟩ :=
        Kheap.slabTake_at h.placed.pos h.listed rfl hhead hs
      have hslot := hs.slots x List.mem_cons_self
      have hbx := hslot.bounds
      have hxfree : x ∉ free := (List.nodup_cons.mp hs.nodup).1
      have hxout : x ∉ objs := fun hin => (h.out_iff hq hslot).mp hin List.mem_cons_self
      rw [hx]
      refine ⟨by omega, ⟨_, h.reslab hq hw hs' hl' hre (fun y => ?_)
        (List.nodup_cons.mpr ⟨hxout, h.nodup⟩)⟩, fun y hy a h1 h2 => ?_⟩
      · rw [List.mem_cons]
        by_cases hy : S.IsSlot s.hhdm q y
        · simp only [hy, h.out_iff hq hy, List.mem_cons, not_or, true_and, not_true_eq_false,
            and_false, or_false]
          constructor
          · intro hcase
            cases hcase with
            | inl he => rw [he]; exact hxfree
            | inr hnot => exact hnot.2
          · intro hnot
            by_cases he : y = x
            · exact Or.inl he
            · exact Or.inr ⟨he, hnot⟩
        · have hne : y ≠ x := fun e => hy (by rw [e]; exact hslot)
          simp only [hy, hne, false_or, false_and, not_false_eq_true, and_true]
      · obtain ⟨p, fr, hp, hyslot, -⟩ := h.slot hy
        refine Kheap.slabTake_outside h.placed.pos h.listed rfl hhead (fun r _ hr => ?_)
          fun hr => ?_
        · exact slot_clear hyslot h1 h2 r ⟨hr.1, by omega⟩
        · exact slot_clear hyslot h1 h2 q ⟨by omega, by omega⟩

/-- The cache with one more slab. -/
def Stock.add (G : Stock) (c p : Nat) (slots : List Nat) : Stock :=
  ⟨Function.update G.free p (some slots),
    Kheap.setList G.lists c .partials (p :: G.lists c .partials)⟩

/-- A slab is the new one or another. -/
theorem add_free {slots fr : List Nat} :
    (G.add c p slots).free q = some fr ↔ (q = p ∧ fr = slots) ∨ (q ≠ p ∧ G.free q = some fr) := by
  show Function.update G.free p (some slots) q = some fr ↔ _
  by_cases he : q = p
  · rw [he, Function.update_self, Option.some.injEq]
    tauto
  · rw [Function.update_of_ne he]
    tauto

theorem add_has {slots : List Nat} :
    (G.add c p slots).Has = fun q => q = p ∨ G.Has q := by
  funext q
  refine propext ?_
  unfold Stock.Has
  simp only [add_free]
  constructor
  · intro hq
    obtain ⟨fr, hq⟩ := hq
    exact hq.imp And.left fun hq => ⟨fr, hq.2⟩
  · intro hq
    by_cases he : q = p
    · exact ⟨slots, Or.inl ⟨he, rfl⟩⟩
    · obtain ⟨fr, hq⟩ := hq.resolve_left he
      exact ⟨fr, Or.inr ⟨he, hq⟩⟩

/-- A page that `pmm_alloc` returns. -/
structure Fresh (maxPfn : Nat) (usable : Nat → Bool) (s : Kheap) (G : Stock) (pmm : Pmm) (p : Nat) :
    Prop where
  new : ¬ G.Has p
  room : pageAt s.hhdm p + 4096 ≤ 2 ^ 64
  ledger : ∃ out ref, Ledger maxPfn usable pmm (⟨p, 0⟩ :: out) ref ∧ ∀ q, G.Has q → ⟨q, 0⟩ ∈ out
  data : ∀ q, G.Has q → (pmm.pages q).flags = (s.pmm.pages q).flags
    ∧ (pmm.pages q).priv = (s.pmm.pages q).priv

theorem Stocked.fresh (h : Stocked maxPfn usable S n s c G objs)
    (ha : s.pmm.pmmAllocPage = some (pmm, p)) : Fresh maxPfn usable s G pmm p := by
  obtain ⟨out, ref, hledger, hout⟩ := h.ledger
  obtain ⟨hledger', hnew, hdata⟩ := hledger.alloc ha
  refine ⟨fun hp => hnew p (Block.base_mem ⟨p, 0⟩) _ (hout p hp) (Block.base_mem ⟨p, 0⟩), ?_,
    ⟨out, _, hledger', hout⟩, fun q hq => ?_⟩
  · obtain ⟨hle, -⟩ := hledger'.mem_usable (b := ⟨p, 0⟩) List.mem_cons_self
      (Block.base_mem ⟨p, 0⟩)
    exact page_room h.placed hle
  · obtain ⟨-, -, hf, hp⟩ := Page.data_eq_iff.mp
      (hdata _ (hout q hq) q (Block.base_mem ⟨q, 0⟩))
    exact ⟨hf, hp⟩

/-- The slabs of the cache with the new one. -/
theorem Stocked.own_new (h : Stocked maxPfn usable S n s c G objs)
    (ha : s.pmm.pmmAllocPage = some (pmm, p)) (q : Nat) :
    OwnSlab (s.newSlab c pmm p) c q ↔ q = p ∨ G.Has q := by
  constructor
  · intro hq
    exact (ownSlab_old ha hq).imp id (h.own q).mp
  · intro hq
    by_cases he : q = p
    · rw [he]
      exact ownSlab_new s c pmm p
    · have hq := hq.resolve_left he
      obtain ⟨hflag, hpriv⟩ := (h.own q).mpr hq
      obtain ⟨hf, hp⟩ := (h.fresh ha).data q hq
      unfold OwnSlab
      rw [newSlab_pages s c pmm he, hf, hp]
      exact ⟨hflag, hpriv⟩

/-- A slab of the cache is not written to when another is set up. -/
theorem Stocked.new_page (h : Stocked maxPfn usable S n s c G objs) {fr : List Nat}
    (hne : q ≠ p) (hq : G.free q = some fr) (c' : Nat) (pmm : Pmm)
    (hc : S.Of (s.caches c')) : S.At s.hhdm (s.newSlab c' pmm p).mem q fr := by
  refine (h.page q fr hq).congr_page fun a h1 h2 => Shape.init_outside hc fun hp => ?_
  unfold pageAt at h1 h2 hp
  omega

/-- A page becomes a slab with all its slots free, and is put on the list
of the cache. -/
theorem Stocked.create (h : Stocked maxPfn usable S n s c G objs)
    (ha : s.pmm.pmmAllocPage = some (pmm, p)) :
    ∃ G', Stocked maxPfn usable S n
        ((s.newSlab c pmm p).slabListPush c .partials (pageAt s.hhdm p)) c G' objs
      ∧ (G'.lists c .partials).head? = some p
      ∧ Untouched S.size objs s.mem
        ((s.newSlab c pmm p).slabListPush c .partials (pageAt s.hhdm p)).mem := by
  obtain ⟨hnone, hroom, ⟨out, ref, hledger, hout⟩, -⟩ := h.fresh ha
  have hne : ∀ q fr, G.free q = some fr → q ≠ p := fun q fr hq e =>
    hnone ⟨fr, by rw [← e]; exact hq⟩
  have hnew : ∀ c' k', p ∉ G.lists c' k' := by
    intro c' k' hp
    obtain ⟨-, fr, hfr, -⟩ := h.inList c' k' p hp
    exact hnone ⟨fr, hfr⟩
  have hlist : OnLists (fun c' => c' = c) (s.newSlab c pmm p) G.lists G.Has := by
    refine h.listed.congr rfl (fun _ _ => rfl) fun q hq a h1 h2 =>
      Shape.init_outside h.sized fun hp => ?_
    obtain ⟨fr, hq⟩ := hq
    have hqp := hne q fr hq
    unfold pageAt at h1 h2 hp
    omega
  have hpages := h.own_new ha
  have hlo : listOf (S.slots s.hhdm p) = .partials := S.listOf_slots s.hhdm p
  obtain ⟨hpush, hr⟩ := OnLists.push (s := s.newSlab c pmm p) (q := p) (k := .partials)
    h.placed.pos hlist rfl hnew (show pageAt s.hhdm p < 2 ^ 64 by omega)
  change OnLists _ ((s.newSlab c pmm p).slabListPush c .partials (pageAt s.hhdm p)) _ _ at hpush
  change Kheap.Relinked _ ((s.newSlab c pmm p).slabListPush c .partials (pageAt s.hhdm p)) _ at hr
  have hhdm : ((s.newSlab c pmm p).slabListPush c .partials (pageAt s.hhdm p)).hhdm = s.hhdm :=
    hr.hhdm
  revert hpush hr hhdm
  generalize (s.newSlab c pmm p).slabListPush c .partials (pageAt s.hhdm p) = t
  intro hpush hr hhdm
  refine ⟨G.add c p (S.slots s.hhdm p), ⟨?_, of_congr h.sized (hr.sizes c).1 (hr.sizes c).2,
    (hr.sizes c).2.trans h.align, ⟨⟨p, 0⟩ :: out, ref, ?_, ?_⟩, fun q => ?_,
    fun q fr hq => ?_, ?_, fun q fr hq => ?_, fun c' k q hq => ?_, fun x => ?_, h.nodup⟩, ?_,
    fun x hx a h1 h2 => ?_⟩
  · exact ⟨by rw [hhdm]; exact h.placed.pos, by rw [hhdm]; exact h.placed.aligned,
      by rw [hhdm]; exact h.placed.room⟩
  · rw [hr.pmm]
    exact hledger.touch (b := ⟨p, 0⟩) List.mem_cons_self
      ((Pmm.harmless_priv (cachePtr c)).comp (Pmm.harmless_setFlag (by decide))) fun _ => rfl
  · rw [add_has]
    intro q hq
    cases hq with
    | inl he => rw [he]; exact List.mem_cons_self
    | inr hq => exact List.mem_cons_of_mem _ (hout q hq)
  · rw [ownSlab_congr hr.pmm, add_has]
    exact hpages q
  · rw [hhdm]
    refine Shape.At.relinked (s := s.newSlab c pmm p) ?_ hr
    cases add_free.mp hq with
    | inl hq =>
        rw [hq.1, hq.2]
        exact Shape.at_init h.sized hroom
    | inr hq => exact h.new_page hq.1 hq.2 c pmm h.sized
  · rw [add_has]
    exact hpush
  · refine (Kheap.mem_pushed hnew c (listOf fr) q).mpr ?_
    cases add_free.mp hq with
    | inl hq => exact Or.inl ⟨hq.1, rfl, by rw [hq.2]; exact hlo⟩
    | inr hq => exact Or.inr ⟨hq.1, h.onList q fr hq.2⟩
  · cases (Kheap.mem_pushed hnew c' k q).mp hq with
    | inl hq => exact ⟨hq.2.1, _, add_free.mpr (Or.inl ⟨hq.1, rfl⟩), hq.2.2.trans hlo.symm⟩
    | inr hq =>
        obtain ⟨hc, fr, hfr, hk⟩ := h.inList c' k q hq.2
        exact ⟨hc, fr, add_free.mpr (Or.inr ⟨hq.1, hfr⟩), hk⟩
  · rw [h.out, hhdm]
    constructor
    · intro hx
      obtain ⟨q, fr, hq, hx⟩ := hx
      exact ⟨q, fr, add_free.mpr (Or.inr ⟨hne q fr hq, hq⟩), hx⟩
    · intro hx
      obtain ⟨q, fr, hq, hx, hnot⟩ := hx
      cases add_free.mp hq with
      | inl hq =>
          rw [hq.1] at hx
          exact absurd (Shape.mem_slots.mpr hx) (by rw [← hq.2]; exact hnot)
      | inr hq => exact ⟨q, fr, hq.2, hx, hnot⟩
  · show (Kheap.setList G.lists c .partials (p :: G.lists c .partials) c .partials).head? = some p
    rw [Kheap.setList_self]
    rfl
  · obtain ⟨q, fr, hq, hx, -⟩ := h.slot hx
    refine (hr.mem a fun r _ hr => ?_).trans
      (Shape.init_outside h.sized (slot_page hx h1 h2 (hne q fr hq).symm))
    exact slot_clear hx h1 h2 r ⟨hr.1, Nat.lt_of_lt_of_le hr.2 (Nat.add_le_add_left (by omega) _)⟩

/-- `slab_alloc` of a cache: NULL, or one more object. -/
theorem Stocked.slabAlloc (h : Stocked maxPfn usable S n s c G objs)
    (hs : s.slabAlloc c = (s', x)) :
    (∃ G', Stocked maxPfn usable S n s' c G' (if x = 0 then objs else x :: objs))
      ∧ Untouched S.size objs s.mem s'.mem := by
  unfold Kheap.slabAlloc at hs
  have hhead := h.listed.head c .partials rfl
  cases hl : (G.lists c .partials).head? with
  | none =>
      rw [hl] at hhead
      rw [if_pos (show s.head c .partials = 0 from hhead)] at hs
      cases ha : s.pmm.pmmAllocPage with
      | none =>
          have hcreate : s.slabCreate c = none := by
            unfold Kheap.slabCreate
            rw [ha]
          rw [hcreate] at hs
          cases hs
          exact ⟨⟨G, h⟩, fun _ _ _ _ _ => rfl⟩
      | some r =>
          obtain ⟨pmm, page⟩ := r
          rw [Kheap.slabCreate_eq s c ha] at hs
          obtain ⟨G₁, h₁, hhead₁, hsame⟩ := h.create ha
          obtain ⟨hne, h', hsame'⟩ := h₁.take hhead₁
          have hs' : ((s.newSlab c pmm page).slabListPush c .partials
            (pageAt s.hhdm page)).slabTake c = (s', x) := hs
          rw [hs'] at hne h' hsame'
          rw [if_neg hne]
          exact ⟨h', fun y hy a h1 h2 => (hsame' y hy a h1 h2).trans (hsame y hy a h1 h2)⟩
  | some q =>
      have hptr : s.head c .partials ≠ 0 := by
        rw [hhead, hl]
        intro e
        cases (Kheap.slabPtr_eq_zero h.placed.pos).mp e
      rw [if_neg hptr] at hs
      obtain ⟨hne, h', hsame⟩ := h.take hl
      rw [hs] at hne h' hsame
      rw [if_neg hne]
      exact ⟨h', hsame⟩

-- ==== slab_free

/-- An object that is out is given back. -/
theorem Stocked.give (h : Stocked maxPfn usable S n s c G objs) (hx : x ∈ objs) :
    (∃ G', Stocked maxPfn usable S n (s.slabFree c x) c G' (objs.erase x))
      ∧ Untouched S.size (objs.erase x) s.mem (s.slabFree c x).mem := by
  obtain ⟨q, free, hq, hslot, hnot⟩ := h.slot hx
  have hs := h.page q free hq
  have hroom : pageAt s.hhdm q + 4096 ≤ 2 ^ 64 := by
    obtain ⟨out, ref, hledger, hout⟩ := h.ledger
    obtain ⟨hle, -⟩ := hledger.mem_usable (hout q ⟨free, hq⟩) (Block.base_mem ⟨q, 0⟩)
    exact page_room h.placed hle
  have hon := h.onList q free hq
  obtain ⟨hs', hw, lists', hl', hre⟩ := Kheap.slabFree_at h.placed.pos h.placed.aligned h.listed rfl
    hon hs hslot hnot hroom
  refine ⟨⟨_, h.reslab hq hw hs' hl' hre (fun y => ?_) (h.nodup.erase x)⟩, fun y hy a h1 h2 => ?_⟩
  · rw [h.nodup.mem_erase_iff]
    by_cases hy : S.IsSlot s.hhdm q y
    · simp only [hy, h.out_iff hq hy, List.mem_cons, not_or, true_and, not_true_eq_false,
        and_false, or_false, ne_eq]
    · have hne : y ≠ x := fun e => hy (by rw [e]; exact hslot)
      simp only [hy, hne, false_or, false_and, not_false_eq_true, and_true, true_and, ne_eq]
  · obtain ⟨hne, hy⟩ := h.nodup.mem_erase_iff.mp hy
    have hapart := h.apart hy hx hne
    have hsize := S.pointer
    obtain ⟨p, fr, hp, hyslot, -⟩ := h.slot hy
    refine Kheap.slabFree_outside h.placed.pos h.placed.aligned h.listed rfl hon hs hslot
      (fun r _ hr => ?_) (fun hr => ?_) (by omega)
    · exact slot_clear hyslot h1 h2 r ⟨hr.1, by omega⟩
    · exact slot_clear hyslot h1 h2 q ⟨by omega, by omega⟩

/-- The owner of an object writes to it. -/
theorem Stocked.write (h : Stocked maxPfn usable S n s c G objs) (hx : x ∈ objs)
    (hm : ∀ a, mem a ≠ s.mem a → x ≤ a ∧ a < x + S.size) :
    Stocked maxPfn usable S n { s with mem } c G objs := by
  obtain ⟨q, free, hq, hslot, hnot⟩ := h.slot hx
  have hkeep : ∀ a, ¬ (x ≤ a ∧ a < x + S.size) → mem a = s.mem a := fun a ha => by
    by_contra hne
    exact ha (hm a hne)
  refine ⟨⟨h.placed.pos, h.placed.aligned, h.placed.room⟩, h.sized, h.align, h.ledger, h.own,
    fun p fr hp => ?_, ?_, h.onList, h.inList, h.out, h.nodup⟩
  · have hs := h.page p fr hp
    have hsize := S.pointer
    refine hs.congr (fun a h1 h2 => hkeep a fun ha => ?_) fun y hy a h1 h2 => hkeep a fun ha => ?_
    · exact slot_clear hslot ha.1 ha.2 p ⟨by omega, by omega⟩
    · -- a free slot is not the one that is written to
      have hyslot := hs.slots y hy
      by_cases he : p = q
      · rw [he] at hp hyslot
        have hfr : free = fr := Option.some.inj (hq.symm.trans hp)
        have hapart := hslot.apart hyslot fun e => hnot (by rw [hfr, e]; exact hy)
        omega
      · exact slot_page hslot ha.1 ha.2 he ⟨by have := hyslot.bounds; omega,
          by have := hyslot.bounds; omega⟩
  · refine h.listed.congr rfl (fun _ _ => rfl) fun p hp a h1 h2 => hkeep a fun ha => ?_
    exact slot_clear hslot ha.1 ha.2 p ⟨h1, by omega⟩

end Alix.Slab
