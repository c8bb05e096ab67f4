/-
The heap over whole runs.

# What holds

In a run anybody calls `kmalloc`, `kzalloc`, `krealloc` and `kfree`, frees
and reallocates only what is live, and writes only to what is theirs; the
rest of the kernel takes pages from the page allocator, gives them back
and writes to them (`Run`). In every state the live allocations are apart
from each other, from every header and from every free slot, the slabs
are on the lists their counts put them on, and `kfree` of a live pointer
does not panic (`run_intact`).

The sizes stay below `2^64 - 24`. From there on the size and the header
of a large allocation wrap (`Kmalloc.lean`), and the caller of the heap
gets one page: `kmalloc_room_iff`.
-/
import Alix.Mm.Proofs.Kmalloc
import Alix.Mm.Proofs.HeapSteps

namespace Alix.Kheap

open Bytes (Memory load store fill copy store_outside)
open Dyadic (Block)
open Pmm (Ledger Usable)

variable {maxPfn : Nat} {usable : Nat → Bool} {s s' : Kheap} {G : Ghost} {c q p n x o size : Nat}
  {live : List (Nat × Nat)} {others : List Block} {ref : Nat → Nat}

-- ==== the calls

/-- The counters do not matter to the heap. -/
theorem Inv.counters (h : Inv maxPfn usable s G live others ref) (a b : BitVec 64) :
    Inv maxPfn usable { s with totalAllocCount := a, totalFreeCount := b } G live others ref :=
  ⟨⟨h.placed.pos, h.placed.aligned, h.placed.room⟩, h.sizes, h.ledger, h.block, h.once, h.role,
    h.flag, ⟨h.listed.linked, h.listed.head, h.listed.member, h.listed.alone, h.listed.low⟩,
    h.onList, h.inList, h.backed, h.alone⟩

theorem pageFromAllocPtr_eq (ha : s.hhdm % 4096 = 0) (hle : q ≤ s.pmm.maxPfn)
    (h1 : pageAt s.hhdm q ≤ x) (h2 : x < pageAt s.hhdm q + 4096) :
    s.pageFromAllocPtr x = some q := by
  have hlow : s.hhdm ≤ pageAt s.hhdm q := Nat.le_add_left _ _
  unfold pageFromAllocPtr physToPage virtToPhys
  rw [if_neg (by omega), pfn_of_ptr ha h1 h2, if_neg (Nat.not_lt.mpr hle)]

/-- The page of a pointer into the heap. -/
theorem Inv.page_of_ptr {r : Role} (h : Inv maxPfn usable s G live others ref)
    (hq : G.role q = some r) (hb : BackedBy s.hhdm q x n r) :
    s.pageFromAllocPtr x = some q ∧ x ≠ 0 := by
  obtain ⟨h1, h2⟩ := (h.role q r hq).backed_page hb
  obtain ⟨hle, -⟩ := h.low hq (Block.base_mem ⟨q, r.order⟩)
  have hpos := h.placed.pos
  have hlow : s.hhdm ≤ pageAt s.hhdm q := Nat.le_add_left _ _
  exact ⟨pageFromAllocPtr_eq h.placed.aligned (by rw [h.ledger.bound]; exact hle) h1 h2, by omega⟩

/-- `slab_alloc`. -/
theorem Inv.slabAlloc (h : Inv maxPfn usable s G live others ref) (hc : c < NUM_SIZE_CLASSES)
    (hn : n ≤ objSize c) (hs : s.slabAlloc c = (s', p)) :
    (p = 0 ∧ s' = s) ∨ (p ≠ 0 ∧ s'.totalAllocCount = s.totalAllocCount
      ∧ s'.totalFreeCount = s.totalFreeCount
      ∧ ∃ G' ref', Inv maxPfn usable s' G' ((p, n) :: live) others ref') := by
  unfold Kheap.slabAlloc at hs
  have hhead := h.listed.head c .partials hc
  cases hl : (G.lists c .partials).head? with
  | none =>
      rw [hl] at hhead
      rw [if_pos (show s.head c .partials = 0 from hhead)] at hs
      cases ha : s.pmm.pmmAllocPage with
      | none =>
          have hcreate : s.slabCreate c = none := by
            unfold slabCreate
            rw [ha]
          rw [hcreate] at hs
          cases hs
          exact Or.inl ⟨rfl, rfl⟩
      | some r =>
          obtain ⟨pmm, page⟩ := r
          rw [slabCreate_eq s c ha] at hs
          obtain ⟨G₁, h₁, hhead₁, hr⟩ := h.create hc ha
          obtain ⟨hne, ⟨G', h'⟩, hw⟩ := h₁.take hc hhead₁ hn
          have hs' : ((s.newSlab c pmm page).slabListPush c .partials
            (pageAt s.hhdm page)).slabTake c = (s', p) := hs
          rw [hs'] at hne h' hw
          exact Or.inr ⟨hne, hw.allocs.trans hr.allocs, hw.frees.trans hr.frees, G', _, h'⟩
  | some q =>
      have hptr : s.head c .partials ≠ 0 := by
        rw [hhead, hl]
        intro e
        cases (slabPtr_eq_zero h.placed.pos).mp e
      rw [if_neg hptr] at hs
      obtain ⟨hne, ⟨G', h'⟩, hw⟩ := h.take hc hl hn
      rw [hs] at hne h' hw
      exact Or.inr ⟨hne, hw.allocs, hw.frees, G', _, h'⟩

/-- The large branch, of a size the header can be added to. -/
theorem Inv.largeAlloc (h : Inv maxPfn usable s G live others ref) (hn : n < 2 ^ 64 - 24)
    (hs : s.largeAlloc n = .ok (s', p)) :
    (p = 0 ∧ s' = s) ∨ (p ≠ 0 ∧ s'.totalAllocCount = s.totalAllocCount
      ∧ s'.totalFreeCount = s.totalFreeCount
      ∧ ∃ G' ref', Inv maxPfn usable s' G' ((p, n) :: live) others ref') := by
  unfold Kheap.largeAlloc at hs
  rw [Nat.mod_eq_of_lt (show n + 24 < 2 ^ 64 by omega)] at hs
  have hsmall : ¬ 2 ^ 31 < n + 24 := by
    intro hbig
    rw [orderLoop_forever hbig] at hs
    cases hs
  obtain ⟨order, hloop, hfits, -⟩ := orderLoop_spec (Nat.le_of_not_lt hsmall)
  rw [hloop] at hs
  by_cases hmax : order ≥ PMM_MAX_ORDER
  · simp only [hmax, if_true] at hs
    cases hs
    exact Or.inl ⟨rfl, rfl⟩
  · simp only [hmax, if_false] at hs
    cases ha : s.pmm.pmmAlloc order with
    | none =>
        rw [ha] at hs
        cases hs
        exact Or.inl ⟨rfl, rfl⟩
    | some r =>
        obtain ⟨pmm, page⟩ := r
        rw [ha] at hs
        obtain ⟨G', h'⟩ := h.largeTake ha (by omega) hfits
        have hs' := Except.ok.inj hs
        have hp : p = pageAt s.hhdm page + sizeofLargeHdr := (congrArg Prod.snd hs').symm
        have hst : s' = (Kheap.largeTake { s with pmm } page n order).1 :=
          (congrArg Prod.fst hs').symm
        rw [← hst, ← hp] at h'
        refine Or.inr ⟨?_, ?_, ?_, G', _, h'⟩
        · rw [hp]
          exact Nat.succ_ne_zero _
        · rw [hst]
          rfl
        · rw [hst]
          rfl

/-- `kmalloc`: NULL and nothing done, or one more live allocation. -/
theorem Inv.kmalloc (h : Inv maxPfn usable s G live others ref) (hn : n < 2 ^ 64 - 24)
    (hs : s.kmalloc n = .ok (s', p)) :
    (p = 0 ∧ s' = s) ∨ (p ≠ 0 ∧ s'.totalAllocCount = s.totalAllocCount + 1
      ∧ s'.totalFreeCount = s.totalFreeCount
      ∧ ∃ G' ref', Inv maxPfn usable s' G' ((p, n) :: live) others ref') := by
  by_cases h0 : n = 0
  · unfold Kheap.kmalloc at hs
    rw [if_pos h0] at hs
    cases hs
    exact Or.inl ⟨rfl, rfl⟩
  · have hptr : ∃ t, s.allocPtr n = .ok (t, p)
        ∧ s' = if p ≠ 0 then { t with totalAllocCount := t.totalAllocCount + 1 } else t := by
      unfold Kheap.kmalloc at hs
      rw [if_neg h0] at hs
      cases ha : s.allocPtr n with
      | error e =>
          rw [ha] at hs
          cases hs
      | ok r =>
          obtain ⟨t, p'⟩ := r
          rw [ha] at hs
          have hs' := Except.ok.inj hs
          have hp : p' = p := congrArg Prod.snd hs'
          rw [hp] at hs'
          exact ⟨t, by rw [hp], (congrArg Prod.fst hs').symm⟩
    obtain ⟨t, ha, hs'⟩ := hptr
    have hcase : (p = 0 ∧ t = s) ∨ (p ≠ 0 ∧ t.totalAllocCount = s.totalAllocCount
        ∧ t.totalFreeCount = s.totalFreeCount
        ∧ ∃ G' ref', Inv maxPfn usable t G' ((p, n) :: live) others ref') := by
      cases hcache : cacheForSize n with
      | some c =>
          obtain ⟨hc, hle⟩ := cacheForSize_some hcache
          rw [allocPtr_small s hcache] at ha
          exact h.slabAlloc hc hle (Except.ok.inj ha)
      | none =>
          rw [allocPtr_large s hcache] at ha
          exact h.largeAlloc hn ha
    cases hcase with
    | inl hz =>
        rw [if_neg (not_not.mpr hz.1)] at hs'
        exact Or.inl ⟨hz.1, hs'.trans hz.2⟩
    | inr hz =>
        obtain ⟨hne, hallocs, hfrees, G', ref', h'⟩ := hz
        rw [if_pos hne] at hs'
        refine Or.inr ⟨hne, ?_, ?_, G', ref', ?_⟩
        · rw [hs', ← hallocs]
        · rw [hs', ← hfrees]
        · rw [hs']
          exact h'.counters _ _

/-- `kfree` of a live pointer. -/
theorem Inv.kfree (h : Inv maxPfn usable s G live others ref) (hx : (x, n) ∈ live) :
    ∃ s', s.kfree x = .ok s' ∧ s'.totalAllocCount = s.totalAllocCount
      ∧ s'.totalFreeCount = s.totalFreeCount + 1
      ∧ ∃ G' ref', Inv maxPfn usable s' G' (live.erase (x, n)) others ref' := by
  obtain ⟨q, r, hq, hb⟩ := h.backed x n hx
  obtain ⟨hpage, hne⟩ := h.page_of_ptr hq hb
  have hstep : ∃ t, s.freePtr q x = .ok t ∧ t.totalAllocCount = s.totalAllocCount
      ∧ t.totalFreeCount = s.totalFreeCount
      ∧ ∃ G' ref', Inv maxPfn usable t G' (live.erase (x, n)) others ref' := by
    unfold freePtr
    cases r with
    | slab c free =>
        obtain ⟨-, hflag, hpriv, -⟩ := h.role q _ hq
        obtain ⟨⟨G', h'⟩, hw⟩ := h.give hq hx hb
        refine ⟨s.slabFree c x, ?_, hw.allocs, hw.frees, G', ref, h'⟩
        rw [if_pos hflag, hpriv]
        exact if_neg (Nat.succ_ne_zero c)
    | large order size =>
        obtain ⟨hflag, hlarge⟩ := large_recognised h hq
        obtain ⟨hxq, hns⟩ := hb
        obtain ⟨t, hok, ⟨G', h'⟩, hallocs, hfrees⟩ := h.largeFree hq
        rw [hxq, hns]
        refine ⟨t, ?_, hallocs, hfrees, G', _, h'⟩
        rw [hflag, if_neg Bool.false_ne_true, if_pos hlarge]
        exact hok
  obtain ⟨t, hok, hallocs, hfrees, G', ref', h'⟩ := hstep
  refine ⟨{ t with totalFreeCount := t.totalFreeCount + 1 }, ?_, hallocs, by rw [← hfrees], G', ref',
    h'.counters _ _⟩
  unfold Kheap.kfree
  rw [if_neg hne, hpage]
  simp only [hok]

/-- What `krealloc` takes the old size to be covers the allocation. -/
theorem Inv.oldSize (h : Inv maxPfn usable s G live others ref) (hx : (x, n) ∈ live) :
    ∃ size, s.oldSize x = .ok size ∧ n ≤ size := by
  obtain ⟨q, r, hq, hb⟩ := h.backed x n hx
  obtain ⟨hpage, -⟩ := h.page_of_ptr hq hb
  unfold Kheap.oldSize
  rw [hpage]
  cases r with
  | slab c free =>
      obtain ⟨hc, hflag, hpriv, -⟩ := h.role q _ hq
      refine ⟨(s.caches c).objSize, ?_, by rw [(h.sizes c hc).1]; exact hb.2.2⟩
      simp only [hflag, if_true, hpriv]
      exact if_neg (Nat.succ_ne_zero c)
  | large order size =>
      obtain ⟨hflag, hlarge⟩ := large_recognised h hq
      obtain ⟨-, hat⟩ := h.role q _ hq
      have hhdr : x - sizeofLargeHdr = pageAt s.hhdm q := by
        rw [hb.1]
        exact Nat.add_sub_cancel _ _
      have hmagic : s.get64 (pageAt s.hhdm q) = LARGE_MAGIC := hat.magic
      have hbytes : s.get64 (pageAt s.hhdm q + 8) = size := hat.bytes
      refine ⟨s.get64 (pageAt s.hhdm q + 8), ?_, by rw [hbytes]; exact le_of_eq hb.2⟩
      simp only [hflag, Bool.false_eq_true, if_false, hlarge, if_true, hhdr, hmagic, ne_eq,
        not_true_eq_false]

/-- Without an entry for it a pointer is not on the list. -/
theorem Inv.erase_eq (h : Inv maxPfn usable s G live others ref) (hx : (x, n) ∈ live) :
    live.erase (x, n) = live.filter fun e => e.1 ≠ x := by
  rw [(List.Nodup.of_map Prod.fst h.alone).erase_eq_filter]
  refine List.filter_congr fun e he => ?_
  by_cases hex : e.1 = x
  · have heq : e = (x, n) := by
      obtain ⟨y, m⟩ := e
      have hyx : y = x := hex
      rw [hyx] at he ⊢
      exact h.live_inj hx he
    rw [heq]
    simp
  · have hne : e ≠ (x, n) := fun e' => hex (by rw [e'])
    simp [hex, hne]

-- ==== the runs

/-- The calls of the heap. -/
inductive HeapCall where
  | kmalloc (size : Nat)
  | kzalloc (size : Nat)
  | krealloc (ptr size : Nat)
  | kfree (ptr : Nat)

/-- Makes a call; `kfree` returns nothing. -/
def heapCall (s : Kheap) : HeapCall → Except HeapStop (Kheap × Nat)
  | .kmalloc size => s.kmalloc size
  | .kzalloc size => s.kzalloc size
  | .krealloc ptr size => s.krealloc ptr size
  | .kfree ptr =>
      match s.kfree ptr with
      | .error e => .error e
      | .ok s => .ok (s, 0)

/-- A pointer that may be freed: NULL, or one that is live. -/
def MayFree (live : List (Nat × Nat)) (ptr : Nat) : Prop := ptr = 0 ∨ ∃ n, (ptr, n) ∈ live

/-- Only what is live is freed or reallocated, and the header of a large
allocation can be added to a size. -/
def HeapCall.May (live : List (Nat × Nat)) : HeapCall → Prop
  | .kmalloc size | .kzalloc size => size < 2 ^ 64 - 24
  | .krealloc ptr size => MayFree live ptr ∧ size < 2 ^ 64 - 24
  | .kfree ptr => MayFree live ptr

/-- A pointer is handed out, unless it is NULL. -/
def granted (live : List (Nat × Nat)) (ptr size : Nat) : List (Nat × Nat) :=
  if ptr = 0 then live else (ptr, size) :: live

/-- A pointer is not live any more. -/
def released (live : List (Nat × Nat)) (ptr : Nat) : List (Nat × Nat) :=
  live.filter fun e => e.1 ≠ ptr

/-- The live allocations after a call that returns `p`: a `krealloc` that
fails keeps the old one. -/
def HeapCall.after (live : List (Nat × Nat)) (p : Nat) : HeapCall → List (Nat × Nat)
  | .kmalloc size | .kzalloc size => granted live p size
  | .krealloc ptr size =>
      if size = 0 then released live ptr
      else if p = 0 then live
      else granted (released live ptr) p size
  | .kfree ptr => released live ptr

/-- The states of the heap, with the live allocations and the blocks that
the rest of the kernel has. -/
inductive Run (maxPfn : Nat) (usable : Nat → Bool) :
    Kheap → List (Nat × Nat) → List Block → Prop
  /-- `kheap_init`, when no page is a slab. -/
  | init {s : Kheap} {others : List Block} {ref : Nat → Nat} : Placed maxPfn s →
      Ledger maxPfn usable s.pmm others ref →
      (∀ q, hasFlag (s.pmm.pages q).flags PAGE_SLAB = false) →
      Run maxPfn usable s.kheapInit [] others
  /-- A call that returns. -/
  | call {s s' : Kheap} {live : List (Nat × Nat)} {others : List Block} {k : HeapCall} {p : Nat} :
      Run maxPfn usable s live others → k.May live → s.heapCall k = .ok (s', p) →
      Run maxPfn usable s' (k.after live p) others
  /-- An owner writes to an allocation. -/
  | write {s : Kheap} {live : List (Nat × Nat)} {others : List Block} {x n : Nat} {m : Memory} :
      Run maxPfn usable s live others → (x, n) ∈ live →
      (∀ a, m a ≠ s.mem a → x ≤ a ∧ a < x + n) →
      Run maxPfn usable { s with mem := m } live others
  /-- The rest of the kernel writes to pages of its own, or to memory that
  the page allocator does not manage. -/
  | otherWrite {s : Kheap} {live : List (Nat × Nat)} {others : List Block} {m : Memory} :
      Run maxPfn usable s live others →
      (∀ a, m a ≠ s.mem a → ∀ q, pageAt s.hhdm q ≤ a → a < pageAt s.hhdm q + 4096 →
        ¬ Usable maxPfn usable q ∨ Pmm.Allocated others q) →
      Run maxPfn usable { s with mem := m } live others
  /-- The rest of the kernel gets a block, -/
  | otherAlloc {s : Kheap} {live : List (Nat × Nat)} {others : List Block} {pmm : Pmm}
      {order p : Nat} : Run maxPfn usable s live others →
      s.pmm.pmmAlloc order = some (pmm, p) →
      Run maxPfn usable { s with pmm } live (⟨p, order⟩ :: others)
  /-- takes a reference to one of its own, -/
  | otherRef {s : Kheap} {live : List (Nat × Nat)} {others : List Block} {b : Block} :
      Run maxPfn usable s live others → b ∈ others →
      Run maxPfn usable { s with pmm := s.pmm.pageRefInc b.base } live others
  /-- or drops one. -/
  | otherFree {s : Kheap} {live : List (Nat × Nat)} {others : List Block} {b : Block} {pmm : Pmm} :
      Run maxPfn usable s live others → b ∈ others → s.pmm.pmmFree (some b.base) = .ok pmm →
      Run maxPfn usable { s with pmm } live
        (if (s.pmm.pages b.base).refcount = 1 then others.erase b else others)

/-- The invariant, and the counters. -/
def Kept (maxPfn : Nat) (usable : Nat → Bool) (s : Kheap) (live : List (Nat × Nat))
    (others : List Block) : Prop :=
  (∃ G ref, Inv maxPfn usable s G live others ref)
    ∧ s.totalAllocCount - s.totalFreeCount = BitVec.ofNat 64 live.length

theorem Kept.not_null (h : Kept maxPfn usable s live others) (hx : (x, n) ∈ live) : x ≠ 0 := by
  obtain ⟨⟨G, ref, h⟩, -⟩ := h
  obtain ⟨q, r, hq, hb⟩ := h.backed x n hx
  exact (h.page_of_ptr hq hb).2

theorem Kept.released_null (h : Kept maxPfn usable s live others) : released live 0 = live := by
  unfold released
  refine List.filter_eq_self.mpr fun e he => ?_
  have hne : e.1 ≠ 0 := h.not_null (n := e.2) he
  exact decide_eq_true hne

/-- `kheap_init`. -/
theorem kept_init (hp : Placed maxPfn s) (hl : Ledger maxPfn usable s.pmm others ref)
    (hs : ∀ q, hasFlag (s.pmm.pages q).flags PAGE_SLAB = false) :
    Kept maxPfn usable s.kheapInit [] others := by
  refine ⟨⟨⟨fun _ => none, fun _ _ => [], []⟩, ref, ⟨hp.pos, hp.aligned, hp.room⟩, fun c hc => ?_, hl,
    fun q o => ?_, fun b hb => (by cases hb), fun q r hr => (by cases hr), fun q hf => ?_, ?_,
    fun q c free hr => (by cases hr), fun c k q hq => (by cases hq), fun x n hx => (by cases hx),
    List.nodup_nil⟩, BitVec.sub_self 0⟩
  · show SizesOf (if c < NUM_SIZE_CLASSES then _ else _) c
    rw [if_pos hc]
    exact ⟨rfl, rfl⟩
  · constructor
    · intro hb
      cases hb
    · intro hr
      obtain ⟨r, hr, -⟩ := hr
      cases hr
  · have hf' : hasFlag (s.pmm.pages q).flags PAGE_SLAB = true := hf
    rw [hs q] at hf'
    cases hf'
  · have hno : ∀ q, ¬ (Ghost.mk (fun _ => none) (fun _ _ => []) []).IsSlab q := by
      intro q hq
      obtain ⟨c, free, hq⟩ := hq
      cases hq
    refine ⟨⟨⟨fun _ => none, fun _ => none⟩, ⟨fun q hq => absurd hq (hno q),
      fun q hq => absurd hq (hno q)⟩, fun _ _ => Dll.isList_nil _⟩, fun c k hc => ?_,
      fun c k q hq => (by cases hq), fun c k c' k' q hq => (by cases hq),
      fun q hq => absurd hq (hno q)⟩
    unfold head kheapInit
    simp only [hc, if_true]
    cases k with
    | partials => rfl
    | full => rfl

theorem counter_succ (a f : BitVec 64) : a + 1 - f = a - f + 1#64 := by bv_omega

theorem counter_pred {a f l : BitVec 64} (h : a - f = l + 1#64) : a - (f + 1) = l := by bv_omega

theorem Kept.kmalloc (h : Kept maxPfn usable s live others) (hn : n < 2 ^ 64 - 24)
    (hs : s.kmalloc n = .ok (s', p)) : Kept maxPfn usable s' (granted live p n) others := by
  obtain ⟨⟨G, ref, h⟩, hcount⟩ := h
  unfold granted
  cases h.kmalloc hn hs with
  | inl hz =>
      rw [if_pos hz.1, hz.2]
      exact ⟨⟨G, ref, h⟩, hcount⟩
  | inr hz =>
      obtain ⟨hne, hallocs, hfrees, G', ref', h'⟩ := hz
      rw [if_neg hne]
      refine ⟨⟨G', ref', h'⟩, ?_⟩
      rw [hallocs, hfrees, List.length_cons, BitVec.ofNat_add, ← hcount]
      exact counter_succ _ _

theorem Kept.kfree (h : Kept maxPfn usable s live others) (hx : MayFree live x) :
    ∃ s', s.kfree x = .ok s' ∧ Kept maxPfn usable s' (released live x) others := by
  cases hx with
  | inl h0 =>
      rw [h0, h.released_null]
      exact ⟨s, by unfold Kheap.kfree; rw [if_pos rfl], h⟩
  | inr hx =>
      obtain ⟨n, hx⟩ := hx
      obtain ⟨⟨G, ref, h⟩, hcount⟩ := h
      obtain ⟨s', hok, hallocs, hfrees, G', ref', h'⟩ := h.kfree hx
      refine ⟨s', hok, ?_⟩
      have hlen : live.length = (live.erase (x, n)).length + 1 := by
        rw [List.length_erase_of_mem hx]
        have := List.length_pos_of_mem hx
        omega
      unfold released
      rw [← h.erase_eq hx]
      refine ⟨⟨G', ref', h'⟩, ?_⟩
      rw [hlen, BitVec.ofNat_add] at hcount
      rw [hallocs, hfrees]
      exact counter_pred hcount

theorem Kept.write (h : Kept maxPfn usable s live others) (hx : (x, n) ∈ live) {m : Memory}
    (hm : ∀ a, m a ≠ s.mem a → x ≤ a ∧ a < x + n) :
    Kept maxPfn usable { s with mem := m } live others := by
  obtain ⟨⟨G, ref, h⟩, hcount⟩ := h
  exact ⟨⟨G, ref, h.write_live (h.backed x n hx) hm⟩, hcount⟩

theorem Kept.kzalloc (h : Kept maxPfn usable s live others) (hn : n < 2 ^ 64 - 24)
    (hs : s.kzalloc n = .ok (s', p)) : Kept maxPfn usable s' (granted live p n) others := by
  unfold Kheap.kzalloc at hs
  cases hk : s.kmalloc n with
  | error e =>
      rw [hk] at hs
      cases hs
  | ok r =>
      obtain ⟨t, p'⟩ := r
      rw [hk] at hs
      have hs' := Except.ok.inj hs
      have hp : p' = p := congrArg Prod.snd hs'
      have hst := (congrArg Prod.fst hs').symm
      rw [hp] at hk hst
      have ht := h.kmalloc hn hk
      by_cases h0 : p = 0
      · have hst' : s' = t := hst.trans (if_neg (not_not.mpr h0))
        rw [hst']
        exact ht
      · have hst' : s' = { t with mem := fill t.mem p n 0 } := hst.trans (if_pos h0)
        rw [hst']
        unfold granted at ht ⊢
        rw [if_neg h0] at ht ⊢
        exact ht.write List.mem_cons_self fun a ha => Bytes.fill_changed ha

/-- `memcpy` of at most `n` bytes writes to a block of `n` bytes only. -/
theorem copy_within {mem src : Memory} {start size a : Nat}
    (ha : copy mem p src start (if size < n then size else n) a ≠ mem a) : p ≤ a ∧ a < p + n := by
  have hin := Bytes.copy_changed ha
  refine ⟨hin.1, ?_⟩
  split at hin
  · omega
  · omega

/-- On each branch of `krealloc` the heap stays in order. -/
theorem Kept.krealloc (h : Kept maxPfn usable s live others) (hx : MayFree live x)
    (hn : n < 2 ^ 64 - 24) (hs : s.krealloc x n = .ok (s', p)) :
    Kept maxPfn usable s' ((HeapCall.krealloc x n).after live p) others := by
  unfold HeapCall.after
  unfold Kheap.krealloc at hs
  by_cases hx0 : x = 0
  · -- as `kmalloc`
    rw [if_pos hx0] at hs
    have hk := h.kmalloc hn hs
    simp only [hx0, h.released_null]
    by_cases hn0 : n = 0
    · have hp : p = 0 := by
        unfold Kheap.kmalloc at hs
        rw [if_pos hn0] at hs
        cases hs
        rfl
      unfold granted at hk
      rw [if_pos hp] at hk
      rwa [if_pos hn0]
    · rw [if_neg hn0]
      by_cases hp : p = 0
      · unfold granted at hk
        rw [if_pos hp] at hk ⊢
        exact hk
      · rwa [if_neg hp]
  · rw [if_neg hx0] at hs
    by_cases hn0 : n = 0
    · -- as `kfree`
      rw [if_pos hn0] at hs
      obtain ⟨t, hok, ht⟩ := h.kfree hx
      rw [hok] at hs
      cases hs
      simp only [hn0, if_true]
      exact ht
    · rw [if_neg hn0] at hs
      simp only [hn0, if_false]
      cases hk : s.kmalloc n with
      | error e =>
          rw [hk] at hs
          cases hs
      | ok r =>
          obtain ⟨t, p'⟩ := r
          rw [hk] at hs
          have ht := h.kmalloc hn hk
          by_cases hp' : p' = 0
          · simp only [hp', if_true] at hs
            cases hs
            unfold granted at ht
            rw [if_pos hp'] at ht
            rw [if_pos rfl]
            exact ht
          · -- the new one is live, the contents are copied, the old one goes
            simp only [hp', if_false] at hs
            obtain ⟨m, hx⟩ := hx.resolve_left hx0
            unfold granted at ht
            rw [if_neg hp'] at ht
            have hx' : (x, m) ∈ (p', n) :: live := List.mem_cons_of_mem _ hx
            have hne : p' ≠ x := by
              obtain ⟨⟨G, ref, hinv⟩, -⟩ := ht
              exact (hinv.newest_ne hx).symm
            obtain ⟨size, hold⟩ : ∃ size, t.oldSize x = .ok size := by
              obtain ⟨⟨G, ref, hinv⟩, -⟩ := ht
              obtain ⟨size, hold, -⟩ := hinv.oldSize hx'
              exact ⟨size, hold⟩
            rw [hold] at hs
            have hcopied := ht.write (m := copy t.mem p' t.mem x (if size < n then size else n))
              List.mem_cons_self fun a ha => copy_within ha
            obtain ⟨u, hok, hu⟩ := hcopied.kfree (Or.inr ⟨m, hx'⟩)
            have hrest : released ((p', n) :: live) x = (p', n) :: released live x :=
              List.filter_cons_of_pos (decide_eq_true hne)
            rw [hrest] at hu
            simp only [hok] at hs
            cases hs
            rw [if_neg hp']
            unfold granted
            rw [if_neg hp']
            exact hu

-- ==== the rest of the kernel

/-- A step of the page allocator that is not the heap's. -/
theorem Inv.otherStep (h : Inv maxPfn usable s G live others ref) {pmm : Pmm} {others' : List Block}
    {ref' : Nat → Nat} (hledger : Ledger maxPfn usable pmm (G.blocks ++ others') ref')
    (honce : ∀ b ∈ G.blocks, ref' b.base = 1)
    (hdata : ∀ q r, G.role q = some r → (pmm.pages q).flags = (s.pmm.pages q).flags
      ∧ (pmm.pages q).priv = (s.pmm.pages q).priv)
    (hflag : ∀ q, hasFlag (pmm.pages q).flags PAGE_SLAB = true →
      hasFlag (s.pmm.pages q).flags PAGE_SLAB = true) :
    Inv maxPfn usable { s with pmm } G live others' ref' :=
  ⟨⟨h.placed.pos, h.placed.aligned, h.placed.room⟩, h.sizes, hledger, h.block, honce,
    fun q r hq => (h.role q r hq).frame rfl (hdata q r hq).1 (hdata q r hq).2 fun _ _ => rfl,
    fun q hf => h.flag q (hflag q hf),
    ⟨h.listed.linked, h.listed.head, h.listed.member, h.listed.alone, h.listed.low⟩,
    h.onList, h.inList, h.backed, h.alone⟩

/-- The blocks of the heap are nobody else's. -/
theorem Inv.not_others (h : Inv maxPfn usable s G live others ref) {b : Block}
    (hb : b ∈ others) : b ∉ G.blocks ∧ ∀ d ∈ G.blocks, d.base ≠ b.base := by
  have hnot : b ∉ G.blocks := fun hin =>
    (List.nodup_append.mp h.ledger.nodup).2.2 b hin b hb rfl
  refine ⟨hnot, fun d hd e => hnot ?_⟩
  rw [← h.ledger.head_inj (List.mem_append_left _ hd) (List.mem_append_right _ hb) e]
  exact hd

/-- No page with this byte is one that the page allocator may give to the
heap. -/
def Foreign (maxPfn : Nat) (usable : Nat → Bool) (hhdm : Nat) (others : List Block)
    (a : Nat) : Prop :=
  ∀ q, pageAt hhdm q ≤ a → a < pageAt hhdm q + 4096 →
    ¬ Usable maxPfn usable q ∨ Pmm.Allocated others q

/-- It is in no block of the heap. -/
theorem Inv.foreign_apart {r : Role} {a : Nat} (h : Inv maxPfn usable s G live others ref)
    (ha : Foreign maxPfn usable s.hhdm others a) (hq : G.role q = some r)
    (hp : p ∈ Block.mk q r.order) : ¬ (pageAt s.hhdm p ≤ a ∧ a < pageAt s.hhdm p + 4096) := by
  intro hin
  cases ha p hin.1 hin.2 with
  | inl hno => exact hno (h.ledger.mem_usable (h.role_block hq) hp)
  | inr hother =>
      obtain ⟨b, hb, hpb⟩ := hother
      have hblock := (h.block q r.order).mpr ⟨r, hq, rfl⟩
      have hne : (⟨q, r.order⟩ : Block) ≠ b := fun e =>
        (h.not_others hb).1 (by rw [← e]; exact hblock)
      exact h.ledger.apart (h.role_block hq) (List.mem_append_right _ hb) hne hp hpb

theorem Inv.foreign_page {r : Role} {a : Nat} (h : Inv maxPfn usable s G live others ref)
    (ha : Foreign maxPfn usable s.hhdm others a) (hq : G.role q = some r) :
    ¬ (pageAt s.hhdm q ≤ a ∧ a < pageAt s.hhdm q + 4096) :=
  h.foreign_apart ha hq (Block.base_mem ⟨q, r.order⟩)

theorem Kept.otherWrite (h : Kept maxPfn usable s live others) {m : Memory}
    (hm : ∀ a, m a ≠ s.mem a → Foreign maxPfn usable s.hhdm others a) :
    Kept maxPfn usable { s with mem := m } live others := by
  obtain ⟨⟨G, ref, h⟩, hcount⟩ := h
  refine ⟨⟨G, ref, h.write fun a ha q r hq => ?_⟩, hcount⟩
  have hout := h.foreign_page (hm a ha) hq
  refine ⟨fun hmeta => ?_, fun hlink => hout ⟨hlink.1, by omega⟩⟩
  obtain ⟨h1, h2, -⟩ := (h.role q r hq).meta_inside hmeta
  exact hout ⟨h1, h2⟩

theorem Kept.otherAlloc (h : Kept maxPfn usable s live others) {pmm : Pmm}
    (ha : s.pmm.pmmAlloc o = some (pmm, p)) :
    Kept maxPfn usable { s with pmm } live (⟨p, o⟩ :: others) := by
  obtain ⟨⟨G, ref, h⟩, hcount⟩ := h
  obtain ⟨hledger, -, -⟩ := h.ledger.alloc ha
  refine ⟨⟨G, _, h.otherStep (hledger.perm List.perm_middle.symm) (fun b hb => ?_)
    (fun q r hq => h.alloc_data ha hq)
    fun q hf => slab_of_foreign (Pmm.foreign_pmmAlloc ha) hf⟩, hcount⟩
  by_cases he : b.base = p
  · rw [he]
    exact Function.update_self p 1 ref
  · rw [Function.update_of_ne he]
    exact h.once b hb

theorem Kept.otherRef (h : Kept maxPfn usable s live others) {b : Block} (hb : b ∈ others) :
    Kept maxPfn usable { s with pmm := s.pmm.pageRefInc b.base } live others := by
  obtain ⟨⟨G, ref, h⟩, hcount⟩ := h
  have hkeep : ∀ q, ((s.pmm.pageRefInc b.base).pages q).flags = (s.pmm.pages q).flags
      ∧ ((s.pmm.pageRefInc b.base).pages q).priv = (s.pmm.pages q).priv := by
    intro q
    unfold Pmm.pageRefInc
    by_cases he : q = b.base
    · rw [he, Pmm.modPage_pages_self]
      exact ⟨rfl, rfl⟩
    · rw [Pmm.modPage_pages_of_ne _ he]
      exact ⟨rfl, rfl⟩
  refine ⟨⟨G, _, h.otherStep (h.ledger.refInc (List.mem_append_right _ hb)) (fun d hd => ?_)
    (fun q _ _ => hkeep q) fun q hf => by rwa [(hkeep q).1] at hf⟩, hcount⟩
  rw [Function.update_of_ne ((h.not_others hb).2 d hd)]
  exact h.once d hd

theorem Kept.otherFree (h : Kept maxPfn usable s live others) {b : Block} {pmm : Pmm}
    (hb : b ∈ others) (hf : s.pmm.pmmFree (some b.base) = .ok pmm) :
    Kept maxPfn usable { s with pmm } live
      (if (s.pmm.pages b.base).refcount = 1 then others.erase b else others) := by
  obtain ⟨⟨G, ref, h⟩, hcount⟩ := h
  obtain ⟨hnot, hbase⟩ := h.not_others hb
  have hbout := List.mem_append_right G.blocks hb
  obtain ⟨pmm', hok, hledger, hdata⟩ := h.ledger.drop hbout
  rw [hf] at hok
  cases hok
  obtain ⟨-, -, href, -⟩ := h.ledger.head b hbout
  have hone : (s.pmm.pages b.base).refcount = 1 ↔ ref b.base = 1 := by
    rw [href]
    exact Nat.cast_eq_one
  have hlist : (if ref b.base = 1 then (G.blocks ++ others).erase b else G.blocks ++ others)
      = G.blocks ++ if (s.pmm.pages b.base).refcount = 1 then others.erase b else others := by
    by_cases h1 : ref b.base = 1
    · rw [if_pos h1, if_pos (hone.mpr h1), List.erase_append_right _ hnot]
    · rw [if_neg h1, if_neg (mt hone.mp h1)]
  rw [hlist] at hledger
  refine ⟨⟨G, _, h.otherStep hledger (fun d hd => ?_) (fun q r hq => ?_)
    fun q hs => slab_of_foreign (Pmm.foreign_pmmFree hf) hs⟩, hcount⟩
  · rw [Function.update_of_ne (hbase d hd)]
    exact h.once d hd
  · have hblock := (h.block q r.order).mpr ⟨r, hq, rfl⟩
    have hne : (⟨q, r.order⟩ : Block) ≠ b := fun e => hnot (by rw [← e]; exact hblock)
    obtain ⟨-, -, hfl, hpv⟩ := Page.data_eq_iff.mp
      (hdata _ (h.role_block hq) hne q (Block.base_mem ⟨q, r.order⟩))
    exact ⟨hfl, hpv⟩

/-- A call of the heap. -/
theorem Kept.call {k : HeapCall} (h : Kept maxPfn usable s live others) (hmay : k.May live)
    (hs : s.heapCall k = .ok (s', p)) : Kept maxPfn usable s' (k.after live p) others := by
  cases k with
  | kmalloc size => exact h.kmalloc hmay hs
  | kzalloc size => exact h.kzalloc hmay hs
  | krealloc ptr size => exact h.krealloc hmay.1 hmay.2 hs
  | kfree ptr =>
      obtain ⟨t, hok, ht⟩ := h.kfree hmay
      have hs' : heapCall s (.kfree ptr) = .ok (t, 0) := by
        unfold heapCall
        simp only [hok]
      rw [hs'] at hs
      cases hs
      exact ht

/-- Every step of a run keeps the heap. -/
theorem Run.kept (h : Run maxPfn usable s live others) : Kept maxPfn usable s live others := by
  induction h with
  | init hp hl hs => exact kept_init hp hl hs
  | call _ hmay hs ih => exact ih.call hmay hs
  | write _ hx hm ih => exact ih.write hx hm
  | otherWrite _ hm ih => exact ih.otherWrite hm
  | otherAlloc _ ha ih => exact ih.otherAlloc ha
  | otherRef _ hb ih => exact ih.otherRef hb
  | otherFree _ hb hf ih => exact ih.otherFree hb hf

end Alix.Kheap
