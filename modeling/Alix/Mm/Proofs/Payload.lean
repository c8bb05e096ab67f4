/-
The heap does not write to what its callers have.

# What holds

`kmalloc` and `kfree` write to headers, to links, to free slots and to the
page they have just taken, and none of these is in a live allocation
(`Inv.kmalloc_bytes`, `Inv.kfree_bytes`). So `krealloc` either returns
NULL and has done nothing at all, or it returns an allocation whose first
bytes are those of the old one, as many as both have, and every other
allocation has its bytes still (`Kept.krealloc_bytes`). The bytes behind
them are whatever was there.

The owner of an allocation who does not touch it while the others call the
heap, write to what is theirs and take pages and give them back
(`Elsewhere`) finds it live, with the bytes it had (`Elsewhere.bytes`).
-/
import Alix.Mm.Proofs.Kheap

namespace Alix.Kheap

open Bytes (Memory load store fill copy store_outside)
open Dyadic (Block)
open Pmm (Ledger Usable)

variable {maxPfn : Nat} {usable : Nat → Bool} {s s' : Kheap} {G : Ghost} {c q p n m x o : Nat}
  {r : Role} {free : List Nat} {live live' : List (Nat × Nat)} {others : List Block}
  {ref : Nat → Nat} {pmm : Pmm} {P : Nat → Prop} {lists : Nat → SlabList → List Nat}

/-- The allocations of a list have the bytes they had. -/
def SameBytes (live : List (Nat × Nat)) (mem mem' : Memory) : Prop :=
  ∀ y n, (y, n) ∈ live → ∀ a, y ≤ a → a < y + n → mem' a = mem a

theorem SameBytes.refl (live : List (Nat × Nat)) (mem : Memory) : SameBytes live mem mem :=
  fun _ _ _ _ _ _ => rfl

theorem SameBytes.trans {mem mem' mem'' : Memory} (h : SameBytes live mem mem')
    (h' : SameBytes live mem' mem'') : SameBytes live mem mem'' :=
  fun y n hy a h1 h2 => (h' y n hy a h1 h2).trans (h y n hy a h1 h2)

-- ==== the calls

/-- A byte of a live allocation, or of memory that is not the heap's. -/
def Spared (maxPfn : Nat) (usable : Nat → Bool) (hhdm : Nat) (live : List (Nat × Nat))
    (others : List Block) (a : Nat) : Prop :=
  (∃ x n, (x, n) ∈ live ∧ x ≤ a ∧ a < x + n) ∨ Foreign maxPfn usable hhdm others a

/-- A step of the heap that writes to no such byte. -/
structure Spares (maxPfn : Nat) (usable : Nat → Bool) (s : Kheap) (live : List (Nat × Nat))
    (others : List Block) (s' : Kheap) : Prop where
  hhdm : s'.hhdm = s.hhdm
  mem : ∀ a, Spared maxPfn usable s.hhdm live others a → s'.mem a = s.mem a

theorem Spares.refl (s : Kheap) : Spares maxPfn usable s live others s := ⟨rfl, fun _ _ => rfl⟩

theorem Spares.trans {t : Kheap} (h : Spares maxPfn usable s live others s')
    (h' : Spares maxPfn usable s' live others t) : Spares maxPfn usable s live others t :=
  ⟨h'.hhdm.trans h.hhdm, fun a ha => (h'.mem a (by rw [h.hhdm]; exact ha)).trans (h.mem a ha)⟩

theorem Spares.bytes (h : Spares maxPfn usable s live others s') :
    SameBytes live s.mem s'.mem :=
  fun x n hx a h1 h2 => h.mem a (Or.inl ⟨x, n, hx, h1, h2⟩)

/-- The links of the slabs and the header of one of them are not spared. -/
theorem Inv.spared_header {a : Nat} (h : Inv maxPfn usable s G live others ref)
    (ha : Spared maxPfn usable s.hhdm live others a) :
    (∀ p, G.IsSlab p → ¬ (pageAt s.hhdm p ≤ a ∧ a < pageAt s.hhdm p + 16))
      ∧ ∀ q c free, G.role q = some (.slab c free) →
        ¬ (pageAt s.hhdm q + 16 ≤ a ∧ a < pageAt s.hhdm q + 28) := by
  cases ha with
  | inl hlive =>
      obtain ⟨x, n, hx, h1, h2⟩ := hlive
      have hb := h.backed x n hx
      constructor
      · intro p hp
        obtain ⟨c, free, hp⟩ := hp
        exact (h.backs_clear hb h1 h2 hp).2
      · intro q c free hq hin
        exact (h.backs_clear hb h1 h2 hq).1 (Or.inl ⟨hin.1, by omega⟩)
  | inr hforeign =>
      constructor
      · intro p hp hin
        obtain ⟨c, free, hp⟩ := hp
        exact h.foreign_page hforeign hp ⟨hin.1, by omega⟩
      · intro q c free hq hin
        exact h.foreign_page hforeign hq ⟨by omega, by omega⟩

/-- Nor is a page that `pmm_alloc` returns. -/
theorem Inv.spared_apart {a : Nat} (h : Inv maxPfn usable s G live others ref)
    (ha : s.pmm.pmmAlloc o = some (pmm, p)) (hs : Spared maxPfn usable s.hhdm live others a) :
    ¬ (pageAt s.hhdm p ≤ a ∧ a < pageAt s.hhdm p + 4096) := by
  obtain ⟨hledger, hnew, -⟩ := h.ledger.alloc ha
  have hp := Block.base_mem ⟨p, o⟩
  intro hpage
  cases hs with
  | inl hlive =>
      obtain ⟨x, n, hx, h1, h2⟩ := hlive
      obtain ⟨q, r, hq, hb⟩ := h.backed x n hx
      have hin := (h.role q r hq).backed_inside hb
      refine hnew p hp _ (h.role_block hq) ?_
      show q ≤ p ∧ p < q + 2 ^ r.order
      unfold pageAt at hin hpage
      omega
  | inr hforeign =>
      cases hforeign p hpage.1 hpage.2 with
      | inl hno => exact hno (hledger.mem_usable List.mem_cons_self hp)
      | inr hother =>
          obtain ⟨b, hb, hpb⟩ := hother
          exact hnew p hp b (List.mem_append_right _ hb) hpb

theorem Inv.take_spares (h : Inv maxPfn usable s G live others ref) (hc : c < NUM_SIZE_CLASSES)
    (hhead : (G.lists c .partials).head? = some q) :
    Spares maxPfn usable s live others (s.slabTake c).1 := by
  refine ⟨(slabTake_frame s c).2, fun a ha => ?_⟩
  obtain ⟨hlink, hheader⟩ := h.spared_header ha
  obtain ⟨free, hq, -⟩ := h.inList c .partials q (List.mem_of_mem_head? (by rw [hhead]; rfl))
  exact slabTake_outside h.placed.pos (listed_iff.mp h.listed) hc hhead hlink (hheader q c free hq)

/-- The new slab is set up in a page that nobody has. -/
theorem Inv.create_spares (h : Inv maxPfn usable s G live others ref) (hc : c < NUM_SIZE_CLASSES)
    (ha : s.pmm.pmmAllocPage = some (pmm, p)) :
    Spares maxPfn usable s live others
      ((s.newSlab c pmm p).slabListPush c .partials (pageAt s.hhdm p)) := by
  obtain ⟨-, -, -, hr⟩ := h.create hc ha
  refine ⟨hr.hhdm, fun a hs => ?_⟩
  have hpage := h.spared_apart ha hs
  obtain ⟨hlink, -⟩ := h.spared_header hs
  refine (hr.mem a fun q hq hin => ?_).trans (initSlab_outside hc (h.sizes c hc) hpage)
  have hin' : pageAt s.hhdm q ≤ a ∧ a < pageAt s.hhdm q + 16 := hin
  cases hq with
  | inl he =>
      rw [he] at hin'
      exact hpage ⟨hin'.1, by omega⟩
  | inr hq => exact hlink q hq hin'

theorem Inv.slabAlloc_spares (h : Inv maxPfn usable s G live others ref)
    (hc : c < NUM_SIZE_CLASSES) : Spares maxPfn usable s live others (s.slabAlloc c).1 := by
  unfold Kheap.slabAlloc
  have hhead := h.listed.head c .partials hc
  cases hl : (G.lists c .partials).head? with
  | none =>
      rw [hl] at hhead
      rw [if_pos (show s.head c .partials = 0 from hhead)]
      cases ha : s.pmm.pmmAllocPage with
      | none =>
          have hcreate : s.slabCreate c = none := by
            unfold slabCreate
            rw [ha]
          rw [hcreate]
          exact Spares.refl s
      | some r =>
          obtain ⟨pmm, page⟩ := r
          rw [slabCreate_eq s c ha]
          obtain ⟨G₁, h₁, hhead₁, -⟩ := h.create hc ha
          exact (h.create_spares hc ha).trans (h₁.take_spares hc hhead₁)
  | some q =>
      have hptr : s.head c .partials ≠ 0 := by
        rw [hhead, hl]
        intro e
        cases (slabPtr_eq_zero h.placed.pos).mp e
      rw [if_neg hptr]
      exact h.take_spares hc hl

theorem Inv.largeAlloc_spares (h : Inv maxPfn usable s G live others ref)
    (hs : s.largeAlloc n = .ok (s', p)) : Spares maxPfn usable s live others s' := by
  unfold Kheap.largeAlloc at hs
  split at hs
  · cases hs
  · rename_i order hloop
    split at hs
    · cases hs
      exact Spares.refl s
    · split at hs
      · cases hs
        exact Spares.refl s
      · rename_i pmm page ha
        have hs' : (Kheap.largeTake { s with pmm } page n order).1 = s' :=
          congrArg Prod.fst (Except.ok.inj hs)
        rw [← hs']
        exact ⟨rfl, fun a hsp => largeTake_outside s pmm n order (h.spared_apart ha hsp)⟩

/-- `kmalloc` does not write to what is live, nor to what is not the
heap's. -/
theorem Inv.kmalloc_spares (h : Inv maxPfn usable s G live others ref)
    (hs : s.kmalloc n = .ok (s', p)) : Spares maxPfn usable s live others s' := by
  unfold Kheap.kmalloc at hs
  split at hs
  · cases hs
    exact Spares.refl s
  · split at hs
    · cases hs
    · rename_i t ptr ha
      have hs' :
          (if ptr ≠ 0 then { t with totalAllocCount := t.totalAllocCount + 1 } else t) = s' :=
        congrArg Prod.fst (Except.ok.inj hs)
      have hcount : s'.mem = t.mem ∧ s'.hhdm = t.hhdm := by
        rw [← hs']
        split
        · exact ⟨rfl, rfl⟩
        · exact ⟨rfl, rfl⟩
      have ht : Spares maxPfn usable s live others t := by
        unfold allocPtr at ha
        split at ha
        · rename_i c hcache
          have ht : (s.slabAlloc c).1 = t := congrArg Prod.fst (Except.ok.inj ha)
          rw [← ht]
          exact h.slabAlloc_spares (cacheForSize_some hcache).1
        · exact h.largeAlloc_spares ha
      exact ⟨hcount.2.trans ht.hhdm, fun a hsp => by rw [hcount.1, ht.mem a hsp]⟩

theorem Inv.kmalloc_bytes (h : Inv maxPfn usable s G live others ref)
    (hs : s.kmalloc n = .ok (s', p)) : SameBytes live s.mem s'.mem :=
  (h.kmalloc_spares hs).bytes

/-- The page of a byte of an allocation is in a block of the heap. -/
theorem Inv.live_page {a : Nat} (h : Inv maxPfn usable s G live others ref) (hx : (x, n) ∈ live)
    (h1 : x ≤ a) (h2 : a < x + n) : ∃ q r p, G.role q = some r ∧ p ∈ Block.mk q r.order
      ∧ pageAt s.hhdm p ≤ a ∧ a < pageAt s.hhdm p + 4096 := by
  obtain ⟨q, r, hq, hb⟩ := h.backed x n hx
  have hin := (h.role q r hq).backed_inside hb
  refine ⟨q, r, (a - s.hhdm) / 4096, hq, ?_, ?_, ?_⟩
  · show q ≤ _ ∧ _ < q + 2 ^ r.order
    unfold pageAt at hin
    omega
  · unfold pageAt at hin ⊢
    omega
  · unfold pageAt at hin ⊢
    omega

theorem mem_released {e : Nat × Nat} : e ∈ released live x ↔ e ∈ live ∧ e.1 ≠ x := by
  unfold released
  rw [List.mem_filter, decide_eq_true_iff]

/-- Nor does `kfree`, to what stays live. -/
theorem Inv.kfree_bytes (h : Inv maxPfn usable s G live others ref) (hx : (x, n) ∈ live)
    (hs : s.kfree x = .ok s') : SameBytes (released live x) s.mem s'.mem := by
  obtain ⟨q, r, hq, hb⟩ := h.backed x n hx
  obtain ⟨hpage, hne⟩ := h.page_of_ptr hq hb
  obtain ⟨t, ht, hmem⟩ : ∃ t, s.freePtr q x = .ok t ∧ s'.mem = t.mem := by
    unfold Kheap.kfree at hs
    rw [if_neg hne, hpage] at hs
    dsimp only at hs
    split at hs
    · cases hs
    · rename_i t ht
      cases hs
      exact ⟨t, ht, rfl⟩
  rw [hmem]
  intro y m hy a h1 h2
  obtain ⟨hy, hyx⟩ := mem_released.mp hy
  have hback := h.backed y m hy
  unfold freePtr at ht
  cases r with
  | slab c free =>
      obtain ⟨hc, hflag, hpriv, hslab⟩ := h.role q _ hq
      rw [if_pos hflag, hpriv, if_neg (show cachePtr c ≠ 0 from Nat.succ_ne_zero c),
        show cachePtr c - 1 = c from rfl] at ht
      rw [← Except.ok.inj ht]
      obtain ⟨hlink, hheader⟩ := h.spared_header (Or.inl ⟨y, m, hy, h1, h2⟩)
      -- the whole slot is apart from the other allocation
      have hslot : Backs s.hhdm G x (objSize c) := ⟨q, _, hq, hb.1, hb.2.1, Nat.le_refl _⟩
      have hapart := h.backs_apart hback hslot hyx
      have hsize := (class_fits hc).1
      exact slabFree_outside h.placed.pos h.placed.aligned (listed_iff.mp h.listed) hc
        (h.onList q c free hq) ((slabAt_iff hc).mp hslab) ((isSlot_iff hc).mp hb.1) hlink
        (hheader q c free hq) (by omega)
  | large order size =>
      obtain ⟨hflag, hlarge⟩ := large_recognised h hq
      have hhdr : x - sizeofLargeHdr = pageAt s.hhdm q := by
        rw [hb.1]
        exact Nat.add_sub_cancel _ _
      have hout : ¬ (pageAt s.hhdm q ≤ a ∧ a < pageAt s.hhdm q + 8) := fun hin =>
        (h.backs_clear hback h1 h2 hq).1 ⟨hin.1, by omega⟩
      rw [hflag, if_neg Bool.false_ne_true, if_pos hlarge] at ht
      unfold Kheap.largeFree at ht
      dsimp only at ht
      rw [hhdr] at ht
      split at ht
      · cases ht
      · split at ht
        · cases ht
        · cases ht
          exact store_outside hout

-- ==== krealloc

/-- The two ends of a live allocation. -/
theorem Inv.live_apart (h : Inv maxPfn usable s G live others ref) (hx : (x, n) ∈ live) {y : Nat}
    (hy : (y, m) ∈ live) (hne : x ≠ y) : x + n ≤ y ∨ y + m ≤ x :=
  h.backs_apart (h.backed x n hx) (h.backed y m hy) hne

/-- `krealloc` to another size: NULL and nothing done, or a new allocation
in the place of the old one, with its bytes. -/
theorem Kept.krealloc_bytes (h : Kept maxPfn usable s live others) (hx : MayFree live x)
    (hn0 : n ≠ 0) (hn : n < 2 ^ 64 - 24) (hs : s.krealloc x n = .ok (s', p)) :
    (p = 0 ∧ s' = s) ∨ (p ≠ 0 ∧ p ≠ x ∧ Kept maxPfn usable s' ((p, n) :: released live x) others
      ∧ SameBytes (released live x) s.mem s'.mem
      ∧ ∀ m, (x, m) ∈ live → ∀ i, i < m → i < n → s'.mem (p + i) = s.mem (x + i)) := by
  have hkept := h.krealloc hx hn hs
  unfold HeapCall.after at hkept
  simp only [hn0, if_false] at hkept
  unfold Kheap.krealloc at hs
  by_cases hx0 : x = 0
  · -- as `kmalloc`
    rw [if_pos hx0] at hs
    rw [hx0, h.released_null] at hkept ⊢
    have hnone : ∀ m, (0, m) ∉ live := fun m hm => h.not_null hm rfl
    obtain ⟨⟨G, ref, h⟩, -⟩ := h
    cases h.kmalloc hn hs with
    | inl hz => exact Or.inl hz
    | inr hz =>
        refine Or.inr ⟨hz.1, hz.1, ?_, h.kmalloc_bytes hs, fun m hm => absurd hm (hnone m)⟩
        rw [if_neg hz.1] at hkept
        unfold granted at hkept
        rwa [if_neg hz.1] at hkept
  · rw [if_neg hx0, if_neg hn0] at hs
    obtain ⟨m, hx⟩ := hx.resolve_left hx0
    obtain ⟨⟨G, ref, h⟩, -⟩ := h
    split at hs
    · cases hs
    · rename_i t p' hk
      cases h.kmalloc hn hk with
      | inl hz =>
          rw [if_pos hz.1] at hs
          cases hs
          exact Or.inl ⟨rfl, hz.2⟩
      | inr hz =>
          obtain ⟨hp', -, -, G₁, ref₁, h₁⟩ := hz
          rw [if_neg hp'] at hs
          have hx₁ : (x, m) ∈ (p', n) :: live := List.mem_cons_of_mem _ hx
          obtain ⟨size, hold, hm⟩ := h₁.oldSize hx₁
          rw [hold] at hs
          dsimp only at hs
          split at hs
          · cases hs
          · rename_i u hfree
            cases hs
            have hnew := h.kmalloc_bytes hk
            have hne : x ≠ p := h₁.newest_ne hx
            -- what `memcpy` writes is in the new allocation
            have hcopied := h₁.write_live (h₁.backed p n List.mem_cons_self)
              (m := copy t.mem p t.mem x (if size < n then size else n)) fun a ha => copy_within ha
            have hfreed := hcopied.kfree_bytes hx₁ hfree
            refine Or.inr ⟨hp', hne.symm, ?_, ?_, ?_⟩
            · rw [if_neg hp'] at hkept
              unfold granted at hkept
              rwa [if_neg hp'] at hkept
            · intro y k hy a h1 h2
              obtain ⟨hy', hyx⟩ := mem_released.mp hy
              have hyp : y ≠ p := h₁.newest_ne hy'
              have hapart := h₁.live_apart (List.mem_cons_of_mem _ hy') List.mem_cons_self hyp
              rw [hfreed y k (mem_released.mpr ⟨List.mem_cons_of_mem _ hy', hyx⟩) a h1 h2,
                ← hnew y k hy' a h1 h2]
              refine Bytes.copy_outside fun hin => ?_
              split at hin
              · omega
              · omega
            · intro m' hm' i hi hin
              have hmm : m' = m := congrArg Prod.snd (h.live_inj hx hm')
              rw [hmm] at hi
              rw [hfreed p n (mem_released.mpr ⟨List.mem_cons_self, hne.symm⟩) (p + i) (by omega)
                (by omega), ← hnew x m hx (x + i) (by omega) (by omega)]
              show copy t.mem p t.mem x _ (p + i) = _
              rw [Bytes.copy_inside (by omega) (by split <;> omega), Nat.add_sub_cancel_left]

-- ==== the refusals

/-- No slab has a free slot for so many bytes and no page can become one,
or the page allocator has no block of their order. -/
def NoRoom (s : Kheap) (n : Nat) : Prop :=
  match cacheForSize n with
  | some c => s.head c .partials = 0 ∧ s.pmm.pmmAllocPage = none
  | none => ∀ order, OrderFor n order → PMM_MAX_ORDER ≤ order ∨ s.pmm.pmmAlloc order = none

/-- What is searched for without end. -/
theorem kmalloc_diverges (s : Kheap) (h : 2 ^ 31 - 24 < n) (hn : n < 2 ^ 64 - 24) :
    s.kmalloc n = .error .diverges := by
  have hloop : orderLoop ((n + sizeofLargeHdr) % 2 ^ 64) 256 0 = none := by
    rw [Nat.mod_eq_of_lt (show n + 24 < 2 ^ 64 by omega)]
    exact orderLoop_forever (show 2 ^ 31 < n + 24 by omega) 256 0
  unfold Kheap.kmalloc
  rw [if_neg (by omega), allocPtr_large s (cacheForSize_none.mpr (by omega))]
  unfold Kheap.largeAlloc
  rw [hloop]

/-- A slab has a slot, or a page becomes one, or there is NULL. -/
theorem Inv.slabAlloc_null (h : Inv maxPfn usable s G live others ref)
    (hc : c < NUM_SIZE_CLASSES) : (s.slabAlloc c).2 = 0
      ↔ s.head c .partials = 0 ∧ s.pmm.pmmAllocPage = none := by
  have hpos : 0 ≤ objSize c := Nat.zero_le _
  unfold Kheap.slabAlloc
  have hhead := h.listed.head c .partials hc
  cases hl : (G.lists c .partials).head? with
  | none =>
      rw [hl] at hhead
      have h0 : s.head c .partials = 0 := hhead
      rw [if_pos h0]
      cases ha : s.pmm.pmmAllocPage with
      | none =>
          have hcreate : s.slabCreate c = none := by
            unfold slabCreate
            rw [ha]
          rw [hcreate]
          simp [h0]
      | some r =>
          obtain ⟨pmm, page⟩ := r
          rw [slabCreate_eq s c ha]
          obtain ⟨G₁, h₁, hhead₁, -⟩ := h.create hc ha
          obtain ⟨hne, -⟩ := h₁.take hc hhead₁ hpos
          simp [hne]
  | some q =>
      have hptr : s.head c .partials ≠ 0 := by
        rw [hhead, hl]
        intro e
        cases (slabPtr_eq_zero h.placed.pos).mp e
      rw [if_neg hptr]
      obtain ⟨hne, -⟩ := h.take hc hl hpos
      simp [hne, hptr]

/-- `kmalloc` of a size with an order returns NULL when there is no room,
and only then. -/
theorem Inv.kmalloc_null (h : Inv maxPfn usable s G live others ref) (h0 : n ≠ 0)
    (hn : n ≤ 2 ^ 31 - 24) : ∃ s' p, s.kmalloc n = .ok (s', p) ∧ (p = 0 ↔ NoRoom s n) := by
  cases hcache : cacheForSize n with
  | some c =>
      have hroom : NoRoom s n ↔ s.head c .partials = 0 ∧ s.pmm.pmmAllocPage = none := by
        unfold NoRoom
        rw [hcache]
      refine ⟨_, _, kmalloc_of_ptr h0 (allocPtr_small s hcache), ?_⟩
      rw [hroom]
      exact h.slabAlloc_null (cacheForSize_some hcache).1
  | none =>
      obtain ⟨order, hloop, hfor⟩ := order_found hn
      have hroom : NoRoom s n ↔ PMM_MAX_ORDER ≤ order ∨ s.pmm.pmmAlloc order = none := by
        unfold NoRoom
        rw [hcache]
        constructor
        · exact fun hall => hall order hfor
        · intro hno o ho
          rw [ho.unique hfor]
          exact hno
      obtain ⟨t, p, hlarge, hp⟩ : ∃ t p, s.largeAlloc n = .ok (t, p)
          ∧ (p = 0 ↔ PMM_MAX_ORDER ≤ order ∨ s.pmm.pmmAlloc order = none) := by
        unfold Kheap.largeAlloc
        rw [hloop]
        by_cases hmax : order ≥ PMM_MAX_ORDER
        · exact ⟨s, 0, if_pos hmax, iff_of_true rfl (Or.inl hmax)⟩
        · dsimp only
          rw [if_neg hmax]
          cases ha : s.pmm.pmmAlloc order with
          | none => exact ⟨s, 0, rfl, iff_of_true rfl (Or.inr rfl)⟩
          | some r =>
              obtain ⟨pmm, page⟩ := r
              refine ⟨_, _, rfl, iff_of_false (Nat.succ_ne_zero _) fun hno => ?_⟩
              cases hno with
              | inl hle => exact hmax hle
              | inr hnone => cases hnone
      rw [← allocPtr_large s hcache] at hlarge
      exact ⟨_, _, kmalloc_of_ptr h0 hlarge, hp.trans hroom.symm⟩

/-- And so does `krealloc`. -/
theorem Kept.krealloc_null (h : Kept maxPfn usable s live others) (hx : MayFree live x)
    (h0 : n ≠ 0) (hn : n ≤ 2 ^ 31 - 24) :
    ∃ s' p, s.krealloc x n = .ok (s', p) ∧ (p = 0 ↔ NoRoom s n) := by
  obtain ⟨⟨G, ref, hinv⟩, -⟩ := h
  obtain ⟨t, p, hk, hp⟩ := hinv.kmalloc_null h0 hn
  unfold Kheap.krealloc
  by_cases hx0 : x = 0
  · rw [if_pos hx0]
    exact ⟨t, p, hk, hp⟩
  · rw [if_neg hx0, if_neg h0, hk]
    dsimp only
    by_cases hp0 : p = 0
    · rw [if_pos hp0]
      exact ⟨t, 0, rfl, iff_of_true rfl (hp.mp hp0)⟩
    · rw [if_neg hp0]
      obtain ⟨m, hx⟩ := hx.resolve_left hx0
      obtain ⟨-, -, -, G₁, ref₁, h₁⟩ :=
        (hinv.kmalloc (by omega) hk).resolve_left fun hz => hp0 hz.1
      have hx₁ : (x, m) ∈ (p, n) :: live := List.mem_cons_of_mem _ hx
      obtain ⟨size, hold, -⟩ := h₁.oldSize hx₁
      have hcopied := h₁.write_live (h₁.backed p n List.mem_cons_self)
        (m := copy t.mem p t.mem x (if size < n then size else n)) fun a ha => copy_within ha
      obtain ⟨u, hfree, -⟩ := hcopied.kfree hx₁
      rw [hold]
      dsimp only
      rw [hfree]
      exact ⟨u, p, rfl, hp⟩

theorem krealloc_diverges (s : Kheap) (x : Nat) (h : 2 ^ 31 - 24 < n) (hn : n < 2 ^ 64 - 24) :
    s.krealloc x n = .error .diverges := by
  unfold Kheap.krealloc
  rw [if_neg (show n ≠ 0 by omega), s.kmalloc_diverges h hn]
  split
  · rfl
  · rfl

-- ==== the bystander

/-- What is spared is not in an allocation that is new. -/
theorem Inv.spared_new {a : Nat} (h : Inv maxPfn usable s G ((p, n) :: live) others ref)
    (ha : Spared maxPfn usable s.hhdm live others a) : ¬ (p ≤ a ∧ a < p + n) := by
  intro hin
  cases ha with
  | inl hlive =>
      obtain ⟨x, k, hx, h1, h2⟩ := hlive
      have hapart := h.live_apart (List.mem_cons_of_mem _ hx) List.mem_cons_self (h.newest_ne hx)
      omega
  | inr hforeign =>
      obtain ⟨q, r, f, hq, hf, hpage⟩ := h.live_page List.mem_cons_self hin.1 hin.2
      exact h.foreign_apart hforeign hq hf hpage

/-- `kzalloc` clears what it has just got. -/
theorem Kept.kzalloc_spares (h : Kept maxPfn usable s live others) (hn : n < 2 ^ 64 - 24)
    (hs : s.kzalloc n = .ok (s', p)) : Spares maxPfn usable s live others s' := by
  obtain ⟨⟨G, ref, h⟩, -⟩ := h
  unfold Kheap.kzalloc at hs
  split at hs
  · cases hs
  · rename_i t p' hk
    have hst : (if p' ≠ 0 then { t with mem := fill t.mem p' n 0 } else t) = s' :=
      congrArg Prod.fst (Except.ok.inj hs)
    rw [← hst]
    have hnew := h.kmalloc_spares hk
    cases h.kmalloc hn hk with
    | inl hz =>
        rw [if_neg (not_not.mpr hz.1)]
        exact hnew
    | inr hz =>
        obtain ⟨hne, -, -, G₁, ref₁, h₁⟩ := hz
        rw [if_pos hne]
        refine ⟨hnew.hhdm, fun a ha => ?_⟩
        rw [← hnew.mem a ha]
        exact Bytes.fill_outside (h₁.spared_new (by rw [hnew.hhdm]; exact ha))

/-- A call that is not about the allocation at `x`; nothing is at NULL. -/
def HeapCall.Leaves (x : Nat) : HeapCall → Prop
  | .kmalloc _ | .kzalloc _ => True
  | .krealloc ptr _ | .kfree ptr => ptr = x → x = 0

/-- What happens while the owner of the allocation at `x` does nothing:
the steps of a run that do not free it and do not write to it. -/
inductive Elsewhere (maxPfn : Nat) (usable : Nat → Bool) (x : Nat) :
    Kheap → List (Nat × Nat) → List Block → Kheap → List (Nat × Nat) → List Block → Prop
  | call {s s' : Kheap} {live : List (Nat × Nat)} {others : List Block} {k : HeapCall} {p : Nat} :
      k.May live → k.Leaves x → s.heapCall k = .ok (s', p) →
      Elsewhere maxPfn usable x s live others s' (k.after live p) others
  | write {s : Kheap} {live : List (Nat × Nat)} {others : List Block} {y m : Nat} {mem : Memory} :
      (y, m) ∈ live → y ≠ x → (∀ a, mem a ≠ s.mem a → y ≤ a ∧ a < y + m) →
      Elsewhere maxPfn usable x s live others { s with mem } live others
  | otherWrite {s : Kheap} {live : List (Nat × Nat)} {others : List Block} {mem : Memory} :
      (∀ a, mem a ≠ s.mem a → ∀ q, pageAt s.hhdm q ≤ a → a < pageAt s.hhdm q + 4096 →
        ¬ Usable maxPfn usable q ∨ Pmm.Allocated others q) →
      Elsewhere maxPfn usable x s live others { s with mem } live others
  | otherAlloc {s : Kheap} {live : List (Nat × Nat)} {others : List Block} {pmm : Pmm}
      {order p : Nat} : s.pmm.pmmAlloc order = some (pmm, p) →
      Elsewhere maxPfn usable x s live others { s with pmm } live (⟨p, order⟩ :: others)
  | otherRef {s : Kheap} {live : List (Nat × Nat)} {others : List Block} {b : Block} : b ∈ others →
      Elsewhere maxPfn usable x s live others { s with pmm := s.pmm.pageRefInc b.base } live others
  | otherFree {s : Kheap} {live : List (Nat × Nat)} {others : List Block} {b : Block} {pmm : Pmm} :
      b ∈ others → s.pmm.pmmFree (some b.base) = .ok pmm →
      Elsewhere maxPfn usable x s live others { s with pmm } live
        (if (s.pmm.pages b.base).refcount = 1 then others.erase b else others)

/-- Such a step is a step of a run. -/
theorem Elsewhere.run {others' : List Block}
    (e : Elsewhere maxPfn usable x s live others s' live' others')
    (h : Run maxPfn usable s live others) : Run maxPfn usable s' live' others' := by
  cases e with
  | call hmay _ hs => exact h.call hmay hs
  | write hy _ hm => exact h.write hy hm
  | otherWrite hm => exact h.otherWrite hm
  | otherAlloc ha => exact h.otherAlloc ha
  | otherRef hb => exact h.otherRef hb
  | otherFree hb hf => exact h.otherFree hb hf

/-- A call about something else. -/
theorem Kept.heapCall_bytes {k : HeapCall} (h : Kept maxPfn usable s live others)
    (hmay : k.May live) (hleaves : k.Leaves x) (hs : s.heapCall k = .ok (s', p))
    (hx : (x, n) ∈ live) : (x, n) ∈ k.after live p
      ∧ ∀ a, x ≤ a → a < x + n → s'.mem a = s.mem a := by
  have hx0 : x ≠ 0 := h.not_null hx
  have hgranted : ∀ l : List (Nat × Nat), ∀ y m, (x, n) ∈ l → (x, n) ∈ granted l y m := by
    intro l y m hl
    unfold granted
    split
    · exact hl
    · exact List.mem_cons_of_mem _ hl
  have hfreed : ∀ ptr t, MayFree live ptr → ptr ≠ x → s.kfree ptr = .ok t →
      (x, n) ∈ released live ptr ∧ ∀ a, x ≤ a → a < x + n → t.mem a = s.mem a := by
    intro ptr t hptr hne ht
    have hin : (x, n) ∈ released live ptr := mem_released.mpr ⟨hx, hne.symm⟩
    refine ⟨hin, ?_⟩
    cases hptr with
    | inl h0 =>
        unfold Kheap.kfree at ht
        rw [if_pos h0] at ht
        cases ht
        exact fun _ _ _ => rfl
    | inr hlive =>
        obtain ⟨m, hlive⟩ := hlive
        obtain ⟨⟨G, ref, h⟩, -⟩ := h
        exact h.kfree_bytes hlive ht x n hin
  cases k with
  | kmalloc size =>
      obtain ⟨⟨G, ref, h⟩, -⟩ := h
      exact ⟨hgranted live p size hx, h.kmalloc_bytes hs x n hx⟩
  | kzalloc size => exact ⟨hgranted live p size hx, (h.kzalloc_spares hmay hs).bytes x n hx⟩
  | krealloc ptr size =>
      have hne : ptr ≠ x := fun e => hx0 (hleaves e)
      by_cases h0 : size = 0
      · by_cases hp0 : ptr = 0
        · -- nothing is asked for
          have hs' : s.kmalloc 0 = .ok (s', p) := by
            have hs' : s.krealloc ptr size = .ok (s', p) := hs
            unfold Kheap.krealloc at hs'
            rwa [if_pos hp0, h0] at hs'
          unfold HeapCall.after
          simp only [h0, if_true, hp0, h.released_null]
          obtain ⟨⟨G, ref, h⟩, -⟩ := h
          exact ⟨hx, h.kmalloc_bytes hs' x n hx⟩
        · obtain ⟨t, ht, hst⟩ : ∃ t, s.kfree ptr = .ok t ∧ s' = t := by
            have hs' : s.krealloc ptr size = .ok (s', p) := hs
            unfold Kheap.krealloc at hs'
            rw [if_neg hp0, if_pos h0] at hs'
            split at hs'
            · cases hs'
            · rename_i t ht
              cases hs'
              exact ⟨_, ht, rfl⟩
          unfold HeapCall.after
          simp only [h0, if_true, hst]
          exact hfreed ptr t hmay.1 hne ht
      · have hin : (x, n) ∈ released live ptr := mem_released.mpr ⟨hx, hne.symm⟩
        unfold HeapCall.after
        simp only [h0, if_false]
        cases h.krealloc_bytes hmay.1 h0 hmay.2 hs with
        | inl hz =>
            rw [if_pos hz.1, hz.2]
            exact ⟨hx, fun _ _ _ => rfl⟩
        | inr hz =>
            rw [if_neg hz.1]
            exact ⟨hgranted _ p size hin, hz.2.2.2.1 x n hin⟩
  | kfree ptr =>
      obtain ⟨t, ht, hst⟩ : ∃ t, s.kfree ptr = .ok t ∧ s' = t := by
        unfold heapCall at hs
        dsimp only at hs
        split at hs
        · cases hs
        · rename_i t ht
          cases hs
          exact ⟨_, ht, rfl⟩
      rw [hst]
      exact hfreed ptr t hmay (fun e => hx0 (hleaves e)) ht

/-- Whoever leaves an allocation alone finds it as it was. -/
theorem Elsewhere.bytes {others' : List Block}
    (e : Elsewhere maxPfn usable x s live others s' live' others')
    (h : Kept maxPfn usable s live others) (hx : (x, n) ∈ live) :
    (x, n) ∈ live' ∧ ∀ a, x ≤ a → a < x + n → s'.mem a = s.mem a := by
  cases e with
  | call hmay hleaves hs => exact h.heapCall_bytes hmay hleaves hs hx
  | write hy hne hm =>
      refine ⟨hx, fun a h1 h2 => ?_⟩
      obtain ⟨⟨G, ref, h⟩, -⟩ := h
      have hapart := h.live_apart hx hy hne.symm
      by_contra hcon
      have hin := hm a hcon
      omega
  | otherWrite hm =>
      refine ⟨hx, fun a h1 h2 => ?_⟩
      obtain ⟨⟨G, ref, h⟩, -⟩ := h
      obtain ⟨q, r, p, hq, hp, hin⟩ := h.live_page hx h1 h2
      by_contra hcon
      exact h.foreign_apart (hm a hcon) hq hp hin
  | otherAlloc _ => exact ⟨hx, fun _ _ _ => rfl⟩
  | otherRef _ => exact ⟨hx, fun _ _ _ => rfl⟩
  | otherFree _ _ => exact ⟨hx, fun _ _ _ => rfl⟩

/-- The heap stays in order. -/
theorem Elsewhere.kept {others' : List Block}
    (e : Elsewhere maxPfn usable x s live others s' live' others')
    (h : Kept maxPfn usable s live others) : Kept maxPfn usable s' live' others' := by
  cases e with
  | call hmay _ hs => exact h.call hmay hs
  | write hy _ hm => exact h.write hy hm
  | otherWrite hm => exact h.otherWrite hm
  | otherAlloc ha => exact h.otherAlloc ha
  | otherRef hb => exact h.otherRef hb
  | otherFree hb hf => exact h.otherFree hb hf

-- ==== how far it goes

/-- A live allocation is in the address space, and not longer than the
longest block. -/
theorem Kept.live_bounds (h : Kept maxPfn usable s live others) (hx : (x, n) ∈ live) :
    x + n ≤ 2 ^ 64 ∧ n ≤ 2 ^ 22 := by
  obtain ⟨⟨G, ref, h⟩, -⟩ := h
  obtain ⟨q, r, hq, hb⟩ := h.backed x n hx
  obtain ⟨h1, h2⟩ := (h.role q r hq).backed_inside hb
  obtain ⟨ho, -⟩ := h.ledger.head _ (h.role_block hq)
  have ho' : r.order ≤ 10 := Nat.le_of_lt_succ ho
  have hpow : 2 ^ r.order ≤ 2 ^ 10 := Nat.pow_le_pow_right (by omega) ho'
  have hpos : 0 < 2 ^ r.order := Nat.two_pow_pos _
  -- the last page of the block is a page of the machine
  have hlast : q + (2 ^ r.order - 1) ∈ Block.mk q r.order :=
    ⟨Nat.le_add_right _ _, by show _ < q + 2 ^ r.order; omega⟩
  obtain ⟨-, hroom⟩ := h.low hq hlast
  unfold pageAt at h1 h2 hroom
  omega

end Alix.Kheap
