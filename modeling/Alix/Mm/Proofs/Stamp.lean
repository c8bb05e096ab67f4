/-
What the allocator stamps into descriptors, and what it never writes.

`free_block` and `pmm_alloc` rewrite the flags, the order and the
reference count of the blocks they move. The first half of the file says
what the stamps leave in the fields the allocator later tests, and in the
whole flag word where it held none but the allocator's flags. The
second half is the other side: four flag bits are the allocator's own,
and no call ever sets another one or touches a private word, whatever
state it runs in (`Foreign`). Other owners of a page keep their bits
there, so this is what they rely on.
-/
import Alix.Mm.Proofs.Lists

namespace Alix.Pmm

open Dyadic (buddy)

-- ==== the stamped heads

theorem freeHead_spec (o : Nat) (p : Page) :
    (freeHead o p).free = true ∧ (freeHead o p).order = o
      ∧ (freeHead o p).next = p.next ∧ (freeHead o p).prev = p.prev
      ∧ (freeHead o p).priv = p.priv := by
  unfold freeHead
  split
  · refine ⟨?_, rfl, rfl, rfl, rfl⟩
    rw [Page.free_eq]
    simp only [Page.setFlag, Page.clearFlag, BitVec.getLsbD_or,
      BitVec.getLsbD_and, BitVec.getLsbD_not, getLsbD_pageBit]
    simp
  · refine ⟨?_, rfl, rfl, rfl, rfl⟩
    rw [Page.free_eq]
    simp only [Page.setFlag, Page.clearFlag, BitVec.getLsbD_or,
      BitVec.getLsbD_and, BitVec.getLsbD_not, getLsbD_pageBit]
    simp

/-- The flag word `allocHead` leaves. -/
theorem allocHead_flags (o : Nat) (p : Page) :
    (allocHead o p).flags
      = if o > 0 then ((p.flags ||| PAGE_USED) &&& ~~~PAGE_FREE)
          ||| PAGE_LARGE_HEAD
        else (p.flags ||| PAGE_USED) &&& ~~~PAGE_FREE := by
  by_cases h : o > 0 <;>
    simp only [allocHead, h, if_true, if_false, Page.setFlag, Page.clearFlag]

theorem allocHead_spec (o : Nat) (p : Page) :
    (allocHead o p).free = false ∧ (allocHead o p).order = o
      ∧ (allocHead o p).refcount = 1 ∧ (allocHead o p).next = p.next
      ∧ (allocHead o p).prev = p.prev ∧ (allocHead o p).priv = p.priv := by
  constructor
  · rw [Page.free_eq, allocHead_flags]
    split <;>
      simp only [BitVec.getLsbD_or, BitVec.getLsbD_and, BitVec.getLsbD_not,
        getLsbD_pageBit] <;>
      simp
  · by_cases h : o > 0 <;>
      simp only [allocHead, h, if_true, if_false, Page.setFlag,
        Page.clearFlag, and_self]

theorem allocBody_free (o : Nat) (p : Page) :
    (allocBody o p).free = false := by
  rw [Page.free_eq]
  simp only [allocBody, BitVec.getLsbD_or, getLsbD_pageBit]
  simp

-- ==== the body loops

/-- The loop over the body pages stamps exactly those. -/
theorem forBodies_pages (f : Page → Page) (p : Nat) :
    ∀ (count : Nat) (s : Pmm) (q : Nat),
      (s.forBodies f p count).pages q
        = if p < q ∧ q < p + count then f (s.pages q) else s.pages q := by
  have hloop : ∀ (n : Nat) (s : Pmm) (q : Nat),
      ((List.range' 1 n).foldl (fun s i => s.modPage (p + i) f) s).pages q
        = if p < q ∧ q ≤ p + n then f (s.pages q) else s.pages q := by
    intro n
    induction n with
    | zero =>
        intro s q
        have : ¬(p < q ∧ q ≤ p + 0) := by omega
        rw [if_neg this]
        rfl
    | succ n ih =>
        intro s q
        rw [List.range'_concat, List.foldl_append]
        simp only [List.foldl_cons, List.foldl_nil]
        by_cases h : q = p + (1 + 1 * n)
        · subst h
          rw [modPage_pages_self, ih, if_neg (by omega), if_pos (by omega)]
        · rw [modPage_pages_of_ne _ h, ih]
          by_cases hq : p < q ∧ q ≤ p + n
          · rw [if_pos hq, if_pos (by omega)]
          · rw [if_neg hq, if_neg (by omega)]
  intro count s q
  unfold forBodies
  rw [hloop]
  by_cases h : p < q ∧ q < p + count
  · rw [if_pos h, if_pos (by omega)]
  · rw [if_neg h, if_neg (by omega)]

theorem forBodies_fixed (f : Page → Page) (p count : Nat) (s : Pmm) :
    (s.forBodies f p count).freeLists = s.freeLists
      ∧ (s.forBodies f p count).maxPfn = s.maxPfn
      ∧ (s.forBodies f p count).freePageCount = s.freePageCount := by
  unfold forBodies
  generalize List.range' 1 (count - 1) = l
  induction l generalizing s with
  | nil => exact ⟨rfl, rfl, rfl⟩
  | cons i l ih => exact ih (s.modPage (p + i) f)

theorem forBodies_links {f : Page → Page} (hn : ∀ q, (f q).next = q.next)
    (hp : ∀ q, (f q).prev = q.prev) (p count : Nat) (s : Pmm) :
    (s.forBodies f p count).links = s.links := by
  unfold links
  congr 1 <;> funext q <;> rw [forBodies_pages] <;> split
  · exact hn _
  · rfl
  · exact hp _
  · rfl

-- ==== clean heads

/-- The flag bits the allocator itself writes. -/
def ownBit (n : Nat) : Prop := n = 0 ∨ n = 1 ∨ n = 10 ∨ n = 11

/-- None but the allocator's flags. -/
def OwnOnly (w : BitVec 64) : Prop := ∀ n, ¬ownBit n → w.getLsbD n = false

/-- The flags of the head of a free block. -/
def listedFlags (order : Nat) : BitVec 64 :=
  if order > 0 then PAGE_FREE ||| PAGE_LARGE_HEAD else PAGE_FREE

/-- The flags of the head of a block that is handed out. -/
def headFlags (order : Nat) : BitVec 64 :=
  if order > 0 then PAGE_USED ||| PAGE_LARGE_HEAD else PAGE_USED

theorem OwnOnly.clear {w : BitVec 64} (h : OwnOnly w) (v : BitVec 64) : OwnOnly (w &&& v) := by
  intro n hn
  rw [BitVec.getLsbD_and, h n hn, Bool.false_and]

theorem listedFlags_own (order : Nat) : OwnOnly (listedFlags order) := by
  intro n hn
  have h0 : ¬0 = n := fun e => hn (Or.inl e.symm)
  have h10 : ¬10 = n := fun e => hn (Or.inr (Or.inr (Or.inl e.symm)))
  unfold listedFlags
  split <;> simp [getLsbD_pageBit, h0, h10]

/-- `free_block` wipes the allocator's flags, so where there were no others
it leaves those of a free block. -/
theorem freeHead_flags {p : Page} (h : OwnOnly p.flags) (order : Nat) :
    (freeHead order p).flags = listedFlags order := by
  apply BitVec.eq_of_getLsbD_eq
  intro i hi
  have hbits : (freeHead order p).flags.getLsbD i
      = ((p.flags.getLsbD i || decide (0 = i))
          && !(decide (1 = i) || decide (10 = i) || decide (11 = i))
        || (decide (0 < order) && decide (10 = i))) := by
    unfold freeHead
    split <;> rename_i ho <;>
      simp only [Page.setFlag, Page.clearFlag, BitVec.getLsbD_or, BitVec.getLsbD_and,
        BitVec.getLsbD_not, getLsbD_pageBit, hi, ho, decide_true, decide_false,
        Bool.true_and, Bool.false_and, Bool.or_false]
  have hlisted : (listedFlags order).getLsbD i
      = (decide (0 = i) || (decide (0 < order) && decide (10 = i))) := by
    unfold listedFlags
    split <;> rename_i ho <;>
      simp only [BitVec.getLsbD_or, getLsbD_pageBit, hi, ho, decide_true, decide_false,
        Bool.true_and, Bool.false_and, Bool.or_false]
  rw [hbits, hlisted]
  by_cases hown : ownBit i
  · rcases hown with rfl | rfl | rfl | rfl <;> simp
  · rw [h i hown]
    have h1 : ¬1 = i := fun e => hown (Or.inr (Or.inl e.symm))
    have h10 : ¬10 = i := fun e => hown (Or.inr (Or.inr (Or.inl e.symm)))
    have h11 : ¬11 = i := fun e => hown (Or.inr (Or.inr (Or.inr e.symm)))
    simp [h1, h10, h11]

/-- `pmm_alloc` sets `PAGE_LARGE_HEAD` and never clears it: a single page
keeps that of the block it was the head of. -/
theorem allocHead_listed {p : Page} {o : Nat} (h : p.flags = listedFlags o) {order : Nat}
    (ho : order ≤ o) : (allocHead order p).flags = headFlags o := by
  rw [allocHead_flags, h]
  unfold listedFlags headFlags
  by_cases hpos : o > 0
  · rw [if_pos hpos, if_pos hpos]
    split <;> decide
  · have hzero : order = 0 := by omega
    subst hzero
    rw [if_neg hpos, if_neg hpos]
    decide

/-- Two orders are told apart by the flag. -/
theorem headFlags_eq_iff {o order : Nat} (ho : order ≤ o) :
    headFlags o = headFlags order ↔ (order = 0 → o = 0) := by
  unfold headFlags
  by_cases h : order = 0
  · subst h
    by_cases hpos : o = 0
    · subst hpos
      simp
    · rw [if_pos (by omega), if_neg (by omega)]
      refine ⟨fun e => absurd e (by decide), fun e => absurd (e rfl) hpos⟩
  · rw [if_pos (by omega), if_pos (by omega)]
    exact ⟨fun _ e => absurd e h, fun _ => rfl⟩

-- ==== foreign state

/-- No foreign flag bit appears, and no private word changes. -/
def Foreign (s s' : Pmm) : Prop := ∀ q,
  (s'.pages q).priv = (s.pages q).priv ∧
    ∀ n, ¬ownBit n → (s'.pages q).flags.getLsbD n = true →
      (s.pages q).flags.getLsbD n = true

theorem Foreign.refl (s : Pmm) : Foreign s s := fun _ => ⟨rfl, fun _ _ h => h⟩

theorem Foreign.trans {s t u : Pmm} (h : Foreign s t)
    (h' : Foreign t u) : Foreign s u := fun q =>
  ⟨(h' q).1.trans (h q).1, fun n hn hb => (h q).2 n hn ((h' q).2 n hn hb)⟩

theorem foreign_of_data {s s' : Pmm}
    (h : ∀ q, (s'.pages q).data = (s.pages q).data) : Foreign s s' := by
  intro q
  obtain ⟨-, -, hf, hp⟩ := Page.data_eq_iff.mp (h q)
  exact ⟨hp, fun n _ hb => by rwa [hf] at hb⟩

/-- A store that adds no foreign bit and keeps the private word. -/
theorem foreign_modPage (s : Pmm) (p : Nat) {f : Page → Page}
    (hpriv : ∀ pg, (f pg).priv = pg.priv)
    (hbits : ∀ pg n, ¬ownBit n → (f pg).flags.getLsbD n = true →
      pg.flags.getLsbD n = true) : Foreign s (s.modPage p f) := by
  intro q
  by_cases h : q = p
  · rw [h, modPage_pages_self]
    exact ⟨hpriv _, hbits _⟩
  · rw [modPage_pages_of_ne s h]
    exact ⟨rfl, fun _ _ hb => hb⟩

theorem foreign_freeListPush (s : Pmm) (o p : Nat) :
    Foreign s (s.freeListPush o p) := foreign_of_data (freeListPush_data s o p)

theorem foreign_freeListRemove (s : Pmm) (o p : Nat) :
    Foreign s (s.freeListRemove o p) :=
  foreign_of_data (freeListRemove_data s o p)

theorem foreign_clearFlag (s : Pmm) (p : Nat) (f : BitVec 64) :
    Foreign s (s.modPage p (Page.clearFlag f)) := by
  refine foreign_modPage s p (fun _ => rfl) fun pg n _ hb => ?_
  simp only [Page.clearFlag, BitVec.getLsbD_and, Bool.and_eq_true] at hb
  exact hb.1

theorem foreign_setOrder (s : Pmm) (p o : Nat) :
    Foreign s (s.modPage p fun pg => { pg with order := o }) :=
  foreign_modPage s p (fun _ => rfl) fun _ _ _ hb => hb

theorem foreign_coalesce : ∀ (n : Nat) (s : Pmm) (p o : Nat),
    Foreign s (coalesce n s p o).1 := by
  intro n
  induction n with
  | zero => intro s p o; exact Foreign.refl s
  | succ n ih =>
      intro s p o
      unfold coalesce
      simp only
      split
      · exact Foreign.refl s
      · split
        · exact Foreign.refl s
        · exact (((foreign_freeListRemove s o _).trans
            (foreign_clearFlag _ _ _)).trans (foreign_setOrder _ _ _)).trans
              (ih _ _ _)

theorem foreign_freeHead (s : Pmm) (p o : Nat) :
    Foreign s (s.modPage p (freeHead o)) := by
  refine foreign_modPage s p (fun pg => (freeHead_spec o pg).2.2.2.2) ?_
  · intro pg n hn hb
    have h0 : ¬0 = n := fun e => hn (Or.inl e.symm)
    have h10 : ¬10 = n := fun e => hn (Or.inr (Or.inr (Or.inl e.symm)))
    unfold freeHead at hb
    split at hb
    · simp only [Page.setFlag, Page.clearFlag, BitVec.getLsbD_or,
        BitVec.getLsbD_and, getLsbD_pageBit, h0, h10, decide_false,
        Bool.and_false, Bool.or_false, Bool.and_eq_true] at hb
      exact hb.1
    · simp only [Page.setFlag, Page.clearFlag, BitVec.getLsbD_or,
        BitVec.getLsbD_and, getLsbD_pageBit, h0, decide_false,
        Bool.and_false, Bool.or_false, Bool.and_eq_true] at hb
      exact hb.1

theorem foreign_freeBlock (s : Pmm) (p : Nat) :
    Foreign s (s.freeBlock p) :=
  ((foreign_coalesce _ s p _).trans (foreign_freeHead _ _ _)).trans
    (foreign_freeListPush _ _ _)

theorem foreign_splitBlock (p o : Nat) : ∀ (k : Nat) (s : Pmm),
    Foreign s (splitBlock p o k s) := by
  intro k
  induction k with
  | zero => intro s; exact Foreign.refl s
  | succ k ih =>
      intro s
      have hset := foreign_setOrder s (p + 1 <<< (o + k)) (o + k)
      refine (hset.trans (Foreign.trans ?_ (foreign_freeListPush _ _ _))).trans
        (ih _)
      refine foreign_modPage _ _ (fun _ => rfl) fun pg n hn hb => ?_
      have h0 : ¬0 = n := fun e => hn (Or.inl e.symm)
      have h10 : ¬10 = n := fun e => hn (Or.inr (Or.inr (Or.inl e.symm)))
      simp [getLsbD_pageBit, h0, h10] at hb

theorem foreign_forBodies (s : Pmm) (p count : Nat) {f : Page → Page}
    (hpriv : ∀ pg, (f pg).priv = pg.priv)
    (hbits : ∀ pg n, ¬ownBit n → (f pg).flags.getLsbD n = true →
      pg.flags.getLsbD n = true) : Foreign s (s.forBodies f p count) := by
  intro q
  rw [forBodies_pages]
  split
  · exact ⟨hpriv _, hbits _⟩
  · exact ⟨rfl, fun _ _ hb => hb⟩

theorem allocHead_bits (o : Nat) (pg : Page) (n : Nat) (hn : ¬ownBit n)
    (hb : (allocHead o pg).flags.getLsbD n = true) :
    pg.flags.getLsbD n = true := by
  have h1 : ¬1 = n := fun e => hn (Or.inr (Or.inl e.symm))
  have h10 : ¬10 = n := fun e => hn (Or.inr (Or.inr (Or.inl e.symm)))
  rw [allocHead_flags] at hb
  split at hb <;>
    simp only [BitVec.getLsbD_or, BitVec.getLsbD_and, getLsbD_pageBit, h1,
      h10, decide_false, Bool.and_false, Bool.or_false,
      Bool.and_eq_true] at hb <;>
    exact hb.1

theorem foreign_takeBlock (s : Pmm) (o order p : Nat) :
    Foreign s (s.takeBlock o order p) := by
  refine Foreign.trans (foreign_freeListRemove s o p) (Foreign.trans
    (foreign_splitBlock p order (o - order) _) (Foreign.trans
      (t := (splitBlock p order (o - order)
        (s.freeListRemove o p)).modPage p (allocHead order)) ?_ ?_))
  · exact foreign_modPage _ _ (fun pg => (allocHead_spec order pg).2.2.2.2.2)
      (allocHead_bits order)
  · refine foreign_forBodies _ p (1 <<< order) (fun _ => rfl) ?_
    intro pg n hn hb
    have h1 : ¬1 = n := fun e => hn (Or.inr (Or.inl e.symm))
    have h11 : ¬11 = n := fun e => hn (Or.inr (Or.inr (Or.inr e.symm)))
    simp [allocBody, getLsbD_pageBit, h1, h11] at hb

theorem foreign_allocFrom (order : Nat) : ∀ (n : Nat) (s s' : Pmm)
    (o p : Nat), allocFrom order n s o = some (s', p) → Foreign s s' := by
  intro n
  induction n with
  | zero => intro s s' o p h; cases h
  | succ n ih =>
      intro s s' o p h
      unfold allocFrom at h
      cases hh : (s.freeLists o).head with
      | none => rw [hh] at h; exact ih s s' (o + 1) p h
      | some q =>
          rw [hh] at h
          injection h with h
          injection h with h1 h2
          subst h1
          exact foreign_takeBlock s o order q

/-- `pmm_alloc` adds no foreign flag bit anywhere. -/
theorem foreign_pmmAlloc {s s' : Pmm} {order p : Nat}
    (h : s.pmmAlloc order = some (s', p)) : Foreign s s' := by
  unfold pmmAlloc at h
  split at h
  · cases h
  · exact foreign_allocFrom order _ s s' order p h

theorem foreign_releaseBlock (s : Pmm) (p : Nat) :
    Foreign s (s.releaseBlock p) := by
  unfold releaseBlock
  simp only
  split
  · refine Foreign.trans (t := s.forBodies freeBody p (1 <<< (s.pages p).order))
      ?_ (foreign_freeBlock _ p)
    refine foreign_forBodies s p _ (fun _ => rfl) ?_
    intro pg n _ hb
    simp [freeBody] at hb
  · exact foreign_freeBlock _ p

/-- `pmm_free` adds no foreign flag bit anywhere. -/
theorem foreign_pmmFree {s s' : Pmm} {p : Nat}
    (h : s.pmmFree (some p) = .ok s') : Foreign s s' := by
  have hdec : Foreign s (s.pageRefDec p) :=
    foreign_modPage s p (fun _ => rfl) fun _ _ _ hb => hb
  unfold pmmFree at h
  simp only at h
  split at h
  · cases h
  · split at h
    · cases h
    · split at h
      · injection h with h
        subst h
        exact hdec.trans (foreign_releaseBlock _ p)
      · injection h with h
        subst h
        exact hdec

end Alix.Pmm
