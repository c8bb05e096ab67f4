/-
The allocator's calls over the buddy invariant: one specification for
`free_block`, one for `pmm_alloc`, one for `pmm_free`, one for
`pmm_init`, and the invariant over whole runs.

Between calls the open region is empty and every descriptor is its own
record: `Buddy s L U C`. A specification says which list function holds
afterwards, how the listed pages are counted, and that the descriptors
of pages that were not free are untouched.
-/
import Mathlib.Data.Nat.Count
import Alix.Mm.Proofs.Buddy
import Alix.Mm.Proofs.Stamp

namespace Alix.Pmm

open Dyadic (Block buddy)
open Dll (Links IsList)

variable {s : Pmm} {L : Nat → List Nat} {U : List Block}
  {keep : Nat → Page} {C : Nat → Prop}

-- ==== listed heads

/-- The heads on the lists have the flags of a free block, and no others. -/
def Plain (s : Pmm) (L : Nat → List Nat) : Prop :=
  ∀ b, Listed L b → (s.pages b.base).flags = listedFlags b.order

theorem Plain.mono (h : Plain s L) {s' : Pmm} {L' : Nat → List Nat}
    (hkeep : ∀ b, Listed L' b →
      Listed L b ∧ (s'.pages b.base).flags = (s.pages b.base).flags) : Plain s' L' := by
  intro b hb
  obtain ⟨hold, hflags⟩ := hkeep b hb
  rw [hflags]
  exact h b hold

/-- Taking a block off its list. -/
theorem Plain.remove (h : Plain s L) {p o : Nat} (hnd : (L o).Nodup) :
    Plain (s.freeListRemove o p) (Function.update L o ((L o).erase p)) :=
  h.mono fun b hb => ⟨((listed_erase hnd b).mp hb).1,
    (Page.data_eq_iff.mp (freeListRemove_data s o p b.base)).2.2.1⟩

/-- Putting a block on its list, with the flags of a free one. -/
theorem Plain.push (h : Plain s L) {p o : Nat} (ho : o < PMM_MAX_ORDER)
    (hp : (s.pages p).flags = listedFlags o) :
    Plain (s.freeListPush o p) (Function.update L o (p :: L o)) := by
  intro b hb
  rw [(Page.data_eq_iff.mp (freeListPush_data s o p b.base)).2.2.1]
  rcases (listed_push ho b).mp hb with rfl | hold
  · exact hp
  · exact h b hold

/-- The head of a block that is not listed is not the head of one that is. -/
theorem Core.base_ne {X : Nat → Prop} {b c : Block} (h : Core s L (b :: U) X keep C)
    (hc : Listed L c) {q : Nat} (hq : q ∈ b) : c.base ≠ q := by
  rintro rfl
  exact (h.apartHeld c b hc List.mem_cons_self).not_mem (Block.base_mem c) hq

/-- A write to a page of a block that is not listed. -/
theorem Plain.stamp {X : Nat → Prop} {b : Block} (h : Plain s L)
    (hcore : Core s L (b :: U) X keep C) {q : Nat} (hq : q ∈ b) (f : Page → Page) :
    Plain (s.modPage q f) L :=
  h.mono fun _ hc => ⟨hc, by rw [modPage_pages_of_ne s (hcore.base_ne hc hq)]⟩

-- ==== free_block

/-- The coalescing loop: the block it works on grows, listed pages turn
into pages of that block one for one. -/
theorem coalesce_core : ∀ (n : Nat) {s : Pmm} {L : Nat → List Nat}
    {p o : Nat}, n + o = PMM_MAX_ORDER - 1 →
    Core s L (⟨p, o⟩ :: U) (· ∈ Block.mk p o) keep C →
    (coalesce n s p o).2.2 < PMM_MAX_ORDER ∧
    ((coalesce n s p o).1.maxPfn = s.maxPfn
      ∧ (coalesce n s p o).1.freePageCount = s.freePageCount) ∧
    ∃ L', Core (coalesce n s p o).1 L'
        (⟨(coalesce n s p o).2.1, (coalesce n s p o).2.2⟩ :: U)
        (· ∈ Block.mk (coalesce n s p o).2.1 (coalesce n s p o).2.2) keep C
      ∧ listedPages L' + 2 ^ (coalesce n s p o).2.2
          = listedPages L + 2 ^ o
      ∧ (Merged L → Merged L' ∧ ((coalesce n s p o).2.2 + 1 < PMM_MAX_ORDER →
          ¬ Listed L' ⟨buddy (coalesce n s p o).2.1 (coalesce n s p o).2.2,
            (coalesce n s p o).2.2⟩))
      ∧ (Plain s L → OwnOnly (s.pages p).flags → Plain (coalesce n s p o).1 L'
          ∧ OwnOnly ((coalesce n s p o).1.pages (coalesce n s p o).2.1).flags) := by
  intro n
  induction n with
  | zero =>
      intro s L p o hn h
      have hpos : 0 < PMM_MAX_ORDER := by decide
      refine ⟨by show o < PMM_MAX_ORDER; omega, ⟨rfl, rfl⟩, L, h, rfl,
        fun hL => ⟨hL, fun hlt => ?_⟩, fun hplain hown => ⟨hplain, hown⟩⟩
      change o + 1 < PMM_MAX_ORDER at hlt
      omega
  | succ n ih =>
      intro s L p o hn h
      have ho : o < PMM_MAX_ORDER := by omega
      -- the loop stops where the buddy is not on the list of its order
      have hstay : ¬ Listed L ⟨buddy p o, o⟩ → o < PMM_MAX_ORDER ∧
          (s.maxPfn = s.maxPfn ∧ s.freePageCount = s.freePageCount) ∧
          ∃ L', Core s L' (⟨p, o⟩ :: U) (· ∈ Block.mk p o) keep C
            ∧ listedPages L' + 2 ^ o = listedPages L + 2 ^ o
            ∧ (Merged L → Merged L' ∧ (o + 1 < PMM_MAX_ORDER →
                ¬ Listed L' ⟨buddy p o, o⟩))
            ∧ (Plain s L → OwnOnly (s.pages p).flags →
                Plain s L' ∧ OwnOnly (s.pages p).flags) :=
        fun hno => ⟨ho, ⟨rfl, rfl⟩, L, h, rfl, fun hL => ⟨hL, fun _ => hno⟩,
          fun hplain hown => ⟨hplain, hown⟩⟩
      unfold coalesce
      simp only
      split
      case isTrue hmax =>
        apply hstay
        intro hb
        have hfit := (h.fits _ (Or.inl hb)).2
        have hpos := Nat.two_pow_pos o
        change buddy p o + 2 ^ o ≤ s.maxPfn + 1 at hfit
        omega
      case isFalse hmax =>
        split
        case isTrue htest =>
          apply hstay
          intro hb
          obtain ⟨hf, hord⟩ := h.marked _ hb
          simp [hf, hord] at htest
        case isFalse htest =>
          have hfree : (s.pages (buddy p o)).free = true := by
            by_contra hc
            exact htest (by simp [hc])
          have hord : (s.pages (buddy p o)).order = o := by
            by_contra hc
            exact htest (by simp [hc])
          have hal : 2 ^ o ∣ p := (h.fits ⟨p, o⟩ (Or.inr (by simp))).1
          have hlist : buddy p o ∈ L o :=
            h.buddy_listed List.mem_cons_self (fun q hq => hq) (by omega)
              hfree hord
          have hmin : (if buddy p o < p then buddy p o else p)
              = min p (buddy p o) := by
            split <;> omega
          rw [hmin]
          -- both halves are off the lists: they are one block now
          have hmerged := (h.remove ho hlist).merge
          have hX : (fun q => q ∈ Block.mk p o ∨ q ∈ Block.mk (buddy p o) o)
              = (· ∈ Block.mk (min p (buddy p o)) (o + 1)) := by
            funext q
            exact propext (Dyadic.mem_merge hal).symm
          rw [hX] at hmerged
          have hopen : ∀ q, q ∈ Block.mk (min p (buddy p o)) (o + 1) →
              ∃ b ∈ Block.mk (min p (buddy p o)) (o + 1) :: U, q ∈ b :=
            fun q hq => ⟨_, List.mem_cons_self, hq⟩
          have hhead := Block.base_mem ⟨min p (buddy p o), o + 1⟩
          have hstamped := (hmerged.stamp hopen hhead
            (f := Page.clearFlag PAGE_LARGE_HEAD) (fun _ => rfl)
            (fun _ => rfl)).stamp hopen hhead
            (f := fun pg => { pg with order := o + 1 }) (fun _ => rfl)
            (fun _ => rfl)
          obtain ⟨h1, ⟨h2, h3⟩, L', h4, h5, h6, h7⟩ := ih (by omega) hstamped
          obtain ⟨hm, hc⟩ := freeListRemove_fixed s o (buddy p o)
          refine ⟨h1, ⟨h2.trans hm, h3.trans hc⟩, L', h4, ?_,
            fun hL => h6 (hL.erase (h.list o ho).nodup), fun hplain hown => h7 ?_ ?_⟩
          · have hvol := listedPages_erase ho hlist
            rw [h5, pow_succ]
            omega
          · exact ((hplain.remove (h.list o ho).nodup).stamp hmerged hhead _).stamp
              (hmerged.stamp hopen hhead (f := Page.clearFlag PAGE_LARGE_HEAD) (fun _ => rfl)
                fun _ => rfl) hhead _
          · -- the lower half is the block itself or one off the lists
            have hlower : OwnOnly (s.pages (min p (buddy p o))).flags := by
              rcases min_choice p (buddy p o) with e | e
              · rw [e]
                exact hown
              · rw [e, hplain ⟨buddy p o, o⟩ ⟨ho, hlist⟩]
                exact listedFlags_own o
            rw [modPage_pages_self, modPage_pages_self]
            refine OwnOnly.clear ?_ _
            rw [(Page.data_eq_iff.mp (freeListRemove_data s o (buddy p o) _)).2.2.1]
            exact hlower

theorem freeBlock_eq (s : Pmm) (p : Nat) :
    s.freeBlock p
      = let r := coalesce (PMM_MAX_ORDER - 1 - (s.pages p).order) s p
          (s.pages p).order
        (r.1.modPage r.2.1 (freeHead r.2.2)).freeListPush r.2.2 r.2.1 := rfl

/-- `free_block` returns an unlisted block to the lists. -/
theorem freeBlock_core {p o : Nat} (ho : o < PMM_MAX_ORDER)
    (h : Core s L (⟨p, o⟩ :: U) (· ∈ Block.mk p o) keep C)
    (hord : (s.pages p).order = o) :
    ((s.freeBlock p).maxPfn = s.maxPfn
      ∧ (s.freeBlock p).freePageCount = s.freePageCount) ∧
    ∃ L', Core (s.freeBlock p) L' U (fun _ => False) keep C
      ∧ listedPages L' = listedPages L + 2 ^ o
      ∧ (Merged L → Merged L')
      ∧ (Plain s L → OwnOnly (s.pages p).flags → Plain (s.freeBlock p) L') := by
  have hstart : PMM_MAX_ORDER - 1 - o + o = PMM_MAX_ORDER - 1 := by omega
  obtain ⟨hlt, ⟨hm, hc⟩, L', hcore, hvol, hmerge, hplain⟩ := coalesce_core _ hstart h
  rw [freeBlock_eq, hord]
  generalize coalesce (PMM_MAX_ORDER - 1 - o) s p o = r at *
  obtain ⟨s', p', o'⟩ := r
  simp only at *
  have hfixed := freeListPush_fixed (s'.modPage p' (freeHead o')) o' p'
  have hstamped := hcore.stamp (fun q hq => ⟨_, List.mem_cons_self, hq⟩)
    (Block.base_mem ⟨p', o'⟩) (f := freeHead o')
    (fun q => (freeHead_spec o' q).2.2.1)
    (fun q => (freeHead_spec o' q).2.2.2.1)
  have hpushed := hstamped.push (Y := fun _ => False) hlt
    (by rw [modPage_pages_self]; exact (freeHead_spec o' _).1)
    (by rw [modPage_pages_self]; exact (freeHead_spec o' _).2.1)
    (fun q hq => Or.inr hq)
  refine ⟨⟨hfixed.1.trans hm, hfixed.2.trans hc⟩, _, hpushed, ?_, ?_, ?_⟩
  · rw [listedPages_push L' hlt, hvol]
  · intro hL
    obtain ⟨hL', hbud⟩ := hmerge hL
    exact hL'.push hlt (hcore.fits ⟨p', o'⟩ (Or.inr List.mem_cons_self)).1 hbud
  · intro hL hown
    obtain ⟨hL', hown'⟩ := hplain hL hown
    refine (hL'.stamp hcore (Block.base_mem ⟨p', o'⟩) _).push hlt ?_
    rw [modPage_pages_self]
    exact freeHead_flags hown' o'

-- ==== pmm_alloc

/-- The invariant between calls: the lists hold `L`, the blocks `U` are
handed out, the two cover `C`. -/
def Buddy (s : Pmm) (L : Nat → List Nat) (U : List Block)
    (C : Nat → Prop) : Prop :=
  Core s L U (fun _ => False) s.pages C

/-- The splitting loop gives every upper half back. -/
theorem splitBlock_core (p order : Nat) : ∀ (k : Nat) {s : Pmm}
    {L : Nat → List Nat}, order + k < PMM_MAX_ORDER →
    Core s L (⟨p, order + k⟩ :: U) (· ∈ Block.mk p (order + k)) keep C →
    ((splitBlock p order k s).maxPfn = s.maxPfn
      ∧ (splitBlock p order k s).freePageCount = s.freePageCount) ∧
    ∃ L', Core (splitBlock p order k s) L' (⟨p, order⟩ :: U)
        (· ∈ Block.mk p order) keep C
      ∧ listedPages L' + 2 ^ order = listedPages L + 2 ^ (order + k)
      ∧ (Merged L → Merged L')
      ∧ ((splitBlock p order k s).pages p).flags = (s.pages p).flags
      ∧ ((order = 0 → k = 0) → Plain s L → Plain (splitBlock p order k s) L') := by
  intro k
  induction k with
  | zero =>
      intro s L _ h
      exact ⟨⟨rfl, rfl⟩, L, h, rfl, id, rfl, fun _ hL => hL⟩
  | succ k ih =>
      intro s L hlt h
      have ho : order + k < PMM_MAX_ORDER := by omega
      unfold splitBlock
      simp only [Nat.one_shiftLeft]
      -- stamp the upper half's head, then list it
      have hhalf : p + 2 ^ (order + k) ∈ Block.mk p (order + (k + 1)) := by
        have hpos := Nat.two_pow_pos (order + k)
        refine ⟨Nat.le_add_right _ _, ?_⟩
        show p + 2 ^ (order + k) < p + 2 ^ (order + k + 1)
        rw [pow_succ]
        omega
      have hopen : ∀ q, q ∈ Block.mk p (order + (k + 1)) →
          ∃ b ∈ Block.mk p (order + (k + 1)) :: U, q ∈ b :=
        fun q hq => ⟨_, List.mem_cons_self, hq⟩
      have hstamped := (h.stamp hopen hhalf
        (f := fun pg => { pg with order := order + k }) (fun _ => rfl)
        (fun _ => rfl)).stamp hopen hhalf
        (f := fun pg => { pg with flags := PAGE_FREE ||| PAGE_LARGE_HEAD })
        (fun _ => rfl) (fun _ => rfl)
      have hpushed := (Core.split (o := order + k) hstamped).push
        (Y := (· ∈ Block.mk p (order + k))) ho
        (by
          rw [modPage_pages_self, Page.free_eq]
          simp only [BitVec.getLsbD_or, getLsbD_pageBit]
          simp)
        (by rw [modPage_pages_self, modPage_pages_self])
        (by
          intro q hq
          simp only [Block.mem_def, ← Nat.add_assoc, pow_succ] at hq ⊢
          omega)
      obtain ⟨⟨h1, h2⟩, L', h3, h4, h5, h6, h7⟩ := ih ho hpushed
      obtain ⟨hm, hc⟩ := freeListPush_fixed
        ((s.modPage (p + 2 ^ (order + k)) fun pg =>
            { pg with order := order + k }).modPage (p + 2 ^ (order + k))
          fun pg => { pg with flags := PAGE_FREE ||| PAGE_LARGE_HEAD })
        (order + k) (p + 2 ^ (order + k))
      refine ⟨⟨h1.trans hm, h2.trans hc⟩, L', h3, ?_, ?_, ?_, ?_⟩
      · rw [h4, listedPages_push L ho, ← Nat.add_assoc, pow_succ]
        omega
      · intro hL
        -- the buddy of an upper half is the block that stays off the lists
        have hal : 2 ^ (order + k + 1) ∣ p :=
          (h.fits _ (Or.inr List.mem_cons_self)).1
        have hlow : 2 ^ (order + k) ∣ p :=
          Nat.dvd_trans (pow_dvd_pow 2 (Nat.le_succ _)) hal
        refine h5 (hL.push ho (Nat.dvd_add hlow (Nat.dvd_refl _)) fun _ hb => ?_)
        rw [← Dyadic.buddy_lower hal, Dyadic.buddy_buddy] at hb
        exact (h.apartHeld _ _ hb List.mem_cons_self).not_mem
          (Block.base_mem ⟨p, order + k⟩) (Block.base_mem ⟨p, order + (k + 1)⟩)
      · have hpos := Nat.two_pow_pos (order + k)
        have hne : p ≠ p + 2 ^ (order + k) := by omega
        rw [h6, (Page.data_eq_iff.mp (freeListPush_data _ _ _ p)).2.2.1,
          modPage_pages_of_ne _ hne, modPage_pages_of_ne _ hne]
      · intro hcut hL
        -- an upper half is marked `PAGE_LARGE_HEAD`, a single page too
        have hpos : order ≠ 0 := fun e => absurd (hcut e) (Nat.succ_ne_zero k)
        have hhalves := (hL.stamp h hhalf fun pg => { pg with order := order + k }).stamp
          (h.stamp hopen hhalf (f := fun pg => { pg with order := order + k }) (fun _ => rfl)
            fun _ => rfl) hhalf fun pg => { pg with flags := PAGE_FREE ||| PAGE_LARGE_HEAD }
        refine h7 (fun e => absurd e hpos) (hhalves.push ho ?_)
        rw [modPage_pages_self]
        exact (if_pos (by omega)).symm

/-- No single page has to be cut out of a larger block. -/
def Uncut (s : Pmm) (order : Nat) : Prop := order = 0 → (s.freeLists 0).head ≠ none

instance (s : Pmm) (order : Nat) : Decidable (s.Uncut order) :=
  inferInstanceAs (Decidable (_ → _))

/-- Everything `pmm_alloc` promises about a block it returns. -/
structure AllocSpec (s s' : Pmm) (L L' : Nat → List Nat) (U : List Block)
    (C : Nat → Prop) (b : Block) : Prop where
  order_lt : b.order < PMM_MAX_ORDER
  buddy : Buddy s' L' (b :: U) C
  maxPfn : s'.maxPfn = s.maxPfn
  pages : listedPages L' + 2 ^ b.order = listedPages L
  count : s'.freePageCount = s.freePageCount - 2 ^ b.order
  was_free : ∀ q ∈ b, InFree L q
  frame : ∀ q, ¬InFree L q → (s'.pages q).data = (s.pages q).data
  stamp : ∀ q ∈ b, (s'.pages q).free = false
    ∧ (s'.pages q).order = b.order ∧ (s'.pages q).refcount = 1
  merged : Merged L → Merged L'
  flags : Plain s L → ((s'.pages b.base).flags = headFlags b.order ↔ s.Uncut b.order)
  plain : Plain s L → s.Uncut b.order → Plain s' L'

/-- The stamps of the head and the bodies of a block, read at any page. -/
theorem allocStamp_pages (s : Pmm) (p order q : Nat) :
    ((s.modPage p (allocHead order)).forBodies (allocBody order) p (1 <<< order)).pages q
      = if q = p then allocHead order (s.pages q)
        else if q ∈ Block.mk p order then allocBody order (s.pages q)
        else s.pages q := by
  rw [forBodies_pages, Nat.one_shiftLeft]
  by_cases hq : q = p
  · subst hq
    rw [if_neg (by omega), if_pos rfl, modPage_pages_self]
  · rw [if_neg hq, modPage_pages_of_ne _ hq]
    have hiff : (p < q ∧ q < p + 2 ^ order) ↔ q ∈ Block.mk p order := by
      show _ ↔ p ≤ q ∧ q < p + 2 ^ order
      omega
    by_cases hin : q ∈ Block.mk p order
    · rw [if_pos (hiff.mpr hin), if_pos hin]
    · rw [if_neg (fun hc => hin (hiff.mp hc)), if_neg hin]

/-- Every page of the block is in use, with its order and one reference. -/
theorem allocStamp_inside (s : Pmm) {p order q : Nat} (hq : q ∈ Block.mk p order) :
    let pg := ((s.modPage p (allocHead order)).forBodies (allocBody order) p
      (1 <<< order)).pages q
    pg.free = false ∧ pg.order = order ∧ pg.refcount = 1 := by
  simp only
  rw [allocStamp_pages]
  by_cases hqp : q = p
  · rw [if_pos hqp]
    obtain ⟨h1, h2, h3, -⟩ := allocHead_spec order (s.pages q)
    exact ⟨h1, h2, h3⟩
  · rw [if_neg hqp, if_pos hq]
    exact ⟨allocBody_free order _, rfl, rfl⟩

theorem allocStamp_outside (s : Pmm) {p order q : Nat} (hq : q ∉ Block.mk p order) :
    ((s.modPage p (allocHead order)).forBodies (allocBody order) p (1 <<< order)).pages q
      = s.pages q := by
  have hne : q ≠ p := fun e => hq (by rw [e]; exact Block.base_mem ⟨p, order⟩)
  rw [allocStamp_pages, if_neg hne, if_neg hq]

theorem allocStamp_links (s : Pmm) (p order : Nat) :
    ((s.modPage p (allocHead order)).forBodies (allocBody order) p (1 <<< order)).links
      = s.links := by
  rw [forBodies_links (f := allocBody order) (fun _ => rfl) (fun _ => rfl),
    modPage_links s p (fun q => (allocHead_spec order q).2.2.2.1)
      (fun q => (allocHead_spec order q).2.2.2.2.1)]

/-- A block is halved until it has the order asked for. -/
theorem takeBlock_spec {p o order : Nat} (h : Buddy s L U C)
    (hoo : order ≤ o) (ho : o < PMM_MAX_ORDER) (hp : p ∈ L o)
    (hfirst : order < o → (s.freeLists order).head = none) :
    ∃ L', AllocSpec s (s.takeBlock o order p) L L' U C ⟨p, order⟩ := by
  have huncut : s.Uncut order ↔ (order = 0 → o = 0) := by
    refine forall_congr' fun hzero => ⟨fun hhead => ?_, fun ho0 hnil => ?_⟩
    · by_contra hne
      exact hhead (by rw [← hfirst (by omega), hzero])
    · rw [h.head 0 (by decide), List.head?_eq_none_iff] at hnil
      rw [ho0, hnil] at hp
      cases hp
  obtain ⟨k, rfl⟩ := Nat.exists_eq_add_of_le hoo
  have hremoved := h.remove ho hp
  simp only [false_or] at hremoved
  obtain ⟨⟨hm, hc⟩, L', hsplit, hvol, hmerge, hhead, hhalves⟩ :=
    splitBlock_core p order k ho hremoved
  have htake : s.takeBlock (order + k) order p
      = { ((splitBlock p order k (s.freeListRemove (order + k) p)).modPage p
            (allocHead order)).forBodies (allocBody order) p (1 <<< order)
          with freePageCount :=
            (((splitBlock p order k (s.freeListRemove (order + k) p)).modPage
              p (allocHead order)).forBodies (allocBody order) p
                (1 <<< order)).freePageCount - 1 <<< order } := by
    unfold takeBlock
    rw [Nat.add_sub_cancel_left]
  generalize hs1 : splitBlock p order k (s.freeListRemove (order + k) p) = s1
    at *
  obtain ⟨hfl, hfm, hfc⟩ := forBodies_fixed (allocBody order) p (1 <<< order)
    (s1.modPage p (allocHead order))
  have hstamp : ∀ q ∈ Block.mk p order,
      ((s.takeBlock (order + k) order p).pages q).free = false
        ∧ ((s.takeBlock (order + k) order p).pages q).order = order
        ∧ ((s.takeBlock (order + k) order p).pages q).refcount = 1 := by
    intro q hq
    rw [htake]
    exact allocStamp_inside s1 hq
  have hout : ∀ q, q ∉ Block.mk p order →
      (s.takeBlock (order + k) order p).pages q = s1.pages q := by
    intro q hq
    rw [htake]
    exact allocStamp_outside s1 hq
  have hlinks : (s.takeBlock (order + k) order p).links = s1.links := by
    rw [htake]
    exact allocStamp_links s1 p order
  have hcore : Core (s.takeBlock (order + k) order p) L' (⟨p, order⟩ :: U)
      (· ∈ Block.mk p order) s.pages C := by
    refine hsplit.restamp hlinks ?_ ?_ ?_
      (fun q hq => ⟨_, List.mem_cons_self, hq⟩)
    · rw [htake]; exact hfl
    · rw [htake]; exact hfm
    · intro q hq
      rw [hout q hq]
  have hbuddy : Buddy (s.takeBlock (order + k) order p) L'
      (⟨p, order⟩ :: U) C :=
    hcore.close (fun q _ hq hf => by rw [(hstamp q hq).1] at hf; cases hf)
      (fun q _ _ => rfl)
  have hwas : ∀ q ∈ Block.mk p order, InFree L q := by
    intro q hq
    refine ⟨⟨p, order + k⟩, ⟨ho, hp⟩, hq.1, ?_⟩
    have hq2 : q < p + 2 ^ order := hq.2
    have hpow : 2 ^ order ≤ 2 ^ (order + k) :=
      Nat.pow_le_pow_right (by decide) (Nat.le_add_right _ _)
    show q < p + 2 ^ (order + k)
    omega
  have hfreeSub : ∀ q, InFree L' q → InFree L q := by
    -- a page listed now was covered, and is in no handed-out block
    rintro q ⟨b, hb, hq⟩
    have hC := (hcore.cover q).mp (Or.inl ⟨b, hb, hq⟩)
    rcases (h.cover q).mpr hC with hin | ⟨c, hc, hqc⟩
    · exact hin
    · exact absurd hqc ((hcore.apartHeld b c hb
        (List.mem_cons_of_mem _ hc)).not_mem hq)
  obtain ⟨hrm, hrc⟩ := freeListRemove_fixed s (order + k) p
  refine ⟨L', ?_, hbuddy, ?_, ?_, ?_, hwas, ?_, hstamp,
    fun hL => hmerge (hL.erase (h.list _ ho).nodup), fun hL => ?_, fun hL huncut' => ?_⟩
  · show order < PMM_MAX_ORDER
    omega
  · rw [htake]
    exact hfm.trans (hm.trans hrm)
  · have := listedPages_erase ho hp
    show listedPages L' + 2 ^ order = listedPages L
    omega
  · rw [htake, Nat.one_shiftLeft]
    show _ - 2 ^ order = _
    rw [← Nat.one_shiftLeft, hfc]
    show s1.freePageCount - _ = _
    rw [hc, hrc]
  · intro q hq
    exact hcore.kept q (fun hin => hq (hfreeSub q hin))
      fun hin => hq (hwas q hin)
  · have hhd : (s.takeBlock (order + k) order p).pages p = allocHead order (s1.pages p) := by
      rw [htake]
      exact (allocStamp_pages s1 p order p).trans (if_pos rfl)
    rw [huncut, ← headFlags_eq_iff hoo, hhd]
    rw [allocHead_listed (o := order + k) ?_ hoo]
    rw [hhead, (Page.data_eq_iff.mp (freeListRemove_data s (order + k) p p)).2.2.1]
    exact hL ⟨p, order + k⟩ ⟨ho, hp⟩
  · have hcut : order = 0 → k = 0 := fun e => by
      have := huncut.mp huncut' e
      omega
    refine (hhalves hcut (hL.remove (h.list _ ho).nodup)).mono fun c hc => ⟨hc, ?_⟩
    rw [hout c.base fun hin => hsplit.base_ne hc hin rfl]

/-- The search finds the first non-empty list and takes its head. -/
theorem allocFrom_spec {order : Nat} (h : Buddy s L U C) :
    ∀ (n o p : Nat) {s' : Pmm}, n + o = PMM_MAX_ORDER → order ≤ o →
      (order < o → (s.freeLists order).head = none) →
      allocFrom order n s o = some (s', p) →
      ∃ L', AllocSpec s s' L L' U C ⟨p, order⟩ := by
  intro n
  induction n with
  | zero => intro o p s' _ _ _ ha; cases ha
  | succ n ih =>
      intro o p s' hn hoo hfirst ha
      unfold allocFrom at ha
      have ho : o < PMM_MAX_ORDER := by omega
      cases hh : (s.freeLists o).head with
      | none =>
          rw [hh] at ha
          refine ih (o + 1) p (by omega) (by omega) (fun _ => ?_) ha
          rcases Nat.lt_or_eq_of_le hoo with hlt | rfl
          · exact hfirst hlt
          · exact hh
      | some q =>
          rw [hh] at ha
          injection ha with ha
          injection ha with h1 h2
          subst h1
          subst h2
          have hhead := h.head o ho
          rw [hh] at hhead
          exact takeBlock_spec h hoo ho
            (List.mem_of_mem_head? (by rw [← hhead]; rfl)) hfirst

/-- A search that finds no block has seen every list empty. -/
theorem allocFrom_none {order : Nat} : ∀ (n o : Nat), allocFrom order n s o = none →
    ∀ k, o ≤ k → k < o + n → (s.freeLists k).head = none := by
  intro n
  induction n with
  | zero => exact fun o _ k h1 h2 => by omega
  | succ n ih =>
      intro o ha k h1 h2
      unfold allocFrom at ha
      split at ha
      · rename_i hhead
        by_cases hk : k = o
        · rw [hk]
          exact hhead
        · exact ih (o + 1) ha k (by omega) (by omega)
      · cases ha

/-- `pmm_alloc`. -/
theorem pmmAlloc_spec (h : Buddy s L U C) {s' : Pmm} {order p : Nat}
    (ha : s.pmmAlloc order = some (s', p)) :
    ∃ L', AllocSpec s s' L L' U C ⟨p, order⟩ := by
  unfold pmmAlloc at ha
  split at ha
  · cases ha
  · exact allocFrom_spec h (PMM_MAX_ORDER - order) order p (by omega)
      (Nat.le_refl _) (fun hlt => absurd hlt (Nat.lt_irrefl order)) ha

-- ==== pmm_free

/-- A page of a handed-out block is not marked free. -/
theorem Buddy.held_not_free (h : Buddy s L U C) {b : Block} (hb : b ∈ U)
    {q : Nat} (hq : q ∈ b) : (s.pages q).free = false := by
  have hle : q ≤ s.maxPfn := by
    have := (h.fits b (Or.inr hb)).2
    have := hq.2
    omega
  by_contra hf
  rcases h.stale q hle (by simpa using hf) with ⟨c, hc, hqc⟩ | hx
  · exact (h.apartHeld c b hc hb).not_mem hqc hq
  · exact hx

/-- A page of a handed-out block is in no listed block. -/
theorem Buddy.held_not_inFree (h : Buddy s L U C) {b : Block} (hb : b ∈ U)
    {q : Nat} (hq : q ∈ b) : ¬InFree L q := by
  rintro ⟨c, hc, hqc⟩
  exact (h.apartHeld c b hc hb).not_mem hqc hq

/-- The owner of a block may write its descriptors, links and the free
flag excepted. -/
theorem Buddy.write (h : Buddy s L U C) {b : Block} (hb : b ∈ U) {p : Nat}
    (hp : p ∈ b) {f : Page → Page} (hn : ∀ q, (f q).next = q.next)
    (hpv : ∀ q, (f q).prev = q.prev)
    (hf : (f (s.pages p)).free = false) : Buddy (s.modPage p f) L U C := by
  have hopened : Core s L U (· = p) s.pages C :=
    h.close (fun q _ hx _ => hx.elim) (fun q _ _ => rfl)
  have hstamped := hopened.stamp (fun q hq => ⟨b, hb, hq ▸ hp⟩) rfl hn hpv
  refine hstamped.close ?_ (fun q _ _ => rfl)
  intro q _ hq hfree
  subst hq
  rw [modPage_pages_self, hf] at hfree
  cases hfree

/-- Everything `pmm_free` promises on the last reference. -/
structure FreeSpec (s s' : Pmm) (L L' : Nat → List Nat) (U : List Block)
    (C : Nat → Prop) (b : Block) : Prop where
  buddy : Buddy s' L' U C
  maxPfn : s'.maxPfn = s.maxPfn
  pages : listedPages L' = listedPages L + 2 ^ b.order
  count : s'.freePageCount = s.freePageCount + 2 ^ b.order
  frame : ∀ q, ¬InFree L q → q ∉ b → (s'.pages q).data = (s.pages q).data
  merged : Merged L → Merged L'
  plain : Plain s L → OwnOnly (s.pages b.base).flags → Plain s' L'

/-- Clearing the bodies of a block and giving it back. -/
theorem releaseBlock_spec {b : Block} (h : Buddy s L (b :: U) C)
    (ho : b.order < PMM_MAX_ORDER)
    (hord : (s.pages b.base).order = b.order) :
    ∃ L', FreeSpec s (s.releaseBlock b.base) L L' U C b := by
  -- the state `free_block` starts from
  obtain ⟨s1, hs1, hdata, hlinks, hlists, hmax, hcount, hbase⟩ :
      ∃ s1 : Pmm, s.releaseBlock b.base = s1.freeBlock b.base
        ∧ (∀ q, q ∉ b → (s1.pages q).data = (s.pages q).data)
        ∧ s1.links = s.links ∧ s1.freeLists = s.freeLists
        ∧ s1.maxPfn = s.maxPfn
        ∧ s1.freePageCount = s.freePageCount + 2 ^ b.order
        ∧ s1.pages b.base = s.pages b.base := by
    obtain ⟨hfl, hfm, hfc⟩ := forBodies_fixed freeBody b.base
      (1 <<< (s.pages b.base).order) s
    unfold releaseBlock
    simp only
    split
    · refine ⟨_, rfl, ?_, ?_, hfl, hfm, ?_, ?_⟩
      · intro q hq
        show ((s.forBodies freeBody b.base _).pages q).data = _
        rw [forBodies_pages, if_neg]
        rw [hord, Nat.one_shiftLeft]
        intro hc
        exact hq ⟨by omega, hc.2⟩
      · exact forBodies_links (f := freeBody) (fun _ => rfl) (fun _ => rfl)
          b.base _ s
      · show (s.forBodies freeBody b.base _).freePageCount + _ = _
        rw [hfc, hord, Nat.one_shiftLeft]
      · show (s.forBodies freeBody b.base _).pages b.base = _
        rw [forBodies_pages, if_neg (by omega)]
    · refine ⟨_, rfl, fun q _ => rfl, rfl, rfl, rfl, ?_, rfl⟩
      show s.freePageCount + _ = _
      rw [hord, Nat.one_shiftLeft]
  have hopened : Core s L (b :: U) (· ∈ b) s.pages C :=
    h.close (fun q _ hx _ => hx.elim) (fun q _ _ => rfl)
  have hcleared : Core s1 L (b :: U) (· ∈ b) s.pages C :=
    hopened.restamp hlinks hlists hmax hdata
      (fun q hq => ⟨b, List.mem_cons_self, hq⟩)
  obtain ⟨⟨hm, hc⟩, L', hcore, hvol, hmerge, hplain⟩ :=
    freeBlock_core ho hcleared (by rw [hbase, hord])
  rw [hs1]
  have hheads : Plain s L → Plain s1 L := fun hL => hL.mono fun c hlisted =>
    ⟨hlisted, (Page.data_eq_iff.mp (hdata c.base fun hin => h.base_ne hlisted hin rfl)).2.2.1⟩
  refine ⟨L', hcore.close (fun q _ hx _ => hx.elim) (fun q _ _ => rfl),
    hm.trans hmax, hvol, hc.trans hcount, ?_, hmerge,
    fun hL hown => hplain (hheads hL) (by rw [hbase]; exact hown)⟩
  intro q hnin hnb
  refine hcore.kept q ?_ id
  rintro ⟨c, hc, hqc⟩
  -- a page listed afterwards was listed before or is in the block
  have hC := (hcore.cover q).mp (Or.inl ⟨c, hc, hqc⟩)
  rcases (h.cover q).mpr hC with hin | ⟨d, hd, hqd⟩
  · exact hnin hin
  · rcases List.mem_cons.mp hd with rfl | hd
    · exact hnb hqd
    · exact (hcore.apartHeld c d hc hd).not_mem hqc hqd

/-- `pmm_free` on the last reference to a handed-out block. -/
theorem pmmFree_last (h : Buddy s L U C) {b : Block} (hb : b ∈ U)
    (ho : b.order < PMM_MAX_ORDER)
    (hord : (s.pages b.base).order = b.order)
    (hres : (s.pages b.base).reserved = false)
    (hpoi : (s.pages b.base).poisoned = false)
    (href : (s.pages b.base).refcount = 1) :
    ∃ s' L', s.pmmFree (some b.base) = .ok s'
      ∧ FreeSpec s s' L L' (U.erase b) C b := by
  have hfree := h.held_not_free hb (Block.base_mem b)
  have hdec : Buddy (s.pageRefDec b.base) L (b :: U.erase b) C :=
    Core.perm (h.write hb (Block.base_mem b)
      (f := fun p => { p with refcount := p.refcount - 1 }) (fun _ => rfl)
      (fun _ => rfl) hfree) (List.perm_cons_erase hb)
  have hdec_ne : ∀ q, q ≠ b.base →
      (s.pageRefDec b.base).pages q = s.pages q := fun q hq =>
    modPage_pages_of_ne s hq _
  have hdec_ord : ((s.pageRefDec b.base).pages b.base).order = b.order := by
    unfold pageRefDec
    rw [modPage_pages_self]
    exact hord
  obtain ⟨L', hspec⟩ := releaseBlock_spec hdec ho hdec_ord
  refine ⟨_, L', ?_, hspec.buddy, hspec.maxPfn, hspec.pages, hspec.count, ?_,
    hspec.merged, fun hL hown => hspec.plain ?_ ?_⟩
  · unfold pmmFree
    simp only [hres, hpoi, hfree, href, Bool.or_self, if_true]
    rfl
  · intro q hnin hnb
    have hne : q ≠ b.base := fun e => hnb (e ▸ Block.base_mem b)
    rw [hspec.frame q hnin hnb, hdec_ne q hne]
  · exact hL.mono fun c hc =>
      ⟨hc, by rw [hdec_ne _ (hdec.base_ne hc (Block.base_mem b))]⟩
  · unfold pageRefDec
    rw [modPage_pages_self]
    exact hown

-- ==== pmm_init

/-- A free page as `pmm_init`'s first loop leaves it. -/
def claimed (p : Page) : Page :=
  if p.free then
    (({ p with order := 0 } : Page).clearFlag PAGE_FREE).setFlag PAGE_USED
  else p

theorem claimPage_pages (s : Pmm) (p q : Nat) :
    (s.claimPage p).pages q
      = if q = p then claimed (s.pages q) else s.pages q := by
  unfold claimPage claimed
  by_cases h : q = p
  · subst h
    rw [if_pos rfl]
    split
    · simp only [modPage_pages_self]
    · rfl
  · rw [if_neg h]
    split
    · simp only [modPage_pages_of_ne _ h]
    · rfl

theorem claimPage_fixed (s : Pmm) (p : Nat) :
    (s.claimPage p).freeLists = s.freeLists
      ∧ (s.claimPage p).maxPfn = s.maxPfn
      ∧ (s.claimPage p).freePageCount = s.freePageCount := by
  unfold claimPage
  split <;> exact ⟨rfl, rfl, rfl⟩

theorem claimLoop (s : Pmm) : ∀ n,
    (∀ q, ((List.range n).foldl claimPage s).pages q
        = if q < n then claimed (s.pages q) else s.pages q)
      ∧ ((List.range n).foldl claimPage s).freeLists = s.freeLists
      ∧ ((List.range n).foldl claimPage s).maxPfn = s.maxPfn
      ∧ ((List.range n).foldl claimPage s).freePageCount
          = s.freePageCount := by
  intro n
  induction n with
  | zero => exact ⟨fun q => by simp, rfl, rfl, rfl⟩
  | succ n ih =>
      obtain ⟨h1, h2, h3, h4⟩ := ih
      rw [List.range_succ, List.foldl_append]
      simp only [List.foldl_cons, List.foldl_nil]
      obtain ⟨f1, f2, f3⟩ :=
        claimPage_fixed ((List.range n).foldl claimPage s) n
      refine ⟨fun q => ?_, f1.trans h2, f2.trans h3, f3.trans h4⟩
      rw [claimPage_pages, h1 q]
      by_cases hq : q = n
      · rw [if_pos hq, if_neg (by omega), if_pos (by omega)]
      · rw [if_neg hq]
        by_cases hlt : q < n
        · rw [if_pos hlt, if_pos (by omega)]
        · rw [if_neg hlt, if_neg (by omega)]

/-- The flags the first loop leaves in a database of free and reserved
pages. -/
theorem claimed_pfndb (maxPfn : Nat) (usable : Nat → Bool) (q : Nat) :
    (claimed (pfndb maxPfn usable q)).free = false
      ∧ (claimed (pfndb maxPfn usable q)).used = usable q
      ∧ (claimed (pfndb maxPfn usable q)).reserved = !usable q
      ∧ (claimed (pfndb maxPfn usable q)).poisoned = false
      ∧ (claimed (pfndb maxPfn usable q)).order = 0 := by
  cases hu : usable q with
  | true =>
      have hf : (pfndb maxPfn usable q).free = true := by
        rw [Page.free_eq]
        simp only [pfndb, hu, if_true, getLsbD_pageBit]
        simp
      unfold claimed
      rw [if_pos hf]
      rw [Page.free_eq, Page.used_eq, Page.reserved_eq, Page.poisoned_eq]
      simp only [Page.setFlag, Page.clearFlag, pfndb, hu, if_true,
        BitVec.getLsbD_or, BitVec.getLsbD_and, BitVec.getLsbD_not,
        getLsbD_pageBit]
      simp
  | false =>
      have hf : (pfndb maxPfn usable q).free = false := by
        rw [Page.free_eq]
        simp only [pfndb, hu, if_false, getLsbD_pageBit, Bool.false_eq_true]
        simp
      unfold claimed
      rw [hf, if_neg (by decide)]
      rw [hf, Page.used_eq, Page.reserved_eq, Page.poisoned_eq]
      simp only [pfndb, hu, if_false, getLsbD_pageBit, Bool.false_eq_true]
      simp

theorem claimed_own (maxPfn : Nat) {usable : Nat → Bool} {q : Nat} (hu : usable q = true) :
    OwnOnly (claimed (pfndb maxPfn usable q)).flags := by
  intro n hn
  have h1 : ¬1 = n := fun e => hn (Or.inr (Or.inl e.symm))
  have h0 : ¬0 = n := fun e => hn (Or.inl e.symm)
  unfold claimed
  split <;>
    simp [Page.setFlag, Page.clearFlag, pfndb, hu, getLsbD_pageBit, h0, h1]

/-- The second loop after the pages below `n`: the free blocks cover the
usable ones among them, the rest of the database is as the first loop
left it. -/
theorem releaseLoop {maxPfn : Nat} {usable : Nat → Bool} {base : Nat → Page}
    (hbase : ∀ q < maxPfn + 1, base q = claimed (pfndb maxPfn usable q))
    (h0 : Core s (fun _ => []) [] (fun _ => False) base (fun _ => False))
    (hmax0 : s.maxPfn = maxPfn) (hcount0 : s.freePageCount = 0) :
    ∀ n ≤ maxPfn + 1, ∃ L,
      Core ((List.range n).foldl releasePage s) L [] (fun _ => False) base
          (fun q => q < n ∧ usable q = true)
        ∧ ((List.range n).foldl releasePage s).maxPfn = maxPfn
        ∧ ((List.range n).foldl releasePage s).freePageCount
            = listedPages L
        ∧ listedPages L = Nat.count (usable · = true) n
        ∧ Merged L ∧ Plain ((List.range n).foldl releasePage s) L := by
  intro n
  induction n with
  | zero =>
      intro _
      refine ⟨fun _ => [], ?_, hmax0, ?_, by simp [listedPages],
        fun p o _ hp => by simpa using hp.2, fun b hb => by simpa using hb.2⟩
      · have : (fun q : Nat => q < 0 ∧ usable q = true) = fun _ => False := by
          funext q
          simp
        rw [this]
        exact h0
      · rw [show (List.range 0).foldl releasePage s = s from rfl, hcount0]
        simp [listedPages]
  | succ n ih =>
      intro hn
      obtain ⟨L, hcore, hmax, hcount, hpages, hL, hplain⟩ := ih (by omega)
      rw [List.range_succ, List.foldl_append]
      simp only [List.foldl_cons, List.foldl_nil]
      generalize (List.range n).foldl releasePage s = t at *
      -- page `n` is as the first loop left it
      have hnot : ¬InFree L n := fun hin => by
        have := (hcore.cover n).mp (Or.inl hin)
        omega
      have hdata := hcore.kept n hnot id
      rw [hbase n (by omega)] at hdata
      obtain ⟨-, hused, hres, -, hord⟩ := claimed_pfndb maxPfn usable n
      obtain ⟨-, hordn, hflags, -⟩ := Page.data_eq_iff.mp hdata
      have hused' : (t.pages n).used = usable n := by
        rw [Page.used, hflags]; exact hused
      have hres' : (t.pages n).reserved = !usable n := by
        rw [Page.reserved, hflags]; exact hres
      unfold releasePage
      rw [hused', hres']
      cases hu : usable n with
      | false =>
          refine ⟨L, ?_, hmax, hcount, by simp [Nat.count_succ, hpages, hu], hL, hplain⟩
          have : (fun q => q < n + 1 ∧ usable q = true)
              = fun q => q < n ∧ usable q = true := by
            funext q
            refine propext ⟨fun ⟨h1, h2⟩ => ⟨?_, h2⟩,
              fun ⟨h1, h2⟩ => ⟨by omega, h2⟩⟩
            have hne : q ≠ n := fun e => by rw [e, hu] at h2; cases h2
            omega
          rw [this]
          exact hcore
      | true =>
          have hadopt := hcore.adopt (b := ⟨n, 0⟩) (Nat.one_dvd n)
            (by rw [hmax]; show n + 1 ≤ _; omega)
            (by
              intro q hq hc
              have h1 : n ≤ q := hq.1
              omega)
          simp only [false_or] at hadopt
          obtain ⟨⟨hm, hc⟩, L', hfreed, hvol, hmerge, hheads⟩ :=
            freeBlock_core (by decide) hadopt (hordn.trans hord)
          refine ⟨L', ?_, hm.trans hmax, ?_, by simp [Nat.count_succ, hvol, hpages, hu],
            hmerge hL, hheads hplain (by rw [hflags]; exact claimed_own maxPfn hu)⟩
          · have hsame : (fun q => (q < n ∧ usable q = true)
                ∨ q ∈ Block.mk n 0) = fun q => q < n + 1 ∧ usable q = true := by
              funext q
              refine propext ⟨?_, ?_⟩
              · rintro (⟨h1, h2⟩ | hq)
                · exact ⟨by omega, h2⟩
                · have h1 : n ≤ q := hq.1
                  have h2 : q < n + 1 := hq.2
                  have : q = n := by omega
                  exact ⟨h2, this ▸ hu⟩
              · rintro ⟨h1, h2⟩
                by_cases hq : q = n
                · subst hq
                  exact Or.inr (Block.base_mem ⟨q, 0⟩)
                · exact Or.inl ⟨by omega, h2⟩
            rw [← hsame]
            exact ⟨hfreed.list, hfreed.head, hfreed.count, hfreed.fits,
              hfreed.marked, hfreed.apartFree, hfreed.apartHeld,
              hfreed.apartOut, hfreed.cover, hfreed.stale, hfreed.kept⟩
          · show (t.freeBlock n).freePageCount + 1 = _
            rw [hc, hcount, hvol]
            rfl

/-- `pmm_init` puts exactly the usable pages of a database on the lists;
what lies behind the database does not matter. -/
theorem pmmInit_db {maxPfn : Nat} {usable : Nat → Bool} {db : Nat → Page}
    (hdb : ∀ q < maxPfn + 1, db q = pfndb maxPfn usable q) :
    ∃ L, Core (pmmInit maxPfn db) L [] (fun _ => False)
          (fun q => if q < maxPfn + 1 then claimed (db q) else db q)
          (fun q => q < maxPfn + 1 ∧ usable q = true)
      ∧ (pmmInit maxPfn db).maxPfn = maxPfn
      ∧ (pmmInit maxPfn db).freePageCount = listedPages L
      ∧ listedPages L = Nat.count (usable · = true) (maxPfn + 1)
      ∧ Merged L ∧ Plain (pmmInit maxPfn db) L := by
  unfold pmmInit
  simp only
  obtain ⟨h1, h2, h3, h4⟩ := claimLoop
    { pages := db, maxPfn := maxPfn
      freeLists := fun _ => { head := none, count := 0 }
      freePageCount := 0, totalPageCount := 0 } (maxPfn + 1)
  refine releaseLoop (fun q hq => ?_) ?_ h3 h4 (maxPfn + 1) (Nat.le_refl _)
  · rw [if_pos hq, hdb q hq]
  have hnot : ∀ b, ¬Listed (fun _ => []) b := fun b hb => by
    simpa using hb.2
  refine ⟨fun o _ => Dll.isList_nil _, fun o _ => by rw [h2]; rfl,
    fun o _ => by rw [h2]; rfl, ?_, fun b hb => absurd hb (hnot b),
    fun b c hb => absurd hb (hnot b), fun b c hb => absurd hb (hnot b),
    List.Pairwise.nil, ?_, ?_, ?_⟩
  · rintro b (hb | hb)
    · exact absurd hb (hnot b)
    · simp at hb
  · intro q
    constructor
    · rintro (⟨b, hb, -⟩ | ⟨b, hb, -⟩)
      · exact hnot b hb
      · simp at hb
    · exact False.elim
  · intro q hq hf
    rw [h3] at hq
    change q ≤ maxPfn at hq
    rw [h1 q, if_pos (by omega)] at hf
    change (claimed (db q)).free = true at hf
    rw [hdb q (by omega), (claimed_pfndb maxPfn usable q).1] at hf
    cases hf
  · intro q _ _
    rw [h1 q]

/-- The same for the database of a memory map. -/
theorem pmmInit_spec (maxPfn : Nat) (usable : Nat → Bool) :
    ∃ L, Core (pmmInit maxPfn (pfndb maxPfn usable)) L [] (fun _ => False)
          (fun q => if q < maxPfn + 1 then claimed (pfndb maxPfn usable q)
            else pfndb maxPfn usable q)
          (fun q => q < maxPfn + 1 ∧ usable q = true)
      ∧ (pmmInit maxPfn (pfndb maxPfn usable)).maxPfn = maxPfn
      ∧ (pmmInit maxPfn (pfndb maxPfn usable)).freePageCount
          = listedPages L
      ∧ Merged L ∧ Plain (pmmInit maxPfn (pfndb maxPfn usable)) L := by
  obtain ⟨L, hcore, hmax, hcount, -, hL⟩ := @pmmInit_db maxPfn usable
    (pfndb maxPfn usable) fun _ _ => rfl
  exact ⟨L, hcore, hmax, hcount, hL⟩

end Alix.Pmm
