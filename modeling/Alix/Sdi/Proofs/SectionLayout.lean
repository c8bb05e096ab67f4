/-
The first loop of `sdi_elf_prepare_sections`.

It adds up the sizes of the sections in 64 bits. A sum that wraps is
refused, but `sdi_elf_align_up` in front of it is not checked: close to
`2^64` it comes to 0, and the next section starts where the first one did.
So there are two cases (`layoutUpto_cases`). Either the offsets are those
of the sizes laid out one behind the other (`Exact`), or some section has
been put on top of another (`Restarted`), which is so only if the sizes and
the largest alignment come to `2^64`.
-/
import Alix.Lib.Layout
import Alix.Sdi.Proofs.ElfReads

namespace Alix.Elf

open Bytes (Memory)
open Masks (up)

variable {ctx : ElfContext} {l l' : SectionLayout} {i k n v : Nat}

-- ==== the sums

theorem isPowerOfTwo_iff : isPowerOfTwo v = true ↔ ∃ k, v = 2 ^ k := by
  unfold isPowerOfTwo
  rw [Bool.and_eq_true, decide_eq_true_eq, beq_iff_eq]
  constructor
  · intro h
    exact (Nat.and_sub_one_eq_zero_iff_isPowerOfTwo h.1).mp h.2
  · intro h
    have hne : v ≠ 0 := by
      obtain ⟨k, rfl⟩ := h
      exact (Nat.two_pow_pos k).ne'
    exact ⟨hne, (Nat.and_sub_one_eq_zero_iff_isPowerOfTwo hne).mpr h⟩

theorem alignUp_eq (hv : v < 2 ^ 64) (hk : k < 64) :
    alignUp v (2 ^ k) = (v + 2 ^ k - 1) % 2 ^ 64 / 2 ^ k * 2 ^ k := by
  have hpos : 0 < 2 ^ k := Nat.two_pow_pos k
  unfold alignUp
  by_cases hone : 2 ^ k ≤ 1
  · have he : 2 ^ k = 1 := by omega
    rw [if_pos hone, he, Nat.add_sub_cancel, Nat.mod_eq_of_lt hv, Nat.div_one, Nat.mul_one]
  · rw [if_neg hone]
    exact Masks.and_mask (Nat.le_of_lt hk) (Nat.mod_lt _ (by omega))

/-- What is rounded as it should be. -/
theorem alignUp_of_lt (hk : k < 64) (h : v + 2 ^ k - 1 < 2 ^ 64) :
    alignUp v (2 ^ k) = up v (2 ^ k) := by
  have hpos : 0 < 2 ^ k := Nat.two_pow_pos k
  rw [alignUp_eq (by omega) hk]
  exact Masks.roundUp_of_lt h

/-- What wraps. -/
theorem alignUp_wrapped (hv : v < 2 ^ 64) (hk : k < 64) (h : 2 ^ 64 ≤ v + 2 ^ k - 1) :
    alignUp v (2 ^ k) = 0 := by
  rw [alignUp_eq hv hk]
  exact Masks.roundUp_wrapped hv hk h

theorem alignUp_lt (hv : v < 2 ^ 64) (align : Nat) : alignUp v align < 2 ^ 64 := by
  unfold alignUp
  split
  · exact hv
  · exact Nat.lt_of_le_of_lt Nat.and_le_left (Nat.mod_lt _ (by omega))

/-- A sum that is ok does not wrap. -/
theorem u64AddOk_some {a b sum : Nat} (ha : a < 2 ^ 64) (hb : b < 2 ^ 64)
    (h : u64AddOk a b = some sum) : sum = a + b ∧ a + b < 2 ^ 64 := by
  unfold u64AddOk at h
  split at h
  · cases h
    omega
  · cases h

-- ==== the sections

/-- The sections, as things to be laid out. -/
def items (ctx : ElfContext) : Layout.Items where
  takes i := (ctx.sections i).alloc
  align i := (ctx.sections i).align
  size i := (ctx.sections i).shSize

theorem items_takes (ctx : ElfContext) (i : Nat) :
    (items ctx).takes i = (ctx.sections i).alloc := rfl

theorem items_align (ctx : ElfContext) (i : Nat) :
    (items ctx).align i = (ctx.sections i).align := by
  unfold items
  dsimp only

theorem items_size (ctx : ElfContext) (i : Nat) :
    (items ctx).size i = (ctx.sections i).shSize := rfl

/-- The alignment is a power of two, and at most a page. -/
def GoodAlign (ctx : ElfContext) (i : Nat) : Prop :=
  ∃ k, k ≤ 12 ∧ (ctx.sections i).align = 2 ^ k

theorem shSize_lt (ctx : ElfContext) (i : Nat) : (ctx.sections i).shSize < 2 ^ 64 :=
  Bytes.load_lt ctx.image _ 8

theorem layoutStep_skips (h : (ctx.sections i).alloc = false) : layoutStep ctx l i = some l := by
  unfold layoutStep
  simp only [h, Bool.not_false, if_true]

/-- What a round does with a section that is loaded. -/
theorem layoutStep_takes (halloc : (ctx.sections i).alloc = true) (hl : l.total < 2 ^ 64)
    (h : layoutStep ctx l i = some l') : GoodAlign ctx i
      ∧ alignUp l.total (ctx.sections i).align + (ctx.sections i).shSize < 2 ^ 64
      ∧ l' = ⟨alignUp l.total (ctx.sections i).align + (ctx.sections i).shSize,
        max l.maxAlign (ctx.sections i).align,
        Function.update l.sectionOffsets i (alignUp l.total (ctx.sections i).align)⟩ := by
  unfold layoutStep at h
  simp only [halloc, Bool.not_true, Bool.false_eq_true, if_false] at h
  split at h
  · cases h
  rename_i halign
  rw [Bool.or_eq_true, not_or, Bool.not_eq_true', Bool.not_eq_false, decide_eq_true_eq,
    isPowerOfTwo_iff] at halign
  obtain ⟨⟨k, hk⟩, hpage⟩ := halign
  have hpow : 2 ^ k ≤ 2 ^ 12 := by
    rw [← hk]
    exact Nat.le_of_not_lt hpage
  have hle : k ≤ 12 := (Nat.pow_le_pow_iff_right (by omega)).mp hpow
  split at h
  · cases h
  split at h
  · cases h
  · rename_i sum hsum
    obtain ⟨rfl, hlt⟩ := u64AddOk_some (alignUp_lt hl _) (shSize_lt ctx i) hsum
    refine ⟨⟨k, hle, hk⟩, hlt, ?_⟩
    rw [← Option.some.inj h]
    have hmax : (if (ctx.sections i).align > l.maxAlign then (ctx.sections i).align
        else l.maxAlign) = max l.maxAlign (ctx.sections i).align := by
      split
      · rename_i hgt
        exact (Nat.max_eq_right (Nat.le_of_lt hgt)).symm
      · rename_i hle
        exact (Nat.max_eq_left (Nat.le_of_not_lt hle)).symm
    rw [hmax]

-- ==== the two cases

/-- A section with bytes has got offset 0. -/
def AtZero (ctx : ElfContext) (l : SectionLayout) (i : Nat) : Prop :=
  (ctx.sections i).alloc = true ∧ (ctx.sections i).shSize ≠ 0 ∧ l.sectionOffsets i = 0

/-- The first `n` sections are one behind the other. -/
structure Exact (ctx : ElfContext) (n : Nat) (l : SectionLayout) : Prop where
  total : l.total = (items ctx).ends n
  offset : ∀ i < n, (ctx.sections i).alloc = true → l.sectionOffsets i = (items ctx).start i
  first : l.total ≠ 0 → ∃ i < n, AtZero ctx l i

/-- Two of them are at 0, or one is and the sum has come back to it. -/
structure Restarted (ctx : ElfContext) (n : Nat) (l : SectionLayout) : Prop where
  twice : ∃ i < n, AtZero ctx l i ∧ (l.total ≠ 0 → ∃ j < n, j ≠ i ∧ AtZero ctx l j)
  long : 2 ^ 64 ≤ (items ctx).ends n + (items ctx).maxAlign n - 1

/-- What holds in both. -/
structure Summed (ctx : ElfContext) (n : Nat) (l : SectionLayout) : Prop where
  total : l.total < 2 ^ 64
  maxAlign : l.maxAlign = (items ctx).maxAlign n
  align : ∀ i < n, (ctx.sections i).alloc = true → GoodAlign ctx i

/-- The offsets of the sections before this one stay. -/
theorem AtZero.update {o : Nat} {t m : Nat} (h : AtZero ctx l i) (hi : i < n) :
    AtZero ctx ⟨t, m, Function.update l.sectionOffsets n o⟩ i :=
  ⟨h.1, h.2.1, (Function.update_of_ne (Nat.ne_of_lt hi) _ _).trans h.2.2⟩

/-- A section that starts at 0, the first one with bytes or after a wrap. -/
theorem atZero_last {t m : Nat} (halloc : (ctx.sections n).alloc = true)
    (hsize : (ctx.sections n).shSize ≠ 0) :
    AtZero ctx ⟨t, m, Function.update l.sectionOffsets n 0⟩ n :=
  ⟨halloc, hsize, Function.update_self n 0 _⟩

theorem align_pos (ctx : ElfContext) (i : Nat) : 0 < (ctx.sections i).align := by
  unfold Shdr.align
  split
  · rename_i hne
    exact Nat.pos_of_ne_zero hne
  · exact Nat.one_pos

theorem items_pos (ctx : ElfContext) :
    ∀ i, (items ctx).takes i = true → 0 < (items ctx).align i := by
  intro i _
  rw [items_align]
  exact align_pos ctx i

theorem ends_le_succ (ctx : ElfContext) (n : Nat) :
    (items ctx).ends n ≤ (items ctx).ends (n + 1) :=
  Layout.Items.ends_mono (items_pos ctx) (Nat.le_succ n)

/-- From 0 on every alignment is 0. -/
theorem alignUp_zero (hk : k < 64) : alignUp 0 (2 ^ k) = 0 := by
  have hlt : 2 ^ k < 2 ^ 64 := Nat.pow_lt_pow_right (by omega) hk
  rw [alignUp_of_lt hk (by omega), Masks.up_zero]

theorem Summed.step (h : Summed ctx n l) (hl : layoutStep ctx l n = some l') :
    Summed ctx (n + 1) l' := by
  cases halloc : (ctx.sections n).alloc with
  | false =>
      rw [layoutStep_skips halloc] at hl
      cases hl
      refine ⟨h.total, ?_, ?_⟩
      · rw [h.maxAlign, Layout.Items.maxAlign_succ_of_not ((items_takes ctx n).trans halloc)]
      · intro i hi hi'
        by_cases hlast : i = n
        · rw [hlast, halloc] at hi'
          cases hi'
        · exact h.align i (by omega) hi'
  | true =>
      obtain ⟨halign, hlt, rfl⟩ := layoutStep_takes halloc h.total hl
      refine ⟨hlt, ?_, ?_⟩
      · rw [Layout.Items.maxAlign_succ_of_takes ((items_takes ctx n).trans halloc), ← h.maxAlign,
          items_align]
      · intro i hi hi'
        by_cases hlast : i = n
        · rw [hlast]
          exact halign
        · exact h.align i (by omega) hi'

theorem layoutUpto_summed (h : layoutUpto ctx n = some l) : Summed ctx n l := by
  induction n generalizing l with
  | zero =>
      cases h
      exact ⟨Nat.two_pow_pos 64, rfl, fun i hi => absurd hi (Nat.not_lt_zero i)⟩
  | succ n ih =>
      unfold layoutUpto at h
      split at h
      · cases h
      · rename_i l₀ hl₀
        exact (ih hl₀).step h

/-- One more section behind the others, unless the rounding wraps. -/
theorem Exact.step (h : Exact ctx n l) (hs : Summed ctx n l) (hl : layoutStep ctx l n = some l') :
    Exact ctx (n + 1) l' ∨ Restarted ctx (n + 1) l' := by
  cases halloc : (ctx.sections n).alloc with
  | false =>
      rw [layoutStep_skips halloc] at hl
      cases hl
      left
      refine ⟨?_, ?_, ?_⟩
      · rw [h.total, Layout.Items.ends_succ_of_not ((items_takes ctx n).trans halloc)]
      · intro i hi hi'
        by_cases hlast : i = n
        · rw [hlast, halloc] at hi'
          cases hi'
        · exact h.offset i (by omega) hi'
      · intro hne
        obtain ⟨i, hi, hzero⟩ := h.first hne
        exact ⟨i, by omega, hzero⟩
  | true =>
      obtain ⟨⟨k, hk, halign⟩, hlt, rfl⟩ := layoutStep_takes halloc hs.total hl
      rw [halign] at hlt ⊢
      by_cases hwrap : l.total + 2 ^ k - 1 < 2 ^ 64
      · left
        have hstart : alignUp l.total (2 ^ k) = (items ctx).start n := by
          rw [alignUp_of_lt (by omega) hwrap, h.total, ← halign, ← items_align]
          rfl
        refine ⟨?_, ?_, ?_⟩
        · rw [Layout.Items.ends_succ_of_takes ((items_takes ctx n).trans halloc), hstart,
            items_size]
        · intro i hi hi'
          by_cases hlast : i = n
          · rw [hlast]
            exact (Function.update_self n _ _).trans hstart
          · exact (Function.update_of_ne hlast _ _).trans (h.offset i (by omega) hi')
        · intro hne
          by_cases h0 : l.total = 0
          · -- this is the first section with bytes
            rw [h0, alignUp_zero (by omega)] at hne ⊢
            exact ⟨n, Nat.lt_succ_self n, atZero_last halloc (by simpa using hne)⟩
          · obtain ⟨i, hi, hzero⟩ := h.first h0
            exact ⟨i, by omega, hzero.update hi⟩
      · right
        have hpow : 2 ^ k ≤ 2 ^ 12 := Nat.pow_le_pow_right (by omega) hk
        obtain ⟨i, hi, hzero⟩ := h.first (by omega)
        rw [alignUp_wrapped hs.total (by omega) (by omega)]
        refine ⟨⟨i, by omega, hzero.update hi, fun hne => ?_⟩, ?_⟩
        · exact ⟨n, Nat.lt_succ_self n, by omega, atZero_last halloc (by simpa using hne)⟩
        · have hends := ends_le_succ ctx n
          have hmax : (items ctx).align n ≤ (items ctx).maxAlign (n + 1) :=
            Layout.Items.align_le ((items_takes ctx n).trans halloc) (Nat.lt_succ_self n)
          rw [items_align, halign] at hmax
          have htotal := h.total
          omega

/-- Two sections at 0 stay at 0. -/
theorem Restarted.step (h : Restarted ctx n l) (hs : Summed ctx n l)
    (hl : layoutStep ctx l n = some l') : Restarted ctx (n + 1) l' := by
  have hlong : 2 ^ 64 ≤ (items ctx).ends (n + 1) + (items ctx).maxAlign (n + 1) - 1 := by
    have hends := ends_le_succ ctx n
    have hmax := (items ctx).maxAlign_le_succ n
    have hold := h.long
    omega
  obtain ⟨i, hi, hzero, htwice⟩ := h.twice
  refine ⟨?_, hlong⟩
  cases halloc : (ctx.sections n).alloc with
  | false =>
      rw [layoutStep_skips halloc] at hl
      cases hl
      refine ⟨i, by omega, hzero, fun hne => ?_⟩
      obtain ⟨j, hj, hother⟩ := htwice hne
      exact ⟨j, by omega, hother⟩
  | true =>
      obtain ⟨⟨k, hk, halign⟩, -, rfl⟩ := layoutStep_takes halloc hs.total hl
      rw [halign]
      refine ⟨i, by omega, hzero.update hi, fun hne => ?_⟩
      by_cases h0 : l.total = 0
      · rw [h0, alignUp_zero (by omega)] at hne ⊢
        exact ⟨n, Nat.lt_succ_self n, by omega, atZero_last halloc (by simpa using hne)⟩
      · obtain ⟨j, hj, hother, hat⟩ := htwice h0
        exact ⟨j, by omega, hother, hat.update hj⟩

theorem layoutUpto_cases (h : layoutUpto ctx n = some l) :
    Exact ctx n l ∨ Restarted ctx n l := by
  induction n generalizing l with
  | zero =>
      cases h
      exact Or.inl ⟨rfl, fun i hi => absurd hi (Nat.not_lt_zero i), fun hne => absurd rfl hne⟩
  | succ n ih =>
      unfold layoutUpto at h
      split at h
      · cases h
      · rename_i l₀ hl₀
        cases ih hl₀ with
        | inl he => exact he.step (layoutUpto_summed hl₀) h
        | inr hr => exact Or.inr (hr.step (layoutUpto_summed hl₀) h)

/-- The largest alignment is a power of two, and at most a page. -/
theorem Summed.maxAlign_pow (h : Summed ctx n l) : ∃ k, k ≤ 12 ∧ l.maxAlign = 2 ^ k := by
  have hgood : ∀ i, i < n → (items ctx).takes i = true →
      ∃ k, k ≤ 12 ∧ (items ctx).align i = 2 ^ k := by
    intro i hi htakes
    rw [items_align]
    exact h.align i hi htakes
  obtain ⟨k, hk⟩ := Layout.Items.maxAlign_pow fun i hi htakes => by
    obtain ⟨k, -, hk⟩ := hgood i hi htakes
    exact ⟨k, hk⟩
  have hle : (items ctx).maxAlign n ≤ 2 ^ 12 := Layout.Items.maxAlign_le (Nat.two_pow_pos 12)
    fun i hi htakes => by
      obtain ⟨k, hle, hk⟩ := hgood i hi htakes
      rw [hk]
      exact Nat.pow_le_pow_right (by omega) hle
  rw [hk] at hle
  exact ⟨k, (Nat.pow_le_pow_iff_right (by omega)).mp hle, h.maxAlign.trans hk⟩

/-- And what is aligned to it is aligned to each. -/
theorem Summed.align_dvd (h : Summed ctx n l) (hi : i < n)
    (halloc : (ctx.sections i).alloc = true) : (ctx.sections i).align ∣ l.maxAlign := by
  rw [h.maxAlign, ← items_align]
  refine Layout.Items.align_dvd (fun j hj htakes => ?_) ((items_takes ctx i).trans halloc) hi
  rw [items_align]
  obtain ⟨k, -, hk⟩ := h.align j hj htakes
  exact ⟨k, hk⟩

/-- Sizes that do not come to `2^64` are laid out as they should be. -/
theorem layoutUpto_exact (h : layoutUpto ctx n = some l)
    (hfit : (items ctx).ends n + (items ctx).maxAlign n - 1 < 2 ^ 64) : Exact ctx n l := by
  cases layoutUpto_cases h with
  | inl he => exact he
  | inr hr => exact absurd hr.long (Nat.not_le.mpr hfit)

end Alix.Elf
