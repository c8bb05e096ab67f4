/-
What `sdi_elf_prepare_sections` makes of the sections.

# What can go wrong

Two sums are not checked. `sdi_elf_align_up` comes to 0 close to `2^64`,
and then two sections are put on top of each other; and
`total + max_align - 1` wraps, or reaches the sizes for which `kmalloc`
gives back a single page, and then the module is not inside its block. A
section without bytes in the file may have any size, so an image of a few
hundred bytes gets there (`prepareSections_overlap`).

# What holds

Otherwise it is as it should be (`prepareSections_iff`). The second loop
writes the bytes of one section after the other, which are apart
(`Placing.step`); the zeros are from `memset`, and the mapping in between
writes to tables only.
-/
import Alix.Mm.Proofs.Direct
import Alix.Sdi.Proofs.Owned
import Alix.Sdi.Proofs.SectionLayout

namespace Alix.Elf

open Bytes (Memory fill copy)
open Dyadic (Block)

-- ==== the statement

/-- `kmalloc(n)` returns the block of the module, and the heap is `u`. -/
def ModuleBlock (s : Kheap) (c : ElfContext) (u : Kheap) (block n : Nat) : Prop :=
  ∃ s₁ s₂ p₁ p₂ l, s.kzalloc (8 * c.shnum) = .ok (s₁, p₁) ∧ s₁.kzalloc (8 * c.shnum) = .ok (s₂, p₂)
    ∧ layoutUpto c c.shnum = some l ∧ n = moduleBytes l ∧ s₂.kmalloc n = .ok (u, block)

/-- The bytes of a section: zeros, or those of the image. -/
def SectionBytes (c : ElfContext) (m : Memory) (base i : Nat) : Prop :=
  if (c.sections i).shType = SHT_NOBITS then ∀ k < (c.sections i).shSize, m (base + k) = 0
  else (c.sections i).shOffset + (c.sections i).shSize ≤ c.imageSize
    ∧ ∀ k < (c.sections i).shSize, m (base + k) = c.image ((c.sections i).shOffset + k)

/-- The module is in its block, the sections are in the module, aligned and
apart, and have their bytes. -/
structure Prepared (s t : Kheap) (c ctx : ElfContext) : Prop where
  block : ∃ u block n, ModuleBlock s c u block n ∧ n ≤ u.room block ∧ block ≤ ctx.moduleBase
    ∧ ctx.moduleBase + ctx.moduleSize ≤ block + n
  inside : ∀ i < c.shnum, (c.sections i).alloc = true → ctx.moduleBase ≤ ctx.sectionBases i
    ∧ ctx.sectionBases i + (c.sections i).shSize ≤ ctx.moduleBase + ctx.moduleSize
  aligned : ∀ i < c.shnum, (c.sections i).alloc = true →
    (c.sections i).align ∣ ctx.sectionBases i
  apart : ∀ i < c.shnum, ∀ j < c.shnum, (c.sections i).alloc = true →
    (c.sections j).alloc = true → i ≠ j → (c.sections i).shSize ≠ 0 → (c.sections j).shSize ≠ 0 →
    ctx.sectionBases i + (c.sections i).shSize ≤ ctx.sectionBases j
      ∨ ctx.sectionBases j + (c.sections j).shSize ≤ ctx.sectionBases i
  bytes : ∀ i < c.shnum, (c.sections i).alloc = true →
    SectionBytes c t.mem (ctx.sectionBases i) i

/-- Laid out one behind the other, with room to align the first, the
sections come to a size that `kmalloc` can add a header to. -/
def ModuleFits (c : ElfContext) : Prop :=
  (items c).ends c.shnum + (items c).maxAlign c.shnum - 1 < 2 ^ 64 - 24

-- ==== the placement

section placing

variable {d : ElfContext} {m : Memory} {n : Nat} {r : Kheap × ElfContext}

/-- `section_bases[i]`, as it is computed. -/
def baseOf (d : ElfContext) (i : Nat) : Nat := (d.moduleBase + d.sectionOffsets i) % 2 ^ 64

/-- The section is copied from the image. -/
def Copied (d : ElfContext) (i : Nat) : Prop :=
  (d.sections i).alloc = true ∧ (d.sections i).shType ≠ SHT_NOBITS

/-- The byte is one of the section's. -/
def InSection (d : ElfContext) (i a : Nat) : Prop :=
  baseOf d i ≤ a ∧ a < baseOf d i + (d.sections i).shSize

/-- The first `n` sections have been placed, from memory `m`. -/
structure Placing (d : ElfContext) (m : Memory) (n : Nat) (r : Kheap × ElfContext) : Prop where
  same : r.2 = { d with sectionBases := r.2.sectionBases }
  base : ∀ i < n, (d.sections i).alloc = true → r.2.sectionBases i = baseOf d i
  others : ∀ i, ¬ (i < n ∧ (d.sections i).alloc = true) → r.2.sectionBases i = d.sectionBases i
  outside : ∀ a, (∀ i < n, Copied d i → ¬ InSection d i a) → r.1.mem a = m a
  inside : ∀ i < n, Copied d i → (∀ j < n, Copied d j → i ≠ j → ∀ a, InSection d i a →
    ¬ InSection d j a) → ∀ k < (d.sections i).shSize,
      r.1.mem (baseOf d i + k) = d.image ((d.sections i).shOffset + k)

theorem Placing.sections (h : Placing d m n r) (i : Nat) : r.2.sections i = d.sections i := by
  rw [h.same]
  rfl

/-- What a round does with a section that is loaded. -/
theorem Placing.takes (h : Placing d m n r) (halloc : (d.sections n).alloc = true) :
    ∃ m', Kheap.placeSection r n = ({ r.1 with mem := m' },
        { r.2 with sectionBases := Function.update r.2.sectionBases n (baseOf d n) })
      ∧ (Copied d n → m' = copy r.1.mem (baseOf d n) d.image (d.sections n).shOffset
        (d.sections n).shSize)
      ∧ (¬ Copied d n → m' = r.1.mem) := by
  have hbase : (r.2.moduleBase + r.2.sectionOffsets n) % 2 ^ 64 = baseOf d n := by
    rw [h.same]
    rfl
  have himage : r.2.image = d.image := by rw [h.same]
  unfold Kheap.placeSection
  simp only [h.sections, halloc, Bool.not_true, Bool.false_eq_true, if_false, hbase, himage]
  by_cases htype : (d.sections n).shType = SHT_NOBITS
  · refine ⟨r.1.mem, ?_, fun hcopied => absurd htype hcopied.2, fun _ => rfl⟩
    rw [if_neg fun hboth => hboth.1 htype]
  · have hcopied : Copied d n := ⟨halloc, htype⟩
    by_cases hsize : (d.sections n).shSize = 0
    · refine ⟨r.1.mem, ?_, fun _ => ?_, fun hnot => absurd hcopied hnot⟩
      · rw [if_neg fun hboth => hboth.2 hsize]
      · funext a
        rw [hsize, Bytes.copy_outside (by omega)]
    · exact ⟨_, if_pos ⟨htype, hsize⟩, fun _ => rfl, fun hnot => absurd hcopied hnot⟩

/-- A section is skipped, or placed behind the others. -/
theorem Placing.step (h : Placing d m n r) : Placing d m (n + 1) (Kheap.placeSection r n) := by
  cases halloc : (d.sections n).alloc with
  | false =>
      have hskip : Kheap.placeSection r n = r := by
        unfold Kheap.placeSection
        simp only [h.sections, halloc, Bool.not_false, if_true]
      have hnot : ¬ Copied d n := fun hcopied => by
        rw [hcopied.1] at halloc
        cases halloc
      have hlt : ∀ i < n + 1, (d.sections i).alloc = true → i < n := by
        intro i hi hi'
        by_contra hle
        obtain rfl : i = n := by omega
        rw [hi'] at halloc
        cases halloc
      rw [hskip]
      exact ⟨h.same, fun i hi hi' => h.base i (hlt i hi hi') hi',
        fun i hi => h.others i fun hin => hi ⟨by omega, hin.2⟩,
        fun a ha => h.outside a fun i hi => ha i (by omega),
        fun i hi hcopied hapart => h.inside i (hlt i hi hcopied.1) hcopied
          fun j hj => hapart j (by omega)⟩
  | true =>
      obtain ⟨m', hstep, hcopy, hkeep⟩ := h.takes halloc
      -- outside of the section nothing changes
      have hout : ∀ a, (Copied d n → ¬ InSection d n a) → m' a = r.1.mem a := by
        intro a ha
        by_cases hcopied : Copied d n
        · rw [hcopy hcopied]
          exact Bytes.copy_outside (ha hcopied)
        · rw [hkeep hcopied]
      rw [hstep]
      refine ⟨?_, ?_, ?_, ?_, ?_⟩
      · dsimp only
        rw [h.same]
      · intro i hi hi'
        by_cases hlast : i = n
        · rw [hlast]
          exact Function.update_self n _ _
        · exact (Function.update_of_ne hlast _ _).trans (h.base i (by omega) hi')
      · intro i hi
        have hne : i ≠ n := fun he => hi ⟨by omega, by rw [he]; exact halloc⟩
        exact (Function.update_of_ne hne _ _).trans (h.others i fun hin => hi ⟨by omega, hin.2⟩)
      · intro a ha
        exact (hout a (ha n (Nat.lt_succ_self n))).trans
          (h.outside a fun i hi => ha i (by omega))
      · intro i hi hcopied hapart k hk
        by_cases hlast : i = n
        · subst hlast
          show m' (baseOf d i + k) = _
          rw [hcopy hcopied, Bytes.copy_inside (by omega) (by omega), Nat.add_sub_cancel_left]
        · have hin : InSection d i (baseOf d i + k) := ⟨by omega, by omega⟩
          refine (hout _ fun hlastCopied => ?_).trans
            (h.inside i (by omega) hcopied (fun j hj => hapart j (by omega)) k hk)
          exact hapart n (Nat.lt_succ_self n) hlastCopied hlast _ hin

/-- The second loop. -/
theorem placing (s : Kheap) (d : ElfContext) (n : Nat) :
    Placing d s.mem n ((List.range n).foldl Kheap.placeSection (s, d)) := by
  induction n with
  | zero =>
      exact ⟨rfl, fun i hi => absurd hi (Nat.not_lt_zero i), fun _ _ => rfl, fun _ _ => rfl,
        fun i hi => absurd hi (Nat.not_lt_zero i)⟩
  | succ n ih =>
      rw [List.range_succ, List.foldl_append]
      exact ih.step

end placing

-- ==== the calls

variable {maxPfn : Nat} {usable : Nat → Bool} {s s₁ s₂ t u : Kheap} {live : List (Nat × Nat)}
  {others : List Block} {pml4 : Option Nat} {c ctx : ElfContext} {l : SectionLayout}
  {block p₁ p₂ : Nat}

/-- The context that the second half starts with. -/
def ElfContext.placed (c : ElfContext) (l : SectionLayout) (block : Nat) : ElfContext :=
  ⟨c.image, c.imageSize, c.shoff, fun _ => 0, l.sectionOffsets, block, l.total⟩

/-- The context of the second loop, with the module at `base`. -/
def ElfContext.loaded (c : ElfContext) (l : SectionLayout) (block base : Nat) : ElfContext :=
  { c.placed l block with moduleBase := base }

/-- A call that returns 0 has come to its end. -/
structure Returned (s t : Kheap) (pml4 : Option Nat) (c ctx : ElfContext) (s₁ s₂ u : Kheap)
    (p₁ p₂ block : Nat) (l : SectionLayout) : Prop where
  bases : s.kzalloc (8 * c.shnum) = .ok (s₁, p₁)
  offsets : s₁.kzalloc (8 * c.shnum) = .ok (s₂, p₂)
  tables : p₁ ≠ 0 ∧ p₂ ≠ 0
  layout : layoutUpto c c.shnum = some l
  total : l.total ≠ 0
  call : s₂.kmalloc (moduleBytes l) = .ok (u, block)
  nonnull : block ≠ 0
  filled : u.fillModule pml4 (c.placed l block) l.maxAlign = (t, ctx, 0)

/-- If it returns 0, every allocation has succeeded. -/
theorem prepareSections_zero (h : s.prepareSections pml4 c = .ok (t, ctx, 0)) :
    ∃ s₁ s₂ u p₁ p₂ block l, Returned s t pml4 c ctx s₁ s₂ u p₁ p₂ block l := by
  unfold Kheap.prepareSections Kheap.reserveModule at h
  cases hk₁ : s.kzalloc (8 * c.shnum) with
  | error e =>
      rw [hk₁] at h
      cases h
  | ok r₁ =>
  obtain ⟨s₁, p₁⟩ := r₁
  rw [hk₁] at h
  dsimp only at h
  cases hk₂ : s₁.kzalloc (8 * c.shnum) with
  | error e =>
      rw [hk₂] at h
      cases h
  | ok r₂ =>
  obtain ⟨s₂, p₂⟩ := r₂
  rw [hk₂] at h
  dsimp only at h
  by_cases hnull : p₁ = 0 ∨ p₂ = 0
  · rw [if_pos hnull] at h
    cases h
  rw [if_neg hnull] at h
  cases hl : layoutUpto c c.shnum with
  | none =>
      rw [hl] at h
      cases h
  | some l =>
  rw [hl] at h
  dsimp only at h
  by_cases htotal : l.total = 0
  · rw [if_pos htotal] at h
    cases h
  rw [if_neg htotal] at h
  cases hk₃ : s₂.kmalloc ((l.total + l.maxAlign - 1) % 2 ^ 64) with
  | error e =>
      rw [hk₃] at h
      cases h
  | ok r₃ =>
  obtain ⟨u, block⟩ := r₃
  rw [hk₃] at h
  dsimp only at h
  by_cases hblock : block = 0
  · rw [if_pos hblock] at h
    cases h
  rw [if_neg hblock] at h
  dsimp only at h
  exact ⟨s₁, s₂, u, p₁, p₂, block, l, hk₁, hk₂, not_or.mp hnull, hl, htotal, hk₃, hblock, Except.ok.inj h⟩

/-- The second half: `memset`, the mapping, and the sections. -/
theorem fillModule_zero {d : ElfContext} {maxAlign : Nat}
    (h : u.fillModule pml4 d maxAlign = (t, ctx, 0)) : ∃ size v rc,
      Kheap.pagingMapRange
          { u with mem := fill u.mem (alignUp d.moduleBase maxAlign) d.moduleSize 0 } pml4
          (pageAlignDown (alignUp d.moduleBase maxAlign))
          (pageAlignDown (alignUp d.moduleBase maxAlign) - u.hhdm) size
          (Paging.PAGE_PRESENT ||| Paging.PAGE_WRITE ||| Paging.PAGE_GLOBAL) = (v, rc)
        ∧ Placing { d with moduleBase := alignUp d.moduleBase maxAlign } v.mem d.shnum (t, ctx) := by
  unfold Kheap.fillModule at h
  dsimp only at h
  generalize hmap : Kheap.pagingMapRange _ pml4 _ _ _ _ = r at h
  obtain ⟨v, rc⟩ := r
  dsimp only at h
  split at h
  · cases congrArg (fun x => x.2.2) h
  · refine ⟨_, v, rc, hmap, ?_⟩
    have hplaced := placing v { d with moduleBase := alignUp d.moduleBase maxAlign } d.shnum
    have hfold := congrArg (fun x => (x.1, x.2.1)) h
    dsimp only at hfold
    rw [← hfold]
    exact hplaced

open Kheap (Run Spares KernelTables)

theorem moduleBytes_lt (l : SectionLayout) : moduleBytes l < 2 ^ 64 := Nat.mod_lt _ (by omega)

/-- What is live stays live with its bytes, and the tables of the kernel are
left alone. -/
structure Calls (maxPfn : Nat) (usable : Nat → Bool) (s : Kheap) (live : List (Nat × Nat))
    (others : List Block) (u : Kheap) (live' : List (Nat × Nat)) : Prop where
  run : Run maxPfn usable u live' others
  hhdm : u.hhdm = s.hhdm
  stay : ∀ x ∈ live, x ∈ live'
  bytes : Kheap.SameBytes live s.mem u.mem
  kernel : ∀ k level, KernelTables maxPfn usable s others k level →
    KernelTables maxPfn usable u others k level

theorem Calls.trans {live₂ live₃ : List (Nat × Nat)}
    (h : Calls maxPfn usable s live others s₂ live₂)
    (h' : Calls maxPfn usable s₂ live₂ others u live₃) : Calls maxPfn usable s live others u live₃ :=
  ⟨h'.run, h'.hhdm.trans h.hhdm, fun x hx => h'.stay x (h.stay x hx),
    fun y n hy a h1 h2 => (h'.bytes y n (h.stay _ hy) a h1 h2).trans (h.bytes y n hy a h1 h2),
    fun k level hk => h'.kernel k level (h.kernel k level hk)⟩

theorem calls_of_spares {live' : List (Nat × Nat)} (hrun : Run maxPfn usable u live' others)
    (hs : Spares maxPfn usable s live others u) (hlive : ∀ x ∈ live, x ∈ live') :
    Calls maxPfn usable s live others u live' :=
  ⟨hrun, hs.hhdm, hlive, hs.bytes, fun _ _ hk => hk.spares hs⟩

/-- A call for a table. -/
theorem kzalloc_calls {n p : Nat} (hrun : Run maxPfn usable s live others)
    (hn : n < 2 ^ 64 - 24) (hk : s.kzalloc n = .ok (s₁, p)) (hp : p ≠ 0) :
    Calls maxPfn usable s live others s₁ ((p, n) :: live) := by
  have hcall : s.heapCall (.kzalloc n) = .ok (s₁, p) := hk
  have hrun' := hrun.call (k := .kzalloc n) hn hcall
  have hafter : Kheap.HeapCall.after live p (.kzalloc n) = (p, n) :: live := if_neg hp
  rw [hafter] at hrun'
  exact calls_of_spares hrun' (hrun.kept.kzalloc_spares hn hk) fun _ => List.mem_cons_of_mem _

/-- The two tables are allocated. -/
theorem Returned.run (h : Returned s t pml4 c ctx s₁ s₂ u p₁ p₂ block l)
    (hrun : Run maxPfn usable s live others) :
    Calls maxPfn usable s live others s₂
      ((p₂, 8 * c.shnum) :: (p₁, 8 * c.shnum) :: live) := by
  have hle : 8 * c.shnum ≤ 8 * 65535 := tableBytes_le c.image
  have hfirst := kzalloc_calls hrun (by omega) h.bases h.tables.1
  exact hfirst.trans (kzalloc_calls hfirst.run (by omega) h.offsets h.tables.2)

/-- So is the block of the module, of a size that a header can be added
to. -/
theorem Returned.module (h : Returned s t pml4 c ctx s₁ s₂ u p₁ p₂ block l)
    (hrun : Run maxPfn usable s₂ live others) (hn : moduleBytes l < 2 ^ 64 - 24) :
    Calls maxPfn usable s₂ live others u ((block, moduleBytes l) :: live) := by
  have hcall : s₂.heapCall (.kmalloc (moduleBytes l)) = .ok (u, block) := h.call
  have hrun' := hrun.call (k := .kmalloc (moduleBytes l)) hn hcall
  have hafter : Kheap.HeapCall.after live block (.kmalloc (moduleBytes l))
      = (block, moduleBytes l) :: live := if_neg h.nonnull
  rw [hafter] at hrun'
  obtain ⟨⟨G, ref, hinv⟩, -⟩ := hrun.kept
  exact calls_of_spares hrun' (hinv.kmalloc_spares h.call) fun _ => List.mem_cons_of_mem _

/-- A live allocation ends below the end of the direct map. -/
theorem live_end {x n : Nat} (hrun : Run maxPfn usable u live others) (hx : (x, n) ∈ live)
    (hn : n ≠ 0) : x + n ≤ Kheap.pageAt u.hhdm (maxPfn + 1) := by
  obtain ⟨⟨G, ref, hinv⟩, -⟩ := hrun.kept
  obtain ⟨q, r, p, hq, hp, -, hlt⟩ := hinv.live_page hx (a := x + n - 1) (by omega) (by omega)
  obtain ⟨hle, -⟩ := hinv.low hq hp
  unfold Kheap.pageAt at hlt ⊢
  omega

/-- Where the module is: aligned, and in its block. -/
structure Seated (block base total maxAlign n : Nat) : Prop where
  low : block ≤ base
  high : base + total ≤ block + n
  aligned : maxAlign ∣ base
  top : block + n < 2 ^ 64

theorem seated {k total n : Nat} (hk : k ≤ 12) (hn : n = total + 2 ^ k - 1)
    (htotal : total ≠ 0) (htop : block + n < 2 ^ 64) :
    Seated block (alignUp block (2 ^ k)) total (2 ^ k) n := by
  have hpos : 0 < 2 ^ k := Nat.two_pow_pos k
  have hbase : alignUp block (2 ^ k) = Masks.up block (2 ^ k) :=
    alignUp_of_lt (by omega) (by omega)
  have hlow : block ≤ Masks.up block (2 ^ k) := Masks.le_up hpos
  have hhigh : Masks.up block (2 ^ k) < block + 2 ^ k := Masks.up_lt hpos
  rw [hbase]
  exact ⟨hlow, by omega, Masks.dvd_up _ _, htop⟩

/-- What `memset` has cleared is still clear after the mapping. -/
theorem Returned.cleared (h : Returned s t pml4 c ctx s₁ s₂ u p₁ p₂ block l)
    (hrun : Run maxPfn usable u ((block, moduleBytes l) :: live) others) (hmax : maxPfn < 2 ^ 40)
    (hk : ∀ k, pml4 = some k → ∃ level, KernelTables maxPfn usable u others k level)
    (hseat : Seated block (alignUp block l.maxAlign) l.total l.maxAlign (moduleBytes l)) :
    ∃ m, Placing (c.loaded l block (alignUp block l.maxAlign)) m c.shnum (t, ctx)
      ∧ (∀ a, alignUp block l.maxAlign ≤ a → a < alignUp block l.maxAlign + l.total → m a = 0)
      ∧ Kheap.SameBytes live u.mem m := by
  obtain ⟨size, v, rc, hmap, hplaced⟩ := fillModule_zero h.filled
  obtain ⟨⟨G, ref, hinv⟩, -⟩ := hrun.kept
  have hbase : alignUp block l.maxAlign < 2 ^ 64 := by
    have hlow := hseat.high
    have htop := hseat.top
    omega
  have hfill : ∀ a, fill u.mem (alignUp block l.maxAlign) l.total 0 a ≠ u.mem a →
      block ≤ a ∧ a < block + moduleBytes l := by
    intro a ha
    have hin := Bytes.fill_changed ha
    have hlow := hseat.low
    have hhigh := hseat.high
    omega
  have hinv' := hinv.write_live (hinv.backed block _ List.mem_cons_self) hfill
  -- `memset` writes to the block, and no table is in it
  have hspares : Spares maxPfn usable u live others
      { u with mem := fill u.mem (alignUp block l.maxAlign) l.total 0 } := by
    refine ⟨rfl, fun a ha => ?_⟩
    by_contra hne
    exact hinv.spared_new ha (hfill a hne)
  have hfirst : pageAlignDown (alignUp block l.maxAlign) ≤ alignUp block l.maxAlign :=
    pageAlignDown_le _
  have hbytes := hinv'.pagingMapRange_bytes hmax
    (fun k hpml => by
      obtain ⟨level, hk⟩ := hk k hpml
      exact ⟨level, hk.spares hspares⟩)
    (pageAlignDown (alignUp block l.maxAlign)) (pageAlignDown (alignUp block l.maxAlign) - u.hhdm)
    size (Paging.PAGE_PRESENT ||| Paging.PAGE_WRITE ||| Paging.PAGE_GLOBAL) (by omega) (by omega)
  have hv : ∀ y n, (y, n) ∈ (block, moduleBytes l) :: live → ∀ a, y ≤ a → a < y + n →
      v.mem a = fill u.mem (alignUp block l.maxAlign) l.total 0 a := fun y n hy a h1 h2 =>
    (congrArg (fun r : Kheap × Int => r.1.mem a) hmap).symm.trans (hbytes y n hy a h1 h2)
  refine ⟨v.mem, hplaced, fun a h1 h2 => ?_, fun y n hy a h1 h2 => ?_⟩
  · have hlow := hseat.low
    have hhigh := hseat.high
    rw [hv block _ List.mem_cons_self a (by omega) (by omega)]
    exact Bytes.fill_inside h1 h2
  · rw [hv y n (List.mem_cons_of_mem _ hy) a h1 h2]
    exact hspares.bytes y n hy a h1 h2

-- ==== the sections

section sections

variable {m : Memory} {n base : Nat}

/-- What the layout says about a section. -/
structure InModule (c : ElfContext) (l : SectionLayout) (i : Nat) : Prop where
  inside : l.sectionOffsets i + (c.sections i).shSize ≤ l.total
  aligned : (c.sections i).align ∣ l.sectionOffsets i

theorem Exact.within {i : Nat} (h : Exact c n l) (hi : i < n)
    (halloc : (c.sections i).alloc = true) : InModule c l i := by
  have htakes := (items_takes c i).trans halloc
  have hin := Layout.Items.inside (items_pos c) htakes hi
  have hdvd := (items c).align_dvd_start i
  rw [items_size, ← h.offset i hi halloc, ← h.total] at hin
  rw [items_align, ← h.offset i hi halloc] at hdvd
  exact ⟨hin, hdvd⟩

theorem Exact.apart {i j : Nat} (h : Exact c n l) (hi : i < n) (hj : j < n)
    (hi' : (c.sections i).alloc = true) (hj' : (c.sections j).alloc = true) (hne : i ≠ j) :
    l.sectionOffsets i + (c.sections i).shSize ≤ l.sectionOffsets j
      ∨ l.sectionOffsets j + (c.sections j).shSize ≤ l.sectionOffsets i := by
  have hti := (items_takes c i).trans hi'
  have htj := (items_takes c j).trans hj'
  rw [h.offset i hi hi', h.offset j hj hj', ← items_size, ← items_size]
  cases Nat.lt_or_ge i j with
  | inl hlt => exact Or.inl (Layout.Items.apart (items_pos c) hti htj hlt)
  | inr hge => exact Or.inr (Layout.Items.apart (items_pos c) htj hti (by omega))

/-- A section is at its offset in the module. -/
theorem baseOf_loaded {i : Nat} (hw : InModule c l i) (hend : base + l.total < 2 ^ 64) :
    baseOf (c.loaded l block base) i = base + l.sectionOffsets i := by
  have hin := hw.inside
  exact Nat.mod_eq_of_lt (show base + l.sectionOffsets i < 2 ^ 64 by omega)

/-- A byte of one section is none of another's. -/
theorem Exact.not_both {i j a : Nat} (h : Exact c n l) (hend : base + l.total < 2 ^ 64)
    (hi : i < n) (hj : j < n) (hi' : (c.sections i).alloc = true)
    (hj' : (c.sections j).alloc = true) (hne : i ≠ j)
    (ha : InSection (c.loaded l block base) i a) : ¬ InSection (c.loaded l block base) j a := by
  have hapart := h.apart hi hj hi' hj' hne
  have hsize : ∀ x, ((c.loaded l block base).sections x).shSize = (c.sections x).shSize :=
    fun _ => rfl
  unfold InSection at ha ⊢
  rw [baseOf_loaded (h.within hi hi') hend, hsize] at ha
  rw [baseOf_loaded (h.within hj hj') hend, hsize]
  omega

/-- The sections have their bytes. -/
theorem Exact.bytes {i : Nat} (h : Exact c c.shnum l) (hl : layoutUpto c c.shnum = some l)
    (hend : base + l.total < 2 ^ 64)
    (hplaced : Placing (c.loaded l block base) m c.shnum (t, ctx))
    (hzero : ∀ a, base ≤ a → a < base + l.total → m a = 0) (hi : i < c.shnum)
    (halloc : (c.sections i).alloc = true) : SectionBytes c t.mem (ctx.sectionBases i) i := by
  have hw := (h.within hi halloc).inside
  have hbase : baseOf (c.loaded l block base) i = base + l.sectionOffsets i :=
    baseOf_loaded (h.within hi halloc) hend
  rw [show ctx.sectionBases i = baseOf (c.loaded l block base) i from hplaced.base i hi halloc]
  unfold SectionBytes
  split
  · rename_i htype
    intro k hk
    have hin : InSection (c.loaded l block base) i (baseOf (c.loaded l block base) i + k) :=
      ⟨by omega, Nat.add_lt_add_left hk _⟩
    have hsame : t.mem (baseOf (c.loaded l block base) i + k)
        = m (baseOf (c.loaded l block base) i + k) := by
      refine hplaced.outside _ fun j hj hcopied => ?_
      refine h.not_both hend hi hj halloc hcopied.1 (fun he => hcopied.2 ?_) hin
      rw [← he]
      exact htype
    rw [hsame, hbase]
    exact hzero _ (by omega) (by omega)
  · rename_i htype
    refine ⟨layoutUpto_range hl i hi halloc htype, fun k hk => ?_⟩
    exact hplaced.inside i hi ⟨halloc, htype⟩ (fun j hj hcopied hne a ha =>
      h.not_both hend hi hj halloc hcopied.1 hne ha) k hk

/-- A layout without a wrap, in a block that has the room. -/
theorem Returned.prepared (h : Returned s t pml4 c ctx s₁ s₂ u p₁ p₂ block l)
    (hexact : Exact c c.shnum l)
    (hseat : Seated block base l.total l.maxAlign (moduleBytes l))
    (hroom : moduleBytes l ≤ u.room block)
    (hplaced : Placing (c.loaded l block base) m c.shnum (t, ctx))
    (hzero : ∀ a, base ≤ a → a < base + l.total → m a = 0) : Prepared s t c ctx := by
  have hsum := layoutUpto_summed h.layout
  have hend : base + l.total < 2 ^ 64 := Nat.lt_of_le_of_lt hseat.high hseat.top
  have hmodule : ctx.moduleBase = base ∧ ctx.moduleSize = l.total := by
    have hsame := hplaced.same
    dsimp only at hsame
    rw [hsame]
    exact ⟨rfl, rfl⟩
  have hbase : ∀ i < c.shnum, (c.sections i).alloc = true →
      ctx.sectionBases i = base + l.sectionOffsets i := fun i hi hi' =>
    (hplaced.base i hi hi').trans (baseOf_loaded (hexact.within hi hi') hend)
  refine ⟨?_, ?_, ?_, ?_, ?_⟩
  · rw [hmodule.1, hmodule.2]
    exact ⟨u, block, _, ⟨s₁, s₂, p₁, p₂, l, h.bases, h.offsets, h.layout, rfl, h.call⟩, hroom,
      hseat.low, hseat.high⟩
  · intro i hi hi'
    have hin := (hexact.within hi hi').inside
    rw [hbase i hi hi', hmodule.1, hmodule.2]
    omega
  · intro i hi hi'
    rw [hbase i hi hi']
    exact Nat.dvd_add ((hsum.align_dvd hi hi').trans hseat.aligned) (hexact.within hi hi').aligned
  · intro i hi j hj hi' hj' hne _ _
    have hapart := hexact.apart hi hj hi' hj' hne
    rw [hbase i hi hi', hbase j hj hj']
    omega
  · intro i hi hi'
    exact hexact.bytes h.layout hend hplaced hzero hi hi'

end sections

-- ==== the result

/-- Two sections with bytes at offset 0 are not apart. -/
theorem Returned.overlaps {m : Memory} {base : Nat}
    (h : Returned s t pml4 c ctx s₁ s₂ u p₁ p₂ block l) (hr : Restarted c c.shnum l)
    (hplaced : Placing (c.loaded l block base) m c.shnum (t, ctx)) : ¬ Prepared s t c ctx := by
  intro hp
  obtain ⟨i, hi, hzero, htwice⟩ := hr.twice
  obtain ⟨j, hj, hne, hother⟩ := htwice h.total
  have hbase : ∀ x < c.shnum, AtZero c l x → ctx.sectionBases x = base % 2 ^ 64 := by
    intro x hx hat
    refine (hplaced.base x hx hat.1).trans ?_
    show (base + l.sectionOffsets x) % 2 ^ 64 = _
    rw [hat.2.2, Nat.add_zero]
  have hapart := hp.apart i hi j hj hzero.1 hother.1 hne.symm hzero.2.1 hother.2.1
  rw [hbase i hi hzero, hbase j hj hother] at hapart
  have hi' := hzero.2.1
  have hj' := hother.2.1
  omega

/-- The block is the one `kmalloc` was asked for. -/
theorem Returned.block_unique (h : Returned s t pml4 c ctx s₁ s₂ u p₁ p₂ block l) {u' : Kheap}
    {block' n : Nat} (hb : ModuleBlock s c u' block' n) :
    u' = u ∧ block' = block ∧ n = moduleBytes l := by
  obtain ⟨s₁', s₂', p₁', p₂', l', hk₁, hk₂, hl, hn, hk₃⟩ := hb
  cases h.bases.symm.trans hk₁
  cases h.offsets.symm.trans hk₂
  cases h.layout.symm.trans hl
  subst hn
  cases h.call.symm.trans hk₃
  exact ⟨rfl, rfl, rfl⟩

/-- The size with the room to align does not wrap to one that `kmalloc`
can serve. -/
theorem Returned.outgrown (h : Returned s t pml4 c ctx s₁ s₂ u p₁ p₂ block l)
    (hrun : Run maxPfn usable s₂ live others) (hsize : ctx.moduleSize = l.total)
    (hbig : 2 ^ 64 - 24 ≤ l.total + l.maxAlign - 1) : ¬ Prepared s t c ctx := by
  intro hp
  obtain ⟨u', block', n, hb, hroom, hlow, hhigh⟩ := hp.block
  obtain ⟨rfl, rfl, rfl⟩ := h.block_unique hb
  have hsum := layoutUpto_summed h.layout
  obtain ⟨k, hk, hmax⟩ := hsum.maxAlign_pow
  have hpow : 2 ^ k ≤ 2 ^ 12 := Nat.pow_le_pow_right (by omega) hk
  have htotal := hsum.total
  have hn : moduleBytes l = (l.total + l.maxAlign - 1) % 2 ^ 64 := rfl
  rw [hsize] at hhigh
  by_cases hwrap : l.total + l.maxAlign - 1 < 2 ^ 64
  · -- the header wraps
    rw [Nat.mod_eq_of_lt hwrap] at hn
    obtain ⟨⟨G, ref, hinv⟩, -⟩ := hrun.kept
    cases ha : s₂.pmm.pmmAlloc 0 with
    | none =>
        have hnone := Kheap.kmalloc_wrapped_none (by omega) (moduleBytes_lt l) ha
        have hnull := h.call.symm.trans hnone
        exact h.nonnull (congrArg Prod.snd (Except.ok.inj hnull))
    | some r =>
        obtain ⟨pmm, p⟩ := r
        obtain ⟨v, x, hk', -, hle⟩ := hinv.wrapped_room (by omega) (moduleBytes_lt l) ha
        cases h.call.symm.trans hk'
        omega
  · omega

/-- Where the sections fit, their layout is exact and the module sits in its
block. -/
structure Settled (maxPfn : Nat) (usable : Nat → Bool) (s : Kheap) (live : List (Nat × Nat))
    (others : List Block) (c : ElfContext) (u : Kheap) (p₁ p₂ block : Nat) (l : SectionLayout) :
    Prop where
  exact : Exact c c.shnum l
  calls : Calls maxPfn usable s live others u
    ((block, moduleBytes l) :: (p₂, 8 * c.shnum) :: (p₁, 8 * c.shnum) :: live)
  seated : Seated block (alignUp block l.maxAlign) l.total l.maxAlign (moduleBytes l)

theorem Returned.settled (h : Returned s t pml4 c ctx s₁ s₂ u p₁ p₂ block l)
    (hrun : Run maxPfn usable s live others) (htop : Kheap.pageAt s.hhdm (maxPfn + 1) < 2 ^ 64)
    (hfit : ModuleFits c) : Settled maxPfn usable s live others c u p₁ p₂ block l := by
  have hsum := layoutUpto_summed h.layout
  unfold ModuleFits at hfit
  have hexact := layoutUpto_exact h.layout (by omega)
  rw [← hexact.total, ← hsum.maxAlign] at hfit
  have hn : moduleBytes l = l.total + l.maxAlign - 1 := Nat.mod_eq_of_lt (by omega)
  have htables := h.run hrun
  have hcalls := htables.trans (h.module htables.run (by omega))
  obtain ⟨k, hle, hpow⟩ := hsum.maxAlign_pow
  have hpos : 0 < 2 ^ k := Nat.two_pow_pos k
  have htotal := h.total
  have hend := live_end hcalls.run List.mem_cons_self (by omega)
  rw [hcalls.hhdm] at hend
  refine ⟨hexact, hcalls, ?_⟩
  rw [hpow] at hn ⊢
  exact seated hle hn htotal (by omega)

/-- The sections are as they should be after a call that returns 0 if and
only if their sizes, laid out one behind the other, fit. -/
theorem prepareSections_iff (hrun : Run maxPfn usable s live others) (hmax : maxPfn < 2 ^ 40)
    (htop : Kheap.pageAt s.hhdm (maxPfn + 1) < 2 ^ 64)
    (hk : ∀ k, pml4 = some k → ∃ level, KernelTables maxPfn usable s others k level)
    (hret : s.prepareSections pml4 c = .ok (t, ctx, 0)) : Prepared s t c ctx ↔ ModuleFits c := by
  obtain ⟨s₁, s₂, u, p₁, p₂, block, l, h⟩ := prepareSections_zero hret
  constructor
  · intro hp
    have hsum := layoutUpto_summed h.layout
    obtain ⟨size, v, rc, -, hplaced⟩ := fillModule_zero h.filled
    have hsize : ctx.moduleSize = l.total := by
      have hsame := hplaced.same
      dsimp only at hsame
      rw [hsame]
      rfl
    unfold ModuleFits
    cases layoutUpto_cases h.layout with
    | inr hr => exact absurd hp (h.overlaps hr hplaced)
    | inl he =>
        by_contra hbig
        rw [← he.total, ← hsum.maxAlign] at hbig
        exact h.outgrown (h.run hrun).run hsize (by omega) hp
  · intro hfit
    have hset := h.settled hrun htop hfit
    obtain ⟨m, hplaced, hzero, -⟩ := h.cleared hset.calls.run hmax (fun k hpml => by
      obtain ⟨level, hk⟩ := hk k hpml
      exact ⟨level, hset.calls.kernel k level hk⟩) hset.seated
    obtain ⟨⟨G, ref, hinv⟩, -⟩ := hset.calls.run.kept
    exact h.prepared hset.exact hset.seated (hinv.live_room List.mem_cons_self) hplaced hzero

/-- A driver's section of eight bytes fits. -/
theorem prepareSections_iff_driver : ∃ t ctx, validateHeader (driverImage 0) 480 = true
    ∧ Kheap.rootedHeap.prepareSections (some 16) (.start (driverImage 0) 480) = .ok (t, ctx, 0)
    ∧ Prepared Kheap.rootedHeap t (.start (driverImage 0) 480) ctx := by
  have hvalid : validateHeader (driverImage 0) 480 = true := by decide +kernel
  have hrc : (Kheap.rootedHeap.prepareSections (some 16) (.start (driverImage 0) 480)).toOption.map
      (fun r => r.2.2) = some 0 := by
    decide +kernel
  have hfits : ModuleFits (.start (driverImage 0) 480) := by
    unfold ModuleFits
    decide +kernel
  have htop : Kheap.pageAt Kheap.rootedHeap.hhdm (16 + 1) < 2 ^ 64 := by decide +kernel
  cases hret : Kheap.rootedHeap.prepareSections (some 16) (.start (driverImage 0) 480) with
  | error e =>
      rw [hret] at hrc
      cases hrc
  | ok r =>
      obtain ⟨t, ctx, rc⟩ := r
      rw [hret] at hrc
      obtain rfl : rc = 0 := Option.some.inj hrc
      refine ⟨t, ctx, hvalid, rfl, (prepareSections_iff Kheap.run_rootedHeap (by omega) htop
        (fun k hk => ?_) hret).mpr hfits⟩
      cases hk
      exact ⟨_, Kheap.kernelTables_rootedHeap⟩

/-- Two sections without bytes in the file, the first of `2^64 - 1` bytes
and the second of eight, aligned to eight. -/
def hugeImage : Memory :=
  imageOf (ehdrFields 3 ++ shdrFields 1 SHT_NOBITS 2 0 (2 ^ 64 - 1) 0 0 1 0
    ++ shdrFields 2 SHT_NOBITS 2 0 8 0 0 8 0)

/-- They are put on top of each other. -/
theorem prepareSections_overlap : ∃ t ctx, validateHeader hugeImage 256 = true
    ∧ Kheap.rootedHeap.prepareSections (some 16) (.start hugeImage 256) = .ok (t, ctx, 0)
    ∧ ¬ Prepared Kheap.rootedHeap t (.start hugeImage 256) ctx := by
  have hvalid : validateHeader hugeImage 256 = true := by decide +kernel
  have hrun : (Kheap.rootedHeap.prepareSections (some 16) (.start hugeImage 256)).toOption.map
      (fun r => (r.2.2, r.2.1.sectionBases 1, r.2.1.sectionBases 2))
        = some (0, 0xffff800000002030, 0xffff800000002030) := by
    decide +kernel
  have himage : (ElfContext.start hugeImage 256).shnum = 3
      ∧ (∀ i < 3, 1 ≤ i → ((ElfContext.start hugeImage 256).sections i).alloc = true
        ∧ ((ElfContext.start hugeImage 256).sections i).shSize ≠ 0) := by
    decide +kernel
  cases hret : Kheap.rootedHeap.prepareSections (some 16) (.start hugeImage 256) with
  | error e =>
      rw [hret] at hrun
      cases hrun
  | ok r =>
      obtain ⟨t, ctx, rc⟩ := r
      rw [hret] at hrun
      simp only [Except.toOption, Option.map_some, Option.some.injEq, Prod.mk.injEq] at hrun
      obtain ⟨rfl, h1, h2⟩ := hrun
      obtain ⟨hnum, hsections⟩ := himage
      refine ⟨t, ctx, hvalid, rfl, fun hp => ?_⟩
      obtain ⟨halloc₁, hsize₁⟩ := hsections 1 (by omega) (by omega)
      obtain ⟨halloc₂, hsize₂⟩ := hsections 2 (by omega) (by omega)
      have hapart := hp.apart 1 (by omega) 2 (by omega) halloc₁ halloc₂ (by omega) hsize₁ hsize₂
      rw [h1, h2] at hapart
      omega

end Alix.Elf
