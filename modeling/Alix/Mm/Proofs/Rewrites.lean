/-
The loops of `vas_unmap` and `vas_protect`, as changes of leaf words.

Both go through the pages of a range and change the leaf word of each,
where there is one: unmapping clears it, and protecting it keeps the
address and takes other flags (`reflag`). Neither needs a table, so
neither asks anything of the allocator, and the tables stay where they
are. `Rewrites r P g` is what such a loop does: the leaf words of the
pages of the root `r` in `P` go through `g`, and nothing else is written.
Doing it twice is doing it once, so the loops compose by the pages they
visit.

All that is asked of the tables is that the last-level table of a page
that changes is on no other path from the root (`Alone`). The addresses
are those of both halves; between them, two addresses have one set of
indices.
-/
import Alix.Mm.Proofs.RangeOps

namespace Alix.Paging

open Radix

-- ==== leaf words

/-- The frame a leaf word maps; the lookups take a page at address 0 for
an unmapped one. -/
def frameOf (w : Word) : Option Nat :=
  if hasFlag w PAGE_PRESENT && (w &&& PAGE_ADDR_MASK).toNat != 0 then
    some (tableVirt w)
  else none

/-- What `remap_page_flags` makes of a leaf word. -/
def reflag (flags w : Word) : Word :=
  if (frameOf w).isSome then (w &&& PAGE_ADDR_MASK) ||| flagsToPte flags else w

theorem pte_toNat (w flags : Word) :
    pte (w &&& PAGE_ADDR_MASK).toNat flags = (w &&& PAGE_ADDR_MASK) ||| flagsToPte flags := by
  unfold pte
  rw [BitVec.ofNat_toNat, BitVec.setWidth_eq, BitVec.and_assoc, BitVec.and_self]

/-- The address in an entry is that of a page. -/
theorem addr_mod (w : Word) : (w &&& PAGE_ADDR_MASK).toNat % PAGE_SIZE = 0 := by
  have hbits : ∀ i, i < 12 → (w &&& PAGE_ADDR_MASK).toNat.testBit i = false := by
    intro i hi
    have hlow : ¬ 12 ≤ i := by omega
    have := BitVec.getLsbD_and (x := w) (y := PAGE_ADDR_MASK) (i := i)
    rw [getLsbD_addrMask, decide_eq_false hlow, Bool.false_and, Bool.and_false] at this
    exact this
  show (w &&& PAGE_ADDR_MASK).toNat % 2 ^ 12 = 0
  apply Nat.eq_of_testBit_eq
  intro i
  rw [Nat.testBit_mod_two_pow, Nat.zero_testBit]
  by_cases hi : i < 12
  · rw [hbits i hi, Bool.and_false]
  · rw [decide_eq_false hi, Bool.false_and]

theorem tableVirt_phys (w : Word) : pfnPhys (tableVirt w) = (w &&& PAGE_ADDR_MASK).toNat := by
  have := addr_mod w
  show (w &&& PAGE_ADDR_MASK).toNat / 4096 * 4096 = _
  have hs : PAGE_SIZE = 4096 := rfl
  rw [hs] at this
  omega

theorem frameOf_isSome {w : Word} : (frameOf w).isSome
    ↔ hasFlag w PAGE_PRESENT = true ∧ (w &&& PAGE_ADDR_MASK).toNat ≠ 0 := by
  unfold frameOf
  split
  · rename_i h
    simpa using h
  · rename_i h
    simpa using h

theorem frameOf_some {w : Word} {f : Nat} (h : frameOf w = some f) :
    (w &&& PAGE_ADDR_MASK).toNat = pfnPhys f ∧ pfnPhys f ≠ 0 := by
  have hne := (frameOf_isSome.mp (by rw [h]; rfl)).2
  unfold frameOf at h
  split at h
  · cases h
    rw [tableVirt_phys]
    exact ⟨rfl, hne⟩
  · cases h

/-- An entry of `paging_map_page` has the frame it was made for. -/
theorem frameOf_pte {f : Nat} (flags : Word) (hne : f ≠ 0) (hlt : f < 2 ^ 40) :
    frameOf (pte (pfnPhys f) flags) = some f := by
  have hphys : pfnPhys f = f * 4096 := rfl
  have haddr : (pte (pfnPhys f) flags &&& PAGE_ADDR_MASK).toNat = pfnPhys f :=
    pte_addr flags (pfnPhys_mod f) (by omega)
  have hsome : (frameOf (pte (pfnPhys f) flags)).isSome :=
    frameOf_isSome.mpr ⟨pte_present _ _, by rw [haddr]; omega⟩
  obtain ⟨g, hg⟩ := Option.isSome_iff_exists.mp hsome
  have hphys' : pfnPhys g = g * 4096 := rfl
  have he : g = f := by
    have := (frameOf_some hg).1
    omega
  rw [hg, he]

/-- New flags leave the address. -/
theorem addr_flags (flags w : Word) :
    ((w &&& PAGE_ADDR_MASK) ||| flagsToPte flags) &&& PAGE_ADDR_MASK = w &&& PAGE_ADDR_MASK := by
  rw [flagsToPte_eq, and_or_distrib, and_or_distrib, BitVec.and_assoc, BitVec.and_assoc,
    BitVec.and_self, show PAGE_PRESENT &&& PAGE_ADDR_MASK = 0 by decide,
    show PTE_FLAGS &&& PAGE_ADDR_MASK = 0 by decide]
  simp

/-- A word keeps its frame when its flags change. -/
theorem frameOf_reflag (flags w : Word) : frameOf (reflag flags w) = frameOf w := by
  unfold reflag
  split
  · rename_i hsome
    obtain ⟨hp, ha⟩ := frameOf_isSome.mp hsome
    have hpresent : hasFlag ((w &&& PAGE_ADDR_MASK) ||| flagsToPte flags) PAGE_PRESENT
        = true := by
      rw [← pte_toNat]
      exact pte_present _ _
    have hne : ((w &&& PAGE_ADDR_MASK).toNat != 0) = true := bne_iff_ne.mpr ha
    unfold frameOf tableVirt
    rw [addr_flags, hpresent, hp, hne]
  · rfl

theorem reflag_reflag (flags w : Word) : reflag flags (reflag flags w) = reflag flags w := by
  have hframe := frameOf_reflag flags w
  by_cases h : (frameOf w).isSome
  · rw [reflag, hframe, if_pos h]
    unfold reflag
    rw [if_pos h, addr_flags]
  · rw [reflag, hframe, if_neg h]

/-- New flags for an entry are a new entry for its frame. -/
theorem reflag_pte {w : Word} {f : Nat} (hf : frameOf w = some f) (flags : Word) :
    reflag flags w = pte (pfnPhys f) flags := by
  unfold reflag
  rw [hf, Option.isSome_some, if_pos rfl, ← pte_toNat, (frameOf_some hf).1]

theorem reflag_zero (flags : Word) : reflag flags 0 = 0 := by
  unfold reflag frameOf
  rfl

-- ==== paths

/-- The addresses the processor translates. -/
def Canonical (virt : Nat) : Prop :=
  virt < 2 ^ 47 ∨ (2 ^ 64 - 2 ^ 47 ≤ virt ∧ virt < 2 ^ 64)

/-- The paths to a table. -/
def TablePath (p : List Nat) : Prop := p.length ≤ 3 ∧ ∀ i ∈ p, i < 512

theorem tablePath_owned : Owned TablePath where
  nil := ⟨by simp, by simp⟩
  init := by
    intro p i h
    refine ⟨?_, fun j hj => h.2 j (List.mem_append_left _ hj)⟩
    have := h.1
    rw [List.length_append, List.length_singleton] at this
    omega

theorem tablePath_ok (virt : Nat) : TablePath (tablePath virt) := by
  refine ⟨by simp [tablePath], fun i hi => ?_⟩
  simp only [tablePath, List.mem_cons, List.not_mem_nil, or_false, pml4Index, pdptIndex,
    pdIndex] at hi
  omega

/-- Canonical addresses with one set of indices are in one page. -/
theorem tablePath_inj_canonical {v w : Nat} (hv : Canonical v) (hw : Canonical w) :
    (tablePath v = tablePath w ∧ ptIndex v = ptIndex w) ↔ v / PAGE_SIZE = w / PAGE_SIZE := by
  have hs : PAGE_SIZE = 4096 := rfl
  unfold Canonical at hv hw
  rw [tablePath_inj, hs]
  omega

/-- The last-level table of the page is on no other path. -/
def Alone (mem : Nat → Nat → Word) (r va : Nat) : Prop :=
  ∀ pt p, walk (child mem) r (tablePath va) = some pt → TablePath p →
    walk (child mem) r p = some pt → p = tablePath va

-- ==== changes of leaf words

/-- The leaf words of the pages of the root `r` in `P` go through `g`, and
of the rest nothing is written. -/
structure Rewrites (r : Nat) (P : Nat → Prop) (g : Word → Word) (m m' : Mach) :
    Prop where
  tables : ∀ p, TablePath p → walk (child m'.mem) r p = walk (child m.mem) r p
  frame : ∀ f j, m'.mem f j = m.mem f j ∨ ∃ u, Canonical u ∧ P (u / PAGE_SIZE)
    ∧ walk (child m.mem) r (tablePath u) = some f ∧ j = ptIndex u
  inside : ∀ u, Canonical u → P (u / PAGE_SIZE) → leaf m'.mem r u = g (leaf m.mem r u)
  outside : ∀ u, Canonical u → ¬ P (u / PAGE_SIZE) → leaf m'.mem r u = leaf m.mem r u

section rewrites

variable {r : Nat} {P Q : Nat → Prop} {g : Word → Word} {m m' m'' : Mach} {va pt : Nat}

theorem Rewrites.empty (hP : ∀ n, ¬ P n) : Rewrites r P g m m :=
  ⟨fun _ _ => rfl, fun _ _ => Or.inl rfl, fun _ _ hn => (hP _ hn).elim, fun _ _ _ => rfl⟩

theorem Rewrites.congr (h : Rewrites r P g m m') (hP : ∀ n, P n ↔ Q n) :
    Rewrites r Q g m m' := by
  refine ⟨h.tables, fun f j => ?_, fun u hu hn => h.inside u hu ((hP _).mpr hn),
    fun u hu hn => h.outside u hu fun e => hn ((hP _).mp e)⟩
  rcases h.frame f j with hsame | ⟨u, hu, hn, hw⟩
  · exact Or.inl hsame
  · exact Or.inr ⟨u, hu, (hP _).mp hn, hw⟩

/-- A rewrite says nothing about the allocator. -/
theorem Rewrites.pmm (h : Rewrites r P g m m') (pmm : Pmm) :
    Rewrites r P g m { m' with pmm } :=
  ⟨h.tables, h.frame, h.inside, h.outside⟩

theorem Rewrites.alone (h : Rewrites r P g m m') (ha : Alone m.mem r va) :
    Alone m'.mem r va := by
  intro pt p hw hp hwp
  rw [h.tables _ (tablePath_ok va)] at hw
  rw [h.tables p hp] at hwp
  exact ha pt p hw hp hwp

/-- One loop after another. -/
theorem Rewrites.trans (h : Rewrites r P g m m') (h' : Rewrites r Q g m' m'')
    (hg : ∀ w, g (g w) = g w) : Rewrites r (fun n => P n ∨ Q n) g m m'' := by
  refine ⟨fun p hp => (h'.tables p hp).trans (h.tables p hp), fun f j => ?_,
    fun u hu hn => ?_, fun u hu hn => ?_⟩
  · rcases h'.frame f j with hsame' | ⟨u, hu, hn, hw, hj⟩
    · rcases h.frame f j with hsame | ⟨u, hu, hn, hw⟩
      · exact Or.inl (hsame'.trans hsame)
      · exact Or.inr ⟨u, hu, Or.inl hn, hw⟩
    · rw [h.tables _ (tablePath_ok u)] at hw
      exact Or.inr ⟨u, hu, Or.inr hn, hw, hj⟩
  · by_cases hq : Q (u / PAGE_SIZE)
    · rw [h'.inside u hu hq]
      by_cases hp : P (u / PAGE_SIZE)
      · rw [h.inside u hu hp, hg]
      · rw [h.outside u hu hp]
    · rw [h'.outside u hu hq, h.inside u hu (hn.resolve_right hq)]
  · rw [h'.outside u hu fun e => hn (Or.inr e), h.outside u hu fun e => hn (Or.inl e)]

/-- A store into the leaf slot of a page. -/
theorem rewrites_store (hal : Alone m.mem r va) (hv : Canonical va)
    (hw : walk (child m.mem) r (tablePath va) = some pt) :
    Rewrites r (fun n => n = va / PAGE_SIZE) g m
      (m.store pt (ptIndex va) (g (m.mem pt (ptIndex va)))) := by
  have hlen : (tablePath va).length = 3 := rfl
  -- no path goes through a last-level table
  have hwalk : ∀ p, TablePath p → walk (child
      (m.store pt (ptIndex va) (g (m.mem pt (ptIndex va)))).mem) r p
      = walk (child m.mem) r p := by
    intro p hp
    refine walk_congr tablePath_owned (fun q i f hq hwq => child_store m _ _ _ fun e => ?_) hp
    have hqv := hal pt q hw (tablePath_owned.init q i hq) (by rw [hwq, e.1])
    have := hq.1
    rw [List.length_append, hqv, hlen] at this
    simp at this
  have hleaf : ∀ u, Canonical u → leaf
      (m.store pt (ptIndex va) (g (m.mem pt (ptIndex va)))).mem r u
      = if u / PAGE_SIZE = va / PAGE_SIZE then g (leaf m.mem r u) else leaf m.mem r u := by
    intro u hu
    have hpage := tablePath_inj_canonical hu hv
    unfold leaf
    rw [hwalk _ (tablePath_ok u)]
    by_cases he : u / PAGE_SIZE = va / PAGE_SIZE
    · obtain ⟨hpath, hidx⟩ := hpage.mpr he
      rw [if_pos he, hpath, hidx, hw]
      show (m.store _ _ _).mem pt (ptIndex va) = _
      rw [Machine.store_mem, if_pos ⟨rfl, rfl⟩]
    · rw [if_neg he]
      cases hwu : walk (child m.mem) r (tablePath u) with
      | none => rfl
      | some x =>
          show (m.store _ _ _).mem x (ptIndex u) = m.mem x (ptIndex u)
          rw [Machine.store_mem, if_neg]
          intro e
          have hpath := hal pt (tablePath u) hw (tablePath_ok u) (by rw [hwu, e.1])
          exact he (hpage.mp ⟨hpath, e.2⟩)
  refine ⟨hwalk, fun f j => ?_, fun u hu hn => ?_, fun u hu hn => ?_⟩
  · by_cases he : f = pt ∧ j = ptIndex va
    · exact Or.inr ⟨va, hv, rfl, by rw [hw, he.1], he.2⟩
    · rw [Machine.store_mem, if_neg he]
      exact Or.inl rfl
  · rw [hleaf u hu, if_pos hn]
  · rw [hleaf u hu, if_neg hn]

/-- A page without a table reads 0, and so do the changes of it. -/
theorem rewrites_none (hg : g 0 = 0) (hv : Canonical va)
    (hw : walk (child m.mem) r (tablePath va) = none) :
    Rewrites r (fun n => n = va / PAGE_SIZE) g m m := by
  refine ⟨fun _ _ => rfl, fun _ _ => Or.inl rfl, fun u hu hn => ?_, fun _ _ _ => rfl⟩
  have hzero : leaf m.mem r u = 0 := by
    obtain ⟨hpath, -⟩ := (tablePath_inj_canonical hu hv).mpr hn
    unfold leaf
    rw [hpath, hw]
  rw [hzero, hg]

end rewrites

-- ==== the pages

section pages

variable {r : Nat} {m : Mach} {va : Nat}

/-- `paging_virt_to_phys` of a page reads the frame. -/
theorem virtToPhys_page (m : Mach) (r : Nat) (ha : va % PAGE_SIZE = 0) :
    pagingVirtToPhys Pmm.pmmAllocPage m (some r) va
      = match frameOf (leaf m.mem r va) with
        | none => 0
        | some f => pfnPhys f := by
  rw [pagingVirtToPhys_eq, ha, Nat.add_zero]
  unfold frameOf
  cases hp : hasFlag (leaf m.mem r va) PAGE_PRESENT with
  | false => rfl
  | true =>
      by_cases hzero : (leaf m.mem r va &&& PAGE_ADDR_MASK).toNat = 0
      · rw [hzero]
        rfl
      · have hne : ((leaf m.mem r va &&& PAGE_ADDR_MASK).toNat != 0) = true :=
          bne_iff_ne.mpr hzero
        rw [hne]
        exact (tableVirt_phys _).symm

/-- `paging_unmap_page`. -/
theorem rewrites_unmap (hal : Alone m.mem r va) (hv : Canonical va)
    (ha : va % PAGE_SIZE = 0) :
    Rewrites r (fun n => n = va / PAGE_SIZE) (fun _ => 0) m
        (pagingUnmapPage Pmm.pmmAllocPage m (some r) va)
      ∧ (pagingUnmapPage Pmm.pmmAllocPage m (some r) va).pmm = m.pmm := by
  unfold pagingUnmapPage
  simp only [ha, ne_eq, not_true_eq_false, if_false, lookupLeaf_false]
  cases hw : walk (child m.mem) r (tablePath va) with
  | none => exact ⟨rewrites_none rfl hv hw, rfl⟩
  | some pt => exact ⟨rewrites_store hal hv hw, rfl⟩

/-- A page is unmapped and mapped again: its tables stay for the map,
whatever the allocator does in between. -/
theorem unmap_map_store (hal : Alone m.mem r va) (hv : Canonical va) (ha : va % PAGE_SIZE = 0)
    {phys : Nat} (hp : phys % PAGE_SIZE = 0) (flags : Word) (pmm : Pmm) {pt : Nat}
    (hw : walk (child m.mem) r (tablePath va) = some pt) :
    pagingMapPage Pmm.pmmAllocPage { pagingUnmapPage Pmm.pmmAllocPage m (some r) va with pmm }
        (some r) va phys flags
      = ({ m with pmm }.store pt (ptIndex va) (pte phys flags), 0) := by
  have hun : pagingUnmapPage Pmm.pmmAllocPage m (some r) va = m.store pt (ptIndex va) 0 := by
    unfold pagingUnmapPage
    simp only [ha, ne_eq, not_true_eq_false, if_false, lookupLeaf_false, hw, Option.map_some]
  have hwalk : walk (child (m.store pt (ptIndex va) 0).mem) r (tablePath va) = some pt := by
    have hsame := (rewrites_unmap hal hv ha).1.tables _ (tablePath_ok va)
    rw [hun] at hsame
    rw [hsame, hw]
  have hfind : lookupPt Pmm.pmmAllocPage { m.store pt (ptIndex va) 0 with pmm } r va true flags
      = ({ m.store pt (ptIndex va) 0 with pmm }, some pt) := lookupPt_present hwalk
  have htwice : { m.store pt (ptIndex va) 0 with pmm }.store pt (ptIndex va) (pte phys flags)
      = { m with pmm }.store pt (ptIndex va) (pte phys flags) := by
    unfold Machine.store
    simp only [Function.update_self, Function.update_idem]
  rw [hun]
  unfold pagingMapPage lookupLeaf
  simp only [ha, hp, ne_eq, not_true_eq_false, or_self, if_false, hfind]
  exact congrArg (fun s => (s, (0 : Int))) htwice

/-- `remap_page_flags` of a page with a frame: it is unmapped, and its
tables stay for the map. -/
theorem remapPageFlags_store (hal : Alone m.mem r va) (hv : Canonical va)
    (ha : va % PAGE_SIZE = 0) (flags : Word) {pt f : Nat}
    (hw : walk (child m.mem) r (tablePath va) = some pt)
    (hframe : frameOf (m.mem pt (ptIndex va)) = some f) :
    m.remapPageFlags r va flags
      = (m.store pt (ptIndex va) (reflag flags (m.mem pt (ptIndex va))), 0) := by
  have hword : leaf m.mem r va = m.mem pt (ptIndex va) := by
    unfold leaf
    rw [hw]
  have hne := (frameOf_some hframe).2
  unfold Machine.remapPageFlags
  simp only [virtToPhys_page m r ha, hword, hframe, if_neg hne, pageAlignDown_pfnPhys,
    reflag_pte hframe]
  refine (unmap_map_store hal hv ha (pfnPhys_mod f) flags
    (pagingUnmapPage Pmm.pmmAllocPage m (some r) va).pmm hw).trans ?_
  rw [(rewrites_unmap hal hv ha).2]

/-- `remap_page_flags` cannot fail. -/
theorem rewrites_remap (hal : Alone m.mem r va) (hv : Canonical va)
    (ha : va % PAGE_SIZE = 0) (flags : Word) :
    ∃ m', m.remapPageFlags r va flags = (m', 0) ∧ m'.pmm = m.pmm
      ∧ Rewrites r (fun n => n = va / PAGE_SIZE) (reflag flags) m m' := by
  have hskip : frameOf (leaf m.mem r va) = none → m.remapPageFlags r va flags = (m, 0) := by
    intro hnone
    unfold Machine.remapPageFlags
    simp only [virtToPhys_page m r ha, hnone, if_true]
  cases hw : walk (child m.mem) r (tablePath va) with
  | none =>
      have hzero : leaf m.mem r va = 0 := by
        unfold leaf
        rw [hw]
      exact ⟨m, hskip (by rw [hzero]; rfl), rfl, rewrites_none (reflag_zero flags) hv hw⟩
  | some pt =>
      have hword : leaf m.mem r va = m.mem pt (ptIndex va) := by
        unfold leaf
        rw [hw]
      have hstore := rewrites_store (g := reflag flags) hal hv hw
      cases hframe : frameOf (m.mem pt (ptIndex va)) with
      | none =>
          have hsame : reflag flags (m.mem pt (ptIndex va)) = m.mem pt (ptIndex va) := by
            unfold reflag
            rw [hframe]
            rfl
          have hback : m.store pt (ptIndex va) (m.mem pt (ptIndex va)) = m := by
            unfold Machine.store
            simp only [Function.update_eq_self]
          rw [hsame, hback] at hstore
          exact ⟨m, hskip (by rw [hword]; exact hframe), rfl, hstore⟩
      | some f => exact ⟨_, remapPageFlags_store hal hv ha flags hw hframe, rfl, hstore⟩

/-- The addresses of a loop over pages. -/
def LoopPages (m : Mach) (r : Nat) (vas : List Nat) : Prop :=
  ∀ va ∈ vas, Canonical va ∧ va % PAGE_SIZE = 0 ∧ Alone m.mem r va

/-- Behind a page that was rewritten the loop can go on, reads what it would
have read, and rewrites all of the pages. -/
theorem LoopPages.rest {P : Nat → Prop} {g : Word → Word} {vas : List Nat}
    (hvas : LoopPages m r (va :: vas)) (hw : Rewrites r P g m m') : LoopPages m' r vas :=
  fun w hin => (hvas w (List.mem_cons_of_mem _ hin)).imp_right fun h => ⟨h.1, hw.alone h.2⟩

theorem LoopPages.leaf_rest {g : Word → Word} {vas : List Nat}
    (hvas : LoopPages m r (va :: vas)) (hw : Rewrites r (fun n => n = va / PAGE_SIZE) g m m')
    (hd : ∀ w ∈ vas, va / PAGE_SIZE ≠ w / PAGE_SIZE) :
    ∀ w ∈ vas, leaf m'.mem r w = leaf m.mem r w := fun w hin =>
  hw.outside w (hvas w (List.mem_cons_of_mem _ hin)).1 fun e => hd w hin e.symm

theorem Rewrites.cons {g : Word → Word} {m'' : Mach} {vas : List Nat}
    (hw : Rewrites r (fun n => n = va / PAGE_SIZE) g m m')
    (hrest : Rewrites r (Pages vas) g m' m'') (hg : ∀ w, g (g w) = g w) :
    Rewrites r (Pages (va :: vas)) g m m'' :=
  (hw.trans hrest hg).congr fun _ => (or_congr_left eq_comm).trans pages_cons.symm

/-- The inner loop of `vas_protect`. -/
theorem rewrites_remapPages (flags : Word) {vas : List Nat} (hvas : LoopPages m r vas) :
    ∃ m', Machine.remapPages r flags vas m = (m', 0) ∧ m'.pmm = m.pmm
      ∧ Rewrites r (Pages vas) (reflag flags) m m' := by
  induction vas generalizing m with
  | nil => exact ⟨m, rfl, rfl, Rewrites.empty fun n hn => pages_nil hn⟩
  | cons va vas ih =>
      obtain ⟨hv, ha, hal⟩ := hvas va List.mem_cons_self
      obtain ⟨m1, hm1, hpmm1, h1⟩ := rewrites_remap hal hv ha flags
      obtain ⟨m', hloop, hpmm, h'⟩ := ih (hvas.rest h1)
      refine ⟨m', ?_, hpmm.trans hpmm1, ?_⟩
      · unfold Machine.remapPages
        simp only [hm1, ne_eq, not_true_eq_false, if_false]
        exact hloop
      · exact h1.cons h' (reflag_reflag flags)

end pages

end Alix.Paging
