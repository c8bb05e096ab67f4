/-
The page tables as a forest, and the partial map they hold.

# The argument

Present entries make every table frame a node with at most 512 children
(`child`), so the tables of the lower half are a `Radix.Forest`: every
root, and every table reached from it by a path of at most three indices
whose first is below 256. The invariant `Inv` says that this is a forest
whose frames are held, where what "held" means is up to the allocator
(`Supplies`): a frame it hands out is none of the held ones.

`leaf` is the word an address reads. `next_table` may add tables and
changes no leaf word (`Inv.grow_nextTable`), so a lookup that fails half way
leaves partial tables and the same map; the store at the end of a map or
an unmap changes the leaf word of one page of one root
(`Inv.store_leaf`), because the four indices of a page determine it.

Everything outside the slots of the forest keeps its words (`Grows`).
That covers the upper half of a root, and the kernel's tables below it,
which every address space shares.
-/
import Alix.Mm.Paging
import Alix.Lib.Radix

namespace Alix.Paging

open Radix

-- ==== the bits of entries

/-- Setting a one-bit flag on a condition copies the bit. -/
theorem ite_hasFlag (w e : Word) {n : Nat} (hn : n < 64) :
    (if hasFlag w (pageBit n) then e ||| pageBit n else e)
      = e ||| (w &&& pageBit n) := by
  rw [hasFlag_pageBit w hn]
  apply BitVec.eq_of_getLsbD_eq
  intro i hi
  by_cases hin : n = i
  · subst hin
    split <;> simp_all only [BitVec.getLsbD_or, BitVec.getLsbD_and,
      getLsbD_pageBit] <;> simp_all
  · split <;> simp only [BitVec.getLsbD_or, BitVec.getLsbD_and,
      getLsbD_pageBit] <;> simp [hin]

/-- The bits of a flag word that an entry takes over. -/
abbrev PTE_FLAGS : Word := PAGE_WRITE ||| PAGE_USER ||| PAGE_GLOBAL ||| PAGE_NX

theorem flagsToPte_eq (flags : Word) :
    flagsToPte flags = PAGE_PRESENT ||| (flags &&& PTE_FLAGS) := by
  unfold flagsToPte
  simp only [ite_hasFlag _ _ (show 1 < 64 by decide),
    ite_hasFlag _ _ (show 2 < 64 by decide),
    ite_hasFlag _ _ (show 8 < 64 by decide),
    ite_hasFlag _ _ (show 63 < 64 by decide)]
  apply BitVec.eq_of_getLsbD_eq
  intro i _
  simp only [BitVec.getLsbD_or, BitVec.getLsbD_and, Bool.and_or_distrib_left,
    Bool.or_assoc]

theorem and_or_distrib (a b m : Word) :
    (a ||| b) &&& m = (a &&& m) ||| (b &&& m) := by
  apply BitVec.eq_of_getLsbD_eq
  intro i _
  simp only [BitVec.getLsbD_or, BitVec.getLsbD_and, Bool.and_or_distrib_right]

/-- Bits outside the address mask do not move the table. -/
theorem tableVirt_or {a c : Word} (hc : c &&& PAGE_ADDR_MASK = 0) :
    tableVirt (a ||| c) = tableVirt a := by
  unfold tableVirt
  rw [and_or_distrib, hc]
  simp

theorem getLsbD_addrMask (i : Nat) :
    PAGE_ADDR_MASK.getLsbD i = (decide (12 ≤ i) && decide (i < 52)) := by
  by_cases hi : i < 64
  · have : ∀ j : Fin 64, PAGE_ADDR_MASK.getLsbD j.val
        = (decide (12 ≤ j.val) && decide (j.val < 52)) := by decide
    exact this ⟨i, hi⟩
  · rw [BitVec.getLsbD_of_ge _ _ (by omega)]
    have : ¬ i < 52 := by omega
    simp [this]

/-- A page-aligned address of at most 52 bits passes the mask whole. -/
theorem ofNat_and_addrMask {phys : Nat} (ha : phys % PAGE_SIZE = 0)
    (hb : phys < 2 ^ 52) :
    BitVec.ofNat 64 phys &&& PAGE_ADDR_MASK = BitVec.ofNat 64 phys := by
  apply BitVec.eq_of_getLsbD_eq
  intro i hi
  rw [BitVec.getLsbD_and, BitVec.getLsbD_ofNat, getLsbD_addrMask]
  by_cases hlow : i < 12
  · have : phys.testBit i = false := by
      have hmod := Nat.testBit_mod_two_pow phys 12 i
      rw [show phys % 2 ^ 12 = 0 from ha, Nat.zero_testBit] at hmod
      simpa [hlow] using hmod.symm
    simp [this]
  · by_cases hhigh : i < 52
    · simp [hi, hhigh, Nat.le_of_not_lt hlow]
    · have : phys.testBit i = false :=
        Nat.testBit_lt_two_pow (Nat.lt_of_lt_of_le hb
          (Nat.pow_le_pow_right (by decide) (by omega)))
      simp [this]

theorem tableVirt_ofNat {pfn : Nat} (h : pfn < 2 ^ 40) :
    tableVirt (BitVec.ofNat 64 (pfnPhys pfn)) = pfn := by
  have hp : pfnPhys pfn = pfn * 4096 := rfl
  unfold tableVirt
  rw [ofNat_and_addrMask (by rw [hp]; simp) (by rw [hp]; omega), hp,
    BitVec.toNat_ofNat, Nat.mod_eq_of_lt (by omega)]
  show pfn * 4096 / 4096 = pfn
  omega

/-- The offset fits below a masked address. -/
theorem or_offset (w : Word) {off : Nat} (h : off < PAGE_SIZE) :
    ((w &&& PAGE_ADDR_MASK) ||| BitVec.ofNat 64 off).toNat
      = (w &&& PAGE_ADDR_MASK).toNat + off := by
  have hd : (w &&& PAGE_ADDR_MASK) &&& BitVec.ofNat 64 off = 0#64 := by
    apply BitVec.eq_of_getLsbD_eq
    intro i hi
    rw [BitVec.getLsbD_and, BitVec.getLsbD_and, getLsbD_addrMask,
      BitVec.getLsbD_ofNat]
    by_cases hlow : i < 12
    · have : ¬ 12 ≤ i := by omega
      simp [this]
    · have : off.testBit i = false :=
        Nat.testBit_lt_two_pow (Nat.lt_of_lt_of_le (show off < 2 ^ 12 from h)
          (Nat.pow_le_pow_right (by decide) (by omega)))
      simp [this]
  rw [← BitVec.add_eq_or_of_and_eq_zero _ _ hd, BitVec.toNat_add,
    BitVec.toNat_ofNat]
  have hm : (w &&& PAGE_ADDR_MASK).toNat ≤ PAGE_ADDR_MASK.toNat := by
    rw [BitVec.toNat_and]
    exact Nat.and_le_right
  have hmask : PAGE_ADDR_MASK.toNat = 2 ^ 52 - 4096 := by decide
  have hs : PAGE_SIZE = 4096 := rfl
  rw [Nat.mod_eq_of_lt (show off < 2 ^ 64 by omega), Nat.mod_eq_of_lt (by omega)]

-- ==== leaf words

/-- The table below a slot, if the slot is present. -/
def child (mem : Nat → Nat → Word) (table index : Nat) : Option Nat :=
  if hasFlag (mem table index) PAGE_PRESENT then
    some (tableVirt (mem table index))
  else none

section child

variable {mem mem' : Nat → Nat → Word} {f f' i i' g : Nat}

/-- A child is a matter of one word. -/
theorem child_congr (h : mem f i = mem' f' i') : child mem f i = child mem' f' i' := by
  unfold child
  rw [h]

theorem child_eq_none : child mem f i = none ↔ ¬ hasFlag (mem f i) PAGE_PRESENT = true := by
  unfold child
  split
  · rename_i hp
    simp [hp]
  · rename_i hp
    simp [hp]

theorem child_eq_some : child mem f i = some g
    ↔ hasFlag (mem f i) PAGE_PRESENT = true ∧ tableVirt (mem f i) = g := by
  unfold child
  split
  · rename_i hp
    simp [hp]
  · rename_i hp
    simp [hp]

end child

/-- The slots a lookup goes through before the last-level table. -/
def tablePath (virt : Nat) : List Nat :=
  [pml4Index virt, pdptIndex virt, pdIndex virt]

/-- The word an address reads in its last-level table, 0 without one. -/
def leaf (mem : Nat → Nat → Word) (root virt : Nat) : Word :=
  match walk (child mem) root (tablePath virt) with
  | none => 0
  | some pt => mem pt (ptIndex virt)

/-- Four indices are the 36 bits of a page number. -/
theorem tablePath_inj {v w : Nat} :
    (tablePath v = tablePath w ∧ ptIndex v = ptIndex w)
      ↔ v / PAGE_SIZE % 2 ^ 36 = w / PAGE_SIZE % 2 ^ 36 := by
  have hs : PAGE_SIZE = 4096 := rfl
  simp only [tablePath, pml4Index, pdptIndex, pdIndex, ptIndex,
    List.cons.injEq, and_true, hs]
  omega

theorem page_lower {v : Nat} (hv : v < 2 ^ 47) : v / PAGE_SIZE < 2 ^ 35 := by
  show v / 4096 < 2 ^ 35
  omega

theorem tablePath_inj_lower {v w : Nat} (hv : v < 2 ^ 47) (hw : w < 2 ^ 47) :
    (tablePath v = tablePath w ∧ ptIndex v = ptIndex w)
      ↔ v / PAGE_SIZE = w / PAGE_SIZE := by
  have hs : PAGE_SIZE = 4096 := rfl
  rw [tablePath_inj, hs]
  omega

variable {σ : Type} {alloc : σ → Option (σ × Nat)} {s s' : Machine σ}

theorem nextTable_false (table index : Nat) (flags : Word) :
    nextTable alloc s table index flags false
      = (s, child s.mem table index) := by
  unfold nextTable child
  by_cases h : hasFlag (s.mem table index) PAGE_PRESENT = true
  · simp [h]
  · simp [h]

theorem lookupPt_false (root virt : Nat) (flags : Word) :
    lookupPt alloc s root virt false flags
      = (s, walk (child s.mem) root (tablePath virt)) := by
  unfold lookupPt tablePath
  rw [nextTable_false, walk_cons]
  cases child s.mem root (pml4Index virt) with
  | none => rfl
  | some pdpt =>
      simp only [Option.bind_some, walk_cons]
      rw [nextTable_false]
      cases child s.mem pdpt (pdptIndex virt) with
      | none => rfl
      | some pd =>
          simp only [Option.bind_some, nextTable_false]
          cases child s.mem pd (pdIndex virt) with
          | none => rfl
          | some pt => rfl

theorem lookupLeaf_false (root virt : Nat) (flags : Word) :
    lookupLeaf alloc s root virt false flags
      = (s, (walk (child s.mem) root (tablePath virt)).map
          fun pt => (pt, ptIndex virt)) := by
  unfold lookupLeaf
  rw [lookupPt_false]
  cases walk (child s.mem) root (tablePath virt) with
  | none => rfl
  | some pt => rfl

/-- The tables on the way to a last-level table. -/
theorem walk_tablePath {mem : Nat → Nat → Word} {k virt pt : Nat}
    (h : walk (child mem) k (tablePath virt) = some pt) :
    ∃ pdpt pd, child mem k (pml4Index virt) = some pdpt
      ∧ child mem pdpt (pdptIndex virt) = some pd ∧ child mem pd (pdIndex virt) = some pt := by
  unfold tablePath at h
  rw [walk_cons] at h
  obtain ⟨pdpt, h1, h⟩ := Option.bind_eq_some_iff.mp h
  rw [walk_cons] at h
  obtain ⟨pd, h2, h⟩ := Option.bind_eq_some_iff.mp h
  rw [walk_cons] at h
  obtain ⟨pt', h3, h⟩ := Option.bind_eq_some_iff.mp h
  cases h
  exact ⟨pdpt, pd, h1, h2, h3⟩

/-- A walk to a table that is there takes no frame. -/
theorem nextTable_present {f i g : Nat} {c : Bool} {flags : Word} (h : child s.mem f i = some g) :
    nextTable alloc s f i flags c = (s, some g) := by
  obtain ⟨hp, rfl⟩ := child_eq_some.mp h
  unfold nextTable
  simp only
  rw [if_pos hp]

theorem lookupPt_present {k virt pt : Nat} {c : Bool} {flags : Word}
    (h : walk (child s.mem) k (tablePath virt) = some pt) :
    lookupPt alloc s k virt c flags = (s, some pt) := by
  obtain ⟨pdpt, pd, h1, h2, h3⟩ := walk_tablePath h
  unfold lookupPt
  simp only [nextTable_present h1, nextTable_present h2, nextTable_present h3]

/-- `paging_virt_to_phys` is a function of the leaf word. -/
theorem pagingVirtToPhys_eq (root virt : Nat) :
    pagingVirtToPhys alloc s (some root) virt
      = if hasFlag (leaf s.mem root virt) PAGE_PRESENT then
          (leaf s.mem root virt &&& PAGE_ADDR_MASK).toNat + virt % PAGE_SIZE
        else 0 := by
  unfold pagingVirtToPhys leaf
  simp only [lookupLeaf_false]
  cases walk (child s.mem) root (tablePath virt) with
  | none => simp [hasFlag]
  | some pt =>
      simp only [Option.map_some]
      rw [or_offset _ (Nat.mod_lt _ (by decide))]
      cases hasFlag (s.mem pt (ptIndex virt)) PAGE_PRESENT with
      | false => rfl
      | true => rfl

/-- So is `paging_get_flags`. -/
theorem pagingGetFlags_eq (root virt : Nat) :
    pagingGetFlags alloc s (some root) virt
      = if hasFlag (leaf s.mem root virt) PAGE_PRESENT then
          leaf s.mem root virt &&& (PAGE_PRESENT ||| PTE_FLAGS)
        else 0 := by
  unfold pagingGetFlags leaf
  simp only [lookupLeaf_false]
  cases walk (child s.mem) root (tablePath virt) with
  | none => simp [hasFlag]
  | some pt =>
      simp only [Option.map_some]
      cases hasFlag (s.mem pt (ptIndex virt)) PAGE_PRESENT with
      | false => rfl
      | true => rfl

-- ==== the invariant

/-- Paths to a table of the lower half. -/
def Lower (p : List Nat) : Prop := p.length ≤ 3 ∧ ∀ i ∈ p.head?, i < 256

theorem lower_owned : Owned Lower where
  nil := ⟨by simp, by simp⟩
  init := by
    intro p i h
    refine ⟨by have := h.1; simp at this; omega, fun j hj => h.2 j ?_⟩
    cases p with
    | nil => simp at hj
    | cons a p => simpa using hj

theorem lower_tablePath {virt : Nat} (h : virt < 2 ^ 47) :
    Lower (tablePath virt) := by
  refine ⟨by simp [tablePath], ?_⟩
  intro i hi
  simp only [tablePath, List.head?_cons, Option.mem_def, Option.some.injEq,
    pml4Index] at hi
  omega

/-- Slot `j` of frame `f` belongs to a table of the lower half. -/
def Slot (mem : Nat → Nat → Word) (R : Nat → Prop) (f j : Nat) : Prop :=
  ∃ r q, R r ∧ Lower q ∧ (q = [] → j < 256) ∧ walk (child mem) r q = some f

theorem Slot.table {mem : Nat → Nat → Word} {R : Nat → Prop} {f j : Nat}
    (h : Slot mem R f j) : Tables (child mem) R Lower f := by
  obtain ⟨r, q, hr, hq, -, hw⟩ := h
  exact ⟨r, q, hr, hq, hw⟩

/-- What the tables ask of an allocator: `P m T` says that the frames in
`T` are held in its state `m`, and a frame it hands out is a new one. -/
structure Supplies (alloc : σ → Option (σ × Nat))
    (P : σ → (Nat → Prop) → Prop) : Prop where
  step : ∀ {m m' T f}, P m T → alloc m = some (m', f) →
    ¬ T f ∧ f < 2 ^ 40 ∧ P m' (fun g => g = f ∨ T g)

/-- The tables below the roots `R` form a forest of held frames. -/
structure Inv (P : σ → (Nat → Prop) → Prop) (s : Machine σ)
    (R T : Nat → Prop) : Prop where
  forest : Forest (child s.mem) R Lower
  held : ∀ f, Tables (child s.mem) R Lower f → T f
  pmm : P s.pmm T

/-- A step that writes, of the held frames, only slots of the tables. -/
structure Framed (s s' : Machine σ) (R T : Nat → Prop) : Prop where
  frame : ∀ f j, T f → ¬ Slot s.mem R f j → s'.mem f j = s.mem f j
  slot : ∀ f j, T f → Slot s'.mem R f j → Slot s.mem R f j

theorem Framed.trans {s₁ s₂ s₃ : Machine σ} {R T T' : Nat → Prop}
    (h₁ : Framed s₁ s₂ R T) (h₂ : Framed s₂ s₃ R T') (hT : ∀ f, T f → T' f) :
    Framed s₁ s₃ R T where
  frame := by
    intro f j hf hs
    rw [h₂.frame f j (hT f hf) fun hs' => hs (h₁.slot f j hf hs')]
    exact h₁.frame f j hf hs
  slot := fun f j hf hs => h₁.slot f j hf (h₂.slot f j (hT f hf) hs)

/-- A framed step that changes no leaf word of the lower half. -/
structure Grows (s s' : Machine σ) (R T : Nat → Prop) : Prop
    extends Framed s s' R T where
  leaf : ∀ r v, R r → v < 2 ^ 47 → leaf s'.mem r v = leaf s.mem r v

theorem Grows.refl (s : Machine σ) (R T : Nat → Prop) : Grows s s R T :=
  ⟨⟨fun _ _ _ _ => rfl, fun _ _ _ h => h⟩, fun _ _ _ _ => rfl⟩

theorem Grows.trans {s₁ s₂ s₃ : Machine σ} {R T T' : Nat → Prop}
    (h₁ : Grows s₁ s₂ R T) (h₂ : Grows s₂ s₃ R T') (hT : ∀ f, T f → T' f) :
    Grows s₁ s₃ R T where
  toFramed := h₁.toFramed.trans h₂.toFramed hT
  leaf := fun r v hr hv => (h₂.leaf r v hr hv).trans (h₁.leaf r v hr hv)

-- ==== storing

theorem Machine.store_mem (s : Machine σ) (f i : Nat) (w : Word)
    (g j : Nat) :
    (s.store f i w).mem g j = if g = f ∧ j = i then w else s.mem g j := by
  unfold store
  by_cases hg : g = f
  · subst hg
    by_cases hj : j = i
    · subst hj
      simp
    · simp [hj]
  · simp [hg]

theorem child_store (s : Machine σ) (f i : Nat) (w : Word) {g j : Nat}
    (h : ¬ (g = f ∧ j = i)) :
    child (s.store f i w).mem g j = child s.mem g j :=
  child_congr (by rw [s.store_mem, if_neg h])

/-- A frame that is cleared has no children. -/
theorem child_clear (s : Machine σ) (g j : Nat) :
    child (s.clear g).mem g j = none := by
  unfold child Machine.clear
  simp [hasFlag]

theorem clear_mem_ne (s : Machine σ) {f g : Nat} (h : f ≠ g) :
    (s.clear g).mem f = s.mem f := by
  unfold Machine.clear
  simp [h]

-- ==== growing the tables

variable {P : σ → (Nat → Prop) → Prop} {R T : Nat → Prop}

section off

variable (h : Inv P s R T) (hm : ∀ f, T f → s'.mem f = s.mem f)

include h hm

/-- Walks do not see words outside the held frames. -/
theorem Inv.walk_off {r : Nat} {p : List Nat} (hr : R r) (hp : Lower p) :
    walk (child s'.mem) r p = walk (child s.mem) r p := by
  refine walk_congr lower_owned (fun q i f hq hw => ?_) hp
  have hT : T f := h.held f ⟨r, q, hr, lower_owned.init q i hq, hw⟩
  exact child_congr (congrFun (hm f hT) i)

/-- Nor does anything else the invariant speaks of. -/
theorem Inv.off : Forest (child s'.mem) R Lower
    ∧ (∀ f, Tables (child s'.mem) R Lower f → T f) ∧ Grows s s' R T := by
  have hwalk := fun {r p} => h.walk_off hm (r := r) (p := p)
  have hheld : ∀ f, Tables (child s'.mem) R Lower f → T f := by
    intro f hf
    obtain ⟨r, p, hr, hp, hw⟩ := hf
    exact h.held f ⟨r, p, hr, hp, by rw [← hwalk hr hp, hw]⟩
  refine ⟨⟨fun hr hr' hp hp' hw hw' => ?_⟩, hheld, ⟨⟨?_, ?_⟩, ?_⟩⟩
  · rw [hwalk hr hp] at hw
    rw [hwalk hr' hp'] at hw'
    exact h.forest.sep hr hr' hp hp' hw hw'
  · intro f j hf _
    rw [hm f hf]
  · intro f j _ hs
    obtain ⟨r, q, hr, hq, hj, hw⟩ := hs
    exact ⟨r, q, hr, hq, hj, by rw [← hwalk hr hq, hw]⟩
  · intro r v hr hv
    unfold leaf
    have hp := lower_tablePath hv
    rw [hwalk hr hp]
    cases hw : walk (child s.mem) r (tablePath v) with
    | none => rfl
    | some pt =>
        show s'.mem pt (ptIndex v) = s.mem pt (ptIndex v)
        rw [hm pt (h.held pt ⟨r, _, hr, hp, hw⟩)]

end off

/-- What linking a cleared frame below a slot of another writes. -/
theorem link_mem {f g i : Nat} {w : Word} {m : σ} (hfg : f ≠ g)
    (hpres : hasFlag w PAGE_PRESENT = true) (hg : tableVirt w = g)
    (hs : s' = ({ s with pmm := m }.clear g).store f i w) :
    (∀ x j, x ≠ g → ¬ (x = f ∧ j = i) → s'.mem x j = s.mem x j)
      ∧ child s'.mem f i = some g ∧ ∀ j, s'.mem g j = 0 := by
  refine ⟨fun x j hx hxj => ?_, ?_, fun j => ?_⟩
  · rw [hs, Machine.store_mem, if_neg hxj, clear_mem_ne _ hx]
  · have hword : s'.mem f i = w := by
      rw [hs, Machine.store_mem, if_pos ⟨rfl, rfl⟩]
    exact child_eq_some.mpr ⟨by rw [hword]; exact hpres, by rw [hword]; exact hg⟩
  · rw [hs, Machine.store_mem, if_neg fun e => hfg e.1.symm]
    simp [Machine.clear]

/-- A zero word is no child. -/
theorem child_zero {mem : Nat → Nat → Word} {f j : Nat} (h : mem f j = 0) :
    child mem f j = none := by
  unfold child
  rw [h]
  rfl

/-- A fresh table linked below an empty slot. -/
theorem Inv.link (h : Inv P s R T) {r f g i : Nat} {q : List Nat} {w : Word}
    (hr : R r) (hq : Lower (q ++ [i]))
    (hw : walk (child s.mem) r q = some f) (hempty : child s.mem f i = none)
    (hfresh : ¬ T g) (hpres : hasFlag w PAGE_PRESENT = true)
    (hg : tableVirt w = g) {m : σ} (hP : P m (fun x => x = g ∨ T x))
    (hs : s' = ({ s with pmm := m }.clear g).store f i w) :
    Inv P s' R (fun x => x = g ∨ T x) ∧ Grows s s' R T
      ∧ walk (child s'.mem) r (q ++ [i]) = some g := by
  have hq0 := lower_owned.init q i hq
  have hTf : T f := h.held f ⟨r, q, hr, hq0, hw⟩
  have hfg : f ≠ g := fun e => hfresh (by rw [← e]; exact hTf)
  obtain ⟨hmem, hnew, hclear⟩ := link_mem hfg hpres hg hs
  have hrest : ∀ x j, x ≠ g → ¬ (x = f ∧ j = i) →
      child s'.mem x j = child s.mem x j := fun x j hx hxj => child_congr (hmem x j hx hxj)
  have hzero : ∀ j, child s'.mem g j = none := fun j => child_zero (hclear j)
  have hnot : ¬ Tables (child s.mem) R Lower g :=
    fun ht => hfresh (h.held g ht)
  have hwalk := fun {t p} => h.forest.walk_link lower_owned hr hq hw hempty
    hnot hnew hzero hrest (t := t) (p := p)
  refine ⟨⟨?_, ?_, by rw [hs]; exact hP⟩, ⟨⟨?_, ?_⟩, ?_⟩, ?_⟩
  · exact h.forest.link lower_owned hr hq hw hempty hnot hnew hzero hrest
  · intro x hx
    obtain ⟨t, p, ht, hp, hwx⟩ := hx
    rw [hwalk ht hp] at hwx
    split at hwx
    case isTrue => exact Or.inl (Option.some.inj hwx).symm
    case isFalse => exact Or.inr (h.held x ⟨t, p, ht, hp, hwx⟩)
  · intro x j hx hns
    refine hmem x j (fun e => hfresh (by rw [← e]; exact hx)) fun e => hns ?_
    refine ⟨r, q, hr, hq0, ?_, by rw [e.1, hw]⟩
    intro hnil
    subst hnil
    rw [e.2]
    exact hq.2 i (by simp)
  · intro x j hx hsl
    obtain ⟨t, p, ht, hp, hj, hwx⟩ := hsl
    rw [hwalk ht hp] at hwx
    split at hwx
    case isTrue =>
      exact (hfresh (by rw [Option.some.inj hwx]; exact hx)).elim
    case isFalse => exact ⟨t, p, ht, hp, hj, hwx⟩
  -- leaf words: a last-level table is either old or the fresh zero one
  · intro t v ht hv
    have hp := lower_tablePath hv
    unfold leaf
    rw [hwalk ht hp]
    by_cases hnode : t = r ∧ tablePath v = q ++ [i]
    · rw [if_pos hnode, hnode.1, hnode.2, walk_snoc_of hw, hempty]
      exact hclear (ptIndex v)
    · rw [if_neg hnode]
      cases hwv : walk (child s.mem) t (tablePath v) with
      | none => rfl
      | some pt =>
          refine hmem pt _ ?_ ?_
          · intro e
            exact hnot ⟨t, _, ht, hp, by rw [hwv, e]⟩
          · intro e
            obtain ⟨-, hqv⟩ := h.forest.sep ht hr hp hq0 hwv (by rw [hw, e.1])
            have := hq.1
            rw [← hqv] at this
            simp [tablePath] at this
  · rw [hwalk hr hq, if_pos ⟨rfl, rfl⟩]

/-- The entry `next_table` links a fresh table with. -/
def tableEntry (phys : Nat) (flags : Word) : Word :=
  let entry := BitVec.ofNat 64 phys ||| PAGE_PRESENT ||| PAGE_WRITE
  if hasFlag flags PAGE_USER then entry ||| PAGE_USER else entry

theorem tableEntry_present (phys : Nat) (flags : Word) :
    hasFlag (tableEntry phys flags) PAGE_PRESENT = true := by
  unfold tableEntry
  rw [hasFlag_pageBit _ (by decide)]
  split <;>
  · simp only [BitVec.getLsbD_or, getLsbD_pageBit]
    simp

theorem tableVirt_tableEntry {pfn : Nat} (h : pfn < 2 ^ 40) (flags : Word) :
    tableVirt (tableEntry (pfnPhys pfn) flags) = pfn := by
  unfold tableEntry
  split <;>
  · simp only [tableVirt_or (show PAGE_PRESENT &&& PAGE_ADDR_MASK = 0 by decide),
      tableVirt_or (show PAGE_WRITE &&& PAGE_ADDR_MASK = 0 by decide),
      tableVirt_or (show PAGE_USER &&& PAGE_ADDR_MASK = 0 by decide)]
    exact tableVirt_ofNat h

/-- Everything `next_table` can do when it may create: find a present
entry, find no frame, take frame 0 and drop it, or link a fresh table. -/
theorem nextTable_cases {f i : Nat} {flags : Word} {o : Option Nat}
    (h : nextTable alloc s f i flags true = (s', o)) :
    (o = child s.mem f i ∧ o ≠ none ∧ s' = s)
    ∨ (child s.mem f i = none ∧ o = none ∧ s' = s ∧ alloc s.pmm = none)
    ∨ (∃ m, alloc s.pmm = some (m, 0) ∧ child s.mem f i = none ∧ o = none
        ∧ s' = { s with pmm := m }.clear 0)
    ∨ ∃ m g, alloc s.pmm = some (m, g) ∧ child s.mem f i = none
        ∧ o = some (tableVirt (BitVec.ofNat 64 (pfnPhys g)))
        ∧ s' = ({ s with pmm := m }.clear g).store f i
            (tableEntry (pfnPhys g) flags) := by
  unfold nextTable at h
  unfold child
  by_cases hp : hasFlag (s.mem f i) PAGE_PRESENT = true
  · rw [if_pos hp] at h ⊢
    obtain ⟨rfl, rfl⟩ := Prod.mk.inj h
    exact Or.inl ⟨rfl, by simp, rfl⟩
  · rw [if_neg hp] at h ⊢
    right
    unfold allocTable at h
    cases ha : alloc s.pmm with
    | none =>
        simp [ha] at h
        exact Or.inl ⟨rfl, h.2.symm, h.1.symm, rfl⟩
    | some res =>
        obtain ⟨m, g⟩ := res
        right
        by_cases hg : g = 0
        · subst hg
          simp [ha, pfnPhys] at h
          exact Or.inl ⟨m, rfl, rfl, h.2.symm, h.1.symm⟩
        · have hne : pfnPhys g ≠ 0 := by
            show g * 4096 ≠ 0
            omega
          simp only [ha, Bool.not_true, Bool.false_eq_true, if_false, hne] at h
          obtain ⟨rfl, rfl⟩ := Prod.mk.inj h
          exact Or.inr ⟨m, g, rfl, rfl, rfl, rfl⟩

/-- A last-level table is on no path to another table. -/
theorem Inv.leaf_off_path (h : Inv P s R T) {r v pt : Nat} (w : Word)
    (hr : R r) (hv : v < 2 ^ 47)
    (hw : walk (child s.mem) r (tablePath v) = some pt) {t f i : Nat}
    {q : List Nat} (ht : R t) (hq : Lower (q ++ [i]))
    (hwq : walk (child s.mem) t q = some f) :
    child (s.store pt (ptIndex v) w).mem f i = child s.mem f i := by
  refine child_store s _ _ _ fun e => ?_
  obtain ⟨-, hqv⟩ := h.forest.sep ht hr (lower_owned.init q i hq)
    (lower_tablePath hv) hwq (by rw [hw, e.1])
  have := hq.1
  rw [hqv] at this
  simp [tablePath] at this

/-- So a store into a leaf slot changes no walk. -/
theorem Inv.walk_store_leaf (h : Inv P s R T) {r v pt : Nat} (w : Word)
    (hr : R r) (hv : v < 2 ^ 47)
    (hw : walk (child s.mem) r (tablePath v) = some pt) {t : Nat} {p : List Nat}
    (ht : R t) (hp : Lower p) :
    walk (child (s.store pt (ptIndex v) w).mem) t p = walk (child s.mem) t p :=
  walk_congr lower_owned
    (fun _ _ _ hq hwq => h.leaf_off_path w hr hv hw ht hq hwq) hp

/-- A store into the leaf slot of page `v` of root `r`: one leaf word
changes, and no table. -/
theorem Inv.store_leaf (h : Inv P s R T) {r v pt : Nat} (w : Word)
    (hr : R r) (hv : v < 2 ^ 47)
    (hw : walk (child s.mem) r (tablePath v) = some pt)
    (hs : s' = s.store pt (ptIndex v) w) :
    Inv P s' R T ∧ Framed s s' R T
      ∧ ∀ t u, R t → u < 2 ^ 47 → leaf s'.mem t u
          = if t = r ∧ u / PAGE_SIZE = v / PAGE_SIZE then w
            else leaf s.mem t u := by
  have hp := lower_tablePath hv
  have hwalk : ∀ t p, R t → Lower p →
      walk (child s'.mem) t p = walk (child s.mem) t p := fun t p ht hp => by
    rw [hs]
    exact h.walk_store_leaf w hr hv hw ht hp
  refine ⟨⟨?_, ?_, by rw [hs]; exact h.pmm⟩, ⟨?_, ?_⟩, ?_⟩
  · refine h.forest.congr lower_owned fun t q i f ht hq hwq => ?_
    rw [hs]
    exact h.leaf_off_path w hr hv hw ht hq hwq
  · intro f hf
    obtain ⟨t, p, ht, hpp, hwp⟩ := hf
    exact h.held f ⟨t, p, ht, hpp, by rw [← hwalk t p ht hpp, hwp]⟩
  · intro f j _ hns
    rw [hs, Machine.store_mem, if_neg]
    intro e
    exact hns ⟨r, _, hr, hp, by simp [tablePath], by rw [hw, e.1]⟩
  · intro f j _ hsl
    obtain ⟨t, p, ht, hpp, hj, hwp⟩ := hsl
    exact ⟨t, p, ht, hpp, hj, by rw [← hwalk t p ht hpp, hwp]⟩
  · intro t u ht hu
    have hpu := lower_tablePath hu
    have hpage := tablePath_inj_lower hu hv
    unfold leaf
    rw [hwalk t _ ht hpu]
    cases hwu : walk (child s.mem) t (tablePath u) with
    | none =>
        rw [if_neg]
        intro e
        rw [e.1, (hpage.mpr e.2).1, hw] at hwu
        cases hwu
    | some x =>
        show s'.mem x (ptIndex u) = _
        rw [hs, Machine.store_mem]
        by_cases he : t = r ∧ u / PAGE_SIZE = v / PAGE_SIZE
        · rw [if_pos he, if_pos]
          rw [he.1, (hpage.mpr he.2).1, hw] at hwu
          exact ⟨(Option.some.inj hwu).symm, (hpage.mpr he.2).2⟩
        · rw [if_neg he, if_neg]
          intro e
          obtain ⟨ht', hp'⟩ := h.forest.sep ht hr hpu hp hwu (by rw [hw, e.1])
          exact he ⟨ht', hpage.mp ⟨hp', e.2⟩⟩

variable (hS : Supplies alloc P)

include hS

/-- `next_table` keeps the forest and every leaf word, and leads where
the walk leads. -/
theorem Inv.grow_nextTable (h : Inv P s R T) {r f i : Nat} {q : List Nat}
    {flags : Word} {o : Option Nat} (hr : R r) (hq : Lower (q ++ [i]))
    (hw : walk (child s.mem) r q = some f)
    (hn : nextTable alloc s f i flags true = (s', o)) :
    ∃ T', (∀ x, T x → T' x) ∧ Inv P s' R T' ∧ Grows s s' R T
      ∧ ∀ g, o = some g → walk (child s'.mem) r (q ++ [i]) = some g := by
  obtain ⟨ho, -, rfl⟩ | ⟨-, rfl, rfl, -⟩ | ⟨m, ha, -, rfl, rfl⟩ |
    ⟨m, g, ha, hempty, rfl, hs'⟩ := nextTable_cases hn
  · refine ⟨T, fun _ hx => hx, h, Grows.refl _ _ _, fun g hg => ?_⟩
    rw [walk_snoc_of hw, ← ho, hg]
  · exact ⟨T, fun _ hx => hx, h, Grows.refl _ _ _, fun g hg => by cases hg⟩
  · obtain ⟨hfresh, -, hP⟩ := hS.step h.pmm ha
    have hmem : ∀ x, T x → ({ s with pmm := m }.clear 0).mem x = s.mem x :=
      fun x hx => clear_mem_ne _ fun e => hfresh (by rw [← e]; exact hx)
    obtain ⟨hf, hheld, hgrow⟩ := h.off hmem
    exact ⟨_, fun _ hx => Or.inr hx, ⟨hf, fun x hx => Or.inr (hheld x hx), hP⟩,
      hgrow, fun g hg => by cases hg⟩
  · obtain ⟨hfresh, hlt, hP⟩ := hS.step h.pmm ha
    obtain ⟨hinv, hgrow, hwalk⟩ := h.link hr hq hw hempty hfresh
      (tableEntry_present _ flags) (tableVirt_tableEntry hlt flags) hP hs'
    refine ⟨_, fun _ hx => Or.inr hx, hinv, hgrow, fun x hx => ?_⟩
    rw [hwalk, ← hx, tableVirt_ofNat hlt]

/-- `lookup_pt` with `create`. -/
theorem Inv.grow_lookupPt (h : Inv P s R T) {r v : Nat} {flags : Word}
    {o : Option Nat} (hr : R r) (hv : v < 2 ^ 47)
    (hl : lookupPt alloc s r v true flags = (s', o)) :
    ∃ T', (∀ x, T x → T' x) ∧ Inv P s' R T' ∧ Grows s s' R T
      ∧ ∀ pt, o = some pt → walk (child s'.mem) r (tablePath v) = some pt := by
  have hp3 : Lower ([pml4Index v, pdptIndex v] ++ [pdIndex v]) :=
    lower_tablePath hv
  have hp2 : Lower ([pml4Index v] ++ [pdptIndex v]) := lower_owned.init _ _ hp3
  have hp1 : Lower ([] ++ [pml4Index v]) := lower_owned.init _ _ hp2
  unfold lookupPt at hl
  cases h1 : nextTable alloc s r (pml4Index v) flags true with
  | mk s1 o1 =>
      obtain ⟨T1, ht1, inv1, grow1, walk1⟩ := h.grow_nextTable hS hr hp1 rfl h1
      cases o1 with
      | none =>
          simp only [h1] at hl
          obtain ⟨rfl, rfl⟩ := Prod.mk.inj hl
          exact ⟨T1, ht1, inv1, grow1, fun pt hpt => by cases hpt⟩
      | some pdpt =>
          simp only [h1] at hl
          cases h2 : nextTable alloc s1 pdpt (pdptIndex v) flags true with
          | mk s2 o2 =>
              obtain ⟨T2, ht2, inv2, grow2, walk2⟩ :=
                inv1.grow_nextTable hS hr hp2 (walk1 pdpt rfl) h2
              have hgrow := grow1.trans grow2 ht1
              cases o2 with
              | none =>
                  simp only [h2] at hl
                  obtain ⟨rfl, rfl⟩ := Prod.mk.inj hl
                  exact ⟨T2, fun x hx => ht2 x (ht1 x hx), inv2, hgrow,
                    fun pt hpt => by cases hpt⟩
              | some pd =>
                  simp only [h2] at hl
                  obtain ⟨T3, ht3, inv3, grow3, walk3⟩ :=
                    inv2.grow_nextTable hS hr hp3 (walk2 pd rfl) hl
                  exact ⟨T3, fun x hx => ht3 x (ht2 x (ht1 x hx)), inv3,
                    hgrow.trans grow3 fun x hx => ht2 x (ht1 x hx), walk3⟩

-- ==== mapping and unmapping

/-- The leaf word `paging_map_page` stores. -/
def pte (phys : Nat) (flags : Word) : Word :=
  (BitVec.ofNat 64 phys &&& PAGE_ADDR_MASK) ||| flagsToPte flags

/-- `paging_map_page` in the lower half: on success one leaf word changes,
on failure none. -/
theorem Inv.map_page (h : Inv P s R T) {r virt phys : Nat} {flags : Word}
    {rc : Int} (hr : R r) (hv : virt < 2 ^ 47)
    (hm : pagingMapPage alloc s (some r) virt phys flags = (s', rc)) :
    ∃ T', (∀ x, T x → T' x) ∧ Inv P s' R T' ∧ Framed s s' R T
      ∧ ((rc = 0 ∧ ∀ t u, R t → u < 2 ^ 47 → leaf s'.mem t u
            = if t = r ∧ u / PAGE_SIZE = virt / PAGE_SIZE then pte phys flags
              else leaf s.mem t u)
        ∨ (rc = -1 ∧ ∀ t u, R t → u < 2 ^ 47 →
            leaf s'.mem t u = leaf s.mem t u)) := by
  unfold pagingMapPage at hm
  simp only at hm
  split at hm
  case isTrue =>
    obtain ⟨rfl, rfl⟩ := Prod.mk.inj hm
    have hgrow := Grows.refl s R T
    exact ⟨T, fun _ hx => hx, h, hgrow.toFramed, Or.inr ⟨rfl, hgrow.leaf⟩⟩
  case isFalse =>
    unfold lookupLeaf at hm
    cases hl : lookupPt alloc s r virt true flags with
    | mk s1 o =>
        obtain ⟨T', hT, hinv, hgrow, hwalk⟩ := h.grow_lookupPt hS hr hv hl
        cases o with
        | none =>
            simp only [hl] at hm
            obtain ⟨rfl, rfl⟩ := Prod.mk.inj hm
            exact ⟨T', hT, hinv, hgrow.toFramed, Or.inr ⟨rfl, hgrow.leaf⟩⟩
        | some pt =>
            simp only [hl] at hm
            obtain ⟨hs', rfl⟩ := Prod.mk.inj hm
            obtain ⟨hinv', hframe, hleaf⟩ := hinv.store_leaf (pte phys flags)
              hr hv (hwalk pt rfl) hs'.symm
            refine ⟨T', hT, hinv', hgrow.toFramed.trans hframe hT,
              Or.inl ⟨rfl, fun t u ht hu => ?_⟩⟩
            rw [hleaf t u ht hu, hgrow.leaf t u ht hu]

omit hS

/-- `paging_unmap_page` in the lower half clears one leaf word. -/
theorem Inv.unmap_page (h : Inv P s R T) {r virt : Nat} (hr : R r)
    (hv : virt < 2 ^ 47) (ha : virt % PAGE_SIZE = 0)
    (hs : s' = pagingUnmapPage alloc s (some r) virt) :
    Inv P s' R T ∧ Framed s s' R T
      ∧ ∀ t u, R t → u < 2 ^ 47 → leaf s'.mem t u
          = if t = r ∧ u / PAGE_SIZE = virt / PAGE_SIZE then 0
            else leaf s.mem t u := by
  unfold pagingUnmapPage at hs
  simp only [ha, ne_eq, not_true_eq_false, if_false, lookupLeaf_false] at hs
  cases hw : walk (child s.mem) r (tablePath virt) with
  | none =>
      simp only [hw, Option.map_none] at hs
      subst hs
      refine ⟨h, (Grows.refl _ _ _).toFramed, fun t u ht hu => ?_⟩
      split
      case isTrue e =>
        unfold leaf
        rw [e.1, ((tablePath_inj_lower hu hv).mpr e.2).1, hw]
      case isFalse => rfl
  | some pt =>
      simp only [hw, Option.map_some] at hs
      exact h.store_leaf 0 hr hv hw hs

-- ==== new roots

/-- The copy loop of `ptable_create`. -/
theorem copyLoop {pt k : Nat} (hk : k ≠ pt) (l : List Nat) (s : Machine σ) :
    (l.foldl (fun s i => s.store pt i (s.mem k i)) s).pmm = s.pmm
      ∧ ∀ f j, (l.foldl (fun s i => s.store pt i (s.mem k i)) s).mem f j
          = if f = pt ∧ j ∈ l then s.mem k j else s.mem f j := by
  induction l generalizing s with
  | nil => exact ⟨rfl, fun f j => by simp⟩
  | cons i l ih =>
      obtain ⟨hp, hm⟩ := ih (s.store pt i (s.mem k i))
      rw [List.foldl_cons]
      refine ⟨hp, fun f j => ?_⟩
      have hsrc : (s.store pt i (s.mem k i)).mem k j = s.mem k j := by
        rw [Machine.store_mem, if_neg fun e => hk e.1]
      rw [hm f j, hsrc, Machine.store_mem]
      by_cases hf : f = pt
      · by_cases hj : j ∈ l
        · simp [hf, hj]
        · by_cases hi : j = i
          · simp [hf, hi]
          · simp [hf, hj, hi]
      · simp [hf]

/-- An empty lower half maps no page. -/
theorem leaf_of_empty {mem : Nat → Nat → Word} {root v : Nat}
    (h : ∀ i, i < 256 → child mem root i = none) (hv : v < 2 ^ 47) :
    leaf mem root v = 0 := by
  unfold leaf tablePath
  rw [walk_cons, h _ (by unfold pml4Index; omega)]
  rfl

/-- The upper half a new root starts with. -/
def kernelEntry (s : Machine σ) (kernelPml4 : Option Nat) (i : Nat) : Word :=
  match kernelPml4 with
  | none => 0
  | some k => s.mem k i

/-- Everything `ptable_create` can do: find no frame, take frame 0 and drop
it, or make a root with the kernel's upper half. -/
theorem ptableCreate_cases {k o : Option Nat}
    (hc : ptableCreate alloc s k = (s', o)) :
    (o = none ∧ alloc s.pmm = none ∧ s' = s)
    ∨ (∃ m, o = none ∧ alloc s.pmm = some (m, 0)
        ∧ s' = { s with pmm := m }.clear 0)
    ∨ ∃ m g, g ≠ 0 ∧ alloc s.pmm = some (m, g)
        ∧ (g < 2 ^ 40 → (∀ k', k = some k' → k' ≠ g) → o = some g
          ∧ s'.pmm = m ∧ ∀ f j, s'.mem f j
            = if f = g then
                (if 256 ≤ j ∧ j < 512 then kernelEntry s k j else 0)
              else s.mem f j) := by
  unfold ptableCreate allocTable at hc
  cases ha : alloc s.pmm with
  | none =>
      simp [ha] at hc
      exact Or.inl ⟨hc.2.symm, rfl, hc.1.symm⟩
  | some res =>
      obtain ⟨m, g⟩ := res
      right
      by_cases hg : g = 0
      · subst hg
        simp [ha, pfnPhys] at hc
        exact Or.inl ⟨m, hc.2.symm, rfl, hc.1.symm⟩
      · have hne : pfnPhys g ≠ 0 := by
          show g * 4096 ≠ 0
          omega
        refine Or.inr ⟨m, g, hg, rfl, fun hlt hk => ?_⟩
        simp only [ha, if_neg hne, tableVirt_ofNat hlt] at hc
        cases k with
        | none =>
            obtain ⟨rfl, rfl⟩ := Prod.mk.inj hc
            refine ⟨rfl, rfl, fun f j => ?_⟩
            by_cases hf : f = g
            · simp [hf, Machine.clear, kernelEntry]
            · simp [hf, clear_mem_ne _ hf]
        | some k' =>
            obtain ⟨hs', rfl⟩ := Prod.mk.inj hc
            have hkg := hk k' rfl
            obtain ⟨hp, hm⟩ := copyLoop hkg (List.range' 256 256)
              ({ s with pmm := m }.clear g)
            rw [hs'] at hp hm
            refine ⟨rfl, hp, fun f j => ?_⟩
            rw [hm f j, clear_mem_ne _ hkg]
            simp only [List.mem_range'_1]
            by_cases hf : f = g
            · simp [hf, Machine.clear, kernelEntry]
            · simp [hf, clear_mem_ne _ hf]

include hS

/-- `ptable_create` plants a root: its lower half is empty, its upper half
is the kernel's, and no held frame is written. -/
theorem Inv.create (h : Inv P s R T) {k : Option Nat} {root : Nat}
    (hk : ∀ k', k = some k' → T k')
    (hc : ptableCreate alloc s k = (s', some root)) :
    ¬ T root ∧ Inv P s' (fun r => r = root ∨ R r) (fun x => x = root ∨ T x)
      ∧ (∀ f, T f → s'.mem f = s.mem f)
      ∧ (∀ i, i < 256 → child s'.mem root i = none)
      ∧ ∀ i, 256 ≤ i → i < 512 → s'.mem root i = kernelEntry s k i := by
  have hrun : ∃ m, alloc s.pmm = some (m, root)
      ∧ s'.pmm = m ∧ ∀ f j, s'.mem f j
        = if f = root then
            (if 256 ≤ j ∧ j < 512 then kernelEntry s k j else 0)
          else s.mem f j := by
    obtain ⟨ho, -⟩ | ⟨m, ho, -⟩ | ⟨m, g, -, ha, hrest⟩ := ptableCreate_cases hc
    · cases ho
    · cases ho
    · obtain ⟨hfresh, hlt, -⟩ := hS.step h.pmm ha
      obtain ⟨ho, hpm, hmem⟩ := hrest hlt fun k' hk' e =>
        hfresh (by rw [← e]; exact hk k' hk')
      cases ho
      exact ⟨m, ha, hpm, hmem⟩
  obtain ⟨m, ha, hpm, hmem⟩ := hrun
  obtain ⟨hfresh, hlt, hP⟩ := hS.step h.pmm ha
  have hold : ∀ f, T f → s'.mem f = s.mem f := by
    intro f hf
    funext j
    rw [hmem f j, if_neg fun e => hfresh (by rw [← e]; exact hf)]
  have hempty : ∀ i, i < 256 → child s'.mem root i = none := by
    intro i hi
    have hlow : ¬ (256 ≤ i ∧ i < 512) := by omega
    exact child_zero (by rw [hmem root i, if_pos rfl, if_neg hlow])
  have hrest : ∀ x j, x ≠ root → child s'.mem x j = child s.mem x j := by
    intro x j hx
    exact child_congr (by rw [hmem x j, if_neg hx])
  refine ⟨hfresh, ⟨?_, ?_, by rw [hpm]; exact hP⟩, hold, hempty, ?_⟩
  · exact h.forest.plant lower_owned (fun ht => hfresh (h.held root ht))
      (fun i hi => hempty i (hi.2 i (by simp))) hrest
  · intro f hf
    obtain ⟨r, p, hr, hp, hw⟩ := hf
    rcases hr with rfl | hr
    · cases p with
      | nil => exact Or.inl (Option.some.inj hw).symm
      | cons i p =>
          rw [walk_cons, hempty i (hp.2 i (by simp))] at hw
          cases hw
    · rw [h.walk_off hold hr hp] at hw
      exact Or.inr (h.held f ⟨r, p, hr, hp, hw⟩)
  · intro i h1 h2
    rw [hmem root i, if_pos rfl, if_pos ⟨h1, h2⟩]

end Alix.Paging
