/-
What the kernel sees after `paging_init`.

# What could go wrong

The extents of the boot map overlap: the direct map has every frame of the
memory map, the image is mapped over it, and the framebuffer may be part of
both. Each call finds tables the calls before it made, takes frames from the
allocator half way, and may stop at any page. The kernel switches to the
result, so a table that was reached twice, or a page that was left behind,
is found by the first access to it.

# What holds

One root and the tables below it are a forest over the whole address range
(`Tree`), so the four indices of a page name one word. A lookup changes no leaf
word, a store changes one. A run of `paging_map_range` that succeeds lays its
extent over what was there (`Tree.mapRange`), and `paging_init` is a sequence of
these (`pagingInit_refines`). Frames that were in use are not written.

What follows from `bootMap` for the layout of a real boot is in `BootMap.lean`.
-/
import Alix.Mm.PagingInit
import Alix.Mm.Proofs.MapRange
import Alix.Mm.Proofs.Rewrites

namespace Alix.Paging

open Radix
open Overlay (overlay overlay_snoc exists_of_overlay)

variable {σ : Type} {A : FrameAlloc σ} {s₀ s s' : Machine σ} {k f i virt phys pt : Nat}
  {flags : Word} {o : Option Nat} {q : List Nat}

-- ==== the tables

/-- The tables of one root are a tree of frames in use. What was in use in
`s₀` is none of them and was not written. -/
structure Tree (A : FrameAlloc σ) (s₀ : Machine σ) (k : Nat) (s : Machine σ) : Prop where
  forest : Forest (child s.mem) (· = k) TablePath
  held : ∀ f, Tables (child s.mem) (· = k) TablePath f → A.inUse s.pmm f
  kept : ∀ f, A.inUse s₀.pmm f → A.inUse s.pmm f
    ∧ ¬ Tables (child s.mem) (· = k) TablePath f ∧ s.mem f = s₀.mem f

/-- No leaf word is another one. -/
def SameLeaves (k : Nat) (s s' : Machine σ) : Prop :=
  ∀ v, leaf s'.mem k v = leaf s.mem k v

namespace Tree

theorem table (h : Tree A s₀ k s) {p : List Nat} (hp : TablePath p)
    (hw : walk (child s.mem) k p = some f) : A.inUse s.pmm f :=
  h.held f ⟨k, p, rfl, hp, hw⟩

/-- A frame is lost to the allocator. -/
theorem lose (h : Tree A s₀ k s) {m : σ} {g : Nat} (ha : A.alloc s.pmm = some (m, g)) :
    Tree A s₀ k ({ s with pmm := m }.clear g)
      ∧ SameLeaves k s ({ s with pmm := m }.clear g) := by
  have hmem : ∀ x, A.inUse s.pmm x → ({ s with pmm := m }.clear g).mem x = s.mem x :=
    fun x hx => clear_mem_ne _ fun e => A.fresh ha (e ▸ hx)
  have hwalk : ∀ p, TablePath p → walk (child ({ s with pmm := m }.clear g).mem) k p
      = walk (child s.mem) k p := by
    intro p hp
    refine walk_congr tablePath_owned (fun q i x hq hw => ?_) hp
    exact child_congr (congrFun (hmem x (h.table (tablePath_owned.init q i hq) hw)) i)
  have htab : ∀ x, Tables (child ({ s with pmm := m }.clear g).mem) (· = k) TablePath x →
      Tables (child s.mem) (· = k) TablePath x := by
    rintro x ⟨r, p, rfl, hp, hw⟩
    exact ⟨r, p, rfl, hp, by rw [← hwalk p hp, hw]⟩
  refine ⟨⟨⟨?_⟩, fun x hx => A.taken ha (Or.inr (h.held x (htab x hx))), fun x hx => ?_⟩,
    fun v => ?_⟩
  · rintro r r' p p' x rfl rfl hp hp' hw hw'
    rw [hwalk p hp] at hw
    rw [hwalk p' hp'] at hw'
    exact h.forest.sep rfl rfl hp hp' hw hw'
  · obtain ⟨hin, hno, hsame⟩ := h.kept x hx
    exact ⟨A.taken ha (Or.inr hin), fun ht => hno (htab x ht), (hmem x hin).trans hsame⟩
  · unfold leaf
    rw [hwalk _ (tablePath_ok v)]
    cases hw : walk (child s.mem) k (tablePath v) with
    | none => rfl
    | some x => exact congrFun (hmem x (h.table (tablePath_ok v) hw)) _

/-- A fresh table goes below an empty slot. -/
theorem link (h : Tree A s₀ k s) {m : σ} {g : Nat} (ha : A.alloc s.pmm = some (m, g))
    (hq : TablePath (q ++ [i])) (hw : walk (child s.mem) k q = some f)
    (hempty : child s.mem f i = none)
    (hs' : s' = ({ s with pmm := m }.clear g).store f i (tableEntry (pfnPhys g) flags)) :
    Tree A s₀ k s' ∧ SameLeaves k s s' ∧ walk (child s'.mem) k (q ++ [i]) = some g := by
  have hq0 := tablePath_owned.init q i hq
  have hfresh := A.fresh ha
  have hf := h.table hq0 hw
  have hfg : f ≠ g := fun e => hfresh (e ▸ hf)
  obtain ⟨hmem, hnew, hclear⟩ := link_mem hfg (tableEntry_present _ _)
    (tableVirt_tableEntry (A.bound ha) flags) hs'
  have hrest : ∀ x j, x ≠ g → ¬ (x = f ∧ j = i) → child s'.mem x j = child s.mem x j :=
    fun x j hx hxj => child_congr (hmem x j hx hxj)
  have hzero : ∀ j, child s'.mem g j = none := fun j => child_zero (hclear j)
  have hnot : ¬ Tables (child s.mem) (· = k) TablePath g := fun ht => hfresh (h.held g ht)
  have hwalk : ∀ p, TablePath p → walk (child s'.mem) k p
      = if k = k ∧ p = q ++ [i] then some g else walk (child s.mem) k p :=
    fun p hp => h.forest.walk_link tablePath_owned rfl hq hw hempty hnot hnew hzero hrest rfl hp
  have hpmm : s'.pmm = m := by rw [hs']; rfl
  have htab : ∀ x, Tables (child s'.mem) (· = k) TablePath x →
      x = g ∨ Tables (child s.mem) (· = k) TablePath x := by
    rintro x ⟨r, p, rfl, hp, hx⟩
    rw [hwalk p hp] at hx
    split at hx
    · exact Or.inl (Option.some.inj hx).symm
    · exact Or.inr ⟨r, p, rfl, hp, hx⟩
  refine ⟨⟨h.forest.link tablePath_owned rfl hq hw hempty hnot hnew hzero hrest, fun x hx => ?_,
    fun x hx => ?_⟩, fun v => ?_, by rw [hwalk _ hq, if_pos ⟨rfl, rfl⟩]⟩
  · rw [hpmm]
    exact A.taken ha ((htab x hx).imp_right (h.held x))
  · obtain ⟨hin, hno, hsame⟩ := h.kept x hx
    have hxg : x ≠ g := fun e => hfresh (e ▸ hin)
    have hxf : x ≠ f := fun e => hno ⟨k, q, rfl, hq0, by rw [hw, e]⟩
    rw [hpmm]
    refine ⟨A.taken ha (Or.inr hin), fun ht => (htab x ht).elim hxg hno, ?_⟩
    rw [← hsame]
    exact funext fun j => hmem x j hxg fun e => hxf e.1
  · -- a last-level table is an old one or the fresh one, which is empty
    have hp := tablePath_ok v
    unfold leaf
    rw [hwalk _ hp]
    by_cases hnode : tablePath v = q ++ [i]
    · rw [if_pos ⟨rfl, hnode⟩, hnode, walk_snoc_of hw, hempty]
      exact hclear (ptIndex v)
    · rw [if_neg fun e => hnode e.2]
      cases hv : walk (child s.mem) k (tablePath v) with
      | none => rfl
      | some x =>
          refine hmem x _ (fun e => hnot ⟨k, _, rfl, hp, by rw [hv, e]⟩) fun e => ?_
          obtain ⟨-, hqv⟩ := h.forest.sep rfl rfl hp hq0 hv (by rw [hw, e.1])
          have hlen := hq.1
          rw [← hqv, List.length_append] at hlen
          exact absurd hlen (by simp [tablePath])

/-- `next_table` below a table. -/
theorem nextTable (h : Tree A s₀ k s) (hq : TablePath (q ++ [i]))
    (hw : walk (child s.mem) k q = some f)
    (hn : Paging.nextTable A.alloc s f i flags true = (s', o)) :
    Tree A s₀ k s' ∧ SameLeaves k s s'
      ∧ ∀ g, o = some g → walk (child s'.mem) k (q ++ [i]) = some g := by
  obtain ⟨ho, -, rfl⟩ | ⟨-, rfl, rfl, -⟩ | ⟨m, ha, -, rfl, rfl⟩ |
    ⟨m, g, ha, hempty, rfl, hs'⟩ := nextTable_cases hn
  · exact ⟨h, fun _ => rfl, fun g hg => by rw [walk_snoc_of hw, ← ho, hg]⟩
  · exact ⟨h, fun _ => rfl, fun g hg => by cases hg⟩
  · obtain ⟨ht, hl⟩ := h.lose ha
    exact ⟨ht, hl, fun g hg => by cases hg⟩
  · obtain ⟨ht, hl, hwalk⟩ := h.link ha hq hw hempty hs'
    refine ⟨ht, hl, fun x hx => ?_⟩
    rw [hwalk, ← hx, tableVirt_ofNat (A.bound ha)]

/-- `lookup_pt` finds the table of an address, or makes it. -/
theorem lookupPt (h : Tree A s₀ k s)
    (hl : Paging.lookupPt A.alloc s k virt true flags = (s', o)) :
    Tree A s₀ k s' ∧ SameLeaves k s s'
      ∧ ∀ g, o = some g → walk (child s'.mem) k (tablePath virt) = some g := by
  have hp3 : TablePath ([pml4Index virt, pdptIndex virt] ++ [pdIndex virt]) := tablePath_ok virt
  have hp2 : TablePath ([pml4Index virt] ++ [pdptIndex virt]) := tablePath_owned.init _ _ hp3
  have hp1 : TablePath ([] ++ [pml4Index virt]) := tablePath_owned.init _ _ hp2
  unfold Paging.lookupPt at hl
  cases h1 : Paging.nextTable A.alloc s k (pml4Index virt) flags true with
  | mk s1 o1 =>
  obtain ⟨t1, l1, w1⟩ := h.nextTable hp1 rfl h1
  cases o1 with
  | none =>
      simp only [h1] at hl
      obtain ⟨rfl, rfl⟩ := Prod.mk.inj hl
      exact ⟨t1, l1, fun g hg => by cases hg⟩
  | some pdpt =>
  simp only [h1] at hl
  cases h2 : Paging.nextTable A.alloc s1 pdpt (pdptIndex virt) flags true with
  | mk s2 o2 =>
  obtain ⟨t2, l2, w2⟩ := t1.nextTable hp2 (w1 pdpt rfl) h2
  have hl2 : SameLeaves k s s2 := fun v => (l2 v).trans (l1 v)
  cases o2 with
  | none =>
      simp only [h2] at hl
      obtain ⟨rfl, rfl⟩ := Prod.mk.inj hl
      exact ⟨t2, hl2, fun g hg => by cases hg⟩
  | some pd =>
      simp only [h2] at hl
      obtain ⟨t3, l3, w3⟩ := t2.nextTable hp3 (w2 pd rfl) hl
      exact ⟨t3, fun v => (l3 v).trans (hl2 v), w3⟩

/-- A store into the leaf slot of a page: one leaf word changes. -/
theorem store (h : Tree A s₀ k s) (w : Word)
    (hw : walk (child s.mem) k (tablePath virt) = some pt) :
    Tree A s₀ k (s.store pt (ptIndex virt) w)
      ∧ walk (child (s.store pt (ptIndex virt) w).mem) k (tablePath virt) = some pt
      ∧ ∀ u, leaf (s.store pt (ptIndex virt) w).mem k u
        = if u / PAGE_SIZE % 2 ^ 36 = virt / PAGE_SIZE % 2 ^ 36 then w else leaf s.mem k u := by
  have hp := tablePath_ok virt
  -- a last-level table is on no path to another table
  have hoff : ∀ q i x, TablePath (q ++ [i]) → walk (child s.mem) k q = some x →
      child (s.store pt (ptIndex virt) w).mem x i = child s.mem x i := by
    intro q i x hq hx
    refine child_store s _ _ _ fun e => ?_
    obtain ⟨-, hqv⟩ := h.forest.sep rfl rfl (tablePath_owned.init q i hq) hp hx (by rw [hw, e.1])
    have hlen := hq.1
    rw [hqv, List.length_append] at hlen
    exact absurd hlen (by simp [tablePath])
  have hwalk : ∀ p, TablePath p → walk (child (s.store pt (ptIndex virt) w).mem) k p
      = walk (child s.mem) k p := fun p hp => walk_congr tablePath_owned hoff hp
  refine ⟨⟨h.forest.congr tablePath_owned fun r q i x hr => by rw [hr]; exact hoff q i x, ?_, ?_⟩,
    (hwalk _ hp).trans hw, fun u => ?_⟩
  · rintro x ⟨r, p, rfl, hpp, hx⟩
    exact h.held x ⟨r, p, rfl, hpp, by rw [← hwalk p hpp, hx]⟩
  · intro x hx
    obtain ⟨hin, hno, hsame⟩ := h.kept x hx
    refine ⟨hin, ?_, ?_⟩
    · rintro ⟨r, p, rfl, hpp, hx⟩
      exact hno ⟨r, p, rfl, hpp, by rw [← hwalk p hpp, hx]⟩
    · rw [← hsame]
      funext j
      rw [Machine.store_mem, if_neg fun e => hno ⟨k, _, rfl, hp, by rw [hw, e.1]⟩]
  · have hpu := tablePath_ok u
    unfold leaf
    rw [hwalk _ hpu]
    by_cases hpage : u / PAGE_SIZE % 2 ^ 36 = virt / PAGE_SIZE % 2 ^ 36
    · obtain ⟨htab, hidx⟩ := tablePath_inj.mpr hpage
      rw [if_pos hpage, htab, hw, hidx]
      simp only
      rw [Machine.store_mem, if_pos ⟨rfl, rfl⟩]
    · rw [if_neg hpage]
      cases hu : walk (child s.mem) k (tablePath u) with
      | none => rfl
      | some x =>
          simp only
          rw [Machine.store_mem, if_neg]
          intro e
          obtain ⟨-, htab⟩ := h.forest.sep rfl rfl hpu hp hu (by rw [hw, e.1])
          exact hpage (tablePath_inj.mp ⟨htab, e.2⟩)

end Tree

-- ==== one extent more

/-- The leaf words are the entries of a map. -/
def Shows (k : Nat) (s : Machine σ) (M : Nat → Option (Nat × Word)) : Prop :=
  ∀ v, leaf s.mem k v = entryOf (M (v / PAGE_SIZE % 2 ^ 36))

/-- An extent over a map. -/
def Extent.over (x : Extent) (M : Nat → Option (Nat × Word)) (page : Nat) :
    Option (Nat × Word) :=
  (x.at page).or (M page)

theorem Extent.at_zero {x : Extent} (h : x.pages = 0) (page : Nat) : x.at page = none := by
  unfold Extent.at
  rw [h]
  exact if_neg (Nat.not_lt_zero _)

/-- The first page of an extent, and the others over it. -/
theorem Extent.at_succ {n p : Nat} (ha : virt % PAGE_SIZE = 0) (hp : p < 2 ^ 36) :
    (Extent.mk virt phys (n + 1) flags).at p
      = ((Extent.mk ((virt + PAGE_SIZE) % 2 ^ 64) ((phys + PAGE_SIZE) % 2 ^ 64) n flags).at p).or
        (if p = virt / PAGE_SIZE % 2 ^ 36 then some (phys % 2 ^ 52, flags) else none) := by
  have hs : PAGE_SIZE = 4096 := rfl
  rw [hs] at ha ⊢
  have hnext : (virt + 4096) % 2 ^ 64 / 4096 % 2 ^ 36 = (virt / 4096 % 2 ^ 36 + 1) % 2 ^ 36 := by
    omega
  have ha36 : virt / 4096 % 2 ^ 36 < 2 ^ 36 := Nat.mod_lt _ (by decide)
  unfold Extent.at
  simp only [hs, hnext, Nat.add_sub_cancel]
  generalize virt / 4096 % 2 ^ 36 = a at ha36
  by_cases hpa : p = a
  · -- a later round of the address space hides the first page
    have hi : (p + 2 ^ 36 - a) % 2 ^ 36 = 0 := by omega
    have hi' : (p + 2 ^ 36 - (a + 1) % 2 ^ 36) % 2 ^ 36 = 2 ^ 36 - 1 := by omega
    rw [hi, hi', if_pos (Nat.succ_pos n), if_pos hpa]
    by_cases hround : 2 ^ 36 - 1 < n
    · rw [if_pos hround, Option.some_or]
      refine congrArg some (Prod.ext ?_ rfl)
      simp only
      omega
    · rw [if_neg hround, Option.none_or]
      refine congrArg some (Prod.ext ?_ rfl)
      simp only
      omega
  · have hi : (p + 2 ^ 36 - a) % 2 ^ 36
        = (p + 2 ^ 36 - (a + 1) % 2 ^ 36) % 2 ^ 36 + 1 := by omega
    rw [hi, if_neg hpa, Option.or_none]
    generalize (p + 2 ^ 36 - (a + 1) % 2 ^ 36) % 2 ^ 36 = j
    by_cases hj : j < n
    · rw [if_pos hj, if_pos (Nat.succ_lt_succ hj)]
      refine congrArg some (Prod.ext ?_ rfl)
      simp only
      omega
    · rw [if_neg hj, if_neg fun h => hj (Nat.lt_of_succ_lt_succ h)]

/-- An entry keeps 52 bits of an address. -/
theorem pte_mod (phys : Nat) (flags : Word) : pte (phys % 2 ^ 52) flags = pte phys flags := by
  unfold pte
  refine congrArg (· ||| flagsToPte flags) (BitVec.eq_of_getLsbD_eq fun i hi => ?_)
  rw [BitVec.getLsbD_and, BitVec.getLsbD_and, getLsbD_addrMask, BitVec.getLsbD_ofNat,
    BitVec.getLsbD_ofNat, Nat.testBit_mod_two_pow]
  by_cases hlt : i < 52
  · simp [hlt]
  · simp [hlt]

namespace Tree

/-- `paging_map_page`, where it succeeds. -/
theorem mapPage (h : Tree A s₀ k s)
    (hm : (pagingMapPage A.alloc s (some k) virt phys flags).2 = 0) :
    virt % PAGE_SIZE = 0 ∧ phys % PAGE_SIZE = 0
      ∧ Tree A s₀ k (pagingMapPage A.alloc s (some k) virt phys flags).1
      ∧ ∀ u, leaf (pagingMapPage A.alloc s (some k) virt phys flags).1.mem k u
        = if u / PAGE_SIZE % 2 ^ 36 = virt / PAGE_SIZE % 2 ^ 36 then pte phys flags
          else leaf s.mem k u := by
  by_cases halign : virt % PAGE_SIZE = 0 ∧ phys % PAGE_SIZE = 0
  · cases hl : Paging.lookupPt A.alloc s k virt true flags with
    | mk s1 o =>
    obtain ⟨h1, hsame, hfound⟩ := h.lookupPt hl
    cases o with
    | none =>
        rw [pagingMapPage_failed halign hl] at hm
        exact absurd hm (show (-1 : Int) ≠ 0 by decide)
    | some pt =>
        rw [pagingMapPage_found halign hl]
        obtain ⟨h2, -, hleaf⟩ := h1.store (pte phys flags) (hfound pt rfl)
        exact ⟨halign.1, halign.2, h2, fun u => by rw [hleaf u, hsame u]⟩
  · have hbad : virt % PAGE_SIZE ≠ 0 ∨ phys % PAGE_SIZE ≠ 0 := by omega
    unfold pagingMapPage at hm
    simp only [if_pos hbad] at hm
    exact absurd hm (show (-1 : Int) ≠ 0 by decide)

/-- A run of pages that succeeds lays its extent over the map. -/
theorem mapPages : ∀ (n : Nat) {s : Machine σ} {virt phys : Nat} {M : Nat → Option (Nat × Word)},
    Tree A s₀ k s → Shows k s M → Paging.mapPages A.alloc (some k) flags n s virt phys = (s', 0) →
    Tree A s₀ k s' ∧ Shows k s' ((Extent.mk virt phys n flags).over M) := by
  intro n
  induction n with
  | zero =>
      intro s virt phys M h hM hrun
      obtain ⟨rfl, -⟩ := Prod.mk.inj hrun
      refine ⟨h, fun v => ?_⟩
      unfold Extent.over
      rw [hM v, Extent.at_zero rfl, Option.none_or]
  | succ n ih =>
      intro s virt phys M h hM hrun
      rw [mapPages_succ] at hrun
      split at hrun
      · rename_i hrc
        exact absurd (congrArg Prod.snd hrun) hrc
      rename_i hrc
      obtain ⟨hv, hp, h1, hleaf⟩ := h.mapPage (not_not.mp hrc)
      have hfirst : Shows k (pagingMapPage A.alloc s (some k) virt phys flags).1
          (fun p => (if p = virt / PAGE_SIZE % 2 ^ 36 then some (phys % 2 ^ 52, flags)
            else none).or (M p)) := by
        intro v
        rw [hleaf v]
        by_cases hpage : v / PAGE_SIZE % 2 ^ 36 = virt / PAGE_SIZE % 2 ^ 36
        · simp only [if_pos hpage, Option.some_or]
          exact (pte_mod phys flags).symm
        · simp only [if_neg hpage, Option.none_or]
          exact hM v
      obtain ⟨h2, hM2⟩ := ih h1 hfirst hrun
      refine ⟨h2, fun v => ?_⟩
      rw [hM2 v]
      unfold Extent.over
      rw [Extent.at_succ hv (Nat.mod_lt _ (by decide)), Option.or_assoc]

/-- `paging_map_range`, where it succeeds. -/
theorem mapRange (h : Tree A s₀ k s) {M : Nat → Option (Nat × Word)} (hM : Shows k s M)
    {size : Nat} (hv : virt < 2 ^ 64) (hp : phys < 2 ^ 64)
    (hrun : pagingMapRange A.alloc s (some k) virt phys size flags = (s', 0)) :
    Tree A s₀ k s'
      ∧ Shows k s' ((Extent.mk virt phys (pageAlignUp size / PAGE_SIZE) flags).over M) := by
  unfold pagingMapRange at hrun
  simp only at hrun
  split at hrun
  · rename_i hsize
    obtain ⟨rfl, -⟩ := Prod.mk.inj hrun
    refine ⟨h, fun v => ?_⟩
    unfold Extent.over
    rw [hM v, hsize, Extent.at_zero rfl, Option.none_or]
  split at hrun
  · exact absurd (congrArg Prod.snd hrun) (show (-1 : Int) ≠ 0 by decide)
  rename_i halign
  rw [(mapRounds_eq A.alloc flags (G := fun t => Tree A s₀ k t) (V := fun _ => True)
    (fun t v t' o hG _ hl => (hG.lookupPt hl).imp_right And.right)
    (fun t v pt w hG _ hw => (hG.store w hw).imp_right And.left) _ (Nat.le_refl _) h
    (fun _ _ => trivial) (by omega) hv hp).1] at hrun
  exact mapPages _ h hM hrun

end Tree

-- ==== the boot

/-- The inputs are words of 64 bits. -/
structure Fits (hhdmOffset : Nat) (image : KernelImage) (db : Pfndb) (memmap : List MemmapEntry)
    (framebuffer : Option Framebuffer) : Prop where
  hhdm : hhdmOffset < 2 ^ 64
  symbols : image.kernelStart < 2 ^ 64 ∧ image.textStart < 2 ^ 64 ∧ image.rodataStart < 2 ^ 64
    ∧ image.dataStart < 2 ^ 64
  db : db.phys < 2 ^ 64
  entries : ∀ e ∈ memmap, e.base < 2 ^ 64
  framebuffer : ∀ f, framebuffer = some f → f.address < 2 ^ 64

/-- The root `k` shows these extents, the later ones over the others. -/
structure Drawn (A : FrameAlloc σ) (s₀ : Machine σ) (k : Nat) (s : Machine σ)
    (xs : List Extent) : Prop where
  tree : Tree A s₀ k s
  shows : Shows k s (overlay (xs.map Extent.at))
  aligned : ∀ x ∈ xs, ∀ n p fl, x.at n = some (p, fl) → p % PAGE_SIZE = 0

theorem Extent.at_phys {x : Extent} {n p : Nat} {fl : Word} (h : x.at n = some (p, fl)) :
    p % PAGE_SIZE = x.phys % PAGE_SIZE ∧ p < 2 ^ 52 ∧ fl = x.flags := by
  have hs : PAGE_SIZE = 4096 := rfl
  unfold Extent.at at h
  simp only at h
  split at h
  · obtain ⟨rfl, rfl⟩ := Prod.mk.inj (Option.some.inj h)
    refine ⟨?_, Nat.mod_lt _ (by decide), rfl⟩
    rw [hs]
    omega
  · cases h

theorem pageAlignDown_lt {x : Nat} (h : x < 2 ^ 64) : pageAlignDown x < 2 ^ 64 :=
  Nat.lt_of_le_of_lt (pageAlignDown_le x) h

/-- A difference of page boundaries is whole pages. -/
theorem pageAlignUp_diff {a b : Nat} (ha : a % PAGE_SIZE = 0) (hb : b % PAGE_SIZE = 0)
    (h : b < 2 ^ 64) : pageAlignUp (b - a) = b - a := by
  have hs : PAGE_SIZE = 4096 := rfl
  refine pageAlignUp_of_aligned ?_ (by omega)
  rw [hs] at ha hb ⊢
  omega

theorem pageAlignUp_wrapSub {a b : Nat} (ha : a % PAGE_SIZE = 0) (hb : b % PAGE_SIZE = 0)
    (h : b < 2 ^ 64) : pageAlignUp (wrapSub a b) = wrapSub a b := by
  have hs : PAGE_SIZE = 4096 := rfl
  refine pageAlignUp_of_aligned ?_ (Nat.mod_lt _ (by decide))
  unfold wrapSub
  rw [hs] at ha hb ⊢
  omega

namespace Drawn

variable {xs : List Extent} {x : Extent} {size hhdmOffset : Nat} {e : InitPanic}

theorem add (h : Drawn A s₀ k s xs) (ht : Tree A s₀ k s')
    (hs : Shows k s' (x.over (overlay (xs.map Extent.at))))
    (hx : ∀ n p fl, x.at n = some (p, fl) → p % PAGE_SIZE = 0) : Drawn A s₀ k s' (xs ++ [x]) := by
  refine ⟨ht, fun v => ?_, fun y hy => ?_⟩
  · rw [hs v, List.map_append, List.map_singleton, overlay_snoc]
    rfl
  · obtain hy | hy := List.mem_append.mp hy
    · exact h.aligned y hy
    · rw [List.mem_singleton.mp hy]
      exact hx

/-- An extent with no page. -/
theorem skip (h : Drawn A s₀ k s xs) (hx : x.pages = 0) : Drawn A s₀ k s (xs ++ [x]) := by
  refine h.add h.tree (fun v => ?_) fun n p fl hn => ?_
  · unfold Extent.over
    rw [h.shows v, Extent.at_zero hx, Option.none_or]
  · rw [Extent.at_zero hx] at hn
    cases hn

/-- A call of `paging_map_range`. -/
theorem mapRange (h : Drawn A s₀ k s xs) (hv : virt < 2 ^ 64) (hp : phys < 2 ^ 64)
    (hx : x = ⟨virt, phys, pageAlignUp size / PAGE_SIZE, flags⟩)
    (hrun : pagingMapRange A.alloc s (some k) virt phys size flags = (s', 0)) :
    Drawn A s₀ k s' (xs ++ [x]) := by
  obtain ⟨ht, hs⟩ := h.tree.mapRange h.shows hv hp hrun
  rw [← hx] at hs
  refine h.add ht hs fun n p fl hn => ?_
  unfold pagingMapRange at hrun
  simp only at hrun
  split at hrun
  · rename_i hsize
    rw [Extent.at_zero (by rw [hx, hsize]; rfl)] at hn
    cases hn
  split at hrun
  · exact absurd (congrArg Prod.snd hrun) (show (-1 : Int) ≠ 0 by decide)
  rename_i halign
  rw [(Extent.at_phys hn).1, hx]
  exact not_not.mp fun hne => halign (Or.inr hne)

theorem mapKernelSegment (h : Drawn A s₀ k s xs) {start stop : Nat}
    {kernelAddr : ExecutableAddress} (hstart : start < 2 ^ 64)
    (hrun : Paging.mapKernelSegment A.alloc k start stop kernelAddr flags s = (s', 0)) :
    Drawn A s₀ k s' (xs ++ [segmentExtent kernelAddr start stop flags]) := by
  unfold Paging.mapKernelSegment at hrun
  simp only at hrun
  split at hrun
  · rename_i hle
    obtain ⟨rfl, -⟩ := Prod.mk.inj hrun
    refine h.skip ?_
    unfold segmentExtent
    simp only
    rw [Nat.sub_eq_zero_of_le hle]
    rfl
  · refine h.mapRange (pageAlignDown_lt hstart) (Nat.mod_lt _ (by decide)) ?_ hrun
    rw [pageAlignUp_diff (pageAlignDown_mod _) (pageAlignUp_mod _) (pageAlignUp_lt _)]
    rfl

theorem mapHhdm {memmap : List MemmapEntry} (hfit : ∀ e ∈ memmap, e.base < 2 ^ 64) :
    ∀ {s : Machine σ} {xs : List Extent}, Drawn A s₀ k s xs →
      Paging.mapHhdm A.alloc hhdmOffset k memmap s = (s', 0) →
      Drawn A s₀ k s' (xs ++ memmap.map (hhdmExtent hhdmOffset)) := by
  induction memmap with
  | nil =>
      intro s xs h hrun
      obtain ⟨rfl, -⟩ := Prod.mk.inj hrun
      rwa [List.map_nil, List.append_nil]
  | cons e memmap ih =>
      intro s xs h hrun
      have hrest := fun {s xs} (h : Drawn A s₀ k s xs) =>
        ih (fun e he => hfit e (List.mem_cons_of_mem _ he)) h
      rw [List.map_cons, List.append_cons]
      unfold Paging.mapHhdm at hrun
      simp only at hrun
      split at hrun
      · rename_i hle
        refine hrest (h.skip ?_) hrun
        unfold hhdmExtent
        simp only
        rw [Nat.sub_eq_zero_of_le hle]
        rfl
      · generalize hr : pagingMapRange _ _ _ _ _ _ _ = r at hrun
        obtain ⟨s1, rc⟩ := r
        simp only at hrun
        split at hrun
        · exact absurd (congrArg Prod.snd hrun) (show (-1 : Int) ≠ 0 by decide)
        · rename_i hrc
          rw [not_not.mp hrc] at hr
          refine hrest (h.mapRange (Nat.mod_lt _ (by decide))
            (pageAlignDown_lt (hfit e List.mem_cons_self)) ?_ hr) hrun
          rw [pageAlignUp_diff (pageAlignDown_mod _) (pageAlignUp_mod _) (pageAlignUp_lt _)]
          rfl

theorem mapPfndb (h : Drawn A s₀ k s xs) {db : Pfndb} (hdb : db.phys < 2 ^ 64)
    (hhdm : hhdmOffset < 2 ^ 64)
    (hrun : Paging.mapPfndb A.alloc hhdmOffset k db s = (s', 0)) :
    Drawn A s₀ k s' (xs ++ [pfndbExtent hhdmOffset db]) := by
  have hphys : virtToPhys hhdmOffset (physToVirt hhdmOffset db.phys) = db.phys := by
    unfold virtToPhys wrapSub physToVirt
    omega
  unfold Paging.mapPfndb at hrun
  simp only [hphys] at hrun
  refine h.mapRange (Nat.mod_lt _ (by decide)) (pageAlignDown_lt hdb) ?_ hrun
  rw [pageAlignUp_wrapSub (pageAlignUp_mod _) (pageAlignDown_mod _) (pageAlignDown_lt hdb)]
  rfl

theorem mapFramebuffer (h : Drawn A s₀ k s xs) {framebuffer : Option Framebuffer}
    (hfit : ∀ f, framebuffer = some f → f.address < 2 ^ 64)
    (hrun : Paging.mapFramebuffer A.alloc hhdmOffset k framebuffer s = (s', 0)) :
    Drawn A s₀ k s' (xs ++ framebufferExtents hhdmOffset framebuffer) := by
  unfold Paging.mapFramebuffer at hrun
  unfold framebufferExtents
  cases framebuffer with
  | none =>
      obtain ⟨rfl, -⟩ := Prod.mk.inj hrun
      rwa [List.append_nil]
  | some f =>
      simp only at hrun ⊢
      split at hrun
      · rename_i hnull
        obtain ⟨rfl, -⟩ := Prod.mk.inj hrun
        rwa [if_pos hnull, List.append_nil]
      rename_i hnull
      rw [if_neg hnull]
      have hstart : f.bounds.1 < 2 ^ 64 := pageAlignDown_lt (hfit f rfl)
      refine h.mapRange hstart ?_ ?_ hrun
      · unfold virtToPhys wrapSub
        split <;> omega
      · have hsize : pageAlignUp (wrapSub f.bounds.2 f.bounds.1)
            = wrapSub f.bounds.2 f.bounds.1 :=
          pageAlignUp_wrapSub (pageAlignUp_mod _) (pageAlignDown_mod _) hstart
        rw [hsize]
        rfl

end Drawn

-- ==== panics

theorem orPanic_ok {e : InitPanic} {r : Machine σ × Int} (h : orPanic e r = .ok s') :
    r = (s', 0) := by
  unfold orPanic at h
  split at h
  · cases h
  · rename_i hrc
    exact Prod.ext (Except.ok.inj h) (not_not.mp hrc)

/-- A step that did not panic, and what followed. -/
theorem bind_ok {α β : Type} {r : Except InitPanic α} {g : α → Except InitPanic β} {b : β}
    (h : r >>= g = .ok b) : ∃ a, r = .ok a ∧ g a = .ok b := by
  cases r with
  | error e => cases h
  | ok a => exact ⟨a, rfl, h⟩

section boot

variable {hhdmOffset : Nat} {image : KernelImage} {db : Pfndb} {memmap : List MemmapEntry}
  {framebuffer : Option Framebuffer} {kernelAddr : ExecutableAddress} {cr4 : Word} {b : Booted σ}

/-- The calls that map, one after the other. -/
theorem Drawn.mapBoot (hfit : Fits hhdmOffset image db memmap framebuffer)
    (h : Drawn A s₀ k s [])
    (hrun : Paging.mapBoot A.alloc hhdmOffset k image db memmap framebuffer kernelAddr s = .ok s') :
    Drawn A s₀ k s' (bootExtents hhdmOffset image db memmap framebuffer kernelAddr) := by
  obtain ⟨s1, h1, hrun⟩ := bind_ok hrun
  obtain ⟨s2, h2, hrun⟩ := bind_ok hrun
  obtain ⟨s3, h3, hrun⟩ := bind_ok hrun
  obtain ⟨s4, h4, hrun⟩ := bind_ok hrun
  obtain ⟨s5, h5, hrun⟩ := bind_ok hrun
  obtain ⟨s6, h6, hrun⟩ := bind_ok hrun
  obtain ⟨f1, f2, f3, f4⟩ := hfit.symbols
  have d1 := h.mapHhdm hfit.entries (orPanic_ok h1)
  have d2 := d1.mapPfndb hfit.db hfit.hhdm (orPanic_ok h2)
  have d3 := d2.mapKernelSegment f1 (orPanic_ok h3)
  have d4 := d3.mapKernelSegment f2 (orPanic_ok h4)
  have d5 := d4.mapKernelSegment f3 (orPanic_ok h5)
  have d6 := d5.mapKernelSegment f4 (orPanic_ok h6)
  have d7 := d6.mapFramebuffer hfit.framebuffer (orPanic_ok hrun)
  simpa only [bootExtents, requestsExtent, textExtent, rodataExtent, dataExtent, List.nil_append,
    List.append_assoc, List.cons_append] using d7

/-- A fresh root shows nothing. -/
theorem Drawn.root {m : σ} {g : Nat} (ha : A.alloc s.pmm = some (m, g)) :
    Drawn A s g ({ s with pmm := m }.clear g) [] := by
  have hnone : ∀ j, child ({ s with pmm := m }.clear g).mem g j = none := child_clear _ g
  have hwalk : ∀ p x, walk (child ({ s with pmm := m }.clear g).mem) g p = some x →
      p = [] ∧ x = g := by
    intro p x hx
    cases p with
    | nil => exact ⟨rfl, (Option.some.inj hx).symm⟩
    | cons i p =>
        rw [walk_cons, hnone] at hx
        cases hx
  refine ⟨⟨⟨?_⟩, ?_, fun x hx => ⟨A.taken ha (Or.inr hx), ?_, ?_⟩⟩, fun v => ?_, ?_⟩
  · rintro r r' p p' x rfl rfl - - hw hw'
    exact ⟨rfl, (hwalk p x hw).1.trans (hwalk p' x hw').1.symm⟩
  · rintro x ⟨r, p, rfl, -, hw⟩
    exact A.taken ha (Or.inl (hwalk p x hw).2)
  · rintro ⟨r, p, rfl, -, hw⟩
    exact A.fresh ha ((hwalk p x hw).2 ▸ hx)
  · exact clear_mem_ne _ fun e => A.fresh ha (e ▸ hx)
  · unfold leaf tablePath
    rw [walk_cons, hnone]
    rfl
  · intro x hx
    cases hx

/-- What `paging_init` does when it does not panic. -/
theorem pagingInit_ok (hrun : pagingInit A.alloc hhdmOffset image db (some memmap) framebuffer
      (some kernelAddr) cr4 s = .ok b) :
    kernelAddr.virtualBase = image.kernelStart
      ∧ ∃ m g, g ≠ 0 ∧ A.alloc s.pmm = some (m, g) ∧ b.kernelVas.pml4 = g
        ∧ mapBoot A.alloc hhdmOffset g image db memmap framebuffer kernelAddr
          ({ s with pmm := m }.clear g) = .ok b.machine
        ∧ addVads hhdmOffset image memmap framebuffer = .ok b.kernelVas.list
        ∧ b.cr3 = pfnPhys g ∧ b.cr4 = cr4 ||| X86_CR4_PGE := by
  unfold pagingInit at hrun
  simp only at hrun
  split at hrun
  · cases hrun
  rename_i hbase
  refine ⟨not_not.mp hbase, ?_⟩
  unfold allocTable at hrun
  cases ha : A.alloc s.pmm with
  | none =>
      simp only [ha] at hrun
      cases hrun
  | some r =>
      obtain ⟨m, g⟩ := r
      simp only [ha] at hrun
      split at hrun
      · cases hrun
      rename_i hg
      rw [tableVirt_ofNat (A.bound ha)] at hrun
      obtain ⟨s1, h1, hrun⟩ := bind_ok hrun
      obtain ⟨list, h2, hrun⟩ := bind_ok hrun
      cases hrun
      refine ⟨m, g, fun e => hg (by rw [e]; rfl), rfl, rfl, h1, h2, rfl, rfl⟩

-- ==== the result

/-- The two lookups read the extents. -/
theorem Drawn.refines {xs : List Extent} (h : Drawn A s₀ k s xs) :
    Refines A.alloc s k (overlay (xs.map Extent.at)) := by
  intro virt _
  rw [pagingVirtToPhys_eq, pagingGetFlags_eq, h.shows virt]
  cases hM : overlay (xs.map Extent.at) (virt / PAGE_SIZE % 2 ^ 36) with
  | none => exact ⟨rfl, rfl⟩
  | some r =>
      obtain ⟨phys, flags⟩ := r
      obtain ⟨g, hmem, hg⟩ := exists_of_overlay hM
      obtain ⟨x, hx, rfl⟩ := List.mem_map.mp hmem
      have ha := h.aligned x hx _ _ _ hg
      have hb := (Extent.at_phys hg).2.1
      simp only [entryOf, pte_present, if_true]
      rw [pte_addr flags ha hb, pte_flags]
      exact ⟨rfl, rfl⟩

/-- What `paging_init` leaves behind a root that was free. -/
theorem pagingInit_drawn (hfit : Fits hhdmOffset image db memmap framebuffer)
    (hrun : pagingInit A.alloc hhdmOffset image db (some memmap) framebuffer (some kernelAddr) cr4 s
      = .ok b) :
    Drawn A s b.kernelVas.pml4 b.machine
      (bootExtents hhdmOffset image db memmap framebuffer kernelAddr) := by
  obtain ⟨-, m, g, -, ha, rfl, hmap, -⟩ := pagingInit_ok hrun
  exact (Drawn.root ha).mapBoot hfit hmap

/-- After `paging_init` the kernel sees the boot map and nothing else: an
address reads the last extent that has its page. The root it switches to is a
fresh frame, and no frame that was in use has been written. -/
theorem pagingInit_refines (A : FrameAlloc σ) (s : Machine σ)
    (hfit : Fits hhdmOffset image db memmap framebuffer)
    (hrun : pagingInit A.alloc hhdmOffset image db (some memmap) framebuffer (some kernelAddr) cr4 s
      = .ok b) :
    Refines A.alloc b.machine b.kernelVas.pml4
        (bootMap hhdmOffset image db memmap framebuffer kernelAddr)
      ∧ b.cr3 = pfnPhys b.kernelVas.pml4 ∧ ¬ A.inUse s.pmm b.kernelVas.pml4
      ∧ ∀ f, A.inUse s.pmm f → b.machine.mem f = s.mem f := by
  have hdrawn := pagingInit_drawn hfit hrun
  obtain ⟨-, m, g, -, ha, rfl, -, -, hcr3, -⟩ := pagingInit_ok hrun
  exact ⟨hdrawn.refines, hcr3, A.fresh ha, fun f hf => (hdrawn.tree.kept f hf).2.2⟩

end boot

-- ==== a small machine

/-- An allocator that hands out one frame after the other. -/
def bumpFrames : FrameAlloc Nat where
  alloc := fun m => if m < 64 then some (m + 1, m) else none
  inUse := fun m f => f < m
  fresh := by
    intro m m' f h
    split at h
    · cases h
      exact Nat.lt_irrefl m
    · cases h
  taken := by
    intro m m' f g h hg
    split at h
    · cases h
      omega
    · cases h
  bound := by
    intro m m' f h
    split at h
    · cases h
      omega
    · cases h

def smallOffset : Nat := 0xffff800000000000

def smallImage : KernelImage :=
  ⟨0xffffffff80000000, 0xffffffff80001000, 0xffffffff80001800, 0xffffffff80002000,
    0xffffffff80002800, 0xffffffff80003000, 0xffffffff80004000⟩

def smallDb : Pfndb := ⟨fun _ => ⟨none, none, 0, 0, 0, 0⟩, 9, 0x1000⟩

def smallMemmap : List MemmapEntry := [⟨0x1000, 0x8000, LIMINE_MEMMAP_USABLE⟩]

def smallScreen : Option Framebuffer := some ⟨0xffff8000fd000000, 64, 16⟩

def smallAddress : ExecutableAddress := ⟨0x200000, 0xffffffff80000000⟩

/-- Frames 16 to 63 are free. -/
def smallStart : Machine Nat := ⟨16, fun _ _ => 0⟩

/-- A run of `paging_init` on the small machine. -/
abbrev SmallBoot (b : Booted Nat) : Prop :=
  pagingInit bumpFrames.alloc smallOffset smallImage smallDb (some smallMemmap) smallScreen
    (some smallAddress) 0 smallStart = .ok b

theorem smallBoot_ok : ∃ b, SmallBoot b := by
  have h : (pagingInit bumpFrames.alloc smallOffset smallImage smallDb (some smallMemmap)
      smallScreen (some smallAddress) 0 smallStart).isOk = true := by decide +kernel
  unfold SmallBoot
  cases hb : pagingInit bumpFrames.alloc smallOffset smallImage smallDb (some smallMemmap)
      smallScreen (some smallAddress) 0 smallStart with
  | error e =>
      rw [hb] at h
      cases h
  | ok b => exact ⟨b, rfl⟩

theorem smallFits : Fits smallOffset smallImage smallDb smallMemmap smallScreen where
  hhdm := by decide
  symbols := by decide
  db := by decide
  entries := by
    intro e he
    rw [List.mem_singleton.mp he]
    decide
  framebuffer := by
    intro f hf
    rw [← Option.some.inj hf]
    decide

/-- The small machine boots, and switches to its root. -/
theorem pagingInit_refines_small : ∃ b, SmallBoot b ∧ b.cr3 = pfnPhys b.kernelVas.pml4
    ∧ ¬ bumpFrames.inUse 16 b.kernelVas.pml4 := by
  obtain ⟨b, hb⟩ := smallBoot_ok
  obtain ⟨-, hcr3, hfresh, -⟩ := pagingInit_refines bumpFrames smallStart smallFits hb
  exact ⟨b, hb, hcr3, hfresh⟩

end Alix.Paging
