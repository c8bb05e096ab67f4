/-
What the hardware lets a page be used for.

# What goes wrong

The processor allows a user access to a page when all four entries on its
path have `PAGE_USER`. `next_table` gives an entry the bit when it creates the
table below, from the flags of the mapping that needed it, and never again:
a page that is mapped for the user below a table that a supervisor mapping
created is out of the user's reach, and the call returns 0 all the same
(`access_denied`).

# What holds

Entries above the leaves are written once. They all have `PAGE_WRITE`, so the
write access of a page is the one that was asked for, and its user access is
exactly when every entry that was on its path when it was mapped had
`PAGE_USER` (`accessRun_iff`).
-/
import Alix.Mm.Proofs.MapRange

namespace Alix.Paging

open Radix

variable {σ : Type} {A : FrameAlloc σ} {alloc : σ → Option (σ × Nat)}
  {P : σ → (Nat → Prop) → Prop} {s s' s₀ : Machine σ} {R T T' : Nat → Prop}
  {r f g i root virt phys n : Nat} {k : Option Nat} {q : List Nat} {flags flag w : Word}

-- ==== the statement

/-- The four indices of an address. -/
def leafPath (virt : Nat) : List Nat := tablePath virt ++ [ptIndex virt]

/-- What a hardware walk grants: the entries on the path are present, and
all have the flag. -/
def grants (mem : Nat → Nat → Word) (flag : Word) : Nat → List Nat → Bool
  | _, [] => true
  | f, i :: p =>
      match child mem f i with
      | none => false
      | some g => hasFlag (mem f i) flag && grants mem flag g p

/-- The entries that are present on the path have `PAGE_USER`, up to the
first that is not. -/
def userPath (mem : Nat → Nat → Word) : Nat → List Nat → Bool
  | _, [] => true
  | f, i :: p =>
      match child mem f i with
      | none => true
      | some g => hasFlag (mem f i) PAGE_USER && userPath mem g p

/-- A page may be mapped: the user is not asked for, or finds no table
without `PAGE_USER` on the way. -/
def passable (mem : Nat → Nat → Word) (root virt : Nat) (flags : Word) : Bool :=
  !hasFlag flags PAGE_USER || userPath mem root (tablePath virt)

/-- What is known of the pages: the flags a page was mapped with, and
whether it was passable then. -/
abbrev Notes : Type := Nat → Option (Word × Bool)

/-- The notes after `paging_map_page`, by its return code. -/
def Notes.page (M : Notes) (mem : Nat → Nat → Word) (root virt : Nat) (flags : Word)
    (rc : Int) : Notes :=
  if rc = 0 then
    Function.update M (virt / PAGE_SIZE) (some (flags, passable mem root virt flags))
  else M

/-- The notes after `paging_map_page` for one page after the other. -/
def Notes.pages (alloc : σ → Option (σ × Nat)) (root : Nat) (flags : Word) :
    Nat → Notes → Machine σ → Nat → Nat → Notes
  | 0, M, _, _, _ => M
  | n + 1, M, s, virt, phys =>
      match pagingMapPage alloc s (some root) virt phys flags with
      | (s', rc) =>
          let M := M.page s.mem root virt flags rc
          if rc ≠ 0 then M
          else Notes.pages alloc root flags n M s' ((virt + PAGE_SIZE) % 2 ^ 64)
            ((phys + PAGE_SIZE) % 2 ^ 64)

/-- The runs of one address space, with the notes on its lower half. `k` is
`kernel_vas->pml4`. What a range call maps is what the page calls do up to
the first failure. -/
inductive AccessRun (A : FrameAlloc σ) (k : Option Nat) (s₀ : Machine σ) (root : Nat) :
    Machine σ → Notes → Prop
  | create : (ptableCreate A.alloc s₀ k).2 = some root →
      AccessRun A k s₀ root (ptableCreate A.alloc s₀ k).1 fun _ => none
  | mapPage {s M} (virt phys : Nat) (flags : Word) : AccessRun A k s₀ root s M →
      virt < 2 ^ 47 →
      AccessRun A k s₀ root (pagingMapPage A.alloc s (some root) virt phys flags).1
        (M.page s.mem root virt flags
          (pagingMapPage A.alloc s (some root) virt phys flags).2)
  | mapRange {s M} (virt phys size : Nat) (flags : Word) : AccessRun A k s₀ root s M →
      virt + size ≤ 2 ^ 47 → phys < 2 ^ 64 →
      AccessRun A k s₀ root (pagingMapRange A.alloc s (some root) virt phys size flags).1
        (if virt % PAGE_SIZE ≠ 0 ∨ phys % PAGE_SIZE ≠ 0 then M
        else Notes.pages A.alloc root flags ((size + PAGE_SIZE - 1) / PAGE_SIZE) M s virt phys)
  | unmap {s M} (virt : Nat) : AccessRun A k s₀ root s M →
      virt < 2 ^ 47 → virt % PAGE_SIZE = 0 →
      AccessRun A k s₀ root (pagingUnmapPage A.alloc s (some root) virt)
        (Function.update M (virt / PAGE_SIZE) none)

-- ==== entries

/-- The word of the entry at the end of a path, where it is present. -/
def entryAt (mem : Nat → Nat → Word) (r : Nat) (q : List Nat) (i : Nat) : Option Word :=
  match walk (child mem) r q with
  | none => none
  | some f => if hasFlag (mem f i) PAGE_PRESENT then some (mem f i) else none

theorem entryAt_cons (mem : Nat → Nat → Word) (r a : Nat) (q : List Nat) (i : Nat) :
    entryAt mem r (a :: q) i = match child mem r a with
      | none => none
      | some g => entryAt mem g q i := by
  unfold entryAt
  rw [walk_cons]
  cases child mem r a <;> rfl

theorem entryAt_nil_none {mem : Nat → Nat → Word} (h : child mem r i = none) :
    entryAt mem r [] i = none :=
  if_neg (child_eq_none.mp h)

theorem entryAt_nil_some {mem : Nat → Nat → Word} (h : child mem r i = some g) :
    entryAt mem r [] i = some (mem r i) :=
  if_pos (child_eq_some.mp h).1

theorem snoc_prefix_cons {a : Nat} {q p : List Nat} {i : Nat} :
    q ++ [i] <+: a :: p ↔ (q = [] ∧ i = a) ∨ ∃ q', q = a :: q' ∧ q' ++ [i] <+: p := by
  cases q with
  | nil =>
      rw [List.nil_append, List.cons_prefix_cons]
      refine ⟨fun h => Or.inl ⟨rfl, h.1⟩, fun h => ?_⟩
      rcases h with ⟨-, rfl⟩ | ⟨q', hq, -⟩
      · exact ⟨rfl, List.nil_prefix⟩
      · cases hq
  | cons b q =>
      rw [List.cons_append, List.cons_prefix_cons]
      refine ⟨fun h => Or.inr ⟨q, by rw [h.1], h.2⟩, fun h => ?_⟩
      rcases h with ⟨hq, -⟩ | ⟨q', hq, hp⟩
      · cases hq
      · cases hq
        exact ⟨rfl, hp⟩

/-- A path grants what every entry of it grants. -/
theorem grants_iff (mem : Nat → Nat → Word) (flag : Word) (r : Nat) (p : List Nat) :
    grants mem flag r p = true
      ↔ ∀ q i, q ++ [i] <+: p → ∃ w, entryAt mem r q i = some w ∧ hasFlag w flag = true := by
  induction p generalizing r with
  | nil =>
      refine ⟨fun _ q i hq => ?_, fun _ => rfl⟩
      have := List.prefix_nil.mp hq
      simp at this
  | cons a p ih =>
      have hfirst : [] ++ [a] <+: a :: p := snoc_prefix_cons.mpr (Or.inl ⟨rfl, rfl⟩)
      unfold grants
      cases hc : child mem r a with
      | none =>
          refine ⟨fun h => (by cases h), fun h => ?_⟩
          obtain ⟨w, hw, -⟩ := h [] a hfirst
          rw [entryAt_nil_none hc] at hw
          cases hw
      | some g =>
          simp only [Bool.and_eq_true, ih]
          constructor
          · intro h q i hq
            rcases snoc_prefix_cons.mp hq with ⟨rfl, rfl⟩ | ⟨q', rfl, hq'⟩
            · exact ⟨mem r i, entryAt_nil_some hc, h.1⟩
            · rw [entryAt_cons, hc]
              exact h.2 q' i hq'
          · intro h
            refine ⟨?_, fun q i hq => ?_⟩
            · obtain ⟨w, hw, hflag⟩ := h [] a hfirst
              rw [entryAt_nil_some hc] at hw
              cases hw
              exact hflag
            · have := h (a :: q) i (snoc_prefix_cons.mpr (Or.inr ⟨q, rfl, hq⟩))
              rw [entryAt_cons, hc] at this
              exact this

/-- And a user path is one with no present entry without `PAGE_USER`. -/
theorem userPath_iff (mem : Nat → Nat → Word) (r : Nat) (p : List Nat) :
    userPath mem r p = true
      ↔ ∀ q i, q ++ [i] <+: p → ∀ w, entryAt mem r q i = some w → hasFlag w PAGE_USER = true := by
  induction p generalizing r with
  | nil =>
      refine ⟨fun _ q i hq => ?_, fun _ => rfl⟩
      have := List.prefix_nil.mp hq
      simp at this
  | cons a p ih =>
      have hfirst : [] ++ [a] <+: a :: p := snoc_prefix_cons.mpr (Or.inl ⟨rfl, rfl⟩)
      unfold userPath
      cases hc : child mem r a with
      | none =>
          refine ⟨fun _ q i hq w hw => ?_, fun _ => rfl⟩
          rcases snoc_prefix_cons.mp hq with ⟨rfl, rfl⟩ | ⟨q', rfl, hq'⟩
          · rw [entryAt_nil_none hc] at hw
            cases hw
          · rw [entryAt_cons, hc] at hw
            cases hw
      | some g =>
          simp only [Bool.and_eq_true, ih]
          constructor
          · intro h q i hq w hw
            rcases snoc_prefix_cons.mp hq with ⟨rfl, rfl⟩ | ⟨q', rfl, hq'⟩
            · rw [entryAt_nil_some hc] at hw
              cases hw
              exact h.1
            · rw [entryAt_cons, hc] at hw
              exact h.2 q' i hq' w hw
          · intro h
            refine ⟨h [] a hfirst _ (entryAt_nil_some hc), fun q i hq w hw => ?_⟩
            refine h (a :: q) i (snoc_prefix_cons.mpr (Or.inr ⟨q, rfl, hq⟩)) w ?_
            rw [entryAt_cons, hc]
            exact hw

/-- The entries of a path that leads to a table are all present. -/
theorem entryAt_of_walk {mem : Nat → Nat → Word} {r f : Nat} {p : List Nat}
    (hw : walk (child mem) r p = some f) {q : List Nat} {i : Nat} (hq : q ++ [i] <+: p) :
    ∃ w, entryAt mem r q i = some w := by
  obtain ⟨t, rfl⟩ := hq
  rw [walk_append] at hw
  obtain ⟨x, hx, -⟩ := Option.bind_eq_some_iff.mp hw
  obtain ⟨y, hy, hc⟩ := walk_snoc_some hx
  unfold entryAt
  rw [hy]
  exact ⟨_, if_pos (child_eq_some.mp hc).1⟩

-- ==== writing the entries

/-- Entries that are present stay, and new ones are written by a mapping
with these flags. -/
def Enters (flags : Word) (R : Nat → Prop) (s s' : Machine σ) : Prop :=
  ∀ t q i, R t → Lower (q ++ [i]) →
    entryAt s'.mem t q i = entryAt s.mem t q i
      ∨ (entryAt s.mem t q i = none ∧ ∃ p, entryAt s'.mem t q i = some (tableEntry p flags))

theorem Enters.refl (flags : Word) (R : Nat → Prop) (s : Machine σ) : Enters flags R s s :=
  fun _ _ _ _ _ => Or.inl rfl

theorem Enters.trans {s'' : Machine σ} (h : Enters flags R s s') (h' : Enters flags R s' s'') :
    Enters flags R s s'' := by
  intro t q i ht hq
  rcases h' t q i ht hq with e' | ⟨hnone, p, e'⟩
  · rw [e']
    exact h t q i ht hq
  · rcases h t q i ht hq with e | ⟨hnone', p', e⟩
    · rw [e] at hnone
      exact Or.inr ⟨hnone, p, e'⟩
    · rw [e] at hnone
      cases hnone

/-- Where no table on a path is written, no entry is. -/
theorem Inv.enters_same (h : Inv P s R T) (hm : ∀ f, T f → s'.mem f = s.mem f) :
    Enters flags R s s' := by
  intro t q i ht hq
  refine Or.inl ?_
  have hq' := lower_owned.init q i hq
  unfold entryAt
  rw [h.walk_off hm ht hq']
  cases hw : walk (child s.mem) t q with
  | none => rfl
  | some f =>
      simp only
      rw [hm f (h.held f ⟨t, q, ht, hq', hw⟩)]

/-- A store into a leaf slot writes no entry above the leaves. -/
theorem Inv.enters_leaf (h : Inv P s R T) {v pt : Nat} (w : Word) (hr : R r) (hv : v < 2 ^ 47)
    (hw : walk (child s.mem) r (tablePath v) = some pt) :
    Enters flags R s (s.store pt (ptIndex v) w) := by
  intro t q i ht hq
  refine Or.inl ?_
  have hq' := lower_owned.init q i hq
  unfold entryAt
  rw [h.walk_store_leaf w hr hv hw ht hq']
  cases hwq : walk (child s.mem) t q with
  | none => rfl
  | some f =>
      -- a path to a last-level table is longer
      have hne : ¬ (f = pt ∧ i = ptIndex v) := by
        intro e
        obtain ⟨-, hqv⟩ := h.forest.sep ht hr hq' (lower_tablePath hv) hwq (by rw [hw, e.1])
        have := hq.1
        rw [hqv] at this
        simp [tablePath] at this
      simp only
      rw [Machine.store_mem, if_neg hne]

variable (hS : Supplies alloc P)
include hS

/-- `next_table` writes an entry only where there is none. -/
theorem Inv.enters_nextTable (h : Inv P s R T) {o : Option Nat} (hr : R r)
    (hq : Lower (q ++ [i])) (hw : walk (child s.mem) r q = some f)
    (hn : nextTable alloc s f i flags true = (s', o)) : Enters flags R s s' := by
  obtain ⟨ho, -, rfl⟩ | ⟨-, rfl, rfl, -⟩ | ⟨m, ha, -, rfl, rfl⟩ |
    ⟨m, g, ha, hempty, rfl, hs'⟩ := nextTable_cases hn
  · exact Enters.refl _ _ _
  · exact Enters.refl _ _ _
  · obtain ⟨hfresh, -, -⟩ := hS.step h.pmm ha
    exact h.enters_same fun x hx => clear_mem_ne _ fun e => hfresh (by rw [← e]; exact hx)
  · obtain ⟨hfresh, hlt, -⟩ := hS.step h.pmm ha
    have hfg : f ≠ g := by
      rintro rfl
      exact hfresh (h.held f ⟨r, q, hr, lower_owned.init q i hq, hw⟩)
    obtain ⟨hmem, hnew, hclear⟩ :=
      link_mem hfg (tableEntry_present _ flags) (tableVirt_tableEntry hlt flags) hs'
    intro t p j ht hp
    have hp' := lower_owned.init p j hp
    have hwalk := h.forest.walk_link lower_owned hr hq hw hempty
      (fun ht => hfresh (h.held g ht)) hnew (fun j => child_zero (hclear j))
      (fun x j hx hxj => child_congr (hmem x j hx hxj)) ht hp'
    have hword : s'.mem f i = tableEntry (pfnPhys g) flags := by
      rw [hs', Machine.store_mem, if_pos ⟨rfl, rfl⟩]
    unfold entryAt
    rw [hwalk]
    by_cases he : t = r ∧ p = q ++ [i]
    · -- the new table is empty
      refine Or.inl ?_
      rw [if_pos he, he.1, he.2, walk_snoc_of hw, hempty]
      simp only
      rw [hclear, if_neg]
      simp [hasFlag]
    · rw [if_neg he]
      cases hwp : walk (child s.mem) t p with
      | none => exact Or.inl rfl
      | some x =>
          simp only
          have hxg : x ≠ g := by
            rintro rfl
            exact hfresh (h.held x ⟨t, p, ht, hp', hwp⟩)
          by_cases hslot : x = f ∧ j = i
          · refine Or.inr ⟨?_, pfnPhys g, ?_⟩
            · rw [hslot.1, hslot.2]
              exact if_neg (child_eq_none.mp hempty)
            · rw [hslot.1, hslot.2, hword, if_pos (tableEntry_present _ _)]
          · rw [hmem x j hxg hslot]
            exact Or.inl rfl

/-- And so does `lookup_pt`. -/
theorem Inv.enters_lookupPt (h : Inv P s R T) {v : Nat} {o : Option Nat} (hr : R r)
    (hv : v < 2 ^ 47) (hl : lookupPt alloc s r v true flags = (s', o)) :
    Enters flags R s s' := by
  have hp3 : Lower ([pml4Index v, pdptIndex v] ++ [pdIndex v]) := lower_tablePath hv
  have hp2 : Lower ([pml4Index v] ++ [pdptIndex v]) := lower_owned.init _ _ hp3
  have hp1 : Lower ([] ++ [pml4Index v]) := lower_owned.init _ _ hp2
  unfold lookupPt at hl
  cases h1 : nextTable alloc s r (pml4Index v) flags true with
  | mk s1 o1 =>
      have hin1 := h.enters_nextTable hS hr hp1 rfl h1
      obtain ⟨T1, ht1, inv1, -, walk1⟩ := h.grow_nextTable hS hr hp1 rfl h1
      cases o1 with
      | none =>
          simp only [h1] at hl
          obtain ⟨rfl, rfl⟩ := Prod.mk.inj hl
          exact hin1
      | some pdpt =>
          simp only [h1] at hl
          cases h2 : nextTable alloc s1 pdpt (pdptIndex v) flags true with
          | mk s2 o2 =>
              have hin2 := hin1.trans (inv1.enters_nextTable hS hr hp2 (walk1 pdpt rfl) h2)
              obtain ⟨T2, ht2, inv2, -, walk2⟩ :=
                inv1.grow_nextTable hS hr hp2 (walk1 pdpt rfl) h2
              cases o2 with
              | none =>
                  simp only [h2] at hl
                  obtain ⟨rfl, rfl⟩ := Prod.mk.inj hl
                  exact hin2
              | some pd =>
                  simp only [h2] at hl
                  exact hin2.trans (inv2.enters_nextTable hS hr hp3 (walk2 pd rfl) hl)

/-- `paging_map_page`. -/
theorem Inv.enters_mapPage (h : Inv P s R T) {rc : Int} (hr : R r) (hv : virt < 2 ^ 47)
    (hm : pagingMapPage alloc s (some r) virt phys flags = (s', rc)) :
    Enters flags R s s' := by
  unfold pagingMapPage at hm
  simp only at hm
  split at hm
  · obtain ⟨rfl, rfl⟩ := Prod.mk.inj hm
    exact Enters.refl _ _ _
  unfold lookupLeaf at hm
  cases hl : lookupPt alloc s r virt true flags with
  | mk s1 o =>
      have hin := h.enters_lookupPt hS hr hv hl
      obtain ⟨T', -, hinv, -, hwalk⟩ := h.grow_lookupPt hS hr hv hl
      cases o with
      | none =>
          simp only [hl] at hm
          obtain ⟨rfl, rfl⟩ := Prod.mk.inj hm
          exact hin
      | some pt =>
          simp only [hl] at hm
          obtain ⟨rfl, rfl⟩ := Prod.mk.inj hm
          exact hin.trans (hinv.enters_leaf _ hr hv (hwalk pt rfl))

omit hS

/-- `paging_unmap_page` writes no entry above the leaves. -/
theorem Inv.enters_unmap (h : Inv P s R T) (hr : R r) (hv : virt < 2 ^ 47)
    (hs : s' = pagingUnmapPage alloc s (some r) virt) : Enters flags R s s' := by
  unfold pagingUnmapPage at hs
  simp only [lookupLeaf_false] at hs
  split at hs
  · rw [hs]
    exact Enters.refl _ _ _
  cases hw : walk (child s.mem) r (tablePath virt) with
  | none =>
      simp only [hw, Option.map_none] at hs
      rw [hs]
      exact Enters.refl _ _ _
  | some pt =>
      simp only [hw, Option.map_some] at hs
      rw [hs]
      exact h.enters_leaf 0 hr hv hw

-- ==== the invariant

theorem tableEntry_write (p : Nat) (flags : Word) :
    hasFlag (tableEntry p flags) PAGE_WRITE = true := by
  unfold tableEntry
  rw [hasFlag_pageBit _ (by decide)]
  split <;>
  · simp only [BitVec.getLsbD_or, getLsbD_pageBit]
    simp

theorem tableEntry_user (p : Nat) (h : hasFlag flags PAGE_USER = true) :
    hasFlag (tableEntry p flags) PAGE_USER = true := by
  unfold tableEntry
  simp only
  rw [if_pos h, hasFlag_pageBit _ (by decide)]
  simp only [BitVec.getLsbD_or, getLsbD_pageBit]
  simp

theorem pte_user (phys : Nat) (flags : Word) :
    hasFlag (pte phys flags) PAGE_USER = hasFlag flags PAGE_USER :=
  pte_flag phys flags (i := 2) (by decide) (by decide) (by decide)

theorem lower_initial {p : List Nat} (hp : Lower p) (hq : q <+: p) : Lower q := by
  obtain ⟨t, rfl⟩ := hq
  refine ⟨?_, fun i hi => hp.2 i ?_⟩
  · have := hp.1
    rw [List.length_append] at this
    omega
  · cases q with
    | nil => cases hi
    | cons a q => exact hi

/-- A leaf word that is present has a table. -/
theorem walk_of_leaf {mem : Nat → Nat → Word} {v : Nat}
    (h : leaf mem r v = pte phys flags) :
    ∃ pt, walk (child mem) r (tablePath v) = some pt
      ∧ mem pt (ptIndex v) = pte phys flags := by
  unfold leaf at h
  split at h
  · have hpres := pte_present phys flags
    rw [← h] at hpres
    exact absurd hpres (by decide)
  · rename_i pt hw
    exact ⟨pt, hw, h⟩

/-- What a path grants stays, when its entries were there. -/
theorem Enters.grants (h : Enters flags R s s') (hr : R r) {p : List Nat} (hp : Lower p)
    (hw : walk (child s.mem) r p = some f) :
    Paging.grants s'.mem flag r p = Paging.grants s.mem flag r p := by
  have hsame : ∀ q i, q ++ [i] <+: p → entryAt s'.mem r q i = entryAt s.mem r q i := by
    intro q i hq
    obtain ⟨w, hword⟩ := entryAt_of_walk hw hq
    rcases h r q i hr (lower_initial hp hq) with e | ⟨hnone, -⟩
    · exact e
    · rw [hword] at hnone
      cases hnone
  rw [Bool.eq_iff_iff, grants_iff, grants_iff]
  constructor
  · intro hg q i hq
    rw [← hsame q i hq]
    exact hg q i hq
  · intro hg q i hq
    rw [hsame q i hq]
    exact hg q i hq

/-- A mapping for the user grants the path to the user exactly when it was
a user path. -/
theorem Enters.userPath (h : Enters flags R s s') (hr : R r) {p : List Nat} (hp : Lower p)
    (hw : walk (child s'.mem) r p = some f) (huser : hasFlag flags PAGE_USER = true) :
    Paging.grants s'.mem PAGE_USER r p = Paging.userPath s.mem r p := by
  rw [Bool.eq_iff_iff, grants_iff, userPath_iff]
  constructor
  · intro hg q i hq w hword
    obtain ⟨w', hword', hflag⟩ := hg q i hq
    rcases h r q i hr (lower_initial hp hq) with e | ⟨hnone, -⟩
    · rw [e, hword] at hword'
      cases hword'
      exact hflag
    · rw [hword] at hnone
      cases hnone
  · intro hg q i hq
    obtain ⟨w, hword⟩ := entryAt_of_walk hw hq
    refine ⟨w, hword, ?_⟩
    rcases h r q i hr (lower_initial hp hq) with e | ⟨-, p', e⟩
    · rw [e] at hword
      exact hg q i hq w hword
    · rw [e] at hword
      cases hword
      exact tableEntry_user p' huser

/-- What a run keeps. -/
structure Noted (A : FrameAlloc σ) (root : Nat) (s : Machine σ) (M : Notes)
    (T : Nat → Prop) : Prop where
  inv : Inv A.Held s (Sole root) T
  writable : ∀ q i w, Lower (q ++ [i]) → entryAt s.mem root q i = some w →
    hasFlag w PAGE_WRITE = true
  pages : ∀ v flags ok, v < 2 ^ 47 → M (v / PAGE_SIZE) = some (flags, ok) →
    ∃ phys, leaf s.mem root v = pte phys flags
      ∧ (ok = true ↔ (hasFlag flags PAGE_USER = true →
        grants s.mem PAGE_USER root (tablePath v) = true))

variable {M : Notes}

/-- A step that enters table entries with its flags, and leaves the leaf
words of the noted pages. -/
theorem Noted.step (h : Noted A root s M T) (hinv : Inv A.Held s' (Sole root) T')
    (hin : Enters flags (Sole root) s s') {M' : Notes}
    (hpages : ∀ v flags ok, v < 2 ^ 47 → M' (v / PAGE_SIZE) = some (flags, ok) →
      (M (v / PAGE_SIZE) = some (flags, ok) ∧ leaf s'.mem root v = leaf s.mem root v)
        ∨ ∃ phys, leaf s'.mem root v = pte phys flags
          ∧ (ok = true ↔ (hasFlag flags PAGE_USER = true →
            grants s'.mem PAGE_USER root (tablePath v) = true))) :
    Noted A root s' M' T' := by
  refine ⟨hinv, fun q i w hq hw => ?_, fun v flags' ok hv hM => ?_⟩
  · rcases hin root q i (Or.inl rfl) hq with e | ⟨-, p, e⟩
    · rw [e] at hw
      exact h.writable q i w hq hw
    · rw [e] at hw
      cases hw
      exact tableEntry_write p flags
  · rcases hpages v flags' ok hv hM with ⟨hM, hsame⟩ | hnew
    · obtain ⟨phys, hleaf, hok⟩ := h.pages v flags' ok hv hM
      obtain ⟨pt, hw, -⟩ := walk_of_leaf hleaf
      refine ⟨phys, hsame.trans hleaf, ?_⟩
      rw [hin.grants (Or.inl rfl) (lower_tablePath hv) hw]
      exact hok
    · exact hnew

theorem Noted.mapPage (h : Noted A root s M T) (hv : virt < 2 ^ 47) (phys : Nat)
    (flags : Word) :
    ∃ T', Noted A root (pagingMapPage A.alloc s (some root) virt phys flags).1
      (M.page s.mem root virt flags
        (pagingMapPage A.alloc s (some root) virt phys flags).2) T' := by
  cases hm : pagingMapPage A.alloc s (some root) virt phys flags with
  | mk s' rc =>
  have hin := h.inv.enters_mapPage A.supplies (Or.inl rfl) hv hm
  obtain ⟨T', -, hinv, -, hleaf⟩ := h.inv.map_page A.supplies (Or.inl rfl) hv hm
  refine ⟨T', h.step hinv hin fun v flags' ok hlt hM => ?_⟩
  unfold Notes.page at hM
  rcases hleaf with ⟨rfl, hleaf⟩ | ⟨rfl, hleaf⟩
  · rw [if_pos rfl] at hM
    have hword := hleaf root v (Or.inl rfl) hlt
    by_cases hpage : v / PAGE_SIZE = virt / PAGE_SIZE
    · -- the page that is mapped
      rw [hpage, Function.update_self] at hM
      cases hM
      rw [if_pos ⟨rfl, hpage⟩] at hword
      obtain ⟨pt, hw, -⟩ := walk_of_leaf hword
      refine Or.inr ⟨phys, hword, ?_⟩
      rw [((tablePath_inj_lower hlt hv).mpr hpage).1] at hw ⊢
      unfold passable
      rw [Bool.or_eq_true, Bool.not_eq_true']
      constructor
      · intro hok huser
        rw [hin.userPath (Or.inl rfl) (lower_tablePath hv) hw huser]
        rw [huser] at hok
        exact hok.resolve_left (by decide)
      · intro hok
        by_cases huser : hasFlag flags PAGE_USER = true
        · rw [← hin.userPath (Or.inl rfl) (lower_tablePath hv) hw huser]
          exact Or.inr (hok huser)
        · exact Or.inl (by simpa using huser)
    · rw [Function.update_of_ne hpage] at hM
      rw [if_neg fun e => hpage e.2] at hword
      exact Or.inl ⟨hM, hword⟩
  · rw [if_neg (show ¬ (-1 : Int) = 0 by decide)] at hM
    exact Or.inl ⟨hM, hleaf root v (Or.inl rfl) hlt⟩

theorem Noted.mapPages (flags : Word) : ∀ (n : Nat) {s : Machine σ} {M : Notes}
    {T : Nat → Prop} {virt phys : Nat}, Noted A root s M T →
    (∀ i, i < n → (virt + i * PAGE_SIZE) % 2 ^ 64 < 2 ^ 47) → virt < 2 ^ 64 →
    ∃ T', Noted A root (mapPages A.alloc (some root) flags n s virt phys).1
      (Notes.pages A.alloc root flags n M s virt phys) T' := by
  intro n
  induction n with
  | zero => exact fun {s M T virt phys} h _ _ => ⟨T, h⟩
  | succ n ih =>
      intro s M T virt phys h hV hlt
      have hv : virt < 2 ^ 47 := by
        have := hV 0 (Nat.succ_pos n)
        rwa [Nat.zero_mul, Nat.add_zero, Nat.mod_eq_of_lt hlt] at this
      obtain ⟨T', h'⟩ := h.mapPage hv phys flags
      rw [mapPages_succ]
      unfold Notes.pages
      simp only
      split
      · exact ⟨T', h'⟩
      · refine ih h' (fun i hi => ?_) (Nat.mod_lt _ (by decide))
        have hs : PAGE_SIZE = 4096 := rfl
        have := hV (i + 1) (by omega)
        rw [hs] at this ⊢
        rw [show ((virt + 4096) % 2 ^ 64 + i * 4096) % 2 ^ 64
          = (virt + (i + 1) * 4096) % 2 ^ 64 by omega]
        exact this

theorem Noted.mapRange (h : Noted A root s M T) {size : Nat} (hend : virt + size ≤ 2 ^ 47)
    (hp : phys < 2 ^ 64) (flags : Word) :
    ∃ T', Noted A root (pagingMapRange A.alloc s (some root) virt phys size flags).1
      (if virt % PAGE_SIZE ≠ 0 ∨ phys % PAGE_SIZE ≠ 0 then M
      else Notes.pages A.alloc root flags ((size + PAGE_SIZE - 1) / PAGE_SIZE) M s virt phys)
      T' := by
  have hs : PAGE_SIZE = 4096 := rfl
  unfold pagingMapRange
  simp only
  by_cases hzero : size = 0
  · rw [if_pos hzero, hzero]
    refine ⟨T, ?_⟩
    split
    · exact h
    · exact h
  rw [if_neg hzero]
  by_cases halign : virt % PAGE_SIZE ≠ 0 ∨ phys % PAGE_SIZE ≠ 0
  · rw [if_pos halign, if_pos halign]
    exact ⟨T, h⟩
  rw [if_neg halign, if_neg halign]
  have hpages : pageAlignUp size / PAGE_SIZE = (size + PAGE_SIZE - 1) / PAGE_SIZE := by
    unfold pageAlignUp pageAlignDown
    rw [hs]
    omega
  have hV : ∀ i, i < (size + PAGE_SIZE - 1) / PAGE_SIZE →
      (virt + i * PAGE_SIZE) % 2 ^ 64 < 2 ^ 47 := by
    intro i hi
    rw [hs] at halign hi ⊢
    omega
  have heq := (mapRounds_eq A.alloc flags
    (G := fun t => ∃ T, Inv A.Held t (Sole root) T) (V := fun v => v < 2 ^ 47)
    (fun t v t' o hG hv hl => by
      obtain ⟨T, hG⟩ := hG
      obtain ⟨T', -, hinv, -, hw⟩ := hG.grow_lookupPt A.supplies (Or.inl rfl) hv hl
      exact ⟨⟨T', hinv⟩, hw⟩)
    (fun t v pt w hG hv hw => by
      obtain ⟨T, hG⟩ := hG
      obtain ⟨hinv, -, -⟩ := hG.store_leaf w (Or.inl rfl) hv hw rfl
      refine ⟨⟨T, hinv⟩, ?_⟩
      rw [hG.walk_store_leaf w (Or.inl rfl) hv hw (Or.inl rfl) (lower_tablePath hv)]
      exact hw)
    _ (Nat.le_refl _) (s := s) ⟨T, h.inv⟩ hV ⟨by omega, by omega⟩ (by omega) hp).1
  rw [hpages, heq]
  exact Noted.mapPages flags _ h hV (by omega)

theorem Noted.unmap (h : Noted A root s M T) (hv : virt < 2 ^ 47)
    (ha : virt % PAGE_SIZE = 0) :
    Noted A root (pagingUnmapPage A.alloc s (some root) virt)
      (Function.update M (virt / PAGE_SIZE) none) T := by
  generalize hs' : pagingUnmapPage A.alloc s (some root) virt = s'
  have hin : Enters 0 (Sole root) s s' := h.inv.enters_unmap (Or.inl rfl) hv hs'.symm
  obtain ⟨hinv, -, hleaf⟩ := h.inv.unmap_page (Or.inl rfl) hv ha hs'.symm
  refine h.step hinv hin fun v flags ok hlt hM => Or.inl ?_
  have hword := hleaf root v (Or.inl rfl) hlt
  by_cases hpage : v / PAGE_SIZE = virt / PAGE_SIZE
  · rw [hpage, Function.update_self] at hM
    cases hM
  · rw [Function.update_of_ne hpage] at hM
    rw [if_neg fun e => hpage e.2] at hword
    exact ⟨hM, hword⟩

/-- A new root has no entries in its lower half. -/
theorem noted_create (hk : ∀ k', k = some k' → A.inUse s₀.pmm k')
    (hc : (ptableCreate A.alloc s₀ k).2 = some root) :
    ∃ T, Noted A root (ptableCreate A.alloc s₀ k).1 (fun _ => none) T := by
  have h0 : Inv A.Held s₀ (fun _ => False) (A.inUse s₀.pmm) :=
    ⟨Forest.empty, fun f hf => by obtain ⟨_, _, hr, _⟩ := hf; exact hr.elim,
      fun _ hf => hf⟩
  obtain ⟨-, hinv, -, hempty, -⟩ := h0.create A.supplies hk (Prod.ext rfl hc)
  refine ⟨_, hinv, fun q i w hq hw => ?_, fun v flags ok _ hM => by cases hM⟩
  cases q with
  | nil =>
      rw [entryAt_nil_none (hempty i (hq.2 i rfl))] at hw
      cases hw
  | cons a q =>
      rw [entryAt_cons, hempty a (hq.2 a rfl)] at hw
      cases hw

theorem accessRun_noted (hk : ∀ k', k = some k' → A.inUse s₀.pmm k')
    (h : AccessRun A k s₀ root s M) : ∃ T, Noted A root s M T := by
  induction h with
  | create hc => exact noted_create hk hc
  | mapPage virt phys flags _ hv ih =>
      obtain ⟨T, ih⟩ := ih
      exact ih.mapPage hv phys flags
  | mapRange virt phys size flags _ hend hp ih =>
      obtain ⟨T, ih⟩ := ih
      exact ih.mapRange hend hp flags
  | unmap virt _ hv ha ih =>
      obtain ⟨T, ih⟩ := ih
      exact ⟨T, ih.unmap hv ha⟩

-- ==== the result

/-- The tables on a path and the leaf word below them. -/
theorem grants_leafPath {mem : Nat → Nat → Word} {v : Nat}
    (h : leaf mem r v = pte phys flags) :
    grants mem flag r (leafPath v)
      = (grants mem flag r (tablePath v) && hasFlag (pte phys flags) flag) := by
  obtain ⟨pt, hw, hword⟩ := walk_of_leaf h
  have hmore : ∀ (p : List Nat) (t : Nat), walk (child mem) t p = some pt →
      grants mem flag t (p ++ [ptIndex v])
        = (grants mem flag t p && hasFlag (pte phys flags) flag) := by
    intro p
    induction p with
    | nil =>
        intro t ht
        cases ht
        show grants mem flag pt [ptIndex v] = _
        unfold grants child
        rw [hword, if_pos (pte_present _ _)]
        simp [grants]
    | cons a p ih =>
        intro t ht
        rw [walk_cons] at ht
        obtain ⟨g, hg, ht⟩ := Option.bind_eq_some_iff.mp ht
        rw [List.cons_append]
        unfold grants
        rw [hg]
        simp only
        rw [ih g ht, Bool.and_assoc]
  exact hmore _ _ hw

/-- After a successful map and until the page is mapped again or unmapped,
the hardware grants what was asked for exactly when the page was
passable. -/
theorem accessRun_iff (A : FrameAlloc σ) (hk : ∀ k', k = some k' → A.inUse s₀.pmm k')
    (h : AccessRun A k s₀ root s M) (hv : virt < 2 ^ 47) {flags : Word} {ok : Bool}
    (hM : M (virt / PAGE_SIZE) = some (flags, ok)) :
    (grants s.mem PAGE_USER root (leafPath virt) = hasFlag flags PAGE_USER
        ∧ grants s.mem PAGE_WRITE root (leafPath virt) = hasFlag flags PAGE_WRITE)
      ↔ ok = true := by
  obtain ⟨T, hnoted⟩ := accessRun_noted hk h
  obtain ⟨phys, hleaf, hok⟩ := hnoted.pages virt flags ok hv hM
  obtain ⟨pt, hw, -⟩ := walk_of_leaf hleaf
  have hwrite : grants s.mem PAGE_WRITE root (tablePath virt) = true := by
    rw [grants_iff]
    intro q i hq
    obtain ⟨w, hword⟩ := entryAt_of_walk hw hq
    exact ⟨w, hword, hnoted.writable q i w (lower_initial (lower_tablePath hv) hq) hword⟩
  rw [grants_leafPath hleaf, grants_leafPath hleaf, pte_user, pte_write, hwrite, Bool.true_and,
    hok]
  constructor
  · intro haccess huser
    have := haccess.1
    rw [huser, Bool.and_true] at this
    exact this
  · intro hgrant
    refine ⟨?_, rfl⟩
    by_cases huser : hasFlag flags PAGE_USER = true
    · rw [hgrant huser, huser]
      rfl
    · rw [Bool.not_eq_true] at huser
      rw [huser, Bool.and_false]

-- ==== traces

/-- The kernel's root is in use on the small machine. -/
theorem smallMachine_root (k' : Nat) (hk : some 1 = some k') :
    (pmmFrames 8 (fun q => 2 ≤ q) (by decide)).inUse smallMachine.pmm k' := by
  cases hk
  exact Or.inl fun hu => absurd hu.2 (by decide)

/-- A user page in a new space: no entry is there yet. -/
theorem accessRun_iff_page :
    let A := pmmFrames 8 (fun q => 2 ≤ q) (by decide)
    let s := (ptableCreate A.alloc smallMachine (some 1)).1
    let s' := (pagingMapPage A.alloc s (some 8) 0x1000 0x5000 PAGE_USER).1
    grants s'.mem PAGE_USER 8 (leafPath 0x1000) = hasFlag PAGE_USER PAGE_USER
      ∧ grants s'.mem PAGE_WRITE 8 (leafPath 0x1000) = hasFlag PAGE_USER PAGE_WRITE := by
  intro A s s'
  have hroot : (ptableCreate A.alloc smallMachine (some 1)).2 = some 8 := by
    decide +kernel
  have hrc : (pagingMapPage A.alloc s (some 8) 0x1000 0x5000 PAGE_USER).2 = 0 := by
    decide +kernel
  have hfree : passable s.mem 8 0x1000 PAGE_USER = true := by decide +kernel
  have hk : ∀ k', some 1 = some k' → A.inUse smallMachine.pmm k' := smallMachine_root
  clear_value A
  refine (accessRun_iff A hk (AccessRun.mapPage 0x1000 0x5000 PAGE_USER
    (AccessRun.create hroot) (by decide)) (by decide) ?_).mpr rfl
  unfold Notes.page
  rw [if_pos hrc, Function.update_self, hfree]

/-- The first page is mapped for the kernel, and with it the tables of the
second. Both calls return 0. -/
theorem access_denied :
    let A := pmmFrames 8 (fun q => 2 ≤ q) (by decide)
    ∃ (s : Machine _) (M : Notes) (ok : Bool),
      AccessRun A (some 1) smallMachine 8 s M
        ∧ M (0x2000 / PAGE_SIZE) = some (PAGE_USER, ok)
        ∧ grants s.mem PAGE_USER 8 (leafPath 0x2000) ≠ hasFlag PAGE_USER PAGE_USER := by
  intro A
  have hroot : (ptableCreate A.alloc smallMachine (some 1)).2 = some 8 := by
    decide +kernel
  have hrc : (pagingMapPage A.alloc
      (pagingMapPage A.alloc (ptableCreate A.alloc smallMachine (some 1)).1 (some 8)
        0x1000 0x5000 0).1 (some 8) 0x2000 0x6000 PAGE_USER).2 = 0 := by
    decide +kernel
  have hdenied : grants (pagingMapPage A.alloc
      (pagingMapPage A.alloc (ptableCreate A.alloc smallMachine (some 1)).1 (some 8)
        0x1000 0x5000 0).1 (some 8) 0x2000 0x6000 PAGE_USER).1.mem PAGE_USER 8
      (leafPath 0x2000) ≠ hasFlag PAGE_USER PAGE_USER := by
    decide +kernel
  clear_value A
  refine ⟨_, _, _, AccessRun.mapPage 0x2000 0x6000 PAGE_USER
    (AccessRun.mapPage 0x1000 0x5000 0 (AccessRun.create hroot) (by decide)) (by decide),
    (congrFun (if_pos hrc) _).trans (Function.update_self _ _ _), hdenied⟩

end Alix.Paging
