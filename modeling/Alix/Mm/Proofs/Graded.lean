/-
Tables by height.

`Graded` says which frames are tables and how high they stand: 4 for roots,
1 for last-level tables, and an entry of a table leads one lower. So a store
into a last-level table disturbs no walk, whoever shares the tables above it,
and the whole address range is treated alike. The allocator is any that hands
out frames that are not in use (`Supplies`).
-/
import Alix.Mm.Proofs.Paging

namespace Alix.Paging

open Radix

variable {σ : Type} {alloc : σ → Option (σ × Nat)} {P : σ → (Nat → Prop) → Prop}
  {s s' : Machine σ} {level level' : Nat → Nat} {T T' : Nat → Prop} {f g i k : Nat}
  {flags : Word} {o : Option Nat}

/-- Which frames are tables, and how high. -/
structure Graded (P : σ → (Nat → Prop) → Prop) (s : Machine σ) (level : Nat → Nat)
    (T : Nat → Prop) : Prop where
  pmm : P s.pmm T
  held : ∀ f, level f ≠ 0 → T f
  le : ∀ f, level f ≤ 4
  down : ∀ f j g, 2 ≤ level f → child s.mem f j = some g → level g + 1 = level f

/-- Tables are added. -/
structure Raises (level level' : Nat → Nat) (T T' : Nat → Prop) : Prop where
  held : ∀ f, T f → T' f
  level : ∀ f, level f ≠ 0 → level' f = level f

theorem Raises.refl (level : Nat → Nat) (T : Nat → Prop) : Raises level level T T :=
  ⟨fun _ hf => hf, fun _ _ => rfl⟩

theorem Raises.trans {level'' : Nat → Nat} {T'' : Nat → Prop} (h : Raises level level' T T')
    (h' : Raises level' level'' T' T'') : Raises level level'' T T'' := by
  refine ⟨fun f hf => h'.held f (h.held f hf), fun f hf => ?_⟩
  have hl := h.level f hf
  rw [h'.level f (by rw [hl]; exact hf), hl]

namespace Graded

/-- A store into a last-level table changes no table. -/
theorem store (h : Graded P s level T) {pt j : Nat} {w : Word} (hpt : level pt = 1) :
    Graded P (s.store pt j w) level T := by
  refine ⟨h.pmm, h.held, h.le, fun x y z hx hc => h.down x y z hx ?_⟩
  rw [← hc]
  refine (child_store s pt j w ?_).symm
  rintro ⟨rfl, -⟩
  omega

/-- What lies on the path to a last-level table. -/
theorem path (h : Graded P s level T) {pt virt : Nat} (hk : level k = 4)
    (hw : walk (child s.mem) k (tablePath virt) = some pt) :
    ∃ pdpt pd, child s.mem k (pml4Index virt) = some pdpt
      ∧ child s.mem pdpt (pdptIndex virt) = some pd ∧ child s.mem pd (pdIndex virt) = some pt
      ∧ level pdpt = 3 ∧ level pd = 2 ∧ level pt = 1 := by
  obtain ⟨pdpt, pd, h1, h2, h3⟩ := walk_tablePath hw
  have e1 := h.down k _ pdpt (by omega) h1
  have e2 := h.down pdpt _ pd (by omega) h2
  have e3 := h.down pd _ pt (by omega) h3
  exact ⟨pdpt, pd, h1, h2, h3, by omega, by omega, by omega⟩

/-- The walk to a last-level table is not disturbed by stores into it. -/
theorem walk_store (h : Graded P s level T) {pt virt j : Nat} {w : Word} (hk : level k = 4)
    (hw : walk (child s.mem) k (tablePath virt) = some pt) :
    walk (child (s.store pt j w).mem) k (tablePath virt) = some pt := by
  obtain ⟨pdpt, pd, h1, h2, h3, l1, l2, l3⟩ := h.path hk hw
  have hkeep : ∀ x y, 2 ≤ level x → child (s.store pt j w).mem x y = child s.mem x y := by
    intro x y hx
    refine child_store s pt j w ?_
    rintro ⟨rfl, -⟩
    omega
  unfold tablePath
  rw [walk_cons, hkeep k _ (by omega), h1, Option.bind_some, walk_cons, hkeep pdpt _ (by omega),
    h2, Option.bind_some, walk_cons, hkeep pd _ (by omega), h3]
  rfl

variable (hS : Supplies alloc P)
include hS

/-- A fresh frame is cleared and lost. -/
theorem lose (h : Graded P s level T) {m : σ} (ha : alloc s.pmm = some (m, g)) :
    Graded P ({ s with pmm := m }.clear g) level (fun x => x = g ∨ T x)
      ∧ ∀ x, level x ≠ 0 → ({ s with pmm := m }.clear g).mem x = s.mem x := by
  obtain ⟨hfresh, -, hP⟩ := hS.step h.pmm ha
  have hmem : ∀ x, level x ≠ 0 → ({ s with pmm := m }.clear g).mem x = s.mem x := by
    intro x hx
    refine clear_mem_ne _ ?_
    rintro rfl
    exact hfresh (h.held x hx)
  refine ⟨⟨hP, fun x hx => Or.inr (h.held x hx), h.le, fun x j y hx hc => h.down x j y hx ?_⟩,
    hmem⟩
  rwa [child_congr (congrFun (hmem x (by omega)) j)] at hc

/-- A fresh frame becomes a table of height `l`, below slot `i` of `f`. -/
theorem link (h : Graded P s level T) {m : σ} {l : Nat} (ha : alloc s.pmm = some (m, g))
    (hf : level f = l + 1) (hl : 0 < l)
    (hs' : s' = ({ s with pmm := m }.clear g).store f i (tableEntry (pfnPhys g) flags)) :
    Graded P s' (Function.update level g l) (fun x => x = g ∨ T x)
      ∧ child s'.mem f i = some g := by
  obtain ⟨hfresh, hlt, hP⟩ := hS.step h.pmm ha
  have hg : level g = 0 := by
    by_contra hne
    exact hfresh (h.held g hne)
  have hfg : f ≠ g := by
    rintro rfl
    omega
  have hmem : ∀ x j, x ≠ g → ¬ (x = f ∧ j = i) → s'.mem x j = s.mem x j := by
    intro x j hx hxj
    rw [hs', Machine.store_mem, if_neg hxj, clear_mem_ne _ hx]
  have hnew : child s'.mem f i = some g := by
    have hword : s'.mem f i = tableEntry (pfnPhys g) flags := by
      rw [hs', Machine.store_mem, if_pos ⟨rfl, rfl⟩]
    rw [child_eq_some, hword]
    exact ⟨tableEntry_present _ _, tableVirt_tableEntry hlt _⟩
  have hzero : ∀ j, child s'.mem g j = none := by
    intro j
    rw [hs', child_store _ _ _ _ (fun e => hfg e.1.symm), child_clear]
  refine ⟨⟨by rw [hs']; exact hP, fun x hx => ?_, fun x => ?_, fun x j y hx hc => ?_⟩, hnew⟩
  · by_cases hxg : x = g
    · exact Or.inl hxg
    · rw [Function.update_of_ne hxg] at hx
      exact Or.inr (h.held x hx)
  · have := h.le f
    by_cases hxg : x = g
    · rw [hxg, Function.update_self]
      omega
    · rw [Function.update_of_ne hxg]
      exact h.le x
  · by_cases hxg : x = g
    · rw [hxg, hzero] at hc
      cases hc
    rw [Function.update_of_ne hxg] at hx ⊢
    by_cases hslot : x = f ∧ j = i
    · rw [hslot.1, hslot.2, hnew] at hc
      cases hc
      rw [Function.update_self, hslot.1, hf]
    · have hold : child s.mem x j = some y :=
        (child_congr (hmem x j hxg hslot)).symm.trans hc
      have hlev := h.down x j y hx hold
      have hyg : y ≠ g := by
        rintro rfl
        omega
      rw [Function.update_of_ne hyg]
      exact hlev

/-- `next_table` below a table: a table one lower, by a store into the
slot if it was empty. Frames that are not tables keep their words. -/
theorem nextTable (h : Graded P s level T) {l : Nat} (hf : level f = l + 1) (hl : 0 < l)
    (hn : Paging.nextTable alloc s f i flags true = (s', o)) :
    ∃ level' T', Graded P s' level' T' ∧ Raises level level' T T'
      ∧ (∀ g, o = some g → level' g = l ∧ child s'.mem f i = some g)
      ∧ (∀ x j, level x ≠ 0 → (x = f ∧ j = i → child s.mem f i ≠ none) →
        s'.mem x j = s.mem x j)
      ∧ ∀ x, ¬ T' x → s'.mem x = s.mem x := by
  obtain ⟨ho, hne, rfl⟩ | ⟨-, rfl, rfl, -⟩ | ⟨m, ha, -, rfl, rfl⟩ |
    ⟨m, g, ha, hempty, rfl, hs'⟩ := nextTable_cases hn
  · refine ⟨level, T, h, Raises.refl _ _, fun g hg => ?_, fun _ _ _ _ => rfl, fun _ _ => rfl⟩
    rw [ho] at hg
    have := h.down f i g (by omega) hg
    exact ⟨by omega, hg⟩
  · exact ⟨level, T, h, Raises.refl _ _, fun g hg => (by cases hg), fun _ _ _ _ => rfl,
      fun _ _ => rfl⟩
  · -- frame 0 is lost
    obtain ⟨hlev, hmem⟩ := h.lose hS ha
    exact ⟨level, _, hlev, ⟨fun _ hx => Or.inr hx, fun _ _ => rfl⟩,
      fun g hg => (by cases hg), fun x j hx _ => by rw [hmem x hx],
      fun x hx => clear_mem_ne _ fun e => hx (Or.inl e)⟩
  · obtain ⟨hfresh, hlt, -⟩ := hS.step h.pmm ha
    have hg : ∀ x, level x ≠ 0 → x ≠ g := by
      rintro x hx rfl
      exact hfresh (h.held x hx)
    obtain ⟨hlev, hchild⟩ := h.link hS ha hf hl hs'
    refine ⟨_, _, hlev, ⟨fun _ hx => Or.inr hx, fun x hx => Function.update_of_ne (hg x hx) _ _⟩,
      fun x hx => ?_, fun x j hx hxj => ?_, fun x hx => ?_⟩
    · rw [tableVirt_ofNat hlt] at hx
      cases hx
      exact ⟨Function.update_self _ _ _, hchild⟩
    · have hslot : ¬ (x = f ∧ j = i) := fun e => hxj e hempty
      rw [hs', Machine.store_mem, if_neg hslot, clear_mem_ne _ (hg x hx)]
    · have hxf : x ≠ f := fun e => hx (Or.inr (by rw [e]; exact h.held f (by omega)))
      funext j
      rw [hs', Machine.store_mem, if_neg fun e => hxf e.1,
        clear_mem_ne _ fun e => hx (Or.inl e)]

/-- `lookup_pt` from a root: a last-level table. Of the roots it writes
the one it starts from, and that only where the entry is missing. -/
theorem lookupPt (h : Graded P s level T) {virt : Nat} (hk : level k = 4)
    (hl : Paging.lookupPt alloc s k virt true flags = (s', o)) :
    ∃ level' T', Graded P s' level' T' ∧ Raises level level' T T'
      ∧ (∀ pt, o = some pt → level' pt = 1
        ∧ walk (child s'.mem) k (tablePath virt) = some pt)
      ∧ (∀ x j, level x = 4 →
        (x = k ∧ j = pml4Index virt → child s.mem k (pml4Index virt) ≠ none) →
        s'.mem x j = s.mem x j)
      ∧ ∀ x, ¬ T' x → s'.mem x = s.mem x := by
  unfold Paging.lookupPt at hl
  cases h1 : Paging.nextTable alloc s k (pml4Index virt) flags true with
  | mk s1 o1 =>
  obtain ⟨l1, t1, lev1, up1, out1, frame1, keep1⟩ := h.nextTable hS hk (by decide) h1
  have hframe1 : ∀ x j, level x = 4 →
      (x = k ∧ j = pml4Index virt → child s.mem k (pml4Index virt) ≠ none) →
      s1.mem x j = s.mem x j := fun x j hx => frame1 x j (by omega)
  cases o1 with
  | none =>
      simp only [h1] at hl
      obtain ⟨rfl, rfl⟩ := Prod.mk.inj hl
      exact ⟨l1, t1, lev1, up1, fun pt hpt => (by cases hpt), hframe1, keep1⟩
  | some pdpt =>
  simp only [h1] at hl
  obtain ⟨hpdpt, hc1⟩ := out1 pdpt rfl
  cases h2 : Paging.nextTable alloc s1 pdpt (pdptIndex virt) flags true with
  | mk s2 o2 =>
  obtain ⟨l2, t2, lev2, up2, out2, frame2, keep2⟩ := lev1.nextTable hS hpdpt (by decide) h2
  -- roots are not the table in the middle
  have hframe2 : ∀ x j, l1 x = 4 → s2.mem x j = s1.mem x j := by
    intro x j hx
    refine frame2 x j (by omega) ?_
    rintro ⟨rfl, -⟩
    omega
  have hroot : ∀ x, level x = 4 → l1 x = 4 := fun x hx => by
    rw [up1.level x (by omega), hx]
  have hkeep2 : ∀ x, ¬ t2 x → s2.mem x = s.mem x := fun x hx =>
    (keep2 x hx).trans (keep1 x fun ht => hx (up2.held x ht))
  cases o2 with
  | none =>
      simp only [h2] at hl
      obtain ⟨rfl, rfl⟩ := Prod.mk.inj hl
      refine ⟨l2, t2, lev2, up1.trans up2, fun pt hpt => (by cases hpt), fun x j hx hxj => ?_,
        hkeep2⟩
      rw [hframe2 x j (hroot x hx), hframe1 x j hx hxj]
  | some pd =>
  simp only [h2] at hl
  obtain ⟨hpd, hc2⟩ := out2 pd rfl
  obtain ⟨l3, t3, lev3, up3, out3, frame3, keep3⟩ := lev2.nextTable hS hpd (by decide) hl
  have hroot2 : ∀ x, level x = 4 → l2 x = 4 := fun x hx => by
    have hx1 := hroot x hx
    rw [up2.level x (by omega), hx1]
  have hframe3 : ∀ x j, level x = 4 → s'.mem x j = s2.mem x j := by
    intro x j hx
    have hx2 := hroot2 x hx
    refine frame3 x j (by omega) ?_
    rintro ⟨rfl, -⟩
    omega
  refine ⟨l3, t3, lev3, (up1.trans up2).trans up3, fun pt hpt => ?_, fun x j hx hxj => ?_,
    fun x hx => (keep3 x hx).trans (hkeep2 x fun ht => hx (up3.held x ht))⟩
  · obtain ⟨hlev, hc3⟩ := out3 pt hpt
    refine ⟨hlev, ?_⟩
    -- the entries above were not written again
    have hk2 := hroot k hk
    have e1 : child s'.mem k (pml4Index virt) = some pdpt := by
      rwa [child_congr ((hframe3 k _ hk).trans (hframe2 k _ hk2))]
    have e2 : child s'.mem pdpt (pdptIndex virt) = some pd := by
      have hpdpt2 : l2 pdpt = 3 := by rw [up2.level pdpt (by omega), hpdpt]
      have hkeep : s'.mem pdpt (pdptIndex virt) = s2.mem pdpt (pdptIndex virt) := by
        refine frame3 pdpt _ (by omega) ?_
        rintro ⟨rfl, -⟩
        omega
      rwa [child_congr hkeep]
    unfold tablePath
    rw [walk_cons, e1, Option.bind_some, walk_cons, e2, Option.bind_some, walk_cons, hc3]
    rfl
  · rw [hframe3 x j hx, hframe2 x j (hroot x hx), hframe1 x j hx hxj]

end Graded

end Alix.Paging
