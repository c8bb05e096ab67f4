/-
The kernel half of the address spaces.

`ptable_create` copies the upper 256 entries of the kernel's root, and
nothing copies them again. What the spaces share are the tables below
those entries, so a mapping the kernel makes under an entry that was there
when a space was made shows in that space, and a mapping that needs a new
entry does not.

`Levels` says which frames are tables and of what height: 4 for roots, 1
for last-level tables. A lookup that creates tables fills a slot of a
table it passes, so it writes to a root only when the root's entry is
missing (`Levels.lookupPt`). The runs start where `paging_init` has its
root and nothing is mapped.
-/
import Alix.Mm.Proofs.Graded
import Alix.Mm.Proofs.PagingRun
import Alix.Mm.Proofs.HeapRun

namespace Alix

open Paging
open Radix
open Dyadic (Block)
open Pmm (Ledger)

-- ==== the runs

namespace Vm

/-- What happens to the kernel half: spaces come and go, and the kernel
maps. -/
inductive KernelAct where
  | create
  | mapPage (virt phys : Nat) (flags : Word)
  | mapRange (virt phys size : Nat) (flags : Word)
  | destroy (a : Nat)

/-- The maps are on `kernel_vas`; `destroy` is `ptable_destroy` of the
root of a space. -/
def kernelStep (s : Vm) : KernelAct → Except VmPanic Vm
  | .create => .ok (s.vasCreate none).1
  | .mapPage virt phys flags =>
      .ok { s with mach :=
        (pagingMapPage Pmm.pmmAllocPage s.mach s.kernelPml4 virt phys flags).1 }
  | .mapRange virt phys size flags =>
      .ok { s with mach :=
        (pagingMapRange Pmm.pmmAllocPage s.mach s.kernelPml4 virt phys size
          flags).1 }
  | .destroy a =>
      match s.spaces a with
      | none => .ok s
      | some v =>
          match s.mach.ptableDestroy v.pml4 with
          | .error e => .error (.pmm e)
          | .ok mach => .ok ({ s with mach }.setSpace a none)

/-- The canonical addresses of the upper half. -/
def UpperHalf (virt : Nat) : Prop := 2 ^ 64 - 2 ^ 47 ≤ virt ∧ virt < 2 ^ 64

/-- The kernel maps in the upper half. -/
def KernelAct.Upper : KernelAct → Prop
  | .mapPage virt _ _ => UpperHalf virt
  | .mapRange virt _ size _ => UpperHalf virt ∧ virt + pageAlignUp size ≤ 2 ^ 64
  | _ => True

/-- The states after `paging_init` has taken a frame for the kernel's
root, by steps that `may` allows. -/
inductive KernelRun (maxPfn : Nat) (usable : Nat → Bool)
    (may : Vm → KernelAct → Prop) : Vm → Prop
  | boot {mem : Nat → Nat → Word} {mach : Mach} {k : Nat} : k ≠ 0 →
      allocTable Pmm.pmmAllocPage
        ⟨Pmm.pmmInit maxPfn (Pmm.pfndb maxPfn usable), mem⟩ = (mach, pfnPhys k) →
      KernelRun maxPfn usable may ⟨mach, [], [], some k, fun _ => none, 0⟩
  | step {s s' : Vm} (act : KernelAct) (coins : List Coin) :
      KernelRun maxPfn usable may s → act.Upper → may s act →
      { s with coins }.kernelStep act = .ok s' → KernelRun maxPfn usable may s'

/-- Every upper-half address reads the same through every live root as
through the kernel's. -/
def Coherent (s : Vm) : Prop :=
  ∀ a v virt, s.spaces a = some v → UpperHalf virt →
    pagingVirtToPhys Pmm.pmmAllocPage s.mach (some v.pml4) virt
        = pagingVirtToPhys Pmm.pmmAllocPage s.mach s.kernelPml4 virt
      ∧ pagingGetFlags Pmm.pmmAllocPage s.mach (some v.pml4) virt
        = pagingGetFlags Pmm.pmmAllocPage s.mach s.kernelPml4 virt

/-- The root of the kernel has an entry for the address, or there is no
other space to miss a new one. -/
def Covered (s : Vm) (virt : Nat) : Prop :=
  (∀ a, s.spaces a = none)
    ∨ ∃ k, s.kernelPml4 = some k ∧ child s.mach.mem k (pml4Index virt) ≠ none

/-- No map needs a new top-level entry while another space is live. -/
def Shared (s : Vm) : KernelAct → Prop
  | .mapPage virt _ _ => s.Covered virt
  | .mapRange virt _ size _ =>
      ∀ v ∈ pages virt (virt + pageAlignUp size), s.Covered v
  | _ => True

end Vm

-- ==== levels

/-- Which frames are tables, and how high. -/
structure Levels (maxPfn : Nat) (usable : Nat → Bool) (m : Mach)
    (heap rest : List Block) (level : Nat → Nat) : Prop where
  ledger : Ledger maxPfn usable m.pmm (heap ++ rest) fun _ => 1
  held : ∀ f, level f ≠ 0 → ⟨f, 0⟩ ∈ rest
  le : ∀ f, level f ≤ 4
  down : ∀ f j g, 2 ≤ level f → child m.mem f j = some g → level g + 1 = level f

/-- Tables are added. -/
structure Adds (rest rest' : List Block) (level level' : Nat → Nat) : Prop where
  rest : ∀ b ∈ rest, b ∈ rest'
  level : ∀ f, level f ≠ 0 → level' f = level f

theorem Adds.refl (rest : List Block) (level : Nat → Nat) : Adds rest rest level level :=
  ⟨fun _ hb => hb, fun _ _ => rfl⟩

theorem Adds.trans {r r' r'' : List Block} {l l' l'' : Nat → Nat}
    (h : Adds r r' l l') (h' : Adds r' r'' l' l'') : Adds r r'' l l'' := by
  refine ⟨fun b hb => h'.rest b (h.rest b hb), fun f hf => ?_⟩
  have hl := h.level f hf
  rw [h'.level f (by rw [hl]; exact hf), hl]

namespace Levels

variable {maxPfn : Nat} {usable : Nat → Bool} {m m' : Mach}
  {heap rest : List Block} {level : Nat → Nat} {f g i k : Nat} {flags : Word}
  {o : Option Nat}

/-- A frame from the allocator is no table, and has 40 bits. -/
theorem alloc (h : Levels maxPfn usable m heap rest level) {pmm : Pmm}
    (ha : m.pmm.pmmAllocPage = some (pmm, g)) :
    Ledger maxPfn usable pmm (heap ++ ⟨g, 0⟩ :: rest) (fun _ => 1)
      ∧ level g = 0 ∧ g < maxPfn + 1 := by
  obtain ⟨hl, hnew, -⟩ := h.ledger.alloc ha
  have hp : Ledger maxPfn usable pmm (heap ++ ⟨g, 0⟩ :: rest) fun _ => 1 := by
    refine (hl.perm List.perm_middle.symm).congr fun b _ => ?_
    by_cases hb : b.base = g
    · rw [hb, Function.update_self]
    · rw [Function.update_of_ne hb]
  refine ⟨hp, ?_, (hp.mem_usable (List.mem_append_right _ List.mem_cons_self)
    (Block.base_mem ⟨g, 0⟩)).1⟩
  by_contra hne
  exact hnew g (Block.base_mem ⟨g, 0⟩) ⟨g, 0⟩
    (List.mem_append_right _ (h.held g hne)) (Block.base_mem ⟨g, 0⟩)

/-- A fresh frame is cleared and lost. -/
theorem lose (h : Levels maxPfn usable m heap rest level) {pmm : Pmm}
    (ha : m.pmm.pmmAllocPage = some (pmm, g)) :
    Levels maxPfn usable ({ m with pmm }.clear g) heap (⟨g, 0⟩ :: rest) level
      ∧ ∀ x, level x ≠ 0 → ({ m with pmm }.clear g).mem x = m.mem x := by
  obtain ⟨hledger, hg, -⟩ := h.alloc ha
  have hmem : ∀ x, level x ≠ 0 → ({ m with pmm }.clear g).mem x = m.mem x := by
    intro x hx
    refine clear_mem_ne _ ?_
    rintro rfl
    exact hx hg
  refine ⟨⟨hledger, fun x hx => List.mem_cons_of_mem _ (h.held x hx), h.le,
    fun x j y hx hc => h.down x j y hx ?_⟩, hmem⟩
  rwa [child_congr (congrFun (hmem x (by omega)) j)] at hc

/-- The allocator of the kernel, from the blocks `rest` on. -/
def Supply (maxPfn : Nat) (usable : Nat → Bool) (heap rest : List Block) (pmm : Pmm)
    (T : Nat → Prop) : Prop :=
  ∃ rest', (∀ b ∈ rest, b ∈ rest') ∧ Ledger maxPfn usable pmm (heap ++ rest') (fun _ => 1)
    ∧ ∀ f, T f → ⟨f, 0⟩ ∈ rest'

theorem supplies (hmax : maxPfn < 2 ^ 40) :
    Supplies Pmm.pmmAllocPage (Supply maxPfn usable heap rest) where
  step := by
    intro pmm pmm' T g hP ha
    obtain ⟨rest', hsub, hledger, hheld⟩ := hP
    have hlev : Levels maxPfn usable ⟨pmm, fun _ _ => 0⟩ heap rest' fun _ => 0 :=
      ⟨hledger, fun _ h0 => absurd rfl h0, fun _ => Nat.zero_le _, fun _ _ _ h0 => by omega⟩
    obtain ⟨hledger', -, hlt⟩ := hlev.alloc ha
    obtain ⟨-, hnew, -⟩ := hledger.alloc ha
    refine ⟨fun hT => ?_, by omega, ⟨g, 0⟩ :: rest',
      fun b hb => List.mem_cons_of_mem _ (hsub b hb), hledger', fun f hf => ?_⟩
    · exact hnew g (Block.base_mem ⟨g, 0⟩) ⟨g, 0⟩
        (List.mem_append_right _ (hheld g hT)) (Block.base_mem ⟨g, 0⟩)
    · rcases hf with rfl | hf
      · exact List.mem_cons_self
      · exact List.mem_cons_of_mem _ (hheld f hf)

theorem graded (h : Levels maxPfn usable m heap rest level) :
    Graded (Supply maxPfn usable heap rest) m level fun f => ⟨f, 0⟩ ∈ rest :=
  ⟨⟨rest, fun _ hb => hb, h.ledger, fun _ hf => hf⟩, h.held, h.le, h.down⟩

/-- `lookup_pt` from a root: a last-level table. Of the roots it writes
the one it starts from, and that only where the entry is missing. -/
theorem lookupPt (h : Levels maxPfn usable m heap rest level) {virt : Nat}
    (hmax : maxPfn < 2 ^ 40) (hk : level k = 4)
    (hl : Paging.lookupPt Pmm.pmmAllocPage m k virt true flags = (m', o)) :
    ∃ rest' level', Levels maxPfn usable m' heap rest' level'
      ∧ Adds rest rest' level level'
      ∧ (∀ pt, o = some pt → level' pt = 1
        ∧ walk (child m'.mem) k (tablePath virt) = some pt)
      ∧ ∀ x j, level x = 4 →
        (x = k ∧ j = pml4Index virt → child m.mem k (pml4Index virt) ≠ none) →
        m'.mem x j = m.mem x j := by
  obtain ⟨level', T', hgraded, hraises, hout, hframe, -⟩ :=
    h.graded.lookupPt (supplies hmax) hk hl
  obtain ⟨rest', hsub, hledger, hheld⟩ := hgraded.pmm
  exact ⟨rest', level', ⟨hledger, fun f hf => hheld f (hgraded.held f hf), hgraded.le,
    hgraded.down⟩, ⟨hsub, hraises.level⟩, hout, hframe⟩

/-- A store into a last-level table changes no table. -/
theorem store (h : Levels maxPfn usable m heap rest level) {pt j : Nat} {w : Word}
    (hpt : level pt = 1) : Levels maxPfn usable (m.store pt j w) heap rest level :=
  ⟨h.ledger, h.held, h.le, (h.graded.store hpt).down⟩

theorem mapRun (h : Levels maxPfn usable m heap rest level) {pt : Nat} {w : Word}
    (hpt : level pt = 1) (run index phys : Nat) :
    Levels maxPfn usable (Paging.mapRun pt w run m index phys) heap rest level
      ∧ ∀ x j, x ≠ pt → (Paging.mapRun pt w run m index phys).mem x j = m.mem x j := by
  induction run generalizing m index phys with
  | zero => exact ⟨h, fun _ _ _ => rfl⟩
  | succ run ih =>
      obtain ⟨h1, h2⟩ := ih (h.store hpt) (index + 1) ((phys + PAGE_SIZE) % 2 ^ 64)
      refine ⟨h1, fun x j hx => ?_⟩
      unfold Paging.mapRun
      rw [h2 x j hx, Machine.store_mem, if_neg fun e => hx e.1]

/-- Of the roots only `k` is written, and there no entry that is present
and none outside `S`. -/
def RootFrame (level : Nat → Nat) (k : Nat) (S : Nat → Prop) (m m' : Mach) : Prop :=
  ∀ x j, level x = 4 → (x = k → S j → child m.mem k j ≠ none) →
    m'.mem x j = m.mem x j

theorem RootFrame.trans {m'' : Mach} {level' : Nat → Nat} {S S' S'' : Nat → Prop}
    (h : RootFrame level k S m m') (h' : RootFrame level' k S' m' m'')
    (hlev : ∀ x, level x = 4 → level' x = 4) (hS : ∀ j, S j → S'' j)
    (hS' : ∀ j, S' j → S'' j) : RootFrame level k S'' m m'' := by
  intro x j hx hxj
  have h1 := h x j hx fun e hj => hxj e (hS j hj)
  rw [h' x j (hlev x hx) ?_, h1]
  rintro rfl hj
  rw [child_congr h1]
  exact hxj rfl (hS' j hj)

/-- `paging_map_page` on the kernel's root. -/
theorem mapPage (h : Levels maxPfn usable m heap rest level) {virt phys : Nat}
    {rc : Int} (hmax : maxPfn < 2 ^ 40) (hk : level k = 4)
    (hm : pagingMapPage Pmm.pmmAllocPage m (some k) virt phys flags = (m', rc)) :
    ∃ rest' level', Levels maxPfn usable m' heap rest' level'
      ∧ Adds rest rest' level level'
      ∧ RootFrame level k (· = pml4Index virt) m m'
      ∧ (rc = 0 → leaf m'.mem k virt = pte phys flags) := by
  unfold pagingMapPage at hm
  simp only at hm
  split at hm
  · obtain ⟨rfl, rfl⟩ := Prod.mk.inj hm
    exact ⟨rest, level, h, Adds.refl _ _, fun _ _ _ _ => rfl, fun e => (by cases e)⟩
  unfold lookupLeaf at hm
  cases hl : Paging.lookupPt Pmm.pmmAllocPage m k virt true flags with
  | mk m1 o1 =>
      obtain ⟨r1, l1, lev1, adds1, out1, frame1⟩ := h.lookupPt hmax hk hl
      have hframe1 : RootFrame level k (· = pml4Index virt) m m1 :=
        fun x j hx hxj => frame1 x j hx fun e => by
          have := hxj e.1 e.2
          rw [e.2] at this
          exact this
      cases o1 with
      | none =>
          simp only [hl] at hm
          obtain ⟨rfl, rfl⟩ := Prod.mk.inj hm
          exact ⟨r1, l1, lev1, adds1, hframe1, fun e => (by cases e)⟩
      | some pt =>
          simp only [hl] at hm
          obtain ⟨rfl, rfl⟩ := Prod.mk.inj hm
          obtain ⟨hpt, hwalk⟩ := out1 pt rfl
          have hroot : ∀ x, level x = 4 → l1 x = 4 := fun x hx => by
            rw [adds1.level x (by omega), hx]
          refine ⟨r1, l1, lev1.store hpt, adds1, ?_, fun _ => ?_⟩
          · have hstore : RootFrame l1 k (fun _ => False) m1
                (m1.store pt (ptIndex virt) (pte phys flags)) := by
              intro x j hx _
              rw [Machine.store_mem, if_neg]
              rintro ⟨rfl, -⟩
              omega
            exact hframe1.trans hstore hroot (fun _ hj => hj) fun _ hj => hj.elim
          · -- the walk to the leaf is not disturbed by the store
            have hsame := lev1.graded.walk_store (j := ptIndex virt) (w := pte phys flags)
              (hroot k hk) hwalk
            show leaf (m1.store pt (ptIndex virt) (pte phys flags)).mem k virt = _
            unfold leaf
            rw [hsame]
            show (m1.store pt (ptIndex virt) (pte phys flags)).mem pt (ptIndex virt) = _
            rw [Machine.store_mem, if_pos ⟨rfl, rfl⟩]

/-- The rounds of `paging_map_range`. -/
theorem mapRounds (h : Levels maxPfn usable m heap rest level)
    (hmax : maxPfn < 2 ^ 40) (hk : level k = 4) {n virt phys count : Nat}
    (hwrap : virt + count * PAGE_SIZE ≤ 2 ^ 64) {rc : Int}
    (hm : Paging.mapRounds Pmm.pmmAllocPage k flags n m virt phys count = (m', rc)) :
    ∃ rest' level', Levels maxPfn usable m' heap rest' level'
      ∧ Adds rest rest' level level'
      ∧ RootFrame level k
        (fun j => ∃ i < count, pml4Index (virt + i * PAGE_SIZE) = j) m m' := by
  induction n generalizing m rest level virt phys count with
  | zero =>
      cases hm
      exact ⟨rest, level, h, Adds.refl _ _, fun _ _ _ _ => rfl⟩
  | succ n ih =>
      unfold Paging.mapRounds at hm
      split at hm
      · cases hm
        exact ⟨rest, level, h, Adds.refl _ _, fun _ _ _ _ => rfl⟩
      rename_i hcount
      cases hl : Paging.lookupPt Pmm.pmmAllocPage m k virt true flags with
      | mk m1 o1 =>
      obtain ⟨r1, l1, lev1, adds1, out1, frame1⟩ := h.lookupPt hmax hk hl
      have hframe1 : RootFrame level k
          (fun j => ∃ i < count, pml4Index (virt + i * PAGE_SIZE) = j) m m1 := by
        intro x j hx hxj
        refine frame1 x j hx fun e => ?_
        rw [← e.2]
        refine hxj e.1 ⟨0, by omega, ?_⟩
        rw [Nat.zero_mul, Nat.add_zero]
        exact e.2.symm
      cases o1 with
      | none =>
          simp only [hl] at hm
          cases hm
          exact ⟨r1, l1, lev1, adds1, hframe1⟩
      | some pt =>
          simp only [hl] at hm
          obtain ⟨hpt, -⟩ := out1 pt rfl
          have hroot : ∀ x, level x = 4 → l1 x = 4 := fun x hx => by
            rw [adds1.level x (by omega), hx]
          generalize hrun : (if 512 - ptIndex virt > count then count
            else 512 - ptIndex virt) = run at hm
          have hidx : ptIndex virt < 512 := Nat.mod_lt _ (by decide)
          have hle : 0 < run ∧ run ≤ count := by
            split at hrun <;> omega
          obtain ⟨lev2, frame2⟩ := lev1.mapRun hpt (w := flagsToPte flags) run
            (ptIndex virt) phys
          have hframe2 : RootFrame l1 k (fun _ => False) m1
              (Paging.mapRun pt (flagsToPte flags) run m1 (ptIndex virt) phys) := by
            intro x j hx _
            refine frame2 x j ?_
            rintro rfl
            omega
          have hframe := hframe1.trans hframe2 hroot (fun _ hj => hj)
            fun _ hj => hj.elim
          by_cases hdone : run = count
          · -- nothing is left for the next round
            rw [hdone, Nat.sub_self] at hm
            have hstop : ∀ n s v p, Paging.mapRounds Pmm.pmmAllocPage k flags n s v p 0
                = ((s, 0) : Mach × Int) := by
              intro n s v p
              cases n with
              | zero => rfl
              | succ n => rfl
            rw [hstop, ← hdone] at hm
            cases hm
            exact ⟨r1, l1, lev2, adds1, hframe⟩
          · have hs : PAGE_SIZE = 4096 := rfl
            have hnext : (virt + run * PAGE_SIZE) % 2 ^ 64 = virt + run * PAGE_SIZE := by
              rw [hs] at hwrap ⊢
              omega
            rw [hnext] at hm
            obtain ⟨r3, l3, lev3, adds3, frame3⟩ := ih lev2 (hroot k hk)
              (by rw [hs] at hwrap ⊢; omega) hm
            refine ⟨r3, l3, lev3, adds1.trans adds3,
              hframe.trans frame3 hroot (fun _ hj => hj) ?_⟩
            rintro j ⟨i, hi, hj⟩
            refine ⟨run + i, by omega, ?_⟩
            rw [← hj, Nat.add_mul, Nat.add_assoc]

/-- A fresh root with the upper half of another. -/
theorem plant (h : Levels maxPfn usable m heap rest level)
    (ha : m.pmm.pmmAllocPage = some (m'.pmm, g))
    (hmem : ∀ x j, x ≠ g → m'.mem x j = m.mem x j)
    (hnew : ∀ j y, child m'.mem g j = some y → level y = 3) :
    Levels maxPfn usable m' heap (⟨g, 0⟩ :: rest) (Function.update level g 4) := by
  obtain ⟨hledger, hg, -⟩ := h.alloc ha
  refine ⟨hledger, fun x hx => ?_, fun x => ?_, fun x j y hx hc => ?_⟩
  · by_cases hxg : x = g
    · rw [hxg]
      exact List.mem_cons_self
    · rw [Function.update_of_ne hxg] at hx
      exact List.mem_cons_of_mem _ (h.held x hx)
  · by_cases hxg : x = g
    · rw [hxg, Function.update_self]
    · rw [Function.update_of_ne hxg]
      exact h.le x
  · have hyg : level y ≠ 0 → Function.update level g 4 y = level y := by
      intro hy
      refine Function.update_of_ne ?_ _ _
      rintro rfl
      exact hy hg
    by_cases hxg : x = g
    · rw [hxg] at hc ⊢
      have hy := hnew j y hc
      rw [hyg (by omega), Function.update_self, hy]
    · rw [Function.update_of_ne hxg] at hx ⊢
      have hold : child m.mem x j = some y := (child_congr (hmem x j hxg)).symm.trans hc
      have hlev := h.down x j y hx hold
      rw [hyg (by omega)]
      exact hlev

end Levels

-- ==== the invariant

namespace Vm

variable {maxPfn : Nat} {usable : Nat → Bool}

/-- The roots of the spaces have an empty lower half and the kernel's
upper half. -/
structure KernelInv (maxPfn : Nat) (usable : Nat → Bool) (s : Vm) (k : Nat)
    (rest : List Block) (level : Nat → Nat) : Prop where
  kernel : s.kernelPml4 = some k
  root : level k = 4
  levels : Levels maxPfn usable s.mach s.heap rest level
  lower : ∀ a v, s.spaces a = some v → level v.pml4 = 4 ∧ v.pml4 ≠ k
    ∧ ∀ i, i < 256 → child s.mach.mem v.pml4 i = none
  upper : ∀ a v, s.spaces a = some v → ∀ i, 256 ≤ i → i < 512 →
    s.mach.mem v.pml4 i = s.mach.mem k i
  inj : ∀ a b v w, s.spaces a = some v → s.spaces b = some w →
    v.pml4 = w.pml4 → a = b

variable {s s' : Vm} {k : Nat} {rest : List Block} {level : Nat → Nat}

/-- One entry of the root decides the whole walk. -/
theorem leaf_of_entry {mem : Nat → Nat → Word} {r r' virt : Nat}
    (h : mem r (pml4Index virt) = mem r' (pml4Index virt)) :
    leaf mem r virt = leaf mem r' virt := by
  unfold leaf tablePath
  rw [walk_cons, walk_cons, child_congr h]

theorem upperHalf_index {virt : Nat} (h : UpperHalf virt) :
    256 ≤ pml4Index virt ∧ pml4Index virt < 512 := by
  obtain ⟨h1, h2⟩ := h
  unfold pml4Index
  omega

theorem KernelInv.coherent (h : KernelInv maxPfn usable s k rest level) :
    s.Coherent := by
  intro a v virt hv hup
  obtain ⟨hi, hi'⟩ := upperHalf_index hup
  have hleaf := leaf_of_entry (h.upper a v hv _ hi hi')
  rw [h.kernel, pagingVirtToPhys_eq, pagingVirtToPhys_eq, pagingGetFlags_eq,
    pagingGetFlags_eq, hleaf]
  exact ⟨rfl, rfl⟩

theorem KernelInv.heap (h : KernelInv maxPfn usable s k rest level)
    (hr : HeapRun s s') : KernelInv maxPfn usable s' k rest level := by
  obtain ⟨hsp, -, hk⟩ := hr.spaces
  obtain ⟨hmem, ref', hh, hspare⟩ := hr.ledger ⟨h.levels.ledger, fun _ _ => rfl⟩
  have hledger : Ledger maxPfn usable s'.mach.pmm (s'.heap ++ rest) fun _ => 1 := by
    refine hh.ledger.congr fun b hb => ?_
    rcases List.mem_append.mp hb with hb | hb
    · exact (hh.single b hb).symm
    · exact (hspare.ref b hb).symm
  refine ⟨hk.trans h.kernel, h.root, ⟨hledger, h.levels.held, h.levels.le, ?_⟩,
    ?_, ?_, ?_⟩
  · rw [hmem]
    exact h.levels.down
  · rw [hsp, hmem]
    exact h.lower
  · rw [hsp, hmem]
    exact h.upper
  · rw [hsp]
    exact h.inj

/-- A step of the kernel's maps: the roots are written at `k` alone. -/
theorem KernelInv.mapped (h : KernelInv maxPfn usable s k rest level)
    {m' : Mach} {rest' : List Block} {level' : Nat → Nat} {S : Nat → Prop}
    (hlev : Levels maxPfn usable m' s.heap rest' level')
    (hadds : Adds rest rest' level level')
    (hframe : Levels.RootFrame level k S s.mach m')
    (hshared : ∀ a v, s.spaces a = some v → ∀ j, S j →
      child s.mach.mem k j ≠ none) :
    KernelInv maxPfn usable { s with mach := m' } k rest' level' := by
  have hroot : ∀ x, level x = 4 → level' x = 4 := fun x hx => by
    rw [hadds.level x (by omega), hx]
  have hword : ∀ a v, s.spaces a = some v → ∀ j,
      m'.mem v.pml4 j = s.mach.mem v.pml4 j := by
    intro a v hv j
    obtain ⟨h4, hne, -⟩ := h.lower a v hv
    exact hframe _ j h4 fun e => (hne e).elim
  refine ⟨h.kernel, hroot k h.root, hlev, fun a v hv => ?_, fun a v hv i h1 h2 => ?_,
    h.inj⟩
  · obtain ⟨h4, hne, hempty⟩ := h.lower a v hv
    refine ⟨hroot _ h4, hne, fun i hi => ?_⟩
    exact (child_congr (hword a v hv i)).trans (hempty i hi)
  · show m'.mem v.pml4 i = m'.mem k i
    rw [hword a v hv, hframe k i h.root fun _ hS => hshared a v hv i hS]
    exact h.upper a v hv i h1 h2

theorem covered_iff (h : KernelInv maxPfn usable s k rest level) {virt : Nat} :
    s.Covered virt ↔ (∀ a, s.spaces a = none)
      ∨ child s.mach.mem k (pml4Index virt) ≠ none := by
  unfold Covered
  rw [h.kernel]
  constructor
  · rintro (hno | ⟨k', hk', hc⟩)
    · exact Or.inl hno
    · cases hk'
      exact Or.inr hc
  · rintro (hno | hc)
    · exact Or.inl hno
    · exact Or.inr ⟨k, rfl, hc⟩

theorem KernelInv.mapPage (h : KernelInv maxPfn usable s k rest level)
    (hmax : maxPfn < 2 ^ 40) {virt phys : Nat} {flags : Word}
    (hcov : s.Covered virt) : ∃ rest' level', KernelInv maxPfn usable { s with mach :=
      (pagingMapPage Pmm.pmmAllocPage s.mach s.kernelPml4 virt phys flags).1 } k
        rest' level' := by
  have hcall : pagingMapPage Pmm.pmmAllocPage s.mach s.kernelPml4 virt phys flags
      = pagingMapPage Pmm.pmmAllocPage s.mach (some k) virt phys flags := by rw [h.kernel]
  rw [hcall]
  obtain ⟨rest', level', hlev, hadds, hframe, -⟩ :=
    h.levels.mapPage hmax h.root (Prod.mk.eta.symm :
      pagingMapPage Pmm.pmmAllocPage s.mach (some k) virt phys flags = _)
  refine ⟨rest', level', h.mapped hlev hadds hframe ?_⟩
  rintro a v hv j rfl
  rcases (covered_iff h).mp hcov with hno | hc
  · rw [hno a] at hv
    cases hv
  · exact hc

theorem KernelInv.mapRange (h : KernelInv maxPfn usable s k rest level)
    (hmax : maxPfn < 2 ^ 40) {virt phys size : Nat} {flags : Word}
    (hwrap : virt + pageAlignUp size ≤ 2 ^ 64)
    (hcov : ∀ v ∈ pages virt (virt + pageAlignUp size), s.Covered v) :
    ∃ rest' level', KernelInv maxPfn usable { s with mach :=
      (pagingMapRange Pmm.pmmAllocPage s.mach s.kernelPml4 virt phys size flags).1 } k
        rest' level' := by
  have hcall : pagingMapRange Pmm.pmmAllocPage s.mach s.kernelPml4 virt phys size flags
      = pagingMapRange Pmm.pmmAllocPage s.mach (some k) virt phys size flags := by
    rw [h.kernel]
  rw [hcall]
  unfold pagingMapRange
  simp only
  split
  · exact ⟨rest, level, h⟩
  split
  · exact ⟨rest, level, h⟩
  have hs : PAGE_SIZE = 4096 := rfl
  have hmod : pageAlignUp size % PAGE_SIZE = 0 := Nat.mul_mod_left _ _
  have hcount : pageAlignUp size / PAGE_SIZE * PAGE_SIZE = pageAlignUp size :=
    Nat.div_mul_cancel (Nat.dvd_of_mod_eq_zero hmod)
  obtain ⟨rest', level', hlev, hadds, hframe⟩ := h.levels.mapRounds hmax h.root
    (by rw [hcount]; exact hwrap) (Prod.mk.eta.symm :
      mapRounds Pmm.pmmAllocPage k flags (pageAlignUp size / PAGE_SIZE) s.mach virt phys
        (pageAlignUp size / PAGE_SIZE) = _)
  refine ⟨rest', level', h.mapped hlev hadds hframe ?_⟩
  rintro a v hv j ⟨i, hi, rfl⟩
  have hmem : virt + i * PAGE_SIZE ∈ pages virt (virt + pageAlignUp size) := by
    unfold pages
    rw [List.mem_range']
    refine ⟨i, ?_, by rw [Nat.mul_comm]⟩
    rw [hs] at hi ⊢
    omega
  rcases (covered_iff h).mp (hcov _ hmem) with hno | hc
  · rw [hno a] at hv
    cases hv
  · exact hc

/-- Frames that are no tables are written, and some may be lost. -/
theorem KernelInv.off (h : KernelInv maxPfn usable s k rest level) {m' : Mach}
    {rest' : List Block} (hlev : Levels maxPfn usable m' s.heap rest' level)
    (hmem : ∀ x, level x ≠ 0 → m'.mem x = s.mach.mem x) :
    KernelInv maxPfn usable { s with mach := m' } k rest' level := by
  refine ⟨h.kernel, h.root, hlev, fun a v hv => ?_, fun a v hv i hi hi' => ?_, h.inj⟩
  · obtain ⟨h4, hne, hempty⟩ := h.lower a v hv
    refine ⟨h4, hne, fun i hi => ?_⟩
    exact (child_congr (congrFun (hmem _ (by omega)) i)).trans (hempty i hi)
  · obtain ⟨h4, -, -⟩ := h.lower a v hv
    show m'.mem v.pml4 i = m'.mem k i
    rw [hmem _ (by omega), hmem k (by rw [h.root]; decide)]
    exact h.upper a v hv i hi hi'

/-- A fresh frame with the kernel's upper half becomes the root of a new
space. -/
theorem KernelInv.born (h : KernelInv maxPfn usable s k rest level) {m' : Mach} {g : Nat}
    {v : Vas} (hv : v.pml4 = g) (hg : level g = 0)
    (hold : ∀ x j, x ≠ g → m'.mem x j = s.mach.mem x j)
    (hnew : ∀ j, m'.mem g j = if 256 ≤ j ∧ j < 512 then s.mach.mem k j else 0)
    (hlev : Levels maxPfn usable m' s.heap (⟨g, 0⟩ :: rest) (Function.update level g 4)) :
    KernelInv maxPfn usable
      { s.setSpace s.next (some v) with mach := m', next := s.next + 1 } k
      (⟨g, 0⟩ :: rest) (Function.update level g 4) := by
  have hup : ∀ x, level x ≠ 0 → x ≠ g ∧ Function.update level g 4 x = level x := by
    intro x hx
    have hxg : x ≠ g := by
      rintro rfl
      exact hx hg
    exact ⟨hxg, Function.update_of_ne hxg _ _⟩
  obtain ⟨hkg, hk4⟩ := hup k (by rw [h.root]; decide)
  have hother : ∀ a u, s.spaces a = some u → u.pml4 ≠ g
      ∧ Function.update level g 4 u.pml4 = 4 := by
    intro a u hu
    obtain ⟨h4, -, -⟩ := h.lower a u hu
    obtain ⟨hne, hup4⟩ := hup u.pml4 (by omega)
    exact ⟨hne, hup4.trans h4⟩
  refine ⟨h.kernel, hk4.trans h.root, hlev, ?_, ?_, ?_⟩
  · intro a u hu
    change Function.update s.spaces s.next _ a = some u at hu
    by_cases hna : a = s.next
    · rw [hna, Function.update_self] at hu
      cases hu
      rw [hv]
      refine ⟨Function.update_self _ _ _, hkg.symm, fun i hi => child_zero ?_⟩
      exact (hnew i).trans (if_neg (by omega))
    · rw [Function.update_of_ne hna] at hu
      obtain ⟨-, hne, hempty⟩ := h.lower a u hu
      obtain ⟨hug, hu4⟩ := hother a u hu
      refine ⟨hu4, hne, fun i hi => ?_⟩
      exact (child_congr (hold _ i hug)).trans (hempty i hi)
  · intro a u hu i hi hi'
    change Function.update s.spaces s.next _ a = some u at hu
    show m'.mem u.pml4 i = m'.mem k i
    rw [hold k i hkg]
    by_cases hna : a = s.next
    · rw [hna, Function.update_self] at hu
      cases hu
      rw [hv, hnew i, if_pos ⟨hi, hi'⟩]
    · rw [Function.update_of_ne hna] at hu
      rw [hold _ i (hother a u hu).1]
      exact h.upper a u hu i hi hi'
  · intro a b u w hu hw e
    change Function.update s.spaces s.next _ a = some u at hu
    change Function.update s.spaces s.next _ b = some w at hw
    by_cases hna : a = s.next
    · by_cases hnb : b = s.next
      · rw [hna, hnb]
      · rw [hna, Function.update_self] at hu
        rw [Function.update_of_ne hnb] at hw
        cases hu
        exact ((hother b w hw).1 (e.symm.trans hv)).elim
    · rw [Function.update_of_ne hna] at hu
      by_cases hnb : b = s.next
      · rw [hnb, Function.update_self] at hw
        cases hw
        exact ((hother a u hu).1 (e.trans hv)).elim
      · rw [Function.update_of_ne hnb] at hw
        exact h.inj a b u w hu hw e

theorem KernelInv.create (h : KernelInv maxPfn usable s k rest level)
    (hmax : maxPfn < 2 ^ 40) : ∃ rest' level',
      KernelInv maxPfn usable (s.vasCreate none).1 k rest' level' := by
  unfold vasCreate
  split
  · rename_i s1 hk
    exact ⟨rest, level, h.heap (heapRun_kzalloc hk)⟩
  rename_i s1 hk
  have h1 := h.heap (heapRun_kzalloc hk)
  simp only
  cases hc : ptableCreate Pmm.pmmAllocPage s1.mach s1.kernelPml4 with
  | mk m' o =>
  rw [h1.kernel] at hc
  obtain ⟨rfl, -, rfl⟩ | ⟨pmm, rfl, ha, rfl⟩ | ⟨pmm, g, hg0, ha, hroot⟩ :=
    ptableCreate_cases hc
  · exact ⟨rest, level, (h1.off h1.levels fun _ _ => rfl).heap (heapRun_kfree _)⟩
  · obtain ⟨hlev, hmem⟩ := h1.levels.lose ha
    exact ⟨_, level, (h1.off hlev hmem).heap (heapRun_kfree _)⟩
  · obtain ⟨-, hg, hlt⟩ := h1.levels.alloc ha
    have hgk : k ≠ g := by
      rintro rfl
      rw [h1.root] at hg
      cases hg
    obtain ⟨rfl, hpmm, hmem⟩ := hroot (by omega) fun k' hk' => by
      cases hk'
      exact hgk
    have hold : ∀ x j, x ≠ g → m'.mem x j = s1.mach.mem x j := fun x j hx => by
      rw [hmem x j, if_neg hx]
    have hnew : ∀ j, m'.mem g j = if 256 ≤ j ∧ j < 512 then s1.mach.mem k j else 0 := by
      intro j
      rw [hmem g j, if_pos rfl]
      rfl
    refine ⟨_, _, h1.born rfl hg hold hnew ?_⟩
    refine h1.levels.plant (by rw [hpmm]; exact ha) hold fun j y hy => ?_
    by_cases hj : 256 ≤ j ∧ j < 512
    · rw [child_congr ((hnew j).trans (if_pos hj))] at hy
      have := h1.levels.down k j y (by rw [h1.root]; decide) hy
      rw [h1.root] at this
      omega
    · rw [child_zero ((hnew j).trans (if_neg hj))] at hy
      cases hy

/-- A root with an empty lower half is freed alone. -/
theorem ptableDestroy_empty {m : Mach} {r : Nat} {out : List Block} {ref : Nat → Nat}
    (hempty : ∀ i, i < 256 → child m.mem r i = none)
    (hledger : Ledger maxPfn usable m.pmm out ref) (hr : ⟨r, 0⟩ ∈ out)
    (hone : ref r = 1) : ∃ pmm, m.ptableDestroy r = .ok { m with pmm }
      ∧ Ledger maxPfn usable pmm (out.erase ⟨r, 0⟩) (Function.update ref r 0) := by
  have hloop : ∀ l : List Nat, (∀ i ∈ l, i < 256) →
      l.foldlM (Machine.destroyEntry (Machine.destroyLevel 2) r) m = .ok m := by
    intro l hl
    induction l with
    | nil => rfl
    | cons i l ih =>
        have hnone := child_eq_none.mp (hempty i (hl i List.mem_cons_self))
        have hskip : Machine.destroyEntry (Machine.destroyLevel 2) r m i = .ok m := by
          unfold Machine.destroyEntry
          simp only
          rw [if_pos (by simpa using hnone)]
        rw [List.foldlM_cons, hskip]
        exact ih fun j hj => hl j (List.mem_cons_of_mem _ hj)
  have hU := hledger.mem_usable hr (Block.base_mem ⟨r, 0⟩)
  obtain ⟨hres, -⟩ := hledger.clean r hU
  obtain ⟨pmm, hok, hdrop, -⟩ := hledger.drop hr
  rw [if_pos hone] at hdrop
  refine ⟨pmm, ?_, by rw [hone] at hdrop; exact hdrop⟩
  have hpage : m.physToPage (pfnPhys r) = some r := by
    have hp : physPfn (pfnPhys r) = r := Nat.mul_div_cancel r (by decide)
    unfold Machine.physToPage
    rw [hp, hledger.bound, if_neg]
    have : r < maxPfn + 1 := hU.1
    omega
  unfold Machine.ptableDestroy
  rw [hloop _ fun i hi => List.mem_range.mp hi]
  simp only
  unfold Machine.freeTable
  rw [hpage]
  simp only [hres, Bool.false_eq_true, if_false]
  unfold Machine.free
  rw [hok]

/-- A space goes, and the kernel's tables stay. -/
theorem KernelInv.destroy (h : KernelInv maxPfn usable s k rest level) {a : Nat}
    {v : Vas} (hv : s.spaces a = some v) {m' : Mach}
    (hd : s.mach.ptableDestroy v.pml4 = .ok m') : ∃ rest' level',
      KernelInv maxPfn usable ({ s with mach := m' }.setSpace a none) k rest' level' := by
  obtain ⟨h4, hne, hempty⟩ := h.lower a v hv
  have hrest := h.levels.held v.pml4 (by omega)
  obtain ⟨pmm, hok, hledger⟩ := ptableDestroy_empty hempty h.levels.ledger
    (List.mem_append_right _ hrest) rfl
  rw [hok] at hd
  cases hd
  have hnd := List.disjoint_of_nodup_append h.levels.ledger.nodup
  rw [List.erase_append_right _ fun hb => hnd hb hrest] at hledger
  have hledger' : Ledger maxPfn usable pmm (s.heap ++ rest.erase ⟨v.pml4, 0⟩)
      fun _ => 1 := by
    refine hledger.congr fun b hb => ?_
    have hbase : b.base ≠ v.pml4 := by
      intro e
      have hbin : b ∈ s.heap ++ rest := by
        rcases List.mem_append.mp hb with hb | hb
        · exact List.mem_append_left _ hb
        · exact List.mem_append_right _ (List.mem_of_mem_erase hb)
      have hbr : b = ⟨v.pml4, 0⟩ := h.levels.ledger.head_inj hbin
        (List.mem_append_right _ hrest) e
      rw [hbr] at hb
      rcases List.mem_append.mp hb with hb | hb
      · exact hnd hb hrest
      · exact (List.nodup_append.mp h.levels.ledger.nodup).2.1.not_mem_erase hb
    rw [Function.update_of_ne hbase]
  have hup : ∀ x, x ≠ v.pml4 → Function.update level v.pml4 0 x = level x :=
    fun x hx => Function.update_of_ne hx _ _
  have hothers : ∀ b w, Function.update s.spaces a none b = some w →
      s.spaces b = some w ∧ w.pml4 ≠ v.pml4 := by
    intro b w hw
    by_cases hba : b = a
    · rw [hba, Function.update_self] at hw
      cases hw
    · rw [Function.update_of_ne hba] at hw
      exact ⟨hw, fun e => hba (h.inj b a w v hw hv e)⟩
  refine ⟨rest.erase ⟨v.pml4, 0⟩, Function.update level v.pml4 0, h.kernel, ?_,
    ⟨hledger', ?_, ?_, ?_⟩, ?_, ?_, ?_⟩
  · rw [hup k hne.symm]
    exact h.root
  · intro x hx
    have hxv : x ≠ v.pml4 := by
      rintro rfl
      exact hx (Function.update_self _ _ _)
    rw [hup x hxv] at hx
    refine (List.mem_erase_of_ne ?_).mpr (h.levels.held x hx)
    intro e
    cases e
    exact hxv rfl
  · intro x
    by_cases hxv : x = v.pml4
    · rw [hxv, Function.update_self]
      decide
    · rw [hup x hxv]
      exact h.levels.le x
  · intro x j y hx hc
    have hxv : x ≠ v.pml4 := by
      rintro rfl
      rw [Function.update_self] at hx
      omega
    rw [hup x hxv] at hx ⊢
    have hlev := h.levels.down x j y hx hc
    have hyv : y ≠ v.pml4 := by
      rintro rfl
      have := h.levels.le x
      omega
    rw [hup y hyv]
    exact hlev
  · intro b w hw
    obtain ⟨hb, hwv⟩ := hothers b w hw
    rw [hup _ hwv]
    exact h.lower b w hb
  · intro b w hw
    exact h.upper b w (hothers b w hw).1
  · intro b c w u hw hu e
    exact h.inj b c w u (hothers b w hw).1 (hothers c u hu).1 e

-- ==== the runs

/-- The first table is the kernel's root. -/
theorem kernelInv_boot {mem : Nat → Nat → Word} {mach : Mach} (hk : k ≠ 0)
    (ha : allocTable Pmm.pmmAllocPage
      ⟨Pmm.pmmInit maxPfn (Pmm.pfndb maxPfn usable), mem⟩ = (mach, pfnPhys k)) :
    ∃ rest level, KernelInv maxPfn usable
      ⟨mach, [], [], some k, fun _ => none, 0⟩ k rest level := by
  obtain ⟨L, hrun⟩ := @Pmm.runInv_init maxPfn usable
  have h0 : Levels maxPfn usable
      ⟨Pmm.pmmInit maxPfn (Pmm.pfndb maxPfn usable), mem⟩ [] [] fun _ => 0 :=
    ⟨hrun.ledger, fun f hf => (hf rfl).elim, fun _ => Nat.zero_le _,
      fun f j g hf => (by omega)⟩
  unfold allocTable at ha
  simp only at ha
  cases hal : (Pmm.pmmInit maxPfn (Pmm.pfndb maxPfn usable)).pmmAllocPage with
  | none =>
      rw [hal] at ha
      have he := (Prod.mk.inj ha).2
      have : pfnPhys k = k * 4096 := rfl
      omega
  | some r =>
      obtain ⟨pmm, g⟩ := r
      rw [hal] at ha
      obtain ⟨hm, he⟩ := Prod.mk.inj ha
      have hgk : g = k := by
        change g * 4096 = k * 4096 at he
        omega
      subst hgk
      have hplant : Levels maxPfn usable mach [] [⟨g, 0⟩]
          (Function.update (fun _ => 0) g 4) :=
        h0.plant (by rw [← hm]; exact hal)
          (fun x j hx => by rw [← hm, clear_mem_ne _ hx]) fun j y hy => by
            rw [← hm, child_clear] at hy
            cases hy
      exact ⟨_, _, rfl, Function.update_self _ _ _, hplant, fun a v hv => (by cases hv),
        fun a v hv => (by cases hv), fun a b v w hv => (by cases hv)⟩

theorem KernelRun.inv (hmax : maxPfn < 2 ^ 40)
    (h : KernelRun maxPfn usable Shared s) :
    ∃ k rest level, KernelInv maxPfn usable s k rest level := by
  induction h with
  | @boot mem mach k hk ha => exact ⟨k, kernelInv_boot hk ha⟩
  | @step s s' act coins _ hup hmay hstep ih =>
      obtain ⟨k, rest, level, hs⟩ := ih
      have hinv : KernelInv maxPfn usable { s with coins } k rest level :=
        ⟨hs.kernel, hs.root, hs.levels, hs.lower, hs.upper, hs.inj⟩
      refine ⟨k, ?_⟩
      cases act with
      | create =>
          cases hstep
          exact hinv.create hmax
      | mapPage virt phys flags =>
          cases hstep
          exact hinv.mapPage hmax hmay
      | mapRange virt phys size flags =>
          cases hstep
          exact hinv.mapRange hmax hup.2 hmay
      | destroy a =>
          simp only [kernelStep] at hstep
          split at hstep
          · cases hstep
            exact ⟨rest, level, hinv⟩
          · rename_i v hv
            split at hstep
            · cases hstep
            · rename_i mach hd
              cases hstep
              exact hinv.destroy hv hd

/-- As long as no map needs a new top-level entry while another space is
live, all spaces agree on the kernel half; and a map that needs one breaks
it. -/
theorem kernelRun_coherent (hmax : maxPfn < 2 ^ 40)
    (h : KernelRun maxPfn usable Shared s) :
    s.Coherent ∧ ∀ virt phys flags, UpperHalf virt →
      (pagingMapPage Pmm.pmmAllocPage s.mach s.kernelPml4 virt phys flags).2 = 0 →
      (Coherent { s with mach :=
        (pagingMapPage Pmm.pmmAllocPage s.mach s.kernelPml4 virt phys flags).1 }
      ↔ s.Covered virt) := by
  obtain ⟨k, rest, level, hinv⟩ := h.inv hmax
  refine ⟨hinv.coherent, fun virt phys flags hup hrc => ⟨fun hcoh => ?_, fun hcov => ?_⟩⟩
  · rw [covered_iff hinv]
    by_contra hnot
    rw [not_or, not_forall, not_not] at hnot
    obtain ⟨⟨a, ha⟩, hc⟩ := hnot
    obtain ⟨v, hv⟩ := Option.ne_none_iff_exists'.mp ha
    rw [hinv.kernel] at hcoh hrc
    obtain ⟨rest', level', hlev, hadds, hframe, hleaf⟩ :=
      hinv.levels.mapPage hmax hinv.root (Prod.mk.eta.symm :
        pagingMapPage Pmm.pmmAllocPage s.mach (some k) virt phys flags = _)
    obtain ⟨hi, hi'⟩ := upperHalf_index hup
    obtain ⟨h4, hne, -⟩ := hinv.lower a v hv
    -- the other root has no entry, before as after
    have hentry : (pagingMapPage Pmm.pmmAllocPage s.mach (some k) virt phys
        flags).1.mem v.pml4 (pml4Index virt) = s.mach.mem k (pml4Index virt) := by
      rw [hframe _ _ h4 fun e => (hne e).elim]
      exact hinv.upper a v hv _ hi hi'
    have hzero : leaf (pagingMapPage Pmm.pmmAllocPage s.mach (some k) virt phys
        flags).1.mem v.pml4 virt = 0 := by
      unfold leaf tablePath
      rw [walk_cons]
      rw [child_congr hentry, hc]
      rfl
    obtain ⟨-, hflags⟩ := hcoh a v virt hv hup
    change pagingGetFlags _ (pagingMapPage Pmm.pmmAllocPage s.mach (some k) virt phys
        flags).1 (some v.pml4) virt = pagingGetFlags _ (pagingMapPage Pmm.pmmAllocPage
          s.mach (some k) virt phys flags).1 (some k) virt at hflags
    rw [pagingGetFlags_eq, pagingGetFlags_eq, hzero, hleaf hrc,
      pte_present] at hflags
    simp only [if_true] at hflags
    exact present_flags_ne (pte_present phys flags) hflags.symm
  · obtain ⟨rest', level', hinv'⟩ := hinv.mapPage hmax hcov
    exact hinv'.coherent

-- ==== an example

/-- Sixteen frames, of which frame 0 is not usable, and the root that
`paging_init` takes. -/
def kernelBoot : Mach × Nat :=
  allocTable Pmm.pmmAllocPage
    ⟨Pmm.pmmInit 16 (Pmm.pfndb 16 fun q => 1 ≤ q), fun _ _ => 0⟩

/-- The kernel maps the page at `virt`. -/
def mapOne (s : Vm) (virt : Nat) : Vm :=
  { s with
    mach :=
      (pagingMapPage Pmm.pmmAllocPage s.mach s.kernelPml4 virt 0x5000 PAGE_WRITE).1
    coins := [] }

/-- A space is made; the heap needs no page for it. -/
def createOne (s : Vm) : Vm :=
  ({ s with coins := [⟨[], true⟩] }.vasCreate none).1

/-- No space, and the root of the boot. -/
def kernelVm (r : Mach × Nat) : Vm := ⟨r.1, [], [], some (physPfn r.2), fun _ => none, 0⟩

theorem covered_of_child {k virt : Nat} (hk : s.kernelPml4 = some k)
    (hc : child s.mach.mem k (pml4Index virt) ≠ none) : s.Covered virt :=
  Or.inr ⟨k, hk, hc⟩

section Small

variable {may : Vm → KernelAct → Prop}

theorem KernelRun.mapOne (h : KernelRun maxPfn usable may s) {virt : Nat}
    (hup : UpperHalf virt) (hmay : may s (.mapPage virt 0x5000 PAGE_WRITE)) :
    KernelRun maxPfn usable may (mapOne s virt) :=
  h.step (.mapPage virt 0x5000 PAGE_WRITE) [] hup hmay rfl

theorem KernelRun.createOne (h : KernelRun maxPfn usable may s) (hmay : may s .create) :
    KernelRun maxPfn usable may (createOne s) :=
  h.step .create [⟨[], true⟩] trivial hmay rfl

theorem kernelRun_vm {mem : Nat → Nat → Word} {r : Mach × Nat}
    (hr : allocTable Pmm.pmmAllocPage
      ⟨Pmm.pmmInit maxPfn (Pmm.pfndb maxPfn usable), mem⟩ = r)
    (hne : physPfn r.2 ≠ 0) (hphys : r.2 = pfnPhys (physPfn r.2)) :
    KernelRun maxPfn usable may (kernelVm r) := by
  obtain ⟨m, phys⟩ := r
  refine .boot hne (hr.trans ?_)
  exact congrArg (Prod.mk m) hphys

theorem kernelRun_boot : KernelRun 16 (fun q => 1 ≤ q) may (kernelVm kernelBoot) := by
  have hne : physPfn kernelBoot.2 ≠ 0 := by decide +kernel
  have hphys : kernelBoot.2 = pfnPhys (physPfn kernelBoot.2) := by decide +kernel
  exact kernelRun_vm rfl hne hphys

end Small

/-- The first space reads nothing at an address of the upper half where the
kernel reads a page. -/
theorem not_coherent {virt : Nat} (hup : UpperHalf virt)
    (hsees : (s.spaces 0).map (fun v =>
      pagingVirtToPhys Pmm.pmmAllocPage s.mach (some v.pml4) virt) = some 0)
    (hkernel : pagingVirtToPhys Pmm.pmmAllocPage s.mach s.kernelPml4 virt ≠ 0) :
    ¬ s.Coherent := by
  intro hcoh
  obtain ⟨v, hv, hzero⟩ := Option.map_eq_some_iff.mp hsees
  exact hkernel ((hcoh 0 v virt hv hup).1.symm.trans hzero)

/-- The kernel maps a page after a space is made, and the space does not
see it. -/
theorem kernelRun_hidden :
    ¬ ∀ s, KernelRun 16 (fun q => 1 ≤ q) (fun _ _ => True) s → s.Coherent := by
  intro hall
  have hup : UpperHalf 0xFFFFC00000000000 := ⟨by decide, by decide⟩
  have hrun := hall _ ((kernelRun_boot.createOne trivial).mapOne hup trivial)
  exact not_coherent hup (by decide +kernel) (by decide +kernel) hrun

/-- With a table under the entry before the space is made, the space sees
the second map too. -/
theorem kernelRun_coherent_shared : ∃ s v, KernelRun 16 (fun q => 1 ≤ q) Shared s
    ∧ s.spaces 0 = some v ∧ s.Coherent
    ∧ Coherent { s with mach := (pagingMapPage Pmm.pmmAllocPage s.mach s.kernelPml4
        0xFFFFC00000001000 0x6000 PAGE_WRITE).1 } := by
  have hup : UpperHalf 0xFFFFC00000000000 := ⟨by decide, by decide⟩
  have hup' : UpperHalf 0xFFFFC00000001000 := ⟨by decide, by decide⟩
  have hboot : KernelRun 16 (fun q => 1 ≤ q) Shared (kernelVm kernelBoot) := kernelRun_boot
  have hone := (hboot.mapOne hup (Or.inl fun _ => rfl)).createOne trivial
  have hchild : child (createOne (mapOne (kernelVm kernelBoot)
      0xFFFFC00000000000)).mach.mem (physPfn kernelBoot.2)
        (pml4Index 0xFFFFC00000001000) ≠ none := by
    decide +kernel
  have hroot : (createOne (mapOne (kernelVm kernelBoot) 0xFFFFC00000000000)).kernelPml4
      = some (physPfn kernelBoot.2) := by
    decide +kernel
  have hrc : (pagingMapPage Pmm.pmmAllocPage (createOne (mapOne (kernelVm kernelBoot)
      0xFFFFC00000000000)).mach (createOne (mapOne (kernelVm kernelBoot)
        0xFFFFC00000000000)).kernelPml4 0xFFFFC00000001000 0x6000 PAGE_WRITE).2 = 0 := by
    decide +kernel
  have hlive : ((createOne (mapOne (kernelVm kernelBoot) 0xFFFFC00000000000)).spaces
      0).isSome = true := by
    decide +kernel
  have hcov := covered_of_child hroot hchild
  generalize createOne (mapOne (kernelVm kernelBoot) 0xFFFFC00000000000) = s at *
  obtain ⟨v, hv⟩ := Option.isSome_iff_exists.mp hlive
  obtain ⟨hcoh, hmap⟩ := kernelRun_coherent (by decide) hone
  exact ⟨s, v, hone, hv, hcoh, (hmap _ _ _ hup' hrc).mpr hcov⟩

end Vm

end Alix
