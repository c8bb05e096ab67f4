/-
One address space over whole runs: the tables hold a partial map.

A run starts with `ptable_create` and takes any number of
`paging_map_page` and `paging_unmap_page` calls on the lower half. Beside
the machine it carries the map `M` from page numbers to addresses and
flags that the calls describe: a map that returns 0 adds a page, an unmap
removes one, a map that returns -1 does nothing. `Refines` says that
`paging_virt_to_phys` and `paging_get_flags` read exactly `M`, for every
address of both halves, and `refines_run` that this holds after every
run.

The upper half belongs to the kernel: its tables are held when the run
starts (`KernelHeld`), the new root copies the slots that point to them,
and no call writes them again.
-/
import Alix.Mm.Proofs.Paging
import Alix.Mm.Proofs.PmmRun

namespace Alix.Paging

open Radix

variable {σ : Type}

-- ==== the runs

/-- An allocator whose frames are not otherwise in use. Frame numbers
have 40 bits, since physical addresses have 52. -/
structure FrameAlloc (σ : Type) where
  alloc : σ → Option (σ × Nat)
  inUse : σ → Nat → Prop
  fresh : ∀ {m m' f}, alloc m = some (m', f) → ¬ inUse m f
  taken : ∀ {m m' f g}, alloc m = some (m', f) → g = f ∨ inUse m g →
    inUse m' g
  bound : ∀ {m m' f}, alloc m = some (m', f) → f < 2 ^ 40

/-- What the kernel's own half translates, by page number. -/
def kernelView (alloc : σ → Option (σ × Nat)) (s : Machine σ)
    (k : Option Nat) (page : Nat) : Option (Nat × Word) :=
  let virt := page * PAGE_SIZE
  if page < 2 ^ 35 ∨ pagingGetFlags alloc s k virt = 0 then none
  else some (pagingVirtToPhys alloc s k virt, pagingGetFlags alloc s k virt)

/-- The states of one address space and the map the calls so far
describe. `k` is `kernel_vas->pml4` and `s₀` the machine before
`ptable_create`. -/
inductive Run (A : FrameAlloc σ) (k : Option Nat) (s₀ : Machine σ)
    (root : Nat) : Machine σ → (Nat → Option (Nat × Word)) → Prop
  | create : (ptableCreate A.alloc s₀ k).2 = some root →
      Run A k s₀ root (ptableCreate A.alloc s₀ k).1 (kernelView A.alloc s₀ k)
  | map {s M} (virt phys : Nat) (flags : Word) : Run A k s₀ root s M →
      virt < 2 ^ 47 → virt % PAGE_SIZE = 0 →
      0 < phys → phys < 2 ^ 52 → phys % PAGE_SIZE = 0 →
      Run A k s₀ root (pagingMapPage A.alloc s (some root) virt phys flags).1
        (if (pagingMapPage A.alloc s (some root) virt phys flags).2 = 0 then
          Function.update M (virt / PAGE_SIZE) (some (phys, flags))
        else M)
  | unmap {s M} (virt : Nat) : Run A k s₀ root s M →
      virt < 2 ^ 47 → virt % PAGE_SIZE = 0 →
      Run A k s₀ root (pagingUnmapPage A.alloc s (some root) virt)
        (Function.update M (virt / PAGE_SIZE) none)

/-- The two lookups read the map `M`. -/
def Refines (alloc : σ → Option (σ × Nat)) (s : Machine σ) (root : Nat)
    (M : Nat → Option (Nat × Word)) : Prop :=
  ∀ virt, virt < 2 ^ 64 →
    match M (virt / PAGE_SIZE % 2 ^ 36) with
    | none => pagingVirtToPhys alloc s (some root) virt = 0
        ∧ pagingGetFlags alloc s (some root) virt = 0
    | some (phys, flags) =>
        pagingVirtToPhys alloc s (some root) virt = phys + virt % PAGE_SIZE
        ∧ pagingGetFlags alloc s (some root) virt
            = PAGE_PRESENT ||| (flags
              &&& (PAGE_WRITE ||| PAGE_USER ||| PAGE_GLOBAL ||| PAGE_NX))

/-- The frames of the kernel's upper-half tables. -/
def KernelTable (s : Machine σ) (k : Option Nat) (f : Nat) : Prop :=
  ∃ k' i p, k = some k' ∧ 256 ≤ i ∧ i < 512 ∧ p.length ≤ 2
    ∧ walk (child s.mem) k' (i :: p) = some f

/-- The kernel's root and upper-half tables are frames in use. -/
def KernelHeld (A : FrameAlloc σ) (s : Machine σ) (k : Option Nat) : Prop :=
  (∀ k', k = some k' → A.inUse s.pmm k')
    ∧ ∀ f, KernelTable s k f → A.inUse s.pmm f

-- ==== the invariant

/-- The leaf word of a page of the map. -/
def entryOf : Option (Nat × Word) → Word
  | none => 0
  | some (phys, flags) => pte phys flags

/-- The forest of a single root. -/
abbrev Sole (root : Nat) : Nat → Prop := fun r => r = root ∨ False

/-- Held, for an allocator of fresh frames. -/
abbrev FrameAlloc.Held (A : FrameAlloc σ) (m : σ) (T : Nat → Prop) : Prop :=
  ∀ f, T f → A.inUse m f

theorem FrameAlloc.supplies (A : FrameAlloc σ) : Supplies A.alloc A.Held where
  step := fun hP ha => ⟨fun hT => A.fresh ha (hP _ hT), A.bound ha,
    fun _ hg => A.taken ha (hg.imp_right (hP _))⟩

/-- What a run keeps. -/
structure Mapped (A : FrameAlloc σ) (k : Option Nat) (s₀ : Machine σ)
    (root : Nat) (s : Machine σ) (M : Nat → Option (Nat × Word))
    (T : Nat → Prop) : Prop where
  inv : Inv A.Held s (Sole root) T
  lower : ∀ v, v < 2 ^ 47 → leaf s.mem root v = entryOf (M (v / PAGE_SIZE))
  phys : ∀ n p flags, n < 2 ^ 35 → M n = some (p, flags) →
    p % PAGE_SIZE = 0 ∧ p < 2 ^ 52
  upper : ∀ i, 256 ≤ i → i < 512 → s.mem root i = kernelEntry s₀ k i
  kernel : ∀ f, KernelTable s₀ k f →
    T f ∧ (∀ j, ¬ Slot s.mem (Sole root) f j) ∧ s.mem f = s₀.mem f
  view : ∀ n, 2 ^ 35 ≤ n → M n = kernelView A.alloc s₀ k n

variable {A : FrameAlloc σ} {k : Option Nat} {s₀ s s' : Machine σ} {root : Nat}
  {M : Nat → Option (Nat × Word)} {T T' : Nat → Prop}

/-- The upper half of a root is no slot of the lower-half tables. -/
theorem Mapped.upper_not_slot (h : Mapped A k s₀ root s M T) {i : Nat}
    (hi : 256 ≤ i) : ¬ Slot s.mem (Sole root) root i := by
  intro hs
  obtain ⟨r, q, hr, hq, hj, hw⟩ := hs
  obtain ⟨-, hnil⟩ := h.inv.forest.sep hr (Or.inl rfl) hq lower_owned.nil hw rfl
  have := hj hnil
  omega

/-- A step framed by the tables keeps the kernel's part; the map's part
is what its caller says about leaf words. -/
theorem Mapped.step (h : Mapped A k s₀ root s M T)
    {M' : Nat → Option (Nat × Word)} (hT : ∀ x, T x → T' x)
    (hinv : Inv A.Held s' (Sole root) T') (hf : Framed s s' (Sole root) T)
    (hleaf : ∀ v, v < 2 ^ 47 →
      leaf s'.mem root v = entryOf (M' (v / PAGE_SIZE)))
    (hphys : ∀ n p flags, n < 2 ^ 35 → M' n = some (p, flags) →
      p % PAGE_SIZE = 0 ∧ p < 2 ^ 52)
    (hview : ∀ n, 2 ^ 35 ≤ n → M' n = M n) :
    Mapped A k s₀ root s' M' T' := by
  have hroot : T root :=
    h.inv.held root ⟨root, [], Or.inl rfl, lower_owned.nil, rfl⟩
  refine ⟨hinv, hleaf, hphys, fun i h1 h2 => ?_, fun f hk => ?_, fun n hn => ?_⟩
  · rw [hf.frame root i hroot (h.upper_not_slot h1), h.upper i h1 h2]
  · obtain ⟨hTf, hns, hm⟩ := h.kernel f hk
    refine ⟨hT f hTf, fun j hs => hns j (hf.slot f j hTf hs), ?_⟩
    rw [← hm]
    funext j
    exact hf.frame f j hTf (hns j)
  · rw [hview n hn, h.view n hn]

theorem mapped_create (hk : KernelHeld A s₀ k)
    (hc : (ptableCreate A.alloc s₀ k).2 = some root) :
    ∃ T, Mapped A k s₀ root (ptableCreate A.alloc s₀ k).1
      (kernelView A.alloc s₀ k) T := by
  have h0 : Inv A.Held s₀ (fun _ => False) (A.inUse s₀.pmm) :=
    ⟨Forest.empty, fun f hf => by obtain ⟨_, _, hr, _⟩ := hf; exact hr.elim,
      fun _ hf => hf⟩
  obtain ⟨hfresh, hinv, hold, hempty, hup⟩ := h0.create A.supplies hk.1
    (Prod.ext rfl hc)
  have hnone : ∀ n, n < 2 ^ 35 → kernelView A.alloc s₀ k n = none := by
    intro n hn
    unfold kernelView
    rw [if_pos (Or.inl hn)]
  refine ⟨_, hinv, ?_, ?_, hup, ?_, fun _ _ => rfl⟩
  · intro v hv
    rw [leaf_of_empty hempty hv, hnone _ (page_lower hv)]
    rfl
  · intro n p flags hn hM
    rw [hnone n hn] at hM
    cases hM
  · intro f hf
    have hin := hk.2 f hf
    refine ⟨Or.inr hin, fun j hs => ?_, hold f hin⟩
    -- the new tree has its root only, and that was no kernel table
    obtain ⟨r, q, hr, hq, -, hw⟩ := hs
    rcases hr with rfl | hr
    · cases q with
      | nil => exact hfresh (by rw [Option.some.inj hw]; exact hin)
      | cons i q =>
          rw [walk_cons, hempty i (hq.2 i (by simp))] at hw
          cases hw
    · exact hr

/-- One call keeps the invariant. -/
theorem Mapped.map (h : Mapped A k s₀ root s M T) {virt phys : Nat}
    (flags : Word) (hv : virt < 2 ^ 47) (hp : phys < 2 ^ 52)
    (ha : phys % PAGE_SIZE = 0) :
    ∃ T', Mapped A k s₀ root
      (pagingMapPage A.alloc s (some root) virt phys flags).1
      (if (pagingMapPage A.alloc s (some root) virt phys flags).2 = 0 then
        Function.update M (virt / PAGE_SIZE) (some (phys, flags))
      else M) T' := by
  obtain ⟨T', hT, hinv, hf, hcases⟩ :=
    h.inv.map_page A.supplies (Or.inl rfl) hv (Prod.mk.eta.symm :
      pagingMapPage A.alloc s (some root) virt phys flags = _)
  refine ⟨T', h.step hT hinv hf ?_ ?_ ?_⟩
  · intro v hv'
    obtain ⟨hrc, hleaf⟩ | ⟨hrc, hleaf⟩ := hcases
    · rw [hleaf root v (Or.inl rfl) hv', if_pos hrc, h.lower v hv']
      by_cases hpage : v / PAGE_SIZE = virt / PAGE_SIZE
      · rw [if_pos ⟨rfl, hpage⟩, hpage, Function.update_self]
        rfl
      · rw [if_neg fun e => hpage e.2, Function.update_of_ne hpage]
    · rw [hleaf root v (Or.inl rfl) hv', hrc, if_neg (by decide),
        h.lower v hv']
  · intro n p fl hn hM
    split at hM
    case isTrue =>
      by_cases hpage : n = virt / PAGE_SIZE
      · rw [hpage, Function.update_self] at hM
        obtain ⟨rfl, rfl⟩ := Prod.mk.inj (Option.some.inj hM)
        exact ⟨ha, hp⟩
      · rw [Function.update_of_ne hpage] at hM
        exact h.phys n p fl hn hM
    case isFalse => exact h.phys n p fl hn hM
  · intro n hn
    have := page_lower hv
    split
    case isTrue => rw [Function.update_of_ne (by omega)]
    case isFalse => rfl

theorem Mapped.unmap (h : Mapped A k s₀ root s M T) {virt : Nat}
    (hv : virt < 2 ^ 47) (ha : virt % PAGE_SIZE = 0) :
    Mapped A k s₀ root (pagingUnmapPage A.alloc s (some root) virt)
      (Function.update M (virt / PAGE_SIZE) none) T := by
  obtain ⟨hinv, hf, hleaf⟩ := h.inv.unmap_page (Or.inl rfl) hv ha
    (rfl : pagingUnmapPage A.alloc s (some root) virt = _)
  refine h.step (fun _ hx => hx) hinv hf ?_ ?_ ?_
  · intro v hv'
    rw [hleaf root v (Or.inl rfl) hv', h.lower v hv']
    by_cases hpage : v / PAGE_SIZE = virt / PAGE_SIZE
    · rw [if_pos ⟨rfl, hpage⟩, hpage, Function.update_self]
      rfl
    · rw [if_neg fun e => hpage e.2, Function.update_of_ne hpage]
  · intro n p fl hn hM
    by_cases hpage : n = virt / PAGE_SIZE
    · rw [hpage, Function.update_self] at hM
      cases hM
    · rw [Function.update_of_ne hpage] at hM
      exact h.phys n p fl hn hM
  · intro n hn
    have := page_lower hv
    rw [Function.update_of_ne (by omega)]

theorem mapped_run (hk : KernelHeld A s₀ k) (h : Run A k s₀ root s M) :
    ∃ T, Mapped A k s₀ root s M T := by
  induction h with
  | create hc => exact mapped_create hk hc
  | map virt phys flags _ hv _ _ hp ha ih =>
      obtain ⟨T, ih⟩ := ih
      exact ih.map flags hv hp ha
  | unmap virt _ hv ha ih =>
      obtain ⟨T, ih⟩ := ih
      exact ⟨T, ih.unmap hv ha⟩

-- ==== reading the map

/-- Leaf words depend on the 36 bits of the page number only. -/
theorem leaf_page (mem : Nat → Nat → Word) (root virt : Nat) :
    leaf mem root virt
      = leaf mem root (virt / PAGE_SIZE % 2 ^ 36 * PAGE_SIZE) := by
  have h : tablePath virt = tablePath (virt / PAGE_SIZE % 2 ^ 36 * PAGE_SIZE)
      ∧ ptIndex virt = ptIndex (virt / PAGE_SIZE % 2 ^ 36 * PAGE_SIZE) := by
    rw [tablePath_inj]
    show virt / 4096 % 2 ^ 36 = virt / 4096 % 2 ^ 36 * 4096 / 4096 % 2 ^ 36
    omega
  unfold leaf
  rw [← h.1, ← h.2]

/-- The upper half reads what the kernel's own root read at the start. -/
theorem Mapped.leaf_upper (h : Mapped A k s₀ root s M T) {k' virt : Nat}
    (hk : k = some k') (hv : 256 ≤ pml4Index virt) :
    leaf s.mem root virt = leaf s₀.mem k' virt := by
  have hi : pml4Index virt < 512 := by unfold pml4Index; omega
  have hchild : child s.mem root (pml4Index virt)
      = child s₀.mem k' (pml4Index virt) := by
    refine child_congr ?_
    rw [h.upper _ hv hi, hk]
    rfl
  have hfirst : ∀ (mem : Nat → Nat → Word) r, walk (child mem) r (tablePath virt)
      = (child mem r (pml4Index virt)).bind fun f =>
          walk (child mem) f [pdptIndex virt, pdIndex virt] := fun _ _ => rfl
  unfold leaf
  rw [hfirst, hfirst, hchild]
  cases hc : child s₀.mem k' (pml4Index virt) with
  | none => rfl
  | some f =>
      -- below the copied slot every frame is one of the kernel's tables
      have hktab : ∀ p g, p.length ≤ 2 → walk (child s₀.mem) f p = some g →
          s.mem g = s₀.mem g := by
        intro p g hp hw
        refine (h.kernel g ⟨k', pml4Index virt, p, hk, hv, hi, hp, ?_⟩).2.2
        rw [walk_cons, hc]
        exact hw
      have howned : Owned (fun p : List Nat => p.length ≤ 2) :=
        ⟨by simp, fun p i hp => by simp at hp; omega⟩
      have hwalk : walk (child s.mem) f [pdptIndex virt, pdIndex virt]
          = walk (child s₀.mem) f [pdptIndex virt, pdIndex virt] := by
        refine walk_congr howned (fun q i g hq hw => ?_) (by simp)
        exact child_congr (congrFun (hktab q g (howned.init q i hq) hw) i)
      rw [Option.bind_some, Option.bind_some, hwalk]
      cases hw : walk (child s₀.mem) f [pdptIndex virt, pdIndex virt] with
      | none => rfl
      | some pt =>
          show s.mem pt (ptIndex virt) = s₀.mem pt (ptIndex virt)
          rw [hktab _ pt (by simp) hw]

-- the three readings of the word `paging_map_page` stores

theorem pte_present (phys : Nat) (flags : Word) :
    hasFlag (pte phys flags) PAGE_PRESENT = true := by
  unfold pte
  rw [flagsToPte_eq, hasFlag_or, hasFlag_or]
  simp [hasFlag, pageBit]

theorem pte_addr {phys : Nat} (flags : Word) (ha : phys % PAGE_SIZE = 0)
    (hb : phys < 2 ^ 52) :
    (pte phys flags &&& PAGE_ADDR_MASK).toNat = phys := by
  unfold pte
  rw [flagsToPte_eq, and_or_distrib, and_or_distrib, BitVec.and_assoc,
    BitVec.and_assoc, BitVec.and_self,
    show PAGE_PRESENT &&& PAGE_ADDR_MASK = 0 by decide,
    show PTE_FLAGS &&& PAGE_ADDR_MASK = 0 by decide,
    ofNat_and_addrMask ha hb]
  simp only [BitVec.ofNat_eq_ofNat, BitVec.and_zero, BitVec.or_zero,
    BitVec.toNat_ofNat]
  exact Nat.mod_eq_of_lt (by omega)

/-- A flag that is kept is the one that was asked for. -/
theorem pte_flag (phys : Nat) (flags : Word) {i : Nat} (hi : i < 12)
    (hkeep : PTE_FLAGS.getLsbD i = true) (hpresent : PAGE_PRESENT.getLsbD i = false) :
    hasFlag (pte phys flags) (pageBit i) = hasFlag flags (pageBit i) := by
  have hlt : i < 64 := by omega
  unfold pte
  rw [flagsToPte_eq, hasFlag_pageBit _ hlt, hasFlag_pageBit _ hlt, BitVec.getLsbD_or,
    BitVec.getLsbD_or, BitVec.getLsbD_and, BitVec.getLsbD_and, getLsbD_addrMask, hkeep, hpresent,
    decide_eq_false (Nat.not_le_of_lt hi), Bool.false_and, Bool.and_false, Bool.false_or,
    Bool.false_or, Bool.and_true]

theorem pte_write (phys : Nat) (flags : Word) :
    hasFlag (pte phys flags) PAGE_WRITE = hasFlag flags PAGE_WRITE :=
  pte_flag phys flags (i := 1) (by decide) (by decide) (by decide)

theorem pte_flags (phys : Nat) (flags : Word) :
    pte phys flags &&& (PAGE_PRESENT ||| PTE_FLAGS)
      = PAGE_PRESENT ||| (flags &&& PTE_FLAGS) := by
  unfold pte
  rw [flagsToPte_eq, and_or_distrib, and_or_distrib, BitVec.and_assoc,
    BitVec.and_assoc,
    show PAGE_ADDR_MASK &&& (PAGE_PRESENT ||| PTE_FLAGS) = 0 by decide,
    show PAGE_PRESENT &&& (PAGE_PRESENT ||| PTE_FLAGS) = PAGE_PRESENT by decide,
    show PTE_FLAGS &&& (PAGE_PRESENT ||| PTE_FLAGS) = PTE_FLAGS by decide]
  simp

/-- Flags read from a present word are their own request. -/
theorem present_flags {w : Word} (h : hasFlag w PAGE_PRESENT = true) :
    w &&& (PAGE_PRESENT ||| PTE_FLAGS)
      = PAGE_PRESENT ||| (w &&& (PAGE_PRESENT ||| PTE_FLAGS) &&& PTE_FLAGS) := by
  rw [hasFlag_pageBit _ (by decide)] at h
  have hbit : w &&& PAGE_PRESENT = PAGE_PRESENT := by
    apply BitVec.eq_of_getLsbD_eq
    intro i _
    rw [BitVec.getLsbD_and, getLsbD_pageBit]
    by_cases hi : 0 = i
    · subst hi
      simp [h]
    · simp [hi]
  rw [BitVec.and_assoc,
    show (PAGE_PRESENT ||| PTE_FLAGS) &&& PTE_FLAGS = PTE_FLAGS by decide,
    BitVec.and_comm, and_or_distrib, BitVec.and_comm _ w, hbit,
    BitVec.and_comm _ w]

theorem present_flags_ne {w : Word} (h : hasFlag w PAGE_PRESENT = true) :
    w &&& (PAGE_PRESENT ||| PTE_FLAGS) ≠ 0 := by
  intro h0
  rw [present_flags h] at h0
  have := congrArg (fun x => BitVec.getLsbD x 0) h0
  simp only [BitVec.getLsbD_or, getLsbD_pageBit] at this
  simp at this

/-- The invariant in the words of the two lookups. -/
theorem Mapped.refines (h : Mapped A k s₀ root s M T) :
    Refines A.alloc s root M := by
  intro virt _
  rw [pagingVirtToPhys_eq, pagingGetFlags_eq, leaf_page]
  have hn : virt / PAGE_SIZE % 2 ^ 36 < 2 ^ 36 := Nat.mod_lt _ (by decide)
  generalize virt / PAGE_SIZE % 2 ^ 36 = n at hn ⊢
  have hback : n * PAGE_SIZE / PAGE_SIZE = n :=
    Nat.mul_div_cancel n (by decide)
  by_cases hlow : n < 2 ^ 35
  -- the lower half: the leaf word is the entry of `M`
  · have hv : n * PAGE_SIZE < 2 ^ 47 := by
      show n * 4096 < 2 ^ 47
      omega
    have hl := h.lower _ hv
    rw [hback] at hl
    rw [hl]
    cases hM : M n with
    | none => exact ⟨rfl, rfl⟩
    | some pf =>
        obtain ⟨phys, flags⟩ := pf
        obtain ⟨ha, hb⟩ := h.phys n phys flags hlow hM
        simp only [entryOf, pte_present, if_true]
        rw [pte_addr flags ha hb, pte_flags]
        exact ⟨rfl, rfl⟩
  -- the upper half: the leaf word is the kernel's
  · have hi : 256 ≤ pml4Index (n * PAGE_SIZE) := by
      show 256 ≤ n * 4096 / 2 ^ 39 % 512
      omega
    rw [h.view n (by omega)]
    unfold kernelView
    cases hk : k with
    | none =>
        have hl : leaf s.mem root (n * PAGE_SIZE) = 0 := by
          have hz := h.upper _ hi (by unfold pml4Index; omega)
          rw [hk] at hz
          have hc : child s.mem root (pml4Index (n * PAGE_SIZE)) = none := child_zero hz
          unfold leaf tablePath
          rw [walk_cons, hc]
          rfl
        rw [hl]
        simp [pagingGetFlags, hasFlag]
    | some k' =>
        rw [h.leaf_upper hk hi]
        simp only [hlow, false_or, pagingVirtToPhys_eq, pagingGetFlags_eq]
        cases hw : hasFlag (leaf s₀.mem k' (n * PAGE_SIZE)) PAGE_PRESENT with
        | false => simp
        | true =>
            simp only [if_true, if_neg (present_flags_ne hw)]
            refine ⟨?_, present_flags hw⟩
            rw [Nat.mul_mod_left, Nat.add_zero]

-- ==== the allocator of the kernel

/-- `pmm_alloc_page` on the states its runs reach. In use is what the
memory map does not call usable and what is handed out. -/
def pmmFrames (maxPfn : Nat) (usable : Nat → Bool) (hmax : maxPfn < 2 ^ 40) :
    FrameAlloc { x : Pmm × List Dyadic.Block //
      Pmm.Reachable maxPfn usable x.1 x.2 } where
  alloc := fun x =>
    match ha : x.val.1.pmmAllocPage with
    | none => none
    | some (s, page) =>
        some (⟨(s, ⟨page, 0⟩ :: x.val.2), .alloc x.property ha⟩, page)
  inUse := fun x f =>
    ¬ Pmm.Usable maxPfn usable f ∨ ∃ b ∈ x.val.2, f ∈ b
  fresh := by
    intro x x' f h hin
    split at h
    case h_1 => cases h
    case h_2 s page ha =>
      obtain ⟨-, rfl⟩ := Prod.mk.inj (Option.some.inj h)
      obtain ⟨L, hinv⟩ := Pmm.reachable_runInv (.alloc x.property ha)
      rcases hin with hno | ⟨b, hb, hpb⟩
      · exact hno ((hinv.buddy.cover page).mp
          (Or.inr ⟨⟨page, 0⟩, List.mem_cons_self, Dyadic.Block.base_mem _⟩))
      · exact ((List.pairwise_cons.mp hinv.buddy.apartOut).1 b hb).not_mem
          (Dyadic.Block.base_mem ⟨page, 0⟩) hpb
  taken := by
    intro x x' f g h hg
    split at h
    case h_1 => cases h
    case h_2 s page ha =>
      obtain ⟨rfl, rfl⟩ := Prod.mk.inj (Option.some.inj h)
      rcases hg with rfl | hno | ⟨b, hb, hpb⟩
      · exact Or.inr ⟨⟨g, 0⟩, List.mem_cons_self, Dyadic.Block.base_mem _⟩
      · exact Or.inl hno
      · exact Or.inr ⟨b, List.mem_cons_of_mem _ hb, hpb⟩
  bound := by
    intro x x' f h
    split at h
    case h_1 => cases h
    case h_2 s page ha =>
      obtain ⟨-, rfl⟩ := Prod.mk.inj (Option.some.inj h)
      obtain ⟨L, hinv⟩ := Pmm.reachable_runInv (.alloc x.property ha)
      have hU := (hinv.buddy.cover page).mp
        (Or.inr ⟨⟨page, 0⟩, List.mem_cons_self, Dyadic.Block.base_mem _⟩)
      have := hU.1
      omega

/-- The state `pmm_init` leaves. -/
def pmmBoot (maxPfn : Nat) (usable : Nat → Bool) :
    { x : Pmm × List Dyadic.Block // Pmm.Reachable maxPfn usable x.1 x.2 } :=
  ⟨(Pmm.pmmInit maxPfn (Pmm.pfndb maxPfn usable), []), .init⟩

/-- After every run the tables are the map its calls describe. -/
theorem refines_run (A : FrameAlloc σ) (k : Option Nat) (s₀ : Machine σ)
    (hk : KernelHeld A s₀ k) (root : Nat) (s : Machine σ)
    (M : Nat → Option (Nat × Word)) (h : Run A k s₀ root s M) :
    Refines A.alloc s root M := by
  obtain ⟨T, hmap⟩ := mapped_run hk h
  exact hmap.refines

/-- The machine of `refines_run_page`: eight frames, of which 0 and 1 are
not usable, and an empty kernel root in frame 1. -/
def smallMachine : Machine { x : Pmm × List Dyadic.Block //
    Pmm.Reachable 8 (fun q => 2 ≤ q) x.1 x.2 } :=
  ⟨pmmBoot 8 fun q => 2 ≤ q, fun _ _ => 0⟩

/-- Mapping the second page of a new space to 0x5000. -/
theorem refines_run_page :
    let A := pmmFrames 8 (fun q => 2 ≤ q) (by decide)
    let s := (ptableCreate A.alloc smallMachine (some 1)).1
    (ptableCreate A.alloc smallMachine (some 1)).2 = some 8
      ∧ pagingVirtToPhys A.alloc
        (pagingMapPage A.alloc s (some 8) 0x1000 0x5000 PAGE_WRITE).1
        (some 8) 0x1234 = 0x5234 := by
  intro A s
  have hroot : (ptableCreate A.alloc smallMachine (some 1)).2 = some 8 := by
    decide +kernel
  have hrc : (pagingMapPage A.alloc s (some 8) 0x1000 0x5000 PAGE_WRITE).2
      = 0 := by decide +kernel
  have hk : KernelHeld A smallMachine (some 1) := by
    refine ⟨fun k' hk => Or.inl ?_, fun f hf => ?_⟩
    · cases hk
      simp [Pmm.Usable]
    · obtain ⟨k', i, p, -, -, -, -, hw⟩ := hf
      rw [walk_cons] at hw
      simp [child, smallMachine, hasFlag] at hw
  clear_value A
  have hrun := Run.map 0x1000 0x5000 PAGE_WRITE (Run.create hroot)
    (by decide) (by decide) (by decide) (by decide) (by decide)
  have href := refines_run A _ _ hk _ _ _ hrun 0x1234 (by decide)
  rw [if_pos hrc] at href
  exact ⟨hroot, href.1⟩

end Alix.Paging
