/-
The address spaces over whole runs.

# What can go wrong

Eight calls move references between the lists of descriptors, the tables
and the page descriptors, and most of them can stop half-way.
`vas_protect` gives a page new flags without a look at how many pages map
its frame, and `vas_clone` asks the descriptor, not the entry, whether a
page is writable.

# What holds

The accounts are right in every state of every run (`reachable_counted`):
a frame has one reference for each entry that maps it, and a space maps
the pages of its descriptors and no others. Copy-on-write holds in the
runs in which `vas_protect` makes no shared frame writable and `vas_clone`
finds no page writable that its descriptor calls read-only
(`reachable_cow`), and each of the two conditions is needed.

The count of a frame is an `int`, and a number here. So that the two are
the same, no `vas_clone` of a run brings a frame to `2^31` entries (`Few`),
and then no frame has so many (`Ready.entries_fit`). With less than 4 TiB of
memory there is no other run (`Ready.few`).

The runs start after a boot (`Booted`): the kernel has taken blocks, the
heap has worked, and memory holds anything.
-/
import Alix.Mm.Proofs.Spaces

namespace Alix.Vm

open Paging
open Radix
open Pointers
open Dyadic (Block)
open Pmm (pmmInit pfndb FreeBlock Usable Allocated)

-- ==== the boot

/-- What runs before the first address space: the kernel takes blocks and
gives some back, the heap works, memory is written, and the kernel chooses
its root. `blocks` are the kernel's. -/
inductive Booted (maxPfn : Nat) (usable : Nat → Bool) : List Block → Vm → Prop
  | init (mem : Nat → Nat → Word) :
      Booted maxPfn usable []
        ⟨⟨pmmInit maxPfn (pfndb maxPfn usable), mem⟩, [], [], none, fun _ => none, 0⟩
  | alloc {s : Vm} {blocks : List Block} {order page : Nat} {pmm : Pmm} :
      Booted maxPfn usable blocks s → s.mach.pmm.pmmAlloc order = some (pmm, page) →
      Booted maxPfn usable (⟨page, order⟩ :: blocks) { s with mach := { s.mach with pmm } }
  | free {s : Vm} {blocks : List Block} {b : Block} {mach : Mach} :
      Booted maxPfn usable blocks s → b ∈ blocks → s.mach.free b.base = .ok mach →
      Booted maxPfn usable (blocks.erase b) { s with mach }
  | heap {s s' : Vm} {blocks : List Block} :
      Booted maxPfn usable blocks s → HeapRun s s' → Booted maxPfn usable blocks s'
  | write {s : Vm} {blocks : List Block} (mem : Nat → Nat → Word) :
      Booted maxPfn usable blocks s →
      Booted maxPfn usable blocks { s with mach := { s.mach with mem } }
  | root {s : Vm} {blocks : List Block} (kernelPml4 : Option Nat) :
      Booted maxPfn usable blocks s → Booted maxPfn usable blocks { s with kernelPml4 }

/-- The paths through the upper half of a root. -/
def Upper (p : List Nat) : Prop :=
  p.length ≤ 3 ∧ (∀ i ∈ p.head?, 256 ≤ i) ∧ ∀ i ∈ p, i < 512

/-- A table of the upper half of the root `r`. -/
def KernelHalf (s : Vm) (r g : Nat) : Prop :=
  ∃ p, p ≠ [] ∧ Upper p ∧ walk (child s.mach.mem) r p = some g

/-- After the boot the kernel's root and its tables are in blocks of the
kernel. -/
structure Ready (maxPfn : Nat) (usable : Nat → Bool) (blocks : List Block) (s : Vm) :
    Prop where
  booted : Booted maxPfn usable blocks s
  tables : ∀ k, s.kernelPml4 = some k →
    Allocated blocks k ∧ ∀ g, s.KernelHalf k g → Allocated blocks g

/-- The calls on spaces with tables of their own, with ranges that do not
wrap when they are rounded to pages. -/
def UserCall (s : Vm) : Call → Prop
  | .create pt => pt = none
  | .mapPhys .. => False
  | .add .. => False
  | k => NoWrap s k

-- ==== the statements

/-- The leaf word that a space has for a page. -/
def leafPte (s : Vm) (a n : Nat) : Word :=
  match s.spaces a with
  | none => 0
  | some v => leaf s.mach.mem v.pml4 (n * PAGE_SIZE)

/-- The present leaf entries of the lower halves that map a frame: the
space and the page. -/
def leafPtes (s : Vm) (f : Nat) : Set (Nat × Nat) :=
  {x | x.2 < 2 ^ 35 ∧ hasFlag (s.leafPte x.1 x.2) PAGE_PRESENT = true
    ∧ (s.leafPte x.1 x.2 &&& PAGE_ADDR_MASK).toNat = pfnPhys f}

/-- The frame is in a block of the free lists. -/
def Free (s : Vm) (f : Nat) : Prop := ∃ b, FreeBlock s.mach.pmm b ∧ f ∈ b

/-- The frame is the kernel's, the heap's, or a lower-half table. -/
def Taken (s : Vm) (blocks : List Block) (f : Nat) : Prop :=
  Allocated blocks f ∨ Allocated s.heap f ∨ Table s.mach s.Roots f

/-- The accounts are right. -/
structure Counted (maxPfn : Nat) (usable : Nat → Bool) (blocks : List Block) (s : Vm) :
    Prop where
  /-- a frame that is not taken is free and mapped nowhere, or out with one
  reference for each entry -/
  count : ∀ f, Usable maxPfn usable f → ¬ s.Taken blocks f →
    (s.Free f ∧ s.leafPtes f = ∅)
    ∨ (¬ s.Free f ∧ 0 < (s.leafPtes f).ncard
      ∧ (s.mach.pmm.pages f).refcount = (s.leafPtes f).ncard)
  /-- no other frame is mapped -/
  mapped : ∀ f, (s.leafPtes f).Nonempty → Usable maxPfn usable f ∧ ¬ s.Taken blocks f
  /-- every page of a descriptor has one entry -/
  filled : ∀ a v, s.spaces a = some v → ∀ x ∈ v.list, ∀ n, x.start ≤ n * PAGE_SIZE →
    n * PAGE_SIZE < x.stop → ∃! f, (a, n) ∈ s.leafPtes f
  /-- every entry is in a descriptor -/
  covered : ∀ f a n, (a, n) ∈ s.leafPtes f →
    ∃ v, s.spaces a = some v ∧ Covers v.list (n * PAGE_SIZE)

/-- A frame that two entries map is writable through neither. -/
def Cow (s : Vm) : Prop :=
  ∀ f x y, x ∈ s.leafPtes f → y ∈ s.leafPtes f → x ≠ y →
    hasFlag (s.leafPte x.1 x.2) PAGE_WRITE = false

/-- Memory is mapped without `VAD_SHARED`. -/
def Unshared : Call → Prop
  | .mapAnon _ _ _ flags => hasFlag flags VAD_SHARED = false
  | _ => True

/-- A `vas_protect` makes no frame writable that two entries map, and a
`vas_clone` finds no page writable whose descriptor is not. -/
def CowCall (s : Vm) : Call → Prop
  | .protect a start length newFlags => hasFlag newFlags PAGE_WRITE = true →
      ∀ f n, (a, n) ∈ s.leafPtes f → pageAlignDown start ≤ n * PAGE_SIZE →
        n * PAGE_SIZE < (pageAlignDown start + pageAlignUp length) % 2 ^ 64 →
        (s.leafPtes f).ncard ≤ 1
  | .clone a => ∀ v, s.spaces a = some v → ∀ x ∈ v.list,
      hasFlag x.flags PAGE_WRITE = false → ∀ n, x.start ≤ n * PAGE_SIZE →
        n * PAGE_SIZE < x.stop → hasFlag (s.leafPte a n) PAGE_WRITE = false
  | _ => True

/-- A `vas_clone` leaves every frame with fewer than `2^31` entries, so that
its count fits. -/
def Few (s : Vm) : Call → Prop
  | .clone a => ∀ f, (s.leafPtes f).ncard + {x ∈ s.leafPtes f | x.1 = a}.ncard < 2 ^ 31
  | _ => True

variable {maxPfn : Nat} {usable : Nat → Bool} {blocks : List Block} {fx : Outside}
  {Q : Word → Prop} {s s₀ s' : Vm} {V V' : View} {a f : Nat} {v : Vas}

-- ==== after the boot

theorem Booted.holds (h : Booted maxPfn usable blocks s) :
    (∃ ref, Holds maxPfn usable s blocks ref ∧ ∀ b ∈ blocks, ref b.base = 1)
      ∧ (∀ a, s.spaces a = none) := by
  induction h with
  | init mem =>
      obtain ⟨L, hrun⟩ := @Pmm.runInv_init maxPfn usable
      exact ⟨⟨fun _ => 1, ⟨hrun.ledger, fun b hb => (by cases hb)⟩, fun b hb => (by cases hb)⟩,
        fun _ => rfl⟩
  | @alloc s blocks order page pmm _ ha ih =>
      obtain ⟨⟨ref, hh, hone⟩, hsp⟩ := ih
      obtain ⟨hl, hnew, -⟩ := hh.ledger.alloc ha
      have hne : ∀ b ∈ s.heap ++ blocks, b.base ≠ page := fun b hb e =>
        hnew page (Block.base_mem ⟨page, order⟩) b hb (by rw [← e]; exact Block.base_mem b)
      refine ⟨⟨_, ⟨hl.perm List.perm_middle.symm, fun b hb => ?_⟩, fun b hb => ?_⟩, hsp⟩
      · rw [Function.update_of_ne (hne b (List.mem_append_left _ hb))]
        exact hh.single b hb
      · rcases List.mem_cons.mp hb with rfl | hb
        · exact Function.update_self _ _ _
        · rw [Function.update_of_ne (hne b (List.mem_append_right _ hb))]
          exact hone b hb
  | @free s blocks b mach _ hb hf ih =>
      obtain ⟨⟨ref, hh, hone⟩, hsp⟩ := ih
      have hout : b ∈ s.heap ++ blocks := List.mem_append_right _ hb
      have hnd := List.nodup_append.mp hh.ledger.nodup
      have hheap : b ∉ s.heap := fun hc => hnd.2.2 b hc b hb rfl
      obtain ⟨pmm, hok, hl, -⟩ := hh.ledger.drop hout
      rw [if_pos (hone b hb), List.erase_append_right _ hheap] at hl
      have hmach : mach = { s.mach with pmm } := by
        unfold Machine.free at hf
        rw [hok] at hf
        cases hf
        rfl
      have hne : ∀ c ∈ s.heap ++ blocks, c ≠ b → c.base ≠ b.base := fun c hc hcb e =>
        hcb (hh.ledger.head_inj hc hout e)
      subst hmach
      refine ⟨⟨_, ⟨hl, fun c hc => ?_⟩, fun c hc => ?_⟩, hsp⟩
      · have hcb : c ≠ b := by
          rintro rfl
          exact hheap hc
        rw [Function.update_of_ne (hne c (List.mem_append_left _ hc) hcb)]
        exact hh.single c hc
      · have hcb : c ≠ b := by
          rintro rfl
          exact hnd.2.1.not_mem_erase hc
        have hc' := List.mem_of_mem_erase hc
        rw [Function.update_of_ne (hne c (List.mem_append_right _ hc') hcb)]
        exact hone c hc'
  | heap _ hr ih =>
      obtain ⟨⟨ref, hh, hone⟩, hsp⟩ := ih
      obtain ⟨-, ref', hh', hspare⟩ := hr.ledger hh
      refine ⟨⟨ref', hh', fun b hb => (hspare.ref b hb).trans (hone b hb)⟩, fun a => ?_⟩
      rw [hr.spaces.1]
      exact hsp a
  | write mem _ ih =>
      obtain ⟨⟨ref, hh, hone⟩, hsp⟩ := ih
      exact ⟨⟨ref, ⟨hh.ledger, hh.single⟩, hone⟩, hsp⟩
  | root kernelPml4 _ ih =>
      obtain ⟨⟨ref, hh, hone⟩, hsp⟩ := ih
      exact ⟨⟨ref, ⟨hh.ledger, hh.single⟩, hone⟩, hsp⟩

/-- What the boot leaves outside the accounts. -/
def outside (s : Vm) (blocks : List Block) : Outside where
  blocks
  mem := s.mach.mem
  pages := s.mach.pmm.pages
  upper := fun i => match s.kernelPml4 with
    | none => 0
    | some k => s.mach.mem k i

theorem kernel_outside (hk : ∀ k, s.kernelPml4 = some k → Allocated blocks k) :
    Outside.Kernel (s.outside blocks) s.kernelPml4 := by
  unfold outside
  generalize s.kernelPml4 = kernel at hk ⊢
  cases kernel with
  | none => exact ⟨hk, fun i => rfl⟩
  | some k => exact ⟨hk, fun i => rfl⟩

/-- After the boot nothing is mapped. -/
theorem Ready.spaces (h : Ready maxPfn usable blocks s) :
    Spaces maxPfn usable (s.outside blocks) Q s fun _ => none := by
  obtain ⟨⟨ref, hh, -⟩, hsp⟩ := h.booted.holds
  have hroot : ∀ r, ¬ s.Roots r := by
    intro r hr
    obtain ⟨a, v, hv, -⟩ := hr
    rw [hsp a] at hv
    cases hv
  have htab : ∀ f, ¬ Table s.mach s.Roots f := by
    intro f hf
    obtain ⟨r, p, hr, -⟩ := hf
    exact hroot r hr
  have hnone : ∀ a v, s.spaces a ≠ some v := by
    intro a v hv
    rw [hsp a] at hv
    cases hv
  have hframes : View.frames (fun _ => none) = fun _ => none := rfl
  have hzero : ∀ f, Books.uses ⟨[], ref, fun _ => none, fun _ => 0⟩ f = 0 := by
    intro f
    unfold Books.uses
    rw [hframes, Nat.add_zero]
    exact (refs_eq_zero sparse_none).mpr fun _ e => (by cases e)
  refine ⟨⟨⟨[], ref, fun _ => none, fun _ => 0⟩, {
    ledger := by rw [List.append_nil]; exact hh.ledger
    single := hh.single
    forest := ⟨fun hr => (hroot _ hr).elim⟩
    wide := fun f hf => (htab f hf).elim
    leaf := fun r v hr => (hroot r hr).elim
    dom := fun x hx => (hx rfl).elim
    sparse := sparse_none
    own := fun b => ?_
    apart := fun f hf => (htab f hf).elim
    table := fun f hf => (htab f hf).elim
    data := fun f hf => ?_
    words := fun q _ => rfl
    pages := fun q _ => rfl
    upper := fun r hr => (hroot r hr).elim }, rfl, fun _ => rfl⟩,
    kernel_outside fun k hk => (h.tables k hk).1, fun a b v w hv => (hnone a v hv).elim,
    fun a v hv => (hnone a v hv).elim, fun a v hv => (hnone a v hv).elim,
    fun a v n hv => (hnone a v hv).elim, fun a _ => hsp a⟩
  · rw [hzero]
    constructor
    · intro hb
      cases hb
    · intro hb
      exact (hb.2.elim (htab _) (by omega)).elim
  · rw [hzero] at hf
    omega

-- ==== the entries

theorem Spaces.dom (h : Spaces maxPfn usable fx Q s V) {x : Spot} (hx : V x ≠ none) :
    s.Roots x.1 ∧ x.2 < 2 ^ 35 := by
  obtain ⟨k, hk, rfl, -⟩ := h.settled
  exact hk.dom x hx

/-- The leaf words are those of the view. -/
theorem Spaces.leafPte (h : Spaces maxPfn usable fx Q s V) (hv : s.spaces a = some v)
    {n : Nat} (hn : n < 2 ^ 35) : s.leafPte a n = leafWord (V (v.pml4, n)) := by
  obtain ⟨k, hk, rfl, -⟩ := h.settled
  have hs : PAGE_SIZE = 4096 := rfl
  have hpage : n * PAGE_SIZE / PAGE_SIZE = n := Nat.mul_div_cancel n (by decide)
  unfold Vm.leafPte
  rw [hv]
  show leaf s.mach.mem v.pml4 (n * PAGE_SIZE) = _
  rw [hk.leaf v.pml4 (n * PAGE_SIZE) (root hv) (by rw [hs]; omega), hpage]

/-- An entry of the view, as a leaf word. -/
theorem Spaces.entry (hmax : maxPfn < 2 ^ 40) (h : Spaces maxPfn usable fx Q s V)
    (hv : s.spaces a = some v) {n : Nat} {fl : Word} (hx : V (v.pml4, n) = some (f, fl)) :
    (a, n) ∈ s.leafPtes f
      ∧ hasFlag (s.leafPte a n) PAGE_WRITE = hasFlag fl PAGE_WRITE := by
  have hn := (h.dom (x := (v.pml4, n)) (by rw [hx]; exact Option.some_ne_none _)).2
  have hf : f < 2 ^ 40 := by
    obtain ⟨k, hk, rfl, -⟩ := h.settled
    have := (hk.managed hx).1
    omega
  have hphys : pfnPhys f = f * 4096 := rfl
  have hword : s.leafPte a n = pte (pfnPhys f) fl := by
    rw [h.leafPte hv hn, hx]
    rfl
  refine ⟨⟨hn, ?_, ?_⟩, ?_⟩
  · show hasFlag (s.leafPte a n) PAGE_PRESENT = true
    rw [hword]
    exact pte_present _ _
  · show (s.leafPte a n &&& PAGE_ADDR_MASK).toNat = pfnPhys f
    rw [hword]
    exact pte_addr fl (pfnPhys_mod f) (by omega)
  · rw [hword]
    exact pte_write _ _

theorem Spaces.mem_leafPtes (hmax : maxPfn < 2 ^ 40) (h : Spaces maxPfn usable fx Q s V)
    {n : Nat} : (a, n) ∈ s.leafPtes f
      ↔ ∃ v fl, s.spaces a = some v ∧ V (v.pml4, n) = some (f, fl) := by
  constructor
  · intro hx
    obtain ⟨hn, hp, haddr⟩ := hx
    cases hv : s.spaces a with
    | none =>
        have hzero : s.leafPte a n = 0 := by
          unfold Vm.leafPte
          rw [hv]
        rw [hzero] at hp
        cases hp
    | some v =>
        refine ⟨v, ?_⟩
        cases hx : V (v.pml4, n) with
        | none =>
            rw [h.leafPte hv hn, hx] at hp
            cases hp
        | some e =>
            obtain ⟨g, fl⟩ := e
            have haddr' := (h.entry hmax hv hx).1.2.2
            rw [haddr] at haddr'
            have hp : pfnPhys f = f * 4096 := rfl
            have hp' : pfnPhys g = g * 4096 := rfl
            have hfg : g = f := by omega
            rw [hfg]
            exact ⟨fl, rfl, rfl⟩
  · intro hx
    obtain ⟨v, fl, hv, hx⟩ := hx
    exact (h.entry hmax hv hx).1

/-- As many entries as the view has. -/
theorem Spaces.ncard_leafPtes (hmax : maxPfn < 2 ^ 40) (h : Spaces maxPfn usable fx Q s V)
    (f : Nat) : (s.leafPtes f).ncard = refs V.frames f := by
  refine Set.ncard_congr (fun x _ => (match s.spaces x.1 with
    | none => 0
    | some v => v.pml4, x.2)) (fun x hx => ?_) (fun x y hx hy e => ?_) fun y hy => ?_
  · obtain ⟨v, fl, hv, hx⟩ := (h.mem_leafPtes hmax).mp hx
    show V.frames (_, x.2) = some f
    rw [hv]
    exact View.frames_some hx
  · obtain ⟨v, -, hv, -⟩ := (h.mem_leafPtes hmax).mp hx
    obtain ⟨w, -, hw, -⟩ := (h.mem_leafPtes hmax).mp hy
    rw [hv, hw] at e
    obtain ⟨e1, e2⟩ := Prod.mk.inj e
    exact Prod.ext (h.inj _ _ v w hv hw e1) e2
  · obtain ⟨e, he, hf⟩ := Option.map_eq_some_iff.mp (show (V y).map Prod.fst = some f from hy)
    obtain ⟨a, v, hv, hr⟩ := (h.dom (x := y) (by rw [he]; exact Option.some_ne_none _)).1
    have hx : V (v.pml4, y.2) = some (f, e.2) := by
      rw [hr, ← hf]
      exact he
    refine ⟨(a, y.2), (h.entry hmax hv hx).1, ?_⟩
    simp only [hv]
    exact Prod.ext hr rfl

/-- And a space as many as its root. -/
theorem Spaces.ncard_own (hmax : maxPfn < 2 ^ 40) (h : Spaces maxPfn usable fx Q s V)
    (hv : s.spaces a = some v) (f : Nat) :
    {x ∈ s.leafPtes f | x.1 = a}.ncard = {n | V.frames (v.pml4, n) = some f}.ncard := by
  refine Set.ncard_congr (fun x _ => x.2) (fun x hx => ?_) (fun x y hx hy e => ?_) fun n hn => ?_
  · obtain ⟨b, n⟩ := x
    obtain ⟨hx, rfl⟩ := hx
    obtain ⟨u, fl, hu, hx⟩ := (h.mem_leafPtes hmax).mp hx
    rw [hv] at hu
    cases hu
    exact View.frames_some hx
  · exact Prod.ext (hx.2.trans hy.2.symm) e
  · obtain ⟨e, he, hf⟩ := Option.map_eq_some_iff.mp
      (show (V (v.pml4, n)).map Prod.fst = some f from hn)
    have hx : V (v.pml4, n) = some (f, e.2) := by rw [he, ← hf]
    exact ⟨(a, n), ⟨(h.entry hmax hv hx).1, rfl⟩, rfl⟩

/-- The accounts of a state that belongs to a view. -/
theorem Spaces.counted (hmax : maxPfn < 2 ^ 40) (h : Spaces maxPfn usable fx Q s V)
    (hfill : ∀ b, Filled s V b) : Counted maxPfn usable fx.blocks s := by
  have hentry := fun {a n f} => h.mem_leafPtes hmax (a := a) (n := n) (f := f)
  have hpos : ∀ f, 0 < refs V.frames f ↔ ∃ x fl, V x = some (f, fl) := by
    intro f
    rw [refs_pos h.settled.sparse]
    constructor
    · intro hx
      obtain ⟨x, hx⟩ := hx
      obtain ⟨e, he, hef⟩ := Option.map_eq_some_iff.mp hx
      exact ⟨x, e.2, by rw [he, ← hef]⟩
    · intro hx
      obtain ⟨x, fl, hx⟩ := hx
      exact ⟨x, View.frames_some hx⟩
  obtain ⟨k, hk, hview, hextra⟩ := h.settled
  have huses : ∀ f, k.uses f = refs V.frames f := by
    intro f
    unfold Books.uses
    rw [hview, hextra, Nat.add_zero]
  refine ⟨fun f hu ht => ?_, fun f hf => ?_, fun a v hv x hx n h1 h2 => ?_,
    fun f a n hx => ?_⟩
  · have hfree := hk.ledger.free_iff f
    by_cases hz : refs V.frames f = 0
    · refine Or.inl ⟨hfree.mpr ⟨hu, fun hc => ?_⟩, ?_⟩
      · obtain ⟨b, hb, hfb⟩ := hc
        rcases List.mem_append.mp hb with hb | hb
        · exact ht (Or.inr (Or.inl ⟨b, hb, hfb⟩))
        rcases List.mem_append.mp hb with hb | hb
        · exact ht (Or.inl ⟨b, hb, hfb⟩)
        · obtain ⟨ho, hb⟩ := (hk.own b).mp hb
          have hfb' : f = b.base := by
            rw [Block.mem_def, ho] at hfb
            omega
          rw [← hfb', huses] at hb
          exact ht (Or.inr (Or.inr (hb.resolve_right (by omega))))
      · refine Set.eq_empty_of_forall_notMem fun x hx => ?_
        obtain ⟨v, fl, -, hx⟩ := hentry.mp hx
        exact (refs_eq_zero h.settled.sparse).mp hz _ (View.frames_some hx)
    · obtain ⟨x, fl, hx⟩ := (hpos f).mp (Nat.pos_of_ne_zero hz)
      have hown := hk.used_own (by rw [huses]; exact Nat.pos_of_ne_zero hz)
      refine Or.inr ⟨fun hc => (hfree.mp hc).2 ⟨⟨f, 0⟩,
        List.mem_append_right _ (List.mem_append_right _ hown), Block.base_mem ⟨f, 0⟩⟩, ?_, ?_⟩
      · rw [h.ncard_leafPtes hmax]
        exact Nat.pos_of_ne_zero hz
      · rw [h.ncard_leafPtes hmax]
        exact (h.settled.refcount hx).1
  · obtain ⟨x, hx⟩ := hf
    obtain ⟨v, fl, -, hx⟩ := hentry.mp hx
    have hused : 0 < k.uses f := by
      rw [huses]
      exact (hpos f).mpr ⟨_, fl, hx⟩
    have hown := hk.used_own hused
    refine ⟨hk.mem_usable hown, fun ht => ?_⟩
    rcases ht with ht | ⟨b, hb, hfb⟩ | ht
    · exact hk.own_outside hown ht
    · exact hk.own_alone hown (Or.inl hb) hfb
    · rw [hk.apart f ht] at hused
      omega
  · obtain ⟨e, he⟩ := Option.ne_none_iff_exists'.mp (hfill a v n hv ⟨x, hx, h1, h2⟩)
    refine ⟨e.1, hentry.mpr ⟨v, e.2, hv, he⟩, fun g hg => ?_⟩
    obtain ⟨w, fl, hw, hg⟩ := hentry.mp hg
    rw [hv] at hw
    cases hw
    rw [he] at hg
    cases hg
    rfl
  · obtain ⟨v, fl, hv, hx⟩ := hentry.mp hx
    refine ⟨v, hv, h.sound a v n hv ?_⟩
    rw [hx]
    exact Option.some_ne_none _

-- ==== the runs

/-- The flags of new descriptors are as `Q` says. -/
def Maps (Q : Word → Prop) : Call → Prop
  | .mapAnon _ _ _ flags => Q (flags ||| VAD_ANONYMOUS ||| VAD_MAPPED)
  | _ => True

/-- `vas_protect` may change flags. -/
def Stable (Q : Word → Prop) : Prop :=
  ∀ fl w, Q fl → Q ((fl &&& ~~~VAD_PROT_MASK) ||| (w &&& VAD_PROT_MASK))

/-- `CowCall`, by the view. -/
def Careful (s : Vm) (V : View) : Call → Prop
  | .protect a start length newFlags => hasFlag newFlags PAGE_WRITE = true →
      ∀ v n f fl, s.spaces a = some v → pageAlignDown start ≤ n * PAGE_SIZE →
        n * PAGE_SIZE < (pageAlignDown start + pageAlignUp length) % 2 ^ 64 →
        V (v.pml4, n) = some (f, fl) → refs V.frames f ≤ 1
  | .clone a => ∀ v, s.spaces a = some v → Guarded V v.pml4 v.list
  | _ => True

/-- `Few`, by the view and any bound. -/
def Spare (N : Nat) (s : Vm) (V : View) : Call → Prop
  | .clone a => ∀ v, s.spaces a = some v →
      ∀ f, refs V.frames f + {n | V.frames (v.pml4, n) = some f}.ncard ≤ N
  | _ => True

/-- The coins say nothing about the spaces. -/
theorem Spaces.coins (h : Spaces maxPfn usable fx Q s V) (coins : List Coin) :
    Spaces maxPfn usable fx Q { s with coins } V :=
  ⟨h.settled, h.kernel, h.inj, h.lists, h.user, h.sound, h.fresh⟩

/-- One call. -/
theorem Spaces.call (hmax : maxPfn < 2 ^ 40) (hzero : usable 0 = false) (hQ : Stable Q)
    (h : Spaces maxPfn usable fx Q s V) (hfill : ∀ b, Filled s V b) {k : Call}
    (hk : UserCall s k) (hmaps : Maps Q k) (hc : s.call k = .ok s') :
    ∃ V', Spaces maxPfn usable fx Q s' V' ∧ (∀ b, Filled s' V' b)
      ∧ (Level V → Level V')
      ∧ (∀ N, 1 ≤ N → Spare N s V k → AtMost N V → AtMost N V')
      ∧ (Isolated V → Careful s V k → Isolated V') := by
  cases k with
  | create pt =>
      have hpt : pt = none := hk
      subst hpt
      cases hcr : s.vasCreate none with
      | mk s1 o =>
      have hs1 : s1 = s' := by
        simp only [Vm.call, hcr] at hc
        exact Except.ok.inj hc
      subst hs1
      obtain ⟨h', ⟨-, hsp⟩ | ⟨d, g, -, -, hsp, -⟩⟩ := h.create hmax hzero hcr
      · refine ⟨V, h', fun b u n hu => ?_, id, fun _ _ _ hat => hat, fun hi _ => hi⟩
        rw [hsp] at hu
        exact hfill b u n hu
      · refine ⟨V, h', fun b u n hu hn => ?_, id, fun _ _ _ hat => hat, fun hi _ => hi⟩
        rw [hsp] at hu
        rcases setSpace_cases (s := s) hu with ⟨-, e⟩ | ⟨-, hu⟩
        · cases e
          obtain ⟨x, hx, -⟩ := hn
          cases hx
        · exact hfill b u n hu hn
  | mapAnon a hint length flags =>
      obtain ⟨base, hm⟩ := map_fst_ok hc
      obtain ⟨V', h', hf, ht⟩ := h.mapAnon hmax hzero hk hmaps hm
      exact ⟨V', h', fun b => hf b (hfill b), ht.level, fun N hN _ => ht.atMost N hN,
        fun hv _ => ht.isolated hv⟩
  | mapPhys a hint phys length flags => exact hk.elim
  | unmap a start length =>
      obtain ⟨rc, hm⟩ := map_fst_ok hc
      obtain ⟨V', h', hf, ht⟩ := h.unmap hmax hzero hk hm
      exact ⟨V', h', fun b => hf b (hfill b), ht.level, fun N hN _ => ht.atMost N hN,
        fun hv _ => ht.isolated hv⟩
  | protect a start length newFlags =>
      obtain ⟨V', h', hf, hframes, hi⟩ :=
        h.protect hmax hzero hQ (a := a) start length newFlags
      cases hc
      refine ⟨V', h', fun b => hf b (hfill b), fun hl x y f => ?_, fun N _ _ hat f => ?_,
        fun hv hcare => (hi hv).mpr hcare⟩
      · rw [hframes]
        exact hl x y f
      · rw [hframes]
        exact hat f
  | pageFault a addr err =>
      obtain ⟨s1, V', hcall, h', hf, ht⟩ :=
        h.pageFault hmax hzero (a := a) addr err
      rw [hcall] at hc
      cases hc
      exact ⟨V', h', fun b => hf b (hfill b), ht.level, fun N hN _ => ht.atMost N hN,
        fun hv _ => ht.isolated hv⟩
  | accessOk a addr len write =>
      obtain ⟨s1, V', hcall, h', hf, ht⟩ :=
        h.accessOk hmax hzero (a := a) addr len write
      rw [hcall] at hc
      cases hc
      exact ⟨V', h', fun b => hf b (hfill b), ht.level, fun N hN _ => ht.atMost N hN,
        fun hv _ => ht.isolated hv⟩
  | add a vad => exact hk.elim
  | clone a =>
      obtain ⟨o, hm⟩ := map_fst_ok hc
      obtain ⟨s1, V', o', hcall, h', hf, hat, hl, hi⟩ := h.clone hmax hzero hfill (a := a)
      rw [hcall] at hm
      cases hm
      exact ⟨V', h', hf, hl, hat, fun hv hcare => hi hcare hv⟩
  | destroy a =>
      obtain ⟨s1, V', hcall, h', -, hf, ht⟩ := h.destroy hmax hzero (a := a)
      have hc' : s.vasDestroy a = .ok s' := hc
      rw [hcall] at hc'
      cases hc'
      exact ⟨V', h', fun b => hf b (hfill b), ht.level, fun N hN _ => ht.atMost N hN,
        fun hv _ => ht.isolated hv⟩

/-- In every run after a boot the spaces belong to a view. -/
theorem Ready.reachable (hmax : maxPfn < 2 ^ 40) (hzero : usable 0 = false)
    (h₀ : Ready maxPfn usable blocks s₀) (h : Reachable UserCall s₀ s) :
    ∃ V, Spaces maxPfn usable (s₀.outside blocks) (fun _ => True) s V
      ∧ ∀ b, Filled s V b := by
  induction h with
  | init =>
      refine ⟨_, h₀.spaces, fun b u n hu => ?_⟩
      rw [h₀.booted.holds.2 b] at hu
      cases hu
  | @call s s' k coins _ hk hc ih =>
      obtain ⟨V, h, hfill⟩ := ih
      obtain ⟨V', h', hfill', -⟩ := (h.coins coins).call hmax hzero (fun _ _ _ => trivial)
        hfill hk (by cases k <;> trivial) hc
      exact ⟨V', h', hfill'⟩

theorem Spaces.spare (hmax : maxPfn < 2 ^ 40) (h : Spaces maxPfn usable fx Q s V) {k : Call}
    (hk : Few s k) : Spare (2 ^ 31 - 1) s V k := by
  cases k with
  | clone a =>
      intro v hv f
      have hlt := hk f
      rw [h.ncard_leafPtes hmax, h.ncard_own hmax hv] at hlt
      omega
  | _ => trivial

/-- In the runs whose clones leave few entries, every frame has few. -/
theorem Ready.entries_fit (hmax : maxPfn < 2 ^ 40) (hzero : usable 0 = false)
    (h₀ : Ready maxPfn usable blocks s₀)
    (h : Reachable (fun s k => UserCall s k ∧ Few s k) s₀ s) :
    ∀ f, (s.leafPtes f).ncard < 2 ^ 31 := by
  have hrun : ∃ V, Spaces maxPfn usable (s₀.outside blocks) (fun _ => True) s V
      ∧ (∀ b, Filled s V b) ∧ AtMost (2 ^ 31 - 1) V := by
    induction h with
    | init =>
        refine ⟨_, h₀.spaces, fun b u n hu => ?_, fun f => ?_⟩
        · rw [h₀.booted.holds.2 b] at hu
          cases hu
        · have hnone : refs (View.frames fun _ => none) f = 0 :=
            (refs_eq_zero sparse_none).mpr fun _ e => (by cases e)
          rw [hnone]
          exact Nat.zero_le _
    | @call s s' k coins _ hk hc ih =>
        obtain ⟨V, h, hfill, hat⟩ := ih
        obtain ⟨V', h', hfill', -, hat', -⟩ := (h.coins coins).call hmax hzero
          (fun _ _ _ => trivial) hfill hk.1 (by cases k <;> trivial) hc
        exact ⟨V', h', hfill', hat' _ (by decide) (h.spare hmax hk.2) hat⟩
  obtain ⟨V, hs, -, hat⟩ := hrun
  intro f
  rw [hs.ncard_leafPtes hmax]
  have := hat f
  omega

theorem Reachable.mono {may may' : Vm → Call → Prop} (h : Reachable may s₀ s)
    (hmay : ∀ s k, Reachable may s₀ s → may s k → may' s k) : Reachable may' s₀ s := by
  induction h with
  | init => exact .init
  | call coins hrun hk hc ih => exact ih.call coins (hmay _ _ hrun hk) hc

/-- In every reachable state the references of a frame are the entries
that map it, a frame without one is free, and the pages of the descriptors
are the pages that are mapped; and the count of a frame is one of an
`int`. -/
theorem reachable_counted (hmax : maxPfn < 2 ^ 40) (hzero : usable 0 = false)
    (h₀ : Ready maxPfn usable blocks s₀)
    (h : Reachable (fun s k => UserCall s k ∧ Few s k) s₀ s) :
    Counted maxPfn usable blocks s ∧ ∀ f, (s.leafPtes f).ncard < 2 ^ 31 := by
  obtain ⟨V, hs, hfill⟩ := h₀.reachable hmax hzero (h.mono fun _ _ _ hk => hk.1)
  exact ⟨hs.counted hmax hfill, h₀.entries_fit hmax hzero h⟩

theorem Spaces.root_lt (h : Spaces maxPfn usable fx Q s V) (hv : s.spaces a = some v) :
    v.pml4 < maxPfn + 1 := by
  obtain ⟨k, hk, -, -⟩ := h.settled
  exact (hk.mem_usable (hk.table_own (⟨_, [], Spaces.root hv, lower_owned.nil, rfl⟩))).1

/-- Where the entries of a frame are at one page, there is one for a space
at most, and the spaces have different roots. -/
theorem Spaces.ncard_le (hmax : maxPfn < 2 ^ 40) (h : Spaces maxPfn usable fx Q s V)
    (hl : Level V) (f : Nat) : (s.leafPtes f).ncard ≤ maxPfn + 1 := by
  let root : Nat × Nat → Nat := fun x => (s.spaces x.1).elim 0 Vas.pml4
  have hroot : ∀ {x v}, s.spaces x.1 = some v → root x = v.pml4 := fun hv => by
    show Option.elim _ 0 Vas.pml4 = _
    rw [hv]
    rfl
  calc (s.leafPtes f).ncard
      ≤ (↑(Finset.range (maxPfn + 1)) : Set Nat).ncard := by
        refine Set.ncard_le_ncard_of_injOn root (fun x hx => ?_) (fun x hx y hy e => ?_)
          (Finset.finite_toSet _)
        · obtain ⟨v, -, hv, -⟩ := (h.mem_leafPtes hmax).mp hx
          rw [hroot hv]
          exact Finset.mem_coe.mpr (Finset.mem_range.mpr (h.root_lt hv))
        · obtain ⟨v, fl, hv, hx⟩ := (h.mem_leafPtes hmax).mp hx
          obtain ⟨w, gl, hw, hy⟩ := (h.mem_leafPtes hmax).mp hy
          rw [hroot hv, hroot hw] at e
          exact Prod.ext (h.inj _ _ v w hv hw e)
            (hl (v.pml4, x.2) (w.pml4, y.2) f (View.frames_some hx) (View.frames_some hy))
    _ = maxPfn + 1 := by rw [Set.ncard_coe_finset, Finset.card_range]

/-- Below `2^30` frames, which is 4 TiB, no clone brings a frame to so many
entries: it has one in a space at most, and a space has a root. -/
theorem Ready.few (hmax : maxPfn + 1 < 2 ^ 30) (hzero : usable 0 = false)
    (h₀ : Ready maxPfn usable blocks s₀) (h : Reachable UserCall s₀ s) (k : Call) :
    Few s k := by
  have hmax' : maxPfn < 2 ^ 40 := by omega
  have hrun : ∃ V, Spaces maxPfn usable (s₀.outside blocks) (fun _ => True) s V
      ∧ (∀ b, Filled s V b) ∧ Level V := by
    induction h with
    | init =>
        refine ⟨_, h₀.spaces, fun b u n hu => ?_, fun x y f hx => (by cases hx)⟩
        rw [h₀.booted.holds.2 b] at hu
        cases hu
    | @call s s' k coins _ hk hc ih =>
        obtain ⟨V, h, hfill, hl⟩ := ih
        obtain ⟨V', h', hfill', hl', -⟩ := (h.coins coins).call hmax' hzero
          (fun _ _ _ => trivial) hfill hk (by cases k <;> trivial) hc
        exact ⟨V', h', hfill', hl' hl⟩
  obtain ⟨V, hs, -, hl⟩ := hrun
  cases k with
  | clone a =>
      intro f
      have hall := hs.ncard_le hmax' hl f
      rcases (s.leafPtes f).eq_empty_or_nonempty with hempty | hsome
      · rw [hempty]
        simp
      · have hfin : (s.leafPtes f).Finite := by
          refine Set.finite_of_ncard_pos ?_
          rw [hs.ncard_leafPtes hmax', refs_pos hs.settled.sparse]
          obtain ⟨x, hx⟩ := hsome
          obtain ⟨v, fl, -, hx⟩ := (hs.mem_leafPtes hmax').mp hx
          exact ⟨_, View.frames_some hx⟩
        have hown : {x ∈ s.leafPtes f | x.1 = a}.ncard ≤ (s.leafPtes f).ncard :=
          Set.ncard_le_ncard (fun x hx => hx.1) hfin
        omega
  | _ => trivial

instance (s : Vm) (k : Call) : Decidable (UserCall s k) :=
  match k with
  | .create pt => inferInstanceAs (Decidable (pt = none))
  | .mapPhys .. | .add .. => inferInstanceAs (Decidable False)
  | .mapAnon .. | .unmap .. => inferInstanceAs (Decidable (_ ≤ _))
  | .protect .. | .pageFault .. | .accessOk .. | .clone _ | .destroy _ =>
      inferInstanceAs (Decidable True)

theorem bootVm_ready : Ready 16 (fun q => 1 ≤ q) [] bootVm :=
  ⟨.init _, fun k hk => (by cases hk)⟩

/-- One page of anonymous memory, and a clone of its space: two entries
for one frame. -/
theorem reachable_counted_clone : ∃ s, Reachable (fun s k => UserCall s k ∧ Few s k) bootVm s
    ∧ hasFlag (s.leafPte 0 5) PAGE_PRESENT = true ∧ s.leafPte 0 5 = s.leafPte 1 5
    ∧ Counted 16 (fun q => 1 ≤ q) [] s ∧ ∀ f, (s.leafPtes f).ncard < 2 ^ 31 := by
  have hplay : (play UserCall bootVm [(fair, .create none), (fair, .mapAnon 0 0x5000 0x1000 PAGE_WRITE), (fair, .clone 0)]).map
      (fun s => (hasFlag (s.leafPte 0 5) PAGE_PRESENT, s.leafPte 0 5 == s.leafPte 1 5))
      = some (true, true) := by
    decide +kernel
  obtain ⟨s, hrun, heq⟩ := Option.map_eq_some_iff.mp hplay
  obtain ⟨h1, h2⟩ := Prod.mk.inj heq
  have hreach : Reachable (fun s k => UserCall s k ∧ Few s k) bootVm s :=
    (reachable_play .init hrun).mono fun t k ht hk =>
      ⟨hk, bootVm_ready.few (by decide) rfl ht k⟩
  exact ⟨s, hreach, h1, eq_of_beq h2, reachable_counted (by decide) rfl bootVm_ready hreach⟩

-- ==== copy-on-write

/-- Copy-on-write is the isolation of the view. -/
theorem Spaces.cow_iff (hmax : maxPfn < 2 ^ 40) (h : Spaces maxPfn usable fx Q s V) :
    s.Cow ↔ Isolated V := by
  constructor
  · intro hc x y f fl fl' hne hx hy
    obtain ⟨a, v, hv, hvr⟩ := (h.dom (x := x) (by rw [hx]; exact Option.some_ne_none _)).1
    obtain ⟨b, w, hw, hwr⟩ := (h.dom (x := y) (by rw [hy]; exact Option.some_ne_none _)).1
    obtain ⟨r, n⟩ := x
    obtain ⟨t, i⟩ := y
    cases hvr
    cases hwr
    obtain ⟨hxm, hwrite⟩ := h.entry hmax hv hx
    rw [← hwrite]
    refine hc f (a, n) (b, i) hxm (h.entry hmax hw hy).1 fun e => hne ?_
    cases e
    rw [hv] at hw
    cases hw
    rfl
  · intro hi f x y hx hy hne
    obtain ⟨v, fl, hv, hx⟩ := (h.mem_leafPtes hmax).mp hx
    obtain ⟨w, fl', hw, hy⟩ := (h.mem_leafPtes hmax).mp hy
    refine (h.entry hmax hv hx).2.trans (hi _ _ f fl fl' (fun e => hne ?_) hx hy)
    obtain ⟨e1, e2⟩ := Prod.mk.inj e
    exact Prod.ext (h.inj _ _ v w hv hw e1) e2

/-- For `vas_protect` the two ways to say it agree. -/
theorem Spaces.careful_protect (hmax : maxPfn < 2 ^ 40)
    (h : Spaces maxPfn usable fx Q s V) {start length : Nat} {newFlags : Word} :
    Careful s V (.protect a start length newFlags)
      ↔ CowCall s (.protect a start length newFlags) := by
  refine imp_congr_right fun _ => ⟨fun hk f n hx h1 h2 => ?_, fun hk v n f fl hv h1 h2 hx => ?_⟩
  · obtain ⟨v, fl, hv, hx⟩ := (h.mem_leafPtes hmax).mp hx
    rw [h.ncard_leafPtes hmax]
    exact hk v n f fl hv h1 h2 hx
  · rw [← h.ncard_leafPtes hmax]
    exact hk f n (h.entry hmax hv hx).1 h1 h2

theorem Spaces.careful (hmax : maxPfn < 2 ^ 40) (h : Spaces maxPfn usable fx Q s V)
    (hQ : ∀ fl, Q fl → hasFlag fl VAD_SHARED = false) {k : Call} (hk : CowCall s k) :
    Careful s V k := by
  cases k with
  | protect a start length newFlags => exact (h.careful_protect hmax).mpr hk
  | clone a =>
      intro v hv x hx
      refine ⟨hQ _ (h.user a v hv x hx).2, fun n f fl h1 h2 he hfl => ?_⟩
      by_contra hw
      have hno := hk v hv x hx (by simpa using hw) n h1 h2
      rw [(h.entry hmax hv he).2, hfl] at hno
      cases hno
  | _ => trivial

/-- `VAD_SHARED` is no protection bit. -/
theorem stable_unshared : Stable fun fl => hasFlag fl VAD_SHARED = false := by
  intro fl w hfl
  have hmask : VAD_PROT_MASK.getLsbD 15 = false := by decide
  rw [hasFlag_pageBit _ (by decide)] at hfl ⊢
  rw [BitVec.getLsbD_or, BitVec.getLsbD_and, BitVec.getLsbD_and, hmask, hfl, Bool.false_and,
    Bool.and_false, Bool.or_false]

theorem maps_unshared {k : Call} (hk : Unshared k) :
    Maps (fun fl => hasFlag fl VAD_SHARED = false) k := by
  cases k with
  | mapAnon a hint length flags =>
      have h12 : VAD_ANONYMOUS.getLsbD 15 = false := by decide
      have h14 : VAD_MAPPED.getLsbD 15 = false := by decide
      have hfl : hasFlag flags VAD_SHARED = false := hk
      show hasFlag (flags ||| VAD_ANONYMOUS ||| VAD_MAPPED) VAD_SHARED = false
      rw [hasFlag_pageBit _ (by decide)] at hfl ⊢
      rw [BitVec.getLsbD_or, BitVec.getLsbD_or, h12, h14, hfl, Bool.or_false, Bool.or_false]
  | _ => trivial

/-- A `vas_protect` keeps copy-on-write exactly when it makes no frame
writable that two entries map. -/
theorem protect_cow_iff (hmax : maxPfn < 2 ^ 40) (hzero : usable 0 = false)
    (h₀ : Ready maxPfn usable blocks s₀) (h : Reachable UserCall s₀ s) (hc : s.Cow)
    (start length : Nat) (newFlags : Word) :
    (s.vasProtect a start length newFlags).1.Cow
      ↔ CowCall s (.protect a start length newFlags) := by
  obtain ⟨V, hs, -⟩ := h₀.reachable hmax hzero h
  obtain ⟨V', hs', -, -, hiff⟩ :=
    hs.protect hmax hzero (fun _ _ _ => trivial) (a := a) start length newFlags
  rw [hs'.cow_iff hmax, hiff ((hs.cow_iff hmax).mp hc)]
  exact hs.careful_protect hmax

/-- Careful calls keep copy-on-write. -/
theorem Ready.cow (hmax : maxPfn < 2 ^ 40) (hzero : usable 0 = false)
    (h₀ : Ready maxPfn usable blocks s₀)
    (h : Reachable (fun s k => UserCall s k ∧ Unshared k ∧ CowCall s k) s₀ s) : s.Cow := by
  have hrun : ∃ V, Spaces maxPfn usable (s₀.outside blocks)
      (fun fl => hasFlag fl VAD_SHARED = false) s V ∧ (∀ b, Filled s V b) ∧ Isolated V := by
    induction h with
    | init =>
        refine ⟨_, h₀.spaces, fun b u n hu => ?_, fun x y f fl fl' _ hx => (by cases hx)⟩
        rw [h₀.booted.holds.2 b] at hu
        cases hu
    | @call s s' k coins _ hk hc ih =>
        obtain ⟨V, h, hfill, hi⟩ := ih
        obtain ⟨huser, hunshared, hcow⟩ := hk
        obtain ⟨V', h', hfill', -, -, hi'⟩ := (h.coins coins).call hmax hzero stable_unshared hfill
          huser (maps_unshared hunshared) hc
        exact ⟨V', h', hfill', hi' hi (h.careful hmax (fun _ => id) hcow)⟩
  obtain ⟨V, hs, -, hi⟩ := hrun
  exact (hs.cow_iff hmax).mpr hi

/-- Copy-on-write holds in the runs whose calls are careful, and every
count in them is one of an `int`. -/
theorem reachable_cow (hmax : maxPfn < 2 ^ 40) (hzero : usable 0 = false)
    (h₀ : Ready maxPfn usable blocks s₀)
    (h : Reachable (fun s k => (UserCall s k ∧ Unshared k ∧ CowCall s k) ∧ Few s k) s₀ s) :
    s.Cow ∧ ∀ f, (s.leafPtes f).ncard < 2 ^ 31 :=
  ⟨h₀.cow hmax hzero (h.mono fun _ _ _ hk => hk.1),
    h₀.entries_fit hmax hzero (h.mono fun _ _ _ hk => ⟨hk.1.1, hk.2⟩)⟩

instance (k : Call) : Decidable (Unshared k) :=
  match k with
  | .mapAnon _ _ _ flags => inferInstanceAs (Decidable (hasFlag flags VAD_SHARED = false))
  | .create _ | .mapPhys .. | .unmap .. | .protect .. | .pageFault .. | .accessOk ..
  | .add .. | .clone _ | .destroy _ => inferInstanceAs (Decidable True)

/-- Enough for a careful call. -/
def checkCow (s : Vm) : Call → Bool
  | .protect _ _ _ newFlags => !hasFlag newFlags PAGE_WRITE
  | .clone a => (s.spaces a).all fun v => v.list.all fun x => hasFlag x.flags PAGE_WRITE
  | _ => true

theorem cowCall_of_check {k : Call} (h : checkCow s k = true) : CowCall s k := by
  cases k with
  | protect a start length newFlags =>
      intro hw
      simp [checkCow, hw] at h
  | clone a =>
      intro v hv x hx hro
      have hall : v.list.all (fun x => hasFlag x.flags PAGE_WRITE) = true := by
        simpa [checkCow, hv] using h
      rw [List.all_eq_true.mp hall x hx] at hro
      cases hro
  | _ => trivial

/-- After a write fault in the clone the page is writable there, in a
frame of its own. -/
theorem reachable_cow_fault : ∃ s,
    Reachable (fun s k => (UserCall s k ∧ Unshared k ∧ CowCall s k) ∧ Few s k) bootVm s
    ∧ hasFlag (s.leafPte 0 5) PAGE_WRITE = false ∧ hasFlag (s.leafPte 1 5) PAGE_WRITE = true
    ∧ s.Cow ∧ ∀ f, (s.leafPtes f).ncard < 2 ^ 31 := by
  have hplay : (play (fun s k => UserCall s k ∧ Unshared k ∧ checkCow s k = true) bootVm
      [(fair, .create none), (fair, .mapAnon 0 0x5000 0x1000 PAGE_WRITE), (fair, .clone 0),
        (fair, .pageFault 1 0x5008 0x3)]).map
      (fun s => (hasFlag (s.leafPte 0 5) PAGE_WRITE, hasFlag (s.leafPte 1 5) PAGE_WRITE))
      = some (false, true) := by
    decide +kernel
  obtain ⟨s, hrun, heq⟩ := Option.map_eq_some_iff.mp hplay
  obtain ⟨h1, h2⟩ := Prod.mk.inj heq
  have hreach : Reachable (fun s k => (UserCall s k ∧ Unshared k ∧ CowCall s k) ∧ Few s k)
      bootVm s :=
    (reachable_play .init hrun).mono fun t k ht hk =>
      ⟨⟨hk.1, hk.2.1, cowCall_of_check hk.2.2⟩,
        bootVm_ready.few (by decide) rfl (ht.mono fun _ _ _ hk => hk.1) k⟩
  exact ⟨s, hreach, h1, h2, reachable_cow (by decide) rfl bootVm_ready hreach⟩

/-- A `vas_protect` of the clone makes the page writable there, though the
first space still maps its frame. -/
theorem reachable_not_cow : ∃ s, Reachable (fun s k => UserCall s k ∧ Unshared k) bootVm s
    ∧ ¬ s.Cow := by
  have hplay : (play (fun s k => UserCall s k ∧ Unshared k) bootVm [(fair, .create none),
      (fair, .mapAnon 0 0x5000 0x1000 PAGE_WRITE), (fair, .clone 0),
      (fair, .protect 1 0x5000 0x1000 PAGE_WRITE)]).map
      (fun s => (s.leafPte 0 5, s.leafPte 1 5)) = some (0x1001, 0x1003) := by
    decide +kernel
  obtain ⟨s, hrun, heq⟩ := Option.map_eq_some_iff.mp hplay
  obtain ⟨h1, h2⟩ := Prod.mk.inj heq
  refine ⟨s, reachable_play .init hrun, fun hc => ?_⟩
  have hno := hc 1 (1, 5) (0, 5) ⟨by decide, by rw [h2]; decide, by rw [h2]; decide⟩
    ⟨by decide, by rw [h1]; decide, by rw [h1]; decide⟩ (by decide)
  rw [show hasFlag (s.leafPte 1 5) PAGE_WRITE = true by rw [h2]; decide] at hno
  cases hno

/-- Nor is it safe to clone a space after a `vas_protect` of one of two
pages: the descriptor says "read-only" for both, and the other page stays
writable in the first space. -/
example : (play (fun s k => UserCall s k ∧ Unshared k) bootVm [(fair, .create none),
    (fair, .mapAnon 0 0x5000 0x2000 PAGE_WRITE), (fair, .protect 0 0x5000 0x1000 0),
    (fair, .clone 0)]).map (fun s => (s.leafPte 0 6, s.leafPte 1 6)) = some (0x5003, 0x5001) := by
  decide +kernel

end Alix.Vm
