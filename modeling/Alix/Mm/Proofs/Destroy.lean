/-
What `vas_destroy` gives back.

# What can go wrong

The release is split: a walk over the descriptors drops the references of
the pages, and a recursion over three levels frees the tables. One level
too many and the pages are dropped twice, one too few and tables are lost.
And the upper half of the root leads to tables of the kernel that every
other root leads to as well.

# What holds

In every reachable state the call returns. It frees the tables of the
lower half and the root once each, drops one reference for each entry of
the space, and leaves the other spaces and the kernel's tables as they
were (`reachable_destroy`).
-/
import Alix.Mm.Proofs.SpacesRun

namespace Alix.Vm

open Paging
open Radix
open Pointers
open Dyadic (Block)
open Pmm (Allocated Usable)

-- ==== the statement

/-- What is left of the space `a` after `vas_destroy`. -/
structure Destroyed (s : Vm) (a : Nat) (s' : Vm) : Prop where
  /-- the other spaces are still there -/
  spaces : s'.spaces = Function.update s.spaces a none
  /-- and map what they mapped -/
  leafPte : ∀ b n, b ≠ a → n < 2 ^ 35 → s'.leafPte b n = s.leafPte b n
  /-- a frame that they map stays out, and has lost one reference for each
  entry of the space -/
  shared : ∀ f, (s'.leafPtes f).Nonempty → ¬ s'.Free f
    ∧ (s.mach.pmm.pages f).refcount
      = (s'.mach.pmm.pages f).refcount + {x ∈ s.leafPtes f | x.1 = a}.ncard
  /-- any other frame of the space had only those references and goes back,
  unless the heap has taken it already -/
  sole : ∀ f, (s.leafPtes f).Nonempty → s'.leafPtes f = ∅ →
    (s.mach.pmm.pages f).refcount = {x ∈ s.leafPtes f | x.1 = a}.ncard
    ∧ (s'.Free f ∨ Allocated s'.heap f)
  /-- and so does every table -/
  tables : ∀ v p f, s.spaces a = some v → Lower p →
    walk (child s.mach.mem) v.pml4 p = some f → s'.Free f ∨ Allocated s'.heap f
  /-- the tables of the kernel half, below any root, are neither freed nor
  changed -/
  kernel : ∀ t g, s.Roots t ∨ s.kernelPml4 = some t → s.KernelHalf t g →
    ¬ s'.Free g ∧ s'.mach.mem g = s.mach.mem g
    ∧ (s'.mach.pmm.pages g).data = (s.mach.pmm.pages g).data

variable {maxPfn : Nat} {usable : Nat → Bool} {blocks : List Block} {fx : Outside}
  {Q : Word → Prop} {s s₀ s' : Vm} {V V' : View} {a f g t : Nat} {v : Vas}

-- ==== the kernel half

theorem upper_owned {i : Nat} (hi : Upper [i]) : Owned fun p => Upper (i :: p) where
  nil := hi
  init := by
    intro p j h
    obtain ⟨hlen, hhead, hlt⟩ := h
    refine ⟨by simp at hlen ⊢; omega, hhead, fun x hx => hlt x ?_⟩
    rw [← List.cons_append]
    exact List.mem_append_left _ hx

/-- The upper half of a root leads where the kernel's root led after the
boot. -/
theorem Spaces.upper_walk (h : Spaces maxPfn usable (s₀.outside blocks) Q s V)
    (h₀ : Ready maxPfn usable blocks s₀) (ht : s.Roots t ∨ s.kernelPml4 = some t)
    {p : List Nat} (hne : p ≠ []) (hp : Upper p) (hw : walk (child s.mach.mem) t p = some g) :
    ∃ k, s₀.kernelPml4 = some k ∧ walk (child s₀.mach.mem) k p = some g := by
  obtain ⟨b, hb, -, -⟩ := h.settled
  have hupper : ∀ i, 256 ≤ i → i < 512 → s.mach.mem t i = (s₀.outside blocks).upper i := by
    intro i h1 h2
    rcases ht with ht | ht
    · exact hb.upper t ht i h1 h2
    · have hk := h.kernel
      rw [ht] at hk
      rw [hb.words t (hk.has t rfl)]
      exact (hk.upper i).symm
  cases p with
  | nil => exact (hne rfl).elim
  | cons i p =>
      have hi : Upper [i] := by
        refine ⟨by simp, fun j hj => hp.2.1 j hj, fun j hj => hp.2.2 j ?_⟩
        rw [List.mem_singleton.mp hj]
        exact List.mem_cons_self
      have hword := hupper i (hp.2.1 i rfl) (hp.2.2 i List.mem_cons_self)
      unfold outside at hword
      cases hk : s₀.kernelPml4 with
      | none =>
          rw [hk] at hword
          rw [walk_cons, child_zero hword] at hw
          cases hw
      | some k =>
          rw [hk] at hword
          have hchild : child s.mach.mem t i = child s₀.mach.mem k i := child_congr hword
          refine ⟨k, rfl, ?_⟩
          rw [walk_cons, hchild] at hw
          rw [walk_cons]
          cases hc : child s₀.mach.mem k i with
          | none =>
              rw [hc] at hw
              cases hw
          | some x =>
              rw [hc, Option.bind_some] at hw
              rw [Option.bind_some, ← hw]
              refine (walk_congr (upper_owned hi) (fun q j y hq hy => ?_) hp).symm
              -- a table of the kernel, whose words nobody writes
              have hy' : s₀.KernelHalf k y := by
                refine ⟨i :: q, List.cons_ne_nil _ _, (upper_owned hi).init q j hq, ?_⟩
                rw [walk_cons, hc]
                exact hy
              exact child_congr (congrFun (hb.words y ((h₀.tables k hk).2 y hy')) j)

theorem Spaces.kernelHalf (h : Spaces maxPfn usable (s₀.outside blocks) Q s V)
    (h₀ : Ready maxPfn usable blocks s₀) (ht : s.Roots t ∨ s.kernelPml4 = some t)
    (hg : s.KernelHalf t g) : Allocated blocks g := by
  obtain ⟨p, hne, hp, hw⟩ := hg
  obtain ⟨k, hk, hw⟩ := h.upper_walk h₀ ht hne hp hw
  exact (h₀.tables k hk).2 g ⟨p, hne, hp, hw⟩

/-- The kernel's frames are out, and nobody writes to them. -/
theorem Spaces.outside_kept (h : Spaces maxPfn usable fx Q s V)
    (h' : Spaces maxPfn usable fx Q s' V') (hg : Allocated fx.blocks g) :
    ¬ s'.Free g ∧ s'.mach.mem g = s.mach.mem g
      ∧ (s'.mach.pmm.pages g).data = (s.mach.pmm.pages g).data := by
  obtain ⟨k, hk, -, -⟩ := h.settled
  obtain ⟨k', hk', -, -⟩ := h'.settled
  refine ⟨fun hc => ?_, (hk'.words g hg).trans (hk.words g hg).symm,
    (hk'.pages g hg).trans (hk.pages g hg).symm⟩
  obtain ⟨b, hb, hgb⟩ := hg
  exact ((hk'.ledger.free_iff g).mp hc).2
    ⟨b, List.mem_append_right _ (List.mem_append_left _ hb), hgb⟩

-- ==== the release

/-- A frame that is neither the kernel's nor mapped nor a table is free,
or the heap has it. -/
theorem Counted.released (h : Counted maxPfn usable blocks s) (hu : Usable maxPfn usable f)
    (hb : ¬ Allocated blocks f) (ht : ¬ Table s.mach s.Roots f) (hf : s.leafPtes f = ∅) :
    s.Free f ∨ Allocated s.heap f := by
  by_cases hheap : Allocated s.heap f
  · exact Or.inr hheap
  · have htaken : ¬ s.Taken blocks f := fun hc => by
      rcases hc with hc | hc | hc
      · exact hb hc
      · exact hheap hc
      · exact ht hc
    rcases h.count f hu htaken with ⟨hfree, -⟩ | ⟨-, hpos, -⟩
    · exact Or.inl hfree
    · rw [hf, Set.ncard_empty] at hpos
      omega

/-- A mapped frame is out, with one reference for each entry. -/
theorem Counted.refcount (h : Counted maxPfn usable blocks s) (hf : (s.leafPtes f).Nonempty) :
    ¬ s.Free f ∧ (s.mach.pmm.pages f).refcount = (s.leafPtes f).ncard := by
  obtain ⟨hu, ht⟩ := h.mapped f hf
  rcases h.count f hu ht with ⟨-, hempty⟩ | ⟨hfree, -, href⟩
  · rw [hempty] at hf
    exact (Set.not_nonempty_empty hf).elim
  · exact ⟨hfree, href⟩

section destroyed

variable (hmax : maxPfn < 2 ^ 40) (h : Spaces maxPfn usable (s₀.outside blocks) Q s V)
  (h' : Spaces maxPfn usable (s₀.outside blocks) Q s' V') (hv : s.spaces a = some v)
  (hsp : s'.spaces = Function.update s.spaces a none)
  (hc : Clears v.pml4 (fun _ => True) V V')

include h hv hsp hc

/-- The view of another space. -/
theorem view_other {b n : Nat} {u : Vas} (hu : s'.spaces b = some u) :
    b ≠ a ∧ s.spaces b = some u ∧ V' (u.pml4, n) = V (u.pml4, n) := by
  have hba : b ≠ a := by
    rintro rfl
    rw [hsp, Function.update_self] at hu
    cases hu
  rw [hsp, Function.update_of_ne hba] at hu
  exact ⟨hba, hu, hc.within (u.pml4, n) fun e => hba (h.inj b a u v hu hv e.1)⟩

include hmax h'

theorem leafPtes_destroyed (f : Nat) :
    s'.leafPtes f = s.leafPtes f \ {x | x.1 = a} := by
  ext ⟨b, n⟩
  rw [h'.mem_leafPtes hmax]
  constructor
  · intro hx
    obtain ⟨u, fl, hu, hx⟩ := hx
    obtain ⟨hba, hu, hview⟩ := view_other h hv hsp hc (n := n) hu
    rw [hview] at hx
    exact ⟨(h.mem_leafPtes hmax).mpr ⟨u, fl, hu, hx⟩, hba⟩
  · intro hx
    obtain ⟨hx, hba⟩ := hx
    obtain ⟨u, fl, hu, hx⟩ := (h.mem_leafPtes hmax).mp hx
    have hu' : s'.spaces b = some u := by
      rw [hsp, Function.update_of_ne hba]
      exact hu
    refine ⟨u, fl, hu', ?_⟩
    rw [(view_other h hv hsp hc hu').2.2]
    exact hx

/-- The entries of a mapped frame, by space. -/
theorem ncard_destroyed (hf : (s.leafPtes f).Nonempty) :
    (s.leafPtes f).ncard
      = (s'.leafPtes f).ncard + {x ∈ s.leafPtes f | x.1 = a}.ncard := by
  have hfin : (s.leafPtes f).Finite := by
    obtain ⟨x, hx⟩ := hf
    obtain ⟨u, fl, -, hx⟩ := (h.mem_leafPtes hmax).mp hx
    refine Set.finite_of_ncard_pos ?_
    rw [h.ncard_leafPtes hmax]
    exact (h.settled.refcount hx).2
  have hsum := Set.ncard_inter_add_ncard_sdiff_eq_ncard (s.leafPtes f) {x | x.1 = a} hfin
  rw [leafPtes_destroyed hmax h h' hv hsp hc, ← hsum, Nat.add_comm]
  rfl

include hmax h h' hv hsp hc in
/-- The accounts before and after. -/
theorem destroyed (h₀ : Ready maxPfn usable blocks s₀)
    (hcount : Counted maxPfn usable blocks s) (hcount' : Counted maxPfn usable blocks s')
    (hsame : SameTables s.Roots s.mach s'.mach) : Destroyed s a s' := by
  have hptes := leafPtes_destroyed hmax h h' hv hsp hc
  have hncard := fun {f} => ncard_destroyed hmax h h' hv hsp hc (f := f)
  have hsub : ∀ f, s'.leafPtes f ⊆ s.leafPtes f := by
    intro f
    rw [hptes]
    exact Set.sdiff_subset
  -- the tables that are left were there before
  have hleft : ∀ f, Table s'.mach s'.Roots f →
      ∃ b u p, b ≠ a ∧ s.spaces b = some u ∧ Lower p
        ∧ walk (child s.mach.mem) u.pml4 p = some f := by
    intro f hf
    obtain ⟨r, p, ⟨b, u, hu, rfl⟩, hp, hw⟩ := hf
    obtain ⟨hba, hu, -⟩ := view_other h hv hsp hc (n := 0) hu
    rw [hsame _ p (Spaces.root hu) hp] at hw
    exact ⟨b, u, p, hba, hu, hp, hw⟩
  refine ⟨hsp, fun b n hb hn => ?_, fun f hf => ?_, fun f hf he => ?_,
    fun w p f hw hp hwalk => ?_, fun t g ht hg => ?_⟩
  · cases hu : s.spaces b with
    | none =>
        have hu' : s'.spaces b = none := by
          rw [hsp, Function.update_of_ne hb]
          exact hu
        unfold Vm.leafPte
        rw [hu, hu']
    | some u =>
        have hu' : s'.spaces b = some u := by
          rw [hsp, Function.update_of_ne hb]
          exact hu
        rw [h.leafPte hu hn, h'.leafPte hu' hn, (view_other h hv hsp hc hu').2.2]
  · obtain ⟨hfree, href'⟩ := hcount'.refcount hf
    have hf' := hf.mono (hsub f)
    have href := (hcount.refcount hf').2
    rw [hncard hf'] at href
    refine ⟨hfree, ?_⟩
    rw [href, href']
    push_cast
    rfl
  · have href := (hcount.refcount hf).2
    rw [hncard hf, he, Set.ncard_empty, Nat.zero_add] at href
    obtain ⟨hu, htaken⟩ := hcount.mapped f hf
    refine ⟨href, hcount'.released hu (fun hb => htaken (Or.inl hb)) (fun ht => ?_) he⟩
    obtain ⟨b, u, p, -, hu, hp, hw⟩ := hleft f ht
    exact htaken (Or.inr (Or.inr ⟨_, p, Spaces.root hu, hp, hw⟩))
  · rw [hv] at hw
    cases hw
    have htab : Table s.mach s.Roots f := ⟨v.pml4, p, Spaces.root hv, hp, hwalk⟩
    obtain ⟨k, hk, -, -⟩ := h.settled
    have hown := hk.table_own htab
    refine hcount'.released (hk.mem_usable hown) (hk.own_outside hown) (fun ht => ?_) ?_
    · obtain ⟨b, u, q, hba, hu, hq, hw⟩ := hleft f ht
      have hroot := (hk.forest.sep (Spaces.root hu) (Spaces.root hv) hq hp hw hwalk).1
      exact hba (h.inj b a u v hu hv hroot)
    · by_contra hne
      have hold := (Set.nonempty_iff_ne_empty.mpr hne).mono (hsub f)
      exact (hcount.mapped f hold).2 (Or.inr (Or.inr htab))
  · exact h.outside_kept h' (h.kernelHalf h₀ ht hg)

end destroyed

/-- In every reachable state `vas_destroy` returns. Its second half frees
the tables of the lower half and the root once each. The counts are those
of an `int`. -/
theorem reachable_destroy (hmax : maxPfn < 2 ^ 40) (hzero : usable 0 = false)
    (h₀ : Ready maxPfn usable blocks s₀)
    (h : Reachable (fun s k => UserCall s k ∧ Few s k) s₀ s)
    (hv : s.spaces a = some v) (coins : List Coin) :
    (∀ f, (s.leafPtes f).ncard < 2 ^ 31)
    ∧ ∃ s1 m s', ∃ tables : List Nat, Vm.destroyVads v.pml4 v.list { s with coins } = .ok s1
      ∧ s1.mach.ptableDestroy v.pml4 = .ok m ∧ { s with coins }.vasDestroy a = .ok s'
      ∧ tables.Nodup
      ∧ (∀ f, f ∈ tables ↔ ∃ p, Lower p ∧ walk (child s.mach.mem) v.pml4 p = some f)
      ∧ tables.foldlM Machine.free s1.mach = .ok m
      ∧ Destroyed s a s' := by
  have hcalls : Reachable UserCall s₀ s := h.mono fun _ _ _ hk => hk.1
  refine ⟨h₀.entries_fit hmax hzero h, ?_⟩
  obtain ⟨V, hs, hfill⟩ := h₀.reachable hmax hzero hcalls
  obtain ⟨s1, V', m, s', hvads, -, hc, hdestroy, hfrees, hnd, hiff, hcall, hs', hsp, hsame⟩ :=
    (hs.coins coins).destroy_steps hmax hzero hv
  obtain ⟨V'', hs'', hfill''⟩ := h₀.reachable hmax hzero
    (hcalls.call coins (k := .destroy a) trivial hcall)
  have hcount' := hs''.counted hmax hfill''
  exact ⟨s1, m, s', _, hvads, hdestroy, hcall, hnd, hiff, hfrees,
    destroyed hmax hs hs' hv hsp hc h₀ (hs.counted hmax hfill) hcount' hsame⟩

-- ==== an example

/-- A root with one table, in its last slot. -/
def readyMem (root table : Nat) : Nat → Nat → Word := fun q i =>
  if q = root ∧ i = 511 then pte (pfnPhys table) PAGE_WRITE else 0

/-- The kernel takes a frame for its root and one for a table. -/
def readyVm : Vm :=
  match bootVm.mach.pmm.pmmAlloc 0 with
  | none => bootVm
  | some (pmm, root) =>
      match pmm.pmmAlloc 0 with
      | none => bootVm
      | some (pmm, table) =>
          { bootVm with mach := ⟨pmm, readyMem root table⟩, kernelPml4 := some root }

theorem readyMem_walk {p : List Nat} {g : Nat} (hne : p ≠ [])
    (hw : walk (child (readyMem 16 1)) 16 p = some g) : g = 1 := by
  have hzero : ∀ {q i}, ¬ (q = 16 ∧ i = 511) → child (readyMem 16 1) q i = none := fun h =>
    child_zero (if_neg h)
  cases p with
  | nil => exact (hne rfl).elim
  | cons i p =>
      obtain ⟨t, ht, hw⟩ := Option.bind_eq_some_iff.mp hw
      have ht1 : t = 1 := by
        by_cases hi : i = 511
        · rw [hi, show child (readyMem 16 1) 16 511 = some 1 by decide] at ht
          exact (Option.some.inj ht).symm
        · rw [hzero fun e => hi e.2] at ht
          cases ht
      subst ht1
      cases p with
      | nil => exact (Option.some.inj hw).symm
      | cons j p =>
          obtain ⟨u, hu, -⟩ := Option.bind_eq_some_iff.mp hw
          rw [hzero (by omega)] at hu
          cases hu

theorem ready_readyVm : Ready 16 (fun q => 1 ≤ q) [⟨1, 0⟩, ⟨16, 0⟩] readyVm := by
  have hroot : (bootVm.mach.pmm.pmmAlloc 0).map Prod.snd = some 16 := by decide +kernel
  have htable : ((bootVm.mach.pmm.pmmAlloc 0).bind fun r => r.1.pmmAlloc 0).map Prod.snd
      = some 1 := by decide +kernel
  unfold readyVm
  cases h1 : bootVm.mach.pmm.pmmAlloc 0 with
  | none =>
      rw [h1] at hroot
      cases hroot
  | some r =>
  obtain ⟨pmm, root⟩ := r
  rw [h1] at hroot htable
  cases hroot
  simp only
  cases h2 : pmm.pmmAlloc 0 with
  | none =>
      rw [Option.bind_some, h2] at htable
      cases htable
  | some r =>
  obtain ⟨pmm', table⟩ := r
  rw [Option.bind_some, h2] at htable
  cases htable
  have hboot : Booted 16 (fun q => 1 ≤ q) [] bootVm := .init _
  have htwo := (hboot.alloc h1).alloc h2
  refine ⟨(htwo.write (readyMem 16 1)).root (some 16), fun k hk => ?_⟩
  cases hk
  refine ⟨⟨⟨16, 0⟩, by simp, by decide⟩, fun g hg => ⟨⟨1, 0⟩, by simp, ?_⟩⟩
  obtain ⟨p, hne, -, hw⟩ := hg
  rw [readyMem_walk hne hw]
  decide

/-- A space with one page goes, over a kernel with a table of its own. -/
theorem reachable_destroy_page : ∃ s s', Reachable (fun s k => UserCall s k ∧ Few s k) readyVm s
    ∧ hasFlag (s.leafPte 0 5) PAGE_PRESENT = true
    ∧ { s with coins := fair }.vasDestroy 0 = .ok s' ∧ Destroyed s 0 s' := by
  have hplay : (play UserCall readyVm [(fair, .create none), (fair, .mapAnon 0 0x5000 0x1000 PAGE_WRITE)]).map
      (fun s => (hasFlag (s.leafPte 0 5) PAGE_PRESENT, (s.spaces 0).isSome))
      = some (true, true) := by
    decide +kernel
  obtain ⟨s, hrun, heq⟩ := Option.map_eq_some_iff.mp hplay
  obtain ⟨h1, h2⟩ := Prod.mk.inj heq
  obtain ⟨v, hv⟩ := Option.isSome_iff_exists.mp h2
  have hreach : Reachable (fun s k => UserCall s k ∧ Few s k) readyVm s :=
    (reachable_play .init hrun).mono fun t k ht hk =>
      ⟨hk, ready_readyVm.few (by decide) rfl ht k⟩
  obtain ⟨-, s1, m, s', tables, -, -, hcall, -, -, -, hgone⟩ :=
    reachable_destroy (by decide) rfl ready_readyVm hreach hv fair
  exact ⟨s, s', hreach, h1, hcall, hgone⟩

end Alix.Vm
