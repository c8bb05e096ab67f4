/-
One address space by itself: its descriptors, and the tables its pages
use.

`Tidy` is what the calls on a range rely on: the list of descriptors is
sorted, disjoint and of whole pages, its addresses are canonical, and the
last-level table of a covered page is on no other path from the root. It
asks nothing of the frames that are mapped: they may be reserved, mapped
twice, or none the allocator knows. A space of a run is tidy
(`Ready.tidy`), because its lower half is a tree and the tables of the
kernel's half are the kernel's.

The loops of `vas_protect` and `vas_unmap` cut a range to each descriptor
it meets. Over a sorted list that is every covered page of the range.
-/
import Alix.Mm.Proofs.Rewrites
import Alix.Mm.Proofs.Destroy

namespace Alix

open Paging
open Radix
open Dyadic (Block)

-- ==== the invariant

/-- The descriptors of a space, and the tables its pages use. -/
structure Tidy (mem : Nat → Nat → Word) (v : Vas) : Prop where
  list : VadsOk v.list
  canonical : ∀ x ∈ v.list, x.stop ≤ 2 ^ 47 ∨ 2 ^ 64 - 2 ^ 47 ≤ x.start
  alone : ∀ va, Covers v.list va → Alone mem v.pml4 va

variable {l : List Vad} {v w : Vad} {start stop lo hi : Nat} {x : Nat}

theorem Tidy.covers {mem : Nat → Nat → Word} {v : Vas} (h : Tidy mem v)
    (hx : Covers v.list x) : Canonical x := by
  obtain ⟨w, hw, h1, h2⟩ := hx
  have hfit := (h.list.fits w hw).2.1
  unfold Canonical
  rcases h.canonical w hw with hlow | hhigh
  · omega
  · omega

/-- Descriptors are of whole pages. -/
theorem VadsOk.covers_page (h : VadsOk l) :
    Covers l (x / PAGE_SIZE * PAGE_SIZE) ↔ Covers l x := by
  have hs : PAGE_SIZE = 4096 := rfl
  unfold Covers
  refine exists_congr fun v => and_congr_right fun hv => ?_
  obtain ⟨-, -, h1, h2⟩ := h.fits v hv
  rw [hs] at h1 h2 ⊢
  omega

-- ==== the ranges

/-- A range of whole pages holds a page or nothing of it. -/
theorem range_page (h1 : start % PAGE_SIZE = 0) (h2 : stop % PAGE_SIZE = 0) :
    (start ≤ x / PAGE_SIZE * PAGE_SIZE ∧ x / PAGE_SIZE * PAGE_SIZE < stop)
      ↔ start ≤ x ∧ x < stop := by
  have hs : PAGE_SIZE = 4096 := rfl
  rw [hs] at h1 h2 ⊢
  omega

/-- The pages of a range that lie in descriptors. -/
def InRange (l : List Vad) (start stop : Nat) (n : Nat) : Prop :=
  Covers l (n * PAGE_SIZE) ∧ start ≤ n * PAGE_SIZE ∧ n * PAGE_SIZE < stop

theorem inRange_nil {n : Nat} : ¬ InRange [] start stop n := by
  intro h
  obtain ⟨v, hv, -⟩ := h.1
  cases hv

/-- A descriptor in front of the range. -/
theorem inRange_skip {n : Nat} (hle : v.stop ≤ start) :
    InRange l start stop n ↔ InRange (v :: l) start stop n := by
  unfold InRange
  rw [covers_cons]
  constructor
  · exact fun hn => ⟨Or.inr hn.1, hn.2⟩
  · exact fun hn => ⟨hn.1.resolve_left (by omega), hn.2⟩

/-- A descriptor that meets the range, and the others. -/
theorem inRange_cons {n : Nat} (hlo : lo = if v.start > start then v.start else start)
    (hhi : hi = if v.stop < stop then v.stop else stop) :
    ((lo ≤ n * PAGE_SIZE ∧ n * PAGE_SIZE < hi) ∨ InRange l start stop n)
      ↔ InRange (v :: l) start stop n := by
  unfold InRange
  rw [covers_cons, cut_iff hlo hhi]
  exact or_and_right.symm

/-- Behind the range. -/
theorem VadsOk.inRange_behind (h : VadsOk (v :: l)) (hge : ¬ v.start < stop) (n : Nat) :
    ¬ InRange (v :: l) start stop n := by
  intro hn
  have := h.behind (Nat.le_of_not_lt hge) hn.1
  have := hn.2.2
  omega

theorem VadsOk.inRange_page (h : VadsOk l) (h1 : start % PAGE_SIZE = 0)
    (h2 : stop % PAGE_SIZE = 0) :
    InRange l start stop (x / PAGE_SIZE) ↔ Covers l x ∧ start ≤ x ∧ x < stop := by
  unfold InRange
  rw [h.covers_page, range_page h1 h2]

/-- The part of a range that the loops go through in one descriptor: its
addresses are covered, and its pages can be changed. -/
theorem loopPages_cut {m : Mach} {r : Nat} (hv : VadsOk (v :: l))
    (hcanon : v.stop ≤ 2 ^ 47 ∨ 2 ^ 64 - 2 ^ 47 ≤ v.start)
    (halone : ∀ va, Covers (v :: l) va → Alone m.mem r va) (hstart : start % PAGE_SIZE = 0)
    (hlo : lo = if v.start > start then v.start else start)
    (hhi : hi = if v.stop < stop then v.stop else stop) :
    lo % PAGE_SIZE = 0 ∧ LoopPages m r (pages lo hi) := by
  have hs : PAGE_SIZE = 4096 := rfl
  have hfit := hv.fits v List.mem_cons_self
  have halign : lo % PAGE_SIZE = 0 := by
    rw [hlo]
    split
    · exact hfit.2.2.1
    · exact hstart
  refine ⟨halign, fun va hva => ?_⟩
  have hpage : Pages (pages lo hi) (va / PAGE_SIZE) := ⟨va, hva, rfl⟩
  have hva0 : va % PAGE_SIZE = 0 := by
    unfold pages at hva
    rw [List.mem_range'] at hva
    obtain ⟨i, -, rfl⟩ := hva
    rw [hs] at halign ⊢
    omega
  have hback : va / PAGE_SIZE * PAGE_SIZE = va := by
    rw [hs] at hva0 ⊢
    omega
  rw [pages_iff halign, hback, cut_iff hlo hhi] at hpage
  refine ⟨?_, hva0, halone va (covers_cons.mpr (Or.inl hpage.1))⟩
  unfold Canonical
  omega

-- ==== protecting

/-- What `vas_protect` makes of the flags of a descriptor. -/
def protectFlags (flags w : Word) : Word := (w &&& ~~~VAD_PROT_MASK) ||| flags

/-- What it makes of a descriptor. -/
def protectVad (start stop : Nat) (flags : Word) (w : Vad) : Vad :=
  if w.start < stop ∧ start < w.stop then { w with flags := protectFlags flags w.flags } else w

theorem protectVad_bounds (start stop : Nat) (flags : Word) (w : Vad) :
    (protectVad start stop flags w).start = w.start
      ∧ (protectVad start stop flags w).stop = w.stop := by
  unfold protectVad
  split
  · exact ⟨rfl, rfl⟩
  · exact ⟨rfl, rfl⟩

theorem vasFind_protect (start stop : Nat) (flags : Word) (l : List Vad) (x : Nat) :
    vasFind (l.map (protectVad start stop flags)) x
      = (vasFind l x).map (protectVad start stop flags) := by
  induction l with
  | nil => rfl
  | cons v l ih =>
      obtain ⟨h1, h2⟩ := protectVad_bounds start stop flags v
      rw [List.map_cons]
      unfold vasFind
      rw [h1, h2, ih]
      split
      · rfl
      · rfl

theorem covers_protect (start stop : Nat) (flags : Word) (l : List Vad) (x : Nat) :
    Covers (l.map (protectVad start stop flags)) x ↔ Covers l x := by
  unfold Covers
  constructor
  · intro h
    obtain ⟨w, hw, hx⟩ := h
    obtain ⟨v, hv, rfl⟩ := List.mem_map.mp hw
    obtain ⟨h1, h2⟩ := protectVad_bounds start stop flags v
    rw [h1, h2] at hx
    exact ⟨v, hv, hx⟩
  · intro h
    obtain ⟨v, hv, hx⟩ := h
    obtain ⟨h1, h2⟩ := protectVad_bounds start stop flags v
    exact ⟨_, List.mem_map_of_mem hv, by rw [h1, h2]; exact hx⟩

/-- It makes nothing of descriptors behind the range. -/
theorem VadsOk.protect_behind (hok : VadsOk (v :: l)) (hge : ¬ v.start < stop) (flags : Word) :
    (v :: l).map (protectVad start stop flags) = v :: l := by
  refine (List.map_congr_left fun x hx => ?_).trans (List.map_id _)
  refine if_neg fun e => ?_
  have := (hok.fits x hx).1
  have := hok.behind (Nat.le_of_not_lt hge) ⟨x, hx, Nat.le_refl _, this⟩
  omega

variable (stop) in
/-- The loop of `vas_protect`: every covered page of the range gets the
flags, and so does every descriptor that meets it. -/
theorem protectVads_spec {m : Mach} {r : Nat} (hok : VadsOk l)
    (hcanon : ∀ x ∈ l, x.stop ≤ 2 ^ 47 ∨ 2 ^ 64 - 2 ^ 47 ≤ x.start)
    (halone : ∀ va, Covers l va → Alone m.mem r va) (hstart : start % PAGE_SIZE = 0)
    (flags : Word) :
    ∃ m', Machine.protectVads r start stop flags l m
        = (m', l.map (protectVad start stop flags), 0)
      ∧ m'.pmm = m.pmm ∧ Rewrites r (InRange l start stop) (reflag flags) m m' := by
  induction l generalizing m with
  | nil => exact ⟨m, rfl, rfl, Rewrites.empty fun n hn => inRange_nil hn⟩
  | cons v l ih =>
      have hcanon' : ∀ x ∈ l, x.stop ≤ 2 ^ 47 ∨ 2 ^ 64 - 2 ^ 47 ≤ x.start := fun x hx =>
        hcanon x (List.mem_cons_of_mem _ hx)
      have hrest : ∀ va, Covers l va → Alone m.mem r va := fun va hva =>
        halone va (covers_cons.mpr (Or.inr hva))
      rw [List.map_cons]
      unfold Machine.protectVads
      split
      · rename_i hlt
        split
        · rename_i hle
          obtain ⟨m', hrun, hpmm, h'⟩ := ih hok.tail hcanon' hrest
          have hsame : protectVad start stop flags v = v := if_neg fun e => by omega
          rw [hrun, hsame]
          exact ⟨m', rfl, hpmm, h'.congr fun n => inRange_skip hle⟩
        · rename_i hgt
          simp only
          generalize hlo : (if v.start > start then v.start else start) = lo
          generalize hhi : (if v.stop < stop then v.stop else stop) = hi
          obtain ⟨halign, hloop⟩ := loopPages_cut hok (hcanon v List.mem_cons_self) halone
            hstart hlo.symm hhi.symm
          obtain ⟨m1, hre, hpmm1, h1⟩ := rewrites_remapPages flags hloop
          obtain ⟨m', hrun, hpmm, h'⟩ :=
            ih hok.tail hcanon' fun va hva => h1.alone (hrest va hva)
          have hnew : protectVad start stop flags v
              = { v with flags := (v.flags &&& ~~~VAD_PROT_MASK) ||| flags } :=
            if_pos ⟨hlt, Nat.lt_of_not_le hgt⟩
          simp only [hre, ne_eq, not_true_eq_false, if_false, hrun, hnew]
          refine ⟨m', rfl, hpmm.trans hpmm1, ?_⟩
          exact ((h1.congr fun n => pages_iff halign).trans h' (reflag_reflag flags)).congr
            fun n => inRange_cons hlo.symm hhi.symm
      · rename_i hge
        rw [← List.map_cons, hok.protect_behind hge]
        exact ⟨m, rfl, rfl, Rewrites.empty (hok.inRange_behind hge)⟩

-- ==== the upper half

/-- A page of the lower half has its last-level table by itself, where the
tables of the upper half are none of the lower. -/
theorem alone_of_apart {m : Mach} {R : Nat → Prop} {r va : Nat}
    (hf : Forest (child m.mem) R Lower) (hr : R r) (hva : va < 2 ^ 47)
    (hup : ∀ p f, p ≠ [] → Vm.Upper p → walk (child m.mem) r p = some f → ¬ Table m R f) :
    Alone m.mem r va := by
  intro pt p hw hp hwp
  by_cases hlow : Lower p
  · exact (hf.sep hr hr hlow (lower_tablePath hva) hwp hw).2
  · have hne : p ≠ [] := by
      rintro rfl
      exact hlow lower_owned.nil
    have hhigh : ∀ i ∈ p.head?, 256 ≤ i := by
      intro i hi
      by_contra hlt
      refine hlow ⟨hp.1, fun j hj => ?_⟩
      rw [Option.mem_def] at hi hj
      rw [hi] at hj
      cases hj
      omega
    exact (hup p pt hne ⟨hp.1, hhigh, hp.2⟩ hwp ⟨r, _, hr, lower_tablePath hva, hw⟩).elim

-- ==== the runs

namespace Vm

variable {maxPfn : Nat} {usable : Nat → Bool} {blocks : List Block} {Q : Word → Prop}
  {s s₀ : Vm} {V : View} {a : Nat} {v : Vas}

/-- The tables of the kernel half are none of the lower half's. -/
theorem Spaces.upper_apart (h : Spaces maxPfn usable (s₀.outside blocks) Q s V)
    (h₀ : Ready maxPfn usable blocks s₀) {t f : Nat} {p : List Nat} (ht : s.Roots t)
    (hne : p ≠ []) (hp : Upper p) (hw : walk (child s.mach.mem) t p = some f) :
    Pmm.Allocated blocks f ∧ ¬ Table s.mach s.Roots f := by
  obtain ⟨k, hk, -, -⟩ := h.settled
  have hkernel := h.kernelHalf h₀ (Or.inl ht) ⟨p, hne, hp, hw⟩
  exact ⟨hkernel, fun htable => hk.own_outside (hk.table_own htable) hkernel⟩

/-- The lower half of a root is a tree. -/
theorem Spaces.alone (h : Spaces maxPfn usable (s₀.outside blocks) Q s V)
    (h₀ : Ready maxPfn usable blocks s₀) (hv : s.spaces a = some v) {va : Nat}
    (hva : va < 2 ^ 47) : Alone s.mach.mem v.pml4 va := by
  obtain ⟨k, hk, -, -⟩ := h.settled
  have hroot : s.Roots v.pml4 := ⟨a, v, hv, rfl⟩
  exact alone_of_apart hk.forest hroot hva fun p f hne hp hw =>
    (h.upper_apart h₀ hroot hne hp hw).2

theorem Spaces.tidy (h : Spaces maxPfn usable (s₀.outside blocks) Q s V)
    (h₀ : Ready maxPfn usable blocks s₀) (hv : s.spaces a = some v) : Tidy s.mach.mem v where
  list := h.lists a v hv
  canonical := fun x hx => Or.inl (h.user a v hv x hx).1
  alone := fun va hva => by
    obtain ⟨x, hx, -, hlt⟩ := hva
    have := (h.user a v hv x hx).1
    exact h.alone h₀ hv (by omega)

/-- Every space of a run is tidy. -/
theorem Ready.tidy (hmax : maxPfn < 2 ^ 40) (hzero : usable 0 = false)
    (h₀ : Ready maxPfn usable blocks s₀) (h : Reachable UserCall s₀ s)
    (hv : s.spaces a = some v) : Tidy s.mach.mem v := by
  obtain ⟨V, hs, -⟩ := h₀.reachable hmax hzero h
  exact hs.tidy h₀ hv

end Vm

end Alix
