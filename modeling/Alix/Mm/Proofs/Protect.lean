/-
`vas_protect` on a range of whole pages.

# What can go wrong

The loop changes the entries page by page, for the pages of the range, and
the flags of a descriptor as a whole. A range that covers only part of a
descriptor leaves the two out of step: outside the range the entries keep
their flags, but the descriptor says the new ones, and `vas_clone` and
`vas_handle_page_fault` go by the descriptor.

# What holds

Everything inside the range, and everything but the descriptors' flags
outside of it: the entries, the translations, the covered addresses and
the whole allocator stay (`vasProtect_iff`). The descriptors' flags stay
outside the range exactly when each descriptor that meets it lies inside
or had these flags before.
-/
import Alix.Mm.Proofs.Tidy

namespace Alix

open Paging
open Dyadic (Block)

-- ==== the statement

/-- The protection bits of the descriptor of an address. -/
def protAt (l : List Vad) (x : Nat) : Option Word :=
  (vasFind l x).map fun w => w.flags &&& VAD_PROT_MASK

/-- The address is mapped; a page at address 0 reads as an unmapped one. -/
def MappedAt (m : Mach) (r x : Nat) : Prop :=
  pagingVirtToPhys Pmm.pmmAllocPage m (some r) (pageAlignDown x) ≠ 0

/-- The flags of the range are the new ones, in the descriptors and in the
entries, where being present is always among them; everything else is as
it was. -/
structure Protected (v v' : Vas) (m m' : Mach) (start stop : Nat) (flags : Word) : Prop where
  inside : ∀ x, start ≤ x → x < stop → Covers v.list x →
    protAt v'.list x = some (flags &&& VAD_PROT_MASK)
  entries : ∀ x, start ≤ x → x < stop → Covers v.list x → MappedAt m v.pml4 x →
    pagingGetFlags Pmm.pmmAllocPage m' (some v.pml4) x
      = PAGE_PRESENT ||| (flags &&& VAD_PROT_MASK)
  outside : ∀ x, ¬ (start ≤ x ∧ x < stop) → protAt v'.list x = protAt v.list x
  kept : ∀ x, Canonical x → ¬ (start ≤ x ∧ x < stop) →
    pagingGetFlags Pmm.pmmAllocPage m' (some v.pml4) x
      = pagingGetFlags Pmm.pmmAllocPage m (some v.pml4) x
  phys : ∀ x, Canonical x → pagingVirtToPhys Pmm.pmmAllocPage m' (some v.pml4) x
    = pagingVirtToPhys Pmm.pmmAllocPage m (some v.pml4) x
  covers : ∀ x, Covers v'.list x ↔ Covers v.list x
  pmm : m'.pmm = m.pmm

variable {m m' : Mach} {r x : Nat} {v : Vas} {start stop : Nat} {flags w : Word}

-- ==== the words

theorem virtToPhys_congr (h : leaf m'.mem r x = leaf m.mem r x) :
    pagingVirtToPhys Pmm.pmmAllocPage m' (some r) x
      = pagingVirtToPhys Pmm.pmmAllocPage m (some r) x := by
  rw [pagingVirtToPhys_eq, pagingVirtToPhys_eq, h]

theorem getFlags_congr (h : leaf m'.mem r x = leaf m.mem r x) :
    pagingGetFlags Pmm.pmmAllocPage m' (some r) x
      = pagingGetFlags Pmm.pmmAllocPage m (some r) x := by
  rw [pagingGetFlags_eq, pagingGetFlags_eq, h]

/-- New flags do not move a page. -/
theorem virtToPhys_reflag (h : leaf m'.mem r x = reflag flags (leaf m.mem r x)) :
    pagingVirtToPhys Pmm.pmmAllocPage m' (some r) x
      = pagingVirtToPhys Pmm.pmmAllocPage m (some r) x := by
  by_cases hsome : (frameOf (leaf m.mem r x)).isSome
  · obtain ⟨hp, -⟩ := frameOf_isSome.mp hsome
    have hp' : hasFlag (leaf m'.mem r x) PAGE_PRESENT = true := by
      rw [h]
      exact (frameOf_isSome.mp (by rw [frameOf_reflag]; exact hsome)).1
    rw [pagingVirtToPhys_eq, pagingVirtToPhys_eq, if_pos hp, if_pos hp', h]
    unfold reflag
    rw [if_pos hsome, addr_flags]
  · refine virtToPhys_congr ?_
    rw [h]
    exact if_neg hsome

theorem getFlags_reflag (hsome : (frameOf (leaf m.mem r x)).isSome)
    (h : leaf m'.mem r x = reflag flags (leaf m.mem r x)) :
    pagingGetFlags Pmm.pmmAllocPage m' (some r) x = PAGE_PRESENT ||| (flags &&& PTE_FLAGS) := by
  have hp' : hasFlag (leaf m'.mem r x) PAGE_PRESENT = true := by
    rw [h]
    exact (frameOf_isSome.mp (by rw [frameOf_reflag]; exact hsome)).1
  rw [pagingGetFlags_eq, if_pos hp', h]
  unfold reflag
  rw [if_pos hsome, ← pte_toNat, pte_flags]

/-- The entry of the page of an address. -/
theorem mappedAt_iff : MappedAt m r x ↔ (frameOf (leaf m.mem r x)).isSome := by
  have hs : PAGE_SIZE = 4096 := rfl
  have hword : leaf m.mem r (pageAlignDown x) = leaf m.mem r x := by
    rw [leaf_page, leaf_page m.mem r x]
    have : pageAlignDown x / PAGE_SIZE = x / PAGE_SIZE := by
      show x / 4096 * 4096 / 4096 = x / 4096
      omega
    rw [this]
  unfold MappedAt
  rw [virtToPhys_page m r (pageAlignDown_mod x), hword]
  cases hf : frameOf (leaf m.mem r x) with
  | none => simp
  | some f => simpa using (frameOf_some hf).2

/-- The protection bits are those of the entries, and being present. -/
theorem prot_pte (flags : Word) :
    PAGE_PRESENT ||| (flags &&& VAD_PROT_MASK &&& PTE_FLAGS)
      = PAGE_PRESENT ||| (flags &&& VAD_PROT_MASK) := by
  have hmask : VAD_PROT_MASK = PAGE_PRESENT ||| PTE_FLAGS := by decide
  have hin : VAD_PROT_MASK &&& PTE_FLAGS = PTE_FLAGS := by decide
  rw [BitVec.and_assoc, hin, hmask]
  apply BitVec.eq_of_getLsbD_eq
  intro i _
  simp only [BitVec.getLsbD_or, BitVec.getLsbD_and, Bool.and_or_distrib_left]
  cases flags.getLsbD i <;> cases PAGE_PRESENT.getLsbD i <;> rfl

theorem protectFlags_prot (flags w : Word) :
    protectFlags (flags &&& VAD_PROT_MASK) w &&& VAD_PROT_MASK = flags &&& VAD_PROT_MASK := by
  have hout : ~~~VAD_PROT_MASK &&& VAD_PROT_MASK = 0 := by decide
  unfold protectFlags
  rw [and_or_distrib, BitVec.and_assoc, hout, BitVec.and_assoc, BitVec.and_self]
  simp

-- ==== the call

/-- The descriptor of an address after `vas_protect`. -/
theorem protAt_protect (l : List Vad) (x : Nat) :
    protAt (l.map (protectVad start stop (flags &&& VAD_PROT_MASK))) x
      = (vasFind l x).map fun u => if u.start < stop ∧ start < u.stop
          then flags &&& VAD_PROT_MASK else u.flags &&& VAD_PROT_MASK := by
  unfold protAt
  rw [vasFind_protect, Option.map_map]
  refine congrFun (congrArg Option.map (funext fun u => ?_)) _
  show (protectVad start stop (flags &&& VAD_PROT_MASK) u).flags &&& VAD_PROT_MASK = _
  unfold protectVad
  split
  · exact protectFlags_prot flags u.flags
  · rfl

/-- The descriptors' flags stay outside the range exactly when each
descriptor that meets it lies inside, or had these flags. -/
theorem VadsOk.protect_outside {l : List Vad} (h : VadsOk l) :
    (∀ x, ¬ (start ≤ x ∧ x < stop) →
        protAt (l.map (protectVad start stop (flags &&& VAD_PROT_MASK))) x = protAt l x)
      ↔ ∀ u ∈ l, u.start < stop → start < u.stop → (start ≤ u.start ∧ u.stop ≤ stop)
        ∨ u.flags &&& VAD_PROT_MASK = flags &&& VAD_PROT_MASK := by
  constructor
  · intro hout u hu h1 h2
    by_contra hc
    rw [not_or] at hc
    have hfit := h.fits u hu
    -- an address of the descriptor that is not in the range
    obtain ⟨x, hx, hnot⟩ : ∃ x, (u.start ≤ x ∧ x < u.stop) ∧ ¬ (start ≤ x ∧ x < stop) := by
      by_cases hleft : u.start < start
      · exact ⟨u.start, by omega, by omega⟩
      · exact ⟨stop, by omega, by omega⟩
    have hfind := h.find.mpr ⟨hu, hx⟩
    have hsame := hout x hnot
    rw [protAt_protect, protAt, hfind, Option.map_some, Option.map_some, if_pos ⟨h1, h2⟩] at hsame
    exact hc.2 (Option.some.inj hsame).symm
  · intro hall x hnot
    rw [protAt_protect, protAt]
    cases hfind : vasFind l x with
    | none => rfl
    | some u =>
        obtain ⟨hu, h1, h2⟩ := h.find.mp hfind
        rw [Option.map_some, Option.map_some]
        split
        · rename_i hmeet
          rcases hall u hu hmeet.1 hmeet.2 with hin | hsame
          · omega
          · rw [hsame]
        · rfl

namespace Vm

variable {s : Vm} {a : Nat}

/-- The call on whole pages: it never fails, the covered pages of the
range get the flags, and so do the descriptors that meet it. -/
theorem vasProtect_run (hv : s.spaces a = some v) (ht : Tidy s.mach.mem v)
    (start length : Nat) (newFlags : Word) (hstart : start % PAGE_SIZE = 0)
    (hlength : length % PAGE_SIZE = 0) (hpos : 0 < length) (hwrap : start + length < 2 ^ 64) :
    ∃ m', s.vasProtect a start length newFlags
        = ({ s with mach := m' }.setSpace a (some ⟨v.pml4, v.list.map (protectVad start
          (start + length) (newFlags &&& VAD_PROT_MASK)), v.userStart⟩), 0)
      ∧ m'.pmm = s.mach.pmm
      ∧ Rewrites v.pml4 (InRange v.list start (start + length))
        (reflag (newFlags &&& VAD_PROT_MASK)) s.mach m' := by
  have hs : PAGE_SIZE = 4096 := rfl
  have hdown : pageAlignDown start = start := by
    show start / 4096 * 4096 = start
    rw [hs] at hstart
    omega
  have hup : pageAlignUp length = length := pageAlignUp_of_aligned hlength (by omega)
  obtain ⟨m', hrun, hpmm, hw⟩ := protectVads_spec (start + length) ht.list ht.canonical
    ht.alone hstart (newFlags &&& VAD_PROT_MASK)
  refine ⟨m', ?_, hpmm, hw⟩
  unfold vasProtect
  simp only [hv, if_neg (Nat.ne_of_gt hpos), hdown, hup, Nat.mod_eq_of_lt hwrap, hrun]

/-- `vas_protect` does what it should exactly when each descriptor that
meets the range lies inside it or has the new protection bits already. -/
theorem vasProtect_iff (hv : s.spaces a = some v) (ht : Tidy s.mach.mem v)
    (start length : Nat) (newFlags : Word) (hstart : start % PAGE_SIZE = 0)
    (hlength : length % PAGE_SIZE = 0) (hpos : 0 < length) (hwrap : start + length < 2 ^ 64) :
    ∃ m' v', s.vasProtect a start length newFlags
        = ({ s with mach := m' }.setSpace a (some v'), 0)
      ∧ v'.pml4 = v.pml4 ∧ v'.userStart = v.userStart
      ∧ (Protected v v' s.mach m' start (start + length) newFlags
        ↔ ∀ u ∈ v.list, u.start < start + length → start < u.stop →
          (start ≤ u.start ∧ u.stop ≤ start + length)
          ∨ u.flags &&& VAD_PROT_MASK = newFlags &&& VAD_PROT_MASK) := by
  have hs : PAGE_SIZE = 4096 := rfl
  have hstop : (start + length) % PAGE_SIZE = 0 := by
    rw [hs] at hstart hlength ⊢
    omega
  obtain ⟨m', hrun, hpmm, hw⟩ := vasProtect_run hv ht start length newFlags hstart hlength
    hpos hwrap
  refine ⟨m', _, hrun, rfl, rfl, ?_⟩
  rw [← ht.list.protect_outside]
  refine ⟨fun h => h.outside, fun hout => ?_⟩
  have hpage : ∀ x, InRange v.list start (start + length) (x / PAGE_SIZE)
      ↔ Covers v.list x ∧ start ≤ x ∧ x < start + length := fun x =>
    ht.list.inRange_page hstart hstop
  refine ⟨fun x h1 h2 hx => ?_, fun x h1 h2 hx hm => ?_, hout, fun x hc hnot => ?_,
    fun x hc => ?_, covers_protect _ _ _ _, hpmm⟩
  · obtain ⟨u, hu, hin⟩ := hx
    rw [protAt_protect, ht.list.find.mpr ⟨hu, hin⟩, Option.map_some,
      if_pos ⟨by omega, by omega⟩]
  · rw [getFlags_reflag (mappedAt_iff.mp hm)
      (hw.inside x (ht.covers hx) ((hpage x).mpr ⟨hx, h1, h2⟩))]
    exact prot_pte newFlags
  · exact getFlags_congr (hw.outside x hc fun hn => hnot ((hpage x).mp hn).2)
  · by_cases hn : InRange v.list start (start + length) (x / PAGE_SIZE)
    · exact virtToPhys_reflag (hw.inside x hc hn)
    · exact virtToPhys_congr (hw.outside x hc hn)

/-- A run that leaves a space with one descriptor of two writable pages. -/
theorem reachable_twoPages : ∃ s v, Reachable UserCall bootVm s ∧ s.spaces 0 = some v
    ∧ v.list = [⟨0x5000, 0x7000, 0x5002⟩] ∧ Tidy s.mach.mem v := by
  have hplay : (play UserCall bootVm [(fair, .create none),
      (fair, .mapAnon 0 0x5000 0x2000 PAGE_WRITE)]).map (fun s => (s.spaces 0).map Vas.list)
      = some (some [⟨0x5000, 0x7000, 0x5002⟩]) := by
    decide +kernel
  obtain ⟨s, hrun, heq⟩ := Option.map_eq_some_iff.mp hplay
  obtain ⟨v, hv, hlist⟩ := Option.map_eq_some_iff.mp heq
  have hreach := reachable_play .init hrun
  exact ⟨s, v, hreach, hv, hlist, bootVm_ready.tidy (by decide) rfl hreach hv⟩

/-- Both pages are made read-only. -/
theorem vasProtect_twoPages : ∃ (s : Vm) (v : Vas) (m' : Mach) (v' : Vas),
    s.spaces 0 = some v
    ∧ s.vasProtect 0 0x5000 0x2000 0 = ({ s with mach := m' }.setSpace 0 (some v'), 0)
    ∧ Protected v v' s.mach m' 0x5000 0x7000 0 := by
  obtain ⟨s, v, -, hv, hlist, ht⟩ := reachable_twoPages
  obtain ⟨m', v', hrun, -, -, hiff⟩ := vasProtect_iff hv ht 0x5000 0x2000 0 (by decide)
    (by decide) (by decide) (by decide)
  refine ⟨s, v, m', v', hv, hrun, hiff.mpr fun u hu _ _ => Or.inl ?_⟩
  rw [hlist] at hu
  rw [List.mem_singleton.mp hu]
  decide

/-- The first of the two pages is made read-only, and the descriptor says
so of the second one too. -/
theorem vasProtect_half : ∃ (s : Vm) (v : Vas) (m' : Mach) (v' : Vas),
    Reachable UserCall bootVm s ∧ s.spaces 0 = some v
    ∧ s.vasProtect 0 0x5000 0x1000 0 = ({ s with mach := m' }.setSpace 0 (some v'), 0)
    ∧ protAt v.list 0x6000 = some PAGE_WRITE ∧ protAt v'.list 0x6000 = some 0
    ∧ ¬ Protected v v' s.mach m' 0x5000 0x6000 0 := by
  obtain ⟨s, v, hreach, hv, hlist, ht⟩ := reachable_twoPages
  obtain ⟨m', hrun, -⟩ := vasProtect_run hv ht 0x5000 0x1000 0 (by decide) (by decide)
    (by decide) (by decide)
  rw [hlist] at hrun
  have hold : protAt v.list 0x6000 = some PAGE_WRITE := by
    rw [hlist]
    decide
  have hnew : protAt ([⟨0x5000, 0x7000, 0x5002⟩].map
      (protectVad 0x5000 (0x5000 + 0x1000) (0 &&& VAD_PROT_MASK))) 0x6000 = some 0 := by
    decide
  refine ⟨s, v, m', _, hreach, hv, hrun, hold, hnew, fun h => ?_⟩
  have hsame := (h.outside 0x6000 (by decide)).symm.trans hnew
  rw [hold] at hsame
  cases hsame

end Vm

end Alix
