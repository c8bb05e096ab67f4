/-
The check before the kernel touches user memory.

# What goes wrong

`vas_user_access_ok` asks whether a page is present and, for a write,
whether it is writable. It never asks whether it is the user's: a page of
the lower half without `PAGE_USER` passes, and the kernel reads or writes
it on behalf of a program that may not (`accessOk_supervisor`).

# What holds

Every page that the range touches lies in the user half, is present when
the call returns, and is writable if that was asked for, although the scan
itself rewrites entries. A page is the user's at the end exactly when its
entry said so before, or, where the scan resolved a write fault, when its
descriptor does (`vasUserAccessOk_iff`).
-/
import Alix.Mm.Proofs.Fault

namespace Alix

open Paging
open Radix
open Dyadic (Block)
open Pmm (Ledger Usable Allocated)

variable {maxPfn : Nat} {usable : Nat → Bool} {out : List Block} {ref : Nat → Nat}
  {R : Nat → Prop} {m m' : Mach} {r va : Nat} {flags : Word} {v : Vas} {write : Bool}

-- ==== the statement

/-- The pages that the bytes of a range are in. -/
def Touches (addr len va : Nat) : Prop :=
  va % PAGE_SIZE = 0 ∧ va < addr + len ∧ addr < va + PAGE_SIZE

/-- What the kernel takes for granted of a page after the check. -/
structure Accessible (m : Mach) (r : Nat) (write : Bool) (va : Nat) : Prop where
  low : VAS_USER_START ≤ va
  high : va < VAS_USER_END
  present : hasFlag (pagingGetFlags Pmm.pmmAllocPage m (some r) va) PAGE_PRESENT = true
  user : hasFlag (pagingGetFlags Pmm.pmmAllocPage m (some r) va) PAGE_USER = true
  write : write = true →
    hasFlag (pagingGetFlags Pmm.pmmAllocPage m (some r) va) PAGE_WRITE = true

/-- Whether a page is the user's: its entry says it, or its descriptor,
where the entry will be made anew. -/
def userPage (m : Mach) (v : Vas) (write : Bool) (va : Nat) : Bool :=
  let flags := pagingGetFlags Pmm.pmmAllocPage m (some v.pml4) va
  if write && !hasFlag flags PAGE_WRITE then
    match vasFind v.list va with
    | none => false
    | some w => hasFlag w.flags PAGE_USER
  else hasFlag flags PAGE_USER

-- ==== the scan

/-- The flags of a page that has just been mapped. -/
theorem flags_user {w : Word} {phys : Nat}
    (h : leaf m.mem r va = pte phys (w &&& VAD_PROT_MASK)) :
    hasFlag (pagingGetFlags Pmm.pmmAllocPage m (some r) va) PAGE_USER = hasFlag w PAGE_USER := by
  have hpresent : PAGE_PRESENT.getLsbD 2 = false := by decide
  have hprot : VAD_PROT_MASK.getLsbD 2 = true := by decide
  have hkeep : PTE_FLAGS.getLsbD 2 = true := by decide
  rw [pagingGetFlags_eq, h, if_pos (pte_present _ _), pte_flags, hasFlag_pageBit _ (by decide),
    hasFlag_pageBit _ (by decide), BitVec.getLsbD_or, BitVec.getLsbD_and, BitVec.getLsbD_and,
    hpresent, hprot, hkeep, Bool.false_or, Bool.and_true, Bool.and_true]

theorem userPage_congr (h : leaf m'.mem v.pml4 va = leaf m.mem v.pml4 va) :
    userPage m' v write va = userPage m v write va := by
  unfold userPage
  rw [getFlags_congr h]

section scan

variable (hmax : maxPfn < 2 ^ 40) (hzero : usable 0 = false)

include hmax hzero

/-- One round of the loop: the page is fine as it is, or its write fault is
resolved. -/
theorem Firm.accessPage (h : Firm maxPfn usable R out ref m) (hr : R v.pml4)
    (hlow : ∀ w ∈ v.list, w.stop ≤ 2 ^ 47) (hv : va < 2 ^ 47) (ha : va % PAGE_SIZE = 0)
    {vas : List Nat} (hcall : Machine.accessPages v write (va :: vas) m = .ok (m', 0)) :
    ∃ m₁ out₁ ref₁, Firm maxPfn usable R out₁ ref₁ m₁
      ∧ Machine.accessPages v write vas m₁ = .ok (m', 0)
      ∧ (∀ u, u < 2 ^ 47 → u / PAGE_SIZE ≠ va / PAGE_SIZE →
        leaf m₁.mem v.pml4 u = leaf m.mem v.pml4 u)
      ∧ hasFlag (pagingGetFlags Pmm.pmmAllocPage m₁ (some v.pml4) va) PAGE_PRESENT = true
      ∧ (write = true →
        hasFlag (pagingGetFlags Pmm.pmmAllocPage m₁ (some v.pml4) va) PAGE_WRITE = true)
      ∧ hasFlag (pagingGetFlags Pmm.pmmAllocPage m₁ (some v.pml4) va) PAGE_USER
        = userPage m v write va := by
  have hdown : pageAlignDown va = va := by
    have hs : PAGE_SIZE = 4096 := rfl
    unfold pageAlignDown
    rw [hs] at ha ⊢
    omega
  unfold Machine.accessPages at hcall
  simp only at hcall
  split at hcall
  · cases hcall
  rename_i hpresent
  rw [Bool.not_eq_true', Bool.not_eq_false] at hpresent
  split at hcall
  · -- not writable
    rename_i hfault
    rcases h.handled hmax hzero hr hlow va 0x3 with hrefused | ⟨m₁, w, f, g, hfixed, hm, hd⟩
    · rw [hrefused] at hcall
      cases hcall
    rw [hfixed] at hcall
    simp only [ne_eq, not_true_eq_false, if_false] at hcall
    rw [hdown] at hm hd
    split at hcall
    · cases hcall
    rename_i hnow
    rw [Bool.or_eq_true, not_or, Bool.not_eq_true', Bool.not_eq_false, Bool.not_eq_true',
      Bool.not_eq_false] at hnow
    have hword := hd.entry v.pml4 va hr (Or.inl hv)
    rw [if_pos ⟨rfl, rfl⟩] at hword
    obtain ⟨out₁, ref₁, h₁⟩ := hd.firm
    refine ⟨m₁, out₁, ref₁, h₁, hcall, fun u hu hne => ?_, hnow.1, fun _ => hnow.2, ?_⟩
    · rw [hd.entry v.pml4 u hr (Or.inl hu), if_neg fun e => hne e.2]
    · rw [flags_user hword]
      unfold userPage
      simp only [hfault, if_true, hm.find]
  · rename_i hfine
    refine ⟨m, out, ref, h, hcall, fun _ _ _ => rfl, hpresent, fun hw => ?_, ?_⟩
    · simpa [hw] using hfine
    · unfold userPage
      simp only [hfine, Bool.false_eq_true, if_false]

/-- The loop of `vas_user_access_ok`. An accepted page is present, and
writable if that was asked for, and its user bit is the one it had or the
one of its descriptor. -/
theorem Firm.accessPages (hr : R v.pml4) (hlow : ∀ w ∈ v.list, w.stop ≤ 2 ^ 47)
    {vas : List Nat} (hvas : LowerPages vas)
    (hdist : vas.Pairwise fun v w => v / PAGE_SIZE ≠ w / PAGE_SIZE)
    (h : Firm maxPfn usable R out ref m)
    (hcall : Machine.accessPages v write vas m = .ok (m', 0)) :
    (∀ u, u < 2 ^ 47 → ¬ Pages vas (u / PAGE_SIZE) → leaf m'.mem v.pml4 u = leaf m.mem v.pml4 u)
      ∧ ∀ va ∈ vas,
        hasFlag (pagingGetFlags Pmm.pmmAllocPage m' (some v.pml4) va) PAGE_PRESENT = true
        ∧ (write = true →
          hasFlag (pagingGetFlags Pmm.pmmAllocPage m' (some v.pml4) va) PAGE_WRITE = true)
        ∧ hasFlag (pagingGetFlags Pmm.pmmAllocPage m' (some v.pml4) va) PAGE_USER
          = userPage m v write va := by
  induction vas generalizing m out ref with
  | nil =>
      cases hcall
      exact ⟨fun _ _ _ => rfl, fun va hva => (by cases hva)⟩
  | cons va vas ih =>
      obtain ⟨hv, ha⟩ := hvas va List.mem_cons_self
      obtain ⟨hd, hdist'⟩ := List.pairwise_cons.mp hdist
      have hhead : ¬ Pages vas (va / PAGE_SIZE) := by
        rintro ⟨x, hx, he⟩
        exact hd x hx he.symm
      obtain ⟨m₁, out₁, ref₁, h₁, hrest, hother, hp, hw, hu⟩ :=
        h.accessPage hmax hzero hr hlow hv ha hcall
      obtain ⟨hout, hall⟩ := ih (fun x hx => hvas x (List.mem_cons_of_mem _ hx)) hdist' h₁ hrest
      refine ⟨fun u hlt hu => ?_, fun x hx => ?_⟩
      · rw [pages_cons, not_or] at hu
        rw [hout u hlt hu.2, hother u hlt fun e => hu.1 e.symm]
      · rcases List.mem_cons.mp hx with rfl | hx
        · rw [getFlags_congr (hout x hv hhead)]
          exact ⟨hp, hw, hu⟩
        · -- the entry was not touched by the round before
          have hlt := (hvas x (List.mem_cons_of_mem _ hx)).1
          rw [← userPage_congr (hother x hlt (hd x hx).symm)]
          exact hall x hx

end scan

-- ==== the result

/-- The scan goes over the pages that the range touches. -/
theorem mem_pages_touched {addr len : Nat} (hend : addr + len ≤ VAS_USER_END) (hpos : 0 < len) :
    va ∈ pages (pageAlignDown addr) (pageAlignUp ((addr + len) % 2 ^ 64))
      ↔ Touches addr len va := by
  have hs : PAGE_SIZE = 4096 := rfl
  have hu : VAS_USER_END = 0x00007FFFFFFFFFFF := rfl
  unfold Touches pages pageAlignUp pageAlignDown
  rw [List.mem_range', hs]
  rw [hu] at hend
  constructor
  · intro h
    obtain ⟨i, hi, rfl⟩ := h
    omega
  · intro h
    exact ⟨va / 4096 - addr / 4096, by omega, by omega⟩

/-- After the check has accepted a range, every page it touches is what the
kernel takes it for exactly when every page was the user's. -/
theorem vasUserAccessOk_iff (hmax : maxPfn < 2 ^ 40) (hzero : usable 0 = false)
    (h : Firm maxPfn usable R out ref m) (hr : R v.pml4)
    (hlow : ∀ w ∈ v.list, w.stop ≤ 2 ^ 47) {addr len : Nat} (hpos : 0 < len)
    (hcall : m.vasUserAccessOk v addr len write = .ok (m', 0)) :
    (∀ va, Touches addr len va → Accessible m' v.pml4 write va)
      ↔ ∀ va, Touches addr len va → userPage m v write va = true := by
  have hs : PAGE_SIZE = 4096 := rfl
  have hend : VAS_USER_END = 0x00007FFFFFFFFFFF := rfl
  have hstart : VAS_USER_START = 0x1000 := rfl
  unfold Machine.vasUserAccessOk at hcall
  split at hcall
  · cases hcall
  rename_i hin
  split at hcall
  · cases hcall
  rename_i hfit
  rw [if_neg (by omega)] at hcall
  have hdown : pageAlignDown addr % PAGE_SIZE = 0 := Nat.mul_mod_left _ _
  have hup : pageAlignUp ((addr + len) % 2 ^ 64) ≤ 2 ^ 47 := by
    unfold pageAlignUp pageAlignDown
    rw [hs]
    omega
  obtain ⟨-, hall⟩ := h.accessPages hmax hzero hr hlow (lowerPages_pages hdown hup)
    (pages_distinct hdown) hcall
  have hiff : ∀ va, va ∈ pages (pageAlignDown addr) (pageAlignUp ((addr + len) % 2 ^ 64))
      ↔ Touches addr len va := fun va => mem_pages_touched (by omega) hpos
  constructor
  · intro hacc va hva
    rw [← (hall va ((hiff va).mpr hva)).2.2]
    exact (hacc va hva).user
  · intro huser va hva
    obtain ⟨hp, hw, hu⟩ := hall va ((hiff va).mpr hva)
    obtain ⟨halign, h1, h2⟩ := hva
    refine ⟨?_, by omega, hp, hu.trans (huser va ⟨halign, h1, h2⟩), hw⟩
    rw [hs] at halign h2
    omega

namespace Vm

/-- A page of the user's, and a page of the same space that is not, which
the check accepts as well. -/
theorem reachable_userPage : ∃ s v, Reachable UserCall bootVm s ∧ s.spaces 0 = some v
    ∧ (∀ w ∈ v.list, w.stop ≤ 2 ^ 47) ∧ userPage s.mach v true 0x5000 = true
    ∧ (∃ m', s.mach.vasUserAccessOk v 0x5123 0x10 true = .ok (m', 0))
    ∧ ∃ m', s.mach.vasUserAccessOk v 0x9123 0x10 false = .ok (m', 0)
      ∧ hasFlag (pagingGetFlags Pmm.pmmAllocPage m' (some v.pml4) 0x9000) PAGE_USER = false := by
  have hplay : (play UserCall bootVm [(fair, .create none),
      (fair, .mapAnon 0 0x5000 0x1000 (PAGE_WRITE ||| PAGE_USER)),
      (fair, .mapAnon 0 0x9000 0x1000 PAGE_WRITE)]).bind (fun s =>
      (s.spaces 0).map fun v => (v.list.all (fun w => w.stop ≤ 2 ^ 47),
        userPage s.mach v true 0x5000,
        (s.mach.vasUserAccessOk v 0x5123 0x10 true).toOption.map Prod.snd,
        (s.mach.vasUserAccessOk v 0x9123 0x10 false).toOption.map fun r => (r.2,
          hasFlag (pagingGetFlags Pmm.pmmAllocPage r.1 (some v.pml4) 0x9000) PAGE_USER)))
      = some (true, true, some 0, some (0, false)) := by
    decide +kernel
  obtain ⟨s, hrun, heq⟩ := Option.bind_eq_some_iff.mp hplay
  obtain ⟨v, hv, heq⟩ := Option.map_eq_some_iff.mp heq
  obtain ⟨hall, heq⟩ := Prod.mk.inj heq
  obtain ⟨huser, heq⟩ := Prod.mk.inj heq
  obtain ⟨h1, h2⟩ := Prod.mk.inj heq
  refine ⟨s, v, reachable_play .init hrun, hv,
    fun w hw => by simpa using List.all_eq_true.mp hall w hw, huser, ?_, ?_⟩
  · cases hcall : s.mach.vasUserAccessOk v 0x5123 0x10 true with
    | error e =>
        rw [hcall] at h1
        cases h1
    | ok r =>
        rw [hcall] at h1
        exact ⟨r.1, congrArg Except.ok (Prod.ext rfl (Option.some.inj h1))⟩
  · cases hcall : s.mach.vasUserAccessOk v 0x9123 0x10 false with
    | error e =>
        rw [hcall] at h2
        cases h2
    | ok r =>
        rw [hcall] at h2
        obtain ⟨hrc, hflag⟩ := Prod.mk.inj (Option.some.inj h2)
        exact ⟨r.1, congrArg Except.ok (Prod.ext rfl hrc), hflag⟩

/-- The user's page is accessible after the check. -/
theorem vasUserAccessOk_user : ∃ s v m', Reachable UserCall bootVm s
    ∧ s.spaces 0 = some v ∧ s.mach.vasUserAccessOk v 0x5123 0x10 true = .ok (m', 0)
    ∧ ∀ va, Touches 0x5123 0x10 va → Accessible m' v.pml4 true va := by
  obtain ⟨s, v, hreach, hv, hlow, huser, ⟨m', hcall⟩, -⟩ := reachable_userPage
  obtain ⟨V, hs, -⟩ := bootVm_ready.reachable (by decide) rfl hreach
  obtain ⟨⟨rest, ref, hfirm⟩, -⟩ := hs.firm (by decide) rfl bootVm_ready
  refine ⟨s, v, m', hreach, hv, hcall, (vasUserAccessOk_iff (by decide) rfl hfirm
    (Spaces.root hv) hlow (by decide) hcall).mpr fun va hva => ?_⟩
  have hs : PAGE_SIZE = 4096 := rfl
  obtain ⟨h1, h2, h3⟩ := hva
  rw [hs] at h1 h3
  rw [show va = 0x5000 by omega]
  exact huser

/-- A page that is not the user's is accepted. -/
theorem accessOk_supervisor : ∃ s v m', Reachable UserCall bootVm s
    ∧ s.spaces 0 = some v ∧ s.mach.vasUserAccessOk v 0x9123 0x10 false = .ok (m', 0)
    ∧ ¬ ∀ va, Touches 0x9123 0x10 va → Accessible m' v.pml4 false va := by
  obtain ⟨s, v, hreach, hv, -, -, -, m', hcall, hflag⟩ := reachable_userPage
  refine ⟨s, v, m', hreach, hv, hcall, fun hall => ?_⟩
  have huser := (hall 0x9000 ⟨by decide, by decide, by decide⟩).user
  rw [hflag] at huser
  cases huser

end Vm

end Alix
