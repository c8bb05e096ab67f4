/-
The lists of descriptors over whole runs.

Which pages a call maps, and whether its allocations succeed, is left
open here: whatever happens there, a call puts a new descriptor where
nothing was in the way, takes a range out, changes flags, copies a list,
or leaves the lists alone. So every space keeps a list that is sorted,
aligned and disjoint, and the readers answer what they are asked.
-/
import Alix.Mm.Proofs.Vad
import Alix.Mm.Proofs.HeapRun

namespace Alix.Vm

open Paging

variable {s s' : Vm} {a d : Nat}

-- ==== the calls

/-- `vad_remove_range` leaves the list `removeRange` says, and the heap
has worked. -/
theorem vadRemoveRange_spec {start stop : Nat} {l l' : List Vad}
    (h : vadRemoveRange start stop l s = .ok (s', l')) :
    l' = removeRange start stop l ∧ HeapRun s s' := by
  have hsegment : ∀ {rest panic vad} {s s' : Vm} {m},
      vadCloneSegment rest panic vad s = .ok (s', m) →
      m = (if rest = true then [vad] else []) ∧ HeapRun s s' := by
    intro rest panic vad s s' m h
    unfold vadCloneSegment at h
    cases rest with
    | false =>
        cases h
        exact ⟨rfl, HeapRun.refl _⟩
    | true =>
        simp only [if_true] at h
        split at h
        · cases h
        · rename_i s1 hk
          cases h
          exact ⟨rfl, heapRun_kzalloc hk⟩
  induction l generalizing s s' l' with
  | nil =>
      cases h
      exact ⟨rfl, HeapRun.refl s⟩
  | cons old l ih =>
      unfold vadRemoveRange at h
      unfold removeRange
      by_cases hout : old.stop ≤ start ∨ old.start ≥ stop
      · rw [if_pos hout] at h ⊢
        split at h
        · cases h
        · rename_i s1 l1 h1
          cases h
          obtain ⟨rfl, hrun⟩ := ih h1
          exact ⟨rfl, hrun⟩
      · rw [if_neg hout] at h ⊢
        split at h
        · cases h
        rename_i s1 left hleft
        split at h
        · cases h
        rename_i s2 right hright
        split at h
        · cases h
        rename_i s3 l3 h3
        cases h
        obtain ⟨rfl, hrun1⟩ := hsegment hleft
        obtain ⟨rfl, hrun2⟩ := hsegment hright
        obtain ⟨rfl, hrun3⟩ := ih h3
        refine ⟨?_, ((hrun1.trans hrun2).trans (heapRun_kfree _)).trans hrun3⟩
        unfold piecesOf
        simp only [decide_eq_true_eq]

/-- Every space has an orderly list. -/
def Lists (s : Vm) : Prop := ∀ a v, s.spaces a = some v → VadsOk v.list

theorem Lists.congr (h : s.Lists) (hsame : s'.spaces = s.spaces) : s'.Lists := by
  intro a v hv
  rw [hsame] at hv
  exact h a v hv

theorem Lists.heap (h : s.Lists) (hr : HeapRun s s') : s'.Lists := h.congr hr.spaces.1

theorem Lists.mach (h : s.Lists) (mach : Mach) : Lists { s with mach } := h

/-- A space gets a new list. -/
theorem Lists.set (h : s.Lists) {v : Vas} (hv : VadsOk v.list) :
    (s.setSpace a (some v)).Lists := by
  intro b w hw
  change Function.update s.spaces a (some v) b = some w at hw
  by_cases hb : b = a
  · rw [hb, Function.update_self] at hw
    cases hw
    exact hv
  · rw [Function.update_of_ne hb] at hw
    exact h b w hw

theorem Lists.create (h : s.Lists) (pt : Option Nat) : (s.vasCreate pt).1.Lists := by
  unfold vasCreate
  split
  · rename_i s1 hk
    exact h.heap (heapRun_kzalloc hk)
  · rename_i s1 hk
    have h1 := h.heap (heapRun_kzalloc hk)
    split
    · exact (h1.mach _).heap (heapRun_kfree _)
    · rename_i mach pml4 hroot
      exact Lists.set (s := { s1 with mach := mach, next := s1.next + 1 }) h1 vadsOk_nil

/-- A new descriptor goes where nothing is in its way. -/
theorem Lists.insert (h : s.Lists) {v : Vas} (hv : s.spaces a = some v)
    {hint length base : Nat} {flags flags' : Word} {userStart : Nat}
    (hlen : length ≠ 0 ∧ length ≤ 2 ^ 64 - PAGE_SIZE)
    (hp : placement v hint (pageAlignUp length) flags = some base)
    (hsame : s'.spaces = s.spaces) :
    (s'.setSpace a (some { v with
      list := vadInsert ⟨base, (base + pageAlignUp length) % 2 ^ 64, flags'⟩ v.list
      userStart })).Lists := by
  have hs' : s'.Lists := fun b w hw => h b w (by rw [← hsame]; exact hw)
  have hok := h a v hv
  obtain ⟨halign, hwrap, hend, hfree⟩ := hok.placement (pageAlignUp_lt _) hp
  have hpos := pageAlignUp_pos hlen.1 hlen.2
  have hmod := pageAlignUp_mod length
  have hs : PAGE_SIZE = 4096 := rfl
  have hu : VAS_USER_END = 0x00007FFFFFFFFFFF := rfl
  refine hs'.set (hok.insert ?_ ?_)
  · rw [hwrap]
    show base < base + pageAlignUp length ∧ base + pageAlignUp length < 2 ^ 64
      ∧ base % PAGE_SIZE = 0 ∧ (base + pageAlignUp length) % PAGE_SIZE = 0
    refine ⟨by omega, by omega, halign, ?_⟩
    rw [hs] at halign hmod ⊢
    omega
  · rw [hwrap]
    exact hfree

theorem lift_ok {r : Except Kpanic Mach} (h : s.lift r = .ok s') :
    ∃ mach, r = .ok mach ∧ s' = { s with mach } := by
  unfold lift at h
  split at h
  · cases h
  · cases h
    exact ⟨_, rfl, rfl⟩

/-- What `vas_map_anon` does: only the heap works, or the pages are committed,
and then either go back or get a descriptor. -/
theorem vasMapAnon_inv {hint length base : Nat} {flags : Word}
    (hm : s.vasMapAnon a hint length flags = .ok (s', base)) :
    HeapRun s s' ∨ ∃ v b stop vad s1 mach rc, s.spaces a = some v ∧ length ≠ 0
      ∧ placement v hint (pageAlignUp length) flags = some b
      ∧ stop = (b + pageAlignUp length) % 2 ^ 64
      ∧ vad = ⟨b, stop, flags ||| VAD_ANONYMOUS ||| VAD_MAPPED⟩
      ∧ HeapRun s s1 ∧ s1.mach.commitAnon v.pml4 vad = .ok (mach, rc)
      ∧ ((rc ≠ 0 ∧ ∃ mach', mach.uncommitRange v.pml4 b stop = .ok mach'
          ∧ s' = { s1 with mach := mach' }.kfree)
        ∨ (rc = 0 ∧ base = b ∧ s' = { s1 with mach }.setSpace a (some { v with
            list := vadInsert vad v.list, userStart := stop }))) := by
  unfold vasMapAnon at hm
  split at hm
  · cases hm
    exact Or.inl (.refl s)
  rename_i v hv
  split at hm
  · cases hm
    exact Or.inl (.refl s)
  rename_i hne
  simp only at hm
  split at hm
  · cases hm
    exact Or.inl (.refl s)
  rename_i b hp
  split at hm
  · rename_i s1 hk
    cases hm
    exact Or.inl (heapRun_kzalloc hk)
  rename_i s1 hk
  split at hm
  · cases hm
  rename_i mach rc hc
  refine Or.inr ⟨v, b, _, _, s1, mach, rc, hv, hne, hp, rfl, rfl, heapRun_kzalloc hk, hc, ?_⟩
  split at hm
  · rename_i hrc
    split at hm
    · cases hm
    rename_i mach' hun
    cases hm
    exact Or.inl ⟨hrc, mach', hun, rfl⟩
  · rename_i hrc
    cases hm
    exact Or.inr ⟨not_not.mp hrc, rfl, rfl⟩

/-- To the spaces it does nothing, or there is one descriptor more. -/
theorem vasMapAnon_cases {hint length base : Nat} {flags : Word}
    (hm : s.vasMapAnon a hint length flags = .ok (s', base)) :
    s'.spaces = s.spaces ∨ ∃ v, s.spaces a = some v ∧ length ≠ 0
      ∧ placement v hint (pageAlignUp length) flags = some base
      ∧ s'.spaces = Function.update s.spaces a (some { v with
          list := vadInsert ⟨base, (base + pageAlignUp length) % 2 ^ 64,
            flags ||| VAD_ANONYMOUS ||| VAD_MAPPED⟩ v.list
          userStart := (base + pageAlignUp length) % 2 ^ 64 }) := by
  rcases vasMapAnon_inv hm with hrun |
    ⟨v, b, stop, vad, s1, mach, rc, hv, hne, hp, rfl, rfl, hrun, hc, hend⟩
  · exact Or.inl hrun.spaces.1
  rcases hend with ⟨hrc, mach', hun, rfl⟩ | ⟨hrc, rfl, rfl⟩
  · exact Or.inl ((heapRun_kfree _).spaces.1.trans hrun.spaces.1)
  · refine Or.inr ⟨v, hv, hne, hp, ?_⟩
    unfold setSpace
    rw [← hrun.spaces.1]

theorem Lists.mapAnon (h : s.Lists) {hint length base : Nat} {flags : Word}
    (hlen : length ≤ 2 ^ 64 - PAGE_SIZE)
    (hm : s.vasMapAnon a hint length flags = .ok (s', base)) : s'.Lists := by
  rcases vasMapAnon_cases hm with hsame | ⟨v, hv, hne, hp, hset⟩
  · exact h.congr hsame
  · exact (h.insert hv ⟨hne, hlen⟩ hp rfl).congr hset

theorem Lists.mapPhys (h : s.Lists) {hint phys length base : Nat} {flags : Word}
    (hlen : length ≤ 2 ^ 64 - PAGE_SIZE)
    (hm : s.vasMapPhys a hint phys length flags = .ok (s', base)) : s'.Lists := by
  unfold vasMapPhys at hm
  split at hm
  · cases hm
    exact h
  rename_i v hv
  split at hm
  · cases hm
    exact h
  rename_i hne
  simp only at hm
  split at hm
  · cases hm
    exact h
  rename_i b hp
  split at hm
  · cases hm
  rename_i mach rc hpages
  have h1 : Lists { s with mach } := h
  split at hm
  · cases hm
    exact h1
  split at hm
  · rename_i s1 hk
    split at hm
    · cases hm
    · rename_i s2 hl
      cases hm
      obtain ⟨mach', -, rfl⟩ := lift_ok hl
      exact (h1.heap (heapRun_kzalloc hk)).mach _
  · rename_i s1 hk
    cases hm
    exact h1.insert hv ⟨hne, hlen⟩ hp (heapRun_kzalloc hk).spaces.1

/-- What `vas_unmap` does: nothing, or the loop over the descriptors, and the
range leaves the list. -/
theorem vasUnmap_inv {start length : Nat} {rc : Int}
    (hm : s.vasUnmap a start length = .ok (s', rc)) :
    s' = s ∨ ∃ v lo hi mach s2, s.spaces a = some v ∧ lo = pageAlignDown start
      ∧ hi = (lo + pageAlignUp length) % 2 ^ 64
      ∧ Machine.unmapVads v.pml4 lo hi v.list s.mach = .ok mach
      ∧ HeapRun { s with mach } s2
      ∧ s' = s2.setSpace a (some { v with list := removeRange lo hi v.list }) := by
  unfold vasUnmap at hm
  split at hm
  · cases hm
    exact Or.inl rfl
  rename_i v hv
  split at hm
  · cases hm
    exact Or.inl rfl
  simp only at hm
  split at hm
  · cases hm
  rename_i s1 hl
  obtain ⟨mach, hun, rfl⟩ := lift_ok hl
  split at hm
  · cases hm
  rename_i s2 list hr
  cases hm
  obtain ⟨rfl, hrun⟩ := vadRemoveRange_spec hr
  exact Or.inr ⟨v, _, _, mach, s2, hv, rfl, rfl, hun, hrun, rfl⟩

/-- To the spaces it does nothing, or the range leaves the list. -/
theorem vasUnmap_cases {start length : Nat} {rc : Int}
    (hm : s.vasUnmap a start length = .ok (s', rc)) :
    s'.spaces = s.spaces ∨ ∃ v, s.spaces a = some v
      ∧ s'.spaces = Function.update s.spaces a (some { v with
          list := removeRange (pageAlignDown start)
            ((pageAlignDown start + pageAlignUp length) % 2 ^ 64) v.list }) := by
  rcases vasUnmap_inv hm with rfl | ⟨v, lo, hi, mach, s2, hv, rfl, rfl, hun, hrun, rfl⟩
  · exact Or.inl rfl
  · refine Or.inr ⟨v, hv, ?_⟩
    unfold setSpace
    rw [hrun.spaces.1]

theorem Lists.unmap (h : s.Lists) {start length : Nat} {rc : Int}
    (hwrap : pageAlignDown start + pageAlignUp length ≤ 2 ^ 64)
    (hm : s.vasUnmap a start length = .ok (s', rc)) : s'.Lists := by
  rcases vasUnmap_cases hm with hsame | ⟨v, hv, hset⟩
  · exact h.congr hsame
  refine (h.set ?_).congr hset
  have hmod1 := pageAlignDown_mod start
  have hmod2 := pageAlignUp_mod length
  have hs : PAGE_SIZE = 4096 := rfl
  by_cases hfull : pageAlignDown start + pageAlignUp length = 2 ^ 64
  · -- the end is 0, and nothing starts below it
    rw [hfull, Nat.mod_self, removeRange_zero]
    exact h a v hv
  · rw [Nat.mod_eq_of_lt (by omega)]
    refine ((h a v hv).removeRange (by omega) ⟨hmod1, ?_⟩).1
    rw [hs] at hmod1 hmod2 ⊢
    omega

/-- `vas_protect` changes flags only. -/
theorem protectVads_bounds {pml4 start stop : Nat} {newFlags : Word}
    {l l' : List Vad} {m m' : Mach} {rc : Int}
    (h : Machine.protectVads pml4 start stop newFlags l m = (m', l', rc)) :
    l'.map (fun v => (v.start, v.stop)) = l.map fun v => (v.start, v.stop) := by
  induction l generalizing m m' l' rc with
  | nil =>
      cases h
      rfl
  | cons v l ih =>
      unfold Machine.protectVads at h
      split at h
      · split at h
        · cases hrest : Machine.protectVads pml4 start stop newFlags l m with
          | mk m1 r =>
              obtain ⟨l1, rc1⟩ := r
              rw [hrest] at h
              cases h
              rw [List.map_cons, List.map_cons, ih hrest]
        · simp only at h
          generalize Machine.remapPages pml4 newFlags _ m = r at h
          split at h
          · cases h
            rfl
          · cases hrest : Machine.protectVads pml4 start stop newFlags l r.1 with
            | mk m1 r1 =>
                obtain ⟨l1, rc1⟩ := r1
                rw [hrest] at h
                cases h
                rw [List.map_cons, List.map_cons, ih hrest]
      · cases h
        rfl

theorem VadsOk.of_bounds {l l' : List Vad} (h : VadsOk l)
    (hb : l'.map (fun v => (v.start, v.stop)) = l.map fun v => (v.start, v.stop)) :
    VadsOk l' := by
  have hord : (l'.map fun v => (v.start, v.stop)).Pairwise fun p q => p.2 ≤ q.1 := by
    rw [hb, List.pairwise_map]
    exact h.ordered
  refine ⟨List.pairwise_map.mp hord, fun v hv => ?_⟩
  have hmem : (v.start, v.stop) ∈ l.map fun v => (v.start, v.stop) := by
    rw [← hb]
    exact List.mem_map_of_mem hv
  obtain ⟨w, hw, he⟩ := List.mem_map.mp hmem
  obtain ⟨e1, e2⟩ := Prod.mk.inj he
  have := h.fits w hw
  rw [e1, e2] at this
  exact this

theorem Lists.protect (h : s.Lists) (start length : Nat) (newFlags : Word) :
    (s.vasProtect a start length newFlags).1.Lists := by
  unfold vasProtect
  split
  · exact h
  rename_i v hv
  split
  · exact h
  simp only
  generalize hp : Machine.protectVads v.pml4 _ _ _ _ _ = r
  obtain ⟨mach, list, rc⟩ := r
  exact Lists.set (s := { s with mach := mach }) h
    (VadsOk.of_bounds (h a v hv) (protectVads_bounds hp))

theorem Lists.add (h : s.Lists) {vad : Vad} (hvad : vad.stop < 2 ^ 64) :
    (s.vasAdd a vad).1.Lists := by
  unfold vasAdd
  split
  · exact h
  rename_i v hv
  split
  · exact h
  split
  · exact h
  split
  · exact h
  · rename_i hlt halign hover
    rw [not_or, not_not, not_not] at halign
    refine h.set ((h a v hv).insert ⟨by omega, hvad, halign⟩ fun hm => ?_)
    exact hover ((h a v hv).overlaps.mpr hm)

theorem destroyVads_spaces {pml4 : Nat} {l : List Vad}
    (h : destroyVads pml4 l s = .ok s') : s'.spaces = s.spaces
      ∧ s'.next = s.next ∧ s'.kernelPml4 = s.kernelPml4 := by
  induction l generalizing s with
  | nil =>
      cases h
      exact ⟨rfl, rfl, rfl⟩
  | cons v l ih =>
      unfold destroyVads at h
      split at h
      · cases h
      · rename_i mach hu
        obtain ⟨h1, h2, h3⟩ := ih h
        obtain ⟨k1, k2, k3⟩ := (heapRun_kfree { s with mach }).spaces
        exact ⟨h1.trans k1, h2.trans k2, h3.trans k3⟩

theorem Lists.destroy (h : s.Lists) (hd : s.vasDestroy a = .ok s') : s'.Lists := by
  unfold vasDestroy at hd
  split at hd
  · cases hd
    exact h
  split at hd
  · cases hd
  rename_i s1 hvads
  split at hd
  · cases hd
  rename_i mach hm
  cases hd
  refine Lists.heap (s := { s1 with mach := mach }.setSpace a none) ?_ (heapRun_kfree _)
  intro b v hv
  change Function.update s1.spaces a none b = some v at hv
  by_cases hb : b = a
  · rw [hb, Function.update_self] at hv
    cases hv
  · rw [Function.update_of_ne hb, (destroyVads_spaces hvads).1] at hv
    exact h b v hv

/-- The copies go in one behind the other. -/
theorem Lists.cloneVads (h : s.Lists) {src : Nat} {list : List Vad} {dst : Vas}
    (hd : s.spaces d = some dst) (hok : VadsOk (dst.list ++ list)) {ok : Bool}
    (hc : Vm.cloneVads src d list s = .ok (s', ok)) : s'.Lists := by
  induction list generalizing s dst with
  | nil =>
      cases hc
      exact h
  | cons vad list ih =>
      unfold Vm.cloneVads at hc
      split at hc
      · rename_i s1 hk
        cases hc
        exact h.heap (heapRun_kzalloc hk)
      rename_i s1 hk
      have h1 := h.heap (heapRun_kzalloc hk)
      have hd1 : s1.spaces d = some dst := by
        rw [(heapRun_kzalloc hk).spaces.1]
        exact hd
      simp only [hd1] at hc
      have hins : vadInsert vad dst.list = dst.list ++ [vad] := by
        refine vadInsert_append fun w hw => ?_
        have hle := (List.pairwise_append.mp hok.ordered).2.2 w hw vad
          List.mem_cons_self
        have := (hok.fits w (List.mem_append_left _ hw)).1
        omega
      have happ : VadsOk ((dst.list ++ [vad]) ++ list) := by
        rw [List.append_assoc]
        exact hok
      have hpre : VadsOk (vadInsert vad dst.list) := by
        rw [hins]
        exact ⟨(List.pairwise_append.mp happ.ordered).1,
          fun w hw => happ.fits w (List.mem_append_left _ hw)⟩
      have h2 := h1.set (a := d) (v := { dst with list := vadInsert vad dst.list }) hpre
      split at hc
      · cases hc
      · cases hc
        exact h2
      · rename_i mach hpages
        refine ih (s := { s1.setSpace d _ with mach := mach }) h2
          (Function.update_self _ _ _) ?_ hc
        show VadsOk (vadInsert vad dst.list ++ list)
        rw [hins]
        exact happ

theorem Lists.clone (h : s.Lists) {r : Option Nat}
    (hc : s.vasClone a = .ok (s', r)) : s'.Lists := by
  unfold vasClone at hc
  split at hc
  · cases hc
    exact h
  rename_i src hsrc
  have hcreate := h.create none
  split at hc
  · rename_i s1 hs1
    cases hc
    rw [hs1] at hcreate
    exact hcreate
  rename_i s1 d hs1
  rw [hs1] at hcreate
  -- the new space has an empty list
  have hd : ∃ dst, s1.spaces d = some dst ∧ dst.list = [] := by
    unfold vasCreate at hs1
    split at hs1
    · cases hs1
    · split at hs1
      · cases hs1
      · cases hs1
        exact ⟨_, Function.update_self _ _ _, rfl⟩
  obtain ⟨dst, hdst, hnil⟩ := hd
  simp only [hdst] at hc
  have h2 : (s1.setSpace d (some { dst with userStart := src.userStart })).Lists :=
    hcreate.set (by rw [hnil]; exact vadsOk_nil)
  have hset := Function.update_self d
    (some { dst with userStart := src.userStart }) s1.spaces
  have hok : VadsOk (dst.list ++ src.list) := by
    rw [hnil]
    exact h a src hsrc
  split at hc
  · cases hc
  · rename_i s2 hs2
    cases hc
    exact h2.cloneVads hset hok hs2
  · rename_i s2 hs2
    have h3 := h2.cloneVads hset hok hs2
    split at hc
    · cases hc
    · rename_i s3 hs3
      cases hc
      exact h3.destroy hs3

-- ==== the runs

/-- The page-rounded ranges of a call do not wrap, and the end of a
descriptor is a 64-bit word. -/
def NoWrap (_ : Vm) : Call → Prop
  | .mapAnon _ _ length _ => length ≤ 2 ^ 64 - PAGE_SIZE
  | .mapPhys _ _ _ length _ => length ≤ 2 ^ 64 - PAGE_SIZE
  | .unmap _ start length => pageAlignDown start + pageAlignUp length ≤ 2 ^ 64
  | .add _ vad => vad.stop < 2 ^ 64
  | _ => True

theorem map_fst_ok {α : Type} {r : Except VmPanic (Vm × α)} (h : r.map Prod.fst = .ok s') :
    ∃ x, r = .ok (s', x) := by
  cases r with
  | error e => cases h
  | ok p =>
      obtain ⟨s1, x⟩ := p
      cases h
      exact ⟨x, rfl⟩

/-- Every call keeps the lists of descriptors. -/
theorem Lists.call (h : s.Lists) {k : Call} (hk : NoWrap s k)
    (hc : s.call k = .ok s') : s'.Lists := by
  have hlift : ∀ {r}, s.lift r = .ok s' → s'.Lists := by
    intro r hr
    obtain ⟨mach, -, rfl⟩ := lift_ok hr
    exact h
  cases k with
  | create pt =>
      cases hc
      exact h.create pt
  | mapAnon a hint length flags =>
      obtain ⟨base, hm⟩ := map_fst_ok hc
      exact h.mapAnon hk hm
  | mapPhys a hint phys length flags =>
      obtain ⟨base, hm⟩ := map_fst_ok hc
      exact h.mapPhys hk hm
  | unmap a start length =>
      obtain ⟨rc, hm⟩ := map_fst_ok hc
      exact h.unmap hk hm
  | protect a start length newFlags =>
      cases hc
      exact h.protect start length newFlags
  | pageFault a addr err =>
      simp only [Vm.call] at hc
      split at hc
      · cases hc
        exact h
      · exact hlift hc
  | accessOk a addr len write =>
      simp only [Vm.call] at hc
      split at hc
      · cases hc
        exact h
      · exact hlift hc
  | add a vad =>
      cases hc
      exact h.add hk
  | clone a =>
      obtain ⟨r, hm⟩ := map_fst_ok hc
      exact h.clone hm
  | destroy a => exact h.destroy hc

/-- In every run every list is sorted by start, page-aligned and disjoint,
and `vas_overlaps` and `vas_find` answer exactly. -/
theorem reachable_vads {s₀ : Vm} (h₀ : ∀ a v, s₀.spaces a = some v → v.list = [])
    (h : Reachable NoWrap s₀ s) {v : Vas} (hv : s.spaces a = some v) :
    (v.list.Pairwise fun x y => x.start < y.start)
      ∧ (∀ x ∈ v.list, x.start < x.stop ∧ x.start % PAGE_SIZE = 0
        ∧ x.stop % PAGE_SIZE = 0)
      ∧ (v.list.Pairwise fun x y => x.stop ≤ y.start ∨ y.stop ≤ x.start)
      ∧ (∀ start stop, vasOverlaps v.list start stop = true
        ↔ ∃ x ∈ v.list, x.start < stop ∧ start < x.stop)
      ∧ (∀ addr x, vasFind v.list addr = some x
        ↔ x ∈ v.list ∧ x.start ≤ addr ∧ addr < x.stop)
      ∧ ∀ addr, vasFind v.list addr = none
        ↔ ∀ x ∈ v.list, ¬ (x.start ≤ addr ∧ addr < x.stop) := by
  have hlists : s.Lists := by
    clear hv
    induction h with
    | init =>
        intro a v hv
        rw [h₀ a v hv]
        exact vadsOk_nil
    | @call s s' k coins _ hmay hcall ih =>
        exact Lists.call (s := { s with coins }) ih hmay hcall
  have hok := hlists a v hv
  refine ⟨hok.ordered.imp_of_mem fun hx _ hxy => ?_, fun x hx => ?_,
    hok.ordered.imp fun hxy => Or.inl hxy, fun start stop => hok.overlaps,
    fun addr x => hok.find, fun addr => ?_⟩
  · exact Nat.lt_of_lt_of_le (hok.fits _ hx).1 hxy
  · obtain ⟨h1, -, h2, h3⟩ := hok.fits x hx
    exact ⟨h1, h2, h3⟩
  · rw [hok.find_none]
    unfold Covers
    push Not
    rfl

-- ==== an example

instance (s : Vm) (k : Call) : Decidable (NoWrap s k) :=
  match k with
  | .mapAnon .. | .mapPhys .. | .unmap .. => inferInstanceAs (Decidable (_ ≤ _))
  | .add .. => inferInstanceAs (Decidable (_ < _))
  | .create _ | .protect .. | .pageFault .. | .accessOk .. | .clone _ | .destroy _ =>
      inferInstanceAs (Decidable True)

/-- Makes the calls of a list, as long as they may be made and return. -/
def play (may : Vm → Call → Prop) [∀ s k, Decidable (may s k)] :
    Vm → List (List Coin × Call) → Option Vm
  | s, [] => some s
  | s, (coins, k) :: ks =>
      if may s k then
        match { s with coins }.call k with
        | .error _ => none
        | .ok s' => play may s' ks
      else none

theorem reachable_play {may : Vm → Call → Prop} [∀ s k, Decidable (may s k)]
    {s₀ : Vm} {ks : List (List Coin × Call)} (h : Reachable may s₀ s)
    (hp : play may s ks = some s') : Reachable may s₀ s' := by
  induction ks generalizing s with
  | nil =>
      cases hp
      exact h
  | cons c ks ih =>
      obtain ⟨coins, k⟩ := c
      unfold play at hp
      split at hp
      case isTrue hmay =>
        split at hp
        case h_1 => cases hp
        case h_2 s₁ hcall => exact ih (h.call coins hmay hcall) hp
      case isFalse => cases hp

/-- A machine of sixteen frames, of which frame 0 is not usable. -/
def bootVm : Vm where
  mach := ⟨Pmm.pmmInit 16 (Pmm.pfndb 16 fun q => 1 ≤ q), fun _ _ => 0⟩
  heap := []
  coins := []
  kernelPml4 := none
  spaces := fun _ => none
  next := 0

/-- A heap that always succeeds and needs no page. -/
def fair : List Coin := List.replicate 4 ⟨[], true⟩

/-- The middle page of three is unmapped: two descriptors are left, and
`vas_find` does not find the hole. -/
theorem reachable_vads_hole : ∃ s v, Reachable NoWrap bootVm s
    ∧ s.spaces 0 = some v
    ∧ v.list.map (fun x => (x.start, x.stop)) = [(0x5000, 0x6000), (0x7000, 0x8000)]
    ∧ vasFind v.list 0x6000 = none := by
  have hplay : (play NoWrap bootVm [(fair, .create none),
      (fair, .mapAnon 0 0x5000 0x3000 PAGE_WRITE), (fair, .unmap 0 0x6000 0x1000)]).map
      (fun s => (s.spaces 0).map fun v => v.list.map fun x => (x.start, x.stop))
      = some (some [(0x5000, 0x6000), (0x7000, 0x8000)]) := by
    decide +kernel
  obtain ⟨s, hrun, heq⟩ := Option.map_eq_some_iff.mp hplay
  obtain ⟨v, hv, hlist⟩ := Option.map_eq_some_iff.mp heq
  have hreach := reachable_play .init hrun
  refine ⟨s, v, hreach, hv, hlist, ?_⟩
  have hall := (reachable_vads (fun a v h => (by cases h)) hreach hv).2.2.2.2.2
  rw [hall]
  intro x hx
  have hmem : (x.start, x.stop) ∈ v.list.map fun x => (x.start, x.stop) :=
    List.mem_map_of_mem hx
  rw [hlist] at hmem
  simp only [List.mem_cons, Prod.mk.injEq, List.not_mem_nil, or_false] at hmem
  omega

end Alix.Vm
