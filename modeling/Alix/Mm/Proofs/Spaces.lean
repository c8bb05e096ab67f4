/-
The address spaces, call by call.

`Spaces s V` joins the two halves of a space: its tables, by the view
`V`, and its list of descriptors. Every mapped page of a live space is in
one of its descriptors (`Spaces.sound`), and where a space is `Filled`
every page of a descriptor is mapped. In the middle of `vas_clone` the
second half fails for the space that is being made, so it is not part of
`Spaces` but said of each space by itself.

# The rules

The heap works in between (`Spaces.heap`), a page loop turns the view into
another (`Spaces.mach`), and a call ends by giving one space a new list
(`Spaces.edit`). A call is a sequence of these, with the loops as in
`RangeOps.lean` and `PageOps.lean`.
-/
import Alix.Mm.Proofs.RangeOps
import Alix.Mm.Proofs.Roots
import Alix.Mm.Proofs.VadRun

namespace Alix.Vm

open Paging
open Pointers
open Dyadic (Block)

-- ==== the invariant

/-- The roots of the live spaces. -/
def Roots (s : Vm) (r : Nat) : Prop := ∃ a v, s.spaces a = some v ∧ v.pml4 = r

/-- The tables and the descriptors of the live spaces belong together.
`Q` is what the flags of all descriptors have in common. -/
structure Spaces (maxPfn : Nat) (usable : Nat → Bool) (fx : Outside) (Q : Word → Prop)
    (s : Vm) (V : View) : Prop where
  settled : Settled maxPfn usable s.heap fx s.Roots V s.mach
  kernel : Outside.Kernel fx s.kernelPml4
  inj : ∀ a b v w, s.spaces a = some v → s.spaces b = some w → v.pml4 = w.pml4 → a = b
  lists : s.Lists
  user : ∀ a v, s.spaces a = some v → ∀ x ∈ v.list, x.stop ≤ 2 ^ 47 ∧ Q x.flags
  sound : ∀ a v n, s.spaces a = some v → V (v.pml4, n) ≠ none →
    Covers v.list (n * PAGE_SIZE)
  fresh : ∀ a, s.next ≤ a → s.spaces a = none

/-- Every page of a descriptor of the space is mapped. -/
def Filled (s : Vm) (V : View) (a : Nat) : Prop :=
  ∀ v n, s.spaces a = some v → Covers v.list (n * PAGE_SIZE) → V (v.pml4, n) ≠ none

/-- Where a page of these descriptors is writable, the descriptor says so,
and none of them is shared on purpose. -/
def Guarded (V : View) (r : Nat) (list : List Vad) : Prop :=
  ∀ x ∈ list, hasFlag x.flags VAD_SHARED = false ∧ ∀ n f fl, x.start ≤ n * PAGE_SIZE →
    n * PAGE_SIZE < x.stop → V (r, n) = some (f, fl) → hasFlag fl PAGE_WRITE = true →
    hasFlag x.flags PAGE_WRITE = true

theorem write_prot (w : Word) :
    hasFlag (w &&& VAD_PROT_MASK) PAGE_WRITE = hasFlag w PAGE_WRITE := by
  have hmask : VAD_PROT_MASK.getLsbD 1 = true := by decide
  rw [hasFlag_pageBit _ (by decide), hasFlag_pageBit _ (by decide), BitVec.getLsbD_and,
    hmask, Bool.and_true]

section setSpace

variable {s : Vm} {a b : Nat} {v w u : Vas} {o : Option Vas}

@[simp] theorem setSpace_self (s : Vm) (a : Nat) (o : Option Vas) :
    (s.setSpace a o).spaces a = o :=
  Function.update_self _ _ _

theorem setSpace_of_ne (s : Vm) (o : Option Vas) (hb : b ≠ a) :
    (s.setSpace a o).spaces b = s.spaces b :=
  Function.update_of_ne hb _ _

/-- A space is the one that was set, or an old one. -/
theorem setSpace_cases (h : (s.setSpace a o).spaces b = some u) :
    (b = a ∧ o = some u) ∨ (b ≠ a ∧ s.spaces b = some u) := by
  by_cases hb : b = a
  · rw [hb, setSpace_self] at h
    exact Or.inl ⟨hb, h⟩
  · rw [setSpace_of_ne s o hb] at h
    exact Or.inr ⟨hb, h⟩

/-- The space keeps its root. -/
theorem roots_setSpace (hv : s.spaces a = some v) (hw : w.pml4 = v.pml4) :
    (s.setSpace a (some w)).Roots = s.Roots := by
  funext r
  refine propext ⟨fun hr => ?_, fun hr => ?_⟩
  · obtain ⟨b, u, hu, rfl⟩ := hr
    rcases setSpace_cases hu with ⟨rfl, e⟩ | ⟨-, hu⟩
    · cases e
      exact ⟨b, v, hv, hw.symm⟩
    · exact ⟨b, u, hu, rfl⟩
  · obtain ⟨b, u, hu, rfl⟩ := hr
    by_cases hb : b = a
    · rw [hb, hv] at hu
      cases hu
      exact ⟨a, w, setSpace_self s a _, hw⟩
    · exact ⟨b, u, (setSpace_of_ne s _ hb).trans hu, rfl⟩

end setSpace

-- ==== the rules

namespace Spaces

variable {maxPfn : Nat} {usable : Nat → Bool} {fx : Outside} {Q : Word → Prop}
  {s s' : Vm} {V V' : View} {a : Nat} {v w : Vas}

theorem root (hv : s.spaces a = some v) : s.Roots v.pml4 := ⟨a, v, hv, rfl⟩

/-- The heap works in between. -/
theorem heap (h : Spaces maxPfn usable fx Q s V) (hr : HeapRun s s') :
    Spaces maxPfn usable fx Q s' V := by
  obtain ⟨hsp, hnext, hkernel⟩ := hr.spaces
  have hroots : s'.Roots = s.Roots := by
    funext r
    unfold Roots
    rw [hsp]
  refine ⟨?_, by rw [hkernel]; exact h.kernel, by rw [hsp]; exact h.inj, h.lists.heap hr,
    by rw [hsp]; exact h.user, by rw [hsp]; exact h.sound, by rw [hsp, hnext]; exact h.fresh⟩
  obtain ⟨k, hk, rfl, hextra⟩ := h.settled
  obtain ⟨hmem, ref', hh, hspare⟩ := hr.ledger ⟨hk.ledger, hk.single⟩
  have hin : ∀ {f}, ⟨f, 0⟩ ∈ k.own → (⟨f, 0⟩ : Block) ∈ fx.blocks ++ k.own := fun hf =>
    List.mem_append_right _ hf
  rw [hroots]
  refine ⟨{ k with ref := ref' }, {
    ledger := hh.ledger
    single := hh.single
    forest := by rw [hmem]; exact hk.forest
    wide := by
      unfold Table
      rw [hmem]
      exact hk.wide
    leaf := by rw [hmem]; exact hk.leaf
    dom := hk.dom
    sparse := hk.sparse
    own := by
      unfold Table
      rw [hmem]
      exact hk.own
    apart := by
      unfold Table
      rw [hmem]
      exact hk.apart
    table := fun f hf => ?_
    data := fun f hf => ?_
    words := by rw [hmem]; exact hk.words
    pages := fun q hq => ?_
    upper := by rw [hmem]; exact hk.upper }, rfl, hextra⟩
  · unfold Table at hf
    rw [hmem] at hf
    exact (hspare.ref _ (hin (hk.table_own hf))).trans (hk.table f hf)
  · exact (hspare.ref _ (hin (hk.used_own hf))).trans (hk.data f hf)
  · obtain ⟨b, hb, hqb⟩ := hq
    exact (hspare.data b (List.mem_append_left _ hb) q hqb).trans (hk.pages q ⟨b, hb, hqb⟩)

theorem heap_mem (h : Spaces maxPfn usable fx Q s V) (hr : HeapRun s s') :
    s'.mach.mem = s.mach.mem := by
  obtain ⟨k, hk, -, -⟩ := h.settled
  exact (hr.ledger ⟨hk.ledger, hk.single⟩).1

theorem filled_heap (hr : HeapRun s s') {b : Nat} (hf : Filled s V b) : Filled s' V b := by
  intro u n hu
  rw [hr.spaces.1] at hu
  exact hf u n hu

/-- A step of the page loops that maps no more pages. -/
theorem mach (h : Spaces maxPfn usable fx Q s V) {m : Mach}
    (hm : Settled maxPfn usable s.heap fx s.Roots V' m)
    (hsub : ∀ x, V x = none → V' x = none) :
    Spaces maxPfn usable fx Q { s with mach := m } V' :=
  ⟨hm, h.kernel, h.inj, h.lists, h.user,
    fun a v n hv hn => h.sound a v n hv fun e => hn (hsub _ e), h.fresh⟩

/-- A step that changes entries but maps and unmaps nothing. -/
theorem touch (h : Spaces maxPfn usable fx Q s V) {m : Mach}
    (hm : Settled maxPfn usable s.heap fx s.Roots V' m) (hnone : ∀ x, V' x = none ↔ V x = none) :
    Spaces maxPfn usable fx Q { s with mach := m } V'
      ∧ ∀ b, Filled s V b → Filled { s with mach := m } V' b :=
  ⟨h.mach hm fun x => (hnone x).mpr, fun _ hf v n hv hn e => hf v n hv hn ((hnone _).mp e)⟩

/-- The end of a call: one space gets another list, and in the view only
its pages come and go. -/
theorem edit (h : Spaces maxPfn usable fx Q s V) (hv : s.spaces a = some v)
    (hw : w.pml4 = v.pml4) (hok : VadsOk w.list)
    (huser : ∀ x ∈ w.list, x.stop ≤ 2 ^ 47 ∧ Q x.flags) {m : Mach}
    (hm : Settled maxPfn usable s.heap fx s.Roots V' m)
    (hother : ∀ x, x.1 ≠ v.pml4 → (V' x = none ↔ V x = none))
    (hsound : ∀ n, V' (v.pml4, n) ≠ none → Covers w.list (n * PAGE_SIZE)) :
    Spaces maxPfn usable fx Q ({ s with mach := m }.setSpace a (some w)) V' := by
  have hold : ∀ b u, (s.setSpace a (some w)).spaces b = some u →
      ∃ u', s.spaces b = some u' ∧ u'.pml4 = u.pml4 := by
    intro b u hu
    rcases setSpace_cases hu with ⟨rfl, e⟩ | ⟨-, hu⟩
    · cases e
      exact ⟨v, hv, hw.symm⟩
    · exact ⟨u, hu, rfl⟩
  refine ⟨?_, h.kernel, fun b c u u' hu hu' he => ?_, h.lists.set hok, fun b u hu => ?_,
    fun b u n hu hn => ?_, fun b hb => ?_⟩
  · have hroots : ({ s with mach := m }.setSpace a (some w)).Roots = s.Roots :=
      roots_setSpace hv hw
    rw [hroots]
    exact hm
  · obtain ⟨x, hx, hxe⟩ := hold b u hu
    obtain ⟨y, hy, hye⟩ := hold c u' hu'
    exact h.inj b c x y hx hy ((hxe.trans he).trans hye.symm)
  · rcases setSpace_cases hu with ⟨-, e⟩ | ⟨-, hu⟩
    · cases e
      exact huser
    · exact h.user b u hu
  · rcases setSpace_cases hu with ⟨-, e⟩ | ⟨hb, hu⟩
    · cases e
      exact hsound n (by rw [← hw]; exact hn)
    · have hne : u.pml4 ≠ v.pml4 := fun e => hb (h.inj b a u v hu hv e)
      exact h.sound b u n hu fun e => hn ((hother (u.pml4, n) hne).mpr e)
  · have hba : b ≠ a := by
      rintro rfl
      rw [h.fresh b hb] at hv
      cases hv
    exact (setSpace_of_ne _ _ hba).trans (h.fresh b hb)

theorem filled_edit (h : Spaces maxPfn usable fx Q s V) (hv : s.spaces a = some v)
    (hw : w.pml4 = v.pml4) {m : Mach}
    (hother : ∀ x, x.1 ≠ v.pml4 → (V' x = none ↔ V x = none)) {b : Nat}
    (hfull : b = a → ∀ n, Covers w.list (n * PAGE_SIZE) → V' (v.pml4, n) ≠ none)
    (hf : Filled s V b) : Filled ({ s with mach := m }.setSpace a (some w)) V' b := by
  intro u n hu hn
  rcases setSpace_cases hu with ⟨hb, e⟩ | ⟨hb, hu⟩
  · cases e
    rw [hw]
    exact hfull hb n hn
  · have hne : u.pml4 ≠ v.pml4 := fun e => hb (h.inj b a u v hu hv e)
    exact fun e => hf u n hu hn ((hother (u.pml4, n) hne).mp e)

/-- A space goes, after its tables. -/
theorem remove (h : Spaces maxPfn usable fx Q s V) (hv : s.spaces a = some v) {m : Mach}
    (hm : Settled maxPfn usable s.heap fx (fun t => t ≠ v.pml4 ∧ s.Roots t) V m) :
    Spaces maxPfn usable fx Q ({ s with mach := m }.setSpace a none) V := by
  have hold : ∀ b u, (s.setSpace a none).spaces b = some u → b ≠ a ∧ s.spaces b = some u := by
    intro b u hu
    rcases setSpace_cases hu with ⟨-, e⟩ | hu
    · cases e
    · exact hu
  have hroots : ({ s with mach := m }.setSpace a none).Roots
      = fun t => t ≠ v.pml4 ∧ s.Roots t := by
    funext t
    refine propext ⟨fun ht => ?_, fun ht => ?_⟩
    · obtain ⟨b, u, hu, rfl⟩ := ht
      obtain ⟨hb, hu⟩ := hold b u hu
      exact ⟨fun e => hb (h.inj b a u v hu hv e), b, u, hu, rfl⟩
    · obtain ⟨hne, b, u, hu, rfl⟩ := ht
      have hb : b ≠ a := by
        rintro rfl
        rw [hv] at hu
        cases hu
        exact hne rfl
      exact ⟨b, u, (setSpace_of_ne _ _ hb).trans hu, rfl⟩
  refine ⟨?_, h.kernel, fun b c u w hu hw he => ?_, fun b u hu => ?_, fun b u hu => ?_,
    fun b u n hu hn => ?_, fun b hb => ?_⟩
  · rw [hroots]
    exact hm
  · exact h.inj b c u w (hold b u hu).2 (hold c w hw).2 he
  · exact h.lists b u (hold b u hu).2
  · exact h.user b u (hold b u hu).2
  · exact h.sound b u n (hold b u hu).2 hn
  · by_cases hba : b = a
    · rw [hba]
      exact setSpace_self _ _ _
    · exact (setSpace_of_ne _ _ hba).trans (h.fresh b hb)

-- ==== the calls

section calls

variable (hmax : maxPfn < 2 ^ 40) (hzero : usable 0 = false)

include hmax hzero

/-- `vas_create(NULL)`: the spaces stay, or an empty one comes. -/
theorem create (h : Spaces maxPfn usable fx Q s V) {o : Option Nat}
    (hc : s.vasCreate none = (s', o)) :
    Spaces maxPfn usable fx Q s' V
      ∧ ((o = none ∧ s'.spaces = s.spaces)
        ∨ ∃ d g, o = some d ∧ s.spaces d = none
          ∧ s'.spaces = Function.update s.spaces d (some ⟨g, [], VAS_USER_START⟩)
          ∧ ∀ n, V (g, n) = none) := by
  unfold vasCreate at hc
  split at hc
  · rename_i s1 hk
    cases hc
    have hrun := heapRun_kzalloc hk
    exact ⟨h.heap hrun, Or.inl ⟨rfl, hrun.spaces.1⟩⟩
  rename_i s1 hk
  have hrun := heapRun_kzalloc hk
  have h1 := h.heap hrun
  obtain ⟨k, hbk, rfl, hextra⟩ := h1.settled
  simp only at hc
  cases hroot : ptableCreate Pmm.pmmAllocPage s1.mach s1.kernelPml4 with
  | mk m o' =>
  rw [hroot] at hc
  obtain ⟨rfl, rfl⟩ | ⟨g, rfl, hR, hb⟩ := hbk.create hmax hzero h1.kernel hroot
  · cases hc
    have hrun' := hrun.trans (heapRun_kfree s1)
    exact ⟨h1.heap (heapRun_kfree s1), Or.inl ⟨rfl, hrun'.spaces.1⟩⟩
  cases hc
  have hnone : ∀ n, k.view (g, n) = none := by
    intro n
    by_contra hne
    exact hR (hbk.dom _ hne).1
  have hfree : s1.spaces s1.next = none := h1.fresh _ (Nat.le_refl _)
  have hother : ∀ b u, s1.spaces b = some u → b ≠ s1.next ∧ u.pml4 ≠ g := by
    intro b u hu
    refine ⟨?_, fun e => hR ⟨b, u, hu, e⟩⟩
    rintro rfl
    rw [hfree] at hu
    cases hu
  generalize hnew : (⟨g, [], VAS_USER_START⟩ : Vas) = new
  have hpml4 : new.pml4 = g := by rw [← hnew]
  have hlist : new.list = [] := by rw [← hnew]
  refine ⟨⟨?_, h1.kernel, fun b c u w hu hw he => ?_, ?_, fun b u hu => ?_,
    fun b u n hu hn => ?_, fun b hb => ?_⟩, Or.inr ⟨s1.next, g, rfl, ?_, ?_, hnone⟩⟩
  · have hroots : Roots ({ s1.setSpace s1.next (some new) with
        mach := m, next := s1.next + 1 } : Vm) = fun t => t = g ∨ s1.Roots t := by
      funext r
      refine propext ⟨fun hr => ?_, fun hr => ?_⟩
      · obtain ⟨b, u, hu, rfl⟩ := hr
        rcases setSpace_cases (s := s1) hu with ⟨-, e⟩ | ⟨-, hu⟩
        · cases e
          exact Or.inl hpml4
        · exact Or.inr ⟨b, u, hu, rfl⟩
      · rcases hr with rfl | hr
        · exact ⟨s1.next, new, setSpace_self s1 _ _, hpml4⟩
        · obtain ⟨b, u, hu, rfl⟩ := hr
          exact ⟨b, u, (setSpace_of_ne s1 _ (hother b u hu).1).trans hu, rfl⟩
    rw [hroots]
    exact ⟨_, hb, rfl, hextra⟩
  · rcases setSpace_cases (s := s1) hu with ⟨rfl, e⟩ | ⟨-, hu⟩
    · cases e
      rcases setSpace_cases (s := s1) hw with ⟨rfl, -⟩ | ⟨-, hw⟩
      · rfl
      · exact ((hother c w hw).2 (he.symm.trans hpml4)).elim
    · rcases setSpace_cases (s := s1) hw with ⟨-, e⟩ | ⟨-, hw⟩
      · cases e
        exact ((hother b u hu).2 (he.trans hpml4)).elim
      · exact h1.inj b c u w hu hw he
  · refine Lists.set (s := { s1 with mach := m, next := s1.next + 1 }) h1.lists ?_
    rw [hlist]
    exact vadsOk_nil
  · rcases setSpace_cases (s := s1) hu with ⟨-, e⟩ | ⟨-, hu⟩
    · cases e
      rw [hlist]
      exact fun x hx => (by cases hx)
    · exact h1.user b u hu
  · rcases setSpace_cases (s := s1) hu with ⟨-, e⟩ | ⟨-, hu⟩
    · cases e
      rw [hpml4] at hn
      exact (hn (hnone n)).elim
    · exact h1.sound b u n hu hn
  · have hb' : s1.next + 1 ≤ b := hb
    exact (setSpace_of_ne s1 _ (by omega)).trans (h1.fresh b (by omega))
  · rw [← hrun.spaces.1]
    exact hfree
  · rw [hnew, ← hrun.spaces.1]
    rfl

/-- `vas_map_anon`. -/
theorem mapAnon (h : Spaces maxPfn usable fx Q s V) {hint length base : Nat} {flags : Word}
    (hlen : length ≤ 2 ^ 64 - PAGE_SIZE)
    (hflags : Q (flags ||| VAD_ANONYMOUS ||| VAD_MAPPED))
    (hm : s.vasMapAnon a hint length flags = .ok (s', base)) :
    ∃ V', Spaces maxPfn usable fx Q s' V' ∧ (∀ b, Filled s V b → Filled s' V' b)
      ∧ Tame V V' := by
  have hlists := h.lists.mapAnon hlen hm
  rcases vasMapAnon_inv hm with hrun |
    ⟨v, b, stop, vad, s1, mach, rc, hv, -, hp, hstop, hvad, hrun, hcall, hdone⟩
  · exact ⟨V, h.heap hrun, fun _ hf => filled_heap hrun hf, Tame.refl V⟩
  obtain ⟨halign, hwrap, hend, hfree⟩ := (h.lists a v hv).placement (pageAlignUp_lt _) hp
  rw [hwrap] at hstop
  rw [← hstop] at hend hfree
  have hhigh : stop ≤ 2 ^ 47 := by
    have hu : VAS_USER_END = 0x00007FFFFFFFFFFF := rfl
    omega
  have h1 := h.heap hrun
  have hv1 : s1.spaces a = some v := by
    rw [hrun.spaces.1]
    exact hv
  -- nothing is mapped where the pages go
  have hnone : ∀ n, Pages (pages b stop) n → V (v.pml4, n) = none := by
    intro n hn
    rw [pages_iff halign] at hn
    by_contra hc
    obtain ⟨x, hx, hx1, hx2⟩ := h.sound a v n hv hc
    exact hfree ⟨x, hx, by omega, by omega⟩
  obtain ⟨m', V', rc', hcommit, hset', hin, hfull, htame⟩ :=
    h1.settled.commitPages (vad.flags &&& VAD_PROT_MASK) hmax hzero (root hv1)
      (lowerPages_pages halign hhigh) (pages_distinct halign) hnone
  have hcall' : s1.mach.commitAnon v.pml4 vad = .ok (m', rc') := by
    rw [hvad] at hcommit ⊢
    exact hcommit
  obtain ⟨rfl, rfl⟩ := Prod.mk.inj (Except.ok.inj (hcall.symm.trans hcall'))
  rcases hdone with ⟨-, m2, hback, rfl⟩ | ⟨hrc, rfl, rfl⟩
  · -- what was committed goes back
    obtain ⟨m2', V2, hun, h2, hc, -⟩ :=
      hset'.uncommitRange hmax hzero (root hv1) halign hhigh
    cases hback.symm.trans hun
    have hV2 : V2 = V := by
      funext x
      by_cases hr : x.1 = v.pml4 ∧ Pages (pages b stop) x.2
      · have hxe : x = (v.pml4, x.2) := Prod.ext hr.1 rfl
        rw [hxe, hc.none x.2 ((pages_iff halign).mp hr.2), hnone x.2 hr.2]
      · rw [hc.within x fun e => hr ⟨e.1, (pages_iff halign).mpr e.2⟩, hin x hr]
    rw [hV2] at h2
    have hkfree := heapRun_kfree { s1 with mach := m2 }
    refine ⟨V, (h1.mach h2 fun _ e => e).heap hkfree, fun c hf => ?_, Tame.refl V⟩
    exact filled_heap hkfree (fun u n hu => filled_heap hrun hf u n hu)
  · have hother : ∀ x, x.1 ≠ v.pml4 → (V' x = none ↔ V x = none) := fun x hx => by
      rw [hin x fun e => hx e.1]
    have hcov : ∀ {x}, Covers (vadInsert vad v.list) x
        ↔ (base ≤ x ∧ x < stop) ∨ Covers v.list x := by
      intro x
      rw [covers_vadInsert, hvad]
    have hw : ({ v with list := vadInsert vad v.list, userStart := stop } : Vas).pml4
        = v.pml4 := rfl
    refine ⟨V', h1.edit hv1 hw (hlists a _ (setSpace_self _ _ _)) ?_ hset' hother ?_,
      fun c hf => h1.filled_edit hv1 hw hother ?_ (filled_heap hrun hf), htame⟩
    · intro x hx
      rcases mem_vadInsert.mp hx with rfl | hx
      · rw [hvad]
        exact ⟨hhigh, hflags⟩
      · exact h.user a v hv x hx
    · intro n hn
      rw [hcov]
      by_cases hr : base ≤ n * PAGE_SIZE ∧ n * PAGE_SIZE < stop
      · exact Or.inl hr
      · rw [hin _ fun e => hr ((pages_iff halign).mp e.2)] at hn
        exact Or.inr (h.sound a v n hv hn)
    · intro hca n hn
      rw [hcov] at hn
      by_cases hr : base ≤ n * PAGE_SIZE ∧ n * PAGE_SIZE < stop
      · exact hfull hrc n ((pages_iff halign).mpr hr)
      · rw [hin _ fun e => hr ((pages_iff halign).mp e.2)]
        rw [hca] at hf
        exact hf v n hv (hn.resolve_left hr)

/-- `vas_unmap`. -/
theorem unmap (h : Spaces maxPfn usable fx Q s V) {start length : Nat} {rc : Int}
    (hwrap : pageAlignDown start + pageAlignUp length ≤ 2 ^ 64)
    (hm : s.vasUnmap a start length = .ok (s', rc)) :
    ∃ V', Spaces maxPfn usable fx Q s' V' ∧ (∀ b, Filled s V b → Filled s' V' b)
      ∧ Tame V V' := by
  have hlists := h.lists.unmap hwrap hm
  rcases vasUnmap_inv hm with rfl | ⟨v, lo, hi, m1, s2, hv, hlo, hhi, hloop, hrun, rfl⟩
  · exact ⟨V, h, fun _ hf => hf, Tame.refl V⟩
  have hmod1 := pageAlignDown_mod start
  have hmod2 := pageAlignUp_mod length
  rw [← hlo] at hwrap hmod1
  generalize pageAlignUp length = len at hwrap hhi hmod2
  -- a range that ends with the address space has the end 0
  have hrange : lo ≤ hi ∧ hi % PAGE_SIZE = 0 ∨ hi = 0 := by
    have hs : PAGE_SIZE = 4096 := rfl
    rw [hs] at hmod1 hmod2 ⊢
    omega
  have hcov : ∀ x, Covers (removeRange lo hi v.list) x
      ↔ Covers v.list x ∧ ¬ (lo ≤ x ∧ x < hi) := by
    intro x
    rcases hrange with ⟨hle, halign⟩ | hzero
    · exact ((h.lists a v hv).removeRange hle ⟨hmod1, halign⟩).2 x
    · rw [hzero, removeRange_zero]
      exact ⟨fun hx => ⟨hx, by omega⟩, And.left⟩
  obtain ⟨m1', V', hun, hset', hc⟩ := h.settled.unmapVads hi hmax hzero (root hv)
    (h.lists a v hv) (fun x hx => (h.user a v hv x hx).1) hmod1
  cases hloop.symm.trans hun
  have hsub : ∀ x, V x = none → V' x = none := by
    intro x hx
    rcases hc.sub x with e | e
    · rw [e, hx]
    · exact e
  have hother : ∀ x, x.1 ≠ v.pml4 → (V' x = none ↔ V x = none) := fun x hx => by
    rw [hc.within x fun e => hx e.1]
  have h2 := (h.mach hset' hsub).heap hrun
  have hv2 : s2.spaces a = some v := by
    rw [hrun.spaces.1]
    exact hv
  have hf2 : ∀ b, b ≠ a → Filled s V b → Filled s2 V' b := by
    intro b hb hf
    refine filled_heap hrun fun u n hu hn => ?_
    have hne : u.pml4 ≠ v.pml4 := fun e => hb (h.inj b a u v hu hv e)
    exact fun e => hf u n hu hn ((hother (u.pml4, n) hne).mp e)
  have hw : ({ v with list := removeRange lo hi v.list } : Vas).pml4 = v.pml4 := rfl
  refine ⟨V', h2.edit hv2 hw (hlists a _ (setSpace_self _ _ _)) ?_ h2.settled
    (fun _ _ => Iff.rfl) ?_, fun b hf => ?_, Tame.mono h.settled.sparse hc.sub⟩
  · intro x hx
    obtain ⟨u, hu, -, hstop, hflags⟩ := mem_removeRange hx
    obtain ⟨h1, h2⟩ := h.user a v hv u hu
    rw [hflags]
    exact ⟨Nat.le_trans hstop h1, h2⟩
  · intro n hn
    rw [hcov]
    have hold := h.sound a v n hv fun e => hn (hsub _ e)
    exact ⟨hold, fun e => hn (hc.none n ⟨hold, e⟩)⟩
  · intro u n hu hn
    rcases setSpace_cases hu with ⟨rfl, e⟩ | ⟨hb, hu⟩
    · cases e
      obtain ⟨hold, hout⟩ := (hcov _).mp hn
      show V' (v.pml4, n) ≠ none
      rw [hc.within (v.pml4, n) fun e => hout e.2.2]
      exact hf v n hv hold
    · exact hf2 b hb hf u n hu hn

/-- `vas_protect`. It keeps the view isolated exactly when it does not make
a shared frame writable. -/
theorem protect (h : Spaces maxPfn usable fx Q s V)
    (hQ : ∀ fl w, Q fl → Q ((fl &&& ~~~VAD_PROT_MASK) ||| (w &&& VAD_PROT_MASK)))
    (start length : Nat) (newFlags : Word) :
    ∃ V', Spaces maxPfn usable fx Q (s.vasProtect a start length newFlags).1 V'
      ∧ (∀ b, Filled s V b → Filled (s.vasProtect a start length newFlags).1 V' b)
      ∧ V'.frames = V.frames
      ∧ (Isolated V → (Isolated V' ↔ (hasFlag newFlags PAGE_WRITE = true →
          ∀ v n f fl, s.spaces a = some v → pageAlignDown start ≤ n * PAGE_SIZE →
            n * PAGE_SIZE < (pageAlignDown start + pageAlignUp length) % 2 ^ 64 →
            V (v.pml4, n) = some (f, fl) → refs V.frames f ≤ 1))) := by
  have hlists := h.lists.protect (a := a) start length newFlags
  unfold vasProtect at hlists ⊢
  cases hv : s.spaces a with
  | none =>
      exact ⟨V, h, fun _ hf => hf, rfl, fun hi => ⟨fun _ _ v n f fl e => (by cases e), fun _ => hi⟩⟩
  | some v =>
  simp only [hv] at hlists ⊢
  by_cases hz : length = 0
  · refine ⟨V, ?_⟩
    have hempty : pageAlignUp 0 = 0 := by decide
    simp only [if_pos hz]
    refine ⟨h, fun _ hf => hf, trivial, fun hi => ⟨fun _ _ u n f fl _ h1 h2 => ?_, fun _ => hi⟩⟩
    rw [hz, hempty, Nat.add_zero] at h2
    have := Nat.mod_le (pageAlignDown start) (2 ^ 64)
    omega
  simp only [if_neg hz] at hlists ⊢
  have hmod := pageAlignDown_mod start
  generalize pageAlignDown start = lo at hmod hlists ⊢
  generalize (lo + pageAlignUp length) % 2 ^ 64 = hi at hlists ⊢
  obtain ⟨m', V', l', hrun, hset', hre, hl'⟩ := h.settled.protectVads hi hmax hzero (root hv)
    (h.lists a v hv) (fun x hx => (h.user a v hv x hx).1) hmod
    (newFlags &&& VAD_PROT_MASK)
  simp only [hrun] at hlists ⊢
  have hother : ∀ x, x.1 ≠ v.pml4 → (V' x = none ↔ V x = none) := fun x _ => hre.none_iff x
  have hcov : ∀ x, Covers l' x ↔ Covers v.list x := by
    intro x
    have hb := protectVads_bounds hrun
    have hgen : ∀ {l k : List Vad}, (l.map fun v => (v.start, v.stop))
        = (k.map fun v => (v.start, v.stop)) → Covers l x → Covers k x := by
      intro l k he hx
      obtain ⟨y, hy, h1, h2⟩ := hx
      have hmem : (y.start, y.stop) ∈ k.map fun v => (v.start, v.stop) := by
        rw [← he]
        exact List.mem_map_of_mem hy
      obtain ⟨z, hz, e⟩ := List.mem_map.mp hmem
      obtain ⟨e1, e2⟩ := Prod.mk.inj e
      exact ⟨z, hz, by omega, by omega⟩
    exact ⟨hgen hb, hgen hb.symm⟩
  have hw : ({ v with list := l' } : Vas).pml4 = v.pml4 := rfl
  refine ⟨V', h.edit hv hw (hlists a _ (setSpace_self _ _ _)) ?_ hset' hother ?_,
    fun b hf => h.filled_edit hv hw hother ?_ hf, hre.frames, fun hi => ?_⟩
  · intro x hx
    obtain ⟨u, hu, -, hstop, hflags⟩ := hl' x hx
    obtain ⟨h1, h2⟩ := h.user a v hv u hu
    refine ⟨by omega, ?_⟩
    rcases hflags with e | e
    · rw [e]
      exact h2
    · rw [e]
      exact hQ _ _ h2
  · intro n hn
    exact (hcov _).mpr (h.sound a v n hv fun e => hn ((hre.none_iff _).mpr e))
  · intro hba n hn
    rw [hba] at hf
    exact fun e => hf v n hv ((hcov _).mp hn) ((hre.none_iff _).mp e)
  · rw [hre.isolated_iff h.settled.sparse hi, write_prot]
    refine imp_congr_right fun _ => ⟨fun hc u n f fl hu h1 h2 hx => ?_,
      fun hc n f fl hn hx => hc v n f fl rfl hn.2.1 hn.2.2 hx⟩
    cases hu
    refine hc n f fl ⟨h.sound a v n hv ?_, h1, h2⟩ hx
    rw [hx]
    exact Option.some_ne_none _

/-- `vas_handle_page_fault` and `vas_user_access_ok`. -/
theorem pageFault (h : Spaces maxPfn usable fx Q s V) (addr : Nat) (err : Word) :
    ∃ s' V', s.call (.pageFault a addr err) = .ok s' ∧ Spaces maxPfn usable fx Q s' V'
      ∧ (∀ b, Filled s V b → Filled s' V' b) ∧ Tame V V' := by
  simp only [call]
  cases hv : s.spaces a with
  | none => exact ⟨s, V, rfl, h, fun _ hf => hf, Tame.refl V⟩
  | some v =>
      obtain ⟨m', V', rc, hrun, hset', hnone, htame⟩ := h.settled.vasHandlePageFault hmax hzero
        (root hv) (h.lists a v hv) (fun x hx => (h.user a v hv x hx).1) addr err
      obtain ⟨h', hf'⟩ := h.touch hset' hnone
      simp only [hrun]
      exact ⟨_, V', rfl, h', hf', htame⟩

theorem accessOk (h : Spaces maxPfn usable fx Q s V) (addr len : Nat) (write : Bool) :
    ∃ s' V', s.call (.accessOk a addr len write) = .ok s' ∧ Spaces maxPfn usable fx Q s' V'
      ∧ (∀ b, Filled s V b → Filled s' V' b) ∧ Tame V V' := by
  simp only [call]
  cases hv : s.spaces a with
  | none => exact ⟨s, V, rfl, h, fun _ hf => hf, Tame.refl V⟩
  | some v =>
      have hpages : ∃ m' V' rc, s.mach.vasUserAccessOk v addr len write = .ok (m', rc)
          ∧ Settled maxPfn usable s.heap fx s.Roots V' m' ∧ (∀ x, V' x = none ↔ V x = none)
          ∧ Tame V V' := by
        unfold Machine.vasUserAccessOk
        split
        · exact ⟨s.mach, V, _, rfl, h.settled, fun _ => Iff.rfl, Tame.refl V⟩
        split
        · exact ⟨s.mach, V, _, rfl, h.settled, fun _ => Iff.rfl, Tame.refl V⟩
        split
        · exact ⟨s.mach, V, _, rfl, h.settled, fun _ => Iff.rfl, Tame.refl V⟩
        · exact h.settled.accessPages hmax hzero (root hv) (h.lists a v hv)
            (fun x hx => (h.user a v hv x hx).1) write _
      obtain ⟨m', V', rc, hrun, hset', hnone, htame⟩ := hpages
      obtain ⟨h', hf'⟩ := h.touch hset' hnone
      simp only [hrun]
      exact ⟨_, V', rfl, h', hf', htame⟩

/-- The loop of `vas_destroy`. -/
theorem destroyVads (h : Spaces maxPfn usable fx Q s V) (hv : s.spaces a = some v)
    {l : List Vad} (hl : ∀ x ∈ l, x ∈ v.list) :
    ∃ s' V', Vm.destroyVads v.pml4 l s = .ok s' ∧ Spaces maxPfn usable fx Q s' V'
      ∧ s'.spaces = s.spaces ∧ Clears v.pml4 (fun n => Covers l (n * PAGE_SIZE)) V V'
      ∧ SameTables s.Roots s.mach s'.mach := by
  induction l generalizing s V with
  | nil =>
      refine ⟨s, V, rfl, h, rfl, Clears.empty fun n hn => ?_, SameTables.refl _ _⟩
      obtain ⟨x, hx, -⟩ := hn
      cases hx
  | cons x l ih =>
      have hx := hl x List.mem_cons_self
      obtain ⟨m1, V1, hun, hset1, hc1, hsame1⟩ := h.settled.uncommitRange hmax hzero (root hv)
        ((h.lists a v hv).fits x hx).2.2.1 (h.user a v hv x hx).1
      have h1 : Spaces maxPfn usable fx Q { s with mach := m1 } V1 := by
        refine h.mach hset1 fun y hy => ?_
        rcases hc1.sub y with e | e
        · rw [e, hy]
        · exact e
      have hrun := heapRun_kfree { s with mach := m1 }
      have hsp : ({ s with mach := m1 } : Vm).kfree.spaces = s.spaces := hrun.spaces.1
      have hv2 : ({ s with mach := m1 } : Vm).kfree.spaces a = some v := by
        rw [hsp]
        exact hv
      obtain ⟨s', V', hloop, h', hsp', hc, hsame⟩ :=
        ih (h1.heap hrun) hv2 fun y hy => hl y (List.mem_cons_of_mem _ hy)
      have hroots : ({ s with mach := m1 } : Vm).kfree.Roots = s.Roots := by
        funext r
        unfold Roots
        rw [hsp]
      have hmem : ({ s with mach := m1 } : Vm).kfree.mach.mem = m1.mem := h1.heap_mem hrun
      refine ⟨s', V', ?_, h', hsp'.trans hsp, (hc1.trans hc).congr fun n => covers_cons.symm, ?_⟩
      · unfold Vm.destroyVads
        rw [hun]
        exact hloop
      · rw [hroots] at hsame
        refine hsame1.trans fun t q ht hq => ?_
        rw [hsame t q ht hq, hmem]

/-- `vas_destroy`, step by step: the pages of the descriptors go back, and
then every table of the root, once. -/
theorem destroy_steps (h : Spaces maxPfn usable fx Q s V) (hv : s.spaces a = some v) :
    ∃ s1 V' m s', Vm.destroyVads v.pml4 v.list s = .ok s1
      ∧ Spaces maxPfn usable fx Q s1 V' ∧ Clears v.pml4 (fun _ => True) V V'
      ∧ s1.mach.ptableDestroy v.pml4 = .ok m
      ∧ (Machine.tables s1.mach.mem v.pml4).foldlM Machine.free s1.mach = .ok m
      ∧ (Machine.tables s1.mach.mem v.pml4).Nodup
      ∧ (∀ f, f ∈ Machine.tables s1.mach.mem v.pml4
          ↔ ∃ p, Lower p ∧ Radix.walk (child s.mach.mem) v.pml4 p = some f)
      ∧ s.vasDestroy a = .ok s' ∧ Spaces maxPfn usable fx Q s' V'
      ∧ s'.spaces = (s.setSpace a none).spaces ∧ SameTables s.Roots s.mach s'.mach := by
  obtain ⟨s1, V', hvads, h1, hsp, hc, hsame⟩ :=
    h.destroyVads hmax hzero hv (l := v.list) fun _ hx => hx
  have hv1 : s1.spaces a = some v := by
    rw [hsp]
    exact hv
  have hnone : ∀ n, V' (v.pml4, n) = none := by
    intro n
    by_cases hn : Covers v.list (n * PAGE_SIZE)
    · exact hc.none n hn
    · rw [hc.within (v.pml4, n) fun e => hn e.2]
      by_contra he
      exact hn (h.sound a v n hv he)
  have hall : Clears v.pml4 (fun _ => True) V V' :=
    ⟨fun x hx => hc.within x fun e => hx ⟨e.1, trivial⟩, fun n _ => hnone n⟩
  obtain ⟨k, hk, rfl, hextra⟩ := h1.settled
  obtain ⟨k', pmm, hdestroy, hfrees, hb, hview, hex⟩ := hk.destroy (root hv1) hnone
  obtain ⟨hnd, hiff⟩ := hk.tables_spec (root hv1)
  have hcall : s.vasDestroy a
      = .ok ({ s1 with mach := { s1.mach with pmm } }.setSpace a none).kfree := by
    unfold vasDestroy
    simp only [hv, hvads, hdestroy]
  have h2 : Spaces maxPfn usable fx Q
      ({ s1 with mach := { s1.mach with pmm } }.setSpace a none) k.view :=
    h1.remove hv1 ⟨k', hb, hview, fun f => by rw [hex]; exact hextra f⟩
  have hrun := heapRun_kfree ({ s1 with mach := { s1.mach with pmm } }.setSpace a none)
  refine ⟨s1, k.view, _, _, hvads, h1, hall, hdestroy, hfrees, hnd, fun f => ?_, hcall,
    h2.heap hrun, ?_, fun t q ht hq => ?_⟩
  · rw [hiff]
    refine exists_congr fun p => and_congr_right fun hp => ?_
    rw [hsame v.pml4 p (root hv) hp]
  · rw [hrun.spaces.1]
    show Function.update s1.spaces a none = Function.update s.spaces a none
    rw [hsp]
  · rw [h2.heap_mem hrun]
    exact hsame t q ht hq

/-- `vas_destroy`. -/
theorem destroy (h : Spaces maxPfn usable fx Q s V) :
    ∃ s' V', s.vasDestroy a = .ok s' ∧ Spaces maxPfn usable fx Q s' V'
      ∧ s'.spaces = (s.setSpace a none).spaces
      ∧ (∀ b, Filled s V b → Filled s' V' b) ∧ Tame V V' := by
  cases hv : s.spaces a with
  | none =>
      refine ⟨s, V, ?_, h, ?_, fun _ hf => hf, Tame.refl V⟩
      · unfold vasDestroy
        rw [hv]
      · show s.spaces = Function.update s.spaces a none
        rw [← hv, Function.update_eq_self]
  | some v =>
      obtain ⟨s1, V', m, s', -, -, hc, -, -, -, -, hcall, h', hsp, -⟩ :=
        h.destroy_steps hmax hzero hv
      refine ⟨s', V', hcall, h', hsp, fun b hf u n hu hn => ?_,
        Tame.mono h.settled.sparse hc.sub⟩
      rw [hsp] at hu
      rcases setSpace_cases hu with ⟨-, e⟩ | ⟨hb, hu⟩
      · cases e
      have hne : u.pml4 ≠ v.pml4 := fun e => hb (h.inj b a u v hu hv e)
      rw [hc.within (u.pml4, n) fun e => hne e.1]
      exact hf u n hu hn

/-- The outer loop of `vas_clone`: the copies go into `d` one behind the
other. -/
theorem cloneVads (h : Spaces maxPfn usable fx Q s V) {d : Nat} {src dst : Vas}
    {list : List Vad} (ha : s.spaces a = some src) (hd : s.spaces d = some dst)
    (hne : a ≠ d) (hok : VadsOk (dst.list ++ list)) (hin : ∀ x ∈ list, x ∈ src.list)
    (hfa : Filled s V a) :
    ∃ s' V' done, Vm.cloneVads src.pml4 d list s = .ok (s', done)
      ∧ Spaces maxPfn usable fx Q s' V'
      ∧ (∀ b, b ≠ d → Filled s V b → Filled s' V' b)
      ∧ Copies src.pml4 dst.pml4 V V'
      ∧ (done = true → Filled s V d → Filled s' V' d)
      ∧ (Guarded V src.pml4 list → Isolated V → Isolated V') := by
  induction list generalizing s V dst with
  | nil =>
      exact ⟨s, V, true, rfl, h, fun _ _ hf => hf, Copies.of_frames rfl, fun _ hf => hf,
        fun _ hi => hi⟩
  | cons vad list ih =>
      unfold Vm.cloneVads
      cases hk : s.kzalloc with
      | mk s1 ok =>
      have hrun := heapRun_kzalloc hk
      have h1 := h.heap hrun
      cases ok with
      | false =>
          exact ⟨s1, V, false, rfl, h1, fun b _ hf => filled_heap hrun hf,
            Copies.of_frames rfl, fun e => (by cases e), fun _ hi => hi⟩
      | true =>
      have ha1 : s1.spaces a = some src := by
        rw [hrun.spaces.1]
        exact ha
      have hd1 : s1.spaces d = some dst := by
        rw [hrun.spaces.1]
        exact hd
      simp only [hd1]
      have hvad := hin vad List.mem_cons_self
      have hroots : src.pml4 ≠ dst.pml4 := fun e => hne (h.inj a d src dst ha hd e)
      have halign := ((h.lists a src ha).fits vad hvad).2.2.1
      have hbehind : ∀ w ∈ dst.list, w.stop ≤ vad.start := fun w hw =>
        (List.pairwise_append.mp hok.ordered).2.2 w hw vad List.mem_cons_self
      have hfits : ∀ w ∈ dst.list, w.start < w.stop := fun w hw =>
        (hok.fits w (List.mem_append_left _ hw)).1
      have hins : vadInsert vad dst.list = dst.list ++ [vad] :=
        vadInsert_append fun w hw => Nat.lt_of_lt_of_le (hfits w hw) (hbehind w hw)
      -- the copy maps nothing yet where the descriptor goes
      have hnone : ∀ n, Pages (pages vad.start vad.stop) n → V (dst.pml4, n) = none := by
        intro n hn
        rw [pages_iff halign] at hn
        by_contra hc
        obtain ⟨w, hw, -, hw2⟩ := h.sound d dst n hd hc
        have := hbehind w hw
        omega
      obtain ⟨m', V1, done, hloop, hset', hclones, hcopies, hdone, hiso⟩ :=
        h1.settled.clonePages vad.flags hmax hzero (root ha1) (root hd1) hroots
          (lowerPages_pages halign (h.user a src ha vad hvad).1) (pages_distinct halign) hnone
      have happ : VadsOk ((dst.list ++ [vad]) ++ list) := by
        rw [List.append_assoc]
        exact hok
      have hw : ({ dst with list := vadInsert vad dst.list } : Vas).pml4 = dst.pml4 := rfl
      have hlist : VadsOk (vadInsert vad dst.list) := by
        rw [hins]
        exact ⟨(List.pairwise_append.mp happ.ordered).1,
          fun w hw => happ.fits w (List.mem_append_left _ hw)⟩
      have huser : ∀ x ∈ vadInsert vad dst.list, x.stop ≤ 2 ^ 47 ∧ Q x.flags := by
        intro x hx
        rcases mem_vadInsert.mp hx with rfl | hx
        · exact h.user a src ha x hvad
        · exact h.user d dst hd x hx
      have h2 : Spaces maxPfn usable fx Q ({ s1 with mach := m' }.setSpace d
          (some { dst with list := vadInsert vad dst.list })) V1 := by
        refine h1.edit hd1 hw hlist huser hset' (fun x hx => hclones.kept x hx) fun n hn => ?_
        rw [covers_vadInsert, ← pages_iff halign]
        by_cases hp : Pages (pages vad.start vad.stop) n
        · exact Or.inl hp
        · rw [hclones.within (dst.pml4, n) rfl hp] at hn
          exact Or.inr (h.sound d dst n hd hn)
      have hf2 : ∀ b, b ≠ d → Filled s V b → Filled ({ s1 with mach := m' }.setSpace d
          (some { dst with list := vadInsert vad dst.list })) V1 b := fun b hb hf =>
        h1.filled_edit hd1 hw (fun x hx => hclones.kept x hx) (fun e => (hb e).elim)
          (filled_heap hrun hf)
      have hguard : Guarded V src.pml4 (vad :: list) → Isolated V → Isolated V1 := by
        intro hg hi
        obtain ⟨hshared, hwrite⟩ := hg vad List.mem_cons_self
        refine hiso hshared (fun n f fl hn hf hfl => ?_) hi
        rw [write_prot]
        rw [pages_iff halign] at hn
        exact hwrite n f fl hn.1 hn.2 hf hfl
      rw [show (s1.setSpace d (some { dst with list := vadInsert vad dst.list })).mach
        = s1.mach from rfl, hloop]
      cases done with
      | false =>
          exact ⟨_, V1, false, rfl, h2, hf2, hcopies, fun e => (by cases e), hguard⟩
      | true =>
          have ha2 : ({ s1 with mach := m' }.setSpace d
              (some { dst with list := vadInsert vad dst.list })).spaces a = some src :=
            (setSpace_of_ne _ _ hne).trans ha1
          have hok2 : VadsOk (vadInsert vad dst.list ++ list) := by
            rw [hins]
            exact happ
          obtain ⟨s', V', done, hrest, h', hf', hcopies', hfd', hiso'⟩ :=
            ih h2 ha2 (setSpace_self _ _ _) hok2
              (fun x hx => hin x (List.mem_cons_of_mem _ hx)) (hf2 a hne hfa)
          refine ⟨s', V', done, hrest, h', fun b hb hf => hf' b hb (hf2 b hb hf),
            hcopies.trans hroots hcopies', fun hd' hfd => hfd' hd' ?_,
            fun hg hi => hiso' ?_ (hguard hg hi)⟩
          · refine h1.filled_edit hd1 hw (fun x hx => hclones.kept x hx) (fun _ n hn => ?_)
              (filled_heap hrun hfd)
            rw [covers_vadInsert, ← pages_iff halign] at hn
            by_cases hp : Pages (pages vad.start vad.stop) n
            · intro e
              refine hfa src n ha ?_ ((hdone rfl n hp).mp e)
              obtain ⟨hp1, hp2⟩ := (pages_iff halign).mp hp
              exact ⟨vad, hvad, hp1, hp2⟩
            · rw [hclones.within (dst.pml4, n) rfl hp]
              exact hfd dst n hd (hn.resolve_left hp)
          · intro x hx
            obtain ⟨hshared, hwrite⟩ := hg x (List.mem_cons_of_mem _ hx)
            refine ⟨hshared, fun n f fl hx1 hx2 hf hfl => ?_⟩
            exact hwrite n f fl hx1 hx2 (hclones.guarded (src.pml4, n) f fl hroots hf hfl) hfl

/-- `vas_clone`. A clone that fails half-way is destroyed again. What the
copy adds to the entries of a frame is what the space has. -/
theorem clone (h : Spaces maxPfn usable fx Q s V) (hfill : ∀ b, Filled s V b) :
    ∃ s' V' o, s.vasClone a = .ok (s', o) ∧ Spaces maxPfn usable fx Q s' V'
      ∧ (∀ b, Filled s' V' b)
      ∧ (∀ N, 1 ≤ N → (∀ v, s.spaces a = some v →
          ∀ f, refs V.frames f + {n | V.frames (v.pml4, n) = some f}.ncard ≤ N) →
        AtMost N V → AtMost N V')
      ∧ (Level V → Level V')
      ∧ ((∀ v, s.spaces a = some v → Guarded V v.pml4 v.list) → Isolated V → Isolated V') := by
  unfold vasClone
  cases ha : s.spaces a with
  | none => exact ⟨s, V, none, rfl, h, hfill, fun _ _ _ hat => hat, id, fun _ hi => hi⟩
  | some src =>
  simp only
  cases hc : s.vasCreate none with
  | mk s1 o =>
  obtain ⟨h1, ⟨rfl, hsp⟩ | ⟨d, g, rfl, hfree, hsp, hnone⟩⟩ := h.create hmax hzero hc
  · refine ⟨s1, V, none, rfl, h1, fun b u n hu => ?_, fun _ _ _ hat => hat, id,
      fun _ hi => hi⟩
    rw [hsp] at hu
    exact hfill b u n hu
  have hne : a ≠ d := by
    rintro rfl
    rw [ha] at hfree
    cases hfree
  have ha1 : s1.spaces a = some src := by
    rw [hsp, Function.update_of_ne hne]
    exact ha
  have hd1 : s1.spaces d = some ⟨g, [], VAS_USER_START⟩ := by
    rw [hsp, Function.update_self]
  have hf1 : ∀ b, Filled s1 V b := by
    intro b u n hu hn
    by_cases hb : b = d
    · rw [hb, hd1] at hu
      cases hu
      obtain ⟨x, hx, -⟩ := hn
      cases hx
    · rw [hsp, Function.update_of_ne hb] at hu
      exact hfill b u n hu hn
  simp only [hd1]
  have hw : (⟨g, [], src.userStart⟩ : Vas).pml4 = (⟨g, [], VAS_USER_START⟩ : Vas).pml4 := rfl
  have h2 : Spaces maxPfn usable fx Q (s1.setSpace d (some ⟨g, [], src.userStart⟩)) V :=
    h1.edit hd1 hw vadsOk_nil (fun x hx => (by cases hx)) h1.settled (fun _ _ => Iff.rfl)
      fun n hn => (hn (hnone n)).elim
  have hf2 : ∀ b, Filled (s1.setSpace d (some ⟨g, [], src.userStart⟩)) V b := fun b =>
    h1.filled_edit (m := s1.mach) hd1 hw (fun _ _ => Iff.rfl)
      (fun _ n hn => by
        obtain ⟨x, hx, -⟩ := hn
        cases hx) (hf1 b)
  have ha2 : (s1.setSpace d (some ⟨g, [], src.userStart⟩)).spaces a = some src :=
    (setSpace_of_ne _ _ hne).trans ha1
  obtain ⟨s2, V', done, hloop, h3, hf3, hcopies, hfd3, hiso⟩ :=
    h2.cloneVads hmax hzero ha2 (setSpace_self _ _ _) hne (h.lists a src ha)
      (fun x hx => hx) (hf2 a)
  have hguard : (∀ v, some src = some v → Guarded V v.pml4 v.list) → Isolated V →
      Isolated V' := fun hg hi => hiso (hg src rfl) hi
  have hatMost : ∀ N, (∀ v, some src = some v →
      ∀ f, refs V.frames f + {n | V.frames (v.pml4, n) = some f}.ncard ≤ N) → AtMost N V' :=
    fun N hN f => Nat.le_trans (hcopies.refs_le h.settled.sparse hnone f) (hN src rfl f)
  rw [hloop]
  cases done with
  | true =>
      refine ⟨s2, V', some d, rfl, h3, fun b => ?_, fun N _ hN _ => hatMost N hN,
        hcopies.level, hguard⟩
      by_cases hb : b = d
      · rw [hb]
        exact hfd3 rfl (hf2 d)
      · exact hf3 b hb (hf2 b)
  | false =>
      obtain ⟨s3, V3, hdestroy, h4, hsp4, hf4, htame⟩ := h3.destroy (a := d) hmax hzero
      simp only [hdestroy]
      refine ⟨s3, V3, none, rfl, h4, fun b => ?_,
        fun N h1 hN _ => htame.atMost N h1 (hatMost N hN),
        fun hl => htame.level (hcopies.level hl), fun hg hi => htame.isolated (hguard hg hi)⟩
      by_cases hb : b = d
      · intro u n hu
        rw [hsp4, hb, setSpace_self] at hu
        cases hu
      · exact hf4 b (hf3 b hb (hf2 b))

end calls

end Spaces

end Alix.Vm
