/-
The page loops of `mm/vmm.c`, by their view.

Between two rounds of a loop no call holds a frame, so the books are a
view and nothing else: `Settled V m` says that the machine agrees with
the view `V`. Each function below turns one view into another, and says
whether that keeps the view isolated.
-/
import Alix.Mm.Proofs.Views
import Alix.Mm.Proofs.Vad

namespace Alix

open Paging
open Radix
open Pointers
open Dyadic (Block)

-- ==== reading

theorem pageAlignDown_pfnPhys (f : Nat) : pageAlignDown (pfnPhys f) = pfnPhys f := by
  unfold pageAlignDown pfnPhys
  rw [Nat.mul_div_cancel f (by decide)]

theorem pfnPhys_mod (f : Nat) : pfnPhys f % PAGE_SIZE = 0 := Nat.mul_mod_left _ _

namespace Backed

variable {maxPfn : Nat} {usable : Nat → Bool} {heap : List Block} {fx : Outside}
  {R : Nat → Prop} {k : Books} {m : Mach} {r va f : Nat} {fl flags : Word} {x : Spot}

/-- A mapped frame is one the allocator manages. -/
theorem managed (h : Backed maxPfn usable heap fx R k m) (hx : k.view x = some (f, fl)) :
    f < maxPfn + 1 ∧ usable f = true ∧ m.physToPage (pfnPhys f) = some f
      ∧ (m.pmm.pages f).reserved = false ∧ (m.pmm.pages f).poisoned = false := by
  have hu := h.mem_usable (h.used_own (h.entry_used hx))
  have hphys : physPfn (pfnPhys f) = f := Nat.mul_div_cancel f (by decide)
  have hlt := hu.1
  refine ⟨hu.1, hu.2, ?_, h.ledger.clean f hu⟩
  unfold Machine.physToPage
  rw [hphys, h.ledger.bound, if_neg (by omega)]

section read

variable (hmax : maxPfn < 2 ^ 40) (hzero : usable 0 = false)

include hmax in
/-- `paging_virt_to_phys` reads the view. -/
theorem virtToPhys (h : Backed maxPfn usable heap fx R k m) (hr : R r)
    (hv : va < 2 ^ 47) (ha : va % PAGE_SIZE = 0) :
    pagingVirtToPhys Pmm.pmmAllocPage m (some r) va
      = match k.view (r, va / PAGE_SIZE) with
        | none => 0
        | some (f, _) => pfnPhys f := by
  rw [pagingVirtToPhys_eq, h.leaf r va hr hv, ha]
  cases hx : k.view (r, va / PAGE_SIZE) with
  | none => rfl
  | some e =>
      obtain ⟨f, fl⟩ := e
      have hlt := (h.managed hx).1
      have hp : pfnPhys f = f * 4096 := rfl
      show (if hasFlag (pte (pfnPhys f) fl) PAGE_PRESENT = true then _ else 0) = pfnPhys f
      rw [pte_present, if_pos rfl]
      show (pte (pfnPhys f) fl &&& PAGE_ADDR_MASK).toNat + 0 = pfnPhys f
      rw [pte_addr fl (pfnPhys_mod f) (by omega), Nat.add_zero]

include hzero in
theorem phys_ne_zero (h : Backed maxPfn usable heap fx R k m)
    (hx : k.view x = some (f, fl)) : pfnPhys f ≠ 0 := by
  have hu := (h.managed hx).2.1
  have hf : f ≠ 0 := by
    rintro rfl
    rw [hzero] at hu
    cases hu
  have hp : pfnPhys f = f * 4096 := rfl
  omega

include hmax hzero

variable (flags) in
/-- `remap_page_flags` of a mapped page: the entry gets new flags, and the
map cannot fail, because the tables are there. -/
theorem remapPageFlags (h : Backed maxPfn usable heap fx R k m) (hr : R r)
    (hv : va < 2 ^ 47) (ha : va % PAGE_SIZE = 0)
    (hx : k.view (r, va / PAGE_SIZE) = some (f, fl)) :
    ∃ k' m', m.remapPageFlags r va flags = (m', 0)
      ∧ Backed maxPfn usable heap fx R k' m'
      ∧ k'.view = Function.update k.view (r, va / PAGE_SIZE) (some (f, flags))
      ∧ k'.extra = k.extra := by
  obtain ⟨hun, hwalk, -⟩ := h.unmap hr hv ha
  have hnone : (k.unmap (r, va / PAGE_SIZE)).view (r, va / PAGE_SIZE) = none :=
    Function.update_self _ _ _
  have hex := Books.unmap_extra hx
  have hpos := Books.unmap_held hx
  cases hmap : pagingMapPage Pmm.pmmAllocPage
      (pagingUnmapPage Pmm.pmmAllocPage m (some r) va) (some r) va (pfnPhys f) flags with
  | mk m' rc =>
  obtain ⟨k', same, hcases⟩ := hun.mapPage hmax hzero hr hv ha hnone hpos hmap
  obtain ⟨rfl, hb⟩ | ⟨-, -, hfail⟩ := hcases
  · refine ⟨_, m', ?_, hb, ?_, ?_⟩
    · unfold Machine.remapPageFlags
      simp only [h.virtToPhys hmax hr hv ha, hx, h.phys_ne_zero hzero hx, if_false,
        pageAlignDown_pfnPhys, hmap]
    · show Function.update k'.view _ _ = _
      rw [same.view]
      exact Function.update_idem _ _ _
    · show Function.update k'.extra f (k'.extra f - 1) = _
      rw [same.extra, hex, Function.update_self, Function.update_idem, Nat.add_sub_cancel,
        Function.update_eq_self]
  · -- the page had a last-level table
    obtain ⟨pt, hpt⟩ := h.walk_of_entry hr hv (by rw [hx]; exact Option.some_ne_none _)
    rw [hwalk r _ hr (lower_tablePath hv), hpt] at hfail
    cases hfail

end read

end Backed

-- ==== settled books

/-- The machine agrees with the view, and no call holds a frame. -/
def Settled (maxPfn : Nat) (usable : Nat → Bool) (heap : List Block) (fx : Outside)
    (R : Nat → Prop) (V : View) (m : Mach) : Prop :=
  ∃ k, Backed maxPfn usable heap fx R k m ∧ k.view = V ∧ ∀ f, k.extra f = 0

namespace Settled

variable {maxPfn : Nat} {usable : Nat → Bool} {heap : List Block} {fx : Outside}
  {R : Nat → Prop} {V : View} {m m' : Mach} {r va f : Nat} {fl flags : Word} {x : Spot}

theorem sparse (h : Settled maxPfn usable heap fx R V m) : Sparse V.frames := by
  obtain ⟨k, hk, rfl, -⟩ := h
  exact hk.sparse

/-- The descriptor of a mapped frame counts its entries. -/
theorem refcount (h : Settled maxPfn usable heap fx R V m) (hx : V x = some (f, fl)) :
    (m.pmm.pages f).refcount = refs V.frames f ∧ 0 < refs V.frames f := by
  obtain ⟨k, hk, rfl, hextra⟩ := h
  have hused := hk.entry_used hx
  have huses := Books.uses_eq (hextra f)
  have hown := hk.used_own hused
  have href := (hk.ledger.head ⟨f, 0⟩
    (List.mem_append_right _ (List.mem_append_right _ hown))).2.2.1
  rw [hk.data f hused, huses] at href
  rw [huses] at hused
  exact ⟨href, hused⟩

section rules

variable (hmax : maxPfn < 2 ^ 40) (hzero : usable 0 = false)

include hmax hzero

/-- One round of `uncommit_range`. -/
theorem uncommitPage (h : Settled maxPfn usable heap fx R V m) (hr : R r)
    (hv : va < 2 ^ 47) (ha : va % PAGE_SIZE = 0) :
    ∃ m', m.uncommitPage r va = .ok m'
      ∧ Settled maxPfn usable heap fx R (Function.update V (r, va / PAGE_SIZE) none) m'
      ∧ SameTables R m m' := by
  obtain ⟨k, hk, rfl, hextra⟩ := h
  obtain ⟨hun, hsame, hpmm⟩ := hk.unmap hr hv ha
  unfold Machine.uncommitPage
  simp only [hk.virtToPhys hmax hr hv ha]
  cases hx : k.view (r, va / PAGE_SIZE) with
  | none =>
      refine ⟨_, if_pos rfl, ⟨_, hun, rfl, fun g => ?_⟩, hsame⟩
      show (match k.view (r, va / PAGE_SIZE) with
        | none => k.extra
        | some (f, _) => Function.update k.extra f (k.extra f + 1)) g = 0
      rw [hx]
      exact hextra g
  | some e =>
      obtain ⟨f, fl⟩ := e
      obtain ⟨-, -, hpage, hres, hpoi⟩ := hk.managed hx
      have hex := Books.unmap_extra hx
      obtain ⟨pmm, hok, hdrop⟩ := hun.drop (Books.unmap_held hx)
      refine ⟨_, ?_, ⟨_, hdrop, rfl, fun g => ?_⟩, hsame⟩
      · simp only [hk.phys_ne_zero hzero hx, if_false, pageAlignDown_pfnPhys, hpage, hpmm, hres, hpoi,
          Bool.or_self, Bool.false_eq_true]
        exact hok
      · show Function.update (k.unmap (r, va / PAGE_SIZE)).extra f _ g = 0
        rw [hex, Function.update_idem, Function.update_self, Nat.add_sub_cancel,
          Function.update_eq_self]
        exact hextra g

/-- `uncommit_range`. -/
theorem uncommitPages (h : Settled maxPfn usable heap fx R V m) (hr : R r)
    {vas : List Nat} (hvas : LowerPages vas) :
    ∃ m' V', vas.foldlM (Machine.uncommitPage r) m = .ok m'
      ∧ Settled maxPfn usable heap fx R V' m' ∧ Clears r (Pages vas) V V'
      ∧ SameTables R m m' := by
  induction vas generalizing V m with
  | nil => exact ⟨m, V, rfl, h, Clears.empty fun n hn => pages_nil hn, SameTables.refl R m⟩
  | cons va vas ih =>
      obtain ⟨hv, ha⟩ := hvas va List.mem_cons_self
      obtain ⟨m1, hok, h1, hsame1⟩ := h.uncommitPage hmax hzero hr hv ha
      obtain ⟨m', V', hloop, h', hc, hsame⟩ :=
        ih h1 fun w hw => hvas w (List.mem_cons_of_mem _ hw)
      refine ⟨m', V', ?_, h', ?_, hsame1.trans hsame⟩
      · rw [List.foldlM_cons, hok]
        exact hloop
      · exact ((clears_update V r _).trans hc).congr fun n =>
          (or_congr_left eq_comm).trans pages_cons.symm

variable (flags) in
/-- A frame that is held is mapped; where there is no table for it, it can
be given back. -/
theorem place {k : Books} (h : Backed maxPfn usable heap fx R k m) (hr : R r)
    (hv : va < 2 ^ 47) (ha : va % PAGE_SIZE = 0)
    (hx : k.view (r, va / PAGE_SIZE) = none)
    (hex : k.extra = Function.update (fun _ => 0) f 1) :
    ∃ m1 rc, pagingMapPage Pmm.pmmAllocPage m (some r) va (pfnPhys f) flags = (m1, rc)
      ∧ ((rc = 0 ∧ Settled maxPfn usable heap fx R
            (Function.update k.view (r, va / PAGE_SIZE) (some (f, flags))) m1)
        ∨ (rc = -1 ∧ walk (child m.mem) r (tablePath va) = none
            ∧ ∃ m', m1.free f = .ok m' ∧ Settled maxPfn usable heap fx R k.view m')) := by
  have hpos : 0 < k.extra f := by
    rw [hex, Function.update_self]
    exact Nat.one_pos
  cases hmap : pagingMapPage Pmm.pmmAllocPage m (some r) va (pfnPhys f) flags with
  | mk m1 rc =>
  obtain ⟨k1, same, hcases⟩ := h.mapPage hmax hzero hr hv ha hx hpos hmap
  have hback : ∀ g, Function.update k1.extra f (k1.extra f - 1) g = 0 := by
    intro g
    rw [same.extra, hex, Function.update_self, Function.update_idem]
    by_cases hg : g = f
    · rw [hg, Function.update_self]
    · rw [Function.update_of_ne hg]
  obtain ⟨rfl, hb⟩ | ⟨rfl, hb, hwalk⟩ := hcases
  · refine ⟨m1, 0, rfl, Or.inl ⟨rfl, _, hb, ?_, hback⟩⟩
    show Function.update k1.view _ _ = _
    rw [same.view]
  · obtain ⟨pmm, hok, hdrop⟩ := hb.drop (by rw [same.extra]; exact hpos)
    exact ⟨m1, -1, rfl, Or.inr ⟨rfl, hwalk, _, hok, _, hdrop, same.view, hback⟩⟩

variable (flags) in
/-- `commit_anon`: on success every page has a frame of its own. -/
theorem commitPages (h : Settled maxPfn usable heap fx R V m) (hr : R r)
    {vas : List Nat} (hvas : LowerPages vas)
    (hdist : vas.Pairwise fun v w => v / PAGE_SIZE ≠ w / PAGE_SIZE)
    (hnone : ∀ n, Pages vas n → V (r, n) = none) :
    ∃ m' V' rc, Machine.commitPages r flags vas m = .ok (m', rc)
      ∧ Settled maxPfn usable heap fx R V' m' ∧ Within r (Pages vas) V V'
      ∧ (rc = 0 → ∀ n, Pages vas n → V' (r, n) ≠ none)
      ∧ Tame V V' := by
  induction vas generalizing V m with
  | nil =>
      refine ⟨m, V, 0, rfl, h, Within.refl _ _ _, fun _ n hn => ?_, Tame.refl V⟩
      obtain ⟨va, hva, -⟩ := hn
      cases hva
  | cons va vas ih =>
      obtain ⟨hv, ha⟩ := hvas va List.mem_cons_self
      have hhead := hnone (va / PAGE_SIZE) (pages_cons.mpr (Or.inl rfl))
      obtain ⟨k, hk, rfl, hextra⟩ := h
      unfold Machine.commitPages
      cases hal : m.pmm.pmmAllocPage with
      | none =>
          exact ⟨m, k.view, -1, rfl, ⟨k, hk, rfl, hextra⟩, Within.refl _ _ _,
            fun e => (by cases e), Tame.refl _⟩
      | some res =>
      obtain ⟨pmm, p⟩ := res
      obtain ⟨htake, hp, htab, hfresh⟩ := hk.take hal
      have hrefs := Books.refs_of_unused hp
      -- the new frame is cleared
      have hown : ⟨p, 0⟩ ∈ (k.take p).own := List.mem_cons_self
      obtain ⟨hclear, -⟩ := htake.off
        (show (Machine.clear { m with pmm } p).pmm = pmm from rfl)
        (fun x hx => clear_mem_ne _ (by rintro rfl; exact htab hx))
        (fun q hq => clear_mem_ne _ (by rintro rfl; exact htake.own_outside hown hq))
      obtain ⟨m1, rc, hmap, hcases⟩ :=
        place flags hmax hzero hclear hr hv ha hhead (Books.take_extra hextra p)
      obtain ⟨rfl, h1⟩ | ⟨rfl, -, m', hok, h1⟩ := hcases
      · -- the page is mapped, and the loop goes on
        change Settled maxPfn usable heap fx R
          (Function.update k.view (r, va / PAGE_SIZE) (some (p, flags))) m1 at h1
        obtain ⟨hd, hdist'⟩ := List.pairwise_cons.mp hdist
        have hnone' : ∀ n, Pages vas n → Function.update k.view (r, va / PAGE_SIZE)
            (some (p, flags)) (r, n) = none := by
          intro n hn
          obtain ⟨w, hw, rfl⟩ := hn
          have hne : (r, w / PAGE_SIZE) ≠ (r, va / PAGE_SIZE) := fun e =>
            hd w hw (Prod.mk.inj e).2.symm
          rw [Function.update_of_ne hne]
          exact hnone _ (pages_cons.mpr (Or.inr ⟨w, hw, rfl⟩))
        obtain ⟨m', V', rc, hloop, h', hin, hfull, htame⟩ :=
          ih h1 (fun w hw => hvas w (List.mem_cons_of_mem _ hw)) hdist' hnone'
        refine ⟨m', V', rc, by simp only [hmap]; exact hloop, h', ?_, fun hrc n hn => ?_,
          (Tame.fresh hk.sparse hrefs).trans htame⟩
        · exact (within_update k.view r _ _).trans hin
            (fun n hn => pages_cons.mpr (Or.inl hn.symm))
            fun n hn => pages_cons.mpr (Or.inr hn)
        · rcases pages_cons.mp hn with rfl | hn
          · rw [hin (r, va / PAGE_SIZE) ?_, Function.update_self]
            · exact Option.some_ne_none _
            · intro e
              obtain ⟨w, hw, hpage⟩ := e.2
              exact hd w hw hpage.symm
          · exact hfull hrc n hn
      · -- no table, so the frame goes back
        refine ⟨m', k.view, -1, ?_, h1, Within.refl _ _ _, fun e => (by cases e), Tame.refl _⟩
        simp only [hmap, hok]
        rfl

variable (flags) in
/-- `remap_page_flags` never fails. -/
theorem remapPageFlags (h : Settled maxPfn usable heap fx R V m) (hr : R r)
    (hv : va < 2 ^ 47) (ha : va % PAGE_SIZE = 0) :
    ∃ m', m.remapPageFlags r va flags = (m', 0)
      ∧ Settled maxPfn usable heap fx R (Function.update V (r, va / PAGE_SIZE)
        ((V (r, va / PAGE_SIZE)).map fun e => (e.1, flags))) m' := by
  obtain ⟨k, hk, rfl, hextra⟩ := h
  cases hx : k.view (r, va / PAGE_SIZE) with
  | none =>
      refine ⟨m, ?_, k, hk, ?_, hextra⟩
      · unfold Machine.remapPageFlags
        simp only [hk.virtToPhys hmax hr hv ha, hx, if_true]
      · rw [Option.map_none, ← hx, Function.update_eq_self]
  | some e =>
      obtain ⟨f, fl⟩ := e
      obtain ⟨k', m', hm, hb, hview, hex⟩ := hk.remapPageFlags flags hmax hzero hr hv ha hx
      exact ⟨m', hm, k', hb, hview, fun g => by rw [hex]; exact hextra g⟩

variable (flags) in
/-- The inner loop of `vas_protect`. -/
theorem remapPages (h : Settled maxPfn usable heap fx R V m) (hr : R r)
    {vas : List Nat} (hvas : LowerPages vas) :
    ∃ m' V', Machine.remapPages r flags vas m = (m', 0)
      ∧ Settled maxPfn usable heap fx R V' m' ∧ Reflags r (Pages vas) flags V V' := by
  induction vas generalizing V m with
  | nil => exact ⟨m, V, rfl, h, Reflags.empty fun n hn => pages_nil hn⟩
  | cons va vas ih =>
      obtain ⟨hv, ha⟩ := hvas va List.mem_cons_self
      obtain ⟨m1, hm1, h1⟩ := h.remapPageFlags flags hmax hzero hr hv ha
      obtain ⟨m', V', hloop, h', hc⟩ := ih h1 fun w hw => hvas w (List.mem_cons_of_mem _ hw)
      refine ⟨m', V', ?_, h', ?_⟩
      · unfold Machine.remapPages
        simp only [hm1, ne_eq, not_true_eq_false, if_false]
        exact hloop
      · exact ((reflags_update V r _ flags).trans hc).congr fun n =>
          (or_congr_left eq_comm).trans pages_cons.symm

variable (flags) in
/-- The page gets a copy of its frame, which nobody else maps. The map
cannot fail, because the tables are there. -/
theorem copyPage {k : Books} (h : Backed maxPfn usable heap fx R k m)
    (hextra : ∀ g, k.extra g = 0) (hr : R r) (hv : va < 2 ^ 47) (ha : va % PAGE_SIZE = 0)
    (hx : k.view (r, va / PAGE_SIZE) = some (f, fl)) {pmm : Pmm} {p : Nat}
    (hal : m.pmm.pmmAllocPage = some (pmm, p)) (src : Nat) :
    refs k.view.frames p = 0 ∧ ∃ m1 m2,
      (pagingUnmapPage Pmm.pmmAllocPage (Machine.copyFrame { m with pmm } p src)
        (some r) va).free f = .ok m1
      ∧ pagingMapPage Pmm.pmmAllocPage m1 (some r) va (pfnPhys p) flags = (m2, 0)
      ∧ Settled maxPfn usable heap fx R
        (Function.update k.view (r, va / PAGE_SIZE) (some (p, flags))) m2 := by
  obtain ⟨htake, hp, htab, -⟩ := h.take hal
  have hown : ⟨p, 0⟩ ∈ (k.take p).own := List.mem_cons_self
  obtain ⟨hcopy, -⟩ := htake.off
    (show (Machine.copyFrame { m with pmm } p src).pmm = pmm from rfl)
    (fun x hx => Function.update_of_ne (by rintro rfl; exact htab hx) _ _)
    (fun q hq => Function.update_of_ne (by rintro rfl; exact htake.own_outside hown hq) _ _)
  generalize Machine.copyFrame { m with pmm } p src = m0 at hcopy
  obtain ⟨hun, hwalk, -⟩ := hcopy.unmap hr hv ha
  have hxt : (k.take p).view (r, va / PAGE_SIZE) = some (f, fl) := hx
  obtain ⟨pt, hpt⟩ := hcopy.walk_of_entry hr hv (by rw [hxt]; exact Option.some_ne_none _)
  obtain ⟨pmm', hfree, hdrop⟩ := hun.drop (Books.unmap_held hxt)
  -- the old frame is held once by the unmap, and then no more
  have hex : (((k.take p).unmap (r, va / PAGE_SIZE)).drop f).extra
      = Function.update (fun _ => 0) p 1 := by
    show Function.update _ f (_ - 1) = _
    rw [Books.unmap_extra hxt, Function.update_self, Function.update_idem, Nat.add_sub_cancel,
      Function.update_eq_self, Books.take_extra hextra]
  obtain ⟨m2, rc, hmap, hcases⟩ :=
    place flags hmax hzero hdrop hr hv ha (Function.update_self _ _ _) hex
  obtain ⟨rfl, hset⟩ | ⟨-, hfail, -⟩ := hcases
  · refine ⟨Books.refs_of_unused hp, _, m2, hfree, hmap, ?_⟩
    have hview : Function.update (((k.take p).unmap (r, va / PAGE_SIZE)).drop f).view
        (r, va / PAGE_SIZE) (some (p, flags))
          = Function.update k.view (r, va / PAGE_SIZE) (some (p, flags)) :=
      Function.update_idem _ _ _
    rwa [hview] at hset
  · rw [hwalk r _ hr (lower_tablePath hv), hpt] at hfail
    cases hfail

/-- `vas_handle_page_fault`: at most the faulting page changes, and it stays
mapped. -/
theorem vasHandlePageFault (h : Settled maxPfn usable heap fx R V m) {v : Vas}
    (hr : R v.pml4) (hok : VadsOk v.list) (hlow : ∀ w ∈ v.list, w.stop ≤ 2 ^ 47)
    (addr : Nat) (err : Word) :
    ∃ m' V' rc, m.vasHandlePageFault v addr err = .ok (m', rc)
      ∧ Settled maxPfn usable heap fx R V' m' ∧ (∀ x, V' x = none ↔ V x = none)
      ∧ Tame V V' := by
  have hsparse := h.sparse
  have hcount : ∀ {x f fl}, V x = some (f, fl) →
      (m.pmm.pages f).refcount = refs V.frames f := fun hx => (h.refcount hx).1
  have hstay : ∀ rc : Int, ∃ m' V' rc', (Except.ok (m, rc) : Except Kpanic (Mach × Int))
      = .ok (m', rc') ∧ Settled maxPfn usable heap fx R V' m'
      ∧ (∀ x, V' x = none ↔ V x = none) ∧ Tame V V' := fun rc =>
    ⟨m, V, rc, rfl, h, fun _ => Iff.rfl, Tame.refl V⟩
  unfold Machine.vasHandlePageFault
  simp only
  split
  · exact hstay (-1)
  rename_i vad hfind
  obtain ⟨hmem, h1, h2⟩ := hok.find.mp hfind
  have hv : pageAlignDown addr < 2 ^ 47 := Nat.lt_of_lt_of_le h2 (hlow vad hmem)
  have ha : pageAlignDown addr % PAGE_SIZE = 0 := pageAlignDown_mod addr
  generalize pageAlignDown addr = va at hv ha
  split
  · exact hstay (-1)
  split
  · exact hstay (-1)
  obtain ⟨k, hk, rfl, hextra⟩ := h
  rw [hk.virtToPhys hmax hr hv ha]
  cases hx : k.view (v.pml4, va / PAGE_SIZE) with
  | none => exact hstay (-1)
  | some e =>
  obtain ⟨f, fl⟩ := e
  obtain ⟨-, -, hpage, -, -⟩ := hk.managed hx
  have href := hcount hx
  simp only [hk.phys_ne_zero hzero hx, if_false, pageAlignDown_pfnPhys, hpage]
  split
  · exact hstay (-1)
  generalize vad.flags &&& VAD_PROT_MASK = flags
  have hkeep : ∀ e : Nat × Word, ∀ x,
      Function.update k.view (v.pml4, va / PAGE_SIZE) (some e) x = none
        ↔ k.view x = none := by
    intro e x
    by_cases hxx : x = (v.pml4, va / PAGE_SIZE)
    · rw [hxx, Function.update_self, hx]
      simp
    · rw [Function.update_of_ne hxx]
  split
  · -- the last reference: the page is writable again
    rename_i hone
    have hsole : refs k.view.frames f ≤ 1 := by
      rw [href] at hone
      exact_mod_cast hone
    obtain ⟨k', m', hm, hb, hview, hex⟩ := (hk.clearFlag (hk.entry_used hx)
      PAGE_COW).remapPageFlags flags hmax hzero hr hv ha hx
    rw [hm]
    refine ⟨m', k'.view, 0, rfl, ⟨k', hb, rfl, fun g => by rw [hex]; exact hextra g⟩, ?_, ?_⟩
    · rw [hview]
      exact hkeep _
    · rw [hview]
      exact Tame.of_frames (fun hi => hi.sole hsparse hx hsole) (frames_reflag hx)
  · -- others map the frame: the page gets a copy
    cases hal : m.pmm.pmmAllocPage with
    | none => exact hstay (-1)
    | some res =>
    obtain ⟨pmm, p⟩ := res
    obtain ⟨hrefs, m1, m2, hfree, hmap, hset⟩ :=
      copyPage flags hmax hzero hk hextra hr hv ha hx hal (physPfn (pfnPhys f))
    simp only [hfree, hmap, ne_eq, not_true_eq_false, if_false]
    exact ⟨m2, _, 0, rfl, hset, hkeep _, Tame.fresh hsparse hrefs⟩

/-- The loop of `vas_user_access_ok`. -/
theorem accessPages (h : Settled maxPfn usable heap fx R V m) {v : Vas}
    (hr : R v.pml4) (hok : VadsOk v.list) (hlow : ∀ w ∈ v.list, w.stop ≤ 2 ^ 47)
    (write : Bool) (vas : List Nat) :
    ∃ m' V' rc, Machine.accessPages v write vas m = .ok (m', rc)
      ∧ Settled maxPfn usable heap fx R V' m' ∧ (∀ x, V' x = none ↔ V x = none)
      ∧ Tame V V' := by
  induction vas generalizing V m with
  | nil => exact ⟨m, V, 0, rfl, h, fun _ => Iff.rfl, Tame.refl V⟩
  | cons va vas ih =>
      unfold Machine.accessPages
      simp only
      split
      · exact ⟨m, V, -1, rfl, h, fun _ => Iff.rfl, Tame.refl V⟩
      split
      · obtain ⟨m1, V1, rc, hf, h1, hkeep, htame⟩ :=
          h.vasHandlePageFault hmax hzero hr hok hlow va 0x3
        simp only [hf]
        split
        · exact ⟨m1, V1, -1, rfl, h1, hkeep, htame⟩
        split
        · exact ⟨m1, V1, -1, rfl, h1, hkeep, htame⟩
        obtain ⟨m', V', rc', hloop, h', hkeep', htame'⟩ := ih h1
        exact ⟨m', V', rc', hloop, h', fun x => (hkeep' x).trans (hkeep x),
          htame.trans htame'⟩
      · exact ih h

omit hmax hzero in
/-- A page flag set by the name of its bit. -/
theorem setCow (h : Backed maxPfn usable heap fx R k m) (hp : 0 < k.uses f) :
    Backed maxPfn usable heap fx R k (m.modPage f (Page.setFlag PAGE_COW)) :=
  h.setFlag hp (by decide)

variable (flags) in
/-- The end of a clone's round: a frame that is held is mapped, or given
back. -/
theorem share {k : Books} (h : Backed maxPfn usable heap fx R k m) (hr : R r)
    (hv : va < 2 ^ 47) (ha : va % PAGE_SIZE = 0)
    (hx : k.view (r, va / PAGE_SIZE) = none)
    (hex : k.extra = Function.update (fun _ => 0) f 1) :
    ∃ m' done, (match pagingMapPage Pmm.pmmAllocPage m (some r) va (pfnPhys f) flags with
        | (s, rc) =>
          if rc ≠ 0 then
            match s.free f with
            | .error e => (.error (.pmm e) : Except VmPanic (Mach × Bool))
            | .ok s => .ok (s, false)
          else .ok (s, true)) = .ok (m', done)
      ∧ ((done = true ∧ Settled maxPfn usable heap fx R
            (Function.update k.view (r, va / PAGE_SIZE) (some (f, flags))) m')
        ∨ (done = false ∧ Settled maxPfn usable heap fx R k.view m')) := by
  obtain ⟨m1, rc, hmap, hcases⟩ := place flags hmax hzero h hr hv ha hx hex
  obtain ⟨rfl, hset⟩ | ⟨rfl, -, m', hok, hset⟩ := hcases
  · refine ⟨m1, true, ?_, Or.inl ⟨rfl, hset⟩⟩
    rw [hmap]
    rfl
  · refine ⟨m', false, ?_, Or.inr ⟨rfl, hset⟩⟩
    simp only [hmap, hok]
    rfl

variable (flags) in
/-- One page of `vas_clone`. Where the descriptor does not say "writable",
the page must not be, or the copy shares a writable frame. -/
theorem clonePage (h : Settled maxPfn usable heap fx R V m) {src dst : Nat}
    (hs : R src) (hd : R dst) (hne : src ≠ dst) (hv : va < 2 ^ 47)
    (ha : va % PAGE_SIZE = 0) (hnone : V (dst, va / PAGE_SIZE) = none) :
    ∃ m' V' done, Vm.clonePage src dst flags m va = .ok (m', done)
      ∧ Settled maxPfn usable heap fx R V' m'
      ∧ Clones dst (fun n => n = va / PAGE_SIZE) V V' ∧ Copies src dst V V'
      ∧ (done = true → (V' (dst, va / PAGE_SIZE) = none ↔ V (src, va / PAGE_SIZE) = none))
      ∧ (hasFlag flags VAD_SHARED = false → (∀ f fl, V (src, va / PAGE_SIZE) = some (f, fl) →
          hasFlag fl PAGE_WRITE = true → hasFlag (flags &&& VAD_PROT_MASK) PAGE_WRITE = true) →
        Isolated V → Isolated V') := by
  obtain ⟨k, hk, rfl, hextra⟩ := h
  unfold Vm.clonePage
  simp only [hk.virtToPhys hmax hs hv ha]
  cases hx : k.view (src, va / PAGE_SIZE) with
  | none =>
      refine ⟨m, k.view, true, if_pos rfl, ⟨k, hk, rfl, hextra⟩, Clones.refl _ _ _,
        Copies.of_frames rfl, fun _ => ?_, fun _ _ hi => hi⟩
      rw [hnone]
  | some e =>
  obtain ⟨f, fl⟩ := e
  obtain ⟨-, -, hpage, hres, hpoi⟩ := hk.managed hx
  have hused := hk.entry_used hx
  simp only [hk.phys_ne_zero hzero hx, if_false, pageAlignDown_pfnPhys, hpage, hres, hpoi,
    Bool.or_self, Bool.false_eq_true]
  have hhold := hk.hold hused
  have hex : (k.hold f).extra = Function.update (fun _ => 0) f 1 := by
    have hzero : k.extra = fun _ => 0 := funext hextra
    show Function.update k.extra f (k.extra f + 1) = _
    rw [hzero]
  have hsd : ((dst, va / PAGE_SIZE) : Spot) ≠ (src, va / PAGE_SIZE) := fun e =>
    hne (Prod.mk.inj e).1.symm
  generalize flags &&& VAD_PROT_MASK = prot
  split
  · -- both pages lose their write permission
    obtain ⟨k1, m1, hm1, hb1, hview1, hex1⟩ :=
      (setCow hhold (by rw [Books.uses_hold]; split <;> omega)).remapPageFlags
        (prot &&& ~~~PAGE_WRITE) hmax hzero hs hv ha hx
    have hguard : hasFlag (prot &&& ~~~PAGE_WRITE) PAGE_WRITE = false := by
      rw [hasFlag_clear _ _ (by decide)]
      have : hasFlag PAGE_WRITE (pageBit 1) = true := by decide
      rw [this]
      simp
    generalize prot &&& ~~~PAGE_WRITE = cow at hm1 hview1 hguard
    have hview : k1.view = Function.update k.view (src, va / PAGE_SIZE) (some (f, cow)) :=
      hview1
    have hnone1 : k1.view (dst, va / PAGE_SIZE) = none := by
      rw [hview, Function.update_of_ne hsd]
      exact hnone
    obtain ⟨m', done, hmap, hcases⟩ := share cow hmax hzero hb1 hd hv ha hnone1
      (hex1.trans hex)
    have hsrc := clones_src (x := (src, va / PAGE_SIZE)) hne hx hguard
      fun n => n = va / PAGE_SIZE
    rw [← hview] at hsrc
    have hcow : Copies src dst k.view k1.view :=
      Copies.of_frames (by rw [hview]; exact frames_reflag hx)
    have hk1 : k1.view (src, va / PAGE_SIZE) = some (f, cow) := by
      rw [hview, Function.update_self]
    refine ⟨m', ?_⟩
    simp only [hm1, ne_eq, not_true_eq_false, if_false]
    obtain ⟨rfl, hset⟩ | ⟨rfl, hset⟩ := hcases
    · refine ⟨_, true, hmap, hset, hsrc.trans (clones_dst k1.view dst _ _)
        (fun _ h => h) (fun _ h => h), hcow.trans hne (copies_dst hk1), fun _ => ?_,
        fun _ _ hi => ?_⟩
      · rw [Function.update_self]
        simp
      · have hi1 : Isolated k1.view := by
          rw [hview]
          exact hi.guard hx hguard
        refine hi1.set fun y fl' hy hyf => ⟨hguard, ?_⟩
        by_cases hys : y = (src, va / PAGE_SIZE)
        · rw [hys, hview, Function.update_self] at hyf
          cases hyf
          exact hguard
        · refine hi1 y (src, va / PAGE_SIZE) f fl' cow hys hyf ?_
          rw [hview, Function.update_self]
    · refine ⟨_, false, hmap, hset, hsrc, hcow, fun e => (by cases e), fun _ _ hi => ?_⟩
      rw [hview]
      exact hi.guard hx hguard
  · -- the copy has the permissions of the descriptor
    rename_i hplain
    obtain ⟨m', done, hmap, hcases⟩ := share prot hmax hzero hhold hd hv ha
      hnone hex
    refine ⟨m', ?_⟩
    obtain ⟨rfl, hset⟩ | ⟨rfl, hset⟩ := hcases
    · refine ⟨_, true, hmap, hset, clones_dst k.view dst _ _, copies_dst hx, fun _ => ?_,
        fun hshared hwrite hi => ?_⟩
      · rw [Function.update_self]
        simp
      · rw [hshared] at hplain
        have hprot : hasFlag prot PAGE_WRITE = false := by simpa using hplain
        have hfl : hasFlag fl PAGE_WRITE = false := by
          by_contra hc
          have := hwrite f fl rfl (by simpa using hc)
          rw [hprot] at this
          cases this
        refine hi.set fun y fl' hy hyf => ⟨hprot, ?_⟩
        by_cases hys : y = (src, va / PAGE_SIZE)
        · rw [hys, hx] at hyf
          cases hyf
          exact hfl
        · exact hi y (src, va / PAGE_SIZE) f fl' fl hys hyf hx
    · exact ⟨_, false, hmap, hset, Clones.refl _ _ _, Copies.of_frames rfl,
        fun e => (by cases e), fun _ _ hi => hi⟩

variable (flags) in
/-- The inner loop of `vas_clone`. -/
theorem clonePages (h : Settled maxPfn usable heap fx R V m) {src dst : Nat}
    (hs : R src) (hd : R dst) (hne : src ≠ dst) {vas : List Nat} (hvas : LowerPages vas)
    (hdist : vas.Pairwise fun v w => v / PAGE_SIZE ≠ w / PAGE_SIZE)
    (hnone : ∀ n, Pages vas n → V (dst, n) = none) :
    ∃ m' V' done, Vm.clonePages src dst flags vas m = .ok (m', done)
      ∧ Settled maxPfn usable heap fx R V' m' ∧ Clones dst (Pages vas) V V'
      ∧ Copies src dst V V'
      ∧ (done = true → ∀ n, Pages vas n → (V' (dst, n) = none ↔ V (src, n) = none))
      ∧ (hasFlag flags VAD_SHARED = false → (∀ n f fl, Pages vas n →
          V (src, n) = some (f, fl) → hasFlag fl PAGE_WRITE = true →
          hasFlag (flags &&& VAD_PROT_MASK) PAGE_WRITE = true) →
        Isolated V → Isolated V') := by
  induction vas generalizing V m with
  | nil =>
      refine ⟨m, V, true, rfl, h, Clones.refl _ _ _, Copies.of_frames rfl, fun _ n hn => ?_,
        fun _ _ hi => hi⟩
      obtain ⟨va, hva, -⟩ := hn
      cases hva
  | cons va vas ih =>
      obtain ⟨hv, ha⟩ := hvas va List.mem_cons_self
      have hhead : Pages (va :: vas) (va / PAGE_SIZE) := pages_cons.mpr (Or.inl rfl)
      have htail : ∀ n, Pages vas n → Pages (va :: vas) n := fun n hn =>
        pages_cons.mpr (Or.inr hn)
      obtain ⟨hd', hdist'⟩ := List.pairwise_cons.mp hdist
      have hother : ∀ n, Pages vas n → n ≠ va / PAGE_SIZE := by
        intro n hn
        obtain ⟨w, hw, rfl⟩ := hn
        exact (hd' w hw).symm
      obtain ⟨m1, V1, done, hpage, h1, hc1, hcopies1, hdone1, hiso1⟩ :=
        h.clonePage flags hmax hzero hs hd hne hv ha (hnone _ hhead)
      have hwithin := hc1.trans (Clones.refl dst (Pages vas) V1) (S := Pages (va :: vas))
        (fun n hn => by rw [hn]; exact hhead) htail
      unfold Vm.clonePages
      rw [hpage]
      cases done with
      | false =>
          refine ⟨m1, V1, false, rfl, h1, hwithin, hcopies1, fun e => (by cases e),
            fun hshared hwrite => ?_⟩
          exact hiso1 hshared fun f fl => hwrite _ f fl hhead
      | true =>
          have hnone1 : ∀ n, Pages vas n → V1 (dst, n) = none := fun n hn => by
            rw [hc1.within (dst, n) rfl (hother n hn)]
            exact hnone n (htail n hn)
          obtain ⟨m', V', done, hloop, h', hc', hcopies', hdone', hiso'⟩ :=
            ih h1 (fun w hw => hvas w (List.mem_cons_of_mem _ hw)) hdist' hnone1
          refine ⟨m', V', done, hloop, h', ?_, hcopies1.trans hne hcopies', fun hd n hn => ?_,
            fun hshared hwrite hi => ?_⟩
          · exact hc1.trans hc' (fun n hn => by rw [hn]; exact hhead) htail
          · have hsrc := hc1.kept (src, n) hne
            by_cases hp : n = va / PAGE_SIZE
            · rw [hp]
              have hnot : ¬ Pages vas (va / PAGE_SIZE) := fun hc => hother _ hc rfl
              rw [hc'.within (dst, va / PAGE_SIZE) rfl hnot]
              exact hdone1 rfl
            · have hin : Pages vas n := (pages_cons.mp hn).resolve_left fun e => hp e.symm
              exact (hdone' hd n hin).trans hsrc
          · refine hiso' hshared (fun n f fl hn hf hw => ?_)
              (hiso1 hshared (fun f fl => hwrite _ f fl hhead) hi)
            exact hwrite n f fl (htail n hn) (hc1.guarded (src, n) f fl hne hf hw) hw

end rules

end Settled

end Alix
