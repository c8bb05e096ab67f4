/-
`vas_unmap` on a range of whole pages.

A round of `uncommit_range` clears the entry of a page and drops one
reference of the frame it mapped, if the allocator manages the frame. So
what a range costs a frame is the number of pages of the range that map
it, and the last of them gives the frame back. `hits` counts them, and
`uncommitPages_spec` says that the ledger loses exactly these references:
a block whose references are all hit leaves it.

`vas_unmap` cuts the range to the descriptors it meets, which is one walk
over the covered pages of the range (`unmapVads_eq`), and rebuilds the
list. Read at an address, the new list is the old one with the range taken
out (`vasFind_removeRange`).
-/
import Alix.Mm.Proofs.Protect

namespace Alix

open Paging
open Pointers
open Dyadic (Block)
open Pmm (Ledger Usable Allocated)

-- ==== dropping references

namespace Pmm

open Function (update update_self update_of_ne)

variable {maxPfn : Nat} {usable : Nat → Bool} {m m' : Pmm} {out : List Block}
  {ref : Nat → Nat} {b : Block} {q : Nat}

/-- The blocks that have references left after `n` of each are dropped. -/
def left (out : List Block) (ref n : Nat → Nat) : List Block :=
  out.filter fun b => n b.base < ref b.base

theorem Ledger.left_drop (h : Ledger maxPfn usable m out ref) (hb : b ∈ out) {n : Nat → Nat}
    (hle : n b.base + 1 ≤ ref b.base) :
    left (if ref b.base = 1 then out.erase b else out) (update ref b.base (ref b.base - 1)) n
      = left out ref (update n b.base (n b.base + 1)) := by
  have hother : ∀ c ∈ out, c ≠ b → c.base ≠ b.base := fun c hc hne e =>
    hne (h.head_inj hc hb e)
  unfold left
  split
  · rename_i hone
    rw [h.nodup.erase_eq_filter, List.filter_filter]
    refine List.filter_congr fun c hc => ?_
    by_cases hcb : c = b
    · rw [hcb, update_self, update_self, hone]
      simp
    · rw [update_of_ne (hother c hc hcb), update_of_ne (hother c hc hcb)]
      simp [hcb]
  · refine List.filter_congr fun c hc => ?_
    by_cases hcb : c = b
    · rw [hcb, update_self, update_self]
      exact decide_eq_decide.mpr (by omega)
    · rw [update_of_ne (hother c hc hcb), update_of_ne (hother c hc hcb)]

theorem left_zero {n : Nat → Nat} (h : Ledger maxPfn usable m out ref)
    (hn : ∀ b ∈ out, n b.base = 0) : left out ref n = out := by
  refine List.filter_eq_self.mpr fun b hb => ?_
  rw [hn b hb]
  exact decide_eq_true (h.head b hb).2.2.2

theorem mem_left {n : Nat → Nat} : b ∈ left out ref n ↔ b ∈ out ∧ n b.base < ref b.base := by
  unfold left
  rw [List.mem_filter, decide_eq_true_eq]

end Pmm

-- ==== one page

/-- `uncommit_range` passes the frame over. -/
def PassedOver (m : Pmm) (f : Nat) : Prop :=
  ((m.pages f).reserved || (m.pages f).poisoned) = true

section loop

variable {maxPfn : Nat} {usable : Nat → Bool} {m m' : Mach} {out : List Block}
  {ref : Nat → Nat} {r va f : Nat} {vas : List Nat}

theorem Pmm.Ledger.not_passedOver (h : Ledger maxPfn usable m.pmm out ref) {b : Block}
    (hb : b ∈ out) : ¬ PassedOver m.pmm b.base := by
  obtain ⟨hres, hpoi⟩ := h.clean b.base (h.mem_usable hb (Block.base_mem b))
  unfold PassedOver
  rw [hres, hpoi]
  decide

/-- One round of `uncommit_range`: the entry goes, and with it a reference
of its frame, if that is a page of the ledger. -/
theorem uncommitPage_spec (h : Ledger maxPfn usable m.pmm out ref) (hv : Canonical va)
    (ha : va % PAGE_SIZE = 0) (hal : Alone m.mem r va)
    (hpage : ∀ f, frameOf (leaf m.mem r va) = some f → f ≤ maxPfn →
      PassedOver m.pmm f ∨ ⟨f, 0⟩ ∈ out) :
    ∃ m', m.uncommitPage r va = .ok m'
      ∧ Rewrites r (fun n => n = va / PAGE_SIZE) (fun _ => 0) m m'
      ∧ ((m'.pmm = m.pmm ∧ ∀ f, frameOf (leaf m.mem r va) = some f → ∀ b ∈ out, b.base ≠ f)
        ∨ ∃ f, frameOf (leaf m.mem r va) = some f ∧ ⟨f, 0⟩ ∈ out
          ∧ m.pmm.pmmFree (some f) = .ok m'.pmm) := by
  obtain ⟨hw, hpmm⟩ := rewrites_unmap hal hv ha
  unfold Machine.uncommitPage
  simp only [virtToPhys_page m r ha]
  cases hframe : frameOf (leaf m.mem r va) with
  | none => exact ⟨_, rfl, hw, Or.inl ⟨hpmm, fun f hf => by cases hf⟩⟩
  | some f =>
      have hphys : physPfn (pfnPhys f) = f := Nat.mul_div_cancel f (by decide)
      simp only [if_neg (frameOf_some hframe).2, pageAlignDown_pfnPhys, Machine.physToPage,
        hphys, h.bound]
      by_cases hf : f > maxPfn
      · rw [if_pos hf]
        refine ⟨_, rfl, hw, Or.inl ⟨hpmm, fun g hg b hb e => ?_⟩⟩
        cases hg
        have := (h.mem_usable hb (Block.base_mem b)).1
        omega
      · rw [if_neg hf]
        simp only [hpmm]
        rcases hpage f hframe (by omega) with hskip | hout
        · have hyes : ((m.pmm.pages f).reserved || (m.pmm.pages f).poisoned) = true := hskip
          rw [if_pos hyes]
          refine ⟨_, rfl, hw, Or.inl ⟨hpmm, fun g hg b hb e => ?_⟩⟩
          cases hg
          exact h.not_passedOver hb (by rw [e]; exact hskip)
        · obtain ⟨pmm, hok, -, -⟩ := h.drop hout
          have hno : ¬ ((m.pmm.pages f).reserved || (m.pmm.pages f).poisoned) = true :=
            h.not_passedOver hout
          have hfree : m.pmm.pmmFree (some f) = .ok pmm := hok
          rw [if_neg hno]
          unfold Machine.free
          rw [hpmm, hfree]
          exact ⟨_, rfl, hw.pmm pmm, Or.inr ⟨f, rfl, hout, hfree⟩⟩

-- ==== the loop

/-- How many of these pages map the frame. -/
def hits (m : Mach) (r : Nat) (vas : List Nat) (f : Nat) : Nat :=
  vas.countP fun va => frameOf (leaf m.mem r va) = some f

theorem hits_cons (m : Mach) (r va : Nat) (vas : List Nat) (f : Nat) :
    hits m r (va :: vas) f
      = hits m r vas f + if frameOf (leaf m.mem r va) = some f then 1 else 0 := by
  unfold hits
  rw [List.countP_cons]
  simp only [decide_eq_true_eq]

theorem hits_congr (h : ∀ w ∈ vas, leaf m'.mem r w = leaf m.mem r w) :
    hits m' r vas = hits m r vas := by
  funext f
  refine List.countP_congr fun w hw => ?_
  rw [h w hw]

theorem hits_cons_some (hf : frameOf (leaf m.mem r va) = some f) :
    hits m r (va :: vas) = Function.update (hits m r vas) f (hits m r vas f + 1) := by
  funext g
  rw [hits_cons, hf]
  by_cases hg : g = f
  · rw [hg, Function.update_self, if_pos rfl]
  · rw [Function.update_of_ne hg, if_neg fun e => hg (Option.some.inj e).symm, Nat.add_zero]

/-- A page that is passed over stays so when a frame is freed. -/
theorem Pmm.Ledger.drop_passedOver (h : Ledger maxPfn usable m.pmm out ref) {pmm : Pmm} {g : Nat}
    (hout : ⟨f, 0⟩ ∈ out) (hok : m.pmm.pmmFree (some f) = .ok pmm)
    (hskip : PassedOver m.pmm g) : PassedOver pmm g := by
  have hnot : ¬ Usable maxPfn usable g := fun hu => by
    obtain ⟨h1, h2⟩ := h.clean g hu
    unfold PassedOver at hskip
    rw [h1, h2] at hskip
    cases hskip
  obtain ⟨-, -, hfl, -⟩ := Page.data_eq_iff.mp (h.drop_outside hout hok hnot)
  unfold PassedOver Page.reserved Page.poisoned at hskip ⊢
  rw [hfl]
  exact hskip

/-- The blocks of the ledger after a frame lost a reference. -/
theorem mem_dropped {b c : Block} (hc : c ∈ out) (hne : c = b → ref b.base ≠ 1) :
    c ∈ if ref b.base = 1 then out.erase b else out := by
  split
  · rename_i hone
    exact (List.mem_erase_of_ne fun e => hne e hone).mpr hc
  · exact hc

theorem mem_of_dropped {b c : Block} (hc : c ∈ if ref b.base = 1 then out.erase b else out) :
    c ∈ out := by
  split at hc
  · exact List.mem_of_mem_erase hc
  · exact hc

theorem sub_update_succ (ref n : Nat → Nat) (f g : Nat) :
    Function.update ref f (ref f - 1) g - n g = ref g - Function.update n f (n f + 1) g := by
  by_cases hgf : g = f
  · rw [hgf, Function.update_self, Function.update_self]
    omega
  · rw [Function.update_of_ne hgf, Function.update_of_ne hgf]

/-- The references that are left are enough for the pages that are left. -/
theorem dropped_enough {n : Nat → Nat}
    (henough : ∀ g, ⟨g, 0⟩ ∈ out → Function.update n f (n f + 1) g ≤ ref g) (g : Nat)
    (hg : ⟨g, 0⟩ ∈ if ref f = 1 then out.erase ⟨f, 0⟩ else out) :
    n g ≤ Function.update ref f (ref f - 1) g := by
  have hgm := henough g (mem_of_dropped (b := ⟨f, 0⟩) hg)
  by_cases hgf : g = f
  · rw [hgf, Function.update_self] at hgm ⊢
    omega
  · rw [Function.update_of_ne hgf] at hgm ⊢
    exact hgm

/-- `uncommit_range`: each frame of the ledger loses a reference for every
page that maps it. -/
theorem uncommitPages_spec (h : Ledger maxPfn usable m.pmm out ref)
    (hvas : LoopPages m r vas)
    (hdist : vas.Pairwise fun v w => v / PAGE_SIZE ≠ w / PAGE_SIZE)
    (hpage : ∀ va ∈ vas, ∀ f, frameOf (leaf m.mem r va) = some f → f ≤ maxPfn →
      PassedOver m.pmm f ∨ ⟨f, 0⟩ ∈ out)
    (henough : ∀ f, ⟨f, 0⟩ ∈ out → hits m r vas f ≤ ref f) :
    ∃ m', vas.foldlM (Machine.uncommitPage r) m = .ok m'
      ∧ Rewrites r (Pages vas) (fun _ => 0) m m'
      ∧ Ledger maxPfn usable m'.pmm (Pmm.left out ref (hits m r vas))
        (fun f => ref f - hits m r vas f)
      ∧ (∀ b ∈ out, hits m r vas b.base = 0 → ∀ q ∈ b,
        (m'.pmm.pages q).data = (m.pmm.pages q).data)
      ∧ ∀ q, ¬ Usable maxPfn usable q → (m'.pmm.pages q).data = (m.pmm.pages q).data := by
  induction vas generalizing m out ref with
  | nil =>
      refine ⟨m, rfl, Rewrites.empty fun n hn => pages_nil hn, ?_, fun _ _ _ _ _ => rfl,
        fun _ _ => rfl⟩
      rw [Pmm.left_zero h fun b _ => rfl]
      exact h
  | cons va vas ih =>
      obtain ⟨hv, ha, hal⟩ := hvas va List.mem_cons_self
      obtain ⟨hd, hdist'⟩ := List.pairwise_cons.mp hdist
      obtain ⟨m1, hok, hw, hcases⟩ :=
        uncommitPage_spec h hv ha hal (hpage va List.mem_cons_self)
      -- the other pages read what they read
      have hleaf := hvas.leaf_rest hw hd
      have hhits := hits_congr hleaf
      have hloop := hvas.rest hw
      have hpage' : ∀ w ∈ vas, ∀ f, frameOf (leaf m1.mem r w) = some f → f ≤ maxPfn →
          PassedOver m.pmm f ∨ ⟨f, 0⟩ ∈ out := by
        intro w hw' f hf
        rw [hleaf w hw'] at hf
        exact hpage w (List.mem_cons_of_mem _ hw') f hf
      have hfold : ∀ m', vas.foldlM (Machine.uncommitPage r) m1 = .ok m' →
          (va :: vas).foldlM (Machine.uncommitPage r) m = .ok m' := by
        intro m' hm'
        rw [List.foldlM_cons, hok]
        exact hm'
      rcases hcases with ⟨hpmm, hnone⟩ | ⟨f, hf, hout, hfree⟩
      · -- no reference is dropped
        have hsame : ∀ b ∈ out, hits m r (va :: vas) b.base = hits m1 r vas b.base := by
          intro b hb
          rw [hits_cons, ← hhits, if_neg fun e => hnone _ e b hb rfl, Nat.add_zero]
        have hled1 : Ledger maxPfn usable m1.pmm out ref := by
          rw [hpmm]
          exact h
        obtain ⟨m', hm', h', hled, hdata, hfar⟩ := ih hled1 hloop hdist' (by rw [hpmm]; exact hpage')
          fun g hg => by
            rw [← hsame ⟨g, 0⟩ hg]
            exact henough g hg
        have hleft : Pmm.left out ref (hits m1 r vas) = Pmm.left out ref (hits m r (va :: vas)) :=
          List.filter_congr fun b hb => by rw [hsame b hb]
        refine ⟨m', hfold m' hm', hw.cons h' fun _ => rfl, ?_, fun b hb hz q hq => ?_,
          fun q hq => ?_⟩
        · rw [← hleft]
          exact hled.congr fun b hb => by
            show ref b.base - _ = ref b.base - _
            rw [hsame b (Pmm.mem_left.mp hb).1]
        · rw [hdata b hb (by rw [← hsame b hb]; exact hz) q hq, hpmm]
        · rw [hfar q hq, hpmm]
      · -- the frame of the page loses one
        have hled1 := h.drop hout
        obtain ⟨pmm, hok1, hled1, hdata1⟩ := hled1
        rw [hok1] at hfree
        cases hfree
        have htotal : hits m r (va :: vas)
            = Function.update (hits m1 r vas) f (hits m1 r vas f + 1) := by
          rw [hits_cons_some hf, hhits]
        have hle : hits m1 r vas f + 1 ≤ ref f := by
          have := henough f hout
          rw [htotal, Function.update_self] at this
          exact this
        -- a page that maps the frame still holds a reference of it
        have hpage1 : ∀ w ∈ vas, ∀ g, frameOf (leaf m1.mem r w) = some g → g ≤ maxPfn →
            PassedOver m1.pmm g
              ∨ (⟨g, 0⟩ : Block) ∈ if ref f = 1 then out.erase ⟨f, 0⟩ else out := by
          intro w hw' g hg hgm
          refine (hpage' w hw' g hg hgm).imp (h.drop_passedOver hout hok1)
            fun hin => mem_dropped (b := ⟨f, 0⟩) hin fun e => ?_
          have hgf : g = f := congrArg Block.base e
          rw [hgf] at hg
          have hpos : 0 < hits m1 r vas f :=
            List.countP_pos_iff.mpr ⟨w, hw', decide_eq_true hg⟩
          show ref f ≠ 1
          omega
        obtain ⟨m', hm', h', hled, hdata, hfar⟩ := ih hled1 hloop hdist' hpage1
          (dropped_enough (n := hits m1 r vas) fun g hg => by
            rw [← htotal]
            exact henough g hg)
        refine ⟨m', hfold m' hm', hw.cons h' fun _ => rfl, ?_, fun b hb hz q hq => ?_,
          fun q hq => ?_⟩
        · rw [htotal, ← h.left_drop hout hle]
          exact hled.congr fun b _ => (sub_update_succ ref (hits m1 r vas) f b.base).symm
        · rw [htotal] at hz
          have hbf : b.base ≠ f := by
            intro e
            rw [e, Function.update_self] at hz
            omega
          rw [Function.update_of_ne hbf] at hz
          have hne : b ≠ ⟨f, 0⟩ := by
            rintro rfl
            exact hbf rfl
          rw [hdata b (mem_dropped (b := ⟨f, 0⟩) hb fun e => (hne e).elim) hz q hq]
          exact hdata1 b hb hne q hq
        · rw [hfar q hq]
          exact h.drop_outside hout hok1 hq

end loop

-- ==== the range

/-- The pages in `P` that map the frame. -/
def pagesTo (m : Mach) (r : Nat) (P : Nat → Prop) (f : Nat) : Set Nat :=
  {n | P n ∧ frameOf (leaf m.mem r (n * PAGE_SIZE)) = some f}

section cut

variable {m : Mach} {r start stop : Nat} {l : List Vad} {v : Vad} {vas : List Nat}

/-- The rounds that hit a frame are the pages that map it. -/
theorem hits_eq (hvas : ∀ va ∈ vas, va % PAGE_SIZE = 0)
    (hdist : vas.Pairwise fun v w => v / PAGE_SIZE ≠ w / PAGE_SIZE) (f : Nat) :
    hits m r vas f = (pagesTo m r (Pages vas) f).ncard := by
  have hs : PAGE_SIZE = 4096 := rfl
  have hback : ∀ va ∈ vas, va / PAGE_SIZE * PAGE_SIZE = va := by
    intro va hva
    have := hvas va hva
    rw [hs] at this ⊢
    omega
  have hnodup : ((vas.filter fun va => frameOf (leaf m.mem r va) = some f).map
      fun va => va / PAGE_SIZE).Nodup :=
    List.pairwise_map.mpr (hdist.filter _)
  have hset : pagesTo m r (Pages vas) f = ((vas.filter fun va =>
      frameOf (leaf m.mem r va) = some f).map fun va => va / PAGE_SIZE).toFinset := by
    ext n
    rw [Finset.mem_coe, List.mem_toFinset, List.mem_map]
    constructor
    · intro hn
      obtain ⟨⟨va, hva, rfl⟩, hf⟩ := hn
      rw [hback va hva] at hf
      exact ⟨va, List.mem_filter.mpr ⟨hva, decide_eq_true hf⟩, rfl⟩
    · intro hn
      obtain ⟨va, hmem, rfl⟩ := hn
      obtain ⟨hva, hf⟩ := List.mem_filter.mp hmem
      refine ⟨⟨va, hva, rfl⟩, ?_⟩
      rw [hback va hva]
      exact of_decide_eq_true hf
  rw [hset, Set.ncard_coe_finset, List.toFinset_card_of_nodup hnodup, List.length_map]
  exact List.countP_eq_length_filter

/-- The pages that the loop of `vas_unmap` goes through. -/
def cutPages (start stop : Nat) (l : List Vad) : List Nat :=
  l.flatMap fun v => pages (if v.start > start then v.start else start)
    (if v.stop < stop then v.stop else stop)

theorem pages_empty {lo hi : Nat} (h : hi ≤ lo) : pages lo hi = [] := by
  unfold pages
  rw [Nat.sub_eq_zero_of_le h]
  rfl

theorem VadsOk.cutPages_behind (h : VadsOk (v :: l)) (hge : ¬ v.start < stop) :
    cutPages start stop (v :: l) = [] := by
  refine List.flatMap_eq_nil_iff.mpr fun w hw => pages_empty ?_
  have hfit := (h.fits w hw).1
  have := h.behind (Nat.le_of_not_lt hge) ⟨w, hw, Nat.le_refl _, hfit⟩
  split <;> split <;> omega

/-- The loop of `vas_unmap` is one walk over them. -/
theorem unmapVads_eq (h : VadsOk l) (m : Mach) :
    Machine.unmapVads r start stop l m
      = (cutPages start stop l).foldlM (Machine.uncommitPage r) m := by
  induction l generalizing m with
  | nil => rfl
  | cons v l ih =>
      unfold Machine.unmapVads
      split
      · rename_i hlt
        split
        · rename_i hle
          have hnone : pages (if v.start > start then v.start else start)
              (if v.stop < stop then v.stop else stop) = [] := by
            apply pages_empty
            split <;> split <;> omega
          have hcut : cutPages start stop (v :: l) = cutPages start stop l := by
            show pages _ _ ++ _ = _
            rw [hnone]
            rfl
          rw [hcut, ih h.tail]
        · show _ = (pages _ _ ++ cutPages start stop l).foldlM _ _
          rw [List.foldlM_append]
          simp only [Machine.uncommitRange]
          cases (pages _ _).foldlM (Machine.uncommitPage r) m with
          | error e => rfl
          | ok m1 => exact ih h.tail m1
      · rename_i hge
        rw [h.cutPages_behind hge]
        rfl

variable (stop) in
/-- They are the covered pages of the range. -/
theorem cutPages_spec (hok : VadsOk l)
    (hcanon : ∀ x ∈ l, x.stop ≤ 2 ^ 47 ∨ 2 ^ 64 - 2 ^ 47 ≤ x.start)
    (halone : ∀ va, Covers l va → Alone m.mem r va) (hstart : start % PAGE_SIZE = 0) :
    LoopPages m r (cutPages start stop l)
      ∧ (cutPages start stop l).Pairwise (fun v w => v / PAGE_SIZE ≠ w / PAGE_SIZE)
      ∧ ∀ n, Pages (cutPages start stop l) n ↔ InRange l start stop n := by
  induction l with
  | nil =>
      refine ⟨fun va hva => (by cases hva), List.Pairwise.nil, fun n => ?_⟩
      exact ⟨fun hn => (pages_nil hn).elim, fun hn => (inRange_nil hn).elim⟩
  | cons v l ih =>
      obtain ⟨hloop, hdist, hpages⟩ := ih hok.tail
        (fun x hx => hcanon x (List.mem_cons_of_mem _ hx))
        (fun va hva => halone va (covers_cons.mpr (Or.inr hva)))
      have hcut : cutPages start stop (v :: l)
          = pages (if v.start > start then v.start else start)
            (if v.stop < stop then v.stop else stop) ++ cutPages start stop l := rfl
      rw [hcut]
      generalize hlo : (if v.start > start then v.start else start) = lo
      generalize hhi : (if v.stop < stop then v.stop else stop) = hi
      obtain ⟨halign, hloop1⟩ := loopPages_cut hok (hcanon v List.mem_cons_self) halone
        hstart hlo.symm hhi.symm
      have happ : ∀ n, Pages (pages lo hi ++ cutPages start stop l) n
          ↔ Pages (pages lo hi) n ∨ Pages (cutPages start stop l) n := by
        intro n
        unfold Pages
        simp only [List.mem_append, or_and_right, exists_or]
      refine ⟨fun va hva => ?_, ?_, fun n => ?_⟩
      · exact (List.mem_append.mp hva).elim (hloop1 va) (hloop va)
      · refine List.pairwise_append.mpr ⟨pages_distinct halign, hdist, fun x hx y hy e => ?_⟩
        -- one page would be in two descriptors
        have hpx : Pages (pages lo hi) (x / PAGE_SIZE) := ⟨x, hx, rfl⟩
        have hpy : Pages (cutPages start stop l) (x / PAGE_SIZE) := ⟨y, hy, e.symm⟩
        rw [pages_iff halign, cut_iff hlo.symm hhi.symm] at hpx
        obtain ⟨⟨w, hw, h1, -⟩, -⟩ := (hpages _).mp hpy
        have := hok.head_le hw
        omega
      · rw [happ, pages_iff halign, hpages]
        exact inRange_cons hlo.symm hhi.symm

end cut

-- ==== the list

/-- Outside the range the new list reads as the old one. -/
theorem vasFind_removeRange {l : List Vad} {start stop x : Nat} (h : VadsOk l)
    (hle : start ≤ stop) (halign : start % PAGE_SIZE = 0 ∧ stop % PAGE_SIZE = 0)
    (hx : ¬ (start ≤ x ∧ x < stop)) :
    (vasFind (removeRange start stop l) x).map Vad.flags = (vasFind l x).map Vad.flags := by
  obtain ⟨hok, hcov⟩ := h.removeRange hle halign
  cases hfind : vasFind (removeRange start stop l) x with
  | none =>
      have hnot : ¬ Covers l x := fun hc => (hok.find_none.mp hfind) ((hcov x).mpr ⟨hc, hx⟩)
      rw [h.find_none.mpr hnot]
  | some w =>
      obtain ⟨hw, h1, h2⟩ := hok.find.mp hfind
      obtain ⟨v, hv, hstart, hstop, hflags⟩ := mem_removeRange hw
      have hold : vasFind l x = some v := h.find.mpr ⟨hv, by omega, by omega⟩
      rw [hold, Option.map_some, Option.map_some, hflags]

-- ==== the call

namespace Vm

variable {maxPfn : Nat} {usable : Nat → Bool} {s s' : Vm} {v v' : Vas} {rest : List Block}
  {ref : Nat → Nat} {a start length stop : Nat}

/-- The frames behind the pages of a space: a frame the allocator knows is
reserved, or it is out with a reference for every page that maps it. -/
structure Accounted (maxPfn : Nat) (usable : Nat → Bool) (s : Vm) (v : Vas)
    (rest : List Block) (ref : Nat → Nat) : Prop where
  holds : Holds maxPfn usable s rest ref
  page : ∀ va f, Covers v.list va → frameOf (leaf s.mach.mem v.pml4 va) = some f →
    f ≤ maxPfn → (s.mach.pmm.pages f).reserved = true ∨ ⟨f, 0⟩ ∈ rest
  enough : ∀ f, ⟨f, 0⟩ ∈ rest →
    (pagesTo s.mach v.pml4 (fun n => Covers v.list (n * PAGE_SIZE)) f).ncard ≤ ref f

/-- The pages of the range that map the frame. -/
noncomputable def lost (s : Vm) (v : Vas) (start stop f : Nat) : Nat :=
  (pagesTo s.mach v.pml4 (InRange v.list start stop) f).ncard

/-- What `vas_unmap` does to the space and to the frames: the range is
gone, the rest is as it was, and a frame has a reference less for every
page of the range that mapped it. -/
structure Unmapped (s s' : Vm) (v v' : Vas) (start stop : Nat) (rest : List Block) :
    Prop where
  covers : ∀ x, Covers v'.list x ↔ Covers v.list x ∧ ¬ (start ≤ x ∧ x < stop)
  flags : ∀ x, Covers v'.list x →
    (vasFind v'.list x).map Vad.flags = (vasFind v.list x).map Vad.flags
  gone : ∀ x, start ≤ x → x < stop → Covers v.list x →
    pagingVirtToPhys Pmm.pmmAllocPage s'.mach (some v.pml4) x = 0
    ∧ pagingGetFlags Pmm.pmmAllocPage s'.mach (some v.pml4) x = 0
  kept : ∀ x, Canonical x → ¬ (start ≤ x ∧ x < stop) →
    pagingVirtToPhys Pmm.pmmAllocPage s'.mach (some v.pml4) x
      = pagingVirtToPhys Pmm.pmmAllocPage s.mach (some v.pml4) x
    ∧ pagingGetFlags Pmm.pmmAllocPage s'.mach (some v.pml4) x
      = pagingGetFlags Pmm.pmmAllocPage s.mach (some v.pml4) x
  /-- no frame has fewer references than that -/
  most : ∀ b ∈ rest, lost s v start stop b.base ≤ (s.mach.pmm.pages b.base).refcount
  /-- a frame with more of them stays out, with what is left -/
  less : ∀ b ∈ rest, lost s v start stop b.base < (s.mach.pmm.pages b.base).refcount →
    ¬ s'.Free b.base ∧ (s'.mach.pmm.pages b.base).refcount
      = (s.mach.pmm.pages b.base).refcount - lost s v start stop b.base
  /-- a frame with no more goes back, unless the heap has taken it already -/
  last : ∀ f, ⟨f, 0⟩ ∈ rest → lost s v start stop f = (s.mach.pmm.pages f).refcount →
    s'.Free f ∨ Allocated s'.heap f

/-- The pages of the range are covered pages. -/
theorem Accounted.lost_le (h : Accounted maxPfn usable s v rest ref) (hok : VadsOk v.list)
    {f : Nat} (hf : ⟨f, 0⟩ ∈ rest) : lost s v start stop f ≤ ref f := by
  refine Nat.le_trans (Set.ncard_le_ncard ?_ ?_) (h.enough f hf)
  · exact fun n hn => ⟨hn.1.1, hn.2⟩
  · refine (Set.finite_lt_nat (2 ^ 64)).subset fun n hn => ?_
    obtain ⟨w, hw, -, h2⟩ := hn.1
    have hfit := (hok.fits w hw).2.1
    have hs : PAGE_SIZE = 4096 := rfl
    show n < 2 ^ 64
    rw [hs] at h2
    omega

variable (start stop) in
/-- No page maps a block that is not one frame, or the heap's. -/
theorem Accounted.lost_zero (h : Accounted maxPfn usable s v rest ref) {b : Block}
    (hb : b ∈ s.heap ++ rest) (hne : b ∈ s.heap ∨ b.order ≠ 0) :
    lost s v start stop b.base = 0 := by
  have hempty : pagesTo s.mach v.pml4 (InRange v.list start stop) b.base = ∅ := by
    refine Set.eq_empty_of_forall_notMem fun n hn => ?_
    have hu := h.holds.ledger.mem_usable hb (Block.base_mem b)
    have hle : b.base ≤ maxPfn := by
      have := hu.1
      omega
    rcases h.page _ _ hn.1.1 hn.2 hle with hres | hin
    · rw [(h.holds.ledger.clean b.base hu).1] at hres
      cases hres
    · have he := h.holds.ledger.head_inj hb (List.mem_append_right s.heap hin) rfl
      rcases hne with hheap | hord
      · rw [he] at hheap
        exact (List.disjoint_of_nodup_append h.holds.ledger.nodup) hheap hin
      · rw [he] at hord
        exact hord rfl
  unfold lost
  rw [hempty, Set.ncard_empty]

variable (stop) in
/-- The loop of `vas_unmap`, on a space whose frames are accounted for. -/
theorem Accounted.unmapVads (h : Accounted maxPfn usable s v rest ref)
    (ht : Tidy s.mach.mem v) (hstart : start % PAGE_SIZE = 0) :
    ∃ m', Machine.unmapVads v.pml4 start stop v.list s.mach = .ok m'
      ∧ Rewrites v.pml4 (InRange v.list start stop) (fun _ => 0) s.mach m'
      ∧ Holds maxPfn usable { s with mach := m' } (Pmm.left rest ref (lost s v start stop))
        (fun f => ref f - lost s v start stop f) := by
  obtain ⟨hloop, hdist, hpages⟩ := cutPages_spec stop ht.list ht.canonical ht.alone
    hstart
  have hhits : ∀ f, hits s.mach v.pml4 (cutPages start stop v.list) f
      = lost s v start stop f := by
    intro f
    rw [hits_eq (fun va hva => (hloop va hva).2.1) hdist]
    unfold lost pagesTo
    simp only [hpages]
  obtain ⟨m', hok, hw, hled, -⟩ := uncommitPages_spec h.holds.ledger hloop hdist
    (fun va hva f hf hle => by
      have hcov : Covers v.list va := by
        have := ((hpages _).mp ⟨va, hva, rfl⟩).1
        rw [ht.list.covers_page] at this
        exact this
      refine (h.page va f hcov hf hle).imp (fun hres => ?_) (List.mem_append_right _)
      unfold PassedOver
      rw [hres]
      rfl)
    (fun f hf => by
      rw [hhits]
      rcases List.mem_append.mp hf with hheap | hin
      · have hz := h.lost_zero start stop hf (Or.inl hheap)
        exact hz.le.trans (Nat.zero_le _)
      · exact h.lost_le ht.list hin)
  refine ⟨m', (unmapVads_eq ht.list s.mach).trans hok, hw.congr hpages, ?_, ?_⟩
  · have hsame : hits s.mach v.pml4 (cutPages start stop v.list) = lost s v start stop :=
      funext hhits
    have hheap : Pmm.left s.heap ref (lost s v start stop) = s.heap := by
      refine List.filter_eq_self.mpr fun b hb => ?_
      rw [h.lost_zero _ _ (List.mem_append_left _ hb) (Or.inl hb)]
      exact decide_eq_true (by rw [h.holds.single b hb]; decide)
    rw [hsame] at hled
    unfold Pmm.left at hled hheap
    rw [List.filter_append, hheap] at hled
    exact hled
  · intro b hb
    show ref b.base - _ = 1
    rw [h.lost_zero _ _ (List.mem_append_left _ hb) (Or.inl hb)]
    exact h.holds.single b hb

/-- The frames, after the loop and the heap. -/
theorem Accounted.unmapped (h : Accounted maxPfn usable s v rest ref)
    (ht : Tidy s.mach.mem v) (hstart : start % PAGE_SIZE = 0) (hstop : stop % PAGE_SIZE = 0)
    {m' : Mach} (hw : Rewrites v.pml4 (InRange v.list start stop) (fun _ => 0) s.mach m')
    (hmem : s'.mach.mem = m'.mem)
    (hcov : ∀ x, Covers v'.list x ↔ Covers v.list x ∧ ¬ (start ≤ x ∧ x < stop))
    (hflags : ∀ x, ¬ (start ≤ x ∧ x < stop) →
      (vasFind v'.list x).map Vad.flags = (vasFind v.list x).map Vad.flags)
    {ref' : Nat → Nat}
    (h' : Holds maxPfn usable s' (Pmm.left rest ref (lost s v start stop)) ref')
    (hsame : ∀ b ∈ Pmm.left rest ref (lost s v start stop),
      ref' b.base = ref b.base - lost s v start stop b.base) :
    Unmapped s s' v v' start stop rest := by
  have hpage : ∀ x, InRange v.list start stop (x / PAGE_SIZE)
      ↔ Covers v.list x ∧ start ≤ x ∧ x < stop := fun x => ht.list.inRange_page hstart hstop
  have href : ∀ b ∈ rest, (s.mach.pmm.pages b.base).refcount = ref b.base := fun b hb =>
    (h.holds.ledger.head b (List.mem_append_right _ hb)).2.2.1
  refine ⟨hcov, fun x hx => hflags x ((hcov x).mp hx).2, fun x h1 h2 hx => ?_,
    fun x hc hnot => ?_, fun b hb => ?_, fun b hb hlt => ?_, fun f hf heq => ?_⟩
  · have hzero : leaf s'.mach.mem v.pml4 x = 0 := by
      rw [hmem]
      exact hw.inside x (ht.covers hx) ((hpage x).mpr ⟨hx, h1, h2⟩)
    rw [pagingVirtToPhys_eq, pagingGetFlags_eq, hzero]
    exact ⟨rfl, rfl⟩
  · have hsame : leaf s'.mach.mem v.pml4 x = leaf s.mach.mem v.pml4 x := by
      rw [hmem]
      exact hw.outside x hc fun hn => hnot ((hpage x).mp hn).2
    exact ⟨virtToPhys_congr hsame, getFlags_congr hsame⟩
  · rw [href b hb]
    by_cases hord : b.order = 0
    · obtain ⟨base, order⟩ := b
      cases hord
      exact_mod_cast h.lost_le ht.list hb
    · rw [h.lost_zero _ _ (List.mem_append_right _ hb) (Or.inr hord)]
      exact Int.natCast_nonneg _
  · rw [href b hb] at hlt ⊢
    have hlt' : lost s v start stop b.base < ref b.base := by exact_mod_cast hlt
    have hin : b ∈ Pmm.left rest ref (lost s v start stop) := Pmm.mem_left.mpr ⟨hb, hlt'⟩
    have hout : b ∈ s'.heap ++ Pmm.left rest ref (lost s v start stop) :=
      List.mem_append_right _ hin
    refine ⟨fun hfree => ?_, ?_⟩
    · exact ((h'.ledger.free_iff b.base).mp hfree).2 ⟨b, hout, Block.base_mem b⟩
    · rw [(h'.ledger.head b hout).2.2.1, hsame b hin]
      omega
  · have hu := h.holds.ledger.mem_usable (List.mem_append_right s.heap hf)
      (Block.base_mem ⟨f, 0⟩)
    by_cases hheap : Allocated s'.heap f
    · exact Or.inr hheap
    refine Or.inl ((h'.ledger.free_iff f).mpr ⟨hu, fun hc => ?_⟩)
    obtain ⟨b, hb, hfb⟩ := hc
    rcases List.mem_append.mp hb with hb | hb
    · exact hheap ⟨b, hb, hfb⟩
    · -- a block of `rest` with this frame is the frame
      obtain ⟨hrest, hlt⟩ := Pmm.mem_left.mp hb
      have he : b = ⟨f, 0⟩ := by
        by_contra hne
        exact h.holds.ledger.apart (List.mem_append_right _ hrest)
          (List.mem_append_right _ hf) hne hfb (Block.base_mem ⟨f, 0⟩)
      rw [he] at hlt
      have hlt' : lost s v start stop f < ref f := hlt
      have hrf : (s.mach.pmm.pages f).refcount = ref f := href ⟨f, 0⟩ hf
      omega

/-- The heap serves the next `n` calls. -/
def Serves (s : Vm) (n : Nat) : Prop :=
  n ≤ s.coins.length ∧ ∀ c ∈ s.coins, c.ok = true

theorem heapOp_sameCoins (s : Vm) (op : HeapOp) : (heapOp s op).coins = s.coins := by
  have := congrArg Vm.coins (heapOp_coins s s.coins op)
  exact this

theorem Serves.heapCall {n : Nat} (h : Serves s (n + 1)) :
    ∃ s', s.heapCall = (s', true) ∧ Serves s' n := by
  obtain ⟨hlen, hall⟩ := h
  have hfold : ∀ (ops : List HeapOp) (s : Vm), (ops.foldl heapOp s).coins = s.coins := by
    intro ops
    induction ops with
    | nil => exact fun _ => rfl
    | cons op ops ih => exact fun s => (ih _).trans (heapOp_sameCoins s op)
  unfold Vm.heapCall
  cases hc : s.coins with
  | nil =>
      rw [hc] at hlen
      simp at hlen
  | cons c cs =>
      rw [hc] at hlen hall
      refine ⟨_, congrArg (Prod.mk _) (hall c List.mem_cons_self), ?_⟩
      unfold Serves
      rw [hfold]
      exact ⟨Nat.le_of_succ_le_succ hlen, fun d hd => hall d (List.mem_cons_of_mem _ hd)⟩

/-- The panics of `vad_remove_range` are its splits, where the heap has no
memory: it is asked twice for a descriptor, and takes one back. -/
theorem vadRemoveRange_error {l : List Vad} {e : VmPanic}
    (h : vadRemoveRange start stop l s = .error e) :
    (e = .splitLeft ∨ e = .splitRight) ∧ ¬ Serves s (3 * l.length) := by
  have hmono : ∀ {n k : Nat} {s : Vm}, k ≤ n → Serves s n → Serves s k := fun hk hs =>
    ⟨Nat.le_trans hk hs.1, hs.2⟩
  have hsegment : ∀ {rest : Bool} {panic : VmPanic} {vad : Vad} {s : Vm} {e : VmPanic} {n : Nat},
      vadCloneSegment rest panic vad s = .error e → e = panic ∧ ¬ Serves s (n + 1) := by
    intro rest panic vad s e n h
    unfold vadCloneSegment at h
    split at h
    · split at h
      · rename_i hk
        cases h
        refine ⟨rfl, fun hs => ?_⟩
        obtain ⟨s1, h1, -⟩ := hs.heapCall
        rw [show s.kzalloc = s.heapCall from rfl, h1] at hk
        cases hk
      · cases h
    · cases h
  have hserved : ∀ {rest : Bool} {panic : VmPanic} {vad : Vad} {s s' : Vm} {m : List Vad}
      {n : Nat}, vadCloneSegment rest panic vad s = .ok (s', m) → Serves s (n + 1) →
      Serves s' n := by
    intro rest panic vad s s' m n h hs
    unfold vadCloneSegment at h
    split at h
    · split at h
      · cases h
      · rename_i hk
        cases h
        obtain ⟨s1, h1, hs1⟩ := hs.heapCall
        rw [show s.kzalloc = s.heapCall from rfl, h1] at hk
        cases hk
        exact hs1
    · cases h
      exact hmono (Nat.le_succ _) hs
  induction l generalizing s with
  | nil => cases h
  | cons old l ih =>
      have hlen : 3 * (old :: l).length = 3 * l.length + 1 + 1 + 1 := by
        rw [List.length_cons]
        omega
      rw [hlen]
      unfold vadRemoveRange at h
      split at h
      · split at h
        · rename_i e1 h1
          cases h
          exact ⟨(ih h1).1, fun hs => (ih h1).2 (hmono (by omega) hs)⟩
        · cases h
      · split at h
        · rename_i e1 h1
          cases h
          obtain ⟨he, hs⟩ := hsegment h1
          exact ⟨Or.inl he, hs⟩
        rename_i s1 left h1
        split at h
        · rename_i e1 h2
          cases h
          obtain ⟨he, hs⟩ := hsegment h2
          exact ⟨Or.inr he, fun hs0 => hs (hserved h1 hs0)⟩
        rename_i s2 right h2
        split at h
        · rename_i e1 h3
          cases h
          refine ⟨(ih h3).1, fun hs0 => (ih h3).2 ?_⟩
          obtain ⟨s3, hk, hs3⟩ := (hserved h2 (hserved h1 hs0)).heapCall
          rw [show s2.kfree = s2.heapCall.1 from rfl, hk]
          exact hs3
        · cases h

/-- `vas_unmap` takes exactly the range out, unless it has to split a
descriptor and the heap has no memory for that. -/
theorem vasUnmap_exact (hv : s.spaces a = some v) (ht : Tidy s.mach.mem v)
    (h : Accounted maxPfn usable s v rest ref) (start length : Nat)
    (hstart : start % PAGE_SIZE = 0) (hlength : length % PAGE_SIZE = 0)
    (hwrap : start + length < 2 ^ 64) :
    (∃ s' v', s.vasUnmap a start length = .ok (s', 0) ∧ s'.spaces a = some v'
      ∧ v'.pml4 = v.pml4 ∧ v'.userStart = v.userStart
      ∧ Unmapped s s' v v' start (start + length) rest)
    ∨ ¬ Serves s (3 * v.list.length) ∧ (s.vasUnmap a start length = .error .splitLeft
      ∨ s.vasUnmap a start length = .error .splitRight) := by
  have hs : PAGE_SIZE = 4096 := rfl
  have hstop : (start + length) % PAGE_SIZE = 0 := by
    rw [hs] at hstart hlength ⊢
    omega
  by_cases hzero : length = 0
  · -- nothing is done
    have hempty : ∀ n, ¬ InRange v.list start (start + length) n := by
      intro n hn
      have := hn.2
      omega
    have hlost : ∀ f, lost s v start (start + length) f = 0 := by
      intro f
      have : pagesTo s.mach v.pml4 (InRange v.list start (start + length)) f = ∅ :=
        Set.eq_empty_of_forall_notMem fun n hn => hempty n hn.1
      unfold lost
      rw [this, Set.ncard_empty]
    have hleft : Pmm.left rest ref (lost s v start (start + length)) = rest := by
      refine List.filter_eq_self.mpr fun b hb => ?_
      rw [hlost]
      exact decide_eq_true (h.holds.ledger.head b (List.mem_append_right _ hb)).2.2.2
    have hholds : Holds maxPfn usable s
        (Pmm.left rest ref (lost s v start (start + length))) ref := by
      rw [hleft]
      exact h.holds
    refine Or.inl ⟨s, v, ?_, hv, rfl, rfl, ?_⟩
    · unfold vasUnmap
      simp only [hv, if_pos hzero]
    · refine h.unmapped ht hstart hstop (Rewrites.empty hempty) rfl (fun x => ?_)
        (fun _ _ => rfl) hholds fun b hb => ?_
      · exact ⟨fun hx => ⟨hx, by omega⟩, fun hx => hx.1⟩
      · rw [hlost, Nat.sub_zero]
  have hdown : pageAlignDown start = start := by
    show start / 4096 * 4096 = start
    rw [hs] at hstart
    omega
  have hup : pageAlignUp length = length := pageAlignUp_of_aligned hlength (by omega)
  obtain ⟨m', hun, hw, hholds⟩ := h.unmapVads (start + length) ht hstart
  unfold vasUnmap
  simp only [hv, if_neg hzero, hdown, hup, Nat.mod_eq_of_lt hwrap, hun, lift]
  cases hrem : vadRemoveRange start (start + length) v.list { s with mach := m' } with
  | error e =>
      obtain ⟨he, hserves⟩ := vadRemoveRange_error hrem
      refine Or.inr ⟨hserves, he.imp ?_ ?_⟩
      · intro he
        rw [he]
      · intro he
        rw [he]
  | ok r =>
      obtain ⟨s1, list⟩ := r
      obtain ⟨rfl, hrun⟩ := vadRemoveRange_spec hrem
      obtain ⟨hmem, ref', hholds', hspare⟩ := hrun.ledger hholds
      have hle : start ≤ start + length := Nat.le_add_right _ _
      refine Or.inl ⟨_, _, rfl, setSpace_self _ _ _, rfl, rfl, ?_⟩
      exact h.unmapped ht hstart hstop hw hmem
        (ht.list.removeRange hle ⟨hstart, hstop⟩).2
        (fun x => vasFind_removeRange ht.list hle ⟨hstart, hstop⟩)
        ⟨hholds'.ledger, hholds'.single⟩ hspare.ref

-- ==== the runs

section runs

variable {fx : Outside} {Q : Word → Prop} {V : View} {blocks : List Block} {s₀ : Vm}

/-- The frame of an entry of the view, by the entry. -/
theorem frameOf_leafWord {k : Books} {R : Nat → Prop} {m : Mach} (hmax : maxPfn < 2 ^ 40)
    (hzero : usable 0 = false) (hk : Backed maxPfn usable s.heap fx R k m) {x : Spot}
    {f : Nat} : frameOf (leafWord (k.view x)) = some f ↔ k.view.frames x = some f := by
  unfold View.frames
  cases hx : k.view x with
  | none => exact ⟨fun e => (by cases e), fun e => (by cases e)⟩
  | some e =>
      obtain ⟨g, fl⟩ := e
      obtain ⟨hlt, hu, -⟩ := hk.managed hx
      have hne : g ≠ 0 := by
        rintro rfl
        rw [hzero] at hu
        cases hu
      show frameOf (pte (pfnPhys g) fl) = some f ↔ some g = some f
      rw [frameOf_pte fl hne (by omega)]

theorem Spaces.accounted (hmax : maxPfn < 2 ^ 40) (hzero : usable 0 = false)
    (h : Spaces maxPfn usable fx Q s V) (hv : s.spaces a = some v) :
    ∃ rest ref, Accounted maxPfn usable s v rest ref := by
  obtain ⟨k, hk, -, hextra⟩ := h.settled
  have hs : PAGE_SIZE = 4096 := rfl
  have hleaf : ∀ va, Covers v.list va → leaf s.mach.mem v.pml4 va
      = leafWord (k.view (v.pml4, va / PAGE_SIZE)) := by
    intro va hva
    obtain ⟨x, hx, -, hlt⟩ := hva
    have := (h.user a v hv x hx).1
    exact hk.leaf _ _ (Spaces.root hv) (by omega)
  refine ⟨fx.blocks ++ k.own, k.ref, ⟨hk.ledger, hk.single⟩, fun va f hva hf _ => ?_,
    fun f hf => ?_⟩
  · rw [hleaf va hva, frameOf_leafWord hmax hzero hk] at hf
    obtain ⟨e, he, rfl⟩ := Option.map_eq_some_iff.mp hf
    exact Or.inr (List.mem_append_right _ (hk.used_own (hk.entry_used he)))
  · -- the entries of this space are some of the references of the frame
    by_cases hempty : pagesTo s.mach v.pml4 (fun n => Covers v.list (n * PAGE_SIZE)) f = ∅
    · rw [hempty, Set.ncard_empty]
      exact Nat.zero_le _
    have hentry : ∀ n ∈ pagesTo s.mach v.pml4 (fun n => Covers v.list (n * PAGE_SIZE)) f,
        k.view.frames (v.pml4, n) = some f := by
      intro n hn
      have hword := hn.2
      rw [hleaf _ hn.1, Nat.mul_div_cancel n (by decide),
        frameOf_leafWord hmax hzero hk] at hword
      exact hword
    have hle : (pagesTo s.mach v.pml4 (fun n => Covers v.list (n * PAGE_SIZE)) f).ncard
        ≤ refs k.view.frames f := by
      refine Set.ncard_le_ncard_of_injOn (fun n => (v.pml4, n)) hentry ?_
        (hk.sparse.pointing f)
      exact fun _ _ _ _ e => (Prod.mk.inj e).2
    obtain ⟨n, hn⟩ := Set.nonempty_iff_ne_empty.mpr hempty
    have hpos : 0 < refs k.view.frames f := (refs_pos hk.sparse).mpr ⟨_, hentry n hn⟩
    have huses := Books.uses_eq (hextra f)
    rw [hk.data f (by rw [huses]; exact hpos), huses]
    exact hle

/-- The frames of every space of a run are accounted for. -/
theorem Ready.accounted (hmax : maxPfn < 2 ^ 40) (hzero : usable 0 = false)
    (h₀ : Ready maxPfn usable blocks s₀) (h : Reachable UserCall s₀ s)
    (hv : s.spaces a = some v) : ∃ rest ref, Accounted maxPfn usable s v rest ref := by
  obtain ⟨V, hs, -⟩ := h₀.reachable hmax hzero h
  exact hs.accounted hmax hzero hv

/-- The first of two pages goes, and the descriptor is cut. -/
theorem vasUnmap_exact_page : ∃ (s s' : Vm) (v v' : Vas) (rest : List Block),
    s.spaces 0 = some v ∧ v.list = [⟨0x5000, 0x7000, 0x5002⟩]
    ∧ s.vasUnmap 0 0x5000 0x1000 = .ok (s', 0) ∧ s'.spaces 0 = some v'
    ∧ v'.list = [⟨0x6000, 0x7000, 0x5002⟩] ∧ Unmapped s s' v v' 0x5000 0x6000 rest := by
  have hplay : (play UserCall bootVm [(fair, .create none),
      (fair, .mapAnon 0 0x5000 0x2000 PAGE_WRITE)]).map (fun s => ((s.spaces 0).map Vas.list,
        (s.vasUnmap 0 0x5000 0x1000).toOption.map fun r => (r.1.spaces 0).map Vas.list))
      = some (some [⟨0x5000, 0x7000, 0x5002⟩], some (some [⟨0x6000, 0x7000, 0x5002⟩])) := by
    decide +kernel
  obtain ⟨s, hrun, heq⟩ := Option.map_eq_some_iff.mp hplay
  obtain ⟨hold, hnew⟩ := Prod.mk.inj heq
  obtain ⟨v, hv, hlist⟩ := Option.map_eq_some_iff.mp hold
  have hreach := reachable_play .init hrun
  obtain ⟨rest, ref, h⟩ := bootVm_ready.accounted (by decide) rfl hreach hv
  rcases vasUnmap_exact hv (bootVm_ready.tidy (by decide) rfl hreach hv) h 0x5000 0x1000
    (by decide) (by decide) (by decide) with ⟨s', v', hret, hv', -, -, hgone⟩ | ⟨-, hret | hret⟩
  · rw [hret] at hnew
    refine ⟨s, s', v, v', rest, hv, hlist, hret, hv', ?_, hgone⟩
    change some ((s'.spaces 0).map Vas.list) = _ at hnew
    rw [hv'] at hnew
    exact Option.some.inj (Option.some.inj hnew)
  · rw [hret] at hnew
    cases hnew
  · rw [hret] at hnew
    cases hnew

end runs

end Vm

end Alix
