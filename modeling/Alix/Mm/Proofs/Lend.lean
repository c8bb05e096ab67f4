/-
Mapping frames that belong to others.

`vas_map_phys` takes a reference for each page that the allocator manages
and maps it, and `uncommit_range` drops one for each page it finds mapped.
Neither owns the frames: their blocks stay out throughout, so all that
happens to a frame is that its count moves. `Lent` says by how much, and
that apart from it only tables came. It composes: the counts add up.

The loop stops at the first page whose tables cannot be had, and by then
this page has taken its reference (`Stock.mapPhysPages`). The undoing of a
list of pages gives back one reference for each of them
(`Stock.uncommitPages`).
-/
import Alix.Mm.Proofs.Rollback

namespace Alix

open Paging
open Radix
open Dyadic (Block)
open Pmm (Ledger Usable Allocated)

variable {maxPfn : Nat} {usable : Nat → Bool} {out : List Block} {ref ref' : Nat → Nat}
  {R : Nat → Prop} {m m' m'' : Mach} {r va f q : Nat} {flags : Word}

-- ==== the invariant

/-- The descriptor with `n` more references. -/
def Page.more (n : Int) (p : Page) : Page := { p with refcount := p.refcount + n }

/-- `page && !PageReserved(page) && !PagePoisoned(page)`: the page of the
frame is one whose references are counted. -/
def Tracked (maxPfn : Nat) (m : Pmm) (f : Nat) : Prop := f ≤ maxPfn ∧ ¬ PassedOver m f

instance : Decidable (Tracked maxPfn m.pmm f) :=
  inferInstanceAs (Decidable (_ ∧ ¬ (_ = true)))

/-- A frame to be mapped: if its references are counted, it is out and has
one. -/
def Lendable (maxPfn : Nat) (out : List Block) (m : Pmm) (f : Nat) : Prop :=
  Tracked maxPfn m f → Allocated out f ∧ 0 < (m.pages f).refcount

/-- The references that the frames of a list take. -/
def taken (maxPfn : Nat) (m : Mach) (fs : List Nat) (q : Nat) : Int :=
  if Tracked maxPfn m.pmm q then fs.count q else 0

/-- The counts of the frames in use move by `n`, and the tables grow by the
blocks `tabs`. -/
structure Lent (maxPfn : Nat) (usable : Nat → Bool) (R : Nat → Prop) (out : List Block)
    (n : Nat → Int) (tabs : List Block) (ref' : Nat → Nat) (m m' : Mach) : Prop where
  stock : Stock maxPfn usable R (tabs ++ out) ref' m'
  tabs : ∀ b ∈ tabs, b.order = 0 ∧ Table m' R b.base
  data : ∀ q, Used maxPfn usable out q →
    (m'.pmm.pages q).data = ((m.pmm.pages q).more (n q)).data
  walks : ∀ t q g, R t → Lower q → walk (child m.mem) t q = some g →
    walk (child m'.mem) t q = some g
  framed : Framed m m' R (Used maxPfn usable out)

theorem Page.more_zero (p : Page) : p.more 0 = p := by
  unfold Page.more
  rw [Int.add_zero]

theorem Page.more_data {p p' : Page} {n k : Int} (h : p'.data = (p.more n).data) :
    (p'.more k).data = (p.more (n + k)).data := by
  obtain ⟨hr, ho, hf, hp⟩ := data_eq_iff.mp h
  refine data_eq_iff.mpr ⟨?_, ho, hf, hp⟩
  show p'.refcount + k = p.refcount + (n + k)
  rw [hr]
  exact Int.add_assoc _ _ _

@[simp] theorem taken_nil : taken maxPfn m [] q = 0 := by
  unfold taken
  simp

theorem taken_append (fs gs : List Nat) :
    taken maxPfn m (fs ++ gs) q = taken maxPfn m fs q + taken maxPfn m gs q := by
  unfold taken
  split
  · rw [List.count_append]
    push_cast
    rfl
  · rfl

theorem taken_cons (fs : List Nat) :
    taken maxPfn m (f :: fs) q = taken maxPfn m [f] q + taken maxPfn m fs q :=
  taken_append [f] fs

theorem taken_nonneg (maxPfn : Nat) (m : Mach) (fs : List Nat) (q : Nat) :
    0 ≤ taken maxPfn m fs q := by
  unfold taken
  split
  · exact Int.natCast_nonneg _
  · exact Int.le_refl 0

theorem taken_self (hc : Tracked maxPfn m.pmm f) : taken maxPfn m [f] f = 1 := by
  unfold taken
  rw [if_pos hc, List.count_singleton, if_pos (beq_self_eq_true f)]
  rfl

theorem taken_of_ne (hne : q ≠ f) : taken maxPfn m [f] q = 0 := by
  have hno : (f == q) = false := beq_false_of_ne hne.symm
  unfold taken
  rw [List.count_singleton, hno]
  simp

theorem taken_untracked {fs : List Nat} (hc : q ∈ fs → ¬ Tracked maxPfn m.pmm q) :
    taken maxPfn m fs q = 0 := by
  unfold taken
  split
  · rename_i hq
    rw [List.count_eq_zero.mpr fun hin => hc hin hq]
    rfl
  · rfl

/-- Whether references are counted does not change with their number. -/
theorem tracked_more {n : Int}
    (h : (m'.pmm.pages q).data = ((m.pmm.pages q).more n).data) :
    Tracked maxPfn m'.pmm q ↔ Tracked maxPfn m.pmm q := by
  obtain ⟨-, -, hfl, -⟩ := Page.data_eq_iff.mp h
  have hfl : (m'.pmm.pages q).flags = (m.pmm.pages q).flags := hfl
  unfold Tracked PassedOver Page.reserved Page.poisoned
  rw [hfl]

theorem taken_more {n : Int} (h : (m'.pmm.pages q).data = ((m.pmm.pages q).more n).data)
    (fs : List Nat) : taken maxPfn m' fs q = taken maxPfn m fs q := by
  unfold taken
  exact if_congr (tracked_more h) rfl rfl

namespace Lent

variable {n n' : Nat → Int} {tabs tabs' : List Block} {ref'' : Nat → Nat}

theorem refl (h : Stock maxPfn usable R out ref m) :
    Lent maxPfn usable R out (fun _ => 0) [] ref m m :=
  ⟨h, fun b hb => (by cases hb), fun q _ => by rw [Page.more_zero], fun _ _ _ _ _ hw => hw,
    (Grows.refl m R _).toFramed⟩

theorem table (h : Lent maxPfn usable R out n tabs ref' m m') (hf : Table m R f) :
    Table m' R f := by
  obtain ⟨t, q, ht, hq, hw⟩ := hf
  exact ⟨t, q, ht, hq, h.walks t q f ht hq hw⟩

theorem trans (h : Lent maxPfn usable R out n tabs ref' m m')
    (h' : Lent maxPfn usable R (tabs ++ out) n' tabs' ref'' m' m'') :
    Lent maxPfn usable R out (fun q => n q + n' q) (tabs' ++ tabs) ref'' m m'' := by
  refine ⟨?_, fun b hb => ?_, fun q hq => ?_, fun t q g ht hq hw => ?_, ?_⟩
  · rw [List.append_assoc]
    exact h'.stock
  · rcases List.mem_append.mp hb with hb | hb
    · exact h'.tabs b hb
    · exact ⟨(h.tabs b hb).1, h'.table (h.tabs b hb).2⟩
  · rw [h'.data q (hq.append tabs)]
    exact Page.more_data (h.data q hq)
  · exact h'.walks t q g ht hq (h.walks t q g ht hq hw)
  · exact h.framed.trans h'.framed fun f hf => hf.append tabs

theorem congr (h : Lent maxPfn usable R out n tabs ref' m m')
    (hn : ∀ q, Used maxPfn usable out q → n q = n' q) :
    Lent maxPfn usable R out n' tabs ref' m m' :=
  { h with data := fun q hq => by rw [← hn q hq]; exact h.data q hq }

theorem refcount (h : Lent maxPfn usable R out n tabs ref' m m')
    (hq : Used maxPfn usable out q) :
    (m'.pmm.pages q).refcount = (m.pmm.pages q).refcount + n q :=
  (Page.data_eq_iff.mp (h.data q hq)).1

end Lent

/-- A frame to be mapped is in use. -/
theorem Lendable.used {out' : List Block} (hl : Ledger maxPfn usable m.pmm out' ref)
    (h : Lendable maxPfn out m.pmm f) : Used maxPfn usable out f := by
  by_cases hc : Tracked maxPfn m.pmm f
  · exact Or.inr (h hc).1
  · refine Or.inl fun hu => hc ⟨Nat.le_of_lt_succ hu.1, ?_⟩
    obtain ⟨hres, hpoi⟩ := hl.clean f hu
    unfold PassedOver
    rw [hres, hpoi]
    decide

theorem Lent.lendable {n : Nat → Int} {tabs : List Block} (hl : Ledger maxPfn usable m.pmm out ref)
    (h : Lent maxPfn usable R out n tabs ref' m m') (hn : 0 ≤ n f)
    (hf : Lendable maxPfn out m.pmm f) : Lendable maxPfn (tabs ++ out) m'.pmm f := by
  have hu := hf.used hl
  intro hc
  obtain ⟨⟨b, hb, hfb⟩, hpos⟩ := hf ((tracked_more (h.data f hu)).mp hc)
  refine ⟨⟨b, List.mem_append_right _ hb, hfb⟩, ?_⟩
  rw [h.refcount hu]
  omega

-- ==== the steps

/-- The allocator changes nothing but counts. -/
theorem Stock.lent_pmm (h : Stock maxPfn usable R out ref m) {n : Nat → Int} {pmm : Pmm}
    (hl : Ledger maxPfn usable pmm out ref')
    (hdata : ∀ q, (pmm.pages q).data = ((m.pmm.pages q).more (n q)).data) :
    Lent maxPfn usable R out n [] ref' m { m with pmm } :=
  ⟨⟨hl, h.forest, h.held⟩, fun b hb => (by cases hb), fun q _ => hdata q,
    fun _ _ _ _ _ hw => hw, ⟨fun _ _ _ _ => rfl, fun _ _ _ hs => hs⟩⟩

theorem Grown.lent {tabs : List Block} (h : Grown maxPfn usable R out ref tabs ref' m m')
    (hs : Stock maxPfn usable R (tabs ++ out) ref' m') :
    Lent maxPfn usable R out (fun _ => 0) tabs ref' m m' :=
  ⟨hs, h.tabs, fun q hq => by rw [Page.more_zero, h.data q hq], h.walks, h.framed⟩

/-- A write to the count of one page. -/
theorem modPage_more {m : Pmm} {g : Page → Page} {n : Int} (hg : ∀ p, g p = p.more n)
    (q : Nat) : ((m.modPage f g).pages q).data
      = ((m.pages q).more (if q = f then n else 0)).data := by
  by_cases hq : q = f
  · rw [hq, Pmm.modPage_pages_self, hg, if_pos rfl]
  · rw [Pmm.modPage_pages_of_ne m hq, if_neg hq, Page.more_zero]

/-- `phys_to_page` of a frame. -/
theorem physToPage_pfnPhys (m : Mach) (f : Nat) :
    m.physToPage (pfnPhys f) = if f > m.pmm.maxPfn then none else some f := by
  have hphys : physPfn (pfnPhys f) = f := Nat.mul_div_cancel f (by decide)
  unfold Machine.physToPage
  rw [hphys]

/-- The reference that a page takes before it is mapped. -/
def takeRef (m : Mach) (phys : Nat) : Mach :=
  match m.physToPage phys with
  | none => m
  | some page =>
      if (m.pmm.pages page).reserved || (m.pmm.pages page).poisoned then m
      else { m with pmm := m.pmm.pageRefInc page }

theorem Stock.takesRef (h : Stock maxPfn usable R out ref m)
    (hf : Lendable maxPfn out m.pmm f) :
    (∃ ref', Lent maxPfn usable R out (taken maxPfn m [f]) [] ref' m (takeRef m (pfnPhys f)))
      ∧ (takeRef m (pfnPhys f)).mem = m.mem := by
  generalize hm : takeRef m (pfnPhys f) = m₀
  have hskip : ¬ Tracked maxPfn m.pmm f → m = m₀ →
      (∃ ref', Lent maxPfn usable R out (taken maxPfn m [f]) [] ref' m m₀)
        ∧ m₀.mem = m.mem := by
    intro hc he
    rw [← he]
    refine ⟨⟨ref, (Lent.refl h).congr fun q _ => ?_⟩, rfl⟩
    rw [taken_untracked fun hq => ?_]
    rw [List.mem_singleton.mp hq]
    exact hc
  unfold takeRef at hm
  rw [physToPage_pfnPhys, h.ledger.bound] at hm
  by_cases hle : f > maxPfn
  · rw [if_pos hle] at hm
    exact hskip (fun hc => absurd hc.1 (by omega)) hm
  rw [if_neg hle] at hm
  simp only at hm
  by_cases hpass : ((m.pmm.pages f).reserved || (m.pmm.pages f).poisoned) = true
  · rw [if_pos hpass] at hm
    exact hskip (fun hc => hc.2 hpass) hm
  rw [if_neg hpass] at hm
  have hc : Tracked maxPfn m.pmm f := ⟨by omega, hpass⟩
  obtain ⟨hout, hpos⟩ := hf hc
  obtain ⟨ref', hl⟩ := h.ledger.stamp hout (Pmm.harmless_refcount (· + 1)) fun _ => by
    show 0 < _ + _
    omega
  rw [← hm]
  refine ⟨⟨ref', (h.lent_pmm hl (n := fun q => if q = f then 1 else 0)
    (modPage_more fun _ => rfl)).congr fun q _ => ?_⟩, rfl⟩
  by_cases hq : q = f
  · rw [if_pos hq, hq, taken_self hc]
  · rw [if_neg hq, taken_of_ne hq]

-- ==== the loop

/-- What is left is enough for the rest. -/
theorem Paid.fits {n n' : Nat} {ps ps' : List (List Nat)} (h : Paid r n ps m m')
    (h' : ¬ Short r n' ps' m') (hps : ∀ q ∈ ps', Lower q) :
    ¬ Short r (n + n') (ps ++ ps') m := by
  have hcost := h.cost
  unfold Short at h' ⊢
  rw [h.gaps hps]
  omega

/-- The pages of a list, each with its frame, are mapped, and no other
page is changed. -/
structure Mapped (R : Nat → Prop) (r : Nat) (flags : Word) (l : List (Nat × Nat))
    (m m' : Mach) : Prop where
  inside : ∀ x ∈ l, ∀ u, u < 2 ^ 47 → u / PAGE_SIZE = x.1 / PAGE_SIZE →
    leaf m'.mem r u = pte (pfnPhys x.2) flags
  outside : ∀ t u, R t → u < 2 ^ 47 → (t = r → ¬ Pages (l.map Prod.fst) (u / PAGE_SIZE)) →
    leaf m'.mem t u = leaf m.mem t u

/-- The page and the frame at an offset. -/
def lentAt (base phys off : Nat) : Nat × Nat := (base + off, physPfn (phys + off))

/-- A page is mapped before the others. -/
theorem Mapped.cons {l : List (Nat × Nat)} {x : Nat × Nat}
    (h : ∀ t u, R t → u < 2 ^ 47 → leaf m'.mem t u
      = if t = r ∧ u / PAGE_SIZE = x.1 / PAGE_SIZE then pte (pfnPhys x.2) flags
        else leaf m.mem t u)
    (h' : Mapped R r flags l m' m'') (hr : R r)
    (hnew : ¬ Pages (l.map Prod.fst) (x.1 / PAGE_SIZE)) : Mapped R r flags (x :: l) m m'' := by
  refine ⟨fun y hy u hu hpage => ?_, fun t u ht hu hout => ?_⟩
  · rcases List.mem_cons.mp hy with rfl | hy
    · rw [h'.outside r u hr hu fun _ => by rw [hpage]; exact hnew, h r u hr hu,
        if_pos ⟨rfl, hpage⟩]
    · exact h'.inside y hy u hu hpage
  · rw [List.map_cons] at hout
    rw [h'.outside t u ht hu fun e hn => hout e (pages_cons.mpr (Or.inr hn)), h t u ht hu,
      if_neg fun e => hout e.1 (pages_cons.mpr (Or.inl e.2.symm))]

theorem mapPhysPages_cons (v : Vas) (base phys : Nat) (flags : Word) (off : Nat) (offs : List Nat)
    (m : Mach) : Vm.mapPhysPages v base phys flags (off :: offs) m
      = match pagingMapPage Pmm.pmmAllocPage (takeRef m ((phys + off) % 2 ^ 64)) (some v.pml4)
          ((base + off) % 2 ^ 64) ((phys + off) % 2 ^ 64) (flags &&& VAD_PROT_MASK) with
        | (s, rc) =>
            if rc ≠ 0 then
              match s.uncommitRange v.pml4 base ((base + off) % 2 ^ 64) with
              | .error e => .error (.pmm e)
              | .ok s => .ok (s, -1)
            else Vm.mapPhysPages v base phys flags offs s := rfl

section mapping

variable (hmax : maxPfn < 2 ^ 40) (hzero : usable 0 = false)

include hmax hzero

/-- One round of `vas_map_phys`: the reference is taken, and then the page
is mapped or its tables cannot be had. -/
theorem Stock.lendPage (h : Stock maxPfn usable R out ref m) (hr : R r) (hv : va < 2 ^ 47)
    (ha : va % PAGE_SIZE = 0) (hf : Lendable maxPfn out m.pmm f) {rc : Int}
    (hmap : pagingMapPage Pmm.pmmAllocPage (takeRef m (pfnPhys f)) (some r) va (pfnPhys f) flags
      = (m', rc)) :
    ∃ tabs ref', Lent maxPfn usable R out (taken maxPfn m [f]) tabs ref' m m'
      ∧ ((rc = 0 ∧ (∀ t u, R t → u < 2 ^ 47 → leaf m'.mem t u
            = if t = r ∧ u / PAGE_SIZE = va / PAGE_SIZE then pte (pfnPhys f) flags
              else leaf m.mem t u)
            ∧ Paid r 0 (tablePaths va) m m')
        ∨ (rc = -1 ∧ (∀ t u, R t → u < 2 ^ 47 → leaf m'.mem t u = leaf m.mem t u)
            ∧ Short r 0 (tablePaths va) m)) := by
  obtain ⟨⟨ref₀, lent₀⟩, hmem⟩ := h.takesRef hf
  have hs₀ : Stock maxPfn usable R out ref₀ (takeRef m (pfnPhys f)) := lent₀.stock
  obtain ⟨tabs, ref', hs, hgrown, hcases⟩ :=
    hs₀.mapPage hmax hzero hr hv ha (pfnPhys_mod f) hmap
  have hpaid : Paid r 0 [] m (takeRef m (pfnPhys f)) := by
    refine ⟨?_, fun q _ => ?_⟩
    · rw [h.ledger.freeFrames_eq, hs₀.ledger.freeFrames_eq]
      rfl
    · rw [hmem]
      exact ⟨fun e => ⟨e, List.not_mem_nil⟩, And.left⟩
  have hlow := lower_tablePaths hv
  refine ⟨tabs, ref', ?_, ?_⟩
  · have hboth := lent₀.trans (hgrown.lent hs)
    rw [List.append_nil] at hboth
    exact hboth.congr fun q _ => Int.add_zero _
  · rw [hmem] at hcases
    exact hcases.imp (fun hdone => ⟨hdone.1, hdone.2.1, hpaid.trans hdone.2.2 hlow⟩)
      fun hdone => ⟨hdone.1, hdone.2.1, hpaid.short hdone.2.2 hlow⟩

/-- The loop of `vas_map_phys`: every page is mapped, or the tables run out
at a page that has taken its reference. -/
theorem Stock.mapPhysPages (h : Stock maxPfn usable R out ref m) (flags : Word) {v : Vas}
    (hr : R v.pml4) {base phys : Nat} {offs : List Nat}
    (hoffs : ∀ off ∈ offs, base + off < 2 ^ 47 ∧ (base + off) % PAGE_SIZE = 0
      ∧ phys + off < 2 ^ 52 ∧ (phys + off) % PAGE_SIZE = 0)
    (hdist : offs.Pairwise fun o o' => (base + o) / PAGE_SIZE ≠ (base + o') / PAGE_SIZE)
    (hlend : ∀ off ∈ offs, Lendable maxPfn out m.pmm (lentAt base phys off).2) :
    (∃ m' tabs ref', Vm.mapPhysPages v base phys flags offs m = .ok (m', 0)
      ∧ Lent maxPfn usable R out (taken maxPfn m ((offs.map (lentAt base phys)).map Prod.snd)) tabs
        ref' m m'
      ∧ Mapped R v.pml4 (flags &&& VAD_PROT_MASK) (offs.map (lentAt base phys)) m m'
      ∧ Paid v.pml4 0 (((offs.map (lentAt base phys)).map Prod.fst).flatMap tablePaths) m m')
    ∨ ∃ pre off post m' tabs ref', offs = pre ++ off :: post
      ∧ (Vm.mapPhysPages v base phys flags offs m
        = match m'.uncommitRange v.pml4 base (base + off) with
          | .error e => .error (.pmm e)
          | .ok s => .ok (s, -1))
      ∧ Lent maxPfn usable R out
        (taken maxPfn m (((pre ++ [off]).map (lentAt base phys)).map Prod.snd)) tabs ref' m m'
      ∧ Mapped R v.pml4 (flags &&& VAD_PROT_MASK) (pre.map (lentAt base phys)) m m'
      ∧ ¬ Short v.pml4 0 (((pre.map (lentAt base phys)).map Prod.fst).flatMap tablePaths) m
      ∧ Short v.pml4 0
        ((((pre ++ [off]).map (lentAt base phys)).map Prod.fst).flatMap tablePaths) m := by
  induction offs generalizing m out ref with
  | nil =>
      refine Or.inl ⟨m, [], ref, rfl, (Lent.refl h).congr fun q _ => taken_nil.symm, ⟨fun x hx => ?_,
        fun _ _ _ _ _ => rfl⟩, ⟨?_, fun q _ => ⟨fun e => ⟨e, List.not_mem_nil⟩, And.left⟩⟩⟩
      · cases hx
      · rfl
  | cons off offs ih =>
      obtain ⟨hv, ha, hlt, hp⟩ := hoffs off List.mem_cons_self
      obtain ⟨hd, hdist'⟩ := List.pairwise_cons.mp hdist
      have hf := hlend off List.mem_cons_self
      have hphys : pfnPhys (physPfn (phys + off)) = phys + off := by
        have hs : PAGE_SIZE = 4096 := rfl
        unfold pfnPhys physPfn
        rw [hs] at hp ⊢
        omega
      have hva : (base + off) % 2 ^ 64 = base + off := Nat.mod_eq_of_lt (by omega)
      have hph : (phys + off) % 2 ^ 64 = phys + off := Nat.mod_eq_of_lt (by omega)
      have hlow := lower_tablePaths hv
      have hgapsnil : ¬ Short v.pml4 0 [] m := fun hs => Nat.not_lt_zero _ hs
      rw [mapPhysPages_cons, hva, hph]
      cases hmap : pagingMapPage Pmm.pmmAllocPage (takeRef m (phys + off)) (some v.pml4)
        (base + off) (phys + off) (flags &&& VAD_PROT_MASK) with
      | mk m1 rc =>
      rw [← hphys] at hmap
      obtain ⟨tabs, ref1, lent, hcases⟩ := h.lendPage hmax hzero hr hv ha hf hmap
      obtain ⟨rfl, hleaf, paid⟩ | ⟨rfl, hleaf, short⟩ := hcases
      · -- the page is mapped
        simp only [ne_eq, not_true_eq_false, if_false]
        have hnew : ∀ l : List Nat, (∀ o ∈ l, o ∈ offs) →
            ¬ Pages ((l.map (lentAt base phys)).map Prod.fst) ((base + off) / PAGE_SIZE) := by
          intro l hl hn
          obtain ⟨va, hva, he⟩ := hn
          rw [List.map_map, List.mem_map] at hva
          obtain ⟨o, ho, rfl⟩ := hva
          exact hd o (hl o ho) he.symm
        have hlows : ∀ l : List Nat, (∀ o ∈ l, o ∈ offs) →
            ∀ p ∈ ((l.map (lentAt base phys)).map Prod.fst).flatMap tablePaths, Lower p := by
          intro l hl p hp
          obtain ⟨va, hva, hp⟩ := List.mem_flatMap.mp hp
          rw [List.map_map, List.mem_map] at hva
          obtain ⟨o, ho, rfl⟩ := hva
          exact lower_tablePaths (hoffs o (List.mem_cons_of_mem _ (hl o ho))).1 p hp
        have hsum : ∀ (fs : List Nat) (q : Nat), Used maxPfn usable out q →
            taken maxPfn m [(lentAt base phys off).2] q + taken maxPfn m1 fs q
              = taken maxPfn m ((lentAt base phys off).2 :: fs) q := by
          intro fs q hq
          rw [taken_more (lent.data q hq), ← taken_cons]
        rcases ih lent.stock (fun o ho => hoffs o (List.mem_cons_of_mem _ ho)) hdist'
          (fun o ho => lent.lendable h.ledger (taken_nonneg _ _ _ _)
            (hlend o (List.mem_cons_of_mem _ ho))) with
          ⟨m2, tabs2, ref2, hrun, lent2, mapped, paid2⟩ |
          ⟨pre, o, post, m2, tabs2, ref2, rfl, hrun, lent2, mapped, hfits, short⟩
        · exact Or.inl ⟨m2, _, ref2, hrun, (lent.trans lent2).congr (hsum _),
            Mapped.cons (x := lentAt base phys off) hleaf mapped hr (hnew offs fun _ ho => ho),
            paid.trans paid2 (hlows offs fun _ ho => ho)⟩
        · have hpre : ∀ x ∈ pre, x ∈ pre ++ o :: post := fun _ => List.mem_append_left _
          have hpre' : ∀ x ∈ pre ++ [o], x ∈ pre ++ o :: post := fun x hx => by
            rw [List.append_cons]
            exact List.mem_append_left _ hx
          exact Or.inr ⟨off :: pre, o, post, m2, _, ref2, rfl, hrun,
            (lent.trans lent2).congr (hsum _),
            Mapped.cons (x := lentAt base phys off) hleaf mapped hr (hnew pre hpre),
            paid.fits hfits (hlows pre hpre), paid.short short (hlows _ hpre')⟩
      · simp only [ne_eq, neg_eq_zero, one_ne_zero, not_false_eq_true, if_true]
        refine Or.inr ⟨[], off, offs, m1, tabs, ref1, rfl, rfl, lent, ⟨fun x hx => (by cases hx),
          fun t u ht hu _ => hleaf t u ht hu⟩, hgapsnil, ?_⟩
        exact short.append 0 []

end mapping

-- ==== the undoing

/-- One round of `uncommit_range`: the frame of the page, if it has one,
loses a reference. -/
theorem Pmm.Ledger.dropPage (h : Ledger maxPfn usable m.pmm out ref)
    (hv : Canonical va) (ha : va % PAGE_SIZE = 0) (hal : Alone m.mem r va)
    (hf : ∀ f, frameOf (leaf m.mem r va) = some f → Tracked maxPfn m.pmm f →
      Allocated out f ∧ 1 < (m.pmm.pages f).refcount) :
    ∃ m' ref', m.uncommitPage r va = .ok m' ∧ Ledger maxPfn usable m'.pmm out ref'
      ∧ ∀ q, (m'.pmm.pages q).data = ((m.pmm.pages q).more
        (-taken maxPfn m (frameOf (leaf m.mem r va)).toList q)).data := by
  obtain ⟨-, hpmm⟩ := rewrites_unmap hal hv ha
  generalize ho : frameOf (leaf m.mem r va) = o at hf
  have hskip : (∀ f, o = some f → ¬ Tracked maxPfn m.pmm f) → ∃ m' ref',
      (.ok (pagingUnmapPage Pmm.pmmAllocPage m (some r) va) : Except Kpanic Mach) = .ok m'
      ∧ Ledger maxPfn usable m'.pmm out ref'
      ∧ ∀ q, (m'.pmm.pages q).data
        = ((m.pmm.pages q).more (-taken maxPfn m o.toList q)).data := by
    intro hc
    refine ⟨_, ref, rfl, ?_, fun q => ?_⟩
    · rw [hpmm]
      exact h
    · have hno : taken maxPfn m o.toList q = 0 := taken_untracked fun hq =>
        hc q (Option.mem_toList.mp hq)
      rw [hpmm, hno, Int.neg_zero, Page.more_zero]
  unfold Machine.uncommitPage
  simp only [virtToPhys_page m r ha, ho]
  cases o with
  | none => exact hskip fun f hf => (by cases hf)
  | some f =>
  simp only [if_neg (frameOf_some ho).2, pageAlignDown_pfnPhys, physToPage_pfnPhys,
    h.bound]
  by_cases hle : f > maxPfn
  · rw [if_pos hle]
    refine hskip fun g hg hc => ?_
    have hgf : f = g := Option.some.inj hg
    have := hc.1
    omega
  rw [if_neg hle]
  simp only [hpmm]
  by_cases hpass : ((m.pmm.pages f).reserved || (m.pmm.pages f).poisoned) = true
  · rw [if_pos hpass]
    refine hskip fun g hg hc => hc.2 ?_
    rw [← Option.some.inj hg]
    exact hpass
  rw [if_neg hpass]
  have hc : Tracked maxPfn m.pmm f := ⟨by omega, hpass⟩
  obtain ⟨hout, hmore⟩ := hf f rfl hc
  obtain ⟨hok, ref', hl⟩ := h.free_more hout hmore
  have hdown := modPage_more (m := m.pmm) (f := f)
    (g := fun p => { p with refcount := p.refcount - 1 }) (n := -1) fun _ => rfl
  unfold Machine.free
  rw [hpmm, hok]
  refine ⟨_, ref', rfl, hl, fun q => (hdown q).trans ?_⟩
  have hlist : (some f).toList = [f] := rfl
  rw [hlist]
  by_cases hq : q = f
  · rw [if_pos hq, hq, taken_self hc]
  · rw [if_neg hq, taken_of_ne hq, Int.neg_zero]

/-- The same for a page that is known to be mapped. -/
theorem Pmm.Ledger.undoPage (h : Ledger maxPfn usable m.pmm out ref) (hzero : usable 0 = false)
    (hv : Canonical va) (ha : va % PAGE_SIZE = 0) (hal : Alone m.mem r va)
    (hword : leaf m.mem r va = pte (pfnPhys f) flags) (hlt : f < 2 ^ 40)
    (hf : Tracked maxPfn m.pmm f → Allocated out f ∧ 1 < (m.pmm.pages f).refcount) :
    ∃ m' ref', m.uncommitPage r va = .ok m' ∧ Ledger maxPfn usable m'.pmm out ref'
      ∧ ∀ q, (m'.pmm.pages q).data
        = ((m.pmm.pages q).more (-taken maxPfn m [f] q)).data := by
  by_cases hpos : f = 0
  · -- a page at address 0 reads like none, and frame 0 is not counted
    have hnone : frameOf (leaf m.mem r va) = none := by
      rw [hword, hpos]
      unfold frameOf
      rw [pte_addr _ (pfnPhys_mod 0) (by decide)]
      simp [pfnPhys]
    obtain ⟨m', ref', hok, hl, hdata⟩ := h.dropPage hv ha hal fun g hg => by
      rw [hnone] at hg
      cases hg
    refine ⟨m', ref', hok, hl, fun q => (hdata q).trans ?_⟩
    have hno : taken maxPfn m [f] q = 0 := taken_untracked fun hq hc => by
      rw [List.mem_singleton.mp hq] at hc
      obtain ⟨⟨b, hb, hfb⟩, -⟩ := hf hc
      have hu := (h.mem_usable hb hfb).2
      rw [hpos, hzero] at hu
      cases hu
    have hlist : (none : Option Nat).toList = [] := rfl
    rw [hnone, hlist, taken_nil, hno]
  · have hsome : frameOf (leaf m.mem r va) = some f := by
      rw [hword]
      exact frameOf_pte flags hpos hlt
    have hdrop := h.dropPage hv ha hal fun g hg hc => by
      rw [hsome] at hg
      rw [← Option.some.inj hg] at hc ⊢
      exact hf hc
    rw [hsome] at hdrop
    exact hdrop

/-- `uncommit_range` on mapped pages: each frame loses the references that
it took, and the entries go. -/
theorem Pmm.Ledger.undoPages (h : Ledger maxPfn usable m.pmm out ref) (hzero : usable 0 = false)
    {l : List (Nat × Nat)} (hloop : LoopPages m r (l.map Prod.fst))
    (hdist : (l.map Prod.fst).Pairwise fun v w => v / PAGE_SIZE ≠ w / PAGE_SIZE)
    (hword : ∀ x ∈ l, leaf m.mem r x.1 = pte (pfnPhys x.2) flags) (hlt : ∀ x ∈ l, x.2 < 2 ^ 40)
    (hf : ∀ x ∈ l, Tracked maxPfn m.pmm x.2 → Allocated out x.2
      ∧ taken maxPfn m (l.map Prod.snd) x.2 < (m.pmm.pages x.2).refcount) :
    ∃ m' ref', (l.map Prod.fst).foldlM (Machine.uncommitPage r) m = .ok m'
      ∧ Ledger maxPfn usable m'.pmm out ref'
      ∧ ∀ q, (m'.pmm.pages q).data
        = ((m.pmm.pages q).more (-taken maxPfn m (l.map Prod.snd) q)).data := by
  induction l generalizing m ref with
  | nil =>
      refine ⟨m, ref, rfl, h, fun q => ?_⟩
      rw [List.map_nil, taken_nil, Int.neg_zero, Page.more_zero]
  | cons x l ih =>
      obtain ⟨hv, ha, hal⟩ := hloop x.1 List.mem_cons_self
      rw [List.map_cons] at hdist
      obtain ⟨hd, hdist'⟩ := List.pairwise_cons.mp hdist
      have hsum : ∀ q, taken maxPfn m ((x :: l).map Prod.snd) q
          = taken maxPfn m [x.2] q + taken maxPfn m (l.map Prod.snd) q := fun q => taken_cons _
      obtain ⟨m1, ref1, hok, hl, hdata⟩ := h.undoPage hzero hv ha hal (hword x List.mem_cons_self)
        (hlt x List.mem_cons_self) fun hc => by
          obtain ⟨hout, hmore⟩ := hf x List.mem_cons_self hc
          have hrest := taken_nonneg maxPfn m (l.map Prod.snd) x.2
          rw [hsum, taken_self hc] at hmore
          exact ⟨hout, by omega⟩
      have hw := uncommitPage_rewrites hv ha hal hok
      obtain ⟨m2, ref2, hrun, hl2, hdata2⟩ := ih hl (hloop.rest hw) hdist'
        (fun y hy => by
          rw [hloop.leaf_rest hw hd y.1 (List.mem_map_of_mem hy)]
          exact hword y (List.mem_cons_of_mem _ hy))
        (fun y hy => hlt y (List.mem_cons_of_mem _ hy))
        fun y hy hc => by
          obtain ⟨hout, hmore⟩ := hf y (List.mem_cons_of_mem _ hy)
            ((tracked_more (hdata y.2)).mp hc)
          have hcount : (m1.pmm.pages y.2).refcount
              = (m.pmm.pages y.2).refcount + -taken maxPfn m [x.2] y.2 :=
            (Page.data_eq_iff.mp (hdata y.2)).1
          rw [hsum] at hmore
          rw [taken_more (hdata y.2)]
          exact ⟨hout, by omega⟩
      refine ⟨m2, ref2, ?_, hl2, fun q => ?_⟩
      · rw [List.map_cons, List.foldlM_cons, hok]
        exact hrun
      · rw [hdata2 q, taken_more (hdata q), Page.more_data (hdata q), hsum]
        congr 2
        omega

/-- The undoing, seen from all roots. -/
theorem Stock.uncommitPages (h : Stock maxPfn usable R out ref m) (hzero : usable 0 = false)
    (hup : Above m R (Used maxPfn usable out)) (hr : R r) {l : List (Nat × Nat)}
    (hlow : LowerPages (l.map Prod.fst))
    (hdist : (l.map Prod.fst).Pairwise fun v w => v / PAGE_SIZE ≠ w / PAGE_SIZE)
    (hword : ∀ x ∈ l, leaf m.mem r x.1 = pte (pfnPhys x.2) flags) (hlt : ∀ x ∈ l, x.2 < 2 ^ 40)
    (hf : ∀ x ∈ l, Tracked maxPfn m.pmm x.2 → Allocated out x.2
      ∧ taken maxPfn m (l.map Prod.snd) x.2 < (m.pmm.pages x.2).refcount) :
    ∃ m' ref', (l.map Prod.fst).foldlM (Machine.uncommitPage r) m = .ok m'
      ∧ Lent maxPfn usable R out (fun q => -taken maxPfn m (l.map Prod.snd) q) [] ref' m m'
      ∧ (∀ u, u < 2 ^ 47 → Pages (l.map Prod.fst) (u / PAGE_SIZE) → leaf m'.mem r u = 0)
      ∧ ∀ t u, R t → u < 2 ^ 47 → (t = r → ¬ Pages (l.map Prod.fst) (u / PAGE_SIZE)) →
        leaf m'.mem t u = leaf m.mem t u := by
  have hloop : LoopPages m r (l.map Prod.fst) := fun va hva =>
    ⟨Or.inl (hlow va hva).1, (hlow va hva).2, alone_of_apart h.forest hr (hlow va hva).1
      fun p f hne hp hw => hup.apart r p f hr hne hp hw⟩
  obtain ⟨m', ref', hok, hl, hdata⟩ := h.ledger.undoPages hzero hloop hdist hword hlt hf
  have hw := uncommitPages_rewrites hloop hok
  obtain ⟨hwalk, hframed, hothers⟩ := hw.framed (T := Used maxPfn usable out) h.forest hr
    fun n hn => by
      obtain ⟨va, hva, rfl⟩ := hn
      exact page_lower (hlow va hva).1
  have htable : ∀ f, Table m' R f → Table m R f := fun f => (SameTables.table hwalk f).mp
  refine ⟨m', ref', hok, ⟨⟨hl, ⟨fun ht ht' hq hq' hwq hwq' => ?_⟩, fun f hf => h.held f (htable f hf)⟩,
    fun b hb => (by cases hb), fun q _ => hdata q, fun t q g ht hq hwq => ?_, hframed⟩,
    fun u hu hn => hw.inside u (Or.inl hu) hn, fun t u ht hu hn => ?_⟩
  · rw [hwalk _ _ ht hq] at hwq
    rw [hwalk _ _ ht' hq'] at hwq'
    exact h.forest.sep ht ht' hq hq' hwq hwq'
  · rw [hwalk t q ht hq]
    exact hwq
  · by_cases htr : t = r
    · rw [htr]
      exact hw.outside u (Or.inl hu) (hn htr)
    · exact hothers t u ht htr hu

end Alix
