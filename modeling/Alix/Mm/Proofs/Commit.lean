/-
`commit_anon` and its undoing.

The loop takes a frame, clears it and maps it, page by page, and stops at
the first page without a frame or without a table. `Committed` says what
it leaves, wherever it stops: a frame of its own for each page so far,
which holds zeros and has one reference, new tables, and everything else
as before. `uncommit_range` over the whole range then drops exactly these
frames, because nothing else was mapped there (`Stock.rollback`), so a
commit that fails leaves nothing but tables.
-/
import Alix.Mm.Proofs.Stock
import Alix.Mm.Proofs.Rounding

namespace Alix

open Paging
open Radix
open Dyadic (Block)
open Pmm (Ledger Usable Allocated)

variable {maxPfn : Nat} {usable : Nat → Bool} {out : List Block} {ref ref' : Nat → Nat}
  {R : Nat → Prop} {m m' : Mach} {r va : Nat} {flags : Word} {vas : List Nat}

-- ==== the invariant

/-- What `commit_anon` leaves: `F` says which frame a page got, `datas`
are these frames and `tabs` the new tables. -/
structure Committed (maxPfn : Nat) (usable : Nat → Bool) (R : Nat → Prop) (r : Nat)
    (flags : Word) (out : List Block) (refs : Nat → Nat) (vas : List Nat) (F : Nat → Option Nat)
    (tabs datas : List Block) (refs' : Nat → Nat) (m m' : Mach) : Prop where
  stock : Stock maxPfn usable R (tabs ++ (datas ++ out)) refs' m'
  tables : ∀ b ∈ tabs, b.order = 0 ∧ Table m' R b.base
  frames : ∀ b, b ∈ datas ↔ b.order = 0 ∧ ∃ n, F n = some b.base
  one : ∀ b ∈ datas, refs' b.base = 1
  inj : ∀ n n' p, F n = some p → F n' = some p → n = n'
  dom : ∀ n p, F n = some p → Pages vas n
  zero : ∀ n p, F n = some p → ∀ j, m'.mem p j = 0
  apart : ∀ n p, F n = some p → ¬ Table m' R p
  ref : ∀ b ∈ out, refs' b.base = refs b.base
  data : ∀ q, Used maxPfn usable out q → (m'.pmm.pages q).data = (m.pmm.pages q).data
  walks : ∀ t q g, R t → Lower q → walk (child m.mem) t q = some g →
    walk (child m'.mem) t q = some g
  framed : Framed m m' R (Used maxPfn usable out)
  entry : ∀ n p, F n = some p → ∀ u, u < 2 ^ 47 → u / PAGE_SIZE = n →
    leaf m'.mem r u = pte (pfnPhys p) flags
  other : ∀ t u, R t → u < 2 ^ 47 → (t = r → F (u / PAGE_SIZE) = none) →
    leaf m'.mem t u = leaf m.mem t u

/-- Only tables were taken. -/
theorem Grown.committed {tabs : List Block} (hs : Stock maxPfn usable R (tabs ++ out) ref' m')
    (h : Grown maxPfn usable R out ref tabs ref' m m')
    (hleaf : ∀ t u, R t → u < 2 ^ 47 → leaf m'.mem t u = leaf m.mem t u) :
    Committed maxPfn usable R r flags out ref vas (fun _ => none) tabs [] ref' m m' := by
  refine ⟨hs, h.tabs, fun b => ?_, fun b hb => (by cases hb), fun n n' p hn => (by cases hn),
    fun n p hn => (by cases hn), fun n p hn => (by cases hn), fun n p hn => (by cases hn), h.ref,
    h.data, h.walks, h.framed,
    fun n p hn => (by cases hn), fun t u ht hu _ => hleaf t u ht hu⟩
  constructor
  · intro hb
    cases hb
  · intro hb
    obtain ⟨-, n, hn⟩ := hb
    cases hn

/-- Where no page got a frame, the list of pages does not matter. -/
theorem Committed.more {tabs datas : List Block}
    (h : Committed maxPfn usable R r flags out ref vas (fun _ => none) tabs datas ref' m m')
    (vas' : List Nat) :
    Committed maxPfn usable R r flags out ref vas' (fun _ => none) tabs datas ref' m m' :=
  { h with dom := fun n p hn => (by cases hn) }

/-- First the pages of `F`, then those of `F'`. -/
theorem Committed.trans {m'' : Mach} {ref'' : Nat → Nat} {vas' : List Nat}
    {F F' : Nat → Option Nat} {tabs datas tabs' datas' : List Block}
    (h : Committed maxPfn usable R r flags out ref vas F tabs datas ref' m m')
    (h' : Committed maxPfn usable R r flags (tabs ++ (datas ++ out)) ref' vas' F' tabs' datas'
      ref'' m' m'')
    (hr : R r) (hapart : ∀ n, F n ≠ none → F' n = none) :
    Committed maxPfn usable R r flags out ref (vas ++ vas') (fun n => (F n).or (F' n))
      (tabs' ++ tabs) (datas' ++ datas) ref'' m m'' := by
  have hor : ∀ {n p}, (F n).or (F' n) = some p → F n = some p ∨ F' n = some p := fun hn =>
    (Option.or_eq_some_iff.mp hn).imp_right And.right
  have hleft : ∀ {n p}, F n = some p → (F n).or (F' n) = some p := fun hn => by
    rw [hn]
    rfl
  have hright : ∀ {n p}, F' n = some p → (F n).or (F' n) = some p := fun {n p} hn => by
    cases hF : F n with
    | none => exact hn
    | some x =>
        have hno := hapart n (by rw [hF]; exact Option.some_ne_none x)
        rw [hn] at hno
        cases hno
  have hdata : ∀ {n p}, F n = some p → (⟨p, 0⟩ : Block) ∈ tabs ++ (datas ++ out) := fun hn =>
    List.mem_append_right _ (List.mem_append_left _ ((h.frames _).mpr ⟨rfl, _, hn⟩))
  have hused : ∀ {n p}, F n = some p → Used maxPfn usable (tabs ++ (datas ++ out)) p := fun hn =>
    Or.inr ⟨_, hdata hn, Block.base_mem ⟨_, 0⟩⟩
  have hmem : ∀ b ∈ out, b ∈ tabs ++ (datas ++ out) := fun b hb =>
    List.mem_append_right _ (List.mem_append_right _ hb)
  -- the two lots of frames have nothing in common
  have hnew : ∀ {n n' p}, F n = some p → F' n' ≠ some p := fun hn hn' => by
    have hnodup := h'.stock.ledger.nodup.of_append_right
    exact List.disjoint_of_nodup_append hnodup ((h'.frames _).mpr ⟨rfl, _, hn'⟩) (hdata hn)
  have hnone : ∀ {n}, (F n).or (F' n) = none → F n = none ∧ F' n = none := fun hn =>
    Option.or_eq_none_iff.mp hn
  refine ⟨h'.stock.perm ?_, fun b hb => ?_, fun b => ?_, fun b hb => ?_, fun n n' p hn hn' => ?_,
    fun n p hn => ?_, fun n p hn j => ?_, fun n p hn => ?_, fun b hb => ?_, fun q hq => ?_,
    fun t q g ht hq hw => h'.walks t q g ht hq (h.walks t q g ht hq hw),
    h.framed.trans h'.framed fun f hf => hf.mono hmem, fun n p hn u hlt hpage => ?_,
    fun t u ht hlt hn => ?_⟩
  · rw [List.append_assoc, List.append_assoc]
    refine List.Perm.append_left tabs' ?_
    rw [← List.append_assoc datas' tabs, ← List.append_assoc tabs datas']
    exact List.perm_append_comm.append_right (datas ++ out)
  · rcases List.mem_append.mp hb with hb | hb
    · exact h'.tables b hb
    · obtain ⟨hord, t, q, ht, hq, hw⟩ := h.tables b hb
      exact ⟨hord, t, q, ht, hq, h'.walks t q _ ht hq hw⟩
  · rw [List.mem_append, h.frames, h'.frames]
    constructor
    · intro hb
      rcases hb with ⟨hord, n, hn⟩ | ⟨hord, n, hn⟩
      · exact ⟨hord, n, hright hn⟩
      · exact ⟨hord, n, hleft hn⟩
    · intro hb
      obtain ⟨hord, n, hn⟩ := hb
      exact (hor hn).symm.imp (fun hn => ⟨hord, n, hn⟩) fun hn => ⟨hord, n, hn⟩
  · rcases List.mem_append.mp hb with hb | hb
    · exact h'.one b hb
    · rw [h'.ref b (List.mem_append_right _ (List.mem_append_left _ hb))]
      exact h.one b hb
  · rcases hor hn with h1 | h1
    · rcases hor hn' with h2 | h2
      · exact h.inj n n' p h1 h2
      · exact (hnew h1 h2).elim
    · rcases hor hn' with h2 | h2
      · exact (hnew h2 h1).elim
      · exact h'.inj n n' p h1 h2
  · rcases hor hn with hn | hn
    · obtain ⟨va, hva, hpage⟩ := h.dom n p hn
      exact ⟨va, List.mem_append_left _ hva, hpage⟩
    · obtain ⟨va, hva, hpage⟩ := h'.dom n p hn
      exact ⟨va, List.mem_append_right _ hva, hpage⟩
  · rcases hor hn with hn | hn
    · rw [h'.framed.frame p j (hused hn) fun hs => h.apart n p hn hs.table]
      exact h.zero n p hn j
    · exact h'.zero n p hn j
  · rcases hor hn with hn | hn
    · exact fun ht => h.apart n p hn (h'.framed.slot p 0 (hused hn) ht.slot).table
    · exact h'.apart n p hn
  · rw [h'.ref b (hmem b hb)]
    exact h.ref b hb
  · rw [h'.data q (hq.mono hmem)]
    exact h.data q hq
  · rcases hor hn with hn | hn
    · have hno := hapart n (by rw [hn]; exact Option.some_ne_none p)
      rw [h'.other r u hr hlt fun _ => by rw [hpage]; exact hno]
      exact h.entry n p hn u hlt hpage
    · exact h'.entry n p hn u hlt hpage
  · rw [h'.other t u ht hlt fun e => (hnone (hn e)).2]
    exact h.other t u ht hlt fun e => (hnone (hn e)).1

/-- A map with one entry. -/
theorem single_eq_some {k n p x : Nat} :
    Function.update (fun _ : Nat => (none : Option Nat)) k (some p) n = some x
      ↔ n = k ∧ x = p := by
  by_cases hn : n = k
  · rw [hn, Function.update_self, Option.some.injEq]
    simp [eq_comm]
  · rw [Function.update_of_ne hn]
    simp [hn]

/-- A frame that was not mapped goes back. -/
theorem Stock.giveBack {p : Nat} {tabs : List Block}
    (h : Stock maxPfn usable R (tabs ++ ⟨p, 0⟩ :: out) ref m) (hone : ref p = 1)
    (hnew : (⟨p, 0⟩ : Block) ∉ tabs ++ out) (hnotab : ¬ Table m R p) :
    ∃ pmm ref', m.free p = .ok { m with pmm }
      ∧ Stock maxPfn usable R (tabs ++ out) ref' { m with pmm }
      ∧ (∀ b ∈ out, ref' b.base = ref b.base)
      ∧ ∀ q, Used maxPfn usable out q → (pmm.pages q).data = (m.pmm.pages q).data := by
  have hp : (⟨p, 0⟩ : Block) ∈ tabs ++ ⟨p, 0⟩ :: out :=
    List.mem_append_right _ List.mem_cons_self
  have hmem : ∀ b ∈ out, b ∈ tabs ++ ⟨p, 0⟩ :: out := fun b hb =>
    List.mem_append_right _ (List.mem_cons_of_mem _ hb)
  have hne : ∀ b ∈ out, b ≠ ⟨p, 0⟩ := fun b hb e => hnew (List.mem_append_right _ (e ▸ hb))
  obtain ⟨pmm, hok, hl, hdata⟩ := h.ledger.drop hp
  rw [if_pos hone, List.erase_append_right _ fun hb => hnew (List.mem_append_left _ hb),
    List.erase_cons_head] at hl
  refine ⟨pmm, _, ?_, ⟨hl, h.forest, fun x hx => ?_⟩, fun b hb => ?_, fun q hq => ?_⟩
  · unfold Machine.free
    rw [hok]
  · have hx : Table m R x := hx
    rcases h.held x hx with hno | ⟨b, hb, hxb⟩
    · exact Or.inl hno
    · rcases List.mem_append.mp hb with hb | hb
      · exact Or.inr ⟨b, List.mem_append_left _ hb, hxb⟩
      rcases List.mem_cons.mp hb with rfl | hb
      · -- the frame itself is no table
        have hxp : x = p := by
          rw [Block.mem_def] at hxb
          simp at hxb
          omega
        rw [hxp] at hx
        exact (hnotab hx).elim
      · exact Or.inr ⟨b, List.mem_append_right _ hb, hxb⟩
  · exact Function.update_of_ne (fun e => hne b hb (h.ledger.head_inj (hmem b hb) hp e)) _ _
  · rcases hq with hno | ⟨b, hb, hqb⟩
    · exact h.ledger.drop_outside hp hok hno
    · exact hdata b (hmem b hb) (hne b hb) q hqb

section commit

variable (hmax : maxPfn < 2 ^ 40) (hzero : usable 0 = false)

include hmax hzero

/-- A frame is taken, cleared and mapped: a commit of one page, or of none. -/
theorem Stock.commitPage (h : Stock maxPfn usable R out ref m) (hr : R r) (hv : va < 2 ^ 47)
    (ha : va % PAGE_SIZE = 0) {pmm : Pmm} {p : Nat}
    (hal : m.pmm.pmmAllocPage = some (pmm, p)) {m1 : Mach} {rc : Int}
    (hmap : pagingMapPage Pmm.pmmAllocPage (Machine.clear { m with pmm } p) (some r) va
      (pfnPhys p) flags = (m1, rc)) :
    (rc = 0 ∧ Paid r 1 (tablePaths va) m m1 ∧ ∃ tabs ref',
        Committed maxPfn usable R r flags out ref [va]
          (Function.update (fun _ => none) (va / PAGE_SIZE) (some p)) tabs [⟨p, 0⟩] ref' m m1)
    ∨ (rc = -1 ∧ Short r 1 (tablePaths va) m ∧ ∃ m2 tabs ref', m1.free p = .ok m2
        ∧ Committed maxPfn usable R r flags out ref [va] (fun _ => none) tabs [] ref' m m2) := by
  obtain ⟨hl, hu, hfresh, hne, hdata⟩ := h.ledger.alloc_fresh hal
  -- the frame is cleared, and no table sees it
  generalize hclear : Machine.clear { m with pmm } p = mc at hmap
  have hmem : ∀ x, x ≠ p → mc.mem x = m.mem x := fun x hx => by
    rw [← hclear]
    exact clear_mem_ne _ hx
  have hpmm : mc.pmm = pmm := by
    rw [← hclear]
    rfl
  have hold : ∀ x, Used maxPfn usable out x → mc.mem x = m.mem x := fun x hx =>
    hmem x fun e => hfresh (by rw [← e]; exact hx)
  obtain ⟨hforest, hheld, hgrow⟩ := h.inv.off hold
  have hwalk := fun {t q} => h.inv.walk_off hold (r := t) (p := q)
  have hsc : Stock maxPfn usable R (⟨p, 0⟩ :: out) (Function.update ref p 1) mc :=
    ⟨by rw [hpmm]; exact hl, hforest, fun x hx =>
      (hheld x hx).mono fun _ hb => List.mem_cons_of_mem _ hb⟩
  have hpz : ∀ j, mc.mem p j = 0 := fun j => by
    rw [← hclear]
    simp [Machine.clear]
  obtain ⟨tabs, ref1, s1, g1, hcases⟩ := hsc.mapPage hmax hzero hr hv ha (pfnPhys_mod p) hmap
  have href : ∀ b ∈ out, ref1 b.base = ref b.base := fun b hb => by
    rw [g1.ref b (List.mem_cons_of_mem _ hb), Function.update_of_ne (hne b hb)]
  have hrefp : ref1 p = 1 := by
    rw [g1.ref ⟨p, 0⟩ List.mem_cons_self]
    exact Function.update_self _ _ _
  have hdata1 : ∀ q, Used maxPfn usable out q →
      (m1.pmm.pages q).data = (m.pmm.pages q).data := fun q hq => by
    rw [g1.data q (hq.mono fun _ hb => List.mem_cons_of_mem _ hb), hpmm]
    exact hdata q hq
  have hwalks : ∀ t q g, R t → Lower q → walk (child m.mem) t q = some g →
      walk (child m1.mem) t q = some g := fun t q g ht hq hw =>
    g1.walks t q g ht hq (by rw [hwalk ht hq]; exact hw)
  have hframed : Framed m m1 R (Used maxPfn usable out) :=
    hgrow.toFramed.trans g1.framed fun f hf => hf.mono fun _ hb => List.mem_cons_of_mem _ hb
  have hleafc : ∀ t u, R t → u < 2 ^ 47 → leaf mc.mem t u = leaf m.mem t u := hgrow.leaf
  -- the frame is in use by now, but no table
  have hused : Used maxPfn usable (⟨p, 0⟩ :: out) p :=
    Or.inr ⟨⟨p, 0⟩, List.mem_cons_self, Block.base_mem ⟨p, 0⟩⟩
  have hnotab : ¬ Table m1 R p := fun ht =>
    hfresh (hheld p (g1.framed.slot p 0 hused ht.slot).table)
  have hpaid : Paid r 1 [] m mc := by
    refine ⟨?_, fun q hq => ?_⟩
    · rw [hpmm]
      exact h.ledger.freeFrames_take hl hfresh
    · rw [hwalk hr hq]
      exact ⟨fun e => ⟨e, List.not_mem_nil⟩, And.left⟩
  have hlow := lower_tablePaths hv
  obtain ⟨rfl, hleaf, paid⟩ | ⟨rfl, hleaf, short⟩ := hcases
  · refine Or.inl ⟨rfl, hpaid.trans paid hlow, tabs, ref1, s1, g1.tabs, fun b => ?_, fun b hb => ?_,
      fun n n' x hn hn' => ?_, fun n x hn => ?_, fun n x hn j => ?_, fun n x hn => ?_, href,
      hdata1, hwalks, hframed, fun n x hn u hlt hpage => ?_, fun t u ht hlt hnone => ?_⟩
    · rw [List.mem_singleton]
      constructor
      · rintro rfl
        exact ⟨rfl, va / PAGE_SIZE, Function.update_self _ _ _⟩
      · intro hb
        obtain ⟨hord, n, hn⟩ := hb
        obtain ⟨-, hbase⟩ := single_eq_some.mp hn
        cases b
        cases hbase
        cases hord
        rfl
    · rw [List.mem_singleton.mp hb]
      exact hrefp
    · rw [(single_eq_some.mp hn).1, (single_eq_some.mp hn').1]
    · exact ⟨va, List.mem_cons_self, (single_eq_some.mp hn).1.symm⟩
    · obtain ⟨-, rfl⟩ := single_eq_some.mp hn
      rw [g1.framed.frame x j hused fun hs => hfresh (hheld x hs.table)]
      exact hpz j
    · obtain ⟨-, rfl⟩ := single_eq_some.mp hn
      exact hnotab
    · obtain ⟨hnv, rfl⟩ := single_eq_some.mp hn
      rw [hleaf r u hr hlt, if_pos ⟨rfl, hpage.trans hnv⟩]
    · rw [hleaf t u ht hlt, if_neg, hleafc t u ht hlt]
      intro e
      have := hnone e.1
      rw [e.2, Function.update_self] at this
      cases this
  · -- no table: the frame goes back
    have hnew : (⟨p, 0⟩ : Block) ∉ tabs ++ out := fun hb =>
      (List.mem_append.mp hb).elim (fun hb => hnotab (g1.tabs _ hb).2) fun hb => hne _ hb rfl
    obtain ⟨pmm2, ref2, hfree, hstock, href2, hdata2⟩ := s1.giveBack hrefp hnew hnotab
    refine Or.inr ⟨rfl, hpaid.short short hlow, _, tabs, _, hfree,
      Grown.committed hstock ⟨g1.tabs, fun b hb => (href2 b hb).trans (href b hb),
        fun q hq => (hdata2 q hq).trans (hdata1 q hq), hwalks, ⟨hframed.frame, hframed.slot⟩⟩
        fun t u ht hlt => ?_⟩
    show leaf m1.mem t u = _
    rw [hleaf t u ht hlt, hleafc t u ht hlt]

variable (flags) in
/-- The loop of `commit_anon`. -/
theorem Stock.commitPages (h : Stock maxPfn usable R out ref m) (hr : R r)
    (hvas : ∀ va ∈ vas, va < 2 ^ 47 ∧ va % PAGE_SIZE = 0)
    (hdist : vas.Pairwise fun v w => v / PAGE_SIZE ≠ w / PAGE_SIZE) :
    ∃ m' rc F tabs datas ref', Machine.commitPages r flags vas m = .ok (m', rc)
      ∧ Committed maxPfn usable R r flags out ref vas F tabs datas ref' m m'
      ∧ ((rc = 0 ∧ (∀ n, Pages vas n → F n ≠ none)
          ∧ Paid r vas.length (vas.flatMap tablePaths) m m')
        ∨ (rc = -1 ∧ Short r vas.length (vas.flatMap tablePaths) m)) := by
  induction vas generalizing m out ref with
  | nil =>
      refine ⟨m, 0, _, [], [], ref, rfl, (Grown.refl R out ref m).committed h fun _ _ _ _ => rfl,
        Or.inl ⟨rfl, fun n hn => (pages_nil hn).elim, rfl, fun q _ => ?_⟩⟩
      exact ⟨fun e => ⟨e, List.not_mem_nil⟩, And.left⟩
  | cons va vas ih =>
      obtain ⟨hlt, ha⟩ := hvas va List.mem_cons_self
      obtain ⟨hd, hdist'⟩ := List.pairwise_cons.mp hdist
      unfold Machine.commitPages
      cases hal : m.pmm.pmmAllocPage with
      | none =>
          refine ⟨m, -1, _, [], [], ref, rfl, (Grown.refl R out ref m).committed h
            fun _ _ _ _ => rfl, Or.inr ⟨rfl, ?_⟩⟩
          unfold Short
          rw [Pmm.freeFrames_none hal, Set.ncard_empty, List.length_cons]
          omega
      | some x =>
          obtain ⟨pmm, p⟩ := x
          simp only
          cases hmap : pagingMapPage Pmm.pmmAllocPage (Machine.clear { m with pmm } p) (some r)
            va (pfnPhys p) flags with
          | mk m1 rc =>
          have hlow : ∀ q ∈ vas.flatMap tablePaths, Lower q := fun q hq => by
            obtain ⟨w, hw, hq⟩ := List.mem_flatMap.mp hq
            exact lower_tablePaths (hvas w (List.mem_cons_of_mem _ hw)).1 q hq
          rw [List.length_cons, Nat.add_comm vas.length, List.flatMap_cons]
          obtain ⟨rfl, paid1, tabs, ref1, h1⟩ | ⟨rfl, short1, m2, tabs, ref2, hfree, h2⟩ :=
            h.commitPage hmax hzero hr hlt ha hal hmap
          · simp only [ne_eq, not_true_eq_false, if_false]
            obtain ⟨m', rc, F, tabs', datas, ref', hrun, h', hend⟩ := ih h1.stock
              (fun w hw => hvas w (List.mem_cons_of_mem _ hw)) hdist'
            refine ⟨m', rc, _, _, _, ref', hrun, h1.trans h' hr fun n hn => ?_, ?_⟩
            · -- the page of `va` is not in the rest
              by_cases hnv : n = va / PAGE_SIZE
              · cases hF : F n with
                | none => rfl
                | some x =>
                    obtain ⟨w, hw, hpage⟩ := h'.dom n x hF
                    exact (hd w hw (hnv.symm.trans hpage.symm)).elim
              · exact (hn (Function.update_of_ne hnv _ _)).elim
            · obtain ⟨rfl, hall, paid⟩ | ⟨rfl, short⟩ := hend
              · refine Or.inl ⟨rfl, fun n hn => ?_, paid1.trans paid hlow⟩
                rw [Option.or_eq_none_iff]
                intro hno
                rcases pages_cons.mp hn with hpage | hpage
                · rw [← hpage, Function.update_self] at hno
                  cases hno.1
                · exact hall n hpage hno.2
              · exact Or.inr ⟨rfl, paid1.short short hlow⟩
          · simp only [ne_eq, not_false_eq_true, if_true, hfree, neg_eq_zero, one_ne_zero]
            exact ⟨m2, -1, fun _ => none, tabs, [], ref2, rfl, h2.more (va :: vas),
              Or.inr ⟨rfl, short1.append _ _⟩⟩

end commit

end Alix
