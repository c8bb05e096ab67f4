/-
The root of a clone in the making.

`vas_clone` fills a new root while the old ones stay in use, and when it
fails it takes everything down again. What happens to the new root is its
own affair: its tables are blocks that nobody else has, each with one
reference, and only its tables are written. `Twin` says so, and `Aside` is
all that anyone else can see of a step: the references of their frames.

# The steps

- `Twin.create`: a root with an empty lower half.
- `Twin.mapPage`: frames become tables, and an entry is written or not.
- `Twin.uncommitPage`: an entry goes, and the frame behind it loses the
  reference that it was given for it.
- `Twin.destroy`: the tables go back to the allocator.
- `Twin.heapRun`: the heap works in between.

`Inv` is used twice for one call of `paging_map_page`: once with the tables
alone as the frames held, so that every table afterwards is one of the
blocks, and once with the frames of the others among them, so that these
are not written.
-/
import Alix.Mm.Proofs.Lend

namespace Alix

open Paging
open Radix
open Dyadic (Block)
open Pmm (Ledger Usable Allocated)

variable {maxPfn : Nat} {usable : Nat → Bool} {heap tabs rest : List Block}
  {ref ref' : Nat → Nat} {U : Nat → Prop} {m m' : Mach} {g va f q : Nat} {flags : Word}

-- ==== the invariant

/-- The blocks of the heap and of the tables, with one reference each, next
to those of the others. -/
structure Parted (maxPfn : Nat) (usable : Nat → Bool) (heap tabs rest : List Block)
    (ref : Nat → Nat) (pmm : Pmm) : Prop where
  ledger : Ledger maxPfn usable pmm (heap ++ (tabs ++ rest)) ref
  single : ∀ b ∈ heap, ref b.base = 1
  once : ∀ b ∈ tabs, b.order = 0 ∧ ref b.base = 1

/-- The tables of the root `g` are the blocks `tabs`, and its upper half
leads to the frames `U` of others. -/
structure Twin (maxPfn : Nat) (usable : Nat → Bool) (heap tabs rest : List Block)
    (ref : Nat → Nat) (U : Nat → Prop) (g : Nat) (m : Mach) : Prop where
  parted : Parted maxPfn usable heap tabs rest ref m.pmm
  forest : Forest (child m.mem) (Sole g) Lower
  own : ∀ f, Table m (Sole g) f → ⟨f, 0⟩ ∈ tabs
  upper : ∀ p f, p ≠ [] → Vm.Upper p → walk (child m.mem) g p = some f → U f
  side : ∀ f, U f → Used maxPfn usable rest f

/-- Of the frames in use no word changes, and their counts move by `n`. -/
structure Aside (maxPfn : Nat) (usable : Nat → Bool) (rest : List Block) (n : Nat → Int)
    (m m' : Mach) : Prop where
  words : ∀ f, Used maxPfn usable rest f → m'.mem f = m.mem f
  pages : ∀ f, Used maxPfn usable rest f →
    (m'.pmm.pages f).data = ((m.pmm.pages f).more (n f)).data

theorem Aside.same (hwords : ∀ f, Used maxPfn usable rest f → m'.mem f = m.mem f)
    (hpages : ∀ f, Used maxPfn usable rest f →
      (m'.pmm.pages f).data = (m.pmm.pages f).data) :
    Aside maxPfn usable rest (fun _ => 0) m m' :=
  ⟨hwords, fun f hf => by rw [Page.more_zero, hpages f hf]⟩

namespace Parted

variable {pmm pmm' : Pmm}

/-- The blocks of the heap and of the tables are nobody else's. -/
theorem apart (h : Parted maxPfn usable heap tabs rest ref pmm) {b : Block}
    (hb : b ∈ heap ++ tabs) (hq : q ∈ b) : ¬ Used maxPfn usable rest q := by
  have hl := h.ledger
  rw [← List.append_assoc] at hl
  have hout : b ∈ (heap ++ tabs) ++ rest := List.mem_append_left _ hb
  intro hu
  rcases hu with hno | ⟨c, hc, hqc⟩
  · exact hno (hl.mem_usable hout hq)
  · have hne : b ≠ c := (List.nodup_append.mp hl.nodup).2.2 b hb c hc
    exact hl.apart hout (List.mem_append_right _ hc) hne hq hqc

theorem table_apart (h : Parted maxPfn usable heap tabs rest ref pmm)
    (hf : (⟨f, 0⟩ : Block) ∈ tabs) : ¬ Used maxPfn usable rest f :=
  h.apart (List.mem_append_right _ hf) (Block.base_mem ⟨f, 0⟩)

theorem allocated (hf : Allocated rest f) : Allocated (heap ++ (tabs ++ rest)) f := by
  obtain ⟨b, hb, hfb⟩ := hf
  exact ⟨b, List.mem_append_right _ (List.mem_append_right _ hb), hfb⟩

/-- The allocator changes descriptors, but no count of these blocks. -/
theorem recount (h : Parted maxPfn usable heap tabs rest ref pmm)
    (hl : Ledger maxPfn usable pmm' (heap ++ (tabs ++ rest)) ref')
    (hcount : ∀ b ∈ heap ++ tabs,
      (pmm'.pages b.base).refcount = (pmm.pages b.base).refcount) :
    Parted maxPfn usable heap tabs rest ref' pmm' := by
  have hsame : ∀ b ∈ heap ++ tabs, ref' b.base = ref b.base := by
    intro b hb
    have hin : b ∈ heap ++ (tabs ++ rest) := by
      rw [← List.append_assoc]
      exact List.mem_append_left _ hb
    have hold := (h.ledger.head b hin).2.2.1
    have hnew := (hl.head b hin).2.2.1
    rw [hcount b hb, hold] at hnew
    exact (Int.ofNat_inj.mp hnew).symm
  refine ⟨hl, fun b hb => ?_, fun b hb => ⟨(h.once b hb).1, ?_⟩⟩
  · rw [hsame b (List.mem_append_left _ hb)]
    exact h.single b hb
  · rw [hsame b (List.mem_append_right _ hb)]
    exact (h.once b hb).2

/-- A frame becomes a table. -/
theorem take (h : Parted maxPfn usable heap tabs rest ref pmm)
    (ha : pmm.pmmAllocPage = some (pmm', f)) :
    Parted maxPfn usable heap (⟨f, 0⟩ :: tabs) rest (Function.update ref f 1) pmm'
      ∧ Usable maxPfn usable f ∧ ¬ Used maxPfn usable rest f ∧ ⟨f, 0⟩ ∉ tabs
      ∧ ∀ q, Used maxPfn usable rest q → (pmm'.pages q).data = (pmm.pages q).data := by
  obtain ⟨hl, hu, hfresh, hne, hdata⟩ := h.ledger.alloc_fresh ha
  have hmono : ∀ q, Used maxPfn usable rest q →
      Used maxPfn usable (heap ++ (tabs ++ rest)) q := fun q hq =>
    (hq.append tabs).append heap
  have htab : ∀ b ∈ tabs, b.base ≠ f := fun b hb =>
    hne b (List.mem_append_right _ (List.mem_append_left _ hb))
  refine ⟨⟨hl.perm List.perm_middle.symm, fun b hb => ?_, fun b hb => ?_⟩, hu,
    fun hused => hfresh (hmono f hused), fun hin => htab _ hin rfl,
    fun q hq => hdata q (hmono q hq)⟩
  · rw [Function.update_of_ne (hne b (List.mem_append_left _ hb))]
    exact h.single b hb
  · rcases List.mem_cons.mp hb with rfl | hb
    · exact ⟨rfl, Function.update_self _ _ _⟩
    · rw [Function.update_of_ne (htab b hb)]
      exact h.once b hb

/-- The heap works in between. -/
theorem heapRun {s s' : Vm} (h : Parted maxPfn usable s.heap tabs rest ref s.mach.pmm)
    (hr : Vm.HeapRun s s') :
    ∃ ref', Parted maxPfn usable s'.heap tabs rest ref' s'.mach.pmm
      ∧ Aside maxPfn usable rest (fun _ => 0) s.mach s'.mach := by
  have hholds : Vm.Holds maxPfn usable s (tabs ++ rest) ref := ⟨h.ledger, h.single⟩
  obtain ⟨hmem, ref', hholds', hspare⟩ := hr.ledger hholds
  refine ⟨ref', ⟨hholds'.ledger, hholds'.single, fun b hb => ⟨(h.once b hb).1, ?_⟩⟩,
    Aside.same (fun f _ => by rw [hmem]) fun q hq => ?_⟩
  · rw [hspare.ref b (List.mem_append_left _ hb)]
    exact (h.once b hb).2
  · rcases hq with hno | ⟨b, hb, hqb⟩
    · exact hr.outside hholds hno
    · exact hspare.data b (List.mem_append_right _ hb) q hqb

end Parted

/-- The frames `T` are the blocks of the tables and the frames of `K`, and
the others' descriptors are `d`. -/
def Owns (maxPfn : Nat) (usable : Nat → Bool) (heap rest : List Block)
    (d : Nat → Int × Nat × BitVec 64 × Nat) (K : Nat → Prop) (pmm : Pmm) (T : Nat → Prop) : Prop :=
  ∃ tabs ref, Parted maxPfn usable heap tabs rest ref pmm
    ∧ (∀ f, T f ↔ ⟨f, 0⟩ ∈ tabs ∨ K f)
    ∧ ∀ q, Used maxPfn usable rest q → (pmm.pages q).data = d q

theorem owns_supplies {d : Nat → Int × Nat × BitVec 64 × Nat} {K : Nat → Prop}
    (hmax : maxPfn < 2 ^ 40) (hK : ∀ f, K f → Used maxPfn usable rest f) :
    Supplies Pmm.pmmAllocPage (Owns maxPfn usable heap rest d K) := by
  refine ⟨fun {pmm pmm' T f} hT ha => ?_⟩
  obtain ⟨tabs, ref, hs, hiff, hd⟩ := hT
  obtain ⟨hs', hu, hfresh, hnew, hdata⟩ := hs.take ha
  have hlt : f < maxPfn + 1 := hu.1
  refine ⟨fun hf => ?_, by omega, _, _, hs', fun q => ?_, fun q hq => (hdata q hq).trans (hd q hq)⟩
  · rcases (hiff f).mp hf with hin | hk
    · exact hnew hin
    · exact hfresh (hK f hk)
  · show q = f ∨ T q ↔ _
    rw [hiff, List.mem_cons, Block.mk.injEq]
    tauto

-- ==== the steps

namespace Twin

theorem inv (h : Twin maxPfn usable heap tabs rest ref U g m) (K : Nat → Prop) :
    Inv (Owns maxPfn usable heap rest (fun q => (m.pmm.pages q).data) K) m (Sole g)
      (fun f => ⟨f, 0⟩ ∈ tabs ∨ K f) :=
  ⟨h.forest, fun f hf => Or.inl (h.own f hf), tabs, ref, h.parted, fun _ => Iff.rfl,
    fun _ _ => rfl⟩

theorem above (h : Twin maxPfn usable heap tabs rest ref U g m) {T : Nat → Prop}
    (hT : ∀ f, U f → T f) : Above m (Sole g) T := by
  refine ⟨fun t p f ht hne hp hw => ?_, fun t p f ht hne hp hw htable => ?_⟩
  · obtain rfl := ht.resolve_right id
    exact hT f (h.upper p f hne hp hw)
  · obtain rfl := ht.resolve_right id
    exact h.parted.table_apart (h.own f htable) (h.side f (h.upper p f hne hp hw))

theorem alone (h : Twin maxPfn usable heap tabs rest ref U g m) (hv : va < 2 ^ 47) :
    Alone m.mem g va :=
  alone_of_apart h.forest (Or.inl rfl) hv fun p f hne hp hw =>
    (h.above fun _ hf => hf).apart g p f (Or.inl rfl) hne hp hw

/-- The upper half after a step. -/
theorem upper_framed (h : Twin maxPfn usable heap tabs rest ref U g m) {T : Nat → Prop}
    (hframed : Framed m m' (Sole g) T) (htabs : ∀ f, ⟨f, 0⟩ ∈ tabs → T f)
    (hT : ∀ f, U f → T f) (p : List Nat) (f : Nat) (hne : p ≠ []) (hp : Vm.Upper p)
    (hw : walk (child m'.mem) g p = some f) : U f := by
  rw [hframed.upper_walk h.forest (fun f hf => htabs f (h.own f hf)) (h.above hT) (Or.inl rfl) hp]
    at hw
  exact h.upper p f hne hp hw

/-- What only tables of the root can be written of. -/
theorem words (h : Twin maxPfn usable heap tabs rest ref U g m)
    (hframed : Framed m m' (Sole g) (fun f => ⟨f, 0⟩ ∈ tabs ∨ Used maxPfn usable rest f))
    (hf : Used maxPfn usable rest f) : m'.mem f = m.mem f := by
  funext j
  exact hframed.frame f j (Or.inr hf) fun hs => h.parted.table_apart (h.own f hs.table) hf

/-- Others work in between: they write neither its tables nor the words of
its upper half. -/
theorem off (h : Twin maxPfn usable heap tabs rest ref U g m) {heap' : List Block}
    (hs : Parted maxPfn usable heap' tabs rest ref' m'.pmm)
    (hmem : ∀ f, ⟨f, 0⟩ ∈ tabs ∨ U f → m'.mem f = m.mem f) :
    Twin maxPfn usable heap' tabs rest ref' U g m'
      ∧ ∀ u, u < 2 ^ 47 → leaf m'.mem g u = leaf m.mem g u := by
  have hinv : Inv (fun _ _ => True) m (Sole g) (fun f => ⟨f, 0⟩ ∈ tabs ∨ U f) :=
    ⟨h.forest, fun f hf => Or.inl (h.own f hf), trivial⟩
  obtain ⟨hforest, -, hgrows⟩ := hinv.off hmem
  refine ⟨⟨hs, hforest, fun f hf => ?_,
    h.upper_framed hgrows.toFramed (fun _ hf => Or.inl hf) (fun _ hf => Or.inr hf), h.side⟩,
    fun u hu => hgrows.leaf g u (Or.inl rfl) hu⟩
  obtain ⟨t, p, ht, hp, hw⟩ := hf
  exact h.own f ⟨t, p, ht, hp, by rw [← hinv.walk_off hmem ht hp]; exact hw⟩

/-- `paging_map_page`. -/
theorem mapPage (h : Twin maxPfn usable heap tabs rest ref U g m) (hmax : maxPfn < 2 ^ 40)
    (hv : va < 2 ^ 47) {phys : Nat} {rc : Int}
    (hm : pagingMapPage Pmm.pmmAllocPage m (some g) va phys flags = (m', rc)) :
    ∃ tabs' ref', Twin maxPfn usable heap tabs' rest ref' U g m'
      ∧ Aside maxPfn usable rest (fun _ => 0) m m'
      ∧ ((rc = 0 ∧ ∀ u, u < 2 ^ 47 → leaf m'.mem g u
            = if u / PAGE_SIZE = va / PAGE_SIZE then pte phys flags else leaf m.mem g u)
        ∨ (rc = -1 ∧ ∀ u, u < 2 ^ 47 → leaf m'.mem g u = leaf m.mem g u)) := by
  obtain ⟨T, -, ⟨hforest, hheld, tabs', ref', hs, hT, hd⟩, -, hcases⟩ :=
    (h.inv fun _ => False).map_page (owns_supplies hmax fun _ hf => hf.elim) (Or.inl rfl) hv hm
  obtain ⟨-, -, -, hframed, -⟩ := (h.inv (Used maxPfn usable rest)).map_page
    (owns_supplies hmax fun _ hf => hf) (Or.inl rfl) hv hm
  refine ⟨tabs', ref', ⟨hs, hforest, fun f hf => ((hT f).mp (hheld f hf)).resolve_right id,
    h.upper_framed hframed (fun _ hf => Or.inl hf) (fun f hf => Or.inr (h.side f hf)), h.side⟩,
    Aside.same (fun f hf => h.words hframed hf) hd, ?_⟩
  refine hcases.imp (fun hdone => ⟨hdone.1, fun u hu => ?_⟩)
    fun hdone => ⟨hdone.1, fun u hu => hdone.2 g u (Or.inl rfl) hu⟩
  rw [hdone.2 g u (Or.inl rfl) hu]
  exact if_congr (and_iff_right rfl) rfl rfl

/-- One round of `uncommit_range`. -/
theorem uncommitPage (h : Twin maxPfn usable heap tabs rest ref U g m) (hv : va < 2 ^ 47)
    (ha : va % PAGE_SIZE = 0)
    (hf : ∀ f, frameOf (leaf m.mem g va) = some f → Used maxPfn usable rest f
      ∧ (Tracked maxPfn m.pmm f → Allocated rest f ∧ 1 < (m.pmm.pages f).refcount)) :
    ∃ m' ref', m.uncommitPage g va = .ok m'
      ∧ Twin maxPfn usable heap tabs rest ref' U g m'
      ∧ Aside maxPfn usable rest
        (fun q => -taken maxPfn m (frameOf (leaf m.mem g va)).toList q) m m'
      ∧ ∀ u, u < 2 ^ 47 → leaf m'.mem g u
        = if u / PAGE_SIZE = va / PAGE_SIZE then 0 else leaf m.mem g u := by
  have hal := h.alone hv
  obtain ⟨m', ref', hok, hl, hdata⟩ := h.parted.ledger.dropPage (Or.inl hv) ha hal fun f he hc =>
    ((hf f he).2 hc).imp_left Parted.allocated
  have hw := uncommitPage_rewrites (Or.inl hv) ha hal hok
  have hpage : ∀ n, n = va / PAGE_SIZE → n < 2 ^ 35 := by
    rintro n rfl
    exact page_lower hv
  obtain ⟨hwalk, hframed, -⟩ := hw.framed
    (T := fun f => ⟨f, 0⟩ ∈ tabs ∨ Used maxPfn usable rest f) h.forest (Or.inl rfl) hpage
  refine ⟨m', ref', hok, ⟨h.parted.recount hl fun b hb => ?_, ⟨fun ht ht' hq hq' hwq hwq' => ?_⟩,
    fun f hft => ?_,
    h.upper_framed hframed (fun _ hf => Or.inl hf) (fun f hf => Or.inr (h.side f hf)), h.side⟩,
    ⟨fun f hu => h.words hframed hu, fun f _ => hdata f⟩, fun u hu => ?_⟩
  · -- the frame of the page is not one of these blocks
    have hno : taken maxPfn m (frameOf (leaf m.mem g va)).toList b.base = 0 :=
      taken_untracked fun hq _ =>
        h.parted.apart hb (Block.base_mem b) (hf _ (Option.mem_toList.mp hq)).1
    rw [(Page.data_eq_iff.mp (hdata b.base)).1, hno]
    exact Int.add_zero _
  · rw [hwalk _ _ ht hq] at hwq
    rw [hwalk _ _ ht' hq'] at hwq'
    exact h.forest.sep ht ht' hq hq' hwq hwq'
  · obtain ⟨t, p, ht, hp, hwp⟩ := hft
    exact h.own f ⟨t, p, ht, hp, by rw [← hwalk t p ht hp]; exact hwp⟩
  · by_cases hin : u / PAGE_SIZE = va / PAGE_SIZE
    · rw [if_pos hin]
      exact hw.inside u (Or.inl hu) hin
    · rw [if_neg hin]
      exact hw.outside u (Or.inl hu) hin

/-- `ptable_destroy`: its tables go, whether it maps pages or not. -/
theorem destroy (h : Twin maxPfn usable heap tabs rest ref U g m) :
    ∃ pmm tabs' ref', m.ptableDestroy g = .ok { m with pmm }
      ∧ Parted maxPfn usable heap tabs' rest ref' pmm
      ∧ Aside maxPfn usable rest (fun _ => 0) m { m with pmm } := by
  obtain ⟨hnd, hwalk⟩ := Machine.tables_walk h.forest (Or.inl rfl)
  have hswap : (heap ++ (tabs ++ rest)).Perm ((heap ++ rest) ++ tabs) := by
    rw [List.append_assoc]
    exact List.Perm.append_left heap List.perm_append_comm
  have hin : ∀ f ∈ Machine.tables m.mem g, ⟨f, 0⟩ ∈ tabs ∧ ref f = 1 := by
    intro f hf
    obtain ⟨p, hp, hw⟩ := hwalk f hf
    have htab := h.own f ⟨g, p, Or.inl rfl, hp, hw⟩
    exact ⟨htab, (h.parted.once _ htab).2⟩
  obtain ⟨pmm, tabs', ref', hfree, -, hl, htabs, href, hdata, hout⟩ :=
    freeFrames (h.parted.ledger.perm hswap) hnd hin
  have hback : ((heap ++ rest) ++ tabs').Perm (heap ++ (tabs' ++ rest)) := by
    rw [List.append_assoc]
    exact List.Perm.append_left heap List.perm_append_comm
  have hkept : ∀ b ∈ heap ++ tabs', ref' b.base = ref b.base := by
    intro b hb
    refine href b.base fun hc => ?_
    rcases List.mem_append.mp hb with hb | hb
    · have hne := (List.nodup_append.mp h.parted.ledger.nodup).2.2 b hb ⟨b.base, 0⟩
        (List.mem_append_left _ (hin _ hc).1)
      exact hne (h.parted.ledger.head_inj (List.mem_append_left _ hb)
        (List.mem_append_right _ (List.mem_append_left _ (hin _ hc).1)) rfl)
    · obtain ⟨hold, hnot⟩ := (htabs b).mp hb
      exact hnot ⟨(h.parted.once b hold).1, hc⟩
  refine ⟨pmm, tabs', ref', ?_, ⟨hl.perm hback, fun b hb => ?_, fun b hb => ?_⟩,
    Aside.same (fun _ _ => rfl) fun q hq => ?_⟩
  · rw [Machine.ptableDestroy_eq, hfree]
  · rw [hkept b (List.mem_append_left _ hb)]
    exact h.parted.single b hb
  · rw [hkept b (List.mem_append_right _ hb)]
    exact h.parted.once b ((htabs b).mp hb).1
  · rcases hq with hno | ⟨b, hb, hqb⟩
    · exact hout q hno
    · exact hdata b (List.mem_append_right _ hb) q hqb

/-- The heap works in between. -/
theorem heapRun {s s' : Vm} (h : Twin maxPfn usable s.heap tabs rest ref U g s.mach)
    (hr : Vm.HeapRun s s') :
    ∃ ref', Twin maxPfn usable s'.heap tabs rest ref' U g s'.mach
      ∧ Aside maxPfn usable rest (fun _ => 0) s.mach s'.mach := by
  obtain ⟨ref', hs, haside⟩ := h.parted.heapRun hr
  exact ⟨ref', (h.off hs fun f _ => by rw [hr.mem]).1, haside⟩

end Twin

/-- `ptable_create`: there is no frame, or one becomes a root. -/
theorem Parted.create (h : Parted maxPfn usable heap [] rest ref m.pmm)
    (hmax : maxPfn < 2 ^ 40) (hzero : usable 0 = false) {kernel o : Option Nat}
    (hside : ∀ f, U f → Used maxPfn usable rest f)
    (hk : ∀ k, kernel = some k → Used maxPfn usable rest k ∧ ∀ p f, p ≠ [] → Vm.Upper p →
      walk (child m.mem) k p = some f → U f)
    (hc : ptableCreate Pmm.pmmAllocPage m kernel = (m', o)) :
    (o = none ∧ m' = m)
    ∨ ∃ g ref', o = some g ∧ Twin maxPfn usable heap [⟨g, 0⟩] rest ref' U g m'
        ∧ Aside maxPfn usable rest (fun _ => 0) m m' ∧ ∀ u, u < 2 ^ 47 → leaf m'.mem g u = 0 := by
  obtain ⟨ho, -, hm⟩ | ⟨pmm, -, ha, -⟩ | ⟨pmm, g, -, ha, hroot⟩ := ptableCreate_cases hc
  · exact Or.inl ⟨ho, hm⟩
  · -- frame 0 is never handed out
    have := (h.take ha).2.1.2
    rw [hzero] at this
    cases this
  obtain ⟨hs, hu, hfresh, -, hdata⟩ := h.take ha
  have hlt : g < maxPfn + 1 := hu.1
  obtain ⟨ho, hpmm, hmem⟩ := hroot (by omega) fun k hkernel e => hfresh (e ▸ (hk k hkernel).1)
  have hold : ∀ f, Used maxPfn usable rest f → m'.mem f = m.mem f := by
    intro f hf
    have hne : f ≠ g := fun e => hfresh (e ▸ hf)
    funext j
    rw [hmem f j, if_neg hne]
  have hempty : ∀ i, i < 256 → child m'.mem g i = none := by
    intro i hi
    have hlow : ¬ (256 ≤ i ∧ i < 512) := by omega
    refine child_zero ?_
    rw [hmem, if_pos rfl, if_neg hlow]
  have hnil : ∀ p f, Lower p → walk (child m'.mem) g p = some f → p = [] ∧ f = g := by
    intro p f hp hw
    cases p with
    | nil => exact ⟨rfl, (Option.some.inj hw).symm⟩
    | cons i p =>
        rw [walk_cons, hempty i (hp.2 i rfl)] at hw
        cases hw
  refine Or.inr ⟨g, _, ho, ⟨by rw [hpmm]; exact hs, ⟨fun ht ht' hp hp' hw hw' => ?_⟩,
    fun f hf => ?_, fun p f hne hp hw => ?_, hside⟩, Aside.same hold fun q hq => ?_,
    fun u hu => leaf_of_empty hempty hu⟩
  · obtain rfl := ht.resolve_right id
    obtain rfl := ht'.resolve_right id
    exact ⟨rfl, (hnil _ _ hp hw).1.trans (hnil _ _ hp' hw').1.symm⟩
  · obtain ⟨t, p, ht, hp, hw⟩ := hf
    obtain rfl := ht.resolve_right id
    rw [(hnil p f hp hw).2]
    exact List.mem_cons_self
  · -- an upper walk is one of the kernel's
    cases p with
    | nil => exact (hne rfl).elim
    | cons i p =>
        have hi : Vm.Upper [i] := by
          refine ⟨by simp, hp.2.1, fun j hj => hp.2.2 j ?_⟩
          rw [List.mem_singleton.mp hj]
          exact List.mem_cons_self
        have hword : m'.mem g i = kernelEntry m kernel i := by
          rw [hmem g i, if_pos rfl, if_pos ⟨hp.2.1 i rfl, hp.2.2 i List.mem_cons_self⟩]
        cases kernel with
        | none =>
            rw [walk_cons, child_zero hword] at hw
            cases hw
        | some k =>
            obtain ⟨-, hupper⟩ := hk k rfl
            have hchild : child m'.mem g i = child m.mem k i := child_congr hword
            refine hupper (i :: p) f hne hp ?_
            rw [walk_cons, hchild] at hw
            rw [walk_cons]
            cases hx : child m.mem k i with
            | none =>
                rw [hx] at hw
                cases hw
            | some x =>
                rw [hx, Option.bind_some] at hw
                rw [Option.bind_some, ← hw]
                refine (walk_congr (Vm.upper_owned hi) (fun q j y hq hy => ?_) hp).symm
                have hused := hupper (i :: q) y (List.cons_ne_nil _ _)
                  ((Vm.upper_owned hi).init q j hq) (by rw [walk_cons, hx]; exact hy)
                exact child_congr (congrFun (hold y (hside y hused)) j)
  · rw [hpmm]
    exact hdata q hq

end Alix
