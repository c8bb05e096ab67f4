/-
Page tables over an allocator with blocks of others.

`Stock` asks little: the tables below the roots are a forest, and none of
them is a free frame. It says nothing of the frames that are mapped, which
may be the allocator's or not. `paging_map_page` takes frames for tables
as it needs them, and `Grown` is what that does to everyone else: the
blocks that were out keep their references and their descriptors, walks
that led somewhere still lead there, and of the frames in use only slots
of tables are written. The new blocks are tables, each of them linked.

It fails for want of frames and for no other reason: `Paid` counts what a
step took, one frame for each table that was missing, and `Short` says
that there were not so many.
-/
import Alix.Mm.Proofs.Tidy

namespace Alix

open Paging
open Radix
open Dyadic (Block)
open Pmm (Ledger Usable Allocated)

variable {maxPfn : Nat} {usable : Nat → Bool} {out : List Block} {ref ref' : Nat → Nat}
  {R : Nat → Prop} {m m' m'' : Mach} {r va f p : Nat} {flags : Word}

-- ==== the invariant

/-- The frames that are not free: the allocator does not manage them, or
has handed them out. -/
def Used (maxPfn : Nat) (usable : Nat → Bool) (out : List Block) (f : Nat) : Prop :=
  ¬ Usable maxPfn usable f ∨ Allocated out f

/-- The ledger, and tables that are in use. -/
structure Stock (maxPfn : Nat) (usable : Nat → Bool) (R : Nat → Prop) (out : List Block)
    (ref : Nat → Nat) (m : Mach) : Prop where
  ledger : Ledger maxPfn usable m.pmm out ref
  forest : Forest (child m.mem) R Lower
  held : ∀ f, Table m R f → Used maxPfn usable out f

/-- The tables have grown by the blocks `tabs`. -/
structure Grown (maxPfn : Nat) (usable : Nat → Bool) (R : Nat → Prop) (out : List Block)
    (ref : Nat → Nat) (tabs : List Block) (ref' : Nat → Nat) (m m' : Mach) : Prop where
  tabs : ∀ b ∈ tabs, b.order = 0 ∧ Table m' R b.base
  ref : ∀ b ∈ out, ref' b.base = ref b.base
  data : ∀ q, Used maxPfn usable out q → (m'.pmm.pages q).data = (m.pmm.pages q).data
  walks : ∀ t q g, R t → Lower q → walk (child m.mem) t q = some g →
    walk (child m'.mem) t q = some g
  framed : Framed m m' R (Used maxPfn usable out)

theorem Table.slot (h : Table m R f) : Slot m.mem R f 0 := by
  obtain ⟨t, q, ht, hq, hw⟩ := h
  exact ⟨t, q, ht, hq, fun _ => by decide, hw⟩

theorem Used.mono {out' : List Block} (h : Used maxPfn usable out f)
    (hsub : ∀ b ∈ out, b ∈ out') : Used maxPfn usable out' f :=
  h.imp_right fun ⟨b, hb, hf⟩ => ⟨b, hsub b hb, hf⟩

theorem Used.append (h : Used maxPfn usable out f) (tabs : List Block) :
    Used maxPfn usable (tabs ++ out) f :=
  h.mono fun _ => List.mem_append_right tabs

namespace Grown

variable {tabs tabs' : List Block} {ref'' : Nat → Nat}

theorem refl (R : Nat → Prop) (out : List Block) (ref : Nat → Nat) (m : Mach) :
    Grown maxPfn usable R out ref [] ref m m :=
  ⟨fun b hb => (by cases hb), fun _ _ => rfl, fun _ _ => rfl, fun _ _ _ _ _ hw => hw,
    (Grows.refl m R _).toFramed⟩

theorem table (h : Grown maxPfn usable R out ref tabs ref' m m') (hf : Table m R f) :
    Table m' R f := by
  obtain ⟨t, q, ht, hq, hw⟩ := hf
  exact ⟨t, q, ht, hq, h.walks t q f ht hq hw⟩

theorem trans (h : Grown maxPfn usable R out ref tabs ref' m m')
    (h' : Grown maxPfn usable R (tabs ++ out) ref' tabs' ref'' m' m'') :
    Grown maxPfn usable R out ref (tabs' ++ tabs) ref'' m m'' := by
  refine ⟨fun b hb => ?_, fun b hb => ?_, fun q hq => ?_, fun t q g ht hq hw => ?_, ?_⟩
  · rcases List.mem_append.mp hb with hb | hb
    · exact h'.tabs b hb
    · exact ⟨(h.tabs b hb).1, h'.table (h.tabs b hb).2⟩
  · exact (h'.ref b (List.mem_append_right _ hb)).trans (h.ref b hb)
  · exact (h'.data q (hq.append tabs)).trans (h.data q hq)
  · exact h'.walks t q g ht hq (h.walks t q g ht hq hw)
  · exact h.framed.trans h'.framed fun f hf => hf.append tabs

end Grown

-- ==== the frames

theorem Pmm.Ledger.freeFrames_eq {m : Pmm} (h : Ledger maxPfn usable m out ref) :
    freeFrames m = {q | Usable maxPfn usable q ∧ ¬ Allocated out q} :=
  Set.ext fun q => h.free_iff q

theorem Pmm.Ledger.freeFrames_finite {m : Pmm} (h : Ledger maxPfn usable m out ref) :
    (freeFrames m).Finite := by
  rw [h.freeFrames_eq]
  exact (Set.finite_lt_nat (maxPfn + 1)).subset fun q hq => hq.1.1

/-- A frame is handed out. -/
theorem Pmm.Ledger.freeFrames_take {m m' : Pmm} (h : Ledger maxPfn usable m out ref)
    {p : Nat} (hl : Ledger maxPfn usable m' (⟨p, 0⟩ :: out) ref')
    (hp : ¬ Used maxPfn usable out p) :
    (freeFrames m).ncard = (freeFrames m').ncard + 1 := by
  have hmem : p ∈ freeFrames m := by
    rw [h.freeFrames_eq]
    exact ⟨hl.mem_usable List.mem_cons_self (Block.base_mem ⟨p, 0⟩), fun ha => hp (Or.inr ha)⟩
  have hone : ∀ q, q ∈ (⟨p, 0⟩ : Block) ↔ q = p := by
    intro q
    rw [Block.mem_def]
    show (p ≤ q ∧ q < p + 1) ↔ q = p
    omega
  have hdiff : freeFrames m' = freeFrames m \ {p} := by
    rw [h.freeFrames_eq, hl.freeFrames_eq]
    ext q
    have hcons : Allocated (⟨p, 0⟩ :: out) q ↔ q = p ∨ Allocated out q := by
      unfold Allocated
      rw [← hone]
      simp only [List.mem_cons, exists_eq_or_imp]
    show (_ ∧ ¬ Allocated (⟨p, 0⟩ :: out) q) ↔ (_ ∧ ¬ Allocated out q) ∧ q ≠ p
    rw [hcons]
    tauto
  rw [hdiff, Set.ncard_sdiff_singleton_add_one hmem h.freeFrames_finite]

/-- A frame that `pmm_alloc_page` hands out was free. -/
theorem Pmm.Ledger.alloc_fresh {m pmm : Pmm} (h : Ledger maxPfn usable m out ref)
    (ha : m.pmmAllocPage = some (pmm, p)) :
    Ledger maxPfn usable pmm (⟨p, 0⟩ :: out) (Function.update ref p 1)
      ∧ Usable maxPfn usable p ∧ ¬ Used maxPfn usable out p
      ∧ (∀ b ∈ out, b.base ≠ p)
      ∧ ∀ q, Used maxPfn usable out q → (pmm.pages q).data = (m.pages q).data := by
  obtain ⟨hl, hnew, hdata⟩ := h.alloc ha
  have hpb : p ∈ (⟨p, 0⟩ : Block) := Block.base_mem ⟨p, 0⟩
  have hu := hl.mem_usable List.mem_cons_self hpb
  refine ⟨hl, hu, fun hused => ?_, fun b hb e => ?_, fun q hq => ?_⟩
  · rcases hused with hno | ⟨b, hb, hpin⟩
    · exact hno hu
    · exact hnew p hpb b hb hpin
  · exact hnew p hpb b hb (by rw [← e]; exact Block.base_mem b)
  · rcases hq with hno | ⟨b, hb, hqb⟩
    · exact h.alloc_outside ha hno
    · exact hdata b hb q hqb

/-- `pmm_alloc_page` fails when there is no frame. -/
theorem Pmm.freeFrames_none {m : Pmm} (h : m.pmmAllocPage = none) : freeFrames m = ∅ := by
  refine Set.eq_empty_of_forall_notMem fun q hq => ?_
  obtain ⟨b, ⟨hord, hreach⟩, -⟩ := hq
  have hhead := allocFrom_none PMM_MAX_ORDER 0 h b.order (Nat.zero_le _) (by omega)
  have hnone : ∀ x, ¬ Dll.Reached m.links (m.freeLists b.order).head x := by
    intro x hx
    induction hx with
    | head he =>
        rw [hhead] at he
        cases he
    | next _ _ ih => exact ih
  exact hnone b.base hreach

-- ==== what it costs

/-- The paths of the tables that a page needs. -/
def tablePaths (va : Nat) : List (List Nat) :=
  [[pml4Index va], [pml4Index va, pdptIndex va], tablePath va]

/-- How many of the tables at these paths are missing. -/
def gaps (m : Mach) (r : Nat) (ps : List (List Nat)) : Nat :=
  (ps.toFinset.filter fun q => walk (child m.mem) r q = none).card

/-- The step took `n` frames and one for each missing table, which is
there now. -/
structure Paid (r n : Nat) (ps : List (List Nat)) (m m' : Mach) : Prop where
  cost : (Pmm.freeFrames m.pmm).ncard = (Pmm.freeFrames m'.pmm).ncard + (n + gaps m r ps)
  walks : ∀ q, Lower q →
    (walk (child m'.mem) r q = none ↔ walk (child m.mem) r q = none ∧ q ∉ ps)

/-- There are not so many frames. -/
def Short (r n : Nat) (ps : List (List Nat)) (m : Mach) : Prop :=
  (Pmm.freeFrames m.pmm).ncard < n + gaps m r ps

section cost

variable {n n' : Nat} {ps ps' : List (List Nat)}

theorem lower_tablePaths (hv : va < 2 ^ 47) : ∀ q ∈ tablePaths va, Lower q := by
  have hp3 : Lower ([pml4Index va, pdptIndex va] ++ [pdIndex va]) := lower_tablePath hv
  have hp2 : Lower ([pml4Index va] ++ [pdptIndex va]) := lower_owned.init _ _ hp3
  have hp1 : Lower [pml4Index va] := lower_owned.init _ _ hp2
  intro q hq
  unfold tablePaths at hq
  rcases List.mem_cons.mp hq with rfl | hq
  · exact hp1
  rcases List.mem_cons.mp hq with rfl | hq
  · exact hp2
  rw [List.mem_singleton.mp hq]
  exact hp3

/-- What is there by now is not missing any more. -/
theorem Paid.gaps (h : Paid r n ps m m') (hps : ∀ q ∈ ps', Lower q) :
    gaps m r (ps ++ ps') = gaps m r ps + gaps m' r ps' := by
  have hsplit : ((ps ++ ps').toFinset.filter fun q => walk (child m.mem) r q = none)
      = (ps.toFinset.filter fun q => walk (child m.mem) r q = none)
        ∪ (ps'.toFinset.filter fun q => walk (child m'.mem) r q = none) := by
    ext q
    simp only [Finset.mem_union, Finset.mem_filter, List.mem_toFinset, List.mem_append]
    constructor
    · intro hq
      by_cases hin : q ∈ ps
      · exact Or.inl ⟨hin, hq.2⟩
      · have hq' := hq.1.resolve_left hin
        exact Or.inr ⟨hq', (h.walks q (hps q hq')).mpr ⟨hq.2, hin⟩⟩
    · intro hq
      rcases hq with hq | hq
      · exact ⟨Or.inl hq.1, hq.2⟩
      · exact ⟨Or.inr hq.1, ((h.walks q (hps q hq.1)).mp hq.2).1⟩
  have hapart : Disjoint (ps.toFinset.filter fun q => walk (child m.mem) r q = none)
      (ps'.toFinset.filter fun q => walk (child m'.mem) r q = none) := by
    refine Finset.disjoint_left.mpr fun q hq hq' => ?_
    simp only [Finset.mem_filter, List.mem_toFinset] at hq hq'
    exact ((h.walks q (hps q hq'.1)).mp hq'.2).2 hq.1
  unfold Alix.gaps
  rw [hsplit, Finset.card_union_of_disjoint hapart]

theorem Paid.trans (h : Paid r n ps m m') (h' : Paid r n' ps' m' m'')
    (hps : ∀ q ∈ ps', Lower q) : Paid r (n + n') (ps ++ ps') m m'' := by
  refine ⟨?_, fun q hq => ?_⟩
  · rw [h.gaps hps, h.cost, h'.cost]
    omega
  · rw [h'.walks q hq, h.walks q hq, List.mem_append, not_or, and_assoc]

/-- The frames run out later. -/
theorem Paid.short (h : Paid r n ps m m') (h' : Short r n' ps' m')
    (hps : ∀ q ∈ ps', Lower q) : Short r (n + n') (ps ++ ps') m := by
  have hcost := h.cost
  unfold Short at h' ⊢
  rw [h.gaps hps]
  omega

theorem gaps_mono (m : Mach) (r : Nat) (h : ∀ q ∈ ps, q ∈ ps') : gaps m r ps ≤ gaps m r ps' := by
  refine Finset.card_le_card (Finset.filter_subset_filter _ fun q hq => ?_)
  rw [List.mem_toFinset] at hq ⊢
  exact h q hq

/-- What is too much at first is too much in all. -/
theorem Short.append (h : Short r n ps m) (n' : Nat) (ps' : List (List Nat)) :
    Short r (n + n') (ps ++ ps') m := by
  have hle := gaps_mono m r fun q (hq : q ∈ ps) => List.mem_append_left ps' hq
  unfold Short at h ⊢
  omega

end cost

namespace Stock

/-- The parts that speak of the memory. -/
theorem inv (h : Stock maxPfn usable R out ref m) :
    Inv (fun _ _ => True) m R (Used maxPfn usable out) :=
  ⟨h.forest, h.held, trivial⟩

theorem perm (h : Stock maxPfn usable R out ref m) {out' : List Block}
    (hp : out.Perm out') : Stock maxPfn usable R out' ref m :=
  ⟨h.ledger.perm hp, h.forest, fun f hf => (h.held f hf).mono fun _ hb => hp.mem_iff.mp hb⟩

-- ==== the tables

section grow

variable (hmax : maxPfn < 2 ^ 40) (hzero : usable 0 = false)

include hmax hzero

/-- `next_table` with `create`. -/
theorem nextTable (h : Stock maxPfn usable R out ref m) {i : Nat} {q : List Nat}
    {o : Option Nat} (hr : R r) (hq : Lower (q ++ [i]))
    (hw : walk (child m.mem) r q = some f)
    (hn : Paging.nextTable Pmm.pmmAllocPage m f i flags true = (m', o)) :
    ∃ tabs ref', Stock maxPfn usable R (tabs ++ out) ref' m'
      ∧ Grown maxPfn usable R out ref tabs ref' m m'
      ∧ (∀ t u, R t → u < 2 ^ 47 → leaf m'.mem t u = leaf m.mem t u)
      ∧ ((∃ g, o = some g ∧ walk (child m'.mem) r (q ++ [i]) = some g
          ∧ Paid r 0 [q ++ [i]] m m')
        ∨ o = none ∧ Short r 0 [q ++ [i]] m) := by
  have hone : walk (child m.mem) r (q ++ [i]) = none → gaps m r [q ++ [i]] = 1 := fun hnone => by
    unfold gaps
    rw [List.toFinset_cons, List.toFinset_nil, Finset.filter_insert, if_pos hnone,
      Finset.filter_empty]
    rfl
  obtain ⟨ho, hne, rfl⟩ | ⟨hempty, rfl, rfl, ha⟩ | ⟨pmm, ha, -, rfl, rfl⟩ |
    ⟨pmm, g, ha, hempty, rfl, hm⟩ := nextTable_cases hn
  · obtain ⟨g, hg⟩ := Option.ne_none_iff_exists'.mp hne
    have hthere : walk (child m'.mem) r (q ++ [i]) = some g := by
      rw [walk_snoc_of hw, ← ho, hg]
    have hgaps : gaps m' r [q ++ [i]] = 0 := by
      unfold gaps
      rw [List.toFinset_cons, List.toFinset_nil, Finset.filter_insert, if_neg, Finset.filter_empty]
      · rfl
      · rw [hthere]
        exact Option.some_ne_none g
    refine ⟨[], ref, h, Grown.refl _ _ _ _, fun _ _ _ _ => rfl,
      Or.inl ⟨g, hg, hthere, ⟨by rw [hgaps]; rfl, fun p _ => ?_⟩⟩⟩
    refine ⟨fun hp => ⟨hp, fun hin => ?_⟩, And.left⟩
    rw [List.mem_singleton.mp hin, hthere] at hp
    cases hp
  · refine ⟨[], ref, h, Grown.refl _ _ _ _, fun _ _ _ _ => rfl, Or.inr ⟨rfl, ?_⟩⟩
    unfold Short
    rw [Pmm.freeFrames_none ha, Set.ncard_empty, hone (by rw [walk_snoc_of hw, hempty])]
    decide
  · -- frame 0 is never handed out
    have := (h.ledger.alloc_fresh ha).2.1.2
    rw [hzero] at this
    cases this
  · obtain ⟨hl, hu, hfresh, hne, hdata⟩ := h.ledger.alloc_fresh ha
    have hlt : g < 2 ^ 40 := by
      have := hu.1
      omega
    have hfg : f ≠ g := by
      rintro rfl
      exact hfresh (h.held _ ⟨r, q, hr, lower_owned.init q i hq, hw⟩)
    obtain ⟨hmem, hnew, hclear⟩ :=
      link_mem hfg (tableEntry_present _ flags) (tableVirt_tableEntry hlt flags) hm
    obtain ⟨hinv, hgrow, hpath⟩ := h.inv.link hr hq hw hempty hfresh
      (tableEntry_present _ flags) (tableVirt_tableEntry hlt flags) (m := pmm) trivial hm
    have hwalk := fun {t p} => h.forest.walk_link lower_owned hr hq hw hempty
      (fun ht => hfresh (h.held g ht)) hnew (fun j => child_zero (hclear j))
      (fun x j hx hxj => child_congr (hmem x j hx hxj)) (t := t) (p := p)
    have hpmm : m'.pmm = pmm := by
      rw [hm]
      rfl
    refine ⟨[⟨g, 0⟩], Function.update ref g 1, ⟨?_, hinv.forest, fun x hx => ?_⟩,
      ⟨fun b hb => ?_, fun b hb => ?_, fun q hq => ?_, fun t q x ht hq hwx => ?_,
        hgrow.toFramed⟩, hgrow.leaf, Or.inl ⟨_, rfl, ?_, ?_, fun p hp => ?_⟩⟩
    · rw [hpmm]
      exact hl
    · rcases hinv.held x hx with rfl | hx
      · exact Or.inr ⟨⟨x, 0⟩, List.mem_cons_self, Block.base_mem ⟨x, 0⟩⟩
      · exact hx.append [⟨g, 0⟩]
    · rw [List.mem_singleton.mp hb]
      exact ⟨rfl, r, q ++ [i], hr, hq, hpath⟩
    · exact Function.update_of_ne (hne b hb) _ _
    · rw [hpmm]
      exact hdata q hq
    · rw [hwalk ht hq, if_neg]
      · exact hwx
      · intro e
        rw [e.1, e.2, walk_snoc_of hw, hempty] at hwx
        cases hwx
    · rw [tableVirt_ofNat hlt]
      exact hpath
    · rw [hone (by rw [walk_snoc_of hw, hempty]), hpmm]
      exact h.ledger.freeFrames_take hl hfresh
    · rw [hwalk hr hp, List.mem_singleton]
      by_cases he : p = q ++ [i]
      · rw [if_pos ⟨rfl, he⟩]
        exact ⟨fun e => (by cases e), fun e => (e.2 he).elim⟩
      · rw [if_neg fun e => he e.2]
        exact ⟨fun e => ⟨e, he⟩, And.left⟩

/-- `lookup_pt` with `create`. -/
theorem lookupPt (h : Stock maxPfn usable R out ref m) {o : Option Nat} (hr : R r)
    (hv : va < 2 ^ 47) (hl : Paging.lookupPt Pmm.pmmAllocPage m r va true flags = (m', o)) :
    ∃ tabs ref', Stock maxPfn usable R (tabs ++ out) ref' m'
      ∧ Grown maxPfn usable R out ref tabs ref' m m'
      ∧ (∀ t u, R t → u < 2 ^ 47 → leaf m'.mem t u = leaf m.mem t u)
      ∧ ((∃ pt, o = some pt ∧ walk (child m'.mem) r (tablePath va) = some pt
          ∧ Paid r 0 (tablePaths va) m m')
        ∨ o = none ∧ Short r 0 (tablePaths va) m) := by
  have hp3 : Lower ([pml4Index va, pdptIndex va] ++ [pdIndex va]) := lower_tablePath hv
  have hp2 : Lower ([pml4Index va] ++ [pdptIndex va]) := lower_owned.init _ _ hp3
  have hp1 : Lower ([] ++ [pml4Index va]) := lower_owned.init _ _ hp2
  have hlow2 : ∀ p ∈ [[pml4Index va] ++ [pdptIndex va]], Lower p := fun p hp => by
    rw [List.mem_singleton.mp hp]
    exact hp2
  have hlow3 : ∀ p ∈ [[pml4Index va, pdptIndex va] ++ [pdIndex va]], Lower p := fun p hp => by
    rw [List.mem_singleton.mp hp]
    exact hp3
  unfold Paging.lookupPt at hl
  cases h1 : Paging.nextTable Pmm.pmmAllocPage m r (pml4Index va) flags true with
  | mk m1 o1 =>
  obtain ⟨tabs1, ref1, s1, grown1, leaf1, cost1⟩ := h.nextTable hmax hzero hr hp1 rfl h1
  obtain ⟨pdpt, rfl, walk1, paid1⟩ | ⟨rfl, short1⟩ := cost1
  case inr =>
    simp only [h1] at hl
    obtain ⟨rfl, rfl⟩ := Prod.mk.inj hl
    exact ⟨tabs1, ref1, s1, grown1, leaf1, Or.inr ⟨rfl, short1.append 0 _⟩⟩
  simp only [h1] at hl
  cases h2 : Paging.nextTable Pmm.pmmAllocPage m1 pdpt (pdptIndex va) flags true with
  | mk m2 o2 =>
  obtain ⟨tabs2, ref2, s2, grown2, leaf2, cost2⟩ := s1.nextTable hmax hzero hr hp2 walk1 h2
  have hleaf12 : ∀ t u, R t → u < 2 ^ 47 → leaf m2.mem t u = leaf m.mem t u :=
    fun t u ht hu => (leaf2 t u ht hu).trans (leaf1 t u ht hu)
  rw [← List.append_assoc] at s2
  obtain ⟨pd, rfl, walk2, paid2⟩ | ⟨rfl, short2⟩ := cost2
  case inr =>
    simp only [h2] at hl
    obtain ⟨rfl, rfl⟩ := Prod.mk.inj hl
    exact ⟨_, ref2, s2, grown1.trans grown2, hleaf12,
      Or.inr ⟨rfl, (paid1.short short2 hlow2).append 0 [tablePath va]⟩⟩
  simp only [h2] at hl
  obtain ⟨tabs3, ref3, s3, grown3, leaf3, cost3⟩ := s2.nextTable hmax hzero hr hp3 walk2 hl
  rw [← List.append_assoc] at s3
  have paid12 := paid1.trans paid2 hlow2
  refine ⟨_, ref3, s3, (grown1.trans grown2).trans grown3,
    fun t u ht hu => (leaf3 t u ht hu).trans (hleaf12 t u ht hu), ?_⟩
  obtain ⟨pt, rfl, walk3, paid3⟩ | ⟨rfl, short3⟩ := cost3
  · exact Or.inl ⟨pt, rfl, walk3, paid12.trans paid3 hlow3⟩
  · exact Or.inr ⟨rfl, paid12.short short3 hlow3⟩

/-- `paging_map_page`: it fails without a table and changes no entry, or
it writes the one entry. -/
theorem mapPage (h : Stock maxPfn usable R out ref m) (hr : R r) (hv : va < 2 ^ 47)
    (ha : va % PAGE_SIZE = 0) {phys : Nat} (hphys : phys % PAGE_SIZE = 0) {rc : Int}
    (hm : pagingMapPage Pmm.pmmAllocPage m (some r) va phys flags = (m', rc)) :
    ∃ tabs ref', Stock maxPfn usable R (tabs ++ out) ref' m'
      ∧ Grown maxPfn usable R out ref tabs ref' m m'
      ∧ ((rc = 0 ∧ (∀ t u, R t → u < 2 ^ 47 → leaf m'.mem t u
            = if t = r ∧ u / PAGE_SIZE = va / PAGE_SIZE then pte phys flags
              else leaf m.mem t u)
            ∧ Paid r 0 (tablePaths va) m m')
        ∨ (rc = -1 ∧ (∀ t u, R t → u < 2 ^ 47 → leaf m'.mem t u = leaf m.mem t u)
            ∧ Short r 0 (tablePaths va) m)) := by
  unfold pagingMapPage lookupLeaf at hm
  simp only [ha, hphys, ne_eq, not_true_eq_false, or_self, if_false] at hm
  cases hl : Paging.lookupPt Pmm.pmmAllocPage m r va true flags with
  | mk m1 o =>
  obtain ⟨tabs, ref1, s1, grown1, leaf1, cost⟩ := h.lookupPt hmax hzero hr hv hl
  obtain ⟨pt, rfl, walk1, paid⟩ | ⟨rfl, short⟩ := cost
  case inr =>
      simp only [hl] at hm
      obtain ⟨rfl, rfl⟩ := Prod.mk.inj hm
      exact ⟨tabs, ref1, s1, grown1, Or.inr ⟨rfl, leaf1, short⟩⟩
  case inl =>
      simp only [hl] at hm
      obtain ⟨hm', rfl⟩ := Prod.mk.inj hm
      obtain ⟨hinv, hframe, hleaf⟩ :=
        s1.inv.store_leaf (pte phys flags) hr hv walk1 hm'.symm
      have hwalk : ∀ t q, R t → Lower q →
          walk (child m'.mem) t q = walk (child m1.mem) t q := fun t q ht hq => by
        rw [← hm']
        exact s1.inv.walk_store_leaf (pte phys flags) hr hv walk1 ht hq
      have hpmm : m'.pmm = m1.pmm := by
        rw [← hm']
        rfl
      have hstore : Grown maxPfn usable R (tabs ++ out) ref1 [] ref1 m1 m' := by
        refine ⟨fun b hb => (by cases hb), fun _ _ => rfl, fun q _ => by rw [hpmm],
          fun t q g ht hq hw => ?_, hframe⟩
        rw [hwalk t q ht hq]
        exact hw
      refine ⟨tabs, ref1, ⟨by rw [hpmm]; exact s1.ledger, hinv.forest, hinv.held⟩,
        grown1.trans hstore, Or.inl ⟨rfl, fun t u ht hu => ?_, ?_, fun q hq => ?_⟩⟩
      · rw [hleaf t u ht hu, leaf1 t u ht hu]
      · rw [hpmm]
        exact paid.cost
      · rw [hwalk r q hr hq]
        exact paid.walks q hq

end grow

end Stock

end Alix
