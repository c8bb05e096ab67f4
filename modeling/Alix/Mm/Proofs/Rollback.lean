/-
The undoing of `commit_anon`.

`uncommit_range` goes over the whole range and not only over the pages the
commit came to. That is right because nothing else was mapped there: a
page without a frame reads no address, and its entry is cleared again.
Each frame of the commit has one reference and one page, so each goes
back, and what is left are the tables.

The words of the upper half are not in the way of either loop: they are in
root slots that no lower path goes through, and in tables of their own.
-/
import Alix.Mm.Proofs.Commit

namespace Alix

open Paging
open Radix
open Dyadic (Block)
open Pmm (Ledger Usable Allocated)

variable {maxPfn : Nat} {usable : Nat → Bool} {out : List Block} {ref ref' : Nat → Nat}
  {R T : Nat → Prop} {m m' : Mach} {r t va : Nat} {p : List Nat} {flags : Word} {vas : List Nat}

-- ==== the upper half

/-- The tables of the upper halves are in use, and none of the lower. -/
structure Above (m : Mach) (R T : Nat → Prop) : Prop where
  used : ∀ t p f, R t → p ≠ [] → Vm.Upper p → walk (child m.mem) t p = some f → T f
  apart : ∀ t p f, R t → p ≠ [] → Vm.Upper p → walk (child m.mem) t p = some f →
    ¬ Table m R f

theorem upper_tablePath {u : Nat} (hc : Canonical u) (hu : 2 ^ 47 ≤ u) :
    Vm.Upper (tablePath u) := by
  have hlt := (tablePath_ok u).2
  refine ⟨(tablePath_ok u).1, fun i hi => ?_, hlt⟩
  cases hi
  unfold Canonical at hc
  unfold pml4Index
  omega

section framed

variable (hf : Forest (child m.mem) R Lower) (hheld : ∀ f, Table m R f → T f)
  (hup : Above m R T) (h : Framed m m' R T)

include hf hheld hup h

/-- The walks through the upper half. -/
theorem Paging.Framed.upper_walk (ht : R t) (hp : Vm.Upper p) :
    walk (child m'.mem) t p = walk (child m.mem) t p := by
  cases p with
  | nil => rfl
  | cons i p =>
      have hi : Vm.Upper [i] := by
        refine ⟨by simp, hp.2.1, fun j hj => hp.2.2 j ?_⟩
        rw [List.mem_singleton.mp hj]
        exact List.mem_cons_self
      -- the slot of the root is on no lower path
      have hword : m'.mem t i = m.mem t i := by
        refine h.frame t i (hheld t ⟨t, [], ht, lower_owned.nil, rfl⟩) fun hs => ?_
        obtain ⟨r, q, hr, hq, hlow, hw⟩ := hs
        obtain ⟨-, hnil⟩ := hf.sep hr ht hq lower_owned.nil hw rfl
        have := hlow hnil
        have := hp.2.1 i rfl
        omega
      rw [walk_cons, walk_cons, child_congr hword]
      cases hc : child m.mem t i with
      | none => rfl
      | some x =>
          rw [Option.bind_some, Option.bind_some]
          refine walk_congr (Vm.upper_owned hi) (fun q j y hq hy => ?_) hp
          have hwy : walk (child m.mem) t (i :: q) = some y := by
            rw [walk_cons, hc]
            exact hy
          have hqu := (Vm.upper_owned hi).init q j hq
          have hne : i :: q ≠ [] := List.cons_ne_nil _ _
          exact child_congr (h.frame y j (hup.used t _ y ht hne hqu hwy)
            fun hs => hup.apart t _ y ht hne hqu hwy hs.table)

theorem Paging.Framed.above : Above m' R T := by
  refine ⟨fun t p f ht hne hp hw => ?_, fun t p f ht hne hp hw htable => ?_⟩
  · rw [h.upper_walk hf hheld hup ht hp] at hw
    exact hup.used t p f ht hne hp hw
  · rw [h.upper_walk hf hheld hup ht hp] at hw
    exact hup.apart t p f ht hne hp hw
      (h.slot f 0 (hup.used t p f ht hne hp hw) htable.slot).table

/-- The leaf words of the upper half. -/
theorem Paging.Framed.upper_leaf (ht : R t) {u : Nat} (hc : Canonical u) (hu : 2 ^ 47 ≤ u) :
    leaf m'.mem t u = leaf m.mem t u := by
  have hp := upper_tablePath hc hu
  have hne : tablePath u ≠ [] := List.cons_ne_nil _ _
  unfold leaf
  rw [h.upper_walk hf hheld hup ht hp]
  cases hw : walk (child m.mem) t (tablePath u) with
  | none => rfl
  | some pt =>
      exact h.frame pt _ (hup.used t _ pt ht hne hp hw)
        fun hs => hup.apart t _ pt ht hne hp hw hs.table

end framed

-- ==== the other roots

/-- Changes of the leaf words of one root, seen from all of them. -/
theorem Paging.Rewrites.framed {P : Nat → Prop} {g : Word → Word} (h : Rewrites r P g m m')
    (hf : Forest (child m.mem) R Lower) (hr : R r) (hP : ∀ n, P n → n < 2 ^ 35) :
    (∀ t q, R t → Lower q → walk (child m'.mem) t q = walk (child m.mem) t q)
      ∧ Framed m m' R T
      ∧ ∀ t u, R t → t ≠ r → u < 2 ^ 47 → leaf m'.mem t u = leaf m.mem t u := by
  have hs : PAGE_SIZE = 4096 := rfl
  -- what is written is in a last-level table of the root
  have hwrite : ∀ f j, m'.mem f j ≠ m.mem f j →
      ∃ u, u < 2 ^ 47 ∧ walk (child m.mem) r (tablePath u) = some f := fun f j hne => by
    obtain ⟨u, hc, hu, hw, -⟩ := (h.frame f j).resolve_left hne
    have := hP _ hu
    rw [hs] at this
    exact ⟨u, by omega, hw⟩
  have hwalk : ∀ t q, R t → Lower q →
      walk (child m'.mem) t q = walk (child m.mem) t q := fun t q ht hq => by
    refine walk_congr lower_owned (fun q i f hq hw => ?_) hq
    by_contra hne
    obtain ⟨u, hu, hwu⟩ := hwrite f i fun e => hne (child_congr e)
    obtain ⟨-, hqu⟩ := hf.sep ht hr (lower_owned.init q i hq) (lower_tablePath hu) hw hwu
    have := hq.1
    rw [hqu] at this
    simp [tablePath] at this
  refine ⟨hwalk, ⟨fun f j _ hns => ?_, fun f j _ hsl => ?_⟩, fun t u ht hne hu => ?_⟩
  · by_contra hne
    obtain ⟨u, hu, hwu⟩ := hwrite f j hne
    exact hns ⟨r, _, hr, lower_tablePath hu, fun e => (by cases e), hwu⟩
  · obtain ⟨t, q, ht, hq, hj, hw⟩ := hsl
    exact ⟨t, q, ht, hq, hj, by rw [← hwalk t q ht hq, hw]⟩
  · unfold leaf
    rw [hwalk t _ ht (lower_tablePath hu)]
    cases hw : walk (child m.mem) t (tablePath u) with
    | none => rfl
    | some pt =>
        show m'.mem pt (ptIndex u) = m.mem pt (ptIndex u)
        by_contra hch
        obtain ⟨x, hx, hwx⟩ := hwrite pt _ hch
        exact hne (hf.sep ht hr (lower_tablePath hu) (lower_tablePath hx) hw hwx).1

-- ==== the rollback

section rollback

variable {F : Nat → Option Nat} {tabs datas : List Block}

/-- A page of the commit reads its frame, and any other page none. -/
theorem Committed.frameOf_leaf (hmax : maxPfn < 2 ^ 40) (hzero : usable 0 = false)
    (h : Committed maxPfn usable R r flags out ref vas F tabs datas ref' m m') (hr : R r)
    {u : Nat} (hu : u < 2 ^ 47) (hbare : hasFlag (leaf m.mem r u) PAGE_PRESENT = false) :
    frameOf (leaf m'.mem r u) = F (u / PAGE_SIZE) := by
  cases hF : F (u / PAGE_SIZE) with
  | none =>
      rw [h.other r u hr hu fun _ => hF]
      unfold frameOf
      rw [hbare]
      rfl
  | some p =>
      have hin : (⟨p, 0⟩ : Block) ∈ tabs ++ (datas ++ out) :=
        List.mem_append_right _ (List.mem_append_left _ ((h.frames _).mpr ⟨rfl, _, hF⟩))
      obtain ⟨hlt, hu0⟩ := h.stock.ledger.mem_usable hin (Block.base_mem ⟨p, 0⟩)
      have hlt : p < maxPfn + 1 := hlt
      rw [h.entry _ p hF u hu rfl]
      refine frameOf_pte flags ?_ (by omega)
      rintro rfl
      have hu0 : usable 0 = true := hu0
      rw [hzero] at hu0
      cases hu0

section hits

variable (h : Committed maxPfn usable R r flags out ref vas F tabs datas ref' m m')
  (hvas : ∀ va ∈ vas, va < 2 ^ 47 ∧ va % PAGE_SIZE = 0)
  (hdist : vas.Pairwise fun v w => v / PAGE_SIZE ≠ w / PAGE_SIZE)
  (hframe : ∀ va ∈ vas, frameOf (leaf m'.mem r va) = F (va / PAGE_SIZE))

include h hvas hdist hframe

/-- A frame is hit once for each page that it was taken for. -/
theorem Committed.hits_ncard (f : Nat) : hits m' r vas f = {n | F n = some f}.ncard := by
  have hback : ∀ va ∈ vas, va / PAGE_SIZE * PAGE_SIZE = va := fun va hva =>
    Nat.div_mul_cancel (Nat.dvd_of_mod_eq_zero (hvas va hva).2)
  have hset : pagesTo m' r (Pages vas) f = {n | F n = some f} := by
    ext n
    constructor
    · intro hn
      obtain ⟨⟨va, hva, rfl⟩, hword⟩ := hn
      rw [hback va hva, hframe va hva] at hword
      exact hword
    · intro hn
      obtain ⟨va, hva, rfl⟩ := h.dom n f hn
      refine ⟨⟨va, hva, rfl⟩, ?_⟩
      rw [hback va hva, hframe va hva]
      exact hn
  rw [hits_eq (fun va hva => (hvas va hva).2) hdist, hset]

theorem Committed.hits_datas {b : Block} (hb : b ∈ datas) : hits m' r vas b.base = 1 := by
  obtain ⟨-, n, hn⟩ := (h.frames b).mp hb
  have hone : {n | F n = some b.base} = {n} := Set.ext fun k =>
    ⟨fun hk => h.inj k n b.base hk hn, fun hk => by rw [Set.mem_singleton_iff.mp hk]; exact hn⟩
  rw [h.hits_ncard hvas hdist hframe, hone, Set.ncard_singleton]

theorem Committed.hits_rest {b : Block} (hb : b ∈ tabs ++ out) : hits m' r vas b.base = 0 := by
  have hempty : {n | F n = some b.base} = ∅ := by
    refine Set.eq_empty_of_forall_notMem fun n hn => ?_
    have hd : (⟨b.base, 0⟩ : Block) ∈ datas := (h.frames _).mpr ⟨rfl, n, hn⟩
    have hin : b ∈ tabs ++ (datas ++ out) := (List.mem_append.mp hb).elim
      (fun hb => List.mem_append_left _ hb)
      fun hb => List.mem_append_right _ (List.mem_append_right _ hb)
    have hbd : b ∈ datas := by
      rw [h.stock.ledger.head_inj hin
        (List.mem_append_right _ (List.mem_append_left _ hd)) rfl]
      exact hd
    obtain ⟨-, hnodup, hapart⟩ := List.nodup_append.mp h.stock.ledger.nodup
    rcases List.mem_append.mp hb with hb | hb
    · exact hapart b hb b (List.mem_append_left _ hbd) rfl
    · exact (List.nodup_append.mp hnodup).2.2 b hbd b hb rfl
  rw [h.hits_ncard hvas hdist hframe, hempty, Set.ncard_empty]

/-- What is left are the tables. -/
theorem Committed.left_eq :
    Pmm.left (tabs ++ (datas ++ out)) ref' (hits m' r vas) = tabs ++ out := by
  have hkeep : ∀ b ∈ tabs ++ out, b ∈ tabs ++ (datas ++ out) →
      decide (hits m' r vas b.base < ref' b.base) = true := fun b hb hin => by
    rw [h.hits_rest hvas hdist hframe hb]
    exact decide_eq_true (h.stock.ledger.head b hin).2.2.2
  unfold Pmm.left
  rw [List.filter_append, List.filter_append, List.filter_eq_self.mpr fun b hb =>
      hkeep b (List.mem_append_left _ hb) (List.mem_append_left _ hb),
    List.filter_eq_nil_iff.mpr, List.filter_eq_self.mpr fun b hb =>
      hkeep b (List.mem_append_right _ hb)
        (List.mem_append_right _ (List.mem_append_right _ hb)), List.nil_append]
  intro b hb
  rw [h.hits_datas hvas hdist hframe hb, h.one b hb]
  decide

end hits

/-- `uncommit_range` after a commit that failed: only tables are left. -/
theorem Committed.rollback (hmax : maxPfn < 2 ^ 40) (hzero : usable 0 = false)
    (h : Committed maxPfn usable R r flags out ref vas F tabs datas ref' m m')
    (hs : Stock maxPfn usable R out ref m) (hup : Above m R (Used maxPfn usable out)) (hr : R r)
    (hvas : ∀ va ∈ vas, va < 2 ^ 47 ∧ va % PAGE_SIZE = 0)
    (hdist : vas.Pairwise fun v w => v / PAGE_SIZE ≠ w / PAGE_SIZE)
    (hbare : ∀ va ∈ vas, hasFlag (leaf m.mem r va) PAGE_PRESENT = false) :
    ∃ m'' ref'', vas.foldlM (Machine.uncommitPage r) m' = .ok m''
      ∧ Stock maxPfn usable R (tabs ++ out) ref'' m''
      ∧ Grown maxPfn usable R out ref tabs ref'' m m''
      ∧ (∀ u, u < 2 ^ 47 → Pages vas (u / PAGE_SIZE) → leaf m''.mem r u = 0)
      ∧ ∀ t u, R t → u < 2 ^ 47 → (t = r → ¬ Pages vas (u / PAGE_SIZE)) →
        leaf m''.mem t u = leaf m.mem t u := by
  have habove := h.framed.above hs.forest hs.held hup
  have hloop : LoopPages m' r vas := fun va hva =>
    ⟨Or.inl (hvas va hva).1, (hvas va hva).2, alone_of_apart h.stock.forest hr (hvas va hva).1
      fun p f hne hp hw => habove.apart r p f hr hne hp hw⟩
  have hframe : ∀ va ∈ vas, frameOf (leaf m'.mem r va) = F (va / PAGE_SIZE) := fun va hva =>
    h.frameOf_leaf hmax hzero hr (hvas va hva).1 (hbare va hva)
  have honce : ∀ b ∈ datas, hits m' r vas b.base = 1 := fun b hb =>
    h.hits_datas hvas hdist hframe hb
  have hnever : ∀ b ∈ tabs ++ out, hits m' r vas b.base = 0 := fun b hb =>
    h.hits_rest hvas hdist hframe hb
  obtain ⟨m2, hok, hw, hled, hkept, hfar⟩ := uncommitPages_spec h.stock.ledger hloop hdist
    (fun va hva f hf _ => by
      rw [hframe va hva] at hf
      exact Or.inr (List.mem_append_right _ (List.mem_append_left _
        ((h.frames _).mpr ⟨rfl, _, hf⟩))))
    (fun f hf => by
      rcases List.mem_append.mp hf with hf | hf
      · rw [hnever ⟨f, 0⟩ (List.mem_append_left _ hf)]
        exact Nat.zero_le _
      rcases List.mem_append.mp hf with hf | hf
      · rw [honce ⟨f, 0⟩ hf, h.one ⟨f, 0⟩ hf]
      · rw [hnever ⟨f, 0⟩ (List.mem_append_right _ hf)]
        exact Nat.zero_le _)
  rw [h.left_eq hvas hdist hframe] at hled
  have hlow : ∀ n, Pages vas n → n < 2 ^ 35 := fun n hn => by
    obtain ⟨va, hva, rfl⟩ := hn
    exact page_lower (hvas va hva).1
  obtain ⟨hwalk, hframed, hothers⟩ :=
    hw.framed (T := Used maxPfn usable out) h.stock.forest hr hlow
  have htable : ∀ f, Table m2 R f → Table m' R f := fun f hf => by
    obtain ⟨t, q, ht, hq, hwq⟩ := hf
    exact ⟨t, q, ht, hq, by rw [← hwalk t q ht hq]; exact hwq⟩
  refine ⟨m2, _, hok, ⟨hled, ⟨fun ht ht' hq hq' hwq hwq' => ?_⟩, fun f hf => ?_⟩,
    ⟨fun b hb => ?_, fun b hb => ?_, fun q hq => ?_, fun t q g ht hq hwq => ?_,
      h.framed.trans hframed fun _ hf => hf⟩, fun u hu hn => hw.inside u (Or.inl hu) hn,
    fun t u ht hu hn => ?_⟩
  · rw [hwalk _ _ ht hq] at hwq
    rw [hwalk _ _ ht' hq'] at hwq'
    exact h.stock.forest.sep ht ht' hq hq' hwq hwq'
  · -- a table is none of the frames that went back
    rcases h.stock.held f (htable f hf) with hno | ⟨b, hb, hfb⟩
    · exact Or.inl hno
    rcases List.mem_append.mp hb with hb | hb
    · exact Or.inr ⟨b, List.mem_append_left _ hb, hfb⟩
    rcases List.mem_append.mp hb with hb | hb
    · obtain ⟨hord, n, hn⟩ := (h.frames b).mp hb
      have hfp : f = b.base := by
        rw [Block.mem_def, hord] at hfb
        omega
      rw [hfp] at hf
      exact (h.apart n b.base hn (htable b.base hf)).elim
    · exact Or.inr ⟨b, List.mem_append_right _ hb, hfb⟩
  · obtain ⟨hord, t, q, ht, hq, hwq⟩ := h.tables b hb
    exact ⟨hord, t, q, ht, hq, by rw [hwalk t q ht hq]; exact hwq⟩
  · show ref' b.base - _ = _
    rw [hnever b (List.mem_append_right _ hb), Nat.sub_zero]
    exact h.ref b hb
  · rw [← h.data q hq]
    rcases hq with hno | ⟨b, hb, hqb⟩
    · exact hfar q hno
    · exact hkept b (List.mem_append_right _ (List.mem_append_right _ hb))
        (hnever b (List.mem_append_right _ hb)) q hqb
  · rw [hwalk t q ht hq]
    exact h.walks t q g ht hq hwq
  · by_cases htr : t = r
    · have hnp := hn htr
      have hnone : F (u / PAGE_SIZE) = none := by
        cases hF : F (u / PAGE_SIZE) with
        | none => rfl
        | some p => exact (hnp (h.dom _ p hF)).elim
      rw [← h.other t u ht hu fun _ => hnone, htr]
      exact hw.outside u (Or.inl hu) hnp
    · rw [hothers t u ht htr hu]
      exact h.other t u ht hu fun e => (htr e).elim

end rollback

end Alix
