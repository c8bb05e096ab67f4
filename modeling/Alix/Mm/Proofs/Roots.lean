/-
Roots come and go.

`ptable_create` plants a root with an empty lower half and the kernel's
upper half. `ptable_destroy` walks the lower half three levels deep and
frees every table on its way back up. It never writes a table, so it
frees what a post-order walk of the memory lists (`ptableDestroy_eq`),
and in a forest that is every table of the root, once.
-/
import Alix.Mm.Proofs.PageOps

namespace Alix

open Paging
open Radix
open Pointers
open Dyadic (Block)
open Pmm (Ledger Usable)

-- ==== the order of the frees

namespace Paging.Machine

variable {m m' : Mach}

/-- `freeTable` of a frame by its number. -/
def freeFrame (m : Mach) (f : Nat) : Except Kpanic Mach := m.freeTable (pfnPhys f)

theorem freeTable_eq (m : Mach) (phys : Nat) :
    m.freeTable phys = m.freeFrame (physPfn phys) := by
  have hphys : physPfn (pfnPhys (physPfn phys)) = physPfn phys :=
    Nat.mul_div_cancel _ (by decide)
  unfold freeFrame freeTable physToPage
  rw [hphys]

theorem free_mem {p : Nat} (h : m.free p = .ok m') : m'.mem = m.mem := by
  unfold free at h
  split at h
  · cases h
  · cases h
    rfl

theorem freeFrame_mem {f : Nat} (h : m.freeFrame f = .ok m') : m'.mem = m.mem := by
  unfold freeFrame freeTable at h
  split at h
  · cases h
    rfl
  split at h
  · cases h
    rfl
  · exact free_mem h

theorem foldlM_freeFrame_mem {l : List Nat} (h : l.foldlM freeFrame m = .ok m') :
    m'.mem = m.mem := by
  induction l generalizing m with
  | nil =>
      cases h
      rfl
  | cons f l ih =>
      rw [List.foldlM_cons] at h
      cases hf : m.freeFrame f with
      | error e =>
          rw [hf] at h
          cases h
      | ok m1 =>
          rw [hf] at h
          exact (ih h).trans (freeFrame_mem hf)

/-- The loop over some slots of a table, when the loop below is in order. -/
theorem destroyEntries_eq {mem : Nat → Nat → Word} {n table : Nat}
    (hbelow : ∀ m : Mach, m.mem = mem → ∀ f, m.destroyLevel n f
      = (below (child mem) (List.range 512) n f).foldlM freeFrame m)
    (l : List Nat) (m : Mach) (hm : m.mem = mem) :
    l.foldlM (destroyEntry (destroyLevel n) table) m
      = (l.flatMap fun i => beneath (below (child mem) (List.range 512) n)
          (child mem table i)).foldlM freeFrame m := by
  induction l generalizing m with
  | nil => rfl
  | cons i l ih =>
      have hentry : destroyEntry (destroyLevel n) table m i
          = (beneath (below (child mem) (List.range 512) n) (child mem table i)).foldlM
              freeFrame m := by
        unfold destroyEntry
        simp only [hm]
        cases hp : hasFlag (mem table i) PAGE_PRESENT with
        | false =>
            rw [child_eq_none.mpr (by rw [hp]; exact Bool.false_ne_true)]
            rfl
        | true =>
            rw [child_eq_some.mpr ⟨hp, rfl⟩, hbelow m hm]
            simp only [beneath, Bool.not_true, Bool.false_eq_true, if_false,
              List.foldlM_append, List.foldlM_cons, List.foldlM_nil, bind_pure]
            cases (below (child mem) (List.range 512) n
                (tableVirt (mem table i))).foldlM freeFrame m with
            | error e => rfl
            | ok m1 => exact freeTable_eq m1 _
      rw [List.foldlM_cons, List.flatMap_cons, List.foldlM_append, hentry]
      cases hf : (beneath (below (child mem) (List.range 512) n) (child mem table i)).foldlM
          freeFrame m with
      | error e => rfl
      | ok m1 => exact ih m1 ((foldlM_freeFrame_mem hf).trans hm)

theorem destroyLevel_eq {mem : Nat → Nat → Word} (n : Nat) (m : Mach) (hm : m.mem = mem)
    (f : Nat) : m.destroyLevel n f
      = (below (child mem) (List.range 512) n f).foldlM freeFrame m := by
  induction n generalizing m f with
  | zero => rfl
  | succ n ih => exact destroyEntries_eq (fun m hm f => ih m hm f) _ m hm

/-- The tables of a root in the order of their frees. -/
def tables (mem : Nat → Nat → Word) (r : Nat) : List Nat :=
  ((List.range 256).flatMap fun i =>
    beneath (below (child mem) (List.range 512) 2) (child mem r i)) ++ [r]

/-- `ptable_destroy` frees the tables of its root. -/
theorem ptableDestroy_eq (m : Mach) (r : Nat) :
    m.ptableDestroy r = (tables m.mem r).foldlM freeFrame m := by
  unfold ptableDestroy tables
  rw [destroyEntries_eq (fun m hm f => destroyLevel_eq 2 m hm f) _ m rfl]
  simp only [List.foldlM_append, List.foldlM_cons, List.foldlM_nil, bind_pure]
  cases ((List.range 256).flatMap fun i => beneath (below (child m.mem) (List.range 512) 2)
      (child m.mem r i)).foldlM freeFrame m with
  | error e => rfl
  | ok m1 => rfl

/-- What `ptable_destroy` frees are tables of the root, none of them twice. -/
theorem tables_walk {mem : Nat → Nat → Word} {R : Nat → Prop} {r : Nat}
    (hf : Forest (child mem) R Lower) (hr : R r) :
    (tables mem r).Nodup
      ∧ ∀ f ∈ tables mem r, ∃ p, Lower p ∧ walk (child mem) r p = some f := by
  have hlower : ∀ i p, i < 256 → p.length ≤ 2 → Lower (i :: p) := by
    intro i p hi hp
    refine ⟨by rw [List.length_cons]; omega, fun j hj => ?_⟩
    cases hj
    exact hi
  have hbelow : ∀ f ∈ (List.range 256).flatMap (fun i =>
      beneath (below (child mem) (List.range 512) 2) (child mem r i)),
      ∃ p, p ≠ [] ∧ Lower p ∧ walk (child mem) r p = some f := by
    intro f hf
    obtain ⟨i, hi, hf⟩ := List.mem_flatMap.mp hf
    obtain ⟨p, hp, -, hw⟩ := mem_beneath_below.mp hf
    exact ⟨i :: p, List.cons_ne_nil _ _, hlower i p (List.mem_range.mp hi) hp, hw⟩
  unfold tables
  refine ⟨List.nodup_append.mpr ⟨?_, List.nodup_singleton r, ?_⟩, fun f hin => ?_⟩
  · refine nodup_flatMap_over List.nodup_range List.nodup_range ?_
    intro i j p q g hi hj hp hq _ _ hw hw'
    exact (hf.sep hr hr (hlower i p (List.mem_range.mp hi) hp)
      (hlower j q (List.mem_range.mp hj) hq) hw hw').2
  · intro x hx y hy hxy
    rw [List.mem_singleton.mp hy] at hxy
    obtain ⟨p, hne, hp, hw⟩ := hbelow x hx
    rw [hxy] at hw
    exact hne (hf.sep hr hr hp lower_owned.nil hw rfl).2
  · rcases List.mem_append.mp hin with hin | hin
    · obtain ⟨p, -, hp, hw⟩ := hbelow f hin
      exact ⟨p, hp, hw⟩
    · rw [List.mem_singleton.mp hin]
      exact ⟨[], lower_owned.nil, rfl⟩

end Paging.Machine

-- ==== frames with one reference

section frees

variable {maxPfn : Nat} {usable : Nat → Bool} {pre own : List Block} {ref : Nat → Nat}
  {m : Mach}

/-- Frames with one reference each are given back; nobody else's blocks
change. -/
theorem freeFrames {l : List Nat} (hl : Ledger maxPfn usable m.pmm (pre ++ own) ref)
    (hnd : l.Nodup) (hin : ∀ f ∈ l, ⟨f, 0⟩ ∈ own ∧ ref f = 1) :
    ∃ pmm own' ref', l.foldlM Machine.freeFrame m = .ok { m with pmm }
      ∧ l.foldlM Machine.free m = .ok { m with pmm }
      ∧ Ledger maxPfn usable pmm (pre ++ own') ref'
      ∧ (∀ b, b ∈ own' ↔ b ∈ own ∧ ¬ (b.order = 0 ∧ b.base ∈ l))
      ∧ (∀ f, f ∉ l → ref' f = ref f)
      ∧ (∀ b ∈ pre, ∀ q ∈ b, (pmm.pages q).data = (m.pmm.pages q).data)
      ∧ ∀ q, ¬ Usable maxPfn usable q → (pmm.pages q).data = (m.pmm.pages q).data := by
  induction l generalizing own ref m with
  | nil =>
      exact ⟨m.pmm, own, ref, rfl, rfl, hl, fun b => by simp, fun _ _ => rfl,
        fun _ _ _ _ => rfl, fun _ _ => rfl⟩
  | cons f l ih =>
      obtain ⟨hf, hone⟩ := hin f List.mem_cons_self
      obtain ⟨hfl, hnd'⟩ := List.nodup_cons.mp hnd
      have hout : ⟨f, 0⟩ ∈ pre ++ own := List.mem_append_right _ hf
      have hpre : ⟨f, 0⟩ ∉ pre := fun hc =>
        (List.nodup_append.mp hl.nodup).2.2 _ hc _ hf rfl
      obtain ⟨pmm1, hok, hl1, hframe⟩ := hl.drop hout
      rw [if_pos hone, List.erase_append_right _ hpre] at hl1
      have hfree : m.free f = .ok { m with pmm := pmm1 } := by
        unfold Machine.free
        rw [hok]
      have hU := hl.mem_usable hout (Block.base_mem ⟨f, 0⟩)
      have hlt : f < maxPfn + 1 := hU.1
      have hphys : physPfn (pfnPhys f) = f := Nat.mul_div_cancel f (by decide)
      have hpage : m.physToPage (pfnPhys f) = some f := by
        unfold Machine.physToPage
        rw [hphys, hl.bound, if_neg (by omega)]
      have hframe' : m.freeFrame f = .ok { m with pmm := pmm1 } := by
        unfold Machine.freeFrame Machine.freeTable
        rw [hpage]
        simp only [(hl.clean f hU).1, Bool.false_eq_true, if_false]
        exact hfree
      have hown : own.Nodup := (List.nodup_append.mp hl.nodup).2.1
      have hin' : ∀ g ∈ l, ⟨g, 0⟩ ∈ own.erase ⟨f, 0⟩
          ∧ Function.update ref f (ref f - 1) g = 1 := by
        intro g hg
        have hgf : g ≠ f := by
          rintro rfl
          exact hfl hg
        obtain ⟨hgo, hgr⟩ := hin g (List.mem_cons_of_mem _ hg)
        rw [Function.update_of_ne hgf]
        refine ⟨(List.mem_erase_of_ne fun e => hgf ?_).mpr hgo, hgr⟩
        exact congrArg Block.base e
      obtain ⟨pmm, own', ref', h1, h2, hl', hmem, href, hdata, hrest⟩ :=
        ih (m := { m with pmm := pmm1 }) hl1 hnd' hin'
      refine ⟨pmm, own', ref', ?_, ?_, hl', fun b => ?_, fun g hg => ?_, fun b hb q hq => ?_,
        fun q hq => (hrest q hq).trans (hl.drop_outside hout hok hq)⟩
      · rw [List.foldlM_cons, hframe']
        exact h1
      · rw [List.foldlM_cons, hfree]
        exact h2
      · rw [hmem, hown.mem_erase_iff, List.mem_cons]
        obtain ⟨base, order⟩ := b
        simp only [ne_eq, Block.mk.injEq]
        constructor
        · intro hb
          refine ⟨hb.1.2, fun hc => ?_⟩
          rcases hc.2 with e | hc'
          · exact hb.1.1 ⟨e, hc.1⟩
          · exact hb.2 ⟨hc.1, hc'⟩
        · intro hb
          exact ⟨⟨fun hc => hb.2 ⟨hc.2, Or.inl hc.1⟩, hb.1⟩,
            fun hc => hb.2 ⟨hc.1, Or.inr hc.2⟩⟩
      · have hgf : g ≠ f := by
          rintro rfl
          exact hg List.mem_cons_self
        rw [href g fun hc => hg (List.mem_cons_of_mem _ hc), Function.update_of_ne hgf]
      · have hbf : b ≠ ⟨f, 0⟩ := by
          rintro rfl
          exact hpre hb
        rw [hdata b hb q hq]
        exact hframe b (List.mem_append_left _ hb) hbf q hq

end frees

-- ==== the roots

/-- The upper half a new root gets is the kernel's, and nobody here writes
the kernel's root. -/
structure Outside.Kernel (fx : Outside) (kernel : Option Nat) : Prop where
  has : ∀ k, kernel = some k → fx.Has k
  upper : ∀ i, fx.upper i = match kernel with
    | none => 0
    | some k => fx.mem k i

namespace Backed

variable {maxPfn : Nat} {usable : Nat → Bool} {heap : List Block} {fx : Outside}
  {R : Nat → Prop} {k : Books} {m m' : Mach} {r f : Nat} {p : List Nat}

/-- A walk in the lower half goes through slots of the 512. -/
theorem walk_lt (h : Backed maxPfn usable heap fx R k m) (hr : R r) (hp : Lower p)
    (hw : walk (child m.mem) r p = some f) : ∀ i ∈ p, i < 512 := by
  induction p using List.reverseRecOn generalizing f with
  | nil =>
      intro i hi
      cases hi
  | append_singleton p j ih =>
      have hp' := lower_owned.init p j hp
      obtain ⟨x, hx, hc⟩ := walk_snoc_some hw
      intro i hi
      rcases List.mem_append.mp hi with hi | hi
      · exact ih hp' hx i hi
      · rw [List.mem_singleton.mp hi]
        by_contra hge
        rw [child_zero (h.wide x ⟨r, p, hr, hp', hx⟩ j (by omega))] at hc
        cases hc

/-- What `ptable_destroy` frees are the tables of the root, each once. -/
theorem tables_spec (h : Backed maxPfn usable heap fx R k m) (hr : R r) :
    (Machine.tables m.mem r).Nodup
      ∧ ∀ f, f ∈ Machine.tables m.mem r
        ↔ ∃ p, Lower p ∧ walk (child m.mem) r p = some f := by
  obtain ⟨hnd, hwalk⟩ := Machine.tables_walk h.forest hr
  refine ⟨hnd, fun f => ⟨hwalk f, fun hf => ?_⟩⟩
  obtain ⟨p, hp, hw⟩ := hf
  unfold Machine.tables
  rw [List.mem_append, List.mem_singleton]
  cases p with
  | nil => exact Or.inr (Option.some.inj hw).symm
  | cons i p =>
      have hlt := h.walk_lt hr hp hw
      refine Or.inl (List.mem_flatMap.mpr ⟨i, List.mem_range.mpr (hp.2 i rfl),
        mem_beneath_below.mpr ⟨p, ?_, ?_, hw⟩⟩)
      · have := hp.1
        rw [List.length_cons] at this
        omega
      · exact fun j hj => List.mem_range.mpr (hlt j (List.mem_cons_of_mem _ hj))

/-- `ptable_destroy` of a root that maps nothing. -/
theorem destroy (h : Backed maxPfn usable heap fx R k m) (hr : R r)
    (hempty : ∀ n, k.view (r, n) = none) :
    ∃ k' pmm, m.ptableDestroy r = .ok { m with pmm }
      ∧ (Machine.tables m.mem r).foldlM Machine.free m = .ok { m with pmm }
      ∧ Backed maxPfn usable heap fx (fun t => t ≠ r ∧ R t) k' { m with pmm }
      ∧ k'.view = k.view ∧ k'.extra = k.extra := by
  obtain ⟨hnd, hiff⟩ := h.tables_spec hr
  have htab : ∀ f ∈ Machine.tables m.mem r, Table m R f := by
    intro f hf
    obtain ⟨p, hp, hw⟩ := (hiff f).mp hf
    exact ⟨r, p, hr, hp, hw⟩
  have hl : Ledger maxPfn usable m.pmm ((heap ++ fx.blocks) ++ k.own) k.ref := by
    rw [List.append_assoc]
    exact h.ledger
  obtain ⟨pmm, own', ref', hfree, hfree', hl', hown, href, hdata, -⟩ :=
    freeFrames hl hnd fun f hf => ⟨h.table_own (htab f hf), h.table f (htab f hf)⟩
  have hnot : ∀ f, Table { m with pmm } (fun t => t ≠ r ∧ R t) f
      ↔ Table m R f ∧ f ∉ Machine.tables m.mem r := by
    intro f
    constructor
    · intro hf
      obtain ⟨t, p, ⟨htr, ht⟩, hp, hw⟩ := hf
      refine ⟨⟨t, p, ht, hp, hw⟩, fun hc => ?_⟩
      obtain ⟨q, hq, hwq⟩ := (hiff f).mp hc
      exact htr (h.forest.sep ht hr hp hq hw hwq).1
    · intro hf
      obtain ⟨⟨t, p, ht, hp, hw⟩, hnf⟩ := hf
      refine ⟨t, p, ⟨?_, ht⟩, hp, hw⟩
      rintro rfl
      exact hnf ((hiff f).mpr ⟨p, hp, hw⟩)
  have hused : ∀ f, 0 < k.uses f → f ∉ Machine.tables m.mem r := by
    intro f hf hc
    rw [h.apart f (htab f hc)] at hf
    omega
  refine ⟨⟨own', ref', k.view, k.extra⟩, pmm, ?_, hfree', {
    ledger := by rw [← List.append_assoc]; exact hl'
    single := fun b hb => ?_
    forest := h.forest.mono fun t ht => ht.2
    wide := fun x hx => h.wide x ((hnot x).mp hx).1
    leaf := fun t v ht => h.leaf t v ht.2
    dom := fun x hx => ?_
    sparse := h.sparse
    own := fun b => ?_
    apart := fun x hx => h.apart x ((hnot x).mp hx).1
    table := fun x hx => ?_
    data := fun x hx => ?_
    words := h.words
    pages := fun q hq => ?_
    upper := fun t ht => h.upper t ht.2 }, rfl, rfl⟩
  · rw [Machine.ptableDestroy_eq, hfree]
  · show ref' b.base = 1
    rw [href b.base fun hc => h.heap_base (h.table_own (htab _ hc)) hb rfl]
    exact h.single b hb
  · obtain ⟨hx1, hx2⟩ := h.dom x hx
    refine ⟨⟨?_, hx1⟩, hx2⟩
    intro e
    refine hx ?_
    show k.view (x.1, x.2) = none
    rw [e]
    exact hempty x.2
  · show b ∈ own' ↔ b.order = 0 ∧ (_ ∨ 0 < k.uses b.base)
    rw [hown, h.own, hnot]
    constructor
    · intro hb
      obtain ⟨⟨h0, hb⟩, hnl⟩ := hb
      exact ⟨h0, hb.imp_left fun ht => ⟨ht, fun hc => hnl ⟨h0, hc⟩⟩⟩
    · intro hb
      obtain ⟨h0, hb⟩ := hb
      refine ⟨⟨h0, hb.imp_left And.left⟩, fun hc => ?_⟩
      rcases hb with hb | hb
      · exact hb.2 hc.2
      · exact hused _ hb hc.2
  · show ref' x = 1
    obtain ⟨ht, hnl⟩ := (hnot x).mp hx
    rw [href x hnl]
    exact h.table x ht
  · show ref' x = k.uses x
    have hx' : 0 < k.uses x := hx
    rw [href x (hused x hx')]
    exact h.data x hx'
  · obtain ⟨b, hb, hqb⟩ := hq
    refine Eq.trans (hdata b (List.mem_append_right _ hb) q hqb) ?_
    exact h.pages q ⟨b, hb, hqb⟩

/-- A frame becomes a root: its lower half is empty, and its upper half is
everybody's. -/
theorem plant (h : Backed maxPfn usable heap fx R k m) {pmm : Pmm} {g : Nat}
    (ha : m.pmm.pmmAllocPage = some (pmm, g)) (hpmm : m'.pmm = pmm)
    (hmem : ∀ f j, m'.mem f j
      = if f = g then (if 256 ≤ j ∧ j < 512 then fx.upper j else 0) else m.mem f j) :
    ¬ R g ∧ Backed maxPfn usable heap fx (fun t => t = g ∨ R t) (k.link g) m' := by
  obtain ⟨htake, hzero, htab, -⟩ := h.take ha
  have hR : ¬ R g := fun hg => htab ⟨g, [], hg, lower_owned.nil, rfl⟩
  have hold : ∀ x, x ≠ g → m'.mem x = m.mem x := by
    intro x hx
    funext j
    rw [hmem, if_neg hx]
  have hempty : ∀ i, i < 256 → child m'.mem g i = none := by
    intro i hi
    have hlow : ¬ (256 ≤ i ∧ i < 512) := by omega
    refine child_zero ?_
    rw [hmem, if_pos rfl, if_neg hlow]
  have hne : ∀ x, Table m R x → x ≠ g := by
    rintro x hx rfl
    exact htab hx
  have hoff : ∀ x, Table m R x → m'.mem x = m.mem x := fun x hx => hold x (hne x hx)
  have hwalk := fun {t p} => h.inv.walk_off hoff (r := t) (p := p)
  have hforest : Forest (child m'.mem) (fun t => t = g ∨ R t) Lower :=
    h.forest.plant lower_owned htab (fun i hi => hempty i (hi.2 i rfl)) fun x j hx =>
      child_congr (congrFun (hold x hx) j)
  have hiff : ∀ x, Table m' (fun t => t = g ∨ R t) x ↔ x = g ∨ Table m R x := by
    intro x
    constructor
    · intro hx
      obtain ⟨t, p, ht, hp, hw⟩ := hx
      rcases ht with rfl | ht
      · cases p with
        | nil => exact Or.inl (Option.some.inj hw).symm
        | cons i p =>
            rw [walk_cons, hempty i (hp.2 i rfl)] at hw
            cases hw
      · rw [hwalk ht hp] at hw
        exact Or.inr ⟨t, p, ht, hp, hw⟩
    · intro hx
      rcases hx with rfl | hx
      · exact ⟨x, [], Or.inl rfl, lower_owned.nil, rfl⟩
      · obtain ⟨t, p, ht, hp, hw⟩ := hx
        exact ⟨t, p, Or.inr ht, hp, by rw [hwalk ht hp]; exact hw⟩
  obtain ⟨hbooks, hapart, htable, hdata⟩ := h.link_books hzero htab hiff
  refine ⟨hR, {
    ledger := by rw [hpmm]; exact htake.ledger
    single := htake.single
    forest := hforest
    wide := fun x hx j hj => ?_
    leaf := fun t v ht hv => ?_
    dom := fun x hx => (h.dom x hx).imp_left Or.inr
    sparse := h.sparse
    own := hbooks
    apart := hapart
    table := htable
    data := hdata
    words := fun q hq => ?_
    pages := fun q hq => ?_
    upper := fun t ht i h1 h2 => ?_ }⟩
  · rw [hmem]
    rcases (hiff x).mp hx with rfl | hx
    · rw [if_pos rfl, if_neg (by omega)]
    · rw [if_neg (hne x hx)]
      exact h.wide x hx j hj
  · show Paging.leaf m'.mem t v = leafWord (k.view (t, v / PAGE_SIZE))
    rcases ht with rfl | ht
    · have hnone : k.view (t, v / PAGE_SIZE) = none := by
        by_contra hc
        exact hR (h.dom _ hc).1
      rw [leaf_of_empty hempty hv, hnone]
      rfl
    · rw [(h.inv.off hoff).2.2.leaf t v ht hv]
      exact h.leaf t v ht hv
  · have hqg : q ≠ g := by
      rintro rfl
      exact htake.own_outside List.mem_cons_self hq
    rw [hold q hqg]
    exact h.words q hq
  · rw [hpmm]
    exact htake.pages q hq
  · rw [hmem]
    rcases ht with rfl | ht
    · rw [if_pos rfl, if_pos ⟨h1, h2⟩]
    · rw [if_neg (hne t ⟨t, [], ht, lower_owned.nil, rfl⟩)]
      exact h.upper t ht i h1 h2

/-- `ptable_create`. -/
theorem create (h : Backed maxPfn usable heap fx R k m) (hmax : maxPfn < 2 ^ 40)
    (hzero : usable 0 = false) {kernel o : Option Nat} (hk : Outside.Kernel fx kernel)
    (hc : ptableCreate Pmm.pmmAllocPage m kernel = (m', o)) :
    (o = none ∧ m' = m)
    ∨ ∃ g, o = some g ∧ ¬ R g
        ∧ Backed maxPfn usable heap fx (fun t => t = g ∨ R t) (k.link g) m' := by
  obtain ⟨ho, -, hm⟩ | ⟨pmm, -, ha, -⟩ | ⟨pmm, g, -, ha, hroot⟩ := ptableCreate_cases hc
  · exact Or.inl ⟨ho, hm⟩
  · -- frame 0 is never handed out
    have := ((h.take ha).1.mem_usable List.mem_cons_self).2
    rw [hzero] at this
    cases this
  · right
    have htake := (h.take ha).1
    have hlt : g < 2 ^ 40 := by
      have := (htake.mem_usable List.mem_cons_self).1
      omega
    obtain ⟨ho, hpmm, hmem⟩ := hroot hlt fun k' hk' => by
      rintro rfl
      exact htake.own_outside List.mem_cons_self (hk.has _ hk')
    have hentry : ∀ i, kernelEntry m kernel i = fx.upper i := by
      intro i
      rw [hk.upper i]
      unfold kernelEntry
      cases kernel with
      | none => rfl
      | some k' => exact congrFun (h.words k' (hk.has k' rfl)) i
    obtain ⟨hR, hb⟩ := h.plant ha hpmm fun f j => by
      rw [hmem f j, hentry]
    exact ⟨g, ho, hR, hb⟩

end Backed

end Alix
