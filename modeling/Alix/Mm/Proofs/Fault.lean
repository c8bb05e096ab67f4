/-
A write fault on a copy-on-write page.

The handler goes two ways. The last user of a frame takes it over, and any
other gets a frame of its own with the same words, after which the old one
has a reference less. Between the unmap and the map the page has no entry,
and the frame may have gone; but the tables stay, so the map needs no
frame and cannot fail, and a fault that is refused has touched nothing.

`Firm` is what the handler relies on. It asks for no descriptors and no
counts: the tables of all roots are in use, and so is every frame that is
mapped. `Handled` is what it does, whichever way it goes.
-/
import Alix.Mm.Proofs.Rollback

namespace Alix

open Paging
open Radix
open Dyadic (Block)
open Pmm (Ledger Usable Allocated)

variable {maxPfn : Nat} {usable : Nat → Bool} {out : List Block} {ref : Nat → Nat}
  {R : Nat → Prop} {m m' : Mach} {r va f g t u : Nat} {flags : Word}

-- ==== the invariant

/-- The pages of the lower halves that map a frame: the root and the number
of the page. -/
def mappers (m : Mach) (R : Nat → Prop) (f : Nat) : Set Spot :=
  {x | R x.1 ∧ x.2 < 2 ^ 35 ∧ frameOf (leaf m.mem x.1 (x.2 * PAGE_SIZE)) = some f}

/-- Tables and frames that can be relied on: no table is a free frame, and
no free frame is mapped. A mapped frame that is marked for copying is one
the allocator has handed out. -/
structure Firm (maxPfn : Nat) (usable : Nat → Bool) (R : Nat → Prop) (out : List Block)
    (ref : Nat → Nat) (m : Mach) : Prop where
  stock : Stock maxPfn usable R out ref m
  above : Above m R (Used maxPfn usable out)
  used : ∀ f, (mappers m R f).Nonempty → Used maxPfn usable out f
  marked : ∀ f, (mappers m R f).Nonempty → f ≤ maxPfn → (m.pmm.pages f).cow = true →
    Allocated out f

/-- The page can be given to the space for writing: its descriptor allows
it, and the frame behind it is marked. -/
structure Marked (m : Mach) (v : Vas) (va : Nat) (w : Vad) (f : Nat) : Prop where
  find : vasFind v.list va = some w
  write : hasFlag w.flags PAGE_WRITE = true
  plain : hasFlag w.flags VAD_SHARED = false
  frame : frameOf (leaf m.mem v.pml4 va) = some f
  managed : f ≤ m.pmm.maxPfn
  cow : (m.pmm.pages f).cow = true

/-- The page `va` of the root `r` has got an entry for `g`: its old frame
if that had no other user, or else a new one with the words of the old. -/
structure Handled (maxPfn : Nat) (usable : Nat → Bool) (R : Nat → Prop) (out : List Block)
    (r va f g : Nat) (flags : Word) (m m' : Mach) : Prop where
  which : (g = f ∧ (m.pmm.pages f).refcount ≤ 1) ∨ ¬ Used maxPfn usable out g
  frame : frameOf (pte (pfnPhys g) flags) = some g
  entry : ∀ t u, R t → Canonical u → leaf m'.mem t u
    = if t = r ∧ u / PAGE_SIZE = va / PAGE_SIZE then pte (pfnPhys g) flags
      else leaf m.mem t u
  words : ∀ q, Used maxPfn usable out q → ¬ Table m R q → m'.mem q = m.mem q
  copy : ¬ Table m R f → m'.mem g = m.mem f
  firm : ∃ out' ref', Firm maxPfn usable R out' ref' m'

-- ==== pages

/-- A mapped page, by an address in it. -/
theorem mappers_of_leaf (ht : R t) (hu : u < 2 ^ 47) (hf : frameOf (leaf m.mem t u) = some f) :
    (t, u / PAGE_SIZE) ∈ mappers m R f := by
  have hpage := page_lower hu
  have hsame := leaf_page m.mem t u
  rw [Nat.mod_eq_of_lt (by omega)] at hsame
  exact ⟨ht, hpage, hsame ▸ hf⟩

theorem Firm.alone (h : Firm maxPfn usable R out ref m) (hr : R r) (hv : va < 2 ^ 47) :
    Alone m.mem r va :=
  alone_of_apart h.stock.forest hr hv fun p f hne hp hw => h.above.apart r p f hr hne hp hw

theorem physToPage_some {p : Nat} (h : m.physToPage (pfnPhys f) = some p) :
    p = f ∧ f ≤ m.pmm.maxPfn := by
  have hphys : physPfn (pfnPhys f) = f := Nat.mul_div_cancel f (by decide)
  unfold Machine.physToPage at h
  rw [hphys] at h
  split at h
  · cases h
  · cases h
    exact ⟨rfl, by omega⟩

/-- A page with a frame has a last-level table. -/
theorem walk_of_frame (hf : frameOf (leaf m.mem r va) = some f) :
    ∃ pt, walk (child m.mem) r (tablePath va) = some pt
      ∧ leaf m.mem r va = m.mem pt (ptIndex va) := by
  cases hw : walk (child m.mem) r (tablePath va) with
  | none =>
      have hzero : leaf m.mem r va = 0 := by
        unfold leaf
        rw [hw]
      rw [hzero] at hf
      cases hf
  | some pt =>
      refine ⟨pt, rfl, ?_⟩
      unfold leaf
      rw [hw]

-- ==== the two ways

/-- The entry of a page is written: of the leaf words it changes this one,
and of the frames in use a table. -/
theorem Firm.store (h : Firm maxPfn usable R out ref m) (hr : R r) (hv : va < 2 ^ 47) {pt : Nat}
    (hw : walk (child m.mem) r (tablePath va) = some pt)
    (hg : Used maxPfn usable out g)
    (hmark : g ≤ maxPfn → (m.pmm.pages g).cow = true → Allocated out g)
    (hframe : frameOf (pte (pfnPhys g) flags) = some g)
    (hm : m' = m.store pt (ptIndex va) (pte (pfnPhys g) flags)) :
    Firm maxPfn usable R out ref m'
      ∧ (∀ q, ¬ Table m R q → m'.mem q = m.mem q)
      ∧ ∀ t u, R t → Canonical u → leaf m'.mem t u
        = if t = r ∧ u / PAGE_SIZE = va / PAGE_SIZE then pte (pfnPhys g) flags
          else leaf m.mem t u := by
  obtain ⟨hinv, hframed, hleaf⟩ := h.stock.inv.store_leaf (pte (pfnPhys g) flags) hr hv hw hm
  have hpmm : m'.pmm = m.pmm := by
    rw [hm]
    rfl
  have hmap : ∀ q, (mappers m' R q).Nonempty → q = g ∨ (mappers m R q).Nonempty := by
    intro q hq
    obtain ⟨x, hx, hlt, hf⟩ := hq
    have hs : PAGE_SIZE = 4096 := rfl
    rw [hleaf x.1 _ hx (by rw [hs]; omega)] at hf
    split at hf
    · rw [hframe] at hf
      exact Or.inl (Option.some.inj hf).symm
    · exact Or.inr ⟨x, hx, hlt, hf⟩
  refine ⟨⟨⟨by rw [hpmm]; exact h.stock.ledger, hinv.forest, hinv.held⟩,
    hframed.above h.stock.forest h.stock.held h.above, fun q hq => ?_, fun q hq hle hc => ?_⟩,
    fun q hq => ?_, fun t u ht hu => ?_⟩
  · rcases hmap q hq with rfl | hq
    · exact hg
    · exact h.used q hq
  · rw [hpmm] at hc
    rcases hmap q hq with rfl | hq
    · exact hmark hle hc
    · exact h.marked q hq hle hc
  · funext j
    have hqp : q ≠ pt := by
      rintro rfl
      exact hq ⟨r, _, hr, lower_tablePath hv, hw⟩
    rw [hm, Machine.store_mem, if_neg fun e => hqp e.1]
  · by_cases hlow : u < 2 ^ 47
    · exact hleaf t u ht hlow
    · have hs : PAGE_SIZE = 4096 := rfl
      rw [hframed.upper_leaf h.stock.forest h.stock.held h.above ht hu (by omega), if_neg]
      rw [hs]
      omega

/-- The allocator changes descriptors, and words of frames that nobody
uses. -/
theorem Firm.off (h : Firm maxPfn usable R out ref m) (m' : Mach) {out' : List Block}
    {ref' : Nat → Nat}
    (hl : Ledger maxPfn usable m'.pmm out' ref') (hout : ∀ b ∈ out, b ∈ out')
    (hmem : ∀ q, Used maxPfn usable out q → m'.mem q = m.mem q)
    (hcow : ∀ q, Used maxPfn usable out q → (m'.pmm.pages q).cow = true →
      (m.pmm.pages q).cow = true) :
    Firm maxPfn usable R out' ref' m'
      ∧ (∀ t q, R t → Lower q → walk (child m'.mem) t q = walk (child m.mem) t q)
      ∧ ∀ t u, R t → Canonical u → leaf m'.mem t u = leaf m.mem t u := by
  obtain ⟨hforest, hheld, hgrows⟩ := h.stock.inv.off hmem
  have hleaf : ∀ t u, R t → Canonical u → leaf m'.mem t u = leaf m.mem t u := by
    intro t u ht hu
    by_cases hlow : u < 2 ^ 47
    · exact hgrows.leaf t u ht hlow
    · exact hgrows.toFramed.upper_leaf h.stock.forest h.stock.held h.above ht hu (by omega)
  have hmap : ∀ q, (mappers m' R q).Nonempty → (mappers m R q).Nonempty := by
    intro q hq
    obtain ⟨x, hx, hlt, hf⟩ := hq
    have hs : PAGE_SIZE = 4096 := rfl
    rw [hgrows.leaf x.1 _ hx (by rw [hs]; omega)] at hf
    exact ⟨x, hx, hlt, hf⟩
  obtain ⟨hup, hap⟩ := hgrows.toFramed.above h.stock.forest h.stock.held h.above
  refine ⟨⟨⟨hl, hforest, fun q hq => (hheld q hq).mono hout⟩,
    ⟨fun t p q ht hne hp hw => (hup t p q ht hne hp hw).mono hout, hap⟩,
    fun q hq => (h.used q (hmap q hq)).mono hout, fun q hq hle hc => ?_⟩,
    fun t q ht hq => h.stock.inv.walk_off hmem ht hq, hleaf⟩
  obtain ⟨b, hb, hqb⟩ := h.marked q (hmap q hq) hle (hcow q (h.used q (hmap q hq)) hc)
  exact ⟨b, hout b hb, hqb⟩

/-- The entry for `g` is written after the frames are seen to. -/
theorem Firm.handled_store (h : Firm maxPfn usable R out ref m) (hr : R r) (hv : va < 2 ^ 47)
    {out₁ : List Block} {ref₁ : Nat → Nat} {m₁ : Mach} {pt : Nat}
    (h₁ : Firm maxPfn usable R out₁ ref₁ m₁)
    (hwalks : ∀ t q, R t → Lower q → walk (child m₁.mem) t q = walk (child m.mem) t q)
    (hleaf : ∀ t u, R t → Canonical u → leaf m₁.mem t u = leaf m.mem t u)
    (hmem : ∀ q, Used maxPfn usable out q → m₁.mem q = m.mem q)
    (hcopy : m₁.mem g = m.mem f) (hg : Allocated out₁ g)
    (hwhich : (g = f ∧ (m.pmm.pages f).refcount ≤ 1) ∨ ¬ Used maxPfn usable out g)
    (hframe : frameOf (pte (pfnPhys g) flags) = some g)
    (hw : walk (child m.mem) r (tablePath va) = some pt)
    (hm : m' = m₁.store pt (ptIndex va) (pte (pfnPhys g) flags)) :
    Handled maxPfn usable R out r va f g flags m m' := by
  rw [← hwalks r _ hr (lower_tablePath hv)] at hw
  obtain ⟨h', hwords, hleaf'⟩ := h₁.store hr hv hw (Or.inr hg) (fun _ _ => hg) hframe hm
  have htable : ∀ q, Table m₁ R q → Table m R q := by
    intro q hq
    obtain ⟨t, p, ht, hp, hwq⟩ := hq
    exact ⟨t, p, ht, hp, by rw [← hwalks t p ht hp]; exact hwq⟩
  refine ⟨hwhich, hframe, fun t u ht hu => ?_, fun q hq hno => ?_, fun hno => ?_, _, _, h'⟩
  · rw [hleaf' t u ht hu, hleaf t u ht hu]
  · rw [hwords q fun e => hno (htable q e)]
    exact hmem q hq
  · rw [hwords g fun e => ?_]
    · exact hcopy
    · rcases hwhich with ⟨rfl, -⟩ | hnew
      · exact hno (htable g e)
      · exact hnew (h.stock.held g (htable g e))

-- ==== the handler

section handler

variable (hmax : maxPfn < 2 ^ 40) (hzero : usable 0 = false)

/-- The frame of a leaf word is the one a new entry for it has. -/
theorem frameOf_again {w : Word} (hf : frameOf w = some f) (flags : Word) :
    frameOf (pte (pfnPhys f) flags) = some f := by
  rw [← reflag_pte hf, frameOf_reflag, hf]

/-- The last user of a frame takes it over. -/
theorem Firm.takesOver (h : Firm maxPfn usable R out ref m) (hr : R r) (hv : va < 2 ^ 47)
    (ha : va % PAGE_SIZE = 0) (hframe : frameOf (leaf m.mem r va) = some f) (hle : f ≤ maxPfn)
    (hcow : (m.pmm.pages f).cow = true) (hsole : (m.pmm.pages f).refcount ≤ 1) (flags : Word) :
    ∃ m', (m.modPage f (Page.clearFlag PAGE_COW)).remapPageFlags r va flags = (m', 0)
      ∧ Handled maxPfn usable R out r va f f flags m m' := by
  obtain ⟨pt, hwalk, hword⟩ := walk_of_frame hframe
  have hout := h.marked f ⟨_, mappers_of_leaf hr hv hframe⟩ hle hcow
  obtain ⟨ref', hl⟩ := h.stock.ledger.stamp hout (Pmm.harmless_clearFlag PAGE_COW) id
  obtain ⟨h₁, hwalks, hleaf⟩ := h.off (m.modPage f (Page.clearFlag PAGE_COW)) hl
    (fun b hb => hb) (fun _ _ => rfl) fun q _ hq => by
      by_cases he : q = f
      · rw [he]
        exact hcow
      · rwa [show (m.modPage f (Page.clearFlag PAGE_COW)).pmm.pages q = m.pmm.pages q from
          Pmm.modPage_pages_of_ne _ he _] at hq
  have hframe₁ : frameOf ((m.modPage f (Page.clearFlag PAGE_COW)).mem pt (ptIndex va))
      = some f := hword ▸ hframe
  refine ⟨_, remapPageFlags_store (h₁.alone hr hv) (Or.inl hv) ha flags hwalk hframe₁, ?_⟩
  rw [reflag_pte hframe₁]
  exact h.handled_store hr hv h₁ hwalks hleaf (fun _ _ => rfl) rfl hout (Or.inl ⟨rfl, hsole⟩)
    (frameOf_again hframe flags) hwalk rfl

include hmax hzero

/-- Any other gets a copy, and the frame has a reference less between the
unmap and the map. -/
theorem Firm.copies (h : Firm maxPfn usable R out ref m) (hr : R r) (hv : va < 2 ^ 47)
    (ha : va % PAGE_SIZE = 0) (hframe : frameOf (leaf m.mem r va) = some f) (hle : f ≤ maxPfn)
    (hcow : (m.pmm.pages f).cow = true) (hmore : 1 < (m.pmm.pages f).refcount) (flags : Word)
    {pmm : Pmm} (hal : m.pmm.pmmAllocPage = some (pmm, g)) :
    ∃ m₁ m', (pagingUnmapPage Pmm.pmmAllocPage (Machine.copyFrame { m with pmm } g f) (some r)
        va).free f = .ok m₁
      ∧ pagingMapPage Pmm.pmmAllocPage m₁ (some r) va (pfnPhys g) flags = (m', 0)
      ∧ Handled maxPfn usable R out r va f g flags m m' := by
  obtain ⟨pt, hwalk, -⟩ := walk_of_frame hframe
  have hout := h.marked f ⟨_, mappers_of_leaf hr hv hframe⟩ hle hcow
  obtain ⟨hl, hu, hfree, -, hdata⟩ := h.stock.ledger.alloc_fresh hal
  have hcount : (pmm.pages f).refcount = (m.pmm.pages f).refcount :=
    (Page.data_eq_iff.mp (hdata f (Or.inr hout))).1
  obtain ⟨b, hb, hfb⟩ := hout
  obtain ⟨hdrop, ref', hl'⟩ := hl.free_more ⟨b, List.mem_cons_of_mem _ hb, hfb⟩
    (by rw [hcount]; exact hmore)
  have hflags : ∀ q, ((pmm.pageRefDec f).pages q).flags = (pmm.pages q).flags := by
    intro q
    unfold Pmm.pageRefDec
    by_cases he : q = f
    · rw [he, Pmm.modPage_pages_self]
    · rw [Pmm.modPage_pages_of_ne pmm he]
  have hmem : ∀ q, Used maxPfn usable out q →
      (Machine.copyFrame { m with pmm } g f).mem q = m.mem q := fun q hq =>
    Function.update_of_ne (by rintro rfl; exact hfree hq) _ _
  obtain ⟨h₁, hwalks, hleaf⟩ := h.off
    (Machine.copyFrame { m with pmm := pmm.pageRefDec f } g f) hl'
    (fun b hb => List.mem_cons_of_mem _ hb) hmem fun q hq hc => by
      have hsame := (hflags q).trans (Page.data_eq_iff.mp (hdata q hq)).2.2.1
      unfold Page.cow at hc ⊢
      rwa [show ((Machine.copyFrame { m with pmm := pmm.pageRefDec f } g f).pmm.pages q).flags
        = (m.pmm.pages q).flags from hsame] at hc
  have halone : Alone (Machine.copyFrame { m with pmm } g f).mem r va := h₁.alone hr hv
  have hwalk₁ : walk (child (Machine.copyFrame { m with pmm } g f).mem) r (tablePath va)
      = some pt := (hwalks r _ hr (lower_tablePath hv)).trans hwalk
  have hun := (rewrites_unmap halone (Or.inl hv) ha).2
  have hpos : g ≠ 0 := by
    rintro rfl
    have hu0 : usable 0 = true := hu.2
    rw [hzero] at hu0
    cases hu0
  have hlt : g < 2 ^ 40 := by
    have := hu.1
    omega
  refine ⟨_, _, ?_, unmap_map_store halone (Or.inl hv) ha (pfnPhys_mod g) flags
    (pmm.pageRefDec f) hwalk₁, ?_⟩
  · unfold Machine.free
    rw [hun, show (Machine.copyFrame { m with pmm } g f).pmm.pmmFree (some f)
      = .ok (pmm.pageRefDec f) from hdrop]
  · exact h.handled_store hr hv h₁ hwalks hleaf hmem (Function.update_self _ _ _)
      ⟨⟨g, 0⟩, List.mem_cons_self, Block.base_mem ⟨g, 0⟩⟩ (Or.inr hfree)
      (frameOf_pte flags hpos hlt) hwalk rfl

/-- `vas_handle_page_fault`: a refusal that touches nothing, or a page that
is marked and handled. -/
theorem Firm.handled (h : Firm maxPfn usable R out ref m) {v : Vas} (hr : R v.pml4)
    (hlow : ∀ w ∈ v.list, w.stop ≤ 2 ^ 47) (addr : Nat) (err : Word) :
    m.vasHandlePageFault v addr err = .ok (m, -1)
    ∨ ∃ m' w f g, m.vasHandlePageFault v addr err = .ok (m', 0)
      ∧ Marked m v (pageAlignDown addr) w f
      ∧ Handled maxPfn usable R out v.pml4 (pageAlignDown addr) f g
        (w.flags &&& VAD_PROT_MASK) m m' := by
  have ha : pageAlignDown addr % PAGE_SIZE = 0 := Nat.mul_mod_left _ _
  generalize hcall : m.vasHandlePageFault v addr err = res
  unfold Machine.vasHandlePageFault at hcall
  simp only at hcall
  generalize pageAlignDown addr = va at ha hcall
  cases hfind : vasFind v.list va with
  | none =>
      rw [hfind] at hcall
      exact Or.inl hcall.symm
  | some w =>
  obtain ⟨hw, hle, hlt⟩ := vasFind_some hfind
  have hv : va < 2 ^ 47 := by
    have := hlow w hw
    omega
  rw [hfind] at hcall
  simp only at hcall
  split at hcall
  · exact Or.inl hcall.symm
  split at hcall
  · exact Or.inl hcall.symm
  rename_i hwrite
  rw [Bool.or_eq_true, not_or, Bool.not_eq_true', Bool.not_eq_false, Bool.not_eq_true] at hwrite
  rw [virtToPhys_page m v.pml4 ha] at hcall
  cases hframe : frameOf (leaf m.mem v.pml4 va) with
  | none =>
      simp only [hframe, if_true] at hcall
      exact Or.inl hcall.symm
  | some f =>
  have hphys : physPfn (pfnPhys f) = f := Nat.mul_div_cancel f (by decide)
  simp only [hframe, if_neg (frameOf_some hframe).2, pageAlignDown_pfnPhys, hphys] at hcall
  cases hpage : m.physToPage (pfnPhys f) with
  | none =>
      rw [hpage] at hcall
      exact Or.inl hcall.symm
  | some page =>
  obtain ⟨rfl, hmanaged⟩ := physToPage_some hpage
  rw [hpage] at hcall
  simp only at hcall
  split at hcall
  · exact Or.inl hcall.symm
  rename_i hcow
  rw [Bool.not_eq_true', Bool.not_eq_false] at hcow
  have hmark : Marked m v va w page :=
    ⟨hfind, hwrite.1, hwrite.2, hframe, hmanaged, hcow⟩
  rw [(h.stock.ledger.bound : m.pmm.maxPfn = maxPfn)] at hmanaged
  split at hcall
  · rename_i hsole
    obtain ⟨m', hre, hdone⟩ := h.takesOver hr hv ha hframe hmanaged hcow hsole
      (w.flags &&& VAD_PROT_MASK)
    rw [hre] at hcall
    exact Or.inr ⟨m', w, page, page, hcall.symm, hmark, hdone⟩
  · rename_i hmore
    cases hal : m.pmm.pmmAllocPage with
    | none =>
        rw [hal] at hcall
        exact Or.inl hcall.symm
    | some res =>
    obtain ⟨pmm, p⟩ := res
    obtain ⟨m₁, m', hfree, hmap, hdone⟩ := h.copies hmax hzero hr hv ha hframe hmanaged hcow
      (by omega) (w.flags &&& VAD_PROT_MASK) hal
    rw [hal] at hcall
    simp only [hfree, hmap, ne_eq, not_true_eq_false, if_false] at hcall
    exact Or.inr ⟨m', w, page, p, hcall.symm, hmark, hdone⟩

end handler

-- ==== the statement

/-- The words that a page shows. -/
def seen (m : Mach) (t u : Nat) : Option (Nat → Word) :=
  (frameOf (leaf m.mem t u)).map m.mem

/-- Mapped frames hold data, and one that is marked has a reference for
each page that maps it. -/
structure Counts (R : Nat → Prop) (m : Mach) : Prop where
  data : ∀ f, (mappers m R f).Nonempty → ¬ Table m R f
  count : ∀ f, (mappers m R f).Nonempty → f ≤ m.pmm.maxPfn → (m.pmm.pages f).cow = true →
    (mappers m R f).Finite ∧ (m.pmm.pages f).refcount = (mappers m R f).ncard

/-- The page of `addr` in the root `r` has the flags `prot` and a frame to
itself, and nobody can tell from the words or from any other page. -/
structure Resolved (R : Nat → Prop) (r addr : Nat) (prot : Word) (m m' : Mach) : Prop where
  own : ∃ g, mappers m' R g = {(r, addr / PAGE_SIZE)}
    ∧ ∀ x, x / PAGE_SIZE = addr / PAGE_SIZE →
      pagingVirtToPhys Pmm.pmmAllocPage m' (some r) x = pfnPhys g + x % PAGE_SIZE
      ∧ pagingGetFlags Pmm.pmmAllocPage m' (some r) x
        = PAGE_PRESENT ||| (prot &&& PTE_FLAGS)
  words : ∀ t x, R t → x < 2 ^ 47 → seen m' t x = seen m t x
  others : ∀ t x, R t → Canonical x → (t = r → x / PAGE_SIZE ≠ addr / PAGE_SIZE) →
    pagingVirtToPhys Pmm.pmmAllocPage m' (some t) x
        = pagingVirtToPhys Pmm.pmmAllocPage m (some t) x
      ∧ pagingGetFlags Pmm.pmmAllocPage m' (some t) x
        = pagingGetFlags Pmm.pmmAllocPage m (some t) x

/-- Addresses of one page have one leaf word. -/
theorem leaf_same {x y : Nat} (mem : Nat → Nat → Word) (t : Nat)
    (h : x / PAGE_SIZE = y / PAGE_SIZE) : leaf mem t x = leaf mem t y := by
  rw [leaf_page, h, ← leaf_page]

theorem pageAlignDown_page (addr : Nat) : pageAlignDown addr / PAGE_SIZE = addr / PAGE_SIZE :=
  Nat.mul_div_cancel _ (by decide)

/-- Nobody else maps the frame that the page got. -/
theorem Handled.sole (h : Firm maxPfn usable R out ref m) (hc : Counts R m)
    (hd : Handled maxPfn usable R out r va f g flags m m') (hr : R r) (hv : va < 2 ^ 47)
    (hframe : frameOf (leaf m.mem r va) = some f) (hle : f ≤ m.pmm.maxPfn)
    (hcow : (m.pmm.pages f).cow = true) : mappers m' R g = {(r, va / PAGE_SIZE)} := by
  have hs : PAGE_SIZE = 4096 := rfl
  have hback : ∀ n, n * PAGE_SIZE / PAGE_SIZE = n := fun n => Nat.mul_div_cancel n (by decide)
  have hlow := page_lower hv
  have hcanon : ∀ n, n < 2 ^ 35 → Canonical (n * PAGE_SIZE) := fun n hn =>
    Or.inl (by rw [hs]; omega)
  have hmem := mappers_of_leaf hr hv hframe
  ext ⟨t, n⟩
  rw [Set.mem_singleton_iff]
  constructor
  · rintro ⟨ht, hn, hf⟩
    by_contra hne
    have hother : ¬ (t = r ∧ n * PAGE_SIZE / PAGE_SIZE = va / PAGE_SIZE) := fun e =>
      hne (Prod.ext e.1 ((hback n).symm.trans e.2))
    rw [hd.entry t _ ht (hcanon n hn), if_neg hother] at hf
    have hin : (t, n) ∈ mappers m R g := ⟨ht, hn, hf⟩
    rcases hd.which with ⟨rfl, hsole⟩ | hnew
    · -- two pages and one reference
      obtain ⟨hfin, hcount⟩ := hc.count g ⟨_, hmem⟩ hle hcow
      have := (Set.one_lt_ncard_iff hfin).mpr ⟨_, _, hin, hmem, hne⟩
      omega
    · exact hnew (h.used g ⟨_, hin⟩)
  · intro e
    obtain ⟨rfl, rfl⟩ := Prod.mk.inj e
    refine ⟨hr, hlow, ?_⟩
    show frameOf (leaf m'.mem t (va / PAGE_SIZE * PAGE_SIZE)) = some g
    rw [hd.entry t _ hr (hcanon _ hlow), if_pos ⟨rfl, hback _⟩]
    exact hd.frame

/-- The words that the pages show are the same. -/
theorem Handled.shows (h : Firm maxPfn usable R out ref m) (hc : Counts R m)
    (hd : Handled maxPfn usable R out r va f g flags m m') (hr : R r) (hv : va < 2 ^ 47)
    (hframe : frameOf (leaf m.mem r va) = some f) {t x : Nat} (ht : R t) (hx : x < 2 ^ 47) :
    seen m' t x = seen m t x := by
  unfold seen
  rw [hd.entry t x ht (Or.inl hx)]
  split
  · rename_i he
    obtain ⟨rfl, hpage⟩ := he
    rw [leaf_same m.mem t hpage, hframe, hd.frame]
    exact congrArg some (hd.copy (hc.data f ⟨_, mappers_of_leaf hr hv hframe⟩))
  · cases hq : frameOf (leaf m.mem t x) with
    | none => rfl
    | some q =>
        have hmem : (mappers m R q).Nonempty := ⟨_, mappers_of_leaf ht hx hq⟩
        exact congrArg some (hd.words q (h.used q hmem) (hc.data q hmem))

/-- A fault is resolved, or the machine is as it was. -/
theorem vasHandlePageFault_resolved (hmax : maxPfn < 2 ^ 40) (hzero : usable 0 = false)
    (h : Firm maxPfn usable R out ref m) (hc : Counts R m) {v : Vas} (hr : R v.pml4)
    (hlow : ∀ w ∈ v.list, w.stop ≤ 2 ^ 47) (addr : Nat) (err : Word) :
    (∃ m' w, m.vasHandlePageFault v addr err = .ok (m', 0)
      ∧ vasFind v.list (pageAlignDown addr) = some w ∧ hasFlag w.flags PAGE_WRITE = true
      ∧ Resolved R v.pml4 addr (w.flags &&& VAD_PROT_MASK) m m')
    ∨ m.vasHandlePageFault v addr err = .ok (m, -1) := by
  rcases h.handled hmax hzero hr hlow addr err with hrefused | ⟨m', w, f, g, hcall, hm, hd⟩
  · exact Or.inr hrefused
  have hpage := pageAlignDown_page addr
  obtain ⟨hw, -, hlt⟩ := vasFind_some hm.find
  have hv : pageAlignDown addr < 2 ^ 47 := by
    have := hlow w hw
    omega
  refine Or.inl ⟨m', w, hcall, hm.find, hm.write, ⟨g, ?_, fun x hx => ?_⟩, fun t x ht hx => ?_,
    fun t x ht hx hne => ?_⟩
  · rw [hd.sole h hc hr hv hm.frame hm.managed hm.cow, hpage]
  · have hword : leaf m'.mem v.pml4 x = pte (pfnPhys g) (w.flags &&& VAD_PROT_MASK) := by
      rw [leaf_same m'.mem v.pml4 (hx.trans hpage.symm), hd.entry _ _ hr (Or.inl hv),
        if_pos ⟨rfl, rfl⟩]
    rw [pagingVirtToPhys_eq, pagingGetFlags_eq, hword, if_pos (pte_present _ _),
      if_pos (pte_present _ _), (frameOf_some hd.frame).1, pte_flags]
    exact ⟨rfl, rfl⟩
  · exact hd.shows h hc hr hv hm.frame ht hx
  · have hword : leaf m'.mem t x = leaf m.mem t x := by
      rw [hd.entry t x ht hx, if_neg]
      rw [hpage]
      exact fun e => hne e.1 e.2
    exact ⟨virtToPhys_congr hword, getFlags_congr hword⟩

-- ==== the runs

namespace Vm

section runs

variable {blocks : List Block} {fx : Outside} {Q : Word → Prop} {s s₀ : Vm} {V : View}

/-- The pages that map a frame are those of the view. -/
theorem Spaces.mappers_eq (hmax : maxPfn < 2 ^ 40) (hzero : usable 0 = false)
    (h : Spaces maxPfn usable fx Q s V) (f : Nat) :
    mappers s.mach s.Roots f = {x | V.frames x = some f} := by
  have hs : PAGE_SIZE = 4096 := rfl
  obtain ⟨k, hk, rfl, -⟩ := h.settled
  have hleaf : ∀ x : Spot, s.Roots x.1 → x.2 < 2 ^ 35 →
      frameOf (leaf s.mach.mem x.1 (x.2 * PAGE_SIZE)) = k.view.frames x := by
    intro x hr hlt
    rw [hk.leaf x.1 _ hr (by rw [hs]; omega), Nat.mul_div_cancel _ (by decide)]
    exact Option.ext fun f => frameOf_leafWord hmax hzero hk
  ext x
  constructor
  · rintro ⟨hr, hlt, hf⟩
    rw [hleaf x hr hlt] at hf
    exact hf
  · intro hf
    have hf : k.view.frames x = some f := hf
    obtain ⟨hr, hlt⟩ := hk.dom x fun hnone => by
      rw [View.frames_none hnone] at hf
      cases hf
    exact ⟨hr, hlt, (hleaf x hr hlt).trans hf⟩

/-- In a state of a run the tables and the frames can be relied on, and the
counts are right. -/
theorem Spaces.firm (hmax : maxPfn < 2 ^ 40) (hzero : usable 0 = false)
    (h : Spaces maxPfn usable (s₀.outside blocks) Q s V) (h₀ : Ready maxPfn usable blocks s₀) :
    (∃ rest ref, Firm maxPfn usable s.Roots (s.heap ++ rest) ref s.mach)
      ∧ Counts s.Roots s.mach := by
  obtain ⟨k, hk, hview, -⟩ := h.settled
  have hframes := h.mappers_eq hmax hzero
  have hentry : ∀ f, (mappers s.mach s.Roots f).Nonempty → ∃ x fl, V x = some (f, fl) := by
    intro f hf
    rw [hframes] at hf
    obtain ⟨x, hx⟩ := hf
    obtain ⟨⟨g, fl⟩, he, hg⟩ := Option.map_eq_some_iff.mp (show (V x).map Prod.fst = some f from hx)
    have hg : g = f := hg
    exact ⟨x, fl, by rw [he, hg]⟩
  have hown : ∀ f, (mappers s.mach s.Roots f).Nonempty → ⟨f, 0⟩ ∈ k.own := by
    intro f hf
    obtain ⟨x, fl, hx⟩ := hentry f hf
    rw [← hview] at hx
    exact hk.used_own (hk.entry_used hx)
  have hin : ∀ {f}, ⟨f, 0⟩ ∈ k.own → Allocated (s.heap ++ (blocks ++ k.own)) f := fun hf =>
    ⟨_, List.mem_append_right _ (List.mem_append_right _ hf), Block.base_mem ⟨_, 0⟩⟩
  refine ⟨⟨blocks ++ k.own, k.ref, ⟨hk.ledger, hk.forest, fun f hf => ?_⟩,
    ⟨fun t p f ht hne hp hw => ?_, fun t p f ht hne hp hw => ?_⟩, fun f hf => ?_,
    fun f hf _ _ => ?_⟩, fun f hf htable => ?_, fun f hf _ _ => ?_⟩
  · exact Or.inr (hin (hk.table_own hf))
  · obtain ⟨⟨b, hb, hfb⟩, -⟩ := h.upper_apart h₀ ht hne hp hw
    exact Or.inr ⟨b, List.mem_append_right _ (List.mem_append_left _ hb), hfb⟩
  · exact (h.upper_apart h₀ ht hne hp hw).2
  · exact Or.inr (hin (hown f hf))
  · exact hin (hown f hf)
  · obtain ⟨x, fl, hx⟩ := hentry f hf
    rw [← hview] at hx
    have := hk.entry_used hx
    have := hk.apart f htable
    omega
  · obtain ⟨x, fl, hx⟩ := hentry f hf
    rw [hframes f]
    exact ⟨h.settled.sparse.pointing f, (h.settled.refcount hx).1⟩

end runs

/-- A clone, and a write to the page that the two spaces share. -/
theorem vasHandlePageFault_clone : ∃ (s : Vm) (v : Vas) (m' : Mach) (w : Vad),
    Reachable UserCall bootVm s ∧ s.spaces 0 = some v
    ∧ s.mach.vasHandlePageFault v 0x5123 0x3 = .ok (m', 0)
    ∧ Resolved s.Roots v.pml4 0x5123 (w.flags &&& VAD_PROT_MASK) s.mach m' := by
  have hplay : (play UserCall bootVm [(fair, .create none),
      (fair, .mapAnon 0 0x5000 0x1000 PAGE_WRITE), (fair, .clone 0)]).bind (fun s =>
      (s.spaces 0).map fun v => (v.list.all (fun w => w.stop ≤ 2 ^ 47),
        (s.mach.vasHandlePageFault v 0x5123 0x3).toOption.map Prod.snd))
      = some (true, some 0) := by
    decide +kernel
  obtain ⟨s, hrun, heq⟩ := Option.bind_eq_some_iff.mp hplay
  obtain ⟨v, hv, heq⟩ := Option.map_eq_some_iff.mp heq
  obtain ⟨hall, hrc⟩ := Prod.mk.inj heq
  have hreach := reachable_play .init hrun
  obtain ⟨V, hs, -⟩ := bootVm_ready.reachable (by decide) rfl hreach
  obtain ⟨⟨rest, ref, hfirm⟩, hcounts⟩ := hs.firm (by decide) rfl bootVm_ready
  rcases vasHandlePageFault_resolved (by decide) rfl hfirm hcounts (Spaces.root hv)
    (fun w hw => by simpa using List.all_eq_true.mp hall w hw) 0x5123 0x3 with
    ⟨m', w, hcall, -, -, hres⟩ | hrefused
  · exact ⟨s, v, m', w, hreach, hv, hcall, hres⟩
  · rw [hrefused] at hrc
    cases hrc

end Vm

end Alix
