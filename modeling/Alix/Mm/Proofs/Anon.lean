/-
`vas_map_anon`, all or nothing.

# What can go wrong

The call returns the base of the new range, and 0 for every failure. With
`VAD_FIXED` and a hint in page 0 the base is 0: nothing keeps a range from
there, neither `vas_overlaps` nor the bound on the end, and the range is
mapped like any other. The caller reads a failure and finds the space
changed.

# What holds

The call does not panic. Where it does not grant page 0, it returns a base
exactly when the descriptor is in the list and every page of it has a
cleared frame of its own, and after a 0 nobody can tell: the spaces, the
translations of every root and the descriptor of every frame in use are as
they were, and a free frame is free, or a table, or the heap's. Whether
page 0 is granted can be read off the state: the heap serves the
descriptor, and there are frames for the pages and for the tables that
are missing on the way to them (`vasMapAnon_iff`).
-/
import Alix.Mm.Proofs.Rollback

namespace Alix

open Paging
open Radix
open Dyadic (Block)
open Pmm (Ledger Usable Allocated)

namespace Vm

variable {maxPfn : Nat} {usable : Nat → Bool} {R : Nat → Prop} {s s' s₀ : Vm} {v : Vas}
  {rest blocks : List Block} {ref : Nat → Nat} {a hint length base : Nat} {flags : Word}

-- ==== the statement

/-- A space whose descriptors and tables can be relied on: the tables of
the roots `R` are in use and a forest, and nothing is mapped outside the
descriptors. -/
structure Sound (maxPfn : Nat) (usable : Nat → Bool) (R : Nat → Prop) (s : Vm) (v : Vas)
    (rest : List Block) (ref : Nat → Nat) : Prop where
  root : R v.pml4
  list : VadsOk v.list
  holds : Holds maxPfn usable s rest ref
  forest : Forest (child s.mach.mem) R Lower
  tables : ∀ f, Table s.mach R f → Used maxPfn usable rest f
  above : Above s.mach R (Used maxPfn usable rest)
  bare : ∀ x, x < 2 ^ 47 → ¬ Covers v.list x →
    hasFlag (leaf s.mach.mem v.pml4 x) PAGE_PRESENT = false

/-- The translations of an address agree. -/
def SameEntry (s s' : Vm) (r x : Nat) : Prop :=
  pagingVirtToPhys Pmm.pmmAllocPage s'.mach (some r) x
      = pagingVirtToPhys Pmm.pmmAllocPage s.mach (some r) x
    ∧ pagingGetFlags Pmm.pmmAllocPage s'.mach (some r) x
      = pagingGetFlags Pmm.pmmAllocPage s.mach (some r) x

/-- The range is there: its descriptor, and behind each page a frame of its
own, which was nobody's and is cleared. -/
structure Granted (maxPfn : Nat) (usable : Nat → Bool) (R : Nat → Prop) (s s' : Vm) (a : Nat)
    (v : Vas) (rest : List Block) (base length : Nat) (flags : Word) : Prop where
  low : VAS_USER_START ≤ base
  high : base + length ≤ VAS_USER_END
  space : s'.spaces a = some ⟨v.pml4, vadInsert ⟨base, base + length,
    flags ||| VAD_ANONYMOUS ||| VAD_MAPPED⟩ v.list, base + length⟩
  others : ∀ b, b ≠ a → s'.spaces b = s.spaces b
  frames : ∃ F : Nat → Nat,
    (∀ x y, base ≤ x → x < base + length → base ≤ y → y < base + length →
      F (x / PAGE_SIZE) = F (y / PAGE_SIZE) → x / PAGE_SIZE = y / PAGE_SIZE)
    ∧ ∀ x, base ≤ x → x < base + length →
      pagingVirtToPhys Pmm.pmmAllocPage s'.mach (some v.pml4) x
          = pfnPhys (F (x / PAGE_SIZE)) + x % PAGE_SIZE
      ∧ pagingGetFlags Pmm.pmmAllocPage s'.mach (some v.pml4) x
          = PAGE_PRESENT ||| (flags &&& VAD_PROT_MASK &&& PTE_FLAGS)
      ∧ F (x / PAGE_SIZE) ≠ 0 ∧ ¬ Used maxPfn usable rest (F (x / PAGE_SIZE))
      ∧ (s'.mach.pmm.pages (F (x / PAGE_SIZE))).refcount = 1
      ∧ ∀ j, s'.mach.mem (F (x / PAGE_SIZE)) j = 0
  kept : ∀ t x, R t → Canonical x → (t = v.pml4 → ¬ (base ≤ x ∧ x < base + length)) →
    SameEntry s s' t x

/-- Nothing is there that was not: only tables and blocks of the heap may
be new. -/
structure Unchanged (maxPfn : Nat) (usable : Nat → Bool) (R : Nat → Prop) (s s' : Vm)
    (rest : List Block) : Prop where
  spaces : s'.spaces = s.spaces
  entries : ∀ t x, R t → Canonical x → SameEntry s s' t x
  pages : ∀ q, Used maxPfn usable rest q →
    (s'.mach.pmm.pages q).data = (s.mach.pmm.pages q).data
  free : ∀ q, s.Free q → s'.Free q ∨ Allocated s'.heap q ∨ Table s'.mach R q

/-- There are frames for these pages, and for the tables that are missing
on the way to them. -/
def Affords (m : Mach) (r : Nat) (vas : List Nat) : Prop :=
  vas.length + gaps m r (vas.flatMap tablePaths) ≤ (Pmm.freeFrames m.pmm).ncard

/-- Page 0 is asked for, it is there to be had, and nothing runs out. -/
def ZeroGranted (s : Vm) (v : Vas) (hint length : Nat) (flags : Word) : Prop :=
  hasFlag flags VAD_FIXED = true ∧ hint < PAGE_SIZE ∧ pageAlignUp length ≤ VAS_USER_END
    ∧ ¬ Meets v.list 0 (pageAlignUp length) ∧ s.kzalloc.2 = true
    ∧ Affords s.kzalloc.1.mach v.pml4 (pages 0 (pageAlignUp length))

-- ==== the place

/-- Only `VAD_FIXED` finds a place at 0. -/
theorem placement_base (hplace : placement v hint length flags = some base) :
    base = 0 ↔ hasFlag flags VAD_FIXED = true ∧ hint < PAGE_SIZE := by
  have hs : PAGE_SIZE = 4096 := rfl
  rcases placement_cases hplace with ⟨hfixed, rfl, -, -, -⟩ | ⟨hfree, hne, -⟩
  · have hdown : pageAlignDown hint = hint / 4096 * 4096 := rfl
    rw [hdown, hs]
    constructor
    · exact fun he => ⟨hfixed, by omega⟩
    · intro he
      have := he.2
      omega
  · exact ⟨fun he => (hne he).elim, fun he => (hfree he.1).elim⟩

/-- Page 0 is refused only for what is in the way. -/
theorem placement_refused (hok : VadsOk v.list) (hfixed : hasFlag flags VAD_FIXED = true)
    (hhint : hint < PAGE_SIZE) (hend : length ≤ VAS_USER_END) (hfree : ¬ Meets v.list 0 length) :
    placement v hint length flags = some 0 := by
  have hs : PAGE_SIZE = 4096 := rfl
  have hu : VAS_USER_END = 0x00007FFFFFFFFFFF := rfl
  have hdown : pageAlignDown hint = 0 := by
    show hint / 4096 * 4096 = 0
    omega
  have hstop : (0 + length) % 2 ^ 64 = length := by omega
  have hover : vasOverlaps v.list 0 length ≠ true := fun h => hfree (hok.overlaps.mp h)
  unfold placement
  rw [if_pos hfixed]
  simp only [hdown, hstop]
  rw [if_neg (by omega), if_neg hover]

-- ==== the accounts

theorem sameEntry_of_leaf {r x : Nat} (h : leaf s'.mach.mem r x = leaf s.mach.mem r x) :
    SameEntry s s' r x :=
  ⟨virtToPhys_congr h, getFlags_congr h⟩

/-- An entry that is not present reads like none. -/
theorem sameEntry_of_bare {r x : Nat}
    (h : hasFlag (leaf s.mach.mem r x) PAGE_PRESENT = false)
    (h' : leaf s'.mach.mem r x = 0) : SameEntry s s' r x := by
  have hzero : hasFlag (0 : Word) PAGE_PRESENT = false := by decide
  unfold SameEntry
  rw [pagingVirtToPhys_eq, pagingVirtToPhys_eq, pagingGetFlags_eq, pagingGetFlags_eq, h, h', hzero]
  simp

/-- The heap works, and the memory is as it was. -/
theorem Sound.heap (h : Sound maxPfn usable R s v rest ref) (hr : HeapRun s s') :
    s'.mach.mem = s.mach.mem
      ∧ (∃ ref', Stock maxPfn usable R (s'.heap ++ rest) ref' s'.mach
        ∧ Holds maxPfn usable s' rest ref' ∧ ∀ b ∈ rest, ref' b.base = ref b.base)
      ∧ ∀ q, Used maxPfn usable rest q →
        (s'.mach.pmm.pages q).data = (s.mach.pmm.pages q).data := by
  obtain ⟨hmem, ref', hholds, hspare⟩ := hr.ledger h.holds
  refine ⟨hmem, ⟨ref', ⟨hholds.ledger, ?_, fun f hf => ?_⟩, hholds, hspare.ref⟩, fun q hq => ?_⟩
  · rw [hmem]
    exact h.forest
  · unfold Table at hf
    rw [hmem] at hf
    exact (h.tables f hf).append s'.heap
  · rcases hq with hno | ⟨b, hb, hqb⟩
    · exact hr.outside h.holds hno
    · exact hspare.data b hb q hqb

theorem Sound.above_heap (h : Sound maxPfn usable R s v rest ref) (hr : HeapRun s s') :
    Above s'.mach R (Used maxPfn usable (s'.heap ++ rest)) := by
  refine ⟨fun t p f ht hne hp hw => ?_, fun t p f ht hne hp hw => ?_⟩
  · rw [hr.mem] at hw
    exact (h.above.used t p f ht hne hp hw).append s'.heap
  · unfold Table
    rw [hr.mem] at hw ⊢
    exact h.above.apart t p f ht hne hp hw

/-- What was free is not the caller's, so it is what the ledger says. -/
theorem Sound.free (h : Sound maxPfn usable R s v rest ref) {tabs : List Block} {ref' : Nat → Nat}
    (hl : Ledger maxPfn usable s'.mach.pmm (s'.heap ++ (tabs ++ rest)) ref')
    (htabs : ∀ b ∈ tabs, b.order = 0 ∧ Table s'.mach R b.base) {q : Nat} (hq : s.Free q) :
    s'.Free q ∨ Allocated s'.heap q ∨ Table s'.mach R q := by
  obtain ⟨hu, hnot⟩ := (h.holds.ledger.free_iff q).mp hq
  by_cases hout : Allocated (s'.heap ++ (tabs ++ rest)) q
  · obtain ⟨b, hb, hqb⟩ := hout
    rcases List.mem_append.mp hb with hb | hb
    · exact Or.inr (Or.inl ⟨b, hb, hqb⟩)
    rcases List.mem_append.mp hb with hb | hb
    · obtain ⟨hord, htable⟩ := htabs b hb
      have hqbase : q = b.base := by
        rw [Block.mem_def, hord] at hqb
        omega
      rw [hqbase]
      exact Or.inr (Or.inr htable)
    · exact (hnot ⟨b, List.mem_append_right _ hb, hqb⟩).elim
  · exact Or.inl ((hl.free_iff q).mpr ⟨hu, hout⟩)

/-- A call that only used the heap. -/
theorem Sound.unchanged (h : Sound maxPfn usable R s v rest ref) (hr : HeapRun s s') :
    Unchanged maxPfn usable R s s' rest := by
  obtain ⟨hmem, ⟨ref', hstock, -, -⟩, hpages⟩ := h.heap hr
  have hnone : ∀ b ∈ ([] : List Block), b.order = 0 ∧ Table s'.mach R b.base :=
    fun b hb => (by cases hb)
  exact ⟨hr.spaces.1, fun t x _ _ => sameEntry_of_leaf (by rw [hmem]), hpages,
    fun q hq => h.free hstock.ledger hnone hq⟩

/-- The loop of `commit_anon` on the pages of a place. -/
theorem Sound.commit (hmax : maxPfn < 2 ^ 40) (hzero : usable 0 = false)
    (h : Sound maxPfn usable R s v rest ref) (hr : HeapRun s s') {stop : Nat}
    (halign : base % PAGE_SIZE = 0) (hend : stop ≤ VAS_USER_END) (hfree : ¬ Meets v.list base stop)
    (flags : Word) :
    ∃ ref₁ m' rc F tabs datas ref', Stock maxPfn usable R (s'.heap ++ rest) ref₁ s'.mach
      ∧ (∀ b ∈ s'.heap, ref₁ b.base = 1) ∧ (∀ b ∈ rest, ref₁ b.base = ref b.base)
      ∧ Machine.commitPages v.pml4 flags (pages base stop) s'.mach = .ok (m', rc)
      ∧ Committed maxPfn usable R v.pml4 flags (s'.heap ++ rest) ref₁ (pages base stop) F tabs
        datas ref' s'.mach m'
      ∧ (∀ u, u < 2 ^ 47 → Pages (pages base stop) (u / PAGE_SIZE) →
        hasFlag (leaf s'.mach.mem v.pml4 u) PAGE_PRESENT = false)
      ∧ ((rc = 0 ∧ (∀ n, Pages (pages base stop) n → F n ≠ none)
          ∧ Affords s'.mach v.pml4 (pages base stop))
        ∨ (rc = -1 ∧ ¬ Affords s'.mach v.pml4 (pages base stop))) := by
  have hu : VAS_USER_END = 0x00007FFFFFFFFFFF := rfl
  obtain ⟨hmem, ⟨ref₁, hstock, hholds, href⟩, -⟩ := h.heap hr
  obtain ⟨m', rc, F, tabs, datas, ref', hrun, hcommit, hends⟩ :=
    hstock.commitPages flags hmax hzero h.root
      (lowerPages_pages halign (show stop ≤ 2 ^ 47 by omega)) (pages_distinct halign)
  refine ⟨ref₁, m', rc, F, tabs, datas, ref', hstock, hholds.single, href, hrun, hcommit,
    fun u hlt hpage => ?_, ?_⟩
  · rw [hmem]
    refine h.bare u hlt fun hcov => ?_
    rw [pages_iff halign] at hpage
    obtain ⟨x, hx, hx1, hx2⟩ := h.list.covers_page.mpr hcov
    exact hfree ⟨x, hx, by omega, by omega⟩
  · obtain ⟨hrc, hall, paid⟩ | ⟨hrc, short⟩ := hends
    · refine Or.inl ⟨hrc, hall, ?_⟩
      have := paid.cost
      unfold Affords
      omega
    · exact Or.inr ⟨hrc, Nat.not_le_of_lt short⟩

/-- A commit that succeeds. -/
theorem Sound.granted (hmax : maxPfn < 2 ^ 40) (hzero : usable 0 = false)
    (h : Sound maxPfn usable R s v rest ref) (hr : HeapRun s s') {m' : Mach} {ref₁ ref' : Nat → Nat}
    {F : Nat → Option Nat} {tabs datas : List Block} (halign : base % PAGE_SIZE = 0)
    (hlen : length % PAGE_SIZE = 0) (hend : base + length ≤ VAS_USER_END) (hbase : base ≠ 0)
    (hstock : Stock maxPfn usable R (s'.heap ++ rest) ref₁ s'.mach)
    (hc : Committed maxPfn usable R v.pml4 ((flags ||| VAD_ANONYMOUS ||| VAD_MAPPED)
      &&& VAD_PROT_MASK) (s'.heap ++ rest) ref₁ (pages base (base + length)) F tabs datas ref'
      s'.mach m') (hall : ∀ n, Pages (pages base (base + length)) n → F n ≠ none) :
    Granted maxPfn usable R s ({ s' with mach := m' }.setSpace a (some { v with
      list := vadInsert ⟨base, base + length, flags ||| VAD_ANONYMOUS ||| VAD_MAPPED⟩ v.list,
      userStart := base + length })) a v rest base length flags := by
  have hs : PAGE_SIZE = 4096 := rfl
  have hu : VAS_USER_END = 0x00007FFFFFFFFFFF := rfl
  have hmem := (h.heap hr).1
  have hstop : (base + length) % PAGE_SIZE = 0 := by
    rw [hs] at halign hlen ⊢
    omega
  have hpage : ∀ x, Pages (pages base (base + length)) (x / PAGE_SIZE)
      ↔ base ≤ x ∧ x < base + length := fun x => by
    rw [pages_iff halign, range_page halign hstop]
  have hprot : (flags ||| VAD_ANONYMOUS ||| VAD_MAPPED) &&& VAD_PROT_MASK
      = flags &&& VAD_PROT_MASK := by
    rw [and_or_distrib, and_or_distrib, show VAD_ANONYMOUS &&& VAD_PROT_MASK = 0 by decide,
      show VAD_MAPPED &&& VAD_PROT_MASK = 0 by decide]
    simp
  rw [hprot] at hc
  have hsome : ∀ x, base ≤ x → x < base + length →
      F (x / PAGE_SIZE) = some ((F (x / PAGE_SIZE)).getD 0) := fun x h1 h2 => by
    obtain ⟨p, hp⟩ := Option.ne_none_iff_exists'.mp (hall _ ((hpage x).mpr ⟨h1, h2⟩))
    rw [hp]
    rfl
  refine ⟨?_, hend, setSpace_self _ _ _, fun b hb => ?_, ⟨fun n => (F n).getD 0,
    fun x y hx1 hx2 hy1 hy2 he => ?_, fun x hx1 hx2 => ?_⟩, fun t x ht hcan hout => ?_⟩
  · show 4096 ≤ base
    rw [hs] at halign
    omega
  · rw [setSpace_of_ne _ _ hb]
    show s'.spaces b = s.spaces b
    rw [hr.spaces.1]
  · have hx := hsome x hx1 hx2
    have hy := hsome y hy1 hy2
    have he : (F (x / PAGE_SIZE)).getD 0 = (F (y / PAGE_SIZE)).getD 0 := he
    rw [he] at hx
    exact hc.inj _ _ _ hx hy
  · have hx := hsome x hx1 hx2
    have hlt : x < 2 ^ 47 := by omega
    beta_reduce
    generalize (F (x / PAGE_SIZE)).getD 0 = p at hx ⊢
    have hdata : (⟨p, 0⟩ : Block) ∈ datas := (hc.frames _).mpr ⟨rfl, _, hx⟩
    have hin : (⟨p, 0⟩ : Block) ∈ tabs ++ (datas ++ (s'.heap ++ rest)) :=
      List.mem_append_right _ (List.mem_append_left _ hdata)
    obtain ⟨hpmax, hp⟩ := hc.stock.ledger.mem_usable hin (Block.base_mem ⟨p, 0⟩)
    have hpmax : p < maxPfn + 1 := hpmax
    have hp : usable p = true := hp
    have hp0 : p ≠ 0 := by
      rintro rfl
      rw [hzero] at hp
      cases hp
    have hphys : pfnPhys p = p * 4096 := rfl
    have hword := hc.entry _ p hx x hlt rfl
    refine ⟨?_, ?_, hp0, fun hused => ?_, ?_, hc.zero _ p hx⟩
    · rw [pagingVirtToPhys_eq]
      show (if hasFlag (leaf m'.mem v.pml4 x) PAGE_PRESENT = true then
        (leaf m'.mem v.pml4 x &&& PAGE_ADDR_MASK).toNat + x % PAGE_SIZE else 0) = _
      rw [hword, if_pos (pte_present _ _), pte_addr _ (pfnPhys_mod p) (by omega)]
    · rw [pagingGetFlags_eq]
      show (if hasFlag (leaf m'.mem v.pml4 x) PAGE_PRESENT = true then
        leaf m'.mem v.pml4 x &&& (PAGE_PRESENT ||| PTE_FLAGS) else 0) = _
      rw [hword, if_pos (pte_present _ _), pte_flags]
    · -- a frame that was in use is in two blocks
      rcases hused with hno | ⟨b, hb, hpb⟩
      · exact hno ⟨hpmax, hp⟩
      · have hbin : b ∈ tabs ++ (datas ++ (s'.heap ++ rest)) :=
          List.mem_append_right _ (List.mem_append_right _ (List.mem_append_right _ hb))
        have hne : b ≠ ⟨p, 0⟩ := by
          rintro rfl
          have hnodup := (List.nodup_append.mp hc.stock.ledger.nodup).2.1
          exact (List.nodup_append.mp hnodup).2.2 _ hdata _ (List.mem_append_right _ hb) rfl
        exact hc.stock.ledger.apart hbin hin hne hpb (Block.base_mem ⟨p, 0⟩)
    · show (m'.pmm.pages p).refcount = 1
      have href := (hc.stock.ledger.head _ hin).2.2.1
      rw [hc.one _ hdata] at href
      exact href
  · refine sameEntry_of_leaf ?_
    show leaf m'.mem t x = _
    rw [← hmem]
    by_cases hlow : x < 2 ^ 47
    · refine hc.other t x ht hlow fun he => ?_
      cases hF : F (x / PAGE_SIZE) with
      | none => rfl
      | some p => exact (hout he ((hpage x).mp (hc.dom _ p hF))).elim
    · exact hc.framed.upper_leaf hstock.forest hstock.held (h.above_heap hr) ht hcan (by omega)

/-- A commit that fails, and its rollback. -/
theorem Sound.rolledBack (hmax : maxPfn < 2 ^ 40) (hzero : usable 0 = false)
    (h : Sound maxPfn usable R s v rest ref) {s₁ : Vm} (hr : HeapRun s s₁) {m' : Mach}
    {ref₁ ref' : Nat → Nat} {F : Nat → Option Nat} {tabs datas : List Block} {stop : Nat}
    (halign : base % PAGE_SIZE = 0) (hend : stop ≤ VAS_USER_END)
    (hstock : Stock maxPfn usable R (s₁.heap ++ rest) ref₁ s₁.mach)
    (hsingle : ∀ b ∈ s₁.heap, ref₁ b.base = 1)
    (hc : Committed maxPfn usable R v.pml4 flags (s₁.heap ++ rest) ref₁ (pages base stop) F tabs
      datas ref' s₁.mach m')
    (hbare : ∀ u, u < 2 ^ 47 → Pages (pages base stop) (u / PAGE_SIZE) →
      hasFlag (leaf s₁.mach.mem v.pml4 u) PAGE_PRESENT = false) :
    ∃ m'', m'.uncommitRange v.pml4 base stop = .ok m''
      ∧ ∀ s', HeapRun { s₁ with mach := m'' } s' → Unchanged maxPfn usable R s s' rest := by
  have hu : VAS_USER_END = 0x00007FFFFFFFFFFF := rfl
  have hlow := lowerPages_pages halign (show stop ≤ 2 ^ 47 by omega)
  have habove := h.above_heap hr
  obtain ⟨m2, ref2, hok, hs2, hgrown, hcleared, hsame⟩ := hc.rollback hmax hzero hstock habove
    h.root hlow (pages_distinct halign) fun va hva => hbare va (hlow va hva).1 ⟨va, hva, rfl⟩
  obtain ⟨hmem, -, hpages⟩ := h.heap hr
  refine ⟨m2, hok, fun s' hr' => ?_⟩
  have hholds : Holds maxPfn usable { s₁ with mach := m2 } (tabs ++ rest) ref2 := by
    refine ⟨hs2.ledger.perm ?_, fun b hb => ?_⟩
    · show (tabs ++ (s₁.heap ++ rest)).Perm (s₁.heap ++ (tabs ++ rest))
      rw [← List.append_assoc, ← List.append_assoc]
      exact List.perm_append_comm.append_right rest
    · exact (hgrown.ref b (List.mem_append_left _ hb)).trans (hsingle b hb)
  obtain ⟨hmem', ref3, hholds', hspare⟩ := hr'.ledger hholds
  have hmem' : s'.mach.mem = m2.mem := hmem'
  refine ⟨?_, fun t x ht hcan => ?_, fun q hq => ?_, fun q hq => ?_⟩
  · exact (show s'.spaces = s₁.spaces from hr'.spaces.1).trans hr.spaces.1
  · by_cases hx : x < 2 ^ 47
    · by_cases hin : t = v.pml4 ∧ Pages (pages base stop) (x / PAGE_SIZE)
      · rw [hin.1]
        refine sameEntry_of_bare ?_ ?_
        · rw [← hmem]
          exact hbare x hx hin.2
        · rw [hmem']
          exact hcleared x hx hin.2
      · refine sameEntry_of_leaf ?_
        rw [hmem', ← hmem]
        exact hsame t x ht hx fun he hpage => hin ⟨he, hpage⟩
    · refine sameEntry_of_leaf ?_
      rw [hmem', ← hmem]
      exact hgrown.framed.upper_leaf hstock.forest hstock.held habove ht hcan (by omega)
  · have hm2 : (m2.pmm.pages q).data = (s.mach.pmm.pages q).data :=
      (hgrown.data q (hq.append s₁.heap)).trans (hpages q hq)
    rw [← hm2]
    rcases hq with hno | ⟨b, hb, hqb⟩
    · exact hr'.outside hholds hno
    · exact hspare.data b (List.mem_append_right _ hb) q hqb
  · refine h.free hholds'.ledger (fun b hb => ?_) hq
    unfold Table
    rw [hmem']
    exact hgrown.tabs b hb

-- ==== the result

/-- `vas_map_anon` grants the range or leaves everything as it was, and
the base tells which, exactly when it does not grant page 0. -/
theorem vasMapAnon_iff (hmax : maxPfn < 2 ^ 40) (hzero : usable 0 = false)
    (hv : s.spaces a = some v) (h : Sound maxPfn usable R s v rest ref) (hint : Nat)
    (flags : Word) (hpos : length ≠ 0) (hlen : length ≤ 2 ^ 64 - PAGE_SIZE) :
    ∃ s' base, s.vasMapAnon a hint length flags = .ok (s', base)
      ∧ (((base ≠ 0 ↔ Granted maxPfn usable R s s' a v rest base (pageAlignUp length) flags)
          ∧ (base = 0 → Unchanged maxPfn usable R s s' rest))
        ↔ ¬ ZeroGranted s v hint length flags) := by
  have hs : PAGE_SIZE = 4096 := rfl
  have hstart : VAS_USER_START = 0x1000 := rfl
  have hup := pageAlignUp_pos hpos hlen
  -- a 0 is right where nothing changed
  have hfail : ∀ {s' : Vm}, Unchanged maxPfn usable R s s' rest → ¬ ZeroGranted s v hint length flags →
      (((0 ≠ 0 ↔ Granted maxPfn usable R s s' a v rest 0 (pageAlignUp length) flags)
          ∧ (0 = 0 → Unchanged maxPfn usable R s s' rest))
        ↔ ¬ ZeroGranted s v hint length flags) := fun hun hno => by
    refine ⟨fun _ => hno, fun _ => ⟨⟨fun e => (e rfl).elim, fun hg => ?_⟩, fun _ => hun⟩⟩
    have := hg.low
    omega
  have hzero_place : ZeroGranted s v hint length flags →
      placement v hint (pageAlignUp length) flags = some 0 := fun hz =>
    placement_refused h.list hz.1 hz.2.1 hz.2.2.1 hz.2.2.2.1
  unfold vasMapAnon
  simp only [hv, if_neg hpos]
  cases hplace : placement v hint (pageAlignUp length) flags with
  | none =>
      refine ⟨s, 0, rfl, hfail (h.unchanged (.refl s)) fun hz => ?_⟩
      rw [hzero_place hz] at hplace
      cases hplace
  | some base =>
      obtain ⟨halign, hsum, hend, hmeets⟩ := h.list.placement (pageAlignUp_lt length) hplace
      have hbase := placement_base hplace
      simp only [hsum]
      cases hk : s.kzalloc with
      | mk s1 ok =>
      have hr := heapRun_kzalloc hk
      cases ok with
      | false =>
          refine ⟨s1, 0, rfl, hfail (h.unchanged hr) fun hz => ?_⟩
          have hserved := hz.2.2.2.2.1
          rw [hk] at hserved
          cases hserved
      | true =>
          obtain ⟨ref₁, m', rc, F, tabs, datas, ref', hstock, hsingle, -, hrun, hc, hbare, hends⟩ :=
            h.commit hmax hzero hr halign hend hmeets
              ((flags ||| VAD_ANONYMOUS ||| VAD_MAPPED) &&& VAD_PROT_MASK)
          simp only [Machine.commitAnon, hrun]
          obtain ⟨rfl, hall, hafford⟩ | ⟨rfl, hshort⟩ := hends
          · simp only [ne_eq, not_true_eq_false, if_false]
            refine ⟨_, base, rfl, ?_⟩
            by_cases hb : base = 0
            · -- page 0 is granted
              obtain ⟨hfixed, hhint⟩ := hbase.mp hb
              subst hb
              rw [Nat.zero_add] at hend hmeets hafford
              refine ⟨fun hp => ?_, fun hno => ?_⟩
              · have hsame := congrFun (hp.2 rfl).spaces a
                rw [setSpace_self, hv] at hsame
                have hlist := congrArg (fun v : Vas => v.list.length) (Option.some.inj hsame)
                simp only [length_vadInsert] at hlist
                omega
              · refine (hno ⟨hfixed, hhint, hend, hmeets, ?_, ?_⟩).elim
                · rw [hk]
                · rw [hk]
                  exact hafford
            · refine ⟨fun _ hz => hb (hbase.mpr ⟨hz.1, hz.2.1⟩), fun _ => ⟨⟨fun _ => ?_,
                fun _ => hb⟩, fun e => (hb e).elim⟩⟩
              exact h.granted hmax hzero hr halign (pageAlignUp_mod length) hend hb hstock hc hall
          · simp only [ne_eq, neg_eq_zero, one_ne_zero, not_false_eq_true, if_true]
            obtain ⟨m2, hback, hun⟩ := h.rolledBack hmax hzero hr halign hend hstock hsingle hc hbare
            simp only [hback]
            refine ⟨_, 0, rfl, hfail (hun _ (heapRun_kfree _)) fun hz => hshort ?_⟩
            have hb : base = 0 := hbase.mpr ⟨hz.1, hz.2.1⟩
            have hafford := hz.2.2.2.2.2
            rw [hk] at hafford
            rw [hb, Nat.zero_add]
            exact hafford

-- ==== the runs

/-- Every space of a run is sound. -/
theorem Ready.sound (hmax : maxPfn < 2 ^ 40) (hzero : usable 0 = false)
    (h₀ : Ready maxPfn usable blocks s₀) (h : Reachable UserCall s₀ s)
    (hv : s.spaces a = some v) : ∃ rest ref, Sound maxPfn usable s.Roots s v rest ref := by
  obtain ⟨V, hs, -⟩ := h₀.reachable hmax hzero h
  obtain ⟨k, hk, hview, -⟩ := hs.settled
  have hroot : s.Roots v.pml4 := ⟨a, v, hv, rfl⟩
  refine ⟨blocks ++ k.own, k.ref, hroot, hs.lists a v hv, ⟨hk.ledger, hk.single⟩, hk.forest,
    fun f hf => ?_, ⟨fun t p f ht hne hp hw => ?_, fun t p f ht hne hp hw => ?_⟩,
    fun x hx hcov => ?_⟩
  · exact Or.inr ⟨⟨f, 0⟩, List.mem_append_right _ (hk.table_own hf), Block.base_mem ⟨f, 0⟩⟩
  · obtain ⟨⟨b, hb, hfb⟩, -⟩ := hs.upper_apart h₀ ht hne hp hw
    exact Or.inr ⟨b, List.mem_append_left _ hb, hfb⟩
  · exact (hs.upper_apart h₀ ht hne hp hw).2
  · have hnone : V (v.pml4, x / PAGE_SIZE) = none := by
      by_contra hne
      exact hcov ((hs.lists a v hv).covers_page.mp (hs.sound a v _ hv hne))
    rw [hk.leaf v.pml4 x hroot hx, hview, hnone]
    decide

/-- A range of one page. -/
theorem vasMapAnon_page : ∃ (s : Vm) (v : Vas) (rest : List Block), s.spaces 0 = some v
    ∧ v.list = [⟨0x5000, 0x7000, 0x5002⟩]
    ∧ ∃ s' base, s.vasMapAnon 0 0x9000 0x1000 PAGE_WRITE = .ok (s', base)
      ∧ (base ≠ 0 ↔ Granted 16 (fun q => 1 ≤ q) s.Roots s s' 0 v rest base
        (pageAlignUp 0x1000) PAGE_WRITE)
      ∧ (base = 0 → Unchanged 16 (fun q => 1 ≤ q) s.Roots s s' rest) := by
  obtain ⟨s, v, hreach, hv, hlist, -⟩ := reachable_twoPages
  obtain ⟨rest, ref, h⟩ := bootVm_ready.sound (by decide) rfl hreach hv
  obtain ⟨s', base, hrun, hiff⟩ := vasMapAnon_iff (by decide) rfl hv h 0x9000 PAGE_WRITE
    (show 0x1000 ≠ 0 by decide) (by decide)
  have hfree : hasFlag PAGE_WRITE VAD_FIXED = false := by decide
  have hno : ¬ ZeroGranted s v 0x9000 0x1000 PAGE_WRITE := fun hz => by
    have hfixed := hz.1
    rw [hfree] at hfixed
    cases hfixed
  exact ⟨s, v, rest, hv, hlist, s', base, hrun, hiff.mpr hno⟩

/-- Page 0 of a new space: the call returns 0, and the range is there. -/
theorem vasMapAnon_zero : ∃ (s : Vm) (v : Vas) (rest : List Block) (ref : Nat → Nat) (s' : Vm),
    Reachable UserCall bootVm s ∧ s.spaces 0 = some v
    ∧ Sound 16 (fun q => 1 ≤ q) s.Roots s v rest ref
    ∧ s.vasMapAnon 0 0 0x1000 VAD_FIXED = .ok (s', 0)
    ∧ (s'.spaces 0).map Vas.list = some [⟨0, 0x1000, 0x7000⟩]
    ∧ ¬ Unchanged 16 (fun q => 1 ≤ q) s.Roots s s' rest := by
  have hplay : (play UserCall bootVm [(fair, .create none)]).map (fun s =>
      ((s.spaces 0).map Vas.list, (s.vasMapAnon 0 0 0x1000 VAD_FIXED).toOption.map
        fun r => (r.2, (r.1.spaces 0).map Vas.list)))
      = some (some [], some (0, some [⟨0, 0x1000, 0x7000⟩])) := by
    decide +kernel
  obtain ⟨s, hrun, heq⟩ := Option.map_eq_some_iff.mp hplay
  obtain ⟨hold, hnew⟩ := Prod.mk.inj heq
  obtain ⟨v, hv, hlist⟩ := Option.map_eq_some_iff.mp hold
  obtain ⟨r, hr, hmap⟩ := Option.map_eq_some_iff.mp hnew
  obtain ⟨hbase, hspace⟩ := Prod.mk.inj hmap
  obtain ⟨s', base⟩ := r
  have hreach := reachable_play .init hrun
  obtain ⟨rest, ref, h⟩ := bootVm_ready.sound (by decide) rfl hreach hv
  refine ⟨s, v, rest, ref, s', hreach, hv, h, ?_, hspace, fun hun => ?_⟩
  · cases hc : s.vasMapAnon 0 0 0x1000 VAD_FIXED with
    | error e =>
        rw [hc] at hr
        cases hr
    | ok x =>
        rw [hc] at hr
        cases hr
        have hbase : base = 0 := hbase
        rw [hbase]
  · have hspace : (s'.spaces 0).map Vas.list = some [⟨0, 0x1000, 0x7000⟩] := hspace
    rw [hun.spaces, hold] at hspace
    cases hspace

end Vm

end Alix


