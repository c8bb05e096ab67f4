/-
`vas_map_phys`, all or nothing.

# What goes wrong

The loop takes a reference for a page before it maps it. Where the tables
of a page cannot be had, the rollback goes over the pages before it, and
the reference of the page itself is never given back. And as with
`vas_map_anon`, page 0 can be granted with `VAD_FIXED`, which reads as a
failure.

# What holds

The call does not panic, and after a 0 nobody can tell that it was made:
the spaces, the translations of every root and the descriptor of every
frame in use are as they were. It is so unless page 0 is granted or the
tables run out at a page whose references are counted, and both can be
read off the state before the call (`vasMapPhys_iff`). That includes the
failure after the loop, where every reference goes back.
-/
import Alix.Mm.Proofs.Lend
import Alix.Mm.Proofs.Anon

namespace Alix

open Paging
open Radix
open Dyadic (Block)
open Pmm (Ledger Usable Allocated)

-- ==== lists

theorem pages_add (base n : Nat) : (pages 0 n).map (base + ·) = pages base (base + n) := by
  unfold pages
  rw [List.map_add_range', Nat.add_zero, Nat.sub_zero, Nat.add_sub_cancel_left]

/-- The offsets before one, and with it. -/
theorem pages_split {n off : Nat} {pre post : List Nat} (h : pages 0 n = pre ++ off :: post) :
    off % PAGE_SIZE = 0 ∧ off < n ∧ pre = pages 0 off
      ∧ pre ++ [off] = pages 0 (off + PAGE_SIZE) := by
  have hs : PAGE_SIZE = 4096 := rfl
  unfold pages at h ⊢
  obtain ⟨k, hk, rfl, hpost⟩ := List.range'_eq_append_iff.mp h
  obtain ⟨rfl, hlt, -⟩ := List.range'_eq_cons_iff.mp hpost.symm
  rw [hs] at hk hlt ⊢
  have h1 : (0 + k * 4096 - 0 + 4096 - 1) / 4096 = k := by omega
  have h2 : (0 + k * 4096 + 4096 - 0 + 4096 - 1) / 4096 = k + 1 := by omega
  refine ⟨by omega, by omega, by rw [h1], ?_⟩
  rw [h2, List.range'_concat]
  congr 2
  omega

namespace Vm

variable {maxPfn : Nat} {usable : Nat → Bool} {R : Nat → Prop} {s s' s₁ : Vm} {v : Vas}
  {rest : List Block} {ref : Nat → Nat} {a hint phys length base : Nat} {flags : Word}

-- ==== the statement

/-- There are frames for the tables that are missing on the way to these
pages. -/
def Tabled (m : Mach) (r : Nat) (vas : List Nat) : Prop :=
  gaps m r (vas.flatMap tablePaths) ≤ (Pmm.freeFrames m.pmm).ncard

/-- Page 0 is asked for, it is there to be had, and nothing runs out. -/
def ZeroMapped (s : Vm) (v : Vas) (hint length : Nat) (flags : Word) : Prop :=
  length ≠ 0 ∧ hasFlag flags VAD_FIXED = true ∧ hint < PAGE_SIZE
    ∧ pageAlignUp length ≤ VAS_USER_END ∧ ¬ Meets v.list 0 (pageAlignUp length)
    ∧ s.kzalloc.2 = true ∧ Tabled s.mach v.pml4 (pages 0 (pageAlignUp length))

/-- The tables run out at a page, and its references are counted. -/
def Leaks (maxPfn : Nat) (s : Vm) (v : Vas) (hint phys length : Nat) (flags : Word) : Prop :=
  length ≠ 0 ∧ ∃ base off, placement v hint (pageAlignUp length) flags = some base
    ∧ off % PAGE_SIZE = 0 ∧ off < pageAlignUp length
    ∧ Tabled s.mach v.pml4 (pages base (base + off))
    ∧ ¬ Tabled s.mach v.pml4 (pages base (base + (off + PAGE_SIZE)))
    ∧ Tracked maxPfn s.mach.pmm (physPfn (pageAlignDown phys + off))

theorem Tabled.mono {m : Mach} {r n k : Nat} (hle : k ≤ n)
    (h : Tabled m r (pages base (base + n))) : Tabled m r (pages base (base + k)) := by
  refine Nat.le_trans (gaps_mono m r fun q hq => ?_) h
  obtain ⟨va, hva, hq⟩ := List.mem_flatMap.mp hq
  refine List.mem_flatMap.mpr ⟨va, ?_, hq⟩
  have hs : PAGE_SIZE = 4096 := rfl
  unfold pages at hva ⊢
  rw [List.mem_range', hs] at hva ⊢
  obtain ⟨i, hi, rfl⟩ := hva
  exact ⟨i, by omega, rfl⟩

/-- A call that leaves everything but the counts, which move by `n`. -/
structure Shifted (maxPfn : Nat) (usable : Nat → Bool) (R : Nat → Prop) (s s' : Vm)
    (rest : List Block) (n : Nat → Int) : Prop where
  spaces : s'.spaces = s.spaces
  entries : ∀ t x, R t → Canonical x → SameEntry s s' t x
  pages : ∀ q, Used maxPfn usable rest q →
    (s'.mach.pmm.pages q).data = ((s.mach.pmm.pages q).more (n q)).data
  free : ∀ q, s.Free q → s'.Free q ∨ Allocated s'.heap q ∨ Table s'.mach R q

theorem Shifted.unchanged_iff {n : Nat → Int} (h : Shifted maxPfn usable R s s' rest n) :
    Unchanged maxPfn usable R s s' rest ↔ ∀ q, Used maxPfn usable rest q → n q = 0 := by
  constructor
  · intro hun q hq
    have hsame := (hun.pages q hq).symm.trans (h.pages q hq)
    have hcount : (s.mach.pmm.pages q).refcount = (s.mach.pmm.pages q).refcount + n q :=
      (Page.data_eq_iff.mp hsame).1
    omega
  · intro hn
    refine ⟨h.spaces, h.entries, fun q hq => ?_, h.free⟩
    rw [h.pages q hq, hn q hq, Page.more_zero]

-- ==== the heap

/-- An operation of the heap that is not about these blocks. -/
def Avoids (kept : List Block) : HeapOp → Prop
  | .alloc _ => True
  | .free b => b ∉ kept
  | .mark b _ _ => b ∉ kept

/-- The heap neither gives back nor labels these blocks in its next call. -/
def Spared (s : Vm) (kept : List Block) : Prop :=
  ∀ coin ∈ s.coins.head?, ∀ op ∈ coin.ops, Avoids kept op

theorem spared_nil (s : Vm) : s.Spared [] := fun coin _ op _ => by
  cases op with
  | alloc order => trivial
  | free b => exact List.not_mem_nil
  | mark b slab priv => exact List.not_mem_nil

/-- Blocks that the heap leaves alone may as well not be its. -/
theorem heapOp_spared {own kept : List Block} (hheap : s.heap.Perm (own ++ kept)) {op : HeapOp}
    (hop : Avoids kept op) :
    ∃ heap, heapOp s op = { heapOp { s with heap := own } op with heap }
      ∧ heap.Perm ((heapOp { s with heap := own } op).heap ++ kept) := by
  have hmem : ∀ {b}, b ∉ kept → (b ∈ s.heap ↔ b ∈ own) := fun {b} hb => by
    rw [hheap.mem_iff, List.mem_append]
    exact ⟨fun h => h.resolve_right hb, Or.inl⟩
  cases op with
  | alloc order =>
      simp only [heapOp]
      cases s.mach.pmm.pmmAlloc order with
      | none => exact ⟨s.heap, rfl, hheap⟩
      | some r => exact ⟨_, rfl, hheap.cons _⟩
  | free b =>
      have hb := hmem hop
      simp only [heapOp]
      by_cases hin : b ∈ own
      · rw [if_pos (hb.mpr hin), if_pos hin]
        cases s.mach.free b.base with
        | error e => exact ⟨s.heap, rfl, hheap⟩
        | ok mach =>
            refine ⟨_, rfl, ?_⟩
            show (s.heap.erase b).Perm (own.erase b ++ kept)
            rw [← List.erase_append_left kept hin]
            exact hheap.erase b
      · rw [if_neg fun e => hin (hb.mp e), if_neg hin]
        exact ⟨s.heap, rfl, hheap⟩
  | mark b slab priv =>
      have hb := hmem hop
      simp only [heapOp]
      by_cases hin : b ∈ own
      · rw [if_pos (hb.mpr hin), if_pos hin]
        exact ⟨s.heap, rfl, hheap⟩
      · rw [if_neg fun e => hin (hb.mp e), if_neg hin]
        exact ⟨s.heap, rfl, hheap⟩

theorem kzalloc_spared {own kept : List Block} (hheap : s.heap.Perm (own ++ kept))
    (hk : s.Spared kept) :
    ∃ heap, s.kzalloc.1 = { ({ s with heap := own } : Vm).kzalloc.1 with heap }
      ∧ heap.Perm (({ s with heap := own } : Vm).kzalloc.1.heap ++ kept) := by
  have hfold : ∀ (ops : List HeapOp) (s s₁ : Vm), (∀ op ∈ ops, Avoids kept op) →
      (∃ heap, s = { s₁ with heap } ∧ heap.Perm (s₁.heap ++ kept)) →
      ∃ heap, ops.foldl heapOp s = { ops.foldl heapOp s₁ with heap }
        ∧ heap.Perm ((ops.foldl heapOp s₁).heap ++ kept) := by
    intro ops
    induction ops with
    | nil => exact fun s s₁ _ h => h
    | cons op ops ih =>
        intro s s₁ hops h
        obtain ⟨heap, rfl, hperm⟩ := h
        exact ih _ _ (fun o ho => hops o (List.mem_cons_of_mem _ ho))
          (heapOp_spared (s := { s₁ with heap }) hperm (hops op List.mem_cons_self))
  obtain ⟨mach, heap, coins, kernelPml4, spaces, next⟩ := s
  cases coins with
  | nil => exact ⟨heap, rfl, hheap⟩
  | cons coin coins =>
      exact hfold coin.ops ⟨mach, heap, coins, kernelPml4, spaces, next⟩
        ⟨mach, own, coins, kernelPml4, spaces, next⟩ (hk coin rfl) ⟨heap, rfl, hheap⟩

/-- The call was served by the heap. -/
theorem kzalloc_served (s : Vm) (mach : Mach) : ({ s with mach } : Vm).kzalloc.2 = s.kzalloc.2 := by
  unfold kzalloc heapCall
  obtain ⟨_, heap, coins, kernelPml4, spaces, next⟩ := s
  cases coins with
  | nil => rfl
  | cons coin coins => rfl

-- ==== the rollback

/-- The pages of a list are mapped, the heap may work, and the pages are
undone: each frame of the list gets back what it took. -/
theorem Sound.undone (hzero : usable 0 = false) (h : Sound maxPfn usable R s v rest ref)
    {m' : Mach} {n : Nat → Int} {tabs : List Block} {ref' : Nat → Nat} {l : List (Nat × Nat)}
    (lent : Lent maxPfn usable R (s.heap ++ rest) n tabs ref' s.mach m')
    (mapped : Mapped R v.pml4 flags l s.mach m')
    (hown : ∀ b ∈ s.heap, n b.base = 0)
    (hn : ∀ q, taken maxPfn s.mach (l.map Prod.snd) q ≤ n q)
    (hlow : LowerPages (l.map Prod.fst))
    (hdist : (l.map Prod.fst).Pairwise fun v w => v / PAGE_SIZE ≠ w / PAGE_SIZE)
    (hlt : ∀ x ∈ l, x.2 < 2 ^ 40) (hlend : ∀ x ∈ l, Lendable maxPfn rest s.mach.pmm x.2)
    (hbare : ∀ u, u < 2 ^ 47 → Pages (l.map Prod.fst) (u / PAGE_SIZE) →
      hasFlag (leaf s.mach.mem v.pml4 u) PAGE_PRESENT = false)
    (hr : HeapRun { s with mach := m' } s₁) :
    ∃ m₂, (l.map Prod.fst).foldlM (Machine.uncommitPage v.pml4) s₁.mach = .ok m₂
      ∧ Shifted maxPfn usable R s { s₁ with mach := m₂ } rest
        fun q => n q - taken maxPfn s.mach (l.map Prod.snd) q := by
  -- the heap
  have hholds : Holds maxPfn usable { s with mach := m' } (tabs ++ rest) ref' := by
    refine ⟨lent.stock.ledger.perm ?_, fun b hb => ?_⟩
    · show (tabs ++ (s.heap ++ rest)).Perm (s.heap ++ (tabs ++ rest))
      rw [← List.append_assoc, ← List.append_assoc]
      exact List.perm_append_comm.append_right rest
    · have hb : b ∈ s.heap := hb
      have hin : b ∈ s.heap ++ rest := List.mem_append_left _ hb
      have hnow := (lent.stock.ledger.head b (List.mem_append_right _ hin)).2.2.1
      have hwas := (h.holds.ledger.head b hin).2.2.1
      rw [lent.refcount (Or.inr ⟨b, hin, Block.base_mem b⟩), hwas, hown b hb,
        h.holds.single b hb] at hnow
      omega
  obtain ⟨hmem, ref₁, hholds₁, hspares⟩ := hr.ledger hholds
  have hmem : s₁.mach.mem = m'.mem := hmem
  have hdata : ∀ q, Used maxPfn usable rest q →
      (s₁.mach.pmm.pages q).data = ((s.mach.pmm.pages q).more (n q)).data := by
    intro q hq
    rw [← lent.data q (hq.append s.heap)]
    rcases hq with hno | ⟨b, hb, hqb⟩
    · exact hr.outside hholds hno
    · exact hspares.data b (List.mem_append_right _ hb) q hqb
  -- the tables
  have hframed : Framed s.mach m' R (Used maxPfn usable rest) :=
    ⟨fun f j hf => lent.framed.frame f j (hf.append s.heap),
      fun f j hf => lent.framed.slot f j (hf.append s.heap)⟩
  have hrest : ∀ f, Used maxPfn usable rest f →
      Used maxPfn usable (s₁.heap ++ (tabs ++ rest)) f := fun f hf =>
    (hf.append tabs).append s₁.heap
  have hheld : ∀ f, Table m' R f → Used maxPfn usable (s₁.heap ++ (tabs ++ rest)) f := by
    intro f hf
    rcases lent.stock.held f hf with hno | ⟨b, hb, hfb⟩
    · exact Or.inl hno
    rcases List.mem_append.mp hb with hb | hb
    · exact Or.inr ⟨b, List.mem_append_right _ (List.mem_append_left _ hb), hfb⟩
    · exact hrest f (h.tables f (lent.framed.slot f 0 (Or.inr ⟨b, hb, hfb⟩) hf.slot).table)
  obtain ⟨hused, hapart⟩ := hframed.above h.forest h.tables h.above
  have hs₁ : Stock maxPfn usable R (s₁.heap ++ (tabs ++ rest)) ref₁ s₁.mach := by
    refine ⟨hholds₁.ledger, ?_, fun f hf => hheld f ?_⟩
    · rw [hmem]
      exact lent.stock.forest
    · unfold Table at hf
      rwa [hmem] at hf
  have hup : Above s₁.mach R (Used maxPfn usable (s₁.heap ++ (tabs ++ rest))) := by
    refine ⟨fun t p f ht hne hp hw => ?_, fun t p f ht hne hp hw => ?_⟩
    · rw [hmem] at hw
      exact hrest f (hused t p f ht hne hp hw)
    · unfold Table
      rw [hmem] at hw ⊢
      exact hapart t p f ht hne hp hw
  -- the undoing
  have htaken : ∀ q, Used maxPfn usable rest q → taken maxPfn s₁.mach (l.map Prod.snd) q
      = taken maxPfn s.mach (l.map Prod.snd) q := fun q hq => taken_more (hdata q hq) _
  obtain ⟨m₂, ref₂, hok, lent₂, hcleared, hsame⟩ := hs₁.uncommitPages hzero hup h.root hlow hdist
    (fun x hx => by
      rw [hmem]
      exact mapped.inside x hx x.1 (hlow x.1 (List.mem_map_of_mem hx)).1 rfl) hlt
    fun x hx hc => by
      have hu := (hlend x hx).used h.holds.ledger
      obtain ⟨⟨b, hb, hxb⟩, hpos⟩ := hlend x hx ((tracked_more (hdata x.2 hu)).mp hc)
      refine ⟨⟨b, List.mem_append_right _ (List.mem_append_right _ hb), hxb⟩, ?_⟩
      have hcount : (s₁.mach.pmm.pages x.2).refcount
          = (s.mach.pmm.pages x.2).refcount + n x.2 := (Page.data_eq_iff.mp (hdata x.2 hu)).1
      have := hn x.2
      rw [htaken x.2 hu, hcount]
      omega
  have hundone : Framed m' m₂ R (Used maxPfn usable rest) := by
    refine ⟨fun f j hf hns => ?_, fun f j hf hs => ?_⟩
    · rw [← hmem] at hns ⊢
      exact lent₂.framed.frame f j (hrest f hf) hns
    · rw [← hmem]
      exact lent₂.framed.slot f j (hrest f hf) hs
  have hframed₂ : Framed s.mach m₂ R (Used maxPfn usable rest) :=
    hframed.trans hundone fun f hf => hf
  refine ⟨m₂, hok, hr.spaces.1, fun t x ht hcan => ?_, fun q hq => ?_, fun q hq => ?_⟩
  · by_cases hx : x < 2 ^ 47
    · by_cases hin : t = v.pml4 ∧ Pages (l.map Prod.fst) (x / PAGE_SIZE)
      · rw [hin.1]
        exact sameEntry_of_bare (hbare x hx hin.2) (hcleared x hx hin.2)
      · have hout : t = v.pml4 → ¬ Pages (l.map Prod.fst) (x / PAGE_SIZE) := fun he hp =>
          hin ⟨he, hp⟩
        refine sameEntry_of_leaf ?_
        rw [← mapped.outside t x ht hx hout, ← hmem]
        exact hsame t x ht hx hout
    · exact sameEntry_of_leaf
        (hframed₂.upper_leaf h.forest h.tables h.above ht hcan (by omega))
  · show (m₂.pmm.pages q).data = _
    rw [lent₂.data q (hrest q hq), htaken q hq, Int.sub_eq_add_neg]
    exact Page.more_data (hdata q hq)
  · have hl : Ledger maxPfn usable ({ s₁ with mach := m₂ } : Vm).mach.pmm
        (({ s₁ with mach := m₂ } : Vm).heap ++ (tabs ++ rest)) ref₂ := lent₂.stock.ledger
    refine h.free hl (fun b hb => ?_) hq
    obtain ⟨hord, htable⟩ := lent.tabs b hb
    refine ⟨hord, lent₂.table ?_⟩
    unfold Table
    rw [hmem]
    exact htable

-- ==== the loop

theorem Shifted.congr {n n' : Nat → Int} (h : Shifted maxPfn usable R s s' rest n)
    (hn : ∀ q, n q = n' q) : Shifted maxPfn usable R s s' rest n' := by
  rw [← show n = n' from funext hn]
  exact h

/-- The state with the blocks that the heap has besides. -/
theorem Shifted.owned {own : List Block} {n : Nat → Int}
    (h : Shifted maxPfn usable R { s with heap := own } s' rest n) (heap : List Block)
    (hheap : ∀ b ∈ s'.heap, b ∈ heap) : Shifted maxPfn usable R s { s' with heap } rest n := by
  refine ⟨h.spaces, h.entries, h.pages, fun q hq => (h.free q hq).imp_right fun hin =>
    hin.imp_left fun hal => ?_⟩
  obtain ⟨b, hb, hqb⟩ := hal
  exact ⟨b, hheap b hb, hqb⟩

/-- An offset of the loop, and what stands there. -/
theorem offset_mem {off : Nat} (hoff : off ∈ pages 0 length) :
    off % PAGE_SIZE = 0 ∧ off < length := by
  obtain ⟨pre, post, he⟩ := List.append_of_mem hoff
  obtain ⟨h1, h2, -⟩ := pages_split he
  exact ⟨h1, h2⟩

theorem offset_bounds (halign : base % PAGE_SIZE = 0) (hend : base + length ≤ VAS_USER_END)
    (hp : phys % PAGE_SIZE = 0) (hphys : phys + length ≤ 2 ^ 52) {off : Nat}
    (hoff : off ∈ pages 0 length) : base + off < 2 ^ 47 ∧ (base + off) % PAGE_SIZE = 0
      ∧ phys + off < 2 ^ 52 ∧ (phys + off) % PAGE_SIZE = 0 := by
  have hs : PAGE_SIZE = 4096 := rfl
  have hu : VAS_USER_END = 0x00007FFFFFFFFFFF := rfl
  obtain ⟨h1, h2⟩ := offset_mem hoff
  rw [hs] at h1 halign hp ⊢
  omega

theorem offsets_distinct (halign : base % PAGE_SIZE = 0) (length : Nat) :
    (pages 0 length).Pairwise fun o o' => (base + o) / PAGE_SIZE ≠ (base + o') / PAGE_SIZE := by
  have hd : (pages base (base + length)).Pairwise fun v w => v / PAGE_SIZE ≠ w / PAGE_SIZE :=
    pages_distinct halign
  rw [← pages_add, List.pairwise_map] at hd
  exact hd

theorem lentAt_pages (base phys n : Nat) :
    ((pages 0 n).map (lentAt base phys)).map Prod.fst = pages base (base + n) := by
  rw [← pages_add, List.map_map]
  rfl

/-- The pages that are lent are none of the heap's. -/
theorem Sound.taken_own (h : Sound maxPfn usable R s v rest ref) {fs : List Nat}
    (hfs : ∀ f ∈ fs, Lendable maxPfn rest s.mach.pmm f) {b : Block} (hb : b ∈ s.heap) :
    taken maxPfn s.mach fs b.base = 0 := by
  refine taken_untracked fun hf hc => ?_
  obtain ⟨⟨c, hc, hbc⟩, -⟩ := hfs _ hf hc
  refine h.holds.ledger.apart (List.mem_append_left _ hb) (List.mem_append_right _ hc) ?_
    (Block.base_mem b) hbc
  rintro rfl
  exact List.disjoint_of_nodup_append h.holds.ledger.nodup hb hc

/-- Nothing is mapped in a range that is free. -/
theorem Sound.bare_free (h : Sound maxPfn usable R s v rest ref) (halign : base % PAGE_SIZE = 0)
    (hfree : ¬ Meets v.list base (base + length)) {k u : Nat} (hk : k ≤ length)
    (hlt : u < 2 ^ 47) (hpage : Pages (pages base (base + k)) (u / PAGE_SIZE)) :
    hasFlag (leaf s.mach.mem v.pml4 u) PAGE_PRESENT = false := by
  refine h.bare u hlt fun hcov => ?_
  rw [pages_iff halign] at hpage
  obtain ⟨x, hx, hx1, hx2⟩ := h.list.covers_page.mpr hcov
  exact hfree ⟨x, hx, by omega, by omega⟩

/-- The loop on the pages of a place: all are mapped, and can be undone
after the heap has worked; or the tables run out at one, and when the call
returns its frame has a reference more. -/
theorem Sound.mapRange (hmax : maxPfn < 2 ^ 40) (hzero : usable 0 = false)
    (h : Sound maxPfn usable R s v rest ref) (flags : Word) (halign : base % PAGE_SIZE = 0)
    (hend : base + length ≤ VAS_USER_END) (hfree : ¬ Meets v.list base (base + length))
    (hp : phys % PAGE_SIZE = 0) (hphys : phys + length ≤ 2 ^ 52)
    (hlend : ∀ off, off < length → Lendable maxPfn rest s.mach.pmm (physPfn (phys + off))) :
    (∃ m', mapPhysPages v base phys flags (pages 0 length) s.mach = .ok (m', 0)
      ∧ Tabled s.mach v.pml4 (pages base (base + length))
      ∧ ∀ s₁, HeapRun { s with mach := m' } s₁ →
        ∃ m₂, s₁.mach.uncommitRange v.pml4 base (base + length) = .ok m₂
          ∧ Shifted maxPfn usable R s { s₁ with mach := m₂ } rest fun _ => 0)
    ∨ ∃ off m₂, off % PAGE_SIZE = 0 ∧ off < length
      ∧ Tabled s.mach v.pml4 (pages base (base + off))
      ∧ ¬ Tabled s.mach v.pml4 (pages base (base + (off + PAGE_SIZE)))
      ∧ mapPhysPages v base phys flags (pages 0 length) s.mach = .ok (m₂, -1)
      ∧ Shifted maxPfn usable R s { s with mach := m₂ } rest
        (taken maxPfn s.mach [physPfn (phys + off)]) := by
  have hu : VAS_USER_END = 0x00007FFFFFFFFFFF := rfl
  have hstock : Stock maxPfn usable R (s.heap ++ rest) ref s.mach :=
    ⟨h.holds.ledger, h.forest, fun f hf => (h.tables f hf).append s.heap⟩
  have hoffs := fun off => @offset_bounds phys length base halign hend hp hphys off
  have hout : ∀ f, Lendable maxPfn rest s.mach.pmm f →
      Lendable maxPfn (s.heap ++ rest) s.mach.pmm f := fun f hf hc => by
    obtain ⟨⟨b, hb, hfb⟩, hpos⟩ := hf hc
    exact ⟨⟨b, List.mem_append_right _ hb, hfb⟩, hpos⟩
  -- what holds of any part of the range
  have hundo : ∀ k, k ≤ length → (∀ off ∈ pages 0 k, off ∈ pages 0 length) →
      ∀ {m' : Mach} {n : Nat → Int} {tabs : List Block} {ref' : Nat → Nat},
      Lent maxPfn usable R (s.heap ++ rest) n tabs ref' s.mach m' →
      Mapped R v.pml4 (flags &&& VAD_PROT_MASK) ((pages 0 k).map (lentAt base phys)) s.mach m' →
      (∀ b ∈ s.heap, n b.base = 0) →
      (∀ q, taken maxPfn s.mach (((pages 0 k).map (lentAt base phys)).map Prod.snd) q ≤ n q) →
      ∀ s₁, HeapRun { s with mach := m' } s₁ →
        ∃ m₂, s₁.mach.uncommitRange v.pml4 base (base + k) = .ok m₂
          ∧ Shifted maxPfn usable R s { s₁ with mach := m₂ } rest fun q => n q
            - taken maxPfn s.mach (((pages 0 k).map (lentAt base phys)).map Prod.snd) q := by
    intro k hk hsub m' n tabs ref' lent mapped hnown hn s₁ hr
    have hx : ∀ x ∈ (pages 0 k).map (lentAt base phys), ∃ off ∈ pages 0 length,
        x = lentAt base phys off := fun x hx => by
      obtain ⟨off, hoff, rfl⟩ := List.mem_map.mp hx
      exact ⟨off, hsub off hoff, rfl⟩
    have hgo := fun hlow hdist hlt hlend hbare =>
      h.undone hzero lent mapped hnown hn hlow hdist hlt hlend hbare hr
    rw [lentAt_pages] at hgo
    refine hgo (lowerPages_pages halign (by omega)) (pages_distinct halign) (fun x hxin => ?_)
      (fun x hxin => ?_) fun u => h.bare_free halign hfree hk
    · obtain ⟨off, hoff, rfl⟩ := hx x hxin
      have := (hoffs off hoff).2.2.1
      show (phys + off) / 4096 < 2 ^ 40
      omega
    · obtain ⟨off, hoff, rfl⟩ := hx x hxin
      exact hlend off (offset_mem hoff).2
  have hsnd : ∀ l : List Nat, (∀ off ∈ l, off ∈ pages 0 length) →
      ∀ f ∈ (l.map (lentAt base phys)).map Prod.snd, Lendable maxPfn rest s.mach.pmm f := by
    intro l hl f hf
    rw [List.map_map, List.mem_map] at hf
    obtain ⟨off, hoff, rfl⟩ := hf
    exact hlend off (offset_mem (hl off hoff)).2
  rcases hstock.mapPhysPages hmax hzero flags h.root hoffs (offsets_distinct halign length)
      fun off hoff => hout _ (hlend off (offset_mem hoff).2) with
    ⟨m', tabs, ref', hrun, lent, mapped, paid⟩ |
    ⟨pre, off, post, m', tabs, ref', hsplit, hrun, lent, mapped, hfits, hshort⟩
  · refine Or.inl ⟨m', hrun, ?_, fun s₁ hr => ?_⟩
    · have hcost := paid.cost
      rw [lentAt_pages] at hcost
      unfold Tabled
      omega
    · obtain ⟨m₂, hok, hshift⟩ := hundo length (Nat.le_refl _) (fun _ ho => ho) lent mapped
        (fun b => h.taken_own (hsnd _ fun _ ho => ho)) (fun q => Int.le_refl _) s₁ hr
      exact ⟨m₂, hok, hshift.congr fun q => Int.sub_self _⟩
  · obtain ⟨h1, h2, hpre, hpre'⟩ := pages_split hsplit
    have hsub : ∀ o ∈ pre ++ [off], o ∈ pages 0 length := fun o ho => by
      rw [hsplit, List.append_cons]
      exact List.mem_append_left _ ho
    have htaken : ∀ q, taken maxPfn s.mach (((pre ++ [off]).map (lentAt base phys)).map Prod.snd) q
        = taken maxPfn s.mach ((pre.map (lentAt base phys)).map Prod.snd) q
          + taken maxPfn s.mach [physPfn (phys + off)] q := fun q => by
      rw [List.map_append, List.map_append, taken_append]
      rfl
    obtain ⟨m₂, hok, hshift⟩ := hundo off (by omega)
      (fun o ho => hsub o (List.mem_append_left _ (by rw [hpre]; exact ho))) lent
      (by rw [← hpre]; exact mapped) (fun b => h.taken_own (hsnd _ hsub))
      (fun q => by
        have := taken_nonneg maxPfn s.mach [physPfn (phys + off)] q
        rw [htaken, hpre]
        omega) _ (.refl _)
    refine Or.inr ⟨off, m₂, h1, h2, ?_, ?_, ?_, hshift.congr fun q => ?_⟩
    · rw [hpre, lentAt_pages] at hfits
      unfold Tabled
      unfold Short at hfits
      omega
    · rw [hpre', lentAt_pages] at hshort
      unfold Tabled
      unfold Short at hshort
      omega
    · rw [hrun, hok]
    · rw [htaken, hpre]
      omega

-- ==== the result

/-- With a place, the leak is at an offset of it. -/
theorem leaks_iff (hpos : length ≠ 0)
    (hplace : placement v hint (pageAlignUp length) flags = some base) :
    Leaks maxPfn s v hint phys length flags ↔ ∃ off, off % PAGE_SIZE = 0
      ∧ off < pageAlignUp length ∧ Tabled s.mach v.pml4 (pages base (base + off))
      ∧ ¬ Tabled s.mach v.pml4 (pages base (base + (off + PAGE_SIZE)))
      ∧ Tracked maxPfn s.mach.pmm (physPfn (pageAlignDown phys + off)) := by
  constructor
  · intro hl
    obtain ⟨-, b, off, hb, hl⟩ := hl
    rw [hplace] at hb
    cases hb
    exact ⟨off, hl⟩
  · intro hl
    obtain ⟨off, hl⟩ := hl
    exact ⟨hpos, base, off, hplace, hl⟩

/-- The tables run out at one page only. -/
theorem Tabled.short_unique {m : Mach} {r off off' : Nat} (h1 : off % PAGE_SIZE = 0)
    (h1' : off' % PAGE_SIZE = 0) (hfits : Tabled m r (pages base (base + off)))
    (hshort : ¬ Tabled m r (pages base (base + (off + PAGE_SIZE))))
    (hfits' : Tabled m r (pages base (base + off')))
    (hshort' : ¬ Tabled m r (pages base (base + (off' + PAGE_SIZE)))) : off = off' := by
  have hs : PAGE_SIZE = 4096 := rfl
  rw [hs] at h1 h1' hshort hshort'
  by_contra hne
  rcases Nat.lt_or_gt_of_ne hne with hlt | hlt
  · exact hshort (hfits'.mono (by omega))
  · exact hshort' (hfits.mono (by omega))

/-- After a 0 of `vas_map_phys` everything is as it was, exactly when page 0
was not granted and no page whose references are counted was left without
tables. -/
theorem vasMapPhys_iff (hmax : maxPfn < 2 ^ 40) (hzero : usable 0 = false)
    (hv : s.spaces a = some v) {own kept : List Block} (hheap : s.heap.Perm (own ++ kept))
    (hkept : s.Spared kept) (h : Sound maxPfn usable R { s with heap := own } v (kept ++ rest) ref)
    (hint : Nat) (flags : Word) (hphys : pageAlignDown phys + pageAlignUp length ≤ 2 ^ 52)
    (hlend : ∀ off, off < pageAlignUp length →
      Lendable maxPfn (kept ++ rest) s.mach.pmm (physPfn (pageAlignDown phys + off))) :
    ∃ s' base, s.vasMapPhys a hint phys length flags = .ok (s', base)
      ∧ ((base = 0 → Unchanged maxPfn usable R s s' (kept ++ rest))
        ↔ ¬ ZeroMapped s v hint length flags ∧ ¬ Leaks maxPfn s v hint phys length flags) := by
  have hs : PAGE_SIZE = 4096 := rfl
  have hlen := pageAlignUp_mod length
  have hown : ∀ b ∈ own, b ∈ s.heap := fun b hb => hheap.mem_iff.mpr (List.mem_append_left _ hb)
  have hsame : Unchanged maxPfn usable R s s (kept ++ rest) :=
    ⟨rfl, fun _ _ _ _ => ⟨rfl, rfl⟩, fun _ _ => rfl, fun _ hq => Or.inl hq⟩
  unfold Vm.vasMapPhys
  simp only [hv]
  by_cases hpos : length = 0
  · rw [if_pos hpos]
    exact ⟨s, 0, rfl, fun _ => ⟨fun hz => hz.1 hpos, fun hl => hl.1 hpos⟩, fun _ _ => hsame⟩
  rw [if_neg hpos]
  cases hplace : placement v hint (pageAlignUp length) flags with
  | none =>
      refine ⟨s, 0, rfl, fun _ => ⟨fun hz => ?_, fun hl => ?_⟩, fun _ _ => hsame⟩
      · rw [placement_refused h.list hz.2.1 hz.2.2.1 hz.2.2.2.1 hz.2.2.2.2.1] at hplace
        cases hplace
      · obtain ⟨-, base, off, hbase, -⟩ := hl
        rw [hplace] at hbase
        cases hbase
  | some base =>
      obtain ⟨halign, hsum, hend, hmeets⟩ := h.list.placement (pageAlignUp_lt length) hplace
      have hbase := placement_base hplace
      have hleaks := @leaks_iff maxPfn s v hint phys length base flags hpos hplace
      simp only [hsum]
      rcases h.mapRange hmax hzero flags halign hend hmeets (pageAlignDown_mod phys) hphys hlend with
        ⟨m', hrun, hfit, hundo⟩ | ⟨off, m₂, h1, h2, hfits, hshort, hrun, hshift⟩
      · -- all pages are mapped
        have hno : ¬ Leaks maxPfn s v hint phys length flags := fun hl => by
          obtain ⟨off, h1, h2, -, hshort, -⟩ := hleaks.mp hl
          exact hshort (hfit.mono (by rw [hs] at h1 hlen ⊢; omega))
        have hserved := kzalloc_served s m'
        obtain ⟨heap, hstate, hperm⟩ := kzalloc_spared (s := { s with mach := m' }) hheap hkept
        have hr : HeapRun { s with heap := own, mach := m' }
            ({ s with heap := own, mach := m' } : Vm).kzalloc.1 := heapRun_call _
        simp only [hrun, ne_eq, not_true_eq_false, if_false]
        cases hk : ({ s with mach := m' } : Vm).kzalloc with
        | mk s₁ ok =>
        rw [hk] at hserved hstate
        have hserved : ok = s.kzalloc.2 := hserved
        generalize ({ s with heap := own, mach := m' } : Vm).kzalloc.1 = s₂ at hr hstate hperm
        obtain rfl : s₁ = { s₂ with heap } := hstate
        cases ok with
        | false =>
            obtain ⟨m₂, hok, hshift⟩ := hundo _ hr
            have hun : Unchanged maxPfn usable R s _ (kept ++ rest) :=
              (hshift.owned heap fun b hb =>
                hperm.mem_iff.mpr (List.mem_append_left _ hb)).unchanged_iff.mpr fun _ _ => rfl
            simp only [lift, hok]
            refine ⟨_, 0, rfl, ⟨fun _ => ⟨fun hz => ?_, hno⟩, fun _ _ => hun⟩⟩
            have hserved' := hz.2.2.2.2.2.1
            rw [← hserved] at hserved'
            cases hserved'
        | true =>
            simp only
            refine ⟨_, base, rfl, ?_⟩
            by_cases hb : base = 0
            · -- page 0 is granted
              obtain ⟨hfixed, hhint⟩ := hbase.mp hb
              subst hb
              rw [Nat.zero_add] at hend hmeets hfit
              refine ⟨fun hp => ?_, fun hz => (hz.1 ⟨hpos, hfixed, hhint, hend, hmeets,
                hserved.symm, hfit⟩).elim⟩
              have hsame := congrFun (hp rfl).spaces a
              rw [setSpace_self, hv] at hsame
              have hlist := congrArg (fun v : Vas => v.list.length) (Option.some.inj hsame)
              simp only [length_vadInsert] at hlist
              omega
            · exact ⟨fun _ => ⟨fun hz => hb (hbase.mpr ⟨hz.2.1, hz.2.2.1⟩), hno⟩,
                fun _ e => (hb e).elim⟩
      · -- the tables run out
        have hzero' : ¬ ZeroMapped s v hint length flags := fun hz => by
          have hb : base = 0 := hbase.mpr ⟨hz.2.1, hz.2.2.1⟩
          rw [hb] at hshort
          refine hshort (Tabled.mono (n := pageAlignUp length) (by rw [hs] at h1 hlen ⊢; omega) ?_)
          rw [Nat.zero_add]
          exact hz.2.2.2.2.2.2
        have hone : Leaks maxPfn s v hint phys length flags
            ↔ Tracked maxPfn s.mach.pmm (physPfn (pageAlignDown phys + off)) := by
          rw [hleaks]
          constructor
          · intro hl
            obtain ⟨off', h1', -, hfits', hshort', hc⟩ := hl
            rw [← Tabled.short_unique h1' h1 hfits' hshort' hfits hshort]
            exact hc
          · exact fun hc => ⟨off, h1, h2, hfits, hshort, hc⟩
        simp only [hrun, ne_eq, neg_eq_zero, one_ne_zero, not_false_eq_true, if_true]
        refine ⟨_, 0, rfl, ?_⟩
        have hiff := (hshift.owned s.heap hown).unchanged_iff
        have hlf := hlend off h2
        refine Iff.trans ⟨fun hu => hu rfl, fun hu _ => hu⟩ (hiff.trans ?_)
        rw [hone]
        constructor
        · refine fun hnone => ⟨hzero', fun hc => ?_⟩
          have hnone := hnone _ (hlf.used h.holds.ledger)
          have hself : taken maxPfn s.mach [physPfn (pageAlignDown phys + off)]
            (physPfn (pageAlignDown phys + off)) = 1 := taken_self hc
          exact absurd (hself.symm.trans hnone) (by decide)
        · intro hz q _
          refine taken_untracked fun hin hc => hz.2 ?_
          rw [← List.mem_singleton.mp hin]
          exact hc

-- ==== a run

/-- All frames are used up, the heap has nothing left either, and frame 1
is mapped once. -/
theorem reachable_full : ∃ (s : Vm) (v : Vas) (rest : List Block) (ref : Nat → Nat),
    Reachable UserCall bootVm s ∧ s.spaces 0 = some v ∧ s.heap = []
    ∧ Sound 16 (fun q => 1 ≤ q) s.Roots s v rest ref
    ∧ Allocated rest 1 ∧ (s.mach.pmm.pages 1).refcount = 1
    ∧ gaps s.mach v.pml4 ((pages 0x20000 0x21000).flatMap tablePaths) = 0
    ∧ (s.vasMapPhys 0 0x20000 0x1000 0x1000 VAD_FIXED).toOption.map Prod.snd = some 0
    ∧ (s.vasMapPhys 0 0x8000000000 0x1000 0x1000 VAD_FIXED).toOption.map
      (fun r => (r.2, (r.1.mach.pmm.pages 1).refcount)) = some (0, 2) := by
  have hplay : (play UserCall bootVm [(fair, .create none),
      ([⟨[], true⟩], .mapAnon 0 0x5000 0xC000 PAGE_WRITE)]).bind (fun s =>
      (s.spaces 0).map fun v => (decide (s.heap.length = 0
          ∧ s.mach.pmm.pmmAllocPage.isNone = true ∧ (s.mach.pmm.pages 1).refcount = 1
          ∧ gaps s.mach v.pml4 ((pages 0x20000 0x21000).flatMap tablePaths) = 0),
        (s.vasMapPhys 0 0x20000 0x1000 0x1000 VAD_FIXED).toOption.map Prod.snd,
        (s.vasMapPhys 0 0x8000000000 0x1000 0x1000 VAD_FIXED).toOption.map
          fun r => (r.2, (r.1.mach.pmm.pages 1).refcount)))
      = some (true, some 0, some (0, 2)) := by
    decide +kernel
  obtain ⟨s, hrun, heq⟩ := Option.bind_eq_some_iff.mp hplay
  obtain ⟨v, hv, heq⟩ := Option.map_eq_some_iff.mp heq
  obtain ⟨hstate, heq⟩ := Prod.mk.inj heq
  obtain ⟨hempty, hfull, hcount, hgaps⟩ := of_decide_eq_true hstate
  have hheap : s.heap = [] := List.length_eq_zero_iff.mp hempty
  obtain ⟨hback, hleak⟩ := Prod.mk.inj heq
  have hreach := reachable_play .init hrun
  obtain ⟨rest, ref, h⟩ := bootVm_ready.sound (by decide) rfl hreach hv
  refine ⟨s, v, rest, ref, hreach, hv, hheap, h, ?_, hcount, hgaps, hback, hleak⟩
  -- no frame is free, so every usable frame is somebody's
  by_contra hno
  have hin : 1 ∈ Pmm.freeFrames s.mach.pmm := by
    rw [h.holds.ledger.freeFrames_eq, hheap]
    exact ⟨⟨by decide, rfl⟩, hno⟩
  rw [Pmm.freeFrames_none (Option.isNone_iff_eq_none.mp hfull)] at hin
  exact hin

/-- The frame of that run can be mapped once more. -/
theorem lendable_full {s : Vm} {rest : List Block} (hout : Allocated rest 1)
    (hcount : (s.mach.pmm.pages 1).refcount = 1) (off : Nat) (hoff : off < pageAlignUp 0x1000) :
    Lendable 16 ([] ++ rest) s.mach.pmm (physPfn (pageAlignDown 0x1000 + off)) := by
  have hup : pageAlignUp 0x1000 = 0x1000 := by decide
  have hdown : pageAlignDown 0x1000 = 0x1000 := by decide
  have hone : physPfn (pageAlignDown 0x1000 + off) = 1 := by
    rw [hdown]
    show (0x1000 + off) / 4096 = 1
    omega
  rw [hone]
  refine fun _ => ⟨hout, ?_⟩
  rw [hcount]
  decide

/-- The heap has no descriptor: the page is unmapped again, and its frame
has the references that it had. -/
theorem vasMapPhys_back : ∃ (s : Vm) (v : Vas) (rest : List Block) (s' : Vm),
    Reachable UserCall bootVm s ∧ s.spaces 0 = some v
    ∧ s.vasMapPhys 0 0x20000 0x1000 0x1000 VAD_FIXED = .ok (s', 0)
    ∧ Unchanged 16 (fun q => 1 ≤ q) s.Roots s s' rest := by
  obtain ⟨s, v, rest, ref, hreach, hv, hheap, h, hout, hcount, hgaps, hback, -⟩ := reachable_full
  obtain ⟨s', base, hrun, hiff⟩ := vasMapPhys_iff (by decide) rfl hv
    (show s.heap.Perm (s.heap ++ []) by rw [List.append_nil]) (spared_nil s) h 0x20000 VAD_FIXED
    (by decide) (lendable_full hout hcount)
  have hbase : base = 0 := by
    rw [hrun] at hback
    exact Option.some.inj hback
  rw [hbase] at hrun hiff
  refine ⟨s, v, rest, s', hreach, hv, hrun, hiff.mpr ⟨fun hz => ?_, fun hl => ?_⟩ rfl⟩
  · exact absurd hz.2.2.1 (by decide)
  · obtain ⟨-, b, off, hplace, h1, h2, -, hshort, -⟩ := hl
    have hup : pageAlignUp 0x1000 = 0x1000 := by decide
    have hsize : PAGE_SIZE = 4096 := rfl
    rw [hup] at h2
    rw [hsize] at h1
    have hoff : off = 0 := by omega
    have hb : b = 0x20000 := by
      unfold placement at hplace
      rw [if_pos (by decide)] at hplace
      simp only at hplace
      split at hplace
      · cases hplace
      split at hplace
      · cases hplace
      · exact (Option.some.inj hplace).symm
    refine hshort ?_
    unfold Tabled
    rw [hoff, hb, show pages 0x20000 (0x20000 + (0 + PAGE_SIZE)) = pages 0x20000 0x21000 from rfl,
      hgaps]
    exact Nat.zero_le _

/-- Without frames for the tables, the reference stays. -/
theorem vasMapPhys_leak : ∃ (s : Vm) (v : Vas) (rest : List Block) (ref : Nat → Nat) (s' : Vm),
    Reachable UserCall bootVm s ∧ s.spaces 0 = some v
    ∧ Sound 16 (fun q => 1 ≤ q) s.Roots s v rest ref
    ∧ (∀ off, off < pageAlignUp 0x1000 →
      Lendable 16 rest s.mach.pmm (physPfn (pageAlignDown 0x1000 + off)))
    ∧ s.vasMapPhys 0 0x8000000000 0x1000 0x1000 VAD_FIXED = .ok (s', 0)
    ∧ (s.mach.pmm.pages 1).refcount = 1 ∧ (s'.mach.pmm.pages 1).refcount = 2
    ∧ ¬ Unchanged 16 (fun q => 1 ≤ q) s.Roots s s' rest := by
  obtain ⟨s, v, rest, ref, hreach, hv, hheap, h, hout, hcount, -, -, hleak⟩ := reachable_full
  obtain ⟨r, hcall, heq⟩ := Option.map_eq_some_iff.mp hleak
  obtain ⟨hbase, hnow⟩ := Prod.mk.inj heq
  refine ⟨s, v, rest, ref, r.1, hreach, hv, h, lendable_full hout hcount, ?_, hcount, hnow,
    fun hun => ?_⟩
  · cases hc : s.vasMapPhys 0 0x8000000000 0x1000 0x1000 VAD_FIXED with
    | error e =>
        rw [hc] at hcall
        cases hcall
    | ok x =>
        rw [hc] at hcall
        cases hcall
        exact congrArg Except.ok (Prod.ext rfl hbase)
  · have hsame := (Page.data_eq_iff.mp (hun.pages 1 (Or.inr hout))).1
    rw [hnow, hcount] at hsame
    cases hsame

end Vm

end Alix
