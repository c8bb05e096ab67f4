/-
`vas_clone` that fails, taken back.

# What holds

The call returns a space or nothing, it does not panic, and after nothing
the source maps what it mapped: its descriptors and its translations are
the same, every frame has the references it had, and every word is there.
What is not the same are permissions. A page that the loop came to may
have lost its write permission for good, and its frame is marked for
copying. But it has its one reference back, so the next write fault gives
the permission back and copies nothing.

# The proof

`Borrows` is what everyone but the clone can see of a step. The counts
move by `n`, and an entry of the source may be `Recast`: the same frame
behind other flags, in a descriptor that the fault handler accepts, and
marked. It composes, and the counts add up. `Cloning` says that at any
moment `n` counts the entries of the new root, so when the last of them
is gone it is 0.

That a page which was writable gets its permission back rests on the
counts alone. Writable, it was the only page of its frame, so the count
was 1 before and is 1 again, and the handler takes the frame over
(`Firm.takesOver`).
-/
import Alix.Mm.Proofs.Twin
import Alix.Mm.Proofs.Fault
import Alix.Mm.Proofs.Destroy

namespace Alix

open Paging
open Radix
open Dyadic (Block)
open Pmm (Ledger Usable Allocated)

variable {maxPfn : Nat} {usable : Nat → Bool} {heap tabs rest : List Block}
  {ref ref' : Nat → Nat} {R T U : Nat → Prop} {m m' m'' : Mach} {v : Vas} {w : Vad}
  {r va f g q u : Nat} {flags : Word} {n n' : Nat → Int}

-- ==== the others

/-- The tables of the roots are in use, the lower ones are a forest, and
the upper ones are none of them. -/
structure Rooted (R T : Nat → Prop) (m : Mach) : Prop where
  forest : Forest (child m.mem) R Lower
  held : ∀ f, Table m R f → T f
  above : Above m R T

/-- The descriptor has `n` more references, and perhaps the mark. -/
structure Moved (maxPfn : Nat) (m m' : Pmm) (n : Int) (q : Nat) : Prop where
  count : (m'.pages q).refcount = (m.pages q).refcount + n
  flags : (m'.pages q).flags = (m.pages q).flags
    ∨ Tracked maxPfn m q ∧ (m'.pages q).flags = (m.pages q).flags ||| PAGE_COW

/-- The page of `u` has the same frame behind other flags. Its descriptor
`w` allows writing, and the frame is marked. -/
structure Recast (maxPfn : Nat) (T : Nat → Prop) (v : Vas) (m m' : Mach) (u : Nat) (w : Vad)
    (f : Nat) : Prop where
  low : u < 2 ^ 47
  find : vasFind v.list (pageAlignDown u) = some w
  write : hasFlag w.flags PAGE_WRITE = true
  plain : hasFlag w.flags VAD_SHARED = false
  used : T f
  tracked : Tracked maxPfn m.pmm f
  frame : frameOf (leaf m.mem v.pml4 u) = some f
  again : frameOf (leaf m'.mem v.pml4 u) = some f
  cow : (m'.pmm.pages f).cow = true

/-- What the holders of the frames `T` can see: their counts move by `n`,
and pages of the space `v` are recast. -/
structure Borrows (maxPfn : Nat) (R T : Nat → Prop) (v : Vas) (n : Nat → Int) (m m' : Mach) :
    Prop where
  rooted : Rooted R T m'
  pages : ∀ q, T q → Moved maxPfn m.pmm m'.pmm (n q) q
  tables : ∀ f, Table m' R f ↔ Table m R f
  words : ∀ q, T q → ¬ Table m R q → m'.mem q = m.mem q
  entries : ∀ t u, R t → Canonical u → leaf m'.mem t u = leaf m.mem t u
    ∨ t = v.pml4 ∧ ∃ w f, Recast maxPfn T v m m' u w f

theorem Rooted.inv (h : Rooted R T m) : Inv (fun _ _ => True) m R T :=
  ⟨h.forest, h.held, trivial⟩

theorem Rooted.alone (h : Rooted R T m) (hr : R r) (hv : va < 2 ^ 47) : Alone m.mem r va :=
  alone_of_apart h.forest hr hv fun p f hne hp hw => h.above.apart r p f hr hne hp hw

namespace Moved

variable {p p' p'' : Pmm} {k k' : Int}

theorem of_data (h : (p'.pages q).data = ((p.pages q).more k).data) : Moved maxPfn p p' k q := by
  obtain ⟨hcount, -, hflags, -⟩ := Page.data_eq_iff.mp h
  exact ⟨hcount, Or.inl hflags⟩

/-- The mark is none of the flags that decide whether a frame is counted. -/
theorem tracked (h : Moved maxPfn p p' k q) : Tracked maxPfn p' q ↔ Tracked maxPfn p q := by
  have hres : hasFlag PAGE_COW PAGE_RESERVED = false := by decide
  have hpoi : hasFlag PAGE_COW PAGE_POISON = false := by decide
  unfold Tracked PassedOver Page.reserved Page.poisoned
  rcases h.flags with he | ⟨-, he⟩
  · rw [he]
  · rw [he, hasFlag_or, hasFlag_or, hres, hpoi, Bool.or_false, Bool.or_false]

theorem cow (h : Moved maxPfn p p' k q) (hc : (p.pages q).cow = true) :
    (p'.pages q).cow = true := by
  unfold Page.cow at hc ⊢
  rcases h.flags with he | ⟨-, he⟩
  · rw [he]
    exact hc
  · rw [he, hasFlag_or, hc]
    rfl

theorem trans (h : Moved maxPfn p p' k q) (h' : Moved maxPfn p' p'' k' q) :
    Moved maxPfn p p'' (k + k') q := by
  refine ⟨?_, ?_⟩
  · rw [h'.count, h.count]
    exact Int.add_assoc _ _ _
  · rcases h'.flags with he' | ⟨hc, he'⟩
    · rw [he']
      exact h.flags
    · right
      refine ⟨h.tracked.mp hc, ?_⟩
      rw [he']
      rcases h.flags with he | ⟨-, he⟩
      · rw [he]
      · rw [he, BitVec.or_assoc, BitVec.or_self]

end Moved

namespace Borrows

/-- A recast page has the frame it had. -/
theorem frame (h : Borrows maxPfn R T v n m m') {t : Nat} (ht : R t) (hu : Canonical u) :
    frameOf (leaf m'.mem t u) = frameOf (leaf m.mem t u) := by
  rcases h.entries t u ht hu with he | ⟨rfl, w, f, hre⟩
  · rw [he]
  · rw [hre.again, hre.frame]

/-- Only the counts of frames in use matter. -/
theorem congr (h : Borrows maxPfn R T v n m m') (hn : ∀ q, T q → n q = n' q) :
    Borrows maxPfn R T v n' m m' :=
  { h with pages := fun q hq => by rw [← hn q hq]; exact h.pages q hq }

/-- One after the other. -/
theorem trans (h : Borrows maxPfn R T v n m m') (h' : Borrows maxPfn R T v n' m' m'') :
    Borrows maxPfn R T v (fun q => n q + n' q) m m'' := by
  refine ⟨h'.rooted, fun q hq => (h.pages q hq).trans (h'.pages q hq),
    fun f => (h'.tables f).trans (h.tables f), fun q hq hno => ?_, fun t u ht hu => ?_⟩
  · rw [h'.words q hq fun hc => hno ((h.tables q).mp hc)]
    exact h.words q hq hno
  · rcases h'.entries t u ht hu with he | ⟨rfl, w, f, hre⟩
    · rw [he]
      refine (h.entries t u ht hu).imp_right fun hold => ?_
      obtain ⟨rfl, w, f, hre⟩ := hold
      exact ⟨rfl, w, f, { hre with
        again := he ▸ hre.again
        cow := (h'.pages f hre.used).cow hre.cow }⟩
    · exact Or.inr ⟨rfl, w, f, { hre with
        tracked := (h.pages f hre.used).tracked.mp hre.tracked
        frame := (h.frame ht hu).symm.trans hre.frame }⟩

end Borrows

namespace Rooted

/-- Nobody writes a frame that is in use. -/
theorem off (h : Rooted R T m) (hmem : ∀ f, T f → m'.mem f = m.mem f)
    (hpages : ∀ q, T q → Moved maxPfn m.pmm m'.pmm (n q) q) : Borrows maxPfn R T v n m m' := by
  obtain ⟨hforest, hheld, hgrows⟩ := h.inv.off hmem
  refine ⟨⟨hforest, hheld, hgrows.toFramed.above h.forest h.held h.above⟩, hpages,
    SameTables.table fun t q ht hq => h.inv.walk_off hmem ht hq, fun q hq _ => hmem q hq,
    fun t u ht hu => Or.inl ?_⟩
  by_cases hlow : u < 2 ^ 47
  · exact hgrows.leaf t u ht hlow
  · exact hgrows.toFramed.upper_leaf h.forest h.held h.above ht hu (by omega)

theorem aside (h : Rooted R (Used maxPfn usable rest) m)
    (ha : Aside maxPfn usable rest n m m') :
    Borrows maxPfn R (Used maxPfn usable rest) v n m m' :=
  h.off ha.words fun q hq => Moved.of_data (ha.pages q hq)

/-- `remap_page_flags` of a page whose frame is marked. -/
theorem remap (h : Rooted R T m) (hr : R v.pml4) (hv : va < 2 ^ 47) (ha : va % PAGE_SIZE = 0)
    (hfind : vasFind v.list va = some w) (hwrite : hasFlag w.flags PAGE_WRITE = true)
    (hplain : hasFlag w.flags VAD_SHARED = false)
    (hframe : frameOf (leaf m.mem v.pml4 va) = some f) (hf : T f)
    (hc : Tracked maxPfn m.pmm f) (hcow : (m.pmm.pages f).cow = true) (flags : Word) :
    ∃ m', m.remapPageFlags v.pml4 va flags = (m', 0) ∧ m'.pmm = m.pmm
      ∧ (∀ q, ¬ Table m R q → m'.mem q = m.mem q)
      ∧ Borrows maxPfn R T v (fun _ => 0) m m' := by
  have hs : PAGE_SIZE = 4096 := rfl
  obtain ⟨m', hok, hpmm, hw⟩ := rewrites_remap (h.alone hr hv) (Or.inl hv) ha flags
  have hpage : ∀ n, n = va / PAGE_SIZE → n < 2 ^ 35 := by
    rintro n rfl
    exact page_lower hv
  obtain ⟨hwalk, hframed, hothers⟩ := hw.framed (T := T) h.forest hr hpage
  have htables : ∀ f, Table m' R f ↔ Table m R f := SameTables.table hwalk
  have hwords : ∀ q, ¬ Table m R q → m'.mem q = m.mem q := by
    intro q hq
    funext j
    rcases hw.frame q j with he | ⟨u, hu, hin, hwq, -⟩
    · exact he
    · refine (hq ⟨v.pml4, _, hr, lower_tablePath ?_, hwq⟩).elim
      have := hpage _ hin
      rw [hs] at this
      omega
  refine ⟨m', hok, hpmm, hwords, ⟨⟨⟨fun ht ht' hq hq' hwq hwq' => ?_⟩,
    fun f hf => h.held f ((htables f).mp hf), hframed.above h.forest h.held h.above⟩, fun q hq => ?_,
    htables, fun q _ hno => hwords q hno, fun t u ht hu => ?_⟩⟩
  · rw [hwalk _ _ ht hq] at hwq
    rw [hwalk _ _ ht' hq'] at hwq'
    exact h.forest.sep ht ht' hq hq' hwq hwq'
  · rw [hpmm]
    exact ⟨(Int.add_zero _).symm, Or.inl rfl⟩
  · by_cases hlow : u < 2 ^ 47
    · by_cases htr : t = v.pml4
      · by_cases hin : u / PAGE_SIZE = va / PAGE_SIZE
        · have hdown : pageAlignDown u = va := by
            show u / PAGE_SIZE * PAGE_SIZE = va
            rw [hin]
            rw [hs] at ha ⊢
            omega
          have hsame := leaf_same m.mem v.pml4 hin
          refine Or.inr ⟨htr, w, f, hlow, ?_, hwrite, hplain, hf, hc, ?_, ?_, ?_⟩
          · rw [hdown]
            exact hfind
          · rw [hsame]
            exact hframe
          · rw [hw.inside u hu hin, frameOf_reflag, hsame]
            exact hframe
          · rw [hpmm]
            exact hcow
        · rw [htr]
          exact Or.inl (hw.outside u hu hin)
      · exact Or.inl (hothers t u ht htr hlow)
    · exact Or.inl (hframed.upper_leaf h.forest h.held h.above ht hu (by omega))

end Rooted

-- ==== the statement

namespace Vm

/-- A state in which the counts of the mapped frames are right, and a frame
that is mapped writable is mapped once. The tables, the heap and the list of
descriptors can be relied on. -/
structure Tallied (maxPfn : Nat) (usable : Nat → Bool) (R : Nat → Prop) (s : Vm) (v : Vas)
    (rest : List Block) (ref : Nat → Nat) : Prop where
  root : R v.pml4
  list : VadsOk v.list
  low : ∀ w ∈ v.list, w.stop ≤ 2 ^ 47
  holds : Holds maxPfn usable s rest ref
  rooted : Rooted R (Used maxPfn usable rest) s.mach
  kernel : ∀ k, s.kernelPml4 = some k → Used maxPfn usable rest k ∧ ∀ p f, p ≠ [] → Upper p →
    walk (child s.mach.mem) k p = some f → Used maxPfn usable rest f ∧ ¬ Table s.mach R f
  mapped : ∀ f, (mappers s.mach R f).Nonempty → Used maxPfn usable rest f ∧ ¬ Table s.mach R f
  counted : ∀ f, (mappers s.mach R f).Nonempty → Tracked maxPfn s.mach.pmm f →
    Allocated rest f ∧ (mappers s.mach R f).Finite
      ∧ (s.mach.pmm.pages f).refcount = (mappers s.mach R f).ncard
  marked : ∀ f, (mappers s.mach R f).Nonempty → f ≤ maxPfn →
    (s.mach.pmm.pages f).cow = true → Tracked maxPfn s.mach.pmm f
  sole : ∀ f x y, Tracked maxPfn s.mach.pmm f → x ∈ mappers s.mach R f →
    y ∈ mappers s.mach R f →
    hasFlag (leaf s.mach.mem x.1 (x.2 * PAGE_SIZE)) PAGE_WRITE = true → x = y
  fresh : ∀ b, s.next ≤ b → s.spaces b = none

/-- The page can be written through the root. -/
def WritableAt (m : Mach) (r x : Nat) : Prop :=
  hasFlag (pagingGetFlags Pmm.pmmAllocPage m (some r) x) PAGE_WRITE = true

/-- The space `v` can go on as if nothing had happened: a page that was
writable still is, or it is after a write fault. -/
structure Undone (maxPfn : Nat) (usable : Nat → Bool) (R : Nat → Prop) (s s' : Vm) (v : Vas)
    (rest : List Block) : Prop where
  spaces : s'.spaces = s.spaces
  entries : ∀ t x, R t → Canonical x → pagingVirtToPhys Pmm.pmmAllocPage s'.mach (some t) x
    = pagingVirtToPhys Pmm.pmmAllocPage s.mach (some t) x
  counts : ∀ q, Used maxPfn usable rest q →
    (s'.mach.pmm.pages q).refcount = (s.mach.pmm.pages q).refcount
  words : ∀ t x, R t → x < 2 ^ 47 → seen s'.mach t x = seen s.mach t x
  writable : ∀ x, Canonical x → WritableAt s.mach v.pml4 x → WritableAt s'.mach v.pml4 x
    ∨ ∃ m, s'.mach.vasHandlePageFault v x 0x3 = .ok (m, 0) ∧ WritableAt m v.pml4 x
      ∧ pagingVirtToPhys Pmm.pmmAllocPage m (some v.pml4) x
        = pagingVirtToPhys Pmm.pmmAllocPage s.mach (some v.pml4) x
      ∧ seen m v.pml4 x = seen s.mach v.pml4 x

end Vm

-- ==== the clone

/-- The frames behind these pages of the root. -/
def framesAt (m : Mach) (g : Nat) (vas : List Nat) : List Nat :=
  vas.filterMap fun va => frameOf (leaf m.mem g va)

/-- In the middle of a clone into the root `g`: the frames behind the pages
`done` have a reference for each, and so have the frames `fs`. -/
structure Cloning (maxPfn : Nat) (usable : Nat → Bool) (R : Nat → Prop) (v : Vas)
    (heap tabs rest : List Block) (ref : Nat → Nat) (g : Nat) (m₀ m : Mach)
    (done fs : List Nat) : Prop where
  twin : Twin maxPfn usable heap tabs rest ref
    (fun f => Used maxPfn usable rest f ∧ ¬ Table m₀ R f) g m
  borrows : Borrows maxPfn R (Used maxPfn usable rest) v
    (taken maxPfn m₀ (framesAt m g done ++ fs)) m₀ m
  mapped : ∀ f ∈ framesAt m g done ++ fs, (mappers m₀ R f).Nonempty

section framesAt

variable {vas vas' done fs : List Nat}

theorem framesAt_append (vas vas' : List Nat) :
    framesAt m g (vas ++ vas') = framesAt m g vas ++ framesAt m g vas' :=
  List.filterMap_append

theorem framesAt_cons (va : Nat) (vas : List Nat) :
    framesAt m g (va :: vas) = (frameOf (leaf m.mem g va)).toList ++ framesAt m g vas := by
  unfold framesAt
  rw [List.filterMap_cons]
  cases frameOf (leaf m.mem g va) with
  | none => rfl
  | some f => rfl

theorem framesAt_congr (h : ∀ va ∈ vas, leaf m'.mem g va = leaf m.mem g va) :
    framesAt m' g vas = framesAt m g vas := by
  unfold framesAt
  exact List.filterMap_congr fun va hva => by rw [h va hva]

theorem framesAt_bare (h : ∀ va ∈ vas, leaf m.mem g va = 0) : framesAt m g vas = [] := by
  unfold framesAt
  refine List.filterMap_eq_nil_iff.mpr fun va hva => ?_
  rw [h va hva]
  rfl

end framesAt

/-- A store to the descriptor of a frame that the allocator has handed out
to the others: its count moves by `k`, and it may be marked. -/
theorem Twin.stamp (h : Twin maxPfn usable heap tabs rest ref U g m)
    (hr : Rooted R (Used maxPfn usable rest) m) (hf : Allocated rest f) {F : Page → Page} {k : Int}
    (hnext : ∀ p, (F p).next = p.next) (hprev : ∀ p, (F p).prev = p.prev)
    (horder : ∀ p, (F p).order = p.order) (hcount : ∀ p, (F p).refcount = p.refcount + k)
    (hpos : 0 < (m.pmm.pages f).refcount → 0 < (m.pmm.pages f).refcount + k)
    (hflags : (∀ p, (F p).flags = p.flags)
      ∨ Tracked maxPfn m.pmm f ∧ ∀ p, (F p).flags = p.flags ||| PAGE_COW) :
    ∃ ref', Twin maxPfn usable heap tabs rest ref' U g (m.modPage f F)
      ∧ Borrows maxPfn R (Used maxPfn usable rest) v (fun q => if q = f then k else 0) m
        (m.modPage f F) := by
  have hbits : ∀ i, i = 0 ∨ i = 2 ∨ i = 5 → PAGE_COW.getLsbD i = false := by
    rintro i (rfl | rfl | rfl) <;> decide
  have hharm : Pmm.Harmless F := by
    refine ⟨hnext, hprev, horder, fun i hi p hbit => ?_⟩
    rcases hflags with he | ⟨-, he⟩
    · rw [← he]
      exact hbit
    · rw [he, BitVec.getLsbD_or, hbits i hi, Bool.or_false] at hbit
      exact hbit
  obtain ⟨ref', hl⟩ := h.parted.ledger.stamp (Parted.allocated hf) hharm fun hp => by
    rw [hcount]
    exact hpos hp
  have hself : (m.modPage f F).pmm.pages f = F (m.pmm.pages f) := Pmm.modPage_pages_self _ _ _
  have hother : ∀ q, q ≠ f → (m.modPage f F).pmm.pages q = m.pmm.pages q := fun q hq =>
    Pmm.modPage_pages_of_ne _ hq _
  have hne : ∀ b ∈ heap ++ tabs, b.base ≠ f := fun b hb e =>
    h.parted.apart hb (Block.base_mem b) (by rw [e]; exact Or.inr hf)
  have hparted : Parted maxPfn usable heap tabs rest ref' (m.modPage f F).pmm :=
    h.parted.recount hl fun b hb => by rw [← hother _ (hne b hb)]
  obtain ⟨htwin, -⟩ := h.off hparted fun _ _ => rfl
  refine ⟨ref', htwin, hr.off (fun _ _ => rfl) fun q _ => ?_⟩
  by_cases hq : q = f
  · rw [if_pos hq, hq]
    refine ⟨by rw [hself]; exact hcount _, ?_⟩
    rw [hself]
    exact hflags.imp (fun he => he _) fun he => ⟨he.1, he.2 _⟩
  · rw [if_neg hq]
    refine ⟨?_, Or.inl ?_⟩
    · rw [hother q hq]
      exact (Int.add_zero _).symm
    · rw [hother q hq]

namespace Cloning

variable {s : Vm} {ref₀ : Nat → Nat} {tabs' heap' : List Block} {done done' fs fs' : List Nat}
  {m₀ : Mach}

/-- A step that the others see as `n`, where the books still agree. -/
theorem step (c : Cloning maxPfn usable R v heap tabs rest ref g m₀ m done fs)
    (ht : Twin maxPfn usable heap' tabs' rest ref'
      (fun f => Used maxPfn usable rest f ∧ ¬ Table m₀ R f) g m')
    (hb : Borrows maxPfn R (Used maxPfn usable rest) v n m m')
    (hn : ∀ q, Used maxPfn usable rest q → taken maxPfn m₀ (framesAt m g done ++ fs) q + n q
      = taken maxPfn m₀ (framesAt m' g done' ++ fs') q)
    (hmapped : ∀ f ∈ framesAt m' g done' ++ fs', (mappers m₀ R f).Nonempty) :
    Cloning maxPfn usable R v heap' tabs' rest ref' g m₀ m' done' fs' :=
  ⟨ht, (c.borrows.trans hb).congr hn, hmapped⟩

/-- A step that changes no entry of the new root and no count. -/
theorem still (c : Cloning maxPfn usable R v heap tabs rest ref g m₀ m done fs)
    (ht : Twin maxPfn usable heap' tabs' rest ref'
      (fun f => Used maxPfn usable rest f ∧ ¬ Table m₀ R f) g m')
    (hb : Borrows maxPfn R (Used maxPfn usable rest) v (fun _ => 0) m m')
    (hleaf : ∀ va ∈ done, leaf m'.mem g va = leaf m.mem g va) :
    Cloning maxPfn usable R v heap' tabs' rest ref' g m₀ m' done fs := by
  have hsame := framesAt_congr hleaf
  refine c.step ht hb (fun q _ => ?_) ?_
  · rw [hsame]
    exact Int.add_zero _
  · rw [hsame]
    exact c.mapped

/-- Pages without an entry do not matter. -/
theorem regroup (c : Cloning maxPfn usable R v heap tabs rest ref g m₀ m done fs)
    (hsame : framesAt m g done' = framesAt m g done) :
    Cloning maxPfn usable R v heap tabs rest ref g m₀ m done' fs := by
  obtain ⟨ht, hb, hm⟩ := c
  rw [← hsame] at hb hm
  exact ⟨ht, hb, hm⟩

/-- Whether a frame is counted does not change. -/
theorem tracked (c : Cloning maxPfn usable R v heap tabs rest ref g m₀ m done fs)
    (hf : Used maxPfn usable rest f) :
    Tracked maxPfn m.pmm f ↔ Tracked maxPfn m₀.pmm f :=
  (c.borrows.pages f hf).tracked

/-- A page of the source has the frame it had. -/
theorem source (h : Vm.Tallied maxPfn usable R s v rest ref₀)
    (c : Cloning maxPfn usable R v heap tabs rest ref g s.mach m done fs) (hv : va < 2 ^ 47)
    (hf : frameOf (leaf m.mem v.pml4 va) = some f) : (mappers s.mach R f).Nonempty := by
  rw [c.borrows.frame h.root (Or.inl hv)] at hf
  exact ⟨_, mappers_of_leaf h.root hv hf⟩

/-- A mapped frame has a reference for each of its entries, and one more
for each in the clone. -/
theorem refcount (h : Vm.Tallied maxPfn usable R s v rest ref₀)
    (c : Cloning maxPfn usable R v heap tabs rest ref g s.mach m done fs)
    (hmap : (mappers s.mach R f).Nonempty) (hc : Tracked maxPfn s.mach.pmm f) :
    0 < (s.mach.pmm.pages f).refcount ∧ (m.pmm.pages f).refcount
      = (s.mach.pmm.pages f).refcount + taken maxPfn s.mach (framesAt m g done ++ fs) f := by
  obtain ⟨-, hfin, hcount⟩ := h.counted f hmap hc
  have hpos := (Set.ncard_pos hfin).mpr hmap
  refine ⟨by omega, (c.borrows.pages f (h.mapped f hmap).1).count⟩

/-- The frame of the page, if it is counted, gets a reference. -/
theorem take (h : Vm.Tallied maxPfn usable R s v rest ref₀)
    (c : Cloning maxPfn usable R v heap tabs rest ref g s.mach m done [])
    (hmap : (mappers s.mach R f).Nonempty) (hc : Tracked maxPfn m.pmm f) :
    ∃ ref', Cloning maxPfn usable R v heap tabs rest ref' g s.mach
      { m with pmm := m.pmm.pageRefInc f } done [f] := by
  have hused := (h.mapped f hmap).1
  have hc₀ := (c.tracked hused).mp hc
  obtain ⟨ref', ht, hb⟩ := c.twin.stamp (v := v) c.borrows.rooted (h.counted f hmap hc₀).1
    (F := fun p => { p with refcount := p.refcount + 1 }) (k := 1) (fun _ => rfl) (fun _ => rfl)
    (fun _ => rfl) (fun _ => rfl) (by omega) (Or.inl fun _ => rfl)
  refine ⟨ref', c.step ht hb (fun q _ => ?_) fun x hx => ?_⟩
  · show taken maxPfn s.mach (framesAt m g done ++ []) q + _
      = taken maxPfn s.mach (framesAt m g done ++ [f]) q
    rw [List.append_nil, taken_append]
    by_cases hq : q = f
    · rw [if_pos hq, hq, taken_self hc₀]
    · rw [if_neg hq, taken_of_ne hq]
  · rcases List.mem_append.mp hx with hx | hx
    · exact c.mapped x (List.mem_append_left _ hx)
    · rw [List.mem_singleton.mp hx]
      exact hmap

/-- A frame whose references are not counted takes none. -/
theorem foreign_iff (hmap : (mappers m₀ R f).Nonempty)
    (hc : ¬ Tracked maxPfn m₀.pmm f) :
    Cloning maxPfn usable R v heap tabs rest ref g m₀ m done [f]
      ↔ Cloning maxPfn usable R v heap tabs rest ref g m₀ m done [] := by
  have hno : ∀ q, taken maxPfn m₀ [f] q = 0 := fun q => taken_untracked fun hq hcq => by
    rw [List.mem_singleton.mp hq] at hcq
    exact hc hcq
  have hsum : ∀ q, taken maxPfn m₀ (framesAt m g done ++ [f]) q
      = taken maxPfn m₀ (framesAt m g done ++ []) q := fun q => by
    rw [List.append_nil, taken_append, hno, Int.add_zero]
  constructor
  · intro c
    exact ⟨c.twin, c.borrows.congr fun q _ => hsum q, fun x hx =>
      c.mapped x (List.mem_append_left _ (by rwa [List.append_nil] at hx))⟩
  · intro c
    refine ⟨c.twin, c.borrows.congr fun q _ => (hsum q).symm, fun x hx => ?_⟩
    rcases List.mem_append.mp hx with hx | hx
    · exact c.mapped x (List.mem_append_left _ hx)
    · rw [List.mem_singleton.mp hx]
      exact hmap

/-- The reference is given back. -/
theorem drop (h : Vm.Tallied maxPfn usable R s v rest ref₀)
    (c : Cloning maxPfn usable R v heap tabs rest ref g s.mach m done [f])
    (hc : Tracked maxPfn m.pmm f) :
    ∃ m' ref', m.free f = .ok m'
      ∧ Cloning maxPfn usable R v heap tabs rest ref' g s.mach m' done []
      ∧ m'.mem = m.mem := by
  have hmap := c.mapped f (List.mem_append_right _ (List.mem_singleton_self f))
  have hused := (h.mapped f hmap).1
  have hc₀ := (c.tracked hused).mp hc
  obtain ⟨hpos, hcount⟩ := c.refcount h hmap hc₀
  rw [taken_append, taken_self hc₀] at hcount
  have hrest := taken_nonneg maxPfn s.mach (framesAt m g done) f
  have hout := (h.counted f hmap hc₀).1
  obtain ⟨hok, -⟩ := c.twin.parted.ledger.free_more (Parted.allocated hout) (by omega)
  obtain ⟨ref', ht, hb⟩ := c.twin.stamp (v := v) c.borrows.rooted hout
    (F := fun p => { p with refcount := p.refcount - 1 }) (k := -1) (fun _ => rfl) (fun _ => rfl)
    (fun _ => rfl) (fun _ => rfl) (by omega) (Or.inl fun _ => rfl)
  refine ⟨_, ref', ?_, c.step ht hb (fun q _ => ?_) fun x hx => ?_, rfl⟩
  · unfold Machine.free
    rw [hok]
    rfl
  · show taken maxPfn s.mach (framesAt m g done ++ [f]) q + _
      = taken maxPfn s.mach (framesAt m g done ++ []) q
    rw [List.append_nil, taken_append]
    by_cases hq : q = f
    · rw [if_pos hq, hq, taken_self hc₀]
      omega
    · rw [if_neg hq, taken_of_ne hq]
      omega
  · rw [List.append_nil] at hx
    exact c.mapped x (List.mem_append_left _ hx)

/-- The frame is marked, and the entry of the source loses its flags. -/
theorem recast (h : Vm.Tallied maxPfn usable R s v rest ref₀)
    (c : Cloning maxPfn usable R v heap tabs rest ref g s.mach m done fs)
    (hlow : LowerPages done) (hv : va < 2 ^ 47) (ha : va % PAGE_SIZE = 0)
    (hfind : vasFind v.list va = some w) (hwrite : hasFlag w.flags PAGE_WRITE = true)
    (hplain : hasFlag w.flags VAD_SHARED = false)
    (hf : frameOf (leaf m.mem v.pml4 va) = some f) (hc : Tracked maxPfn m.pmm f) (flags : Word) :
    ∃ m' ref', (m.modPage f (Page.setFlag PAGE_COW)).remapPageFlags v.pml4 va flags = (m', 0)
      ∧ Cloning maxPfn usable R v heap tabs rest ref' g s.mach m' done fs
      ∧ ∀ u, u < 2 ^ 47 → leaf m'.mem g u = leaf m.mem g u := by
  have hmap := c.source h hv hf
  have hused := (h.mapped f hmap).1
  have hc₀ := (c.tracked hused).mp hc
  obtain ⟨ref', ht, hb⟩ := c.twin.stamp (v := v) c.borrows.rooted (h.counted f hmap hc₀).1
    (F := Page.setFlag PAGE_COW) (k := 0) (fun _ => rfl) (fun _ => rfl) (fun _ => rfl)
    (fun _ => (Int.add_zero _).symm) (by omega) (Or.inr ⟨hc, fun _ => rfl⟩)
  have hb : Borrows maxPfn R (Used maxPfn usable rest) v (fun _ => 0) m
      (m.modPage f (Page.setFlag PAGE_COW)) := hb.congr fun q _ => ite_self 0
  have c₁ := c.still ht hb fun _ _ => rfl
  have hcow : ((m.modPage f (Page.setFlag PAGE_COW)).pmm.pages f).cow = true := by
    rw [show (m.modPage f (Page.setFlag PAGE_COW)).pmm.pages f
      = Page.setFlag PAGE_COW (m.pmm.pages f) from Pmm.modPage_pages_self _ _ _]
    unfold Page.cow Page.setFlag
    have hmark : hasFlag PAGE_COW PAGE_COW = true := by decide
    rw [hasFlag_or, hmark, Bool.or_true]
  obtain ⟨m', hok, hpmm, hwords, hb'⟩ := c₁.borrows.rooted.remap h.root hv ha hfind hwrite hplain
    hf hused ((c₁.tracked hused).mpr hc₀) hcow flags
  have hparted := c₁.twin.parted
  rw [← hpmm] at hparted
  obtain ⟨ht', hleaf⟩ := c₁.twin.off hparted fun x hx => by
    refine hwords x fun htable => ?_
    rcases hx with hx | ⟨-, hx⟩
    · exact c₁.twin.parted.table_apart hx (c₁.borrows.rooted.held x htable)
    · exact hx ((c₁.borrows.tables x).mp htable)
  exact ⟨m', ref', hok, c₁.still ht' hb' fun u hu => hleaf u (hlow u hu).1, hleaf⟩

/-- The page gets its entry in the new root, or there is no frame for a
table. -/
theorem map (c : Cloning maxPfn usable R v heap tabs rest ref g m₀ m done [f])
    (hmax : maxPfn < 2 ^ 40) (hlow : LowerPages done) (hv : va < 2 ^ 47)
    (hnew : ¬ Pages done (va / PAGE_SIZE)) (hbare : leaf m.mem g va = 0)
    (hframe : frameOf (pte (pfnPhys f) flags) = some f) {rc : Int}
    (hm : pagingMapPage Pmm.pmmAllocPage m (some g) va (pfnPhys f) flags = (m', rc)) :
    ∃ tabs' ref', (∀ u, u < 2 ^ 47 → u / PAGE_SIZE ≠ va / PAGE_SIZE →
        leaf m'.mem g u = leaf m.mem g u)
      ∧ ((rc = 0 ∧ Cloning maxPfn usable R v heap tabs' rest ref' g m₀ m' (done ++ [va]) [])
        ∨ (rc = -1 ∧ Cloning maxPfn usable R v heap tabs' rest ref' g m₀ m' done [f]
          ∧ leaf m'.mem g va = 0)) := by
  obtain ⟨tabs', ref', ht, ha, hcases⟩ := c.twin.mapPage hmax hv hm
  have hb := c.borrows.rooted.aside (v := v) ha
  have hother : ∀ u ∈ done, u / PAGE_SIZE ≠ va / PAGE_SIZE := fun u hu e => hnew ⟨u, hu, e⟩
  obtain ⟨rfl, hleaf⟩ | ⟨rfl, hleaf⟩ := hcases
  · have hout : ∀ u, u < 2 ^ 47 → u / PAGE_SIZE ≠ va / PAGE_SIZE →
        leaf m'.mem g u = leaf m.mem g u := fun u hu hne => by
      rw [hleaf u hu, if_neg hne]
    have hentry : framesAt m' g (done ++ [va]) = framesAt m g done ++ [f] := by
      rw [framesAt_append, framesAt_congr fun u hu => hout u (hlow u hu).1 (hother u hu),
        framesAt_cons, hleaf va hv, if_pos rfl, hframe]
      rfl
    refine ⟨tabs', ref', hout, Or.inl ⟨rfl, c.step ht hb (fun q _ => ?_) ?_⟩⟩
    · rw [hentry, List.append_nil]
      exact Int.add_zero _
    · rw [hentry, List.append_nil]
      exact c.mapped
  · refine ⟨tabs', ref', fun u hu _ => hleaf u hu, Or.inr ⟨rfl,
      c.still ht hb fun u hu => hleaf u (hlow u hu).1, ?_⟩⟩
    rw [hleaf va hv]
    exact hbare

/-- A page that has no entry is passed over. -/
theorem skip (c : Cloning maxPfn usable R v heap tabs rest ref g m₀ m done [])
    (hbare : leaf m.mem g va = 0) :
    Cloning maxPfn usable R v heap tabs rest ref g m₀ m (done ++ [va]) [] := by
  have hnil : framesAt m g [va] = [] := framesAt_bare fun u hu => by
    rw [List.mem_singleton.mp hu]
    exact hbare
  refine c.regroup ?_
  rw [framesAt_append, hnil]
  exact List.append_nil _

/-- The last step of a round: the entry, or the reference goes back. -/
theorem share (h : Vm.Tallied maxPfn usable R s v rest ref₀) (hmax : maxPfn < 2 ^ 40)
    (c : Cloning maxPfn usable R v heap tabs rest ref g s.mach m done [f])
    (hlow : LowerPages done) (hv : va < 2 ^ 47) (hnew : ¬ Pages done (va / PAGE_SIZE))
    (hbare : leaf m.mem g va = 0) (hframe : frameOf (pte (pfnPhys f) flags) = some f)
    (hc : Tracked maxPfn s.mach.pmm f) {m₁ : Mach} {rc : Int}
    (hm : pagingMapPage Pmm.pmmAllocPage m (some g) va (pfnPhys f) flags = (m₁, rc)) :
    ∃ m' ok tabs' ref', (if rc ≠ 0 then
        (match m₁.free f with
        | .error e => .error (.pmm e)
        | .ok s => .ok (s, false))
      else .ok (m₁, true) : Except VmPanic (Mach × Bool)) = .ok (m', ok)
      ∧ Cloning maxPfn usable R v heap tabs' rest ref' g s.mach m' (done ++ [va]) []
      ∧ ∀ u, u < 2 ^ 47 → u / PAGE_SIZE ≠ va / PAGE_SIZE →
        leaf m'.mem g u = leaf m.mem g u := by
  have hused := (h.mapped f (c.mapped f (List.mem_append_right _ (List.mem_singleton_self f)))).1
  obtain ⟨tabs₁, ref₁, hout, hcases⟩ := c.map hmax hlow hv hnew hbare hframe hm
  obtain ⟨rfl, c₁⟩ | ⟨rfl, c₁, hbare₁⟩ := hcases
  · exact ⟨m₁, true, tabs₁, ref₁, rfl, c₁, hout⟩
  · obtain ⟨m', ref', hok, c', hmem⟩ := c₁.drop h ((c₁.tracked hused).mpr hc)
    refine ⟨m', false, tabs₁, ref', ?_, c'.skip ?_, fun u hu hne => ?_⟩
    · rw [if_pos (by decide), hok]
    · rw [hmem]
      exact hbare₁
    · rw [hmem]
      exact hout u hu hne

/-- One round of `vas_clone`. -/
theorem page (h : Vm.Tallied maxPfn usable R s v rest ref₀) (hmax : maxPfn < 2 ^ 40)
    (c : Cloning maxPfn usable R v heap tabs rest ref g s.mach m done [])
    (hlow : LowerPages done) (hv : va < 2 ^ 47) (ha : va % PAGE_SIZE = 0)
    (hfind : vasFind v.list va = some w) (hnew : ¬ Pages done (va / PAGE_SIZE))
    (hbare : leaf m.mem g va = 0) :
    ∃ m' ok tabs' ref', Vm.clonePage v.pml4 g w.flags m va = .ok (m', ok)
      ∧ Cloning maxPfn usable R v heap tabs' rest ref' g s.mach m' (done ++ [va]) []
      ∧ ∀ u, u < 2 ^ 47 → u / PAGE_SIZE ≠ va / PAGE_SIZE →
        leaf m'.mem g u = leaf m.mem g u := by
  unfold Vm.clonePage
  simp only [virtToPhys_page m v.pml4 ha]
  cases hf : frameOf (leaf m.mem v.pml4 va) with
  | none => exact ⟨m, true, tabs, ref, if_pos rfl, c.skip hbare, fun _ _ _ => rfl⟩
  | some f =>
  have hmap := c.source h hv hf
  have hused := (h.mapped f hmap).1
  have hagain := frameOf_again hf
  have hbound : m.pmm.maxPfn = maxPfn := c.twin.parted.ledger.bound
  simp only [if_neg (frameOf_some hf).2, pageAlignDown_pfnPhys, physToPage_pfnPhys, hbound]
  by_cases hc : Tracked maxPfn m.pmm f
  · have hle : ¬ f > maxPfn := by
      have := hc.1
      omega
    have hpass : ¬ ((m.pmm.pages f).reserved || (m.pmm.pages f).poisoned) = true := hc.2
    simp only [if_neg hle, if_neg hpass]
    obtain ⟨ref₁, c₁⟩ := c.take h hmap hc
    have hc₀ := (c.tracked hused).mp hc
    split
    · rename_i hcow
      rw [Bool.and_eq_true, Bool.not_eq_true'] at hcow
      have hwrite : hasFlag w.flags PAGE_WRITE = true := by
        rw [← Vm.write_prot]
        exact hcow.1
      obtain ⟨m₂, ref₂, hre, c₂, hsame⟩ := c₁.recast h hlow hv ha hfind hwrite hcow.2 hf
        ((c₁.tracked hused).mpr hc₀)
        (w.flags &&& VAD_PROT_MASK &&& ~~~PAGE_WRITE)
      rw [hre]
      simp only [ne_eq, not_true_eq_false, if_false]
      cases hm : pagingMapPage Pmm.pmmAllocPage m₂ (some g) va (pfnPhys f)
        (w.flags &&& VAD_PROT_MASK &&& ~~~PAGE_WRITE) with
      | mk m₃ rc =>
          obtain ⟨m', ok, tabs', ref', hres, c', hout⟩ := c₂.share h hmax hlow hv hnew
            (by rw [hsame va hv]; exact hbare) (hagain _) hc₀ hm
          exact ⟨m', ok, tabs', ref', hres, c', fun u hu hne =>
            (hout u hu hne).trans (hsame u hu)⟩
    · cases hm : pagingMapPage Pmm.pmmAllocPage { m with pmm := m.pmm.pageRefInc f } (some g) va
        (pfnPhys f) (w.flags &&& VAD_PROT_MASK) with
      | mk m₃ rc => exact c₁.share h hmax hlow hv hnew hbare (hagain _) hc₀ hm
  · -- a frame whose references are not counted
    have hc₀ : ¬ Tracked maxPfn s.mach.pmm f := fun hc₀ => hc ((c.tracked hused).mpr hc₀)
    have hplain : ∀ m₃ rc, pagingMapPage Pmm.pmmAllocPage m (some g) va (pfnPhys f)
          (w.flags &&& VAD_PROT_MASK) = (m₃, rc) →
        ∃ m' ok tabs' ref', (.ok (m₃, decide (rc = 0)) : Except VmPanic (Mach × Bool)) = .ok (m', ok)
          ∧ Cloning maxPfn usable R v heap tabs' rest ref' g s.mach m' (done ++ [va]) []
          ∧ ∀ u, u < 2 ^ 47 → u / PAGE_SIZE ≠ va / PAGE_SIZE →
            leaf m'.mem g u = leaf m.mem g u := by
      intro m₃ rc hm
      obtain ⟨tabs₃, ref₃, hout, hcases⟩ := ((foreign_iff hmap hc₀).mpr c).map hmax hlow hv hnew
        hbare (hagain _) hm
      obtain ⟨rfl, c₃⟩ | ⟨rfl, c₃, hbare₃⟩ := hcases
      · exact ⟨m₃, true, tabs₃, ref₃, rfl, c₃, hout⟩
      · exact ⟨m₃, false, tabs₃, ref₃, rfl, ((foreign_iff hmap hc₀).mp c₃).skip hbare₃, hout⟩
    cases hm : pagingMapPage Pmm.pmmAllocPage m (some g) va (pfnPhys f)
      (w.flags &&& VAD_PROT_MASK) with
    | mk m₃ rc =>
    by_cases hle : f > maxPfn
    · simp only [if_pos hle]
      exact hplain m₃ rc hm
    · have hpass : ((m.pmm.pages f).reserved || (m.pmm.pages f).poisoned) = true := by
        by_contra hno
        exact hc ⟨by omega, hno⟩
      simp only [if_neg hle, if_pos hpass]
      exact hplain m₃ rc hm

/-- The inner loop of `vas_clone`. -/
theorem loop (h : Vm.Tallied maxPfn usable R s v rest ref₀) (hmax : maxPfn < 2 ^ 40)
    (c : Cloning maxPfn usable R v heap tabs rest ref g s.mach m done []) {vas : List Nat}
    (hlow : LowerPages (done ++ vas)) (hfind : ∀ va ∈ vas, vasFind v.list va = some w)
    (hdist : (done ++ vas).Pairwise fun x y => x / PAGE_SIZE ≠ y / PAGE_SIZE)
    (hbare : ∀ u, u < 2 ^ 47 → ¬ Pages done (u / PAGE_SIZE) → leaf m.mem g u = 0) :
    ∃ m' ok tabs' ref', Vm.clonePages v.pml4 g w.flags vas m = .ok (m', ok)
      ∧ Cloning maxPfn usable R v heap tabs' rest ref' g s.mach m' (done ++ vas) []
      ∧ ∀ u, u < 2 ^ 47 → ¬ Pages (done ++ vas) (u / PAGE_SIZE) → leaf m'.mem g u = 0 := by
  induction vas generalizing m done tabs ref with
  | nil =>
      rw [List.append_nil]
      exact ⟨m, true, tabs, ref, rfl, c, hbare⟩
  | cons va vas ih =>
      rw [List.append_cons] at hlow hdist ⊢
      obtain ⟨hv, ha⟩ := hlow va (List.mem_append_left _
        (List.mem_append_right _ (List.mem_singleton_self va)))
      obtain ⟨hsplit, -, hcross⟩ := List.pairwise_append.mp hdist
      have hnew : ¬ Pages done (va / PAGE_SIZE) := fun hn => by
        obtain ⟨x, hx, he⟩ := hn
        exact (List.pairwise_append.mp hsplit).2.2 x hx va (List.mem_singleton_self va) he
      obtain ⟨m₁, ok, tabs₁, ref₁, hpage, c₁, hout⟩ := c.page h hmax
        (fun x hx => hlow x (List.mem_append_left _ (List.mem_append_left _ hx))) hv ha
        (hfind va List.mem_cons_self) hnew (hbare va hv hnew)
      have hbare₁ : ∀ u, u < 2 ^ 47 → ¬ Pages (done ++ [va]) (u / PAGE_SIZE) →
          leaf m₁.mem g u = 0 := by
        intro u hu hn
        rw [hout u hu fun e => hn ⟨va, List.mem_append_right _ (List.mem_singleton_self va), e.symm⟩]
        exact hbare u hu fun hn' => by
          obtain ⟨x, hx, he⟩ := hn'
          exact hn ⟨x, List.mem_append_left _ hx, he⟩
      unfold Vm.clonePages
      rw [hpage]
      cases ok with
      | true =>
          exact ih c₁ hlow (fun x hx => hfind x (List.mem_cons_of_mem _ hx)) hdist hbare₁
      | false =>
          -- the pages after this one have no entry
          have hnil : framesAt m₁ g vas = [] := framesAt_bare fun x hx => by
            refine hbare₁ x (hlow x (List.mem_append_right _ hx)).1 fun hn => ?_
            obtain ⟨y, hy, he⟩ := hn
            exact hcross y hy x hx he
          refine ⟨m₁, false, tabs₁, ref₁, rfl, c₁.regroup ?_, fun u hu hn => ?_⟩
          · rw [framesAt_append, hnil, List.append_nil]
          · refine hbare₁ u hu fun hn' => ?_
            obtain ⟨x, hx, he⟩ := hn'
            exact hn ⟨x, List.mem_append_left _ hx, he⟩

/-- The heap works in between. -/
theorem heapRun {t t' : Vm}
    (c : Cloning maxPfn usable R v t.heap tabs rest ref g m₀ t.mach done fs)
    (hr : Vm.HeapRun t t') :
    ∃ ref', Cloning maxPfn usable R v t'.heap tabs rest ref' g m₀ t'.mach done fs := by
  obtain ⟨ref', ht, ha⟩ := c.twin.heapRun hr
  exact ⟨ref', c.still ht (c.borrows.rooted.aside ha) fun _ _ => by rw [hr.mem]⟩

end Cloning

-- ==== the descriptors

/-- The pages of the descriptors. -/
def vadPages (l : List Vad) : List Nat := l.flatMap fun x => pages x.start x.stop

theorem vadPages_append (l l' : List Vad) : vadPages (l ++ l') = vadPages l ++ vadPages l' :=
  List.flatMap_append

theorem vadPages_singleton (x : Vad) : vadPages [x] = pages x.start x.stop :=
  List.append_nil _

namespace VadsOk

variable {l : List Vad} {x : Vad}

theorem lowerPages (h : VadsOk l) (hlow : ∀ x ∈ l, x.stop ≤ 2 ^ 47) :
    LowerPages (vadPages l) := by
  intro va hva
  obtain ⟨x, hx, hva⟩ := List.mem_flatMap.mp hva
  exact lowerPages_pages (h.fits x hx).2.2.1 (hlow x hx) va hva

/-- No page belongs to two descriptors. -/
theorem distinct (h : VadsOk l) :
    (vadPages l).Pairwise fun x y => x / PAGE_SIZE ≠ y / PAGE_SIZE := by
  unfold vadPages
  refine List.pairwise_flatMap.mpr ⟨fun x hx => pages_distinct (h.fits x hx).2.2.1, ?_⟩
  refine h.ordered.imp_of_mem fun {x y} hx hy hle p hp q hq he => ?_
  have hp := ((pages_iff (h.fits x hx).2.2.1).mp ⟨p, hp, rfl⟩).2
  have hq := ((pages_iff (h.fits y hy).2.2.1).mp ⟨q, hq, rfl⟩).1
  rw [he] at hp
  omega

end VadsOk

namespace Cloning

variable {s t : Vm} {ref₀ : Nat → Nat} {m₀ : Mach} {todo : List Nat} {d : Nat} {dst : Vas}

/-- The outer loop of `vas_clone`: the new list is the first descriptors of
the source, all of them or not. -/
theorem vads (h : Vm.Tallied maxPfn usable R s v rest ref₀) (hmax : maxPfn < 2 ^ 40)
    {list : List Vad} (hsplit : v.list = dst.list ++ list) (hd : t.spaces d = some dst)
    (c : Cloning maxPfn usable R v t.heap tabs rest ref dst.pml4 s.mach t.mach
      (vadPages dst.list) [])
    (hbare : ∀ u, u < 2 ^ 47 → ¬ Pages (vadPages dst.list) (u / PAGE_SIZE) →
      leaf t.mach.mem dst.pml4 u = 0) :
    ∃ t' ok dst' post tabs' ref', Vm.cloneVads v.pml4 d list t = .ok (t', ok)
      ∧ t'.spaces = Function.update t.spaces d (some dst') ∧ dst'.pml4 = dst.pml4
      ∧ v.list = dst'.list ++ post
      ∧ Cloning maxPfn usable R v t'.heap tabs' rest ref' dst.pml4 s.mach t'.mach
        (vadPages dst'.list) [] := by
  induction list generalizing t dst tabs ref with
  | nil => exact ⟨t, true, dst, [], tabs, ref, rfl, (Function.update_eq_self_iff.mpr hd.symm).symm,
      rfl, hsplit, c⟩
  | cons vad list ih =>
      unfold Vm.cloneVads
      cases hk : t.kzalloc with
      | mk t₁ ok =>
      have hrun := Vm.heapRun_kzalloc hk
      obtain ⟨hsp, -, -⟩ := hrun.spaces
      obtain ⟨ref₁, c₁⟩ := c.heapRun hrun
      have hd₁ : t₁.spaces d = some dst := by
        rw [hsp]
        exact hd
      cases ok with
      | false =>
          refine ⟨t₁, false, dst, vad :: list, tabs, ref₁, rfl, ?_, rfl, hsplit, c₁⟩
          rw [hsp]
          exact (Function.update_eq_self_iff.mpr hd.symm).symm
      | true =>
      simp only [hd₁]
      have hin : vad ∈ v.list := by
        rw [hsplit]
        exact List.mem_append_right _ List.mem_cons_self
      have hbehind : ∀ x ∈ dst.list, x.start < vad.start := by
        intro x hx
        have hord := h.list.ordered
        rw [hsplit] at hord
        have hle := (List.pairwise_append.mp hord).2.2 x hx vad List.mem_cons_self
        have hlt := (h.list.fits x (by rw [hsplit]; exact List.mem_append_left _ hx)).1
        omega
      have hins : vadInsert vad dst.list = dst.list ++ [vad] := vadInsert_append hbehind
      have hsplit' : v.list = (dst.list ++ [vad]) ++ list := by
        rw [hsplit, List.append_cons]
      -- the pages of the new list are some of those of the source
      have hpages : vadPages v.list
          = (vadPages dst.list ++ pages vad.start vad.stop) ++ vadPages list := by
        rw [hsplit', vadPages_append, vadPages_append, vadPages_singleton]
      have hlow := h.list.lowerPages h.low
      have hdist := h.list.distinct
      rw [hpages] at hlow hdist
      have hfind : ∀ va ∈ pages vad.start vad.stop, vasFind v.list va = some vad := by
        intro va hva
        have halign := (h.list.fits vad hin).2.2.1
        obtain ⟨h1, h2⟩ := (pages_iff halign).mp ⟨va, hva, rfl⟩
        have ha := (lowerPages_pages halign (h.low vad hin) va hva).2
        have hs : PAGE_SIZE = 4096 := rfl
        rw [hs] at h1 h2 ha
        exact h.list.find.mpr ⟨hin, by omega, by omega⟩
      obtain ⟨m', ok, tabs', ref', hloop, c', hbare'⟩ := c₁.loop h hmax (w := vad)
        (fun x hx => hlow x (List.mem_append_left _ hx))
        hfind (List.pairwise_append.mp hdist).1 fun u hu hn => by
          rw [hrun.mem]
          exact hbare u hu hn
      rw [← vadPages_singleton, ← vadPages_append, ← hins] at c' hbare'
      rw [← hins] at hsplit'
      rw [show (t₁.setSpace d (some { dst with list := vadInsert vad dst.list })).mach = t₁.mach
        from rfl, hloop]
      have hspaces : (t₁.setSpace d (some { dst with list := vadInsert vad dst.list })).spaces
          = Function.update t.spaces d (some { dst with list := vadInsert vad dst.list }) := by
        rw [← hsp]
        rfl
      cases ok with
      | false => exact ⟨_, false, _, list, tabs', ref', rfl, hspaces, rfl, hsplit', c'⟩
      | true =>
          obtain ⟨t', ok, dst', post, tabs'', ref'', hrest, hsp', hroot, hsplit'', c''⟩ :=
            ih hsplit' (t := { t₁.setSpace d (some { dst with list := vadInsert vad dst.list }) with
              mach := m' }) (Function.update_self _ _ _) c' hbare'
          refine ⟨t', ok, dst', post, tabs'', ref'', hrest, ?_, hroot, hsplit'', c''⟩
          rw [hsp']
          exact (congrArg (Function.update · d _) hspaces).trans (Function.update_idem _ _ _)

-- ==== the way back

/-- One round of `uncommit_range`: the page gives its reference back. -/
theorem unpage (h : Vm.Tallied maxPfn usable R s v rest ref₀)
    (c : Cloning maxPfn usable R v heap tabs rest ref g s.mach m (va :: todo) [])
    (hlow : LowerPages (va :: todo)) (hnew : ∀ x ∈ todo, va / PAGE_SIZE ≠ x / PAGE_SIZE) :
    ∃ m' ref', m.uncommitPage g va = .ok m'
      ∧ Cloning maxPfn usable R v heap tabs rest ref' g s.mach m' todo [] := by
  obtain ⟨hv, ha⟩ := hlow va List.mem_cons_self
  obtain ⟨m', ref', hok, ht, haside, hleaf⟩ := c.twin.uncommitPage hv ha fun f hf => by
    have hin : f ∈ framesAt m g (va :: todo) ++ [] := by
      rw [framesAt_cons, hf]
      exact List.mem_append_left _ List.mem_cons_self
    have hmap := c.mapped f hin
    have hused := (h.mapped f hmap).1
    refine ⟨hused, fun hc => ?_⟩
    have hc₀ := (c.tracked hused).mp hc
    obtain ⟨hpos, hcount⟩ := c.refcount h hmap hc₀
    have hlist : (some f).toList = [f] := rfl
    rw [framesAt_cons, hf, List.append_nil, taken_append, hlist, taken_self hc₀] at hcount
    have hrest := taken_nonneg maxPfn s.mach (framesAt m g todo) f
    exact ⟨(h.counted f hmap hc₀).1, by omega⟩
  have hsame : framesAt m' g todo = framesAt m g todo := framesAt_congr fun x hx => by
    rw [hleaf x (hlow x (List.mem_cons_of_mem _ hx)).1, if_neg fun e => hnew x hx e.symm]
  refine ⟨m', ref', hok, c.step ht (c.borrows.rooted.aside haside) (fun q hq => ?_) fun x hx => ?_⟩
  · have htaken : taken maxPfn m (frameOf (leaf m.mem g va)).toList q
        = taken maxPfn s.mach (frameOf (leaf m.mem g va)).toList q :=
      if_congr (c.tracked hq) rfl rfl
    rw [hsame, framesAt_cons, List.append_nil, List.append_nil, taken_append, htaken]
    omega
  · rw [hsame] at hx
    refine c.mapped x ?_
    rw [framesAt_cons, List.append_assoc]
    exact List.mem_append_right _ hx

/-- `uncommit_range`. -/
theorem unpages (h : Vm.Tallied maxPfn usable R s v rest ref₀) {vas : List Nat}
    (c : Cloning maxPfn usable R v heap tabs rest ref g s.mach m (vas ++ todo) [])
    (hlow : LowerPages (vas ++ todo))
    (hdist : (vas ++ todo).Pairwise fun x y => x / PAGE_SIZE ≠ y / PAGE_SIZE) :
    ∃ m' ref', vas.foldlM (Machine.uncommitPage g) m = .ok m'
      ∧ Cloning maxPfn usable R v heap tabs rest ref' g s.mach m' todo [] := by
  induction vas generalizing m ref with
  | nil => exact ⟨m, ref, rfl, c⟩
  | cons va vas ih =>
      rw [List.cons_append] at c hlow hdist
      obtain ⟨hd, hdist'⟩ := List.pairwise_cons.mp hdist
      obtain ⟨m₁, ref₁, hok, c₁⟩ := c.unpage h hlow hd
      obtain ⟨m', ref', hrun, c'⟩ := ih c₁ (fun x hx => hlow x (List.mem_cons_of_mem _ hx)) hdist'
      refine ⟨m', ref', ?_, c'⟩
      rw [List.foldlM_cons, hok]
      exact hrun

/-- The loop of `vas_destroy`. -/
theorem unvads (h : Vm.Tallied maxPfn usable R s v rest ref₀) {list : List Vad}
    (c : Cloning maxPfn usable R v t.heap tabs rest ref g s.mach t.mach (vadPages list) [])
    (hok : VadsOk list) (hlow : ∀ x ∈ list, x.stop ≤ 2 ^ 47) :
    ∃ t' ref', Vm.destroyVads g list t = .ok t' ∧ t'.spaces = t.spaces
      ∧ Cloning maxPfn usable R v t'.heap tabs rest ref' g s.mach t'.mach [] [] := by
  induction list generalizing t ref with
  | nil => exact ⟨t, ref, rfl, rfl, c⟩
  | cons x list ih =>
      have hpages : vadPages (x :: list) = pages x.start x.stop ++ vadPages list :=
        List.flatMap_cons
      have hlower := hok.lowerPages hlow
      have hdist := hok.distinct
      rw [hpages] at c hlower hdist
      obtain ⟨m₁, ref₁, hrun, c₁⟩ := c.unpages h hlower hdist
      have hheap : Vm.HeapRun { t with mach := m₁ } ({ t with mach := m₁ } : Vm).kfree :=
        Vm.heapRun_kfree _
      obtain ⟨ref₂, c₂⟩ := Cloning.heapRun (t := { t with mach := m₁ }) c₁ hheap
      obtain ⟨t', ref', hrest, hsp, c'⟩ := ih c₂
        ⟨(List.pairwise_cons.mp hok.ordered).2, fun y hy => hok.fits y (List.mem_cons_of_mem _ hy)⟩
        fun y hy => hlow y (List.mem_cons_of_mem _ hy)
      refine ⟨t', ref', ?_, hsp.trans hheap.spaces.1, c'⟩
      unfold Vm.destroyVads Machine.uncommitRange
      rw [hrun]
      exact hrest

/-- `vas_destroy` of the clone: the others have what they had. -/
theorem undone (h : Vm.Tallied maxPfn usable R s v rest ref₀) {post : List Vad}
    (hd : t.spaces d = some dst) (hsplit : v.list = dst.list ++ post)
    (c : Cloning maxPfn usable R v t.heap tabs rest ref dst.pml4 s.mach t.mach
      (vadPages dst.list) []) :
    ∃ t' tabs' ref', t.vasDestroy d = .ok t' ∧ t'.spaces = Function.update t.spaces d none
      ∧ Parted maxPfn usable t'.heap tabs' rest ref' t'.mach.pmm
      ∧ Borrows maxPfn R (Used maxPfn usable rest) v (fun _ => 0) s.mach t'.mach := by
  have hlist := h.list
  have hlow := h.low
  rw [hsplit] at hlist hlow
  obtain ⟨t₁, ref₁, hvads, hsp, c₁⟩ := c.unvads h
    ⟨(List.pairwise_append.mp hlist.ordered).1, fun x hx => hlist.fits x (List.mem_append_left _ hx)⟩
    fun x hx => hlow x (List.mem_append_left _ hx)
  obtain ⟨pmm, tabs₂, ref₂, hdestroy, hparted, haside⟩ := c₁.twin.destroy
  have hheap : Vm.HeapRun (({ t₁ with mach := { t₁.mach with pmm } } : Vm).setSpace d none)
      (({ t₁ with mach := { t₁.mach with pmm } } : Vm).setSpace d none).kfree :=
    Vm.heapRun_kfree _
  obtain ⟨ref', hparted', haside'⟩ := Parted.heapRun hparted hheap
  have hback := c₁.borrows.trans (c₁.borrows.rooted.aside haside)
  have hall := hback.trans (hback.rooted.aside haside')
  refine ⟨_, tabs₂, ref', ?_, ?_, hparted', hall.congr fun q _ => ?_⟩
  · unfold Vm.vasDestroy
    rw [hd]
    simp only [hvads, hdestroy]
  · rw [hheap.spaces.1, ← hsp]
    rfl
  · show taken maxPfn s.mach [] q + 0 + 0 = 0
    rw [taken_nil]
    rfl

end Cloning

-- ==== the result

/-- Addresses read alike where the frames are the same. -/
theorem virtToPhys_of_frame {t x : Nat} (h : frameOf (leaf m'.mem t x) = some f)
    (h' : frameOf (leaf m.mem t x) = some f) :
    pagingVirtToPhys Pmm.pmmAllocPage m' (some t) x
      = pagingVirtToPhys Pmm.pmmAllocPage m (some t) x := by
  have hp := (frameOf_isSome.mp (Option.isSome_iff_exists.mpr ⟨f, h⟩)).1
  have hp' := (frameOf_isSome.mp (Option.isSome_iff_exists.mpr ⟨f, h'⟩)).1
  rw [pagingVirtToPhys_eq, pagingVirtToPhys_eq, if_pos hp, if_pos hp', (frameOf_some h).1,
    (frameOf_some h').1]

namespace Vm

variable {s s' : Vm} {a x : Nat}

theorem writableAt_iff {r : Nat} : WritableAt m r x
    ↔ hasFlag (leaf m.mem r x) PAGE_PRESENT = true ∧ hasFlag (leaf m.mem r x) PAGE_WRITE = true := by
  have hmask : (PAGE_PRESENT ||| PTE_FLAGS).getLsbD 1 = true := by decide
  have hzero : hasFlag (0 : Word) PAGE_WRITE = false := by decide
  unfold WritableAt
  rw [pagingGetFlags_eq]
  by_cases hp : hasFlag (leaf m.mem r x) PAGE_PRESENT = true
  · rw [if_pos hp, and_iff_right hp, hasFlag_pageBit _ (by decide), hasFlag_pageBit _ (by decide),
      BitVec.getLsbD_and, hmask, Bool.and_true]
  · rw [if_neg hp, hzero]
    exact ⟨fun e => (by cases e), fun e => (hp e.1).elim⟩

namespace Tallied

theorem parted (h : Tallied maxPfn usable R s v rest ref) :
    Parted maxPfn usable s.heap [] rest ref s.mach.pmm :=
  ⟨h.holds.ledger, h.holds.single, fun b hb => (by cases hb)⟩

/-- What the others can see is enough to go on. -/
theorem firm (h : Tallied maxPfn usable R s v rest ref)
    (hs : Parted maxPfn usable heap tabs rest ref' m.pmm)
    (hb : Borrows maxPfn R (Used maxPfn usable rest) v n s.mach m) :
    Firm maxPfn usable R (heap ++ (tabs ++ rest)) ref' m := by
  have hmono : ∀ q, Used maxPfn usable rest q →
      Used maxPfn usable (heap ++ (tabs ++ rest)) q := fun q hq => (hq.append tabs).append heap
  have hmap : ∀ f, (mappers m R f).Nonempty → (mappers s.mach R f).Nonempty := by
    intro f hf
    obtain ⟨x, hx, hlt, hframe⟩ := hf
    have hs : PAGE_SIZE = 4096 := rfl
    rw [hb.frame hx (Or.inl (by rw [hs]; omega))] at hframe
    exact ⟨x, hx, hlt, hframe⟩
  refine ⟨⟨hs.ledger, hb.rooted.forest, fun f hf => hmono f (hb.rooted.held f hf)⟩,
    ⟨fun t p f ht hne hp hw => hmono f (hb.rooted.above.used t p f ht hne hp hw),
      hb.rooted.above.apart⟩,
    fun f hf => hmono f (h.mapped f (hmap f hf)).1, fun f hf hle hcow => ?_⟩
  have hf₀ := hmap f hf
  refine Parted.allocated (h.counted f hf₀ ?_).1
  rcases (hb.pages f (h.mapped f hf₀).1).flags with he | ⟨hc, -⟩
  · refine h.marked f hf₀ hle ?_
    unfold Page.cow at hcow ⊢
    rw [← he]
    exact hcow
  · exact hc

/-- A page that was writable and is recast is given back for a write. -/
theorem regains (h : Tallied maxPfn usable R s v rest ref)
    (hs : Parted maxPfn usable heap tabs rest ref' m.pmm)
    (hb : Borrows maxPfn R (Used maxPfn usable rest) v (fun _ => 0) s.mach m)
    (hre : Recast maxPfn (Used maxPfn usable rest) v s.mach m x w f)
    (hwas : hasFlag (leaf s.mach.mem v.pml4 x) PAGE_WRITE = true) :
    ∃ m', m.vasHandlePageFault v x 0x3 = .ok (m', 0) ∧ WritableAt m' v.pml4 x
      ∧ frameOf (leaf m'.mem v.pml4 x) = some f ∧ m'.mem f = m.mem f := by
  have hps : PAGE_SIZE = 4096 := rfl
  have hpage := pageAlignDown_page x
  have hlow := hre.low
  have hv : pageAlignDown x < 2 ^ 47 := by
    have : pageAlignDown x = x / 4096 * 4096 := rfl
    omega
  have ha : pageAlignDown x % PAGE_SIZE = 0 := Nat.mul_mod_left _ _
  have hmem := mappers_of_leaf h.root hlow hre.frame
  -- the only page of its frame, so its count is 1
  have hone : (s.mach.pmm.pages f).refcount = 1 := by
    obtain ⟨-, -, hcount⟩ := h.counted f ⟨_, hmem⟩ hre.tracked
    have hsingle : mappers s.mach R f = {(v.pml4, x / PAGE_SIZE)} := by
      refine Set.eq_singleton_iff_unique_mem.mpr ⟨hmem, fun y hy => ?_⟩
      refine (h.sole f _ y hre.tracked hmem hy ?_).symm
      show hasFlag (leaf s.mach.mem v.pml4 (pageAlignDown x)) PAGE_WRITE = true
      rw [leaf_same s.mach.mem v.pml4 hpage]
      exact hwas
    rw [hcount, hsingle, Set.ncard_singleton]
    rfl
  have hcount : (m.pmm.pages f).refcount ≤ 1 := by
    rw [(hb.pages f hre.used).count, hone]
    decide
  have hfirm := h.firm hs hb
  have hbound : m.pmm.maxPfn = maxPfn := hs.ledger.bound
  have hframe : frameOf (leaf m.mem v.pml4 (pageAlignDown x)) = some f := by
    rw [leaf_same m.mem v.pml4 hpage]
    exact hre.again
  obtain ⟨m', hok, hd⟩ := hfirm.takesOver h.root hv ha hframe hre.tracked.1 hre.cow hcount
    (w.flags &&& VAD_PROT_MASK)
  have hentry : leaf m'.mem v.pml4 x = pte (pfnPhys f) (w.flags &&& VAD_PROT_MASK) := by
    rw [hd.entry _ _ h.root (Or.inl hlow), if_pos ⟨rfl, hpage.symm⟩]
  refine ⟨m', ?_, writableAt_iff.mpr ?_, ?_, ?_⟩
  · have herr : hasFlag (0x3 : Word) 0x2 = true ∧ hasFlag (0x3 : Word) 0x1 = true := by decide
    have hle : ¬ f > maxPfn := by
      have := hre.tracked.1
      omega
    unfold Machine.vasHandlePageFault
    simp only [hre.find, herr.1, herr.2, hre.write, hre.plain, Bool.not_true, Bool.or_self,
      Bool.false_eq_true, if_false, virtToPhys_page m v.pml4 ha, hframe,
      (frameOf_some hframe).2, pageAlignDown_pfnPhys, physToPage_pfnPhys, hbound, if_neg hle,
      hre.cow, if_pos hcount, hok]
  · rw [hentry, pte_write, write_prot]
    exact ⟨pte_present _ _, hre.write⟩
  · rw [hentry]
    exact hd.frame
  · refine hd.copy fun htable => ?_
    exact (h.mapped f ⟨_, hmem⟩).2 ((hb.tables f).mp htable)

theorem undone (h : Tallied maxPfn usable R s v rest ref) (hsp : s'.spaces = s.spaces)
    (hs : Parted maxPfn usable s'.heap tabs rest ref' s'.mach.pmm)
    (hb : Borrows maxPfn R (Used maxPfn usable rest) v (fun _ => 0) s.mach s'.mach) :
    Undone maxPfn usable R s s' v rest := by
  have hwords : ∀ f, (mappers s.mach R f).Nonempty → s'.mach.mem f = s.mach.mem f := fun f hf =>
    hb.words f (h.mapped f hf).1 (h.mapped f hf).2
  refine ⟨hsp, fun t x ht hx => ?_, fun q hq => ?_, fun t x ht hx => ?_, fun x hx hwas => ?_⟩
  · rcases hb.entries t x ht hx with he | ⟨rfl, w, f, hre⟩
    · exact virtToPhys_congr he
    · exact virtToPhys_of_frame hre.again hre.frame
  · rw [(hb.pages q hq).count]
    exact Int.add_zero _
  · unfold seen
    rw [hb.frame ht (Or.inl hx)]
    cases hf : frameOf (leaf s.mach.mem t x) with
    | none => rfl
    | some f => exact congrArg some (hwords f ⟨_, mappers_of_leaf ht hx hf⟩)
  · rcases hb.entries _ x h.root hx with he | ⟨-, w, f, hre⟩
    · left
      rw [writableAt_iff, he]
      exact writableAt_iff.mp hwas
    · obtain ⟨m, hok, hnow, hframe, hcopy⟩ := h.regains hs hb hre (writableAt_iff.mp hwas).2
      refine Or.inr ⟨m, hok, hnow, virtToPhys_of_frame hframe hre.frame, ?_⟩
      unfold seen
      rw [hframe, hre.frame]
      refine congrArg some (hcopy.trans (hwords f ?_))
      exact ⟨_, mappers_of_leaf h.root hre.low hre.frame⟩

end Tallied

/-- A clone that fails can be forgotten. -/
theorem vasClone_undone (hmax : maxPfn < 2 ^ 40) (hzero : usable 0 = false)
    (h : Tallied maxPfn usable R s v rest ref) (hv : s.spaces a = some v) :
    ∃ s' o, s.vasClone a = .ok (s', o)
      ∧ (o = none → Undone maxPfn usable R s s' v rest) := by
  have hquiet : ∀ s', HeapRun s s' → Undone maxPfn usable R s s' v rest := by
    intro s' hr
    obtain ⟨ref', hs, ha⟩ := h.parted.heapRun hr
    exact h.undone hr.spaces.1 hs (h.rooted.aside ha)
  unfold vasClone
  rw [hv]
  simp only
  unfold vasCreate
  cases hk : s.kzalloc with
  | mk s₁ ok =>
  have hrun := heapRun_kzalloc hk
  cases ok with
  | false => exact ⟨s₁, none, rfl, fun _ => hquiet s₁ hrun⟩
  | true =>
  simp only
  obtain ⟨ref₁, hs₁, ha₁⟩ := h.parted.heapRun hrun
  obtain ⟨hsp, hnext, hkernel⟩ := hrun.spaces
  cases hroot : ptableCreate Pmm.pmmAllocPage s₁.mach s₁.kernelPml4 with
  | mk m o =>
  obtain ⟨rfl, rfl⟩ | ⟨g, ref₂, rfl, ht, ha₂, hbare⟩ := hs₁.create hmax hzero
    (U := fun f => Used maxPfn usable rest f ∧ ¬ Table s.mach R f) (fun _ hf => hf.1)
    (fun k hk => by
      rw [hkernel] at hk
      rw [hrun.mem]
      exact h.kernel k hk) hroot
  · exact ⟨_, none, rfl, fun _ => hquiet _ (hrun.trans (heapRun_kfree s₁))⟩
  have hb₁ : Borrows maxPfn R (Used maxPfn usable rest) v (fun _ => 0) s.mach s₁.mach :=
    h.rooted.aside ha₁
  have c : Cloning maxPfn usable R v s₁.heap [⟨g, 0⟩] rest ref₂ g s.mach m [] [] :=
    ⟨ht, (hb₁.trans (hb₁.rooted.aside ha₂)).congr fun q _ => taken_nil.symm,
      fun f hf => (by cases hf)⟩
  simp only [setSpace_self]
  have hnone : s.spaces s₁.next = none := by
    rw [hnext]
    exact h.fresh _ (Nat.le_refl _)
  generalize ht₀ : (({ s₁.setSpace s₁.next (some ⟨g, [], VAS_USER_START⟩) with
    mach := m, next := s₁.next + 1 } : Vm).setSpace s₁.next (some ⟨g, [], v.userStart⟩)) = t
  have hspt : t.spaces = Function.update s.spaces s₁.next (some ⟨g, [], v.userStart⟩) := by
    rw [← ht₀, ← hsp]
    exact Function.update_idem _ _ _
  have hd : t.spaces s₁.next = some ⟨g, [], v.userStart⟩ := by
    rw [hspt]
    exact Function.update_self _ _ _
  have hsplit : v.list = (⟨g, [], v.userStart⟩ : Vas).list ++ v.list := rfl
  obtain ⟨t', ok, dst, post, tabs', ref', hvads, hspt', hpml4, hpost, c'⟩ :=
    Cloning.vads h hmax hsplit hd (by rw [← ht₀]; exact c) fun u hu _ => by
      rw [← ht₀]
      exact hbare u hu
  rw [hvads]
  cases ok with
  | true => exact ⟨t', some s₁.next, rfl, fun e => (by cases e)⟩
  | false =>
      have hd' : t'.spaces s₁.next = some dst := by
        rw [hspt']
        exact Function.update_self _ _ _
      rw [← hpml4] at c'
      obtain ⟨s', tabs'', ref'', hdestroy, hsp', hs', hb'⟩ := c'.undone h hd' hpost
      simp only [hdestroy]
      refine ⟨s', none, rfl, fun _ => h.undone ?_ hs' hb'⟩
      rw [hsp', hspt', hspt, Function.update_idem, Function.update_idem]
      exact Function.update_eq_self_iff.mpr hnone.symm

-- ==== the runs

section runs

variable {blocks : List Block} {s₀ : Vm}

/-- Every space of a run where copy-on-write holds is tallied. -/
theorem Ready.tallied (hmax : maxPfn < 2 ^ 40) (hzero : usable 0 = false)
    (h₀ : Ready maxPfn usable blocks s₀) (h : Reachable UserCall s₀ s) (hcow : s.Cow)
    (hv : s.spaces a = some v) : ∃ rest ref, Tallied maxPfn usable s.Roots s v rest ref := by
  have hps : PAGE_SIZE = 4096 := rfl
  obtain ⟨V, hs, -⟩ := h₀.reachable hmax hzero h
  have hiso := (hs.cow_iff hmax).mp hcow
  obtain ⟨k, hk, hview, -⟩ := hs.settled
  have hframes := hs.mappers_eq hmax hzero
  have hentry : ∀ f x, x ∈ mappers s.mach s.Roots f → ∃ fl, V x = some (f, fl) := by
    intro f x hx
    rw [hframes] at hx
    obtain ⟨⟨g, fl⟩, he, hg⟩ := Option.map_eq_some_iff.mp (show (V x).map Prod.fst = some f from hx)
    have hg : g = f := hg
    exact ⟨fl, by rw [he, hg]⟩
  have hown : ∀ f, (mappers s.mach s.Roots f).Nonempty → 0 < k.uses f ∧ ⟨f, 0⟩ ∈ k.own := by
    intro f hf
    obtain ⟨x, hx⟩ := hf
    obtain ⟨fl, hx⟩ := hentry f x hx
    rw [← hview] at hx
    exact ⟨hk.entry_used hx, hk.used_own (hk.entry_used hx)⟩
  have hin : ∀ {f}, ⟨f, 0⟩ ∈ k.own → Allocated (blocks ++ k.own) f := fun hf =>
    ⟨_, List.mem_append_right _ hf, Block.base_mem ⟨_, 0⟩⟩
  have hblocks : ∀ {f}, Allocated blocks f → Used maxPfn usable (blocks ++ k.own) f := by
    intro f hf
    obtain ⟨b, hb, hfb⟩ := hf
    exact Or.inr ⟨b, List.mem_append_left _ hb, hfb⟩
  refine ⟨blocks ++ k.own, k.ref, ⟨a, v, hv, rfl⟩, hs.lists a v hv,
    fun w hw => (hs.user a v hv w hw).1, ⟨hk.ledger, hk.single⟩,
    ⟨hk.forest, fun f hf => Or.inr (hin (hk.table_own hf)), fun t p f ht hne hp hw => ?_,
      fun t p f ht hne hp hw => (hs.upper_apart h₀ ht hne hp hw).2⟩,
    fun t ht => ⟨hblocks (hs.kernel.has t ht), fun p f hne hp hw => ?_⟩, fun f hf => ?_,
    fun f hf _ => ⟨hin (hown f hf).2, ?_⟩, fun f hf _ _ => ?_, fun f x y _ hx hy hwrite => ?_, hs.fresh⟩
  · exact hblocks (hs.upper_apart h₀ ht hne hp hw).1
  · have hkernel := hs.kernelHalf h₀ (Or.inr ht) ⟨p, hne, hp, hw⟩
    exact ⟨hblocks hkernel, fun htable => hk.own_outside (hk.table_own htable) hkernel⟩
  · refine ⟨Or.inr (hin (hown f hf).2), fun htable => ?_⟩
    have := (hown f hf).1
    have := hk.apart f htable
    omega
  · obtain ⟨x, hx⟩ := hf
    obtain ⟨fl, hx⟩ := hentry f x hx
    rw [hframes f]
    exact ⟨hs.settled.sparse.pointing f, (hs.settled.refcount hx).1⟩
  · have hu := hk.ledger.mem_usable (List.mem_append_right _
      (List.mem_append_right _ (hown f hf).2)) (Block.base_mem ⟨f, 0⟩)
    obtain ⟨hres, hpoi⟩ := hk.ledger.clean f hu
    refine ⟨Nat.le_of_lt_succ hu.1, ?_⟩
    unfold PassedOver
    rw [hres, hpoi]
    decide
  · by_contra hne
    obtain ⟨fl, hx'⟩ := hentry f x hx
    obtain ⟨fl', hy'⟩ := hentry f y hy
    obtain ⟨hr, hlt, -⟩ := hx
    rw [hk.leaf x.1 _ hr (by rw [hps]; omega), Nat.mul_div_cancel _ (by decide), hview, hx'] at hwrite
    have hno := hiso x y f fl fl' hne hx' hy'
    rw [show leafWord (some (f, fl)) = pte (pfnPhys f) fl from rfl, pte_write, hno] at hwrite
    cases hwrite

/-- Two descriptors, and the heap gives out after the first of the clone.
The page of the first is not writable any more, until it is written to. -/
theorem vasClone_half : ∃ (s : Vm) (v : Vas) (rest : List Block) (s' : Vm),
    Reachable UserCall bootVm s ∧ s.spaces 0 = some v
    ∧ s.vasClone 0 = .ok (s', none)
    ∧ WritableAt s.mach v.pml4 0x5000 ∧ ¬ WritableAt s'.mach v.pml4 0x5000
    ∧ Undone 16 (fun q => 1 ≤ q) s.Roots s s' v rest := by
  have hplay : (play (fun s k => UserCall s k ∧ Unshared k ∧ checkCow s k = true) bootVm
      [(fair, .create none), (fair, .mapAnon 0 0x5000 0x1000 PAGE_WRITE),
        (List.replicate 3 ⟨[], true⟩, .mapAnon 0 0x9000 0x1000 PAGE_WRITE)]).bind (fun s =>
      (s.spaces 0).bind fun v => (s.vasClone 0).toOption.map fun r =>
        (decide (r.2 = none),
          hasFlag (pagingGetFlags Pmm.pmmAllocPage s.mach (some v.pml4) 0x5000) PAGE_WRITE,
          hasFlag (pagingGetFlags Pmm.pmmAllocPage r.1.mach (some v.pml4) 0x5000) PAGE_WRITE))
      = some (true, true, false) := by
    decide +kernel
  obtain ⟨s, hrun, heq⟩ := Option.bind_eq_some_iff.mp hplay
  obtain ⟨v, hv, heq⟩ := Option.bind_eq_some_iff.mp heq
  have hcareful : Reachable (fun s k => UserCall s k ∧ Unshared k ∧ CowCall s k) bootVm s :=
    (reachable_play .init hrun).mono fun s k _ hk => ⟨hk.1, hk.2.1, cowCall_of_check hk.2.2⟩
  have hreach := hcareful.mono fun _ _ _ hk => hk.1
  obtain ⟨rest, ref, h⟩ := bootVm_ready.tallied (by decide) rfl hreach
    (bootVm_ready.cow (by decide) rfl hcareful) hv
  obtain ⟨s', o, hclone, hundone⟩ := vasClone_undone (by decide) rfl h hv
  rw [hclone] at heq
  obtain ⟨hnone, hbefore, hafter⟩ : decide (o = none) = true ∧ WritableAt s.mach v.pml4 0x5000
      ∧ hasFlag (pagingGetFlags Pmm.pmmAllocPage s'.mach (some v.pml4) 0x5000) PAGE_WRITE = false := by
    simpa [WritableAt, Except.toOption] using heq
  have hnone : o = none := by simpa using hnone
  rw [hnone] at hclone
  refine ⟨s, v, rest, s', hreach, hv, hclone, hbefore, fun hw => ?_, hundone hnone⟩
  have hw : hasFlag (pagingGetFlags Pmm.pmmAllocPage s'.mach (some v.pml4) 0x5000) PAGE_WRITE
      = true := hw
  rw [hafter] at hw
  cases hw

end runs

end Vm

end Alix
