/-
Freeing a page twice.

# What goes wrong

`pmm_free` takes a second free for an error when the page has `PAGE_FREE`.
`free_block` sets that flag on the head of the block it lists, which is not
the page that was freed where a merge with the buddy below moves the head
down: that page keeps `PAGE_USED` with a count of zero, and a second free
counts it down to -1 and returns (`free_pair_uncaught`).

# What holds

The flag is set by the free of a page exactly when no free pages below it
join its block (`free_flag_iff`), and nothing takes it from a page before
the page is handed out again. So double frees are caught throughout the runs
in which no free joins a block below, and only there
(`freeRun_caught_iff`).
-/
import Alix.Mm.Proofs.PmmAlloc

namespace Alix.Pmm

open Dyadic (Block buddy)

variable {maxPfn : Nat} {usable : Nat → Bool} {s s' : Pmm} {out : List Block}
  {freed : Nat → Prop} {b : Block} {order p q : Nat}

-- ==== the statement

/-- The runs of `pmm_alloc` and `pmm_free`, with the heads of the blocks
that were freed and not handed out since. `may` says which blocks may be
freed. -/
inductive FreeRun (may : Pmm → Block → Prop) (maxPfn : Nat) (usable : Nat → Bool) :
    Pmm → List Block → (Nat → Prop) → Prop
  | init : FreeRun may maxPfn usable (pmmInit maxPfn (pfndb maxPfn usable)) []
      fun _ => False
  | alloc {s s' : Pmm} {out : List Block} {freed : Nat → Prop} {order p : Nat} :
      FreeRun may maxPfn usable s out freed → s.pmmAlloc order = some (s', p) →
      FreeRun may maxPfn usable s' (⟨p, order⟩ :: out)
        fun q => freed q ∧ q ∉ Block.mk p order
  | free {s s' : Pmm} {out : List Block} {freed : Nat → Prop} {b : Block} :
      FreeRun may maxPfn usable s out freed → b ∈ out → may s b →
      s.pmmFree (some b.base) = .ok s' →
      FreeRun may maxPfn usable s' (out.erase b) fun q => q = b.base ∨ freed q

/-- A second free of any of these pages ends in the panic. -/
def Caught (s : Pmm) (freed : Nat → Prop) : Prop :=
  ∀ p, freed p → s.pmmFree (some p) = .error (.doubleFree p)

/-- With the pages of `b`, the free pages have an aligned block that `b` is
in and that begins below `b`. -/
def JoinsBelow (s : Pmm) (b : Block) : Prop :=
  ∃ c : Block, c.order < PMM_MAX_ORDER ∧ c.Aligned ∧ c.base < b.base ∧ b.base ∈ c
    ∧ ∀ q ∈ c, q ∈ s.freeFrames ∨ q ∈ b

-- ==== the flag

theorem clearFlag_free (p : Page) {n : Nat} (hn : n ≠ 0) :
    (p.clearFlag (pageBit n)).free = p.free := by
  rw [Page.free_eq, Page.free_eq]
  simp only [Page.clearFlag, BitVec.getLsbD_and, BitVec.getLsbD_not, getLsbD_pageBit]
  simp [hn]

theorem modPage_free {f : Page → Page} (hf : ∀ p, (f p).free = p.free) (s : Pmm) (p q : Nat) :
    ((s.modPage p f).pages q).free = (s.pages q).free := by
  by_cases hqp : q = p
  · rw [hqp, modPage_pages_self, hf]
  · rw [modPage_pages_of_ne s hqp]

theorem freeListRemove_free (s : Pmm) (o p q : Nat) :
    ((s.freeListRemove o p).pages q).free = (s.pages q).free :=
  (Page.data_tests (freeListRemove_data s o p q)).1

theorem freeListPush_free (s : Pmm) (o p q : Nat) :
    ((s.freeListPush o p).pages q).free = (s.pages q).free :=
  (Page.data_tests (freeListPush_data s o p q)).1

/-- The merges set the flag on no page, and take it from none. -/
theorem coalesce_free : ∀ (n : Nat) (s : Pmm) (p o q : Nat),
    ((coalesce n s p o).1.pages q).free = (s.pages q).free := by
  intro n
  induction n with
  | zero => exact fun s p o q => rfl
  | succ n ih =>
      intro s p o q
      unfold coalesce
      simp only
      split
      · rfl
      split
      · rfl
      · have horder := modPage_free (f := fun pg => { pg with order := o + 1 }) fun _ => rfl
        have hlarge := modPage_free (f := Page.clearFlag PAGE_LARGE_HEAD)
          fun pg => clearFlag_free pg (by decide)
        rw [ih, horder, hlarge, freeListRemove_free]

theorem coalesce_le : ∀ (n : Nat) (s : Pmm) (p o : Nat),
    (coalesce n s p o).2.2 ≤ o + n := by
  intro n
  induction n with
  | zero => exact fun s p o => Nat.le_refl _
  | succ n ih =>
      intro s p o
      unfold coalesce
      simp only
      split
      · exact Nat.le_add_right _ _
      split
      · exact Nat.le_add_right _ _
      · refine Nat.le_trans (ih _ _ _) ?_
        omega

/-- `free_block` sets the flag on the head of the block it lists. -/
theorem freeBlock_free (s : Pmm) {p : Nat} (ho : (s.pages p).order < PMM_MAX_ORDER) :
    ∃ c : Block, FreeBlock (s.freeBlock p) c
      ∧ ((s.freeBlock p).pages c.base).free = true
      ∧ ∀ q, q ≠ c.base → ((s.freeBlock p).pages q).free = (s.pages q).free := by
  have hle := coalesce_le (PMM_MAX_ORDER - 1 - (s.pages p).order) s p (s.pages p).order
  have hfree := coalesce_free (PMM_MAX_ORDER - 1 - (s.pages p).order) s p (s.pages p).order
  rw [freeBlock_eq]
  generalize coalesce (PMM_MAX_ORDER - 1 - (s.pages p).order) s p (s.pages p).order = r at *
  obtain ⟨t, head, o⟩ := r
  simp only at *
  refine ⟨⟨head, o⟩, ⟨?_, ?_⟩, ?_, fun q hq => ?_⟩
  · show o < PMM_MAX_ORDER
    omega
  · exact .head (freeListPush_head_self _ o head)
  · rw [freeListPush_free, modPage_pages_self]
    exact (freeHead_spec o _).1
  · rw [freeListPush_free, modPage_pages_of_ne t hq, hfree]

/-- A split takes the flag from no page. -/
theorem splitBlock_free (p order : Nat) : ∀ (k : Nat) (s : Pmm) (q : Nat),
    (s.pages q).free = true → ((splitBlock p order k s).pages q).free = true := by
  intro k
  induction k with
  | zero => exact fun s q h => h
  | succ k ih =>
      intro s q h
      unfold splitBlock
      simp only
      refine ih _ q ?_
      rw [freeListPush_free]
      by_cases hq : q = p + 1 <<< (order + k)
      · rw [hq, modPage_pages_self, Page.free_eq]
        simp only [BitVec.getLsbD_or, getLsbD_pageBit]
        simp
      · rw [modPage_pages_of_ne _ hq, modPage_pages_of_ne _ hq]
        exact h

/-- `pmm_alloc` takes it from the pages it hands out only. -/
theorem takeBlock_free (s : Pmm) {o : Nat} (hq : q ∉ Block.mk p order)
    (h : (s.pages q).free = true) : ((s.takeBlock o order p).pages q).free = true := by
  have hqp : q ≠ p := fun e => hq (e ▸ Block.base_mem ⟨p, order⟩)
  have hsplit := splitBlock_free p order (o - order) (s.freeListRemove o p) q (by
    rw [freeListRemove_free]
    exact h)
  show ((((splitBlock p order (o - order) (s.freeListRemove o p)).modPage p
    (allocHead order)).forBodies (allocBody order) p (1 <<< order)).pages q).free = true
  rw [forBodies_pages, Nat.one_shiftLeft, if_neg, modPage_pages_of_ne _ hqp]
  · exact hsplit
  · intro hc
    exact hq ⟨Nat.le_of_lt hc.1, hc.2⟩

theorem pmmAlloc_free (ha : s.pmmAlloc order = some (s', p)) (hq : q ∉ Block.mk p order)
    (h : (s.pages q).free = true) : (s'.pages q).free = true := by
  have hloop : ∀ n o, allocFrom order n s o = some (s', p) → (s'.pages q).free = true := by
    intro n
    induction n with
    | zero => exact fun o hn => (by cases hn)
    | succ n ih =>
        intro o hn
        unfold allocFrom at hn
        split at hn
        · exact ih (o + 1) hn
        · cases hn
          exact takeBlock_free s hq h
  unfold pmmAlloc at ha
  split at ha
  · cases ha
  · exact hloop _ _ ha

-- ==== free

/-- A free that gives a block back: the flag is set on the head of the
block that is listed, kept by the pages outside of `b`, and the head of `b`
had none before. -/
theorem pmmFree_flags (hone : (s.pages b.base).refcount = 1)
    (hord : (s.pages b.base).order = b.order) (ho : b.order < PMM_MAX_ORDER)
    (hfree : s.pmmFree (some b.base) = .ok s') :
    ∃ c, FreeBlock s' c ∧ (s'.pages c.base).free = true
      ∧ (b.base ≠ c.base → (s'.pages b.base).free = false)
      ∧ ∀ q, q ∉ b → (s.pages q).free = true → (s'.pages q).free = true := by
  unfold pmmFree at hfree
  simp only at hfree
  split at hfree
  · cases hfree
  split at hfree
  · cases hfree
  rename_i hnot
  cases hfree
  -- the state `free_block` sees
  have hs : ∃ t : Pmm, (s.pageRefDec b.base).releaseBlock b.base = t.freeBlock b.base
      ∧ (t.pages b.base).order = b.order
      ∧ (t.pages b.base).free = (s.pages b.base).free
      ∧ ∀ q, q ∉ b → (t.pages q).free = (s.pages q).free := by
    have hdec : ((s.pageRefDec b.base).pages b.base).order = b.order := by
      unfold pageRefDec
      rw [modPage_pages_self]
      exact hord
    have hflag : ∀ q, ((s.pageRefDec b.base).pages q).free = (s.pages q).free :=
      modPage_free (f := fun pg => { pg with refcount := pg.refcount - 1 }) (fun _ => rfl) s _
    unfold releaseBlock
    simp only
    refine ⟨_, rfl, ?_⟩
    split
    · refine ⟨?_, ?_, fun q hq => ?_⟩
      · show (((s.pageRefDec b.base).forBodies freeBody b.base _).pages b.base).order = _
        rw [forBodies_pages, if_neg (fun hc => Nat.lt_irrefl _ hc.1), hdec]
      · show (((s.pageRefDec b.base).forBodies freeBody b.base _).pages b.base).free = _
        rw [forBodies_pages, if_neg (fun hc => Nat.lt_irrefl _ hc.1), hflag]
      · show (((s.pageRefDec b.base).forBodies freeBody b.base _).pages q).free = _
        rw [forBodies_pages, hdec, Nat.one_shiftLeft,
          if_neg fun hc => hq ⟨Nat.le_of_lt hc.1, hc.2⟩, hflag]
    · exact ⟨hdec, hflag b.base, fun q _ => hflag q⟩
  obtain ⟨t, ht, htord, hthead, htout⟩ := hs
  obtain ⟨c, hc, hflag, hrest⟩ := freeBlock_free t (p := b.base) (by rw [htord]; exact ho)
  rw [ht]
  refine ⟨c, hc, hflag, fun hne => ?_, fun q hq h => ?_⟩
  · rw [hrest _ hne, hthead]
    simpa using hnot
  · by_cases hqc : q = c.base
    · rw [hqc]
      exact hflag
    · rw [hrest q hqc, htout q hq]
      exact h

/-- A page that is free has the flag when it heads a free block, and one
that was just freed has it in no other case. -/
theorem RunInv.flag_iff {L : Nat → List Nat} (h : RunInv maxPfn usable s out L) (hb : b ∈ out)
    (hfree : s.pmmFree (some b.base) = .ok s') :
    (s'.pages b.base).free = true ↔ ∃ o, FreeBlock s' ⟨b.base, o⟩ := by
  obtain ⟨ho, hord, hone⟩ := h.head b hb
  obtain ⟨c, hc, hflag, hlow, -⟩ := pmmFree_flags hone hord ho hfree
  obtain ⟨L', hinv⟩ := h.freed hb hfree
  constructor
  · intro hset
    by_cases hbc : b.base = c.base
    · exact ⟨c.order, hbc ▸ hc⟩
    · rw [hlow hbc] at hset
      cases hset
  · intro hblock
    obtain ⟨o, hblock⟩ := hblock
    exact (hinv.buddy.marked _ ((Core.freeBlock_iff hinv.buddy _).mp hblock)).1

/-- The free pages after a free. -/
theorem RunInv.free_frames {L : Nat → List Nat} (h : RunInv maxPfn usable s out L)
    (hb : b ∈ out) (hfree : s.pmmFree (some b.base) = .ok s') (q : Nat) :
    q ∈ s'.freeFrames ↔ q ∈ s.freeFrames ∨ q ∈ b := by
  obtain ⟨L', hinv⟩ := h.freed hb hfree
  rw [hinv.stocked.mem_freeFrames, h.stocked.mem_freeFrames]
  have hmem : ∀ c, c ∈ out.erase b ↔ c ∈ out ∧ c ≠ b := fun c => by
    rw [h.ledger.nodup.mem_erase_iff, and_comm]
  constructor
  · intro hq
    by_cases hqb : q ∈ b
    · exact Or.inr hqb
    · refine Or.inl ⟨hq.1, fun ha => hq.2 ?_⟩
      obtain ⟨c, hc, hqc⟩ := ha
      exact ⟨c, (hmem c).mpr ⟨hc, fun e => hqb (e ▸ hqc)⟩, hqc⟩
  · intro hq
    rcases hq with hq | hq
    · exact ⟨hq.1, fun ⟨c, hc, hqc⟩ => hq.2 ⟨c, ((hmem c).mp hc).1, hqc⟩⟩
    · refine ⟨h.ledger.mem_usable hb hq, fun ha => ?_⟩
      obtain ⟨c, hc, hqc⟩ := ha
      obtain ⟨hcout, hcb⟩ := (hmem c).mp hc
      exact h.ledger.apart hcout hb hcb hqc hq

/-- The page that was freed has the flag exactly when no free pages below
join its block. -/
theorem RunInv.free_flag_iff {L : Nat → List Nat} (h : RunInv maxPfn usable s out L)
    (hb : b ∈ out) (hfree : s.pmmFree (some b.base) = .ok s') :
    (s'.pages b.base).free = true ↔ ¬ JoinsBelow s b := by
  rw [h.flag_iff hb hfree]
  have hframes := h.free_frames hb hfree
  obtain ⟨L', hinv⟩ := h.freed hb hfree
  have hpart := hinv.buddy.partition
  have hlisted : ∀ c, FreeBlock s' c ↔ Listed L' c := Core.freeBlock_iff hinv.buddy
  constructor
  · intro hblock hjoin
    obtain ⟨o, hblock⟩ := hblock
    obtain ⟨c, hlt, hal, hbelow, hin, hpages⟩ := hjoin
    have hinside : ∀ q ∈ Block.mk c.base c.order,
        Usable maxPfn usable q ∧ ¬ Allocated (out.erase b) q := fun q hq =>
      hinv.stocked.mem_freeFrames.mp ((hframes q).mpr (hpages q hq))
    obtain ⟨d, hd, hle, hcd⟩ := hpart.inside_one hinv.merged _ _ hlt hal hinside
    have hsub := Block.sub_of_share hal (hpart.aligned d hd) hle (Block.base_mem c) hcd
    have hbd : b.base ∈ d := ⟨by have := hin.1; omega, by have := hin.2; omega⟩
    have hdb := hpart.eq_of_share hd ((hlisted _).mp hblock) hbd (Block.base_mem ⟨b.base, o⟩)
    rw [hdb] at hsub
    have : b.base ≤ c.base := hsub.1
    omega
  · intro hno
    obtain ⟨d, hd, hbd⟩ := (hframes b.base).mpr (Or.inr (Block.base_mem b))
    by_cases hbase : d.base = b.base
    · exact ⟨d.order, hbase ▸ hd⟩
    · have hlist := (hlisted d).mp hd
      refine absurd ⟨d, hlist.1, hpart.aligned d hlist, ?_, hbd, fun q hq => ?_⟩ hno
      · have := hbd.1
        omega
      · exact (hframes q).mp ⟨d, hd, hq⟩

-- ==== the runs

theorem FreeRun.reachable {may : Pmm → Block → Prop} (h : FreeRun may maxPfn usable s out freed) :
    Reachable maxPfn usable s out := by
  induction h with
  | init => exact .init
  | alloc _ ha ih => exact ih.alloc ha
  | free _ hb _ hfree ih => exact ih.free hb (reachable_free_ok ih hb).1 hfree

/-- No page that was freed and not handed out since is out. -/
theorem FreeRun.freed_free {may : Pmm → Block → Prop}
    (h : FreeRun may maxPfn usable s out freed) (hp : freed p) :
    Usable maxPfn usable p ∧ ¬ Allocated out p := by
  induction h with
  | init => exact hp.elim
  | alloc _ ha ih =>
      obtain ⟨hu, hout⟩ := ih hp.1
      refine ⟨hu, fun hc => ?_⟩
      obtain ⟨c, hc, hpc⟩ := hc
      rcases List.mem_cons.mp hc with rfl | hc
      · exact hp.2 hpc
      · exact hout ⟨c, hc, hpc⟩
  | free hrun hb _ hfree ih =>
      obtain ⟨L, hinv⟩ := reachable_runInv hrun.reachable
      obtain ⟨L', hinv'⟩ := reachable_runInv
        (hrun.reachable.free hb (reachable_free_ok hrun.reachable hb).1 hfree)
      refine hinv'.stocked.mem_freeFrames.mp ((hinv.free_frames hb hfree p).mpr ?_)
      rcases hp with rfl | hp
      · exact Or.inr (Block.base_mem _)
      · exact Or.inl (hinv.stocked.mem_freeFrames.mpr (ih hp))

/-- The panic is the flag. -/
theorem FreeRun.caught_iff {may : Pmm → Block → Prop}
    (h : FreeRun may maxPfn usable s out freed) (hp : freed p) :
    s.pmmFree (some p) = .error (.doubleFree p) ↔ (s.pages p).free = true := by
  obtain ⟨L, hinv⟩ := reachable_runInv h.reachable
  obtain ⟨hres, hpoi⟩ := hinv.clean p (h.freed_free hp).1
  unfold pmmFree
  simp only [hres, hpoi, Bool.or_self, Bool.false_eq_true, if_false]
  constructor
  · intro he
    split at he
    · assumption
    · split at he <;> cases he
  · intro hset
    rw [if_pos hset]

/-- Where no free joins a block below, the freed pages keep the flag. -/
theorem FreeRun.caught (h : FreeRun (fun s b => ¬ JoinsBelow s b) maxPfn usable s out freed) :
    Caught s freed := by
  have hflags : ∀ p, freed p → (s.pages p).free = true := by
    induction h with
    | init => exact fun p hp => hp.elim
    | alloc _ ha ih => exact fun p hp => pmmAlloc_free ha hp.2 (ih p hp.1)
    | free hrun hb hmay hfree ih =>
        obtain ⟨L, hinv⟩ := reachable_runInv hrun.reachable
        intro p hp
        rcases hp with rfl | hp
        · exact (hinv.free_flag_iff hb hfree).mpr hmay
        · obtain ⟨ho, hord, hone⟩ := hinv.head _ hb
          obtain ⟨-, -, -, -, hkeep⟩ := pmmFree_flags hone hord ho hfree
          exact hkeep p (fun hpb => (hrun.freed_free hp).2 ⟨_, hb, hpb⟩) (ih p hp)
  exact fun p hp => (h.caught_iff hp).mpr (hflags p hp)

/-- A free that joins a block below loses the page that it is given. -/
theorem RunInv.uncaught {L : Nat → List Nat} (h : RunInv maxPfn usable s out L) (hb : b ∈ out)
    (hfree : s.pmmFree (some b.base) = .ok s') (hjoin : JoinsBelow s b) :
    s'.pmmFree (some b.base) ≠ .error (.doubleFree b.base) := by
  have hflag := (h.free_flag_iff hb hfree).not.mpr (not_not.mpr hjoin)
  intro herr
  unfold pmmFree at herr
  simp only at herr
  split at herr
  · cases herr
  split at herr <;> cases herr

/-- Double frees are caught in every state of the runs in which no free
joins a block below, and a free after which they still are is not such a
free. -/
theorem freeRun_caught_iff
    (h : FreeRun (fun s b => ¬ JoinsBelow s b) maxPfn usable s out freed) :
    Caught s freed ∧ ∀ b ∈ out, ∀ s', s.pmmFree (some b.base) = .ok s' →
      (Caught s' (fun q => q = b.base ∨ freed q) ↔ ¬ JoinsBelow s b) := by
  refine ⟨h.caught, fun b hb s' hfree => ⟨fun hc hjoin => ?_, fun hno => ?_⟩⟩
  · obtain ⟨L, hinv⟩ := reachable_runInv h.reachable
    exact hinv.uncaught hb hfree hjoin (hc b.base (Or.inl rfl))
  · exact (h.free hb hno hfree).caught

-- ==== traces

/-- The two-page machine after two allocations. -/
theorem freeRun_pair : ∃ s, ∀ may : Pmm → Block → Prop, ∃ freed,
    FreeRun may 1 (fun _ => true) s [⟨1, 0⟩, ⟨0, 0⟩] freed := by
  have hpage : ((pmmInit 1 (pfndb 1 fun _ => true)).pmmAlloc 0).map
      (fun r => (r.2, (r.1.pmmAlloc 0).map Prod.snd)) = some (0, some 1) := by decide
  obtain ⟨⟨s₁, p⟩, halloc, hp⟩ := Option.map_eq_some_iff.mp hpage
  obtain ⟨hp0, hnext⟩ := Prod.mk.inj hp
  change p = 0 at hp0
  subst hp0
  obtain ⟨⟨s₂, p⟩, halloc', hp⟩ := Option.map_eq_some_iff.mp hnext
  change p = 1 at hp
  subst hp
  refine ⟨s₂, fun may => ?_⟩
  have hinit : FreeRun may 1 (fun _ => true) _ _ _ := .init
  exact ⟨_, (hinit.alloc halloc).alloc halloc'⟩

/-- There the free of the upper page joins nothing, and a second free of it
is caught. -/
theorem freeRun_caught_pair : ∃ (s s' : Pmm) (freed : Nat → Prop), freed 1
    ∧ s.pmmFree (some 1) = .ok s' ∧ Caught s' freed := by
  obtain ⟨s, hrun⟩ := freeRun_pair
  obtain ⟨freed, h⟩ := hrun fun s b => ¬ JoinsBelow s b
  have hb : (⟨1, 0⟩ : Block) ∈ [(⟨1, 0⟩ : Block), ⟨0, 0⟩] := List.mem_cons_self
  obtain ⟨-, s', hfree⟩ := reachable_free_ok h.reachable hb
  refine ⟨s, s', _, Or.inl rfl, hfree, ((freeRun_caught_iff h).2 _ hb s' hfree).mpr ?_⟩
  -- page 0 is out
  intro hjoin
  obtain ⟨c, -, -, hlt, hin, hpages⟩ := hjoin
  change c.base < 1 at hlt
  have hc0 : c.base = 0 := by omega
  obtain ⟨L, hinv⟩ := reachable_runInv h.reachable
  rcases hpages c.base (Block.base_mem c) with hf | hf
  · refine (hinv.stocked.mem_freeFrames.mp hf).2 ⟨⟨0, 0⟩, ?_, ?_⟩
    · exact List.mem_cons_of_mem _ List.mem_cons_self
    · rw [hc0]
      exact Block.base_mem ⟨0, 0⟩
  · rw [hc0] at hf
    exact absurd hf.1 (by decide)

/-- With the lower page freed first, the free of the upper one joins it, and
a second free of the upper page returns. -/
theorem free_pair_uncaught : ¬ ∀ (maxPfn : Nat) (usable : Nat → Bool) s out freed,
    FreeRun (fun _ _ => True) maxPfn usable s out freed → Caught s freed := by
  intro hall
  obtain ⟨s, hrun⟩ := freeRun_pair
  obtain ⟨freed, h⟩ := hrun fun _ _ => True
  have hb : (⟨0, 0⟩ : Block) ∈ [(⟨1, 0⟩ : Block), ⟨0, 0⟩] := by decide
  obtain ⟨-, s₁, hfree⟩ := reachable_free_ok h.reachable hb
  have h₁ := h.free hb trivial hfree
  have hb₁ : (⟨1, 0⟩ : Block) ∈ [(⟨1, 0⟩ : Block), ⟨0, 0⟩].erase ⟨0, 0⟩ := by decide
  obtain ⟨-, s₂, hfree₁⟩ := reachable_free_ok h₁.reachable hb₁
  obtain ⟨L, hinv⟩ := reachable_runInv h.reachable
  obtain ⟨L₁, hinv₁⟩ := reachable_runInv h₁.reachable
  refine hinv₁.uncaught hb₁ hfree₁ ⟨⟨0, 1⟩, by decide, ?_, by decide, ?_, fun q hq => ?_⟩
    (hall _ _ _ _ _ (h₁.free hb₁ trivial hfree₁) 1 (Or.inl rfl))
  · exact Nat.dvd_zero _
  · exact ⟨by decide, by decide⟩
  · have hlt : q < 0 + 2 ^ 1 := hq.2
    by_cases hq0 : q = 0
    · exact Or.inl ((hinv.free_frames hb hfree q).mpr (Or.inr (hq0 ▸ Block.base_mem ⟨0, 0⟩)))
    · refine Or.inr ⟨?_, ?_⟩
      · show 1 ≤ q
        omega
      · show q < 1 + 2 ^ 0
        omega

end Alix.Pmm
