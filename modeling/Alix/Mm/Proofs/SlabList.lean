/-
The lists of slabs.

A slab stands at the start of its page, and its first two words are its
links. `Linked` says that the words of some pages hold the links of the
list library, a pointer to a slab standing for its page. On such pages
`slab_list_push` is the library's `pushFront` and `slab_list_remove` its
`unlink`, whatever else is in the pages, and both write nothing but link
words (`Relinked`): the rest of a slab, and all other memory, is for the
files after this one.

`OnLists` is what the caches know: every list of every cache is a list of
its pages, and no page is on two of them. Pushing conses
(`OnLists.push`), removing erases (`OnLists.remove`). `Listed` is the case
of the size classes.
-/
import Alix.Lib.Dll
import Alix.Mm.Kheap

namespace Alix.Kheap

open Bytes (Memory load store load_store_same load_store_of_apart store_outside)
open Dll (Links IsList)

-- ==== pages

/-- Where a page is. -/
def pageAt (hhdm q : Nat) : Nat := q * 4096 + hhdm

variable {hhdm q p w : Nat} {m m' : Memory} {s s' t : Kheap} {P Q : Nat → Prop}

theorem slabFromPage_eq (s : Kheap) (q : Nat) : s.slabFromPage q = pageAt s.hhdm q := rfl

/-- Words of two pages, or two words of a page, do not overlap. -/
theorem pageAt_apart {a b n k : Nat} (h : q ≠ p ∨ a + n ≤ b ∨ b + k ≤ a) (ha : a + n ≤ 4096)
    (hb : b + k ≤ 4096) :
    pageAt hhdm q + a + n ≤ pageAt hhdm p + b ∨ pageAt hhdm p + b + k ≤ pageAt hhdm q + a := by
  unfold pageAt
  omega

-- ==== links

/-- The pointer to the slab of a page. -/
def slabPtr (hhdm : Nat) : Option Nat → Nat
  | none => 0
  | some q => pageAt hhdm q

theorem slabPtr_eq_zero (hh : 0 < hhdm) {o : Option Nat} : slabPtr hhdm o = 0 ↔ o = none := by
  cases o with
  | none => exact ⟨fun _ => rfl, fun _ => rfl⟩
  | some q =>
      constructor
      · intro h
        have h' : q * 4096 + hhdm = 0 := h
        omega
      · intro h
        cases h

/-- The pages of `P` have, at an offset, the pointers of `f`. -/
def Word (hhdm : Nat) (m : Memory) (off : Nat) (f : Nat → Option Nat) (P : Nat → Prop) : Prop :=
  ∀ q, P q → load m (pageAt hhdm q + off) 8 = slabPtr hhdm (f q)

/-- A store of a pointer. -/
theorem Word.store_self {a off : Nat} {f : Nat → Option Nat} (h : Word hhdm m off f P)
    (hoff : off ≤ 8) (ha : a = pageAt hhdm q + off) {v : Option Nat}
    (hv : slabPtr hhdm v < 2 ^ 64) :
    Word hhdm (store m a 8 (slabPtr hhdm v)) off (Function.update f q v)
      fun p => p = q ∨ P p := by
  intro p hp
  rw [ha]
  by_cases he : p = q
  · rw [he, Function.update_self]
    exact load_store_same hv
  · rw [Function.update_of_ne he,
      load_store_of_apart (pageAt_apart (Or.inl he) (by omega) (by omega))]
    exact h p (hp.resolve_left he)

/-- A store at the other offset. -/
theorem Word.store_other {a off off' : Nat} {f : Nat → Option Nat} (h : Word hhdm m off f P)
    (ha : a = pageAt hhdm q + off') (hoff : off + 8 ≤ off' ∨ off' + 8 ≤ off) (h1 : off ≤ 8)
    (h2 : off' ≤ 8) : Word hhdm (store m a 8 w) off f P := by
  intro p hp
  rw [ha, load_store_of_apart (pageAt_apart (Or.inr hoff) (by omega) (by omega))]
  exact h p hp

/-- The link words of the pages of `P`. -/
structure Linked (hhdm : Nat) (m : Memory) (l : Links Nat) (P : Nat → Prop) : Prop where
  next : Word hhdm m 0 l.next P
  prev : Word hhdm m 8 l.prev P

theorem Linked.next_eq {l : Links Nat} (h : Linked hhdm m l P) (hq : P q) :
    load m (pageAt hhdm q) 8 = slabPtr hhdm (l.next q) := by
  have h0 := h.next q hq
  rwa [Nat.add_zero] at h0

theorem Linked.prev_eq {l : Links Nat} (h : Linked hhdm m l P) (hq : P q) :
    load m (pageAt hhdm q + 8) 8 = slabPtr hhdm (l.prev q) :=
  h.prev q hq

theorem Linked.congr {l : Links Nat} (h : Linked hhdm m l P)
    (hm : ∀ q, P q → ∀ x, pageAt hhdm q ≤ x → x < pageAt hhdm q + 16 → m' x = m x) :
    Linked hhdm m' l P := by
  constructor
  · intro q hq
    rw [← h.next q hq]
    exact Bytes.load_congr fun x h1 h2 => hm q hq x (by omega) (by omega)
  · intro q hq
    rw [← h.prev q hq]
    exact Bytes.load_congr fun x h1 h2 => hm q hq x (by omega) (by omega)

/-- A `prev` store through a pointer to a slab. -/
theorem Linked.setPrev {l : Links Nat} (h : Linked hhdm m l P) {v : Option Nat}
    (hv : slabPtr hhdm v < 2 ^ 64) :
    Linked hhdm (store m (pageAt hhdm q + 8) 8 (slabPtr hhdm v)) (l.setPrev q v) P := by
  constructor
  · exact h.next.store_other rfl (Or.inl (by omega)) (by omega) (by omega)
  · intro p hp
    exact h.prev.store_self (by omega) rfl hv p (Or.inr hp)

/-- A `next` store through a pointer to a slab. -/
theorem Linked.setNext {l : Links Nat} (h : Linked hhdm m l P) {v : Option Nat}
    (hv : slabPtr hhdm v < 2 ^ 64) :
    Linked hhdm (store m (pageAt hhdm q) 8 (slabPtr hhdm v)) (l.setNext q v) P := by
  have ha : pageAt hhdm q = pageAt hhdm q + 0 := (Nat.add_zero _).symm
  constructor
  · intro p hp
    exact h.next.store_self (by omega) ha hv p (Or.inr hp)
  · exact h.prev.store_other ha (Or.inr (by omega)) (by omega) (by omega)

/-- A page whose two words are written is one of the pages. -/
theorem Linked.setBoth {l : Links Nat} (h : Linked hhdm m l P) {u v : Option Nat}
    (hu : slabPtr hhdm u < 2 ^ 64) (hv : slabPtr hhdm v < 2 ^ 64) :
    Linked hhdm (store (store m (pageAt hhdm q + 8) 8 (slabPtr hhdm u)) (pageAt hhdm q) 8
      (slabPtr hhdm v)) ((l.setPrev q u).setNext q v) fun p => p = q ∨ P p := by
  have ha : pageAt hhdm q = pageAt hhdm q + 0 := (Nat.add_zero _).symm
  constructor
  · exact (h.next.store_other rfl (Or.inl (by omega)) (by omega) (by omega)).store_self
      (by omega) ha hv
  · exact (h.prev.store_self (by omega) rfl hu).store_other ha (Or.inr (by omega))
      (by omega) (by omega)

-- ==== what is written

/-- Only link words of the pages of `P` have been written, and heads. -/
structure Relinked (s s' : Kheap) (P : Nat → Prop) : Prop where
  pmm : s'.pmm = s.pmm
  hhdm : s'.hhdm = s.hhdm
  allocs : s'.totalAllocCount = s.totalAllocCount
  frees : s'.totalFreeCount = s.totalFreeCount
  sizes : ∀ c, (s'.caches c).objSize = (s.caches c).objSize
    ∧ (s'.caches c).objAlign = (s.caches c).objAlign
  mem : ∀ x, (∀ q, P q → ¬ (pageAt s.hhdm q ≤ x ∧ x < pageAt s.hhdm q + 16)) →
    s'.mem x = s.mem x

theorem Relinked.refl (s : Kheap) (P : Nat → Prop) : Relinked s s P :=
  ⟨rfl, rfl, rfl, rfl, fun _ => ⟨rfl, rfl⟩, fun _ _ => rfl⟩

theorem Relinked.trans (h : Relinked s s' P) (h' : Relinked s' t P) : Relinked s t P where
  pmm := h'.pmm.trans h.pmm
  hhdm := h'.hhdm.trans h.hhdm
  allocs := h'.allocs.trans h.allocs
  frees := h'.frees.trans h.frees
  sizes c := ⟨(h'.sizes c).1.trans (h.sizes c).1, (h'.sizes c).2.trans (h.sizes c).2⟩
  mem x hx := (h'.mem x (by rw [h.hhdm]; exact hx)).trans (h.mem x hx)

/-- A store in the link words of a page of `P`. -/
theorem relinked_put {a : Nat} (hq : P q)
    (ha : pageAt s.hhdm q ≤ a ∧ a + 8 ≤ pageAt s.hhdm q + 16) :
    Relinked s (s.put a 8 w) P := by
  refine ⟨rfl, rfl, rfl, rfl, fun _ => ⟨rfl, rfl⟩, fun x hx => ?_⟩
  have hout := hx q hq
  exact store_outside (by omega)

theorem modCache_self (s : Kheap) (c : Nat) (f : SlabCache → SlabCache) :
    (s.modCache c f).caches c = f (s.caches c) :=
  Function.update_self c _ _

theorem modCache_of_ne (s : Kheap) {c c' : Nat} (h : c' ≠ c) (f : SlabCache → SlabCache) :
    (s.modCache c f).caches c' = s.caches c' :=
  Function.update_of_ne h _ _

theorem relinked_setHead (s : Kheap) (c : Nat) (k : SlabList) (v : Nat) (P : Nat → Prop) :
    Relinked s (s.setHead c k v) P := by
  refine ⟨rfl, rfl, rfl, rfl, fun c' => ?_, fun _ _ => rfl⟩
  unfold setHead
  by_cases h : c' = c
  · rw [h, modCache_self]
    cases k with
    | partials => exact ⟨rfl, rfl⟩
    | full => exact ⟨rfl, rfl⟩
  · rw [modCache_of_ne s h]
    exact ⟨rfl, rfl⟩

theorem head_setHead_self (s : Kheap) (c : Nat) (k : SlabList) (v : Nat) :
    (s.setHead c k v).head c k = v := by
  unfold setHead head
  rw [modCache_self]
  cases k with
  | partials => rfl
  | full => rfl

theorem head_setHead_of_ne (s : Kheap) {c c' : Nat} {k k' : SlabList} (v : Nat)
    (h : ¬ (c' = c ∧ k' = k)) : (s.setHead c k v).head c' k' = s.head c' k' := by
  unfold setHead head
  by_cases hc : c' = c
  · rw [hc, modCache_self]
    cases k with
    | partials =>
        cases k' with
        | partials => exact absurd ⟨hc, rfl⟩ h
        | full => rfl
    | full =>
        cases k' with
        | partials => rfl
        | full => exact absurd ⟨hc, rfl⟩ h
  · rw [modCache_of_ne s hc]

-- ==== the lists

/-- The lists of the caches, the `k`-th of cache `c` being changed. -/
def setList (lists : Nat → SlabList → List Nat) (c : Nat) (k : SlabList) (xs : List Nat) :
    Nat → SlabList → List Nat :=
  fun c' k' => if c' = c ∧ k' = k then xs else lists c' k'

theorem setList_self {lists : Nat → SlabList → List Nat} {c : Nat} {k : SlabList}
    {xs : List Nat} : setList lists c k xs c k = xs :=
  if_pos ⟨rfl, rfl⟩

theorem setList_of_ne {lists : Nat → SlabList → List Nat} {c c' : Nat} {k k' : SlabList}
    {xs : List Nat} (h : ¬ (c' = c ∧ k' = k)) : setList lists c k xs c' k' = lists c' k' :=
  if_neg h

/-- Every list of every cache is a list of pages of `P`, no page is on two
of them, and the caches of `C` have the heads. -/
structure OnLists (C : Nat → Prop) (s : Kheap) (lists : Nat → SlabList → List Nat)
    (P : Nat → Prop) : Prop where
  linked : ∃ l, Linked s.hhdm s.mem l P ∧ ∀ c k, IsList l (lists c k)
  head : ∀ c k, C c → s.head c k = slabPtr s.hhdm (lists c k).head?
  member : ∀ c k q, q ∈ lists c k → P q
  alone : ∀ c k c' k' q, q ∈ lists c k → q ∈ lists c' k' → c' = c ∧ k' = k
  low : ∀ q, P q → pageAt s.hhdm q < 2 ^ 64

/-- The lists of the size classes. -/
structure Listed (s : Kheap) (lists : Nat → SlabList → List Nat) (P : Nat → Prop) : Prop where
  linked : ∃ l, Linked s.hhdm s.mem l P ∧ ∀ c k, IsList l (lists c k)
  head : ∀ c k, c < NUM_SIZE_CLASSES → s.head c k = slabPtr s.hhdm (lists c k).head?
  member : ∀ c k q, q ∈ lists c k → P q
  alone : ∀ c k c' k' q, q ∈ lists c k → q ∈ lists c' k' → c' = c ∧ k' = k
  low : ∀ q, P q → pageAt s.hhdm q < 2 ^ 64

theorem listed_iff {lists : Nat → SlabList → List Nat} :
    Listed s lists P ↔ OnLists (· < NUM_SIZE_CLASSES) s lists P := by
  constructor
  · intro h
    exact ⟨h.linked, h.head, h.member, h.alone, h.low⟩
  · intro h
    exact ⟨h.linked, h.head, h.member, h.alone, h.low⟩

variable {C : Nat → Prop} {lists : Nat → SlabList → List Nat} {c : Nat} {k : SlabList}

theorem OnLists.head_mem (h : OnLists C s lists P) (p : Nat) (hp : (lists c k).head? = some p) :
    P p :=
  h.member c k p (List.mem_of_mem_head? (by rw [hp]; rfl))

/-- `slab_list_push` writes the links of the library's `pushFront`. -/
theorem Linked.push {l : Links Nat} (hh : 0 < s.hhdm) (h : Linked s.hhdm s.mem l P)
    {o : Option Nat} (ho : ∀ p, o = some p → P p) (hhead : s.head c k = slabPtr s.hhdm o)
    (hlow : ∀ p, p = q ∨ P p → pageAt s.hhdm p < 2 ^ 64) :
    Linked s.hhdm (s.slabListPush c k (pageAt s.hhdm q)).mem (l.pushFront o q)
        (fun p => p = q ∨ P p)
      ∧ Relinked s (s.slabListPush c k (pageAt s.hhdm q)) (fun p => p = q ∨ P p)
      ∧ (s.slabListPush c k (pageAt s.hhdm q)).head c k = pageAt s.hhdm q
      ∧ ∀ c' k', ¬ (c' = c ∧ k' = k) →
        (s.slabListPush c k (pageAt s.hhdm q)).head c' k' = s.head c' k' := by
  have hnull : slabPtr s.hhdm none < 2 ^ 64 := Nat.two_pow_pos 64
  have hv : slabPtr s.hhdm o < 2 ^ 64 := by
    cases o with
    | none => exact hnull
    | some p => exact hlow p (Or.inr (ho p rfl))
  have hboth := h.setBoth (q := q) hnull hv
  have hone := relinked_put (s := s) (w := 0) (P := fun p => p = q ∨ P p)
    (a := pageAt s.hhdm q + 8) (Or.inl rfl) (by omega)
  have htwo := hone.trans (relinked_put (s := s.put (pageAt s.hhdm q + 8) 8 0)
    (w := s.head c k) (P := fun p => p = q ∨ P p) (a := pageAt s.hhdm q) (q := q)
    (Or.inl rfl) ⟨Nat.le_refl _, Nat.add_le_add_left (by omega) _⟩)
  cases o with
  | none =>
      have hzero : s.head c k = 0 := hhead
      have heq : s.slabListPush c k (pageAt s.hhdm q)
          = ((s.put (pageAt s.hhdm q + 8) 8 0).put (pageAt s.hhdm q) 8
            (s.head c k)).setHead c k (pageAt s.hhdm q) :=
        congrArg (fun t => setHead t c k (pageAt s.hhdm q)) (if_neg (not_not.mpr hzero))
      rw [heq]
      refine ⟨?_, htwo.trans (relinked_setHead _ c k _ _), head_setHead_self _ c k _,
        fun c' k' hne => head_setHead_of_ne _ _ hne⟩
      rw [hhead]
      exact hboth
  | some p =>
      have hptr : s.head c k = pageAt s.hhdm p := hhead
      have hne : s.head c k ≠ 0 := by
        rw [hptr]
        unfold pageAt
        omega
      have heq : s.slabListPush c k (pageAt s.hhdm q)
          = (((s.put (pageAt s.hhdm q + 8) 8 0).put (pageAt s.hhdm q) 8
            (s.head c k)).put (s.head c k + 8) 8 (pageAt s.hhdm q)).setHead c k
              (pageAt s.hhdm q) :=
        congrArg (fun t => setHead t c k (pageAt s.hhdm q)) (if_pos hne)
      rw [heq]
      refine ⟨?_, ?_, head_setHead_self _ c k _, fun c' k' hne => head_setHead_of_ne _ _ hne⟩
      · rw [hptr]
        exact hboth.setPrev (v := some q) (hlow q (Or.inl rfl))
      · refine (htwo.trans (relinked_put (q := p) (Or.inr (ho p rfl)) ?_)).trans
          (relinked_setHead _ c k _ _)
        rw [hptr]
        exact ⟨Nat.le_add_right _ _, Nat.le_refl _⟩

/-- The first statement of `slab_list_remove`. -/
def detachPrev (s : Kheap) (c : Nat) (k : SlabList) (slab : Nat) : Kheap :=
  if s.get64 (slab + 8) ≠ 0 then s.put (s.get64 (slab + 8)) 8 (s.get64 slab)
  else s.setHead c k (s.get64 slab)

/-- The second one. -/
def detachNext (s : Kheap) (slab : Nat) : Kheap :=
  if s.get64 slab ≠ 0 then s.put (s.get64 slab + 8) 8 (s.get64 (slab + 8)) else s

theorem slabListRemove_eq (s : Kheap) (c : Nat) (k : SlabList) (slab : Nat) :
    s.slabListRemove c k slab
      = (((s.detachPrev c k slab).detachNext slab).put slab 8 0).put (slab + 8) 8 0 := rfl

theorem Linked.detachPrev {l : Links Nat} (hh : 0 < s.hhdm) (h : Linked s.hhdm s.mem l P)
    (hq : P q) (hnext : ∀ p, l.next q = some p → P p) (hprev : ∀ p, l.prev q = some p → P p)
    (hlow : ∀ p, P p → pageAt s.hhdm p < 2 ^ 64) :
    Linked s.hhdm (s.detachPrev c k (pageAt s.hhdm q)).mem (l.setNext? (l.prev q) (l.next q)) P
      ∧ Relinked s (s.detachPrev c k (pageAt s.hhdm q)) P
      ∧ (s.detachPrev c k (pageAt s.hhdm q)).head c k
        = (if l.prev q = none then slabPtr s.hhdm (l.next q) else s.head c k)
      ∧ ∀ c' k', ¬ (c' = c ∧ k' = k) →
        (s.detachPrev c k (pageAt s.hhdm q)).head c' k' = s.head c' k' := by
  have hn : s.get64 (pageAt s.hhdm q) = slabPtr s.hhdm (l.next q) := h.next_eq hq
  have hp : s.get64 (pageAt s.hhdm q + 8) = slabPtr s.hhdm (l.prev q) := h.prev_eq hq
  have hv : slabPtr s.hhdm (l.next q) < 2 ^ 64 := by
    cases ho : l.next q with
    | none => exact Nat.two_pow_pos 64
    | some p => exact hlow p (hnext p ho)
  unfold Kheap.detachPrev
  cases ho : l.prev q with
  | none =>
      rw [if_neg (by rw [hp, ho]; exact not_not.mpr rfl), hn, if_pos rfl]
      exact ⟨h, relinked_setHead s c k _ P, head_setHead_self s c k _,
        fun c' k' hne => head_setHead_of_ne s _ hne⟩
  | some p =>
      have hne : s.get64 (pageAt s.hhdm q + 8) ≠ 0 := by
        rw [hp, ho]
        intro e
        cases (slabPtr_eq_zero hh).mp e
      rw [if_pos hne, hp, ho, hn, if_neg (by intro e; cases e)]
      exact ⟨h.setNext hv, relinked_put (hprev p ho)
        ⟨Nat.le_refl _, Nat.add_le_add_left (by omega) _⟩, rfl, fun _ _ _ => rfl⟩

theorem Linked.detachNext {l : Links Nat} (hh : 0 < s.hhdm) (h : Linked s.hhdm s.mem l P)
    (hq : P q) (hnext : ∀ p, l.next q = some p → P p) (hprev : ∀ p, l.prev q = some p → P p)
    (hlow : ∀ p, P p → pageAt s.hhdm p < 2 ^ 64) :
    Linked s.hhdm (s.detachNext (pageAt s.hhdm q)).mem (l.setPrev? (l.next q) (l.prev q)) P
      ∧ Relinked s (s.detachNext (pageAt s.hhdm q)) P
      ∧ (s.detachNext (pageAt s.hhdm q)).caches = s.caches := by
  have hn : s.get64 (pageAt s.hhdm q) = slabPtr s.hhdm (l.next q) := h.next_eq hq
  have hp : s.get64 (pageAt s.hhdm q + 8) = slabPtr s.hhdm (l.prev q) := h.prev_eq hq
  have hv : slabPtr s.hhdm (l.prev q) < 2 ^ 64 := by
    cases ho : l.prev q with
    | none => exact Nat.two_pow_pos 64
    | some p => exact hlow p (hprev p ho)
  unfold Kheap.detachNext
  cases ho : l.next q with
  | none =>
      rw [if_neg (by rw [hn, ho]; exact not_not.mpr rfl)]
      exact ⟨h, Relinked.refl s P, rfl⟩
  | some p =>
      have hne : s.get64 (pageAt s.hhdm q) ≠ 0 := by
        rw [hn, ho]
        intro e
        cases (slabPtr_eq_zero hh).mp e
      rw [if_pos hne, hn, ho, hp]
      exact ⟨h.setPrev hv, relinked_put (hnext p ho) ⟨Nat.le_add_right _ _, Nat.le_refl _⟩, rfl⟩

/-- `slab_list_remove` writes the links of the library's `unlink`. -/
theorem Linked.remove {l : Links Nat} (hh : 0 < s.hhdm) (h : Linked s.hhdm s.mem l P)
    (hq : P q) (hnext : ∀ p, l.next q = some p → P p) (hprev : ∀ p, l.prev q = some p → P p)
    (hself : l.prev q ≠ some q) (hlow : ∀ p, P p → pageAt s.hhdm p < 2 ^ 64) :
    Linked s.hhdm (s.slabListRemove c k (pageAt s.hhdm q)).mem (l.unlink q) P
      ∧ Relinked s (s.slabListRemove c k (pageAt s.hhdm q)) P
      ∧ (s.slabListRemove c k (pageAt s.hhdm q)).head c k
        = (if l.prev q = none then slabPtr s.hhdm (l.next q) else s.head c k)
      ∧ ∀ c' k', ¬ (c' = c ∧ k' = k) →
        (s.slabListRemove c k (pageAt s.hhdm q)).head c' k' = s.head c' k' := by
  have hnull : slabPtr s.hhdm none < 2 ^ 64 := Nat.two_pow_pos 64
  obtain ⟨h1, hr1, hhead, hothers⟩ := h.detachPrev (c := c) (k := k) hh hq hnext hprev hlow
  rw [slabListRemove_eq]
  revert h1 hr1 hhead hothers
  generalize s.detachPrev c k (pageAt s.hhdm q) = s₁
  intro h1 hr1 hhead hothers
  -- the neighbours of the slab are read again, and are what they were
  have hn1 : (l.setNext? (l.prev q) (l.next q)).next q = l.next q :=
    Links.setNext?_next_of_ne l hself _
  have hp1 : (l.setNext? (l.prev q) (l.next q)).prev q = l.prev q :=
    congrFun (Links.setNext?_prev l _ _) q
  rw [← hr1.hhdm] at h1 hh hlow hnull hhead
  obtain ⟨h2, hr2, hcaches⟩ := h1.detachNext hh hq (by rw [hn1]; exact hnext)
    (by rw [hp1]; exact hprev) hlow
  rw [hn1, hp1] at h2
  rw [← hr1.hhdm]
  revert h2 hr2 hcaches
  generalize s₁.detachNext (pageAt s₁.hhdm q) = s₂
  intro h2 hr2 hcaches
  have hlast : Relinked s₂ ((s₂.put (pageAt s₁.hhdm q) 8 0).put (pageAt s₁.hhdm q + 8) 8 0) P := by
    rw [← hr2.hhdm]
    exact (relinked_put hq ⟨Nat.le_refl _, Nat.add_le_add_left (by omega) _⟩).trans
      (relinked_put (s := s₂.put (pageAt s₂.hhdm q) 8 0) hq
        ⟨Nat.le_add_right _ _, Nat.le_refl _⟩)
  refine ⟨(h2.setNext (v := none) hnull).setPrev (v := none) hnull, (hr1.trans hr2).trans hlast,
    ?_, fun c' k' hne => ?_⟩
  · rw [← hhead]
    unfold head
    rw [← hcaches]
    rfl
  · rw [← hothers c' k' hne]
    unfold head
    rw [← hcaches]
    rfl

/-- Lists are not the page allocator's concern. -/
theorem put_frame (s : Kheap) (a n w : Nat) :
    (s.put a n w).pmm = s.pmm ∧ (s.put a n w).hhdm = s.hhdm :=
  ⟨rfl, rfl⟩

theorem setHead_frame (s : Kheap) (c : Nat) (l : SlabList) (v : Nat) :
    (s.setHead c l v).pmm = s.pmm ∧ (s.setHead c l v).hhdm = s.hhdm :=
  ⟨rfl, rfl⟩

theorem slabListPush_frame (s : Kheap) (c : Nat) (l : SlabList) (slab : Nat) :
    (s.slabListPush c l slab).pmm = s.pmm ∧ (s.slabListPush c l slab).hhdm = s.hhdm := by
  unfold slabListPush
  dsimp only
  split
  · exact ⟨rfl, rfl⟩
  · exact ⟨rfl, rfl⟩

theorem slabListRemove_frame (s : Kheap) (c : Nat) (l : SlabList) (slab : Nat) :
    (s.slabListRemove c l slab).pmm = s.pmm ∧ (s.slabListRemove c l slab).hhdm = s.hhdm := by
  have hprev : (s.detachPrev c l slab).pmm = s.pmm ∧ (s.detachPrev c l slab).hhdm = s.hhdm := by
    unfold Kheap.detachPrev
    split
    · exact put_frame _ _ _ _
    · exact setHead_frame _ _ _ _
  have hnext : ∀ t : Kheap,
      (t.detachNext slab).pmm = t.pmm ∧ (t.detachNext slab).hhdm = t.hhdm := by
    intro t
    unfold Kheap.detachNext
    split
    · exact put_frame _ _ _ _
    · exact ⟨rfl, rfl⟩
  obtain ⟨hp, hh⟩ := hnext (s.detachPrev c l slab)
  rw [slabListRemove_eq, (put_frame _ _ _ _).1, (put_frame _ _ _ _).1, (put_frame _ _ _ _).2,
    (put_frame _ _ _ _).2]
  exact ⟨hp.trans hprev.1, hh.trans hprev.2⟩

-- ==== the caches

/-- Where a page is after one that was on no list is pushed. -/
theorem mem_pushed (hnew : ∀ c' k', q ∉ lists c' k') (c' : Nat) (k' : SlabList) (p : Nat) :
    p ∈ setList lists c k (q :: lists c k) c' k'
      ↔ p = q ∧ c' = c ∧ k' = k ∨ p ≠ q ∧ p ∈ lists c' k' := by
  have hne : p ∈ lists c' k' → p ≠ q := fun hp e => hnew c' k' (by rw [← e]; exact hp)
  by_cases he : c' = c ∧ k' = k
  · obtain ⟨rfl, rfl⟩ := he
    rw [setList_self, List.mem_cons]
    tauto
  · rw [setList_of_ne he]
    tauto

/-- Pushing a page that is on no list. -/
theorem OnLists.push (hh : 0 < s.hhdm) (h : OnLists C s lists P) (hc : C c)
    (hnew : ∀ c' k', q ∉ lists c' k') (hq : pageAt s.hhdm q < 2 ^ 64) :
    OnLists C (s.slabListPush c k (pageAt s.hhdm q)) (setList lists c k (q :: lists c k))
        (fun p => p = q ∨ P p)
      ∧ Relinked s (s.slabListPush c k (pageAt s.hhdm q)) (fun p => p = q ∨ P p) := by
  obtain ⟨l, hl, hlist⟩ := h.linked
  have hlow : ∀ p, p = q ∨ P p → pageAt s.hhdm p < 2 ^ 64 := by
    intro p hp
    cases hp with
    | inl he => rw [he]; exact hq
    | inr hp => exact h.low p hp
  obtain ⟨hl', hr, hhead, hothers⟩ :=
    hl.push hh (fun p hp => h.head_mem p hp) (h.head c k hc) hlow
  refine ⟨⟨⟨l.pushFront (lists c k).head? q, by rw [hr.hhdm]; exact hl', fun c' k' => ?_⟩, ?_, ?_,
    ?_, fun p hp => by rw [hr.hhdm]; exact hlow p hp⟩, hr⟩
  · by_cases he : c' = c ∧ k' = k
    · obtain ⟨rfl, rfl⟩ := he
      rw [setList_self]
      exact (hlist c' k').pushFront (hnew c' k')
    · rw [setList_of_ne he]
      exact (hlist c' k').pushFront_frame (hnew c' k') fun y hy hy' =>
        he (h.alone c k c' k' y hy' hy)
  · intro c' k' hc'
    rw [hr.hhdm]
    by_cases he : c' = c ∧ k' = k
    · obtain ⟨rfl, rfl⟩ := he
      rw [setList_self, hhead]
      rfl
    · rw [setList_of_ne he, hothers c' k' he]
      exact h.head c' k' hc'
  · intro c' k' p hp
    by_cases he : c' = c ∧ k' = k
    · obtain ⟨rfl, rfl⟩ := he
      rw [setList_self] at hp
      cases List.mem_cons.mp hp with
      | inl hpq => exact Or.inl hpq
      | inr hp => exact Or.inr (h.member c' k' p hp)
    · rw [setList_of_ne he] at hp
      exact Or.inr (h.member c' k' p hp)
  · have hmem := fun c' k' p => (mem_pushed (c := c) (k := k) hnew c' k' p).mp
    intro c₁ k₁ c₂ k₂ p h1 h2
    cases hmem c₁ k₁ p h1 with
    | inl h1 =>
        cases hmem c₂ k₂ p h2 with
        | inl h2 => exact ⟨h2.2.1.trans h1.2.1.symm, h2.2.2.trans h1.2.2.symm⟩
        | inr h2 => exact absurd h1.1 h2.1
    | inr h1 =>
        cases hmem c₂ k₂ p h2 with
        | inl h2 => exact absurd h2.1 h1.1
        | inr h2 => exact h.alone c₁ k₁ c₂ k₂ p h1.2 h2.2

/-- Removing a page from its list. -/
theorem OnLists.remove (hh : 0 < s.hhdm) (h : OnLists C s lists P) (hc : C c)
    (hq : q ∈ lists c k) :
    OnLists C (s.slabListRemove c k (pageAt s.hhdm q)) (setList lists c k ((lists c k).erase q)) P
      ∧ Relinked s (s.slabListRemove c k (pageAt s.hhdm q)) P := by
  obtain ⟨l, hl, hlist⟩ := h.linked
  have hnear : ∀ p, l.prev q = some p ∨ l.next q = some p → p ∈ lists c k :=
    fun p hp => (hlist c k).neighbour_mem hq hp
  have hself : l.prev q ≠ some q := by
    obtain ⟨pre, post, hsplit⟩ := List.append_of_mem hq
    have hlc := hlist c k
    rw [hsplit] at hlc
    rw [hlc.seg.split.1]
    intro e
    exact (List.nodup_append.mp hlc.nodup).2.2 q (List.mem_of_mem_getLast? (by rw [e]; rfl)) q
      List.mem_cons_self rfl
  obtain ⟨hl', hr, hhead, hothers⟩ := hl.remove (c := c) (k := k) hh (h.member c k q hq)
    (fun p hp => h.member c k p (hnear p (Or.inr hp)))
    (fun p hp => h.member c k p (hnear p (Or.inl hp))) hself h.low
  have hsub : ∀ c' k' p, p ∈ setList lists c k ((lists c k).erase q) c' k' → p ∈ lists c' k' := by
    intro c' k' p hp
    by_cases he : c' = c ∧ k' = k
    · obtain ⟨rfl, rfl⟩ := he
      rw [setList_self] at hp
      exact List.mem_of_mem_erase hp
    · rwa [setList_of_ne he] at hp
  refine ⟨⟨⟨l.unlink q, by rw [hr.hhdm]; exact hl', fun c' k' => ?_⟩, ?_,
    fun c' k' p hp => h.member c' k' p (hsub c' k' p hp),
    fun c₁ k₁ c₂ k₂ p h1 h2 => h.alone c₁ k₁ c₂ k₂ p (hsub c₁ k₁ p h1) (hsub c₂ k₂ p h2),
    fun p hp => by rw [hr.hhdm]; exact h.low p hp⟩, hr⟩
  · by_cases he : c' = c ∧ k' = k
    · obtain ⟨rfl, rfl⟩ := he
      rw [setList_self]
      exact (hlist c' k').erase hq
    · rw [setList_of_ne he]
      exact (hlist c k).unlink_frame hq (hlist c' k') fun y hy hy' =>
        he (h.alone c k c' k' y hy' hy)
  · intro c' k' hc'
    rw [hr.hhdm]
    by_cases he : c' = c ∧ k' = k
    · obtain ⟨rfl, rfl⟩ := he
      rw [setList_self, hhead, ← (hlist c' k').erase_head hq, h.head c' k' hc']
      split
      · rfl
      · rfl
    · rw [setList_of_ne he, hothers c' k' he]
      exact h.head c' k' hc'

/-- Moving a page to the other list of its cache. -/
theorem OnLists.move (hh : 0 < s.hhdm) (h : OnLists C s lists P) (hc : C c)
    (k' : SlabList) (hq : q ∈ lists c k) :
    OnLists C ((s.slabListRemove c k (pageAt s.hhdm q)).slabListPush c k' (pageAt s.hhdm q))
        (setList (setList lists c k ((lists c k).erase q)) c k'
          (q :: setList lists c k ((lists c k).erase q) c k')) P
      ∧ Relinked s ((s.slabListRemove c k (pageAt s.hhdm q)).slabListPush c k'
        (pageAt s.hhdm q)) P := by
  obtain ⟨h1, hr1⟩ := h.remove hh hc hq
  have hPq := h.member c k q hq
  have hnew : ∀ c₁ k₁, q ∉ setList lists c k ((lists c k).erase q) c₁ k₁ := by
    intro c₁ k₁ hmem
    by_cases he : c₁ = c ∧ k₁ = k
    · rw [he.1, he.2, setList_self] at hmem
      obtain ⟨l, -, hlist⟩ := h.linked
      exact (hlist c k).nodup.not_mem_erase hmem
    · rw [setList_of_ne he] at hmem
      exact he (h.alone c k c₁ k₁ q hq hmem)
  obtain ⟨h2, hr2⟩ := h1.push (k := k') (by rw [hr1.hhdm]; exact hh) hc hnew
    (by rw [hr1.hhdm]; exact h.low q hPq)
  rw [hr1.hhdm] at h2 hr2
  have hsame : (fun p => p = q ∨ P p) = P := by
    funext p
    exact propext ⟨fun hp => hp.elim (fun e => by rw [e]; exact hPq) id, Or.inr⟩
  rw [hsame] at h2 hr2
  exact ⟨h2, hr1.trans hr2⟩

/-- Where a page is after a move. -/
theorem mem_moved {k' : SlabList} (hk : k' ≠ k) (hnd : (lists c k).Nodup) (c₁ : Nat)
    (k₁ : SlabList) (p : Nat) :
    p ∈ setList (setList lists c k ((lists c k).erase q)) c k'
        (q :: setList lists c k ((lists c k).erase q) c k') c₁ k₁
      ↔ (p = q ∧ c₁ = c ∧ k₁ = k') ∨ (p ∈ lists c₁ k₁ ∧ ¬ (p = q ∧ c₁ = c ∧ k₁ = k)) := by
  by_cases h' : c₁ = c ∧ k₁ = k'
  · obtain ⟨rfl, rfl⟩ := h'
    rw [setList_self, setList_of_ne (fun e => hk e.2), List.mem_cons]
    tauto
  · rw [setList_of_ne h']
    by_cases he : c₁ = c ∧ k₁ = k
    · obtain ⟨rfl, rfl⟩ := he
      rw [setList_self, hnd.mem_erase_iff]
      tauto
    · rw [setList_of_ne he]
      tauto

end Alix.Kheap
