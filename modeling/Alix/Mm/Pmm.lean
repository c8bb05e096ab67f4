/-
The physical page allocator, `mm/pmm.c`: a binary buddy allocator over
the PFN database.

The embedding keeps the intrusive representation. Free blocks are not a
list of numbers: `free_lists[o].head` is a pointer, and the rest of the
list is in the `next`/`prev` fields of the page descriptors. The merge
test of `free_block` reads the flags and the order of the buddy's
descriptor, whatever they are; that these are sometimes stale (a page
absorbed by a merge keeps `PAGE_FREE` and its old order) is why the
allocator needs an invariant at all.

Counters are naturals. A subtraction below never reaches zero from
below on a reachable state, which the invariant proves by equating each
counter with the length it is meant to count.
-/
import Alix.Mm.Page
import Alix.Lib.Dyadic

namespace Alix

open Dyadic (Block buddy)

/-- `PMM_MAX_ORDER`. -/
abbrev PMM_MAX_ORDER : Nat := 11

/-- The ways a modelled function ends in `kpanic`. -/
inductive Kpanic
  /-- "pmm: attempt to free reserved/poisoned page at PFN 0x%llx" -/
  | freeReserved (pfn : Nat)
  /-- "pmm: double-free at PFN 0x%llx" -/
  | doubleFree (pfn : Nat)
  deriving DecidableEq, Repr

/-- One entry of `free_lists`. -/
structure FreeList where
  head : Option Nat
  count : Nat

/-- The allocator's globals together with the PFN database. -/
structure Pmm where
  pages : Nat → Page
  maxPfn : Nat
  freeLists : Nat → FreeList
  freePageCount : Nat
  totalPageCount : Nat

namespace Pmm

-- ==== stores

/-- Store into one page descriptor. -/
def modPage (s : Pmm) (pfn : Nat) (f : Page → Page) : Pmm :=
  { s with pages := Function.update s.pages pfn (f (s.pages pfn)) }

/-- `page->list.next = v`. -/
def setNext (s : Pmm) (pfn : Nat) (v : Option Nat) : Pmm :=
  s.modPage pfn fun p => { p with next := v }

/-- `page->list.prev = v`. -/
def setPrev (s : Pmm) (pfn : Nat) (v : Option Nat) : Pmm :=
  s.modPage pfn fun p => { p with prev := v }

/-- `if (page) page->list.prev = v`. -/
def setPrev? (s : Pmm) (page : Option Nat) (v : Option Nat) : Pmm :=
  match page with
  | some pfn => s.setPrev pfn v
  | none => s

/-- `free_lists[order].head = v`. -/
def setHead (s : Pmm) (order : Nat) (v : Option Nat) : Pmm :=
  let list := { s.freeLists order with head := v }
  { s with freeLists := Function.update s.freeLists order list }

/-- `free_lists[order].count = v`. -/
def setCount (s : Pmm) (order : Nat) (v : Nat) : Pmm :=
  let list := { s.freeLists order with count := v }
  { s with freeLists := Function.update s.freeLists order list }

-- ==== free lists

/-- `free_list_push`. -/
def freeListPush (s : Pmm) (order page : Nat) : Pmm :=
  let s := s.setPrev page none
  let s := s.setNext page (s.freeLists order).head
  let s := s.setPrev? (s.freeLists order).head (some page)
  let s := s.setHead order (some page)
  s.setCount order ((s.freeLists order).count + 1)

/-- `free_list_remove`. -/
def freeListRemove (s : Pmm) (order page : Nat) : Pmm :=
  let s := match (s.pages page).prev with
    | some q => s.setNext q (s.pages page).next
    | none => s.setHead order (s.pages page).next
  let s := s.setPrev? (s.pages page).next (s.pages page).prev
  let s := s.setNext page none
  let s := s.setPrev page none
  s.setCount order ((s.freeLists order).count - 1)

-- ==== free_block

/-- The coalescing loop of `free_block`, entered with the block's PFN
and order; the first argument is the number of orders left below
`MAX_ORDER - 1`. -/
def coalesce : Nat → Pmm → Nat → Nat → Pmm × Nat × Nat
  | 0, s, pfn, order => (s, pfn, order)
  | n + 1, s, pfn, order =>
      let bud := buddy pfn order
      if bud > s.maxPfn then (s, pfn, order)
      else if !(s.pages bud).free || (s.pages bud).order != order then
        (s, pfn, order)
      else
        let s := s.freeListRemove order bud
        let pfn := if bud < pfn then bud else pfn
        let s := s.modPage pfn (Page.clearFlag PAGE_LARGE_HEAD)
        let order := order + 1
        let s := s.modPage pfn fun p => { p with order := order }
        coalesce n s pfn order

/-- The flags and order `free_block` gives the head it is about to
list. -/
def freeHead (order : Nat) (p : Page) : Page :=
  let p := p.setFlag PAGE_FREE
  let p := p.clearFlag (PAGE_USED ||| PAGE_LARGE_HEAD ||| PAGE_LARGE_BODY)
  let p := { p with order := order }
  if order > 0 then p.setFlag PAGE_LARGE_HEAD else p

/-- `free_block`. -/
def freeBlock (s : Pmm) (page : Nat) : Pmm :=
  let order := (s.pages page).order
  let (s, page, order) := coalesce (PMM_MAX_ORDER - 1 - order) s page order
  let s := s.modPage page (freeHead order)
  s.freeListPush order page

-- ==== pmm_init

/-- The database `pfndb_init` leaves: page `pfn` is `PAGE_FREE` when
the memory map calls it usable and `PAGE_RESERVED` otherwise. -/
def pfndb (maxPfn : Nat) (usable : Nat → Bool) : Nat → Page := fun pfn =>
  { next := if pfn < maxPfn then some (pfn + 1) else none
    prev := if pfn > 0 then some (pfn - 1) else none
    refcount := 0
    order := 0
    flags := if usable pfn then PAGE_FREE else PAGE_RESERVED
    priv := 0 }

/-- One round of `pmm_init`'s first loop: a free page is handed to the
allocator as a used one of order zero. -/
def claimPage (s : Pmm) (pfn : Nat) : Pmm :=
  if (s.pages pfn).free then
    let s := s.modPage pfn fun p => { p with order := 0 }
    let s := s.modPage pfn (Page.clearFlag PAGE_FREE)
    s.modPage pfn (Page.setFlag PAGE_USED)
  else s

/-- One round of `pmm_init`'s second loop. -/
def releasePage (s : Pmm) (pfn : Nat) : Pmm :=
  if !(s.pages pfn).used || (s.pages pfn).reserved then s
  else
    let s := s.freeBlock pfn
    { s with freePageCount := s.freePageCount + 1
             totalPageCount := s.totalPageCount + 1 }

/-- `pmm_init` over a PFN database. -/
def pmmInit (maxPfn : Nat) (db : Nat → Page) : Pmm :=
  let s : Pmm :=
    { pages := db, maxPfn := maxPfn
      freeLists := fun _ => { head := none, count := 0 }
      freePageCount := 0, totalPageCount := 0 }
  let s := (List.range (maxPfn + 1)).foldl claimPage s
  (List.range (maxPfn + 1)).foldl releasePage s

-- ==== pmm_alloc

/-- The splitting loop of `pmm_alloc`: `page` heads a block of order
`order + k`, and every upper half goes back on its list. -/
def splitBlock (page order : Nat) : Nat → Pmm → Pmm
  | 0, s => s
  | k + 1, s =>
      let o := order + k
      let bud := page + 1 <<< o
      let s := s.modPage bud fun p => { p with order := o }
      let s := s.modPage bud fun p =>
        { p with flags := PAGE_FREE ||| PAGE_LARGE_HEAD }
      splitBlock page order k (s.freeListPush o bud)

/-- The descriptor of a body page of an allocated block. -/
def allocBody (order : Nat) (p : Page) : Page :=
  { p with order := order, flags := PAGE_USED ||| PAGE_LARGE_BODY,
           refcount := 1 }

/-- The descriptor of the head page of an allocated block. -/
def allocHead (order : Nat) (p : Page) : Page :=
  let p := { p with order := order }
  let p := p.setFlag PAGE_USED
  let p := p.clearFlag PAGE_FREE
  let p := if order > 0 then p.setFlag PAGE_LARGE_HEAD else p
  { p with refcount := 1 }

/-- Apply `f` to the descriptors `page + 1 .. page + count - 1`. -/
def forBodies (f : Page → Page) (page count : Nat) (s : Pmm) : Pmm :=
  (List.range' 1 (count - 1)).foldl (fun s i => s.modPage (page + i) f) s

/-- The body of `pmm_alloc` once a list with a block is found: take the
head of list `o`, split it down to `order`, mark it used. -/
def takeBlock (s : Pmm) (o order page : Nat) : Pmm :=
  let s := s.freeListRemove o page
  let s := splitBlock page order (o - order) s
  let s := s.modPage page (allocHead order)
  let s := s.forBodies (allocBody order) page (1 <<< order)
  { s with freePageCount := s.freePageCount - 1 <<< order }

/-- The search of `pmm_alloc` from list `o` up; the first argument is
the number of lists left. -/
def allocFrom (order : Nat) : Nat → Pmm → Nat → Option (Pmm × Nat)
  | 0, _, _ => none
  | n + 1, s, o =>
      match (s.freeLists o).head with
      | none => allocFrom order n s (o + 1)
      | some page => some (s.takeBlock o order page, page)

/-- `pmm_alloc`; `none` is the null pointer. -/
def pmmAlloc (s : Pmm) (order : Nat) : Option (Pmm × Nat) :=
  if order ≥ PMM_MAX_ORDER then none
  else allocFrom order (PMM_MAX_ORDER - order) s order

/-- `pmm_alloc_page`. -/
def pmmAllocPage (s : Pmm) : Option (Pmm × Nat) := s.pmmAlloc 0

-- ==== pmm_free

/-- `page_ref_inc`. -/
def pageRefInc (s : Pmm) (pfn : Nat) : Pmm :=
  s.modPage pfn fun p => { p with refcount := p.refcount + 1 }

/-- The decrement of `page_ref_dec_and_test`. -/
def pageRefDec (s : Pmm) (pfn : Nat) : Pmm :=
  s.modPage pfn fun p => { p with refcount := p.refcount - 1 }

/-- The descriptor of a body page of a freed block. -/
def freeBody (p : Page) : Page := { p with flags := 0, refcount := 0 }

/-- The part of `pmm_free` below the last reference. -/
def releaseBlock (s : Pmm) (pfn : Nat) : Pmm :=
  let order := (s.pages pfn).order
  let count := 1 <<< order
  let s := if order > 0 then s.forBodies freeBody pfn count else s
  let s := { s with freePageCount := s.freePageCount + count }
  s.freeBlock pfn

/-- `pmm_free`. -/
def pmmFree (s : Pmm) (page : Option Nat) : Except Kpanic Pmm :=
  match page with
  | none => .ok s
  | some pfn =>
      if (s.pages pfn).reserved || (s.pages pfn).poisoned then
        .error (.freeReserved pfn)
      else if (s.pages pfn).free then .error (.doubleFree pfn)
      else if (s.pages pfn).refcount = 1 then
        .ok ((s.pageRefDec pfn).releaseBlock pfn)
      else .ok (s.pageRefDec pfn)

-- ==== runs

/-- The states a run of `pmm_alloc` and `pmm_free` reaches from
`pmm_init`, with the blocks handed out and not yet returned. A block is
returned through its head page, on the last reference. -/
inductive Reachable (maxPfn : Nat) (usable : Nat → Bool) :
    Pmm → List Block → Prop
  | init : Reachable maxPfn usable (pmmInit maxPfn (pfndb maxPfn usable)) []
  | alloc {s s' : Pmm} {out : List Block} {order page : Nat} :
      Reachable maxPfn usable s out →
      s.pmmAlloc order = some (s', page) →
      Reachable maxPfn usable s' (⟨page, order⟩ :: out)
  | free {s s' : Pmm} {out : List Block} {b : Block} :
      Reachable maxPfn usable s out → b ∈ out →
      (s.pages b.base).refcount = 1 →
      s.pmmFree (some b.base) = .ok s' →
      Reachable maxPfn usable s' (out.erase b)

end Pmm

end Alix
