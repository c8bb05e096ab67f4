/-
Address spaces, `mm/vmm.c`, and the part of `mm/paging.c` that frees
tables.

A `vas_t *` is a number; a number without a space stands for the null
pointer. The list of virtual address descriptors is a list. `kernel_vas`
has no number: of it only `pml4` is read here.

The kernel heap keeps the descriptors. What it does to the page
allocator while it serves a call is not fixed: it may take and give back
blocks of its own, and `kzalloc` may fail. Each call finds that in the
next of the `coins`, so a statement about all of them covers every heap.
The words of the heap's pages and their contents are not modelled.

A loop over the pages of a range goes through `pages`; the ends of the
ranges are page-aligned in every use, so the counter never steps over the
end.
-/
import Alix.Mm.Paging
import Alix.Mm.Pmm

namespace Alix

open Paging
open Dyadic (Block)

-- ==== freeing tables

/-- Page tables and user memory over the page allocator. -/
abbrev Mach : Type := Machine Pmm

namespace Paging.Machine

/-- `phys_to_page`. -/
def physToPage (s : Mach) (phys : Nat) : Option Nat :=
  if physPfn phys > s.pmm.maxPfn then none else some (physPfn phys)

/-- `pmm_free`. -/
def free (s : Mach) (page : Nat) : Except Kpanic Mach :=
  match s.pmm.pmmFree (some page) with
  | .error e => .error e
  | .ok pmm => .ok { s with pmm }

/-- `if (page && !PageReserved(page)) pmm_free(page)`. -/
def freeTable (s : Mach) (phys : Nat) : Except Kpanic Mach :=
  match s.physToPage phys with
  | none => .ok s
  | some page =>
      if (s.pmm.pages page).reserved then .ok s else s.free page

/-- The loop body of `destroy_level` and `ptable_destroy`: what `below`
does to the table under a present entry, and then the table itself. -/
def destroyEntry (below : Mach → Nat → Except Kpanic Mach) (table : Nat)
    (s : Mach) (i : Nat) : Except Kpanic Mach :=
  let entry := s.mem table i
  if !hasFlag entry PAGE_PRESENT then .ok s
  else
    match below s (tableVirt entry) with
    | .error e => .error e
    | .ok s => s.freeTable (entry &&& PAGE_ADDR_MASK).toNat

/-- `destroy_level`, whose `level` is one more: at level 1 it does
nothing. -/
def destroyLevel : Nat → Mach → Nat → Except Kpanic Mach
  | 0, s, _ => .ok s
  | level + 1, s, table =>
      (List.range 512).foldlM (destroyEntry (destroyLevel level) table) s

/-- `ptable_destroy`. -/
def ptableDestroy (s : Mach) (pt : Nat) : Except Kpanic Mach :=
  match (List.range 256).foldlM (destroyEntry (destroyLevel 2) pt) s with
  | .error e => .error e
  | .ok s => s.freeTable (pfnPhys pt)

end Paging.Machine

-- ==== descriptors

abbrev VAD_PROT_MASK : Word :=
  PAGE_PRESENT ||| PAGE_WRITE ||| PAGE_USER ||| PAGE_GLOBAL ||| PAGE_NX
abbrev VAD_ANONYMOUS : Word := pageBit 12
abbrev VAD_FIXED : Word := pageBit 13
abbrev VAD_MAPPED : Word := pageBit 14
abbrev VAD_SHARED : Word := pageBit 15

abbrev VAS_USER_START : Nat := 0x0000000000001000
abbrev VAS_USER_END : Nat := 0x00007FFFFFFFFFFF

/-- `vad_t`, whose `end` is `stop` here. -/
structure Vad where
  start : Nat
  stop : Nat
  flags : Word
deriving DecidableEq

/-- `vas_t`. -/
structure Vas where
  pml4 : Nat
  list : List Vad
  userStart : Nat

/-- The addresses `start`, `start + PAGE_SIZE`, .. below `stop`. -/
def pages (start stop : Nat) : List Nat :=
  List.range' start ((stop - start + PAGE_SIZE - 1) / PAGE_SIZE) PAGE_SIZE

/-- `vad_insert`. -/
def vadInsert (vad : Vad) : List Vad → List Vad
  | [] => [vad]
  | cur :: list =>
      if cur.start < vad.start then cur :: vadInsert vad list
      else vad :: cur :: list

/-- The loop of `vas_find_free`. -/
def findFree (length : Nat) : List Vad → Nat → Nat → Nat × Nat
  | [], base, stop => (base, stop)
  | vad :: list, base, stop =>
      if stop ≤ vad.start then (base, stop)
      else if base < vad.stop then
        let base := pageAlignUp vad.stop
        findFree length list base ((base + length) % 2 ^ 64)
      else findFree length list base stop

/-- `vas_find_free`, 0 where there is none. -/
def vasFindFree (list : List Vad) (hint length : Nat) : Nat :=
  let base := pageAlignUp hint
  let (base, stop) := findFree length list base ((base + length) % 2 ^ 64)
  if stop > VAS_USER_END ∨ stop < base then 0 else base

/-- `vas_overlaps`. -/
def vasOverlaps (list : List Vad) (start stop : Nat) : Bool :=
  match list with
  | [] => false
  | vad :: list =>
      if vad.start ≥ stop then false
      else if vad.stop > start then true
      else vasOverlaps list start stop

/-- `vas_find`. -/
def vasFind (list : List Vad) (addr : Nat) : Option Vad :=
  match list with
  | [] => none
  | vad :: list =>
      if addr ≥ vad.start ∧ addr < vad.stop then some vad
      else vasFind list addr

/-- The loop of `vas_range_mapped`, at `pos`. -/
def rangeMapped (stop : Nat) : List Vad → Nat → Bool
  | [], pos => pos ≥ stop
  | vad :: list, pos =>
      if pos < stop then
        if vad.stop ≤ pos then rangeMapped stop list pos
        else if vad.start > pos then false
        else rangeMapped stop list vad.stop
      else pos ≥ stop

-- ==== pages

namespace Paging.Machine

/-- One round of `uncommit_range`. -/
def uncommitPage (pml4 : Nat) (s : Mach) (va : Nat) : Except Kpanic Mach :=
  let phys := pagingVirtToPhys Pmm.pmmAllocPage s (some pml4) va
  if phys = 0 then .ok (pagingUnmapPage Pmm.pmmAllocPage s (some pml4) va)
  else
    let page := s.physToPage (pageAlignDown phys)
    let s := pagingUnmapPage Pmm.pmmAllocPage s (some pml4) va
    match page with
    | none => .ok s
    | some page =>
        if (s.pmm.pages page).reserved || (s.pmm.pages page).poisoned then .ok s
        else s.free page

/-- `uncommit_range`. -/
def uncommitRange (s : Mach) (pml4 start stop : Nat) : Except Kpanic Mach :=
  (pages start stop).foldlM (uncommitPage pml4) s

/-- The loop of `commit_anon`. -/
def commitPages (pml4 : Nat) (flags : Word) :
    List Nat → Mach → Except Kpanic (Mach × Int)
  | [], s => .ok (s, 0)
  | va :: vas, s =>
      match s.pmm.pmmAllocPage with
      | none => .ok (s, -1)
      | some (pmm, page) =>
          let s : Mach := Machine.clear { s with pmm } page
          match pagingMapPage Pmm.pmmAllocPage s (some pml4) va (pfnPhys page)
            flags with
          | (s, rc) =>
              if rc ≠ 0 then
                match s.free page with
                | .error e => .error e
                | .ok s => .ok (s, -1)
              else commitPages pml4 flags vas s

/-- `commit_anon`. -/
def commitAnon (s : Mach) (pml4 : Nat) (vad : Vad) :
    Except Kpanic (Mach × Int) :=
  commitPages pml4 (vad.flags &&& VAD_PROT_MASK) (pages vad.start vad.stop) s

/-- `remap_page_flags`. -/
def remapPageFlags (s : Mach) (pml4 va : Nat) (newFlags : Word) :
    Mach × Int :=
  let phys := pagingVirtToPhys Pmm.pmmAllocPage s (some pml4) va
  if phys = 0 then (s, 0)
  else
    let s := pagingUnmapPage Pmm.pmmAllocPage s (some pml4) va
    pagingMapPage Pmm.pmmAllocPage s (some pml4) va (pageAlignDown phys) newFlags

/-- The inner loop of `vas_protect`. -/
def remapPages (pml4 : Nat) (newFlags : Word) : List Nat → Mach → Mach × Int
  | [], s => (s, 0)
  | va :: vas, s =>
      match s.remapPageFlags pml4 va newFlags with
      | (s, rc) => if rc ≠ 0 then (s, -1) else remapPages pml4 newFlags vas s

/-- `page->flags = ..`. -/
def modPage (s : Mach) (page : Nat) (f : Page → Page) : Mach :=
  { s with pmm := s.pmm.modPage page f }

/-- `memcpy` of a whole frame. -/
def copyFrame (s : Mach) (dst src : Nat) : Mach :=
  { s with mem := Function.update s.mem dst (s.mem src) }

/-- `vas_handle_page_fault`. -/
def vasHandlePageFault (s : Mach) (vas : Vas) (addr : Nat) (err : Word) :
    Except Kpanic (Mach × Int) :=
  let va := pageAlignDown addr
  match vasFind vas.list va with
  | none => .ok (s, -1)
  | some vad =>
      if !hasFlag err 0x2 || !hasFlag err 0x1 then .ok (s, -1)
      else if !hasFlag vad.flags PAGE_WRITE || hasFlag vad.flags VAD_SHARED then
        .ok (s, -1)
      else
        let phys := pagingVirtToPhys Pmm.pmmAllocPage s (some vas.pml4) va
        if phys = 0 then .ok (s, -1)
        else
          match s.physToPage (pageAlignDown phys) with
          | none => .ok (s, -1)
          | some oldPage =>
              if !(s.pmm.pages oldPage).cow then .ok (s, -1)
              else
                let flags := vad.flags &&& VAD_PROT_MASK
                if (s.pmm.pages oldPage).refcount ≤ 1 then
                  let s := s.modPage oldPage (Page.clearFlag PAGE_COW)
                  .ok (s.remapPageFlags vas.pml4 va flags)
                else
                  match s.pmm.pmmAllocPage with
                  | none => .ok (s, -1)
                  | some (pmm, newPage) =>
                      let s := copyFrame { s with pmm } newPage
                        (physPfn (pageAlignDown phys))
                      let s := pagingUnmapPage Pmm.pmmAllocPage s
                        (some vas.pml4) va
                      match s.free oldPage with
                      | .error e => .error e
                      | .ok s =>
                          match pagingMapPage Pmm.pmmAllocPage s (some vas.pml4)
                            va (pfnPhys newPage) flags with
                          | (s, rc) =>
                              if rc ≠ 0 then
                                match s.free newPage with
                                | .error e => .error e
                                | .ok s => .ok (s, -1)
                              else .ok (s, 0)

/-- The loop of `vas_user_access_ok`. -/
def accessPages (vas : Vas) (write : Bool) :
    List Nat → Mach → Except Kpanic (Mach × Int)
  | [], s => .ok (s, 0)
  | va :: vaddrs, s =>
      let flags := pagingGetFlags Pmm.pmmAllocPage s (some vas.pml4) va
      if !hasFlag flags PAGE_PRESENT then .ok (s, -1)
      else if write && !hasFlag flags PAGE_WRITE then
        match s.vasHandlePageFault vas va 0x3 with
        | .error e => .error e
        | .ok (s, rc) =>
            if rc ≠ 0 then .ok (s, -1)
            else
              let flags := pagingGetFlags Pmm.pmmAllocPage s (some vas.pml4) va
              if !hasFlag flags PAGE_PRESENT || !hasFlag flags PAGE_WRITE then
                .ok (s, -1)
              else accessPages vas write vaddrs s
      else accessPages vas write vaddrs s

/-- `vas_user_access_ok`. -/
def vasUserAccessOk (s : Mach) (vas : Vas) (addr len : Nat) (write : Bool) :
    Except Kpanic (Mach × Int) :=
  if addr < VAS_USER_START ∨ addr ≥ VAS_USER_END then .ok (s, -1)
  else if len > VAS_USER_END - addr then .ok (s, -1)
  else if len = 0 then .ok (s, 0)
  else
    accessPages vas write
      (pages (pageAlignDown addr) (pageAlignUp ((addr + len) % 2 ^ 64))) s

/-- The loop of `vas_unmap`. -/
def unmapVads (pml4 start stop : Nat) : List Vad → Mach → Except Kpanic Mach
  | [], s => .ok s
  | vad :: list, s =>
      if vad.start < stop then
        if vad.stop ≤ start then unmapVads pml4 start stop list s
        else
          let lo := if vad.start > start then vad.start else start
          let hi := if vad.stop < stop then vad.stop else stop
          match s.uncommitRange pml4 lo hi with
          | .error e => .error e
          | .ok s => unmapVads pml4 start stop list s
      else .ok s

/-- The loop of `vas_protect`, with the list it leaves. -/
def protectVads (pml4 start stop : Nat) (newFlags : Word) :
    List Vad → Mach → Mach × List Vad × Int
  | [], s => (s, [], 0)
  | vad :: list, s =>
      if vad.start < stop then
        if vad.stop ≤ start then
          match protectVads pml4 start stop newFlags list s with
          | (s, list, rc) => (s, vad :: list, rc)
        else
          let lo := if vad.start > start then vad.start else start
          let hi := if vad.stop < stop then vad.stop else stop
          match remapPages pml4 newFlags (pages lo hi) s with
          | (s, rc) =>
              if rc ≠ 0 then (s, vad :: list, -1)
              else
                let vad := { vad with
                  flags := (vad.flags &&& ~~~VAD_PROT_MASK) ||| newFlags }
                match protectVads pml4 start stop newFlags list s with
                | (s, list, rc) => (s, vad :: list, rc)
      else (s, vad :: list, 0)

end Paging.Machine

-- ==== the heap

/-- What the kernel heap does to the page allocator: it takes a block,
gives one of its blocks back, or labels one. -/
inductive HeapOp where
  | alloc (order : Nat)
  | free (b : Block)
  | mark (b : Block) (slab : Bool) (priv : Nat)

/-- What the heap does during one call, and whether the call succeeds. -/
structure Coin where
  ops : List HeapOp
  ok : Bool

/-- The ways a function of `mm/vmm.c` ends in `kpanic`. -/
inductive VmPanic where
  | pmm (e : Kpanic)
  /-- "vmm: failed to split left VAD" -/
  | splitLeft
  /-- "vmm: failed to split right VAD" -/
  | splitRight

/-- The memory, the address spaces, and the heap's blocks and coins. -/
structure Vm where
  mach : Mach
  heap : List Block
  coins : List Coin
  kernelPml4 : Option Nat
  spaces : Nat → Option Vas
  next : Nat

namespace Vm

def setSpace (s : Vm) (a : Nat) (v : Option Vas) : Vm :=
  { s with spaces := Function.update s.spaces a v }

/-- The label the heap puts on the head page of a block. -/
def markPage (slab : Bool) (priv : Nat) (p : Page) : Page :=
  let p := if slab then p.setFlag PAGE_SLAB else p.clearFlag PAGE_SLAB
  { p with priv }

def heapOp (s : Vm) : HeapOp → Vm
  | .alloc order =>
      match s.mach.pmm.pmmAlloc order with
      | none => s
      | some (pmm, page) =>
          { s with mach := { s.mach with pmm }, heap := ⟨page, order⟩ :: s.heap }
  | .free b =>
      if b ∈ s.heap then
        match s.mach.free b.base with
        | .error _ => s
        | .ok mach => { s with mach, heap := s.heap.erase b }
      else s
  | .mark b slab priv =>
      if b ∈ s.heap then
        { s with mach := s.mach.modPage b.base (markPage slab priv) }
      else s

/-- A call of the heap, and its coin. -/
def heapCall (s : Vm) : Vm × Bool :=
  match s.coins with
  | [] => (s, false)
  | coin :: coins => (coin.ops.foldl heapOp { s with coins }, coin.ok)

/-- `kzalloc` of a descriptor: whether there is one. -/
def kzalloc (s : Vm) : Vm × Bool := s.heapCall

/-- `kfree` of a descriptor. -/
def kfree (s : Vm) : Vm := s.heapCall.1

/-- Run a function of the memory; its panics are ours. -/
def lift (s : Vm) (r : Except Kpanic Mach) : Except VmPanic Vm :=
  match r with
  | .error e => .error (.pmm e)
  | .ok mach => .ok { s with mach }

-- ==== vad_remove_range

/-- `vad_clone_segment` where there is something left of a descriptor, or
the panic. -/
def vadCloneSegment (rest : Bool) (panic : VmPanic) (vad : Vad) (s : Vm) :
    Except VmPanic (Vm × List Vad) :=
  if rest then
    match s.kzalloc with
    | (_, false) => .error panic
    | (s, true) => .ok (s, [vad])
  else .ok (s, [])

/-- `vad_remove_range`, with the list it leaves. -/
def vadRemoveRange (start stop : Nat) :
    List Vad → Vm → Except VmPanic (Vm × List Vad)
  | [], s => .ok (s, [])
  | old :: list, s =>
      if old.stop ≤ start ∨ old.start ≥ stop then
        match vadRemoveRange start stop list s with
        | .error e => .error e
        | .ok (s, list) => .ok (s, old :: list)
      else
        match vadCloneSegment (old.start < start) .splitLeft
          ⟨old.start, start, old.flags⟩ s with
        | .error e => .error e
        | .ok (s, left) =>
            match vadCloneSegment (old.stop > stop) .splitRight
              ⟨stop, old.stop, old.flags⟩ s with
            | .error e => .error e
            | .ok (s, right) =>
                match vadRemoveRange start stop list s.kfree with
                | .error e => .error e
                | .ok (s, list) => .ok (s, left ++ right ++ list)

-- ==== address spaces

/-- `vas_create`. -/
def vasCreate (s : Vm) (pt : Option Nat) : Vm × Option Nat :=
  match s.kzalloc with
  | (s, false) => (s, none)
  | (s, true) =>
      match (match pt with
        | some pt => (s.mach, some pt)
        | none => ptableCreate Pmm.pmmAllocPage s.mach s.kernelPml4) with
      | (mach, none) => ({ s with mach }.kfree, none)
      | (mach, some pml4) =>
          ({ s.setSpace s.next (some ⟨pml4, [], VAS_USER_START⟩) with
              mach, next := s.next + 1 }, some s.next)

/-- The loop of `vas_destroy`. -/
def destroyVads (pml4 : Nat) : List Vad → Vm → Except VmPanic Vm
  | [], s => .ok s
  | vad :: list, s =>
      match s.mach.uncommitRange pml4 vad.start vad.stop with
      | .error e => .error (.pmm e)
      | .ok mach => destroyVads pml4 list { s with mach }.kfree

/-- `vas_destroy`. -/
def vasDestroy (s : Vm) (a : Nat) : Except VmPanic Vm :=
  match s.spaces a with
  | none => .ok s
  | some v =>
      match destroyVads v.pml4 v.list s with
      | .error e => .error e
      | .ok s =>
          match s.mach.ptableDestroy v.pml4 with
          | .error e => .error (.pmm e)
          | .ok mach => .ok ({ s with mach }.setSpace a none).kfree

/-- Where `vas_map_anon` and `vas_map_phys` put a range of whole pages:
nothing for a refusal. -/
def placement (v : Vas) (hint length : Nat) (flags : Word) : Option Nat :=
  if hasFlag flags VAD_FIXED then
    let base := pageAlignDown hint
    let stop := (base + length) % 2 ^ 64
    if stop > VAS_USER_END ∨ stop < base then none
    else if vasOverlaps v.list base stop then none
    else some base
  else
    let searchHint := if hint ≠ 0 then hint else v.userStart
    let base := vasFindFree v.list searchHint length
    if base = 0 then none else some base

/-- `vas_map_anon`. -/
def vasMapAnon (s : Vm) (a hint length : Nat) (flags : Word) :
    Except VmPanic (Vm × Nat) :=
  match s.spaces a with
  | none => .ok (s, 0)
  | some v =>
      if length = 0 then .ok (s, 0)
      else
        let length := pageAlignUp length
        match placement v hint length flags with
        | none => .ok (s, 0)
        | some base =>
            let stop := (base + length) % 2 ^ 64
            let vad := Vad.mk base stop (flags ||| VAD_ANONYMOUS ||| VAD_MAPPED)
            match s.kzalloc with
            | (s, false) => .ok (s, 0)
            | (s, true) =>
                match s.mach.commitAnon v.pml4 vad with
                | .error e => .error (.pmm e)
                | .ok (mach, rc) =>
                    if rc ≠ 0 then
                      match mach.uncommitRange v.pml4 base stop with
                      | .error e => .error (.pmm e)
                      | .ok mach => .ok ({ s with mach }.kfree, 0)
                    else
                      .ok ({ s with mach }.setSpace a (some { v with
                        list := vadInsert vad v.list, userStart := stop }), base)

/-- The loop of `vas_map_phys`, at offset `off`. -/
def mapPhysPages (v : Vas) (base phys : Nat) (flags : Word) :
    List Nat → Mach → Except VmPanic (Mach × Int)
  | [], s => .ok (s, 0)
  | off :: offs, s =>
      let mapPhys := (phys + off) % 2 ^ 64
      let s := match s.physToPage mapPhys with
        | none => s
        | some page =>
            if (s.pmm.pages page).reserved || (s.pmm.pages page).poisoned then s
            else { s with pmm := s.pmm.pageRefInc page }
      match pagingMapPage Pmm.pmmAllocPage s (some v.pml4)
        ((base + off) % 2 ^ 64) mapPhys (flags &&& VAD_PROT_MASK) with
      | (s, rc) =>
          if rc ≠ 0 then
            match s.uncommitRange v.pml4 base ((base + off) % 2 ^ 64) with
            | .error e => .error (.pmm e)
            | .ok s => .ok (s, -1)
          else mapPhysPages v base phys flags offs s

/-- `vas_map_phys`. -/
def vasMapPhys (s : Vm) (a hint phys length : Nat) (flags : Word) :
    Except VmPanic (Vm × Nat) :=
  match s.spaces a with
  | none => .ok (s, 0)
  | some v =>
      if length = 0 then .ok (s, 0)
      else
        let length := pageAlignUp length
        let phys := pageAlignDown phys
        match placement v hint length flags with
        | none => .ok (s, 0)
        | some base =>
            match mapPhysPages v base phys flags (pages 0 length) s.mach with
            | .error e => .error e
            | .ok (mach, rc) =>
                let s := { s with mach }
                if rc ≠ 0 then .ok (s, 0)
                else
                  let stop := (base + length) % 2 ^ 64
                  match s.kzalloc with
                  | (s, false) =>
                      match s.lift (s.mach.uncommitRange v.pml4 base stop) with
                      | .error e => .error e
                      | .ok s => .ok (s, 0)
                  | (s, true) =>
                      let vad := Vad.mk base stop
                        ((flags &&& ~~~VAD_ANONYMOUS) ||| VAD_MAPPED)
                      .ok (s.setSpace a
                        (some { v with list := vadInsert vad v.list }), base)

/-- `vas_unmap`. -/
def vasUnmap (s : Vm) (a start length : Nat) : Except VmPanic (Vm × Int) :=
  match s.spaces a with
  | none => .ok (s, 0)
  | some v =>
      if length = 0 then .ok (s, 0)
      else
        let start := pageAlignDown start
        let length := pageAlignUp length
        let stop := (start + length) % 2 ^ 64
        match s.lift (Machine.unmapVads v.pml4 start stop v.list s.mach) with
        | .error e => .error e
        | .ok s =>
            match vadRemoveRange start stop v.list s with
            | .error e => .error e
            | .ok (s, list) => .ok (s.setSpace a (some { v with list }), 0)

/-- `vas_protect`. -/
def vasProtect (s : Vm) (a start length : Nat) (newFlags : Word) : Vm × Int :=
  match s.spaces a with
  | none => (s, 0)
  | some v =>
      if length = 0 then (s, 0)
      else
        let start := pageAlignDown start
        let length := pageAlignUp length
        let stop := (start + length) % 2 ^ 64
        match Machine.protectVads v.pml4 start stop (newFlags &&& VAD_PROT_MASK)
          v.list s.mach with
        | (mach, list, rc) =>
            ({ s with mach }.setSpace a (some { v with list }), rc)

/-- `vas_add`. -/
def vasAdd (s : Vm) (a : Nat) (vad : Vad) : Vm × Int :=
  match s.spaces a with
  | none => (s, -1)
  | some v =>
      if vad.start ≥ vad.stop then (s, -1)
      else if vad.start % PAGE_SIZE ≠ 0 ∨ vad.stop % PAGE_SIZE ≠ 0 then (s, -1)
      else if vasOverlaps v.list vad.start vad.stop then (s, -1)
      else (s.setSpace a (some { v with list := vadInsert vad v.list }), 0)

/-- `vas_range_mapped`. -/
def vasRangeMapped (s : Vm) (a start length : Nat) : Bool :=
  match s.spaces a with
  | none => false
  | some v =>
      if length = 0 then false
      else
        let start := pageAlignDown start
        let length := pageAlignUp length
        let stop := (start + length) % 2 ^ 64
        if stop < start then false
        else rangeMapped stop v.list start

-- ==== vas_clone

/-- One page of `vas_clone`: whether the destination has it. -/
def clonePage (src dst : Nat) (flags : Word) (s : Mach) (va : Nat) :
    Except VmPanic (Mach × Bool) :=
  let prot := flags &&& VAD_PROT_MASK
  let srcPhys := pagingVirtToPhys Pmm.pmmAllocPage s (some src) va
  if srcPhys = 0 then .ok (s, true)
  else
    let phys := pageAlignDown srcPhys
    let plain := fun (s : Mach) (prot : Word) =>
      pagingMapPage Pmm.pmmAllocPage s (some dst) va phys prot
    match (match s.physToPage phys with
      | none => none
      | some page =>
          if (s.pmm.pages page).reserved || (s.pmm.pages page).poisoned then none
          else some page) with
    | none =>
        match plain s prot with
        | (s, rc) => .ok (s, rc = 0)
    | some page =>
        let s : Mach := { s with pmm := s.pmm.pageRefInc page }
        match (if hasFlag prot PAGE_WRITE && !hasFlag flags VAD_SHARED then
            let cowFlags := prot &&& ~~~PAGE_WRITE
            let s := s.modPage page (Page.setFlag PAGE_COW)
            match s.remapPageFlags src va cowFlags with
            | (s, rc) => if rc ≠ 0 then (s, rc) else plain s cowFlags
          else plain s prot) with
        | (s, rc) =>
            if rc ≠ 0 then
              match s.free page with
              | .error e => .error (.pmm e)
              | .ok s => .ok (s, false)
            else .ok (s, true)

/-- The inner loop of `vas_clone`. -/
def clonePages (src dst : Nat) (flags : Word) :
    List Nat → Mach → Except VmPanic (Mach × Bool)
  | [], s => .ok (s, true)
  | va :: vas, s =>
      match clonePage src dst flags s va with
      | .error e => .error e
      | .ok (s, false) => .ok (s, false)
      | .ok (s, true) => clonePages src dst flags vas s

/-- The outer loop of `vas_clone` into the space `d`. -/
def cloneVads (src d : Nat) : List Vad → Vm → Except VmPanic (Vm × Bool)
  | [], s => .ok (s, true)
  | vad :: list, s =>
      match s.kzalloc with
      | (s, false) => .ok (s, false)
      | (s, true) =>
          match s.spaces d with
          | none => .ok (s, false)
          | some dst =>
              let s := s.setSpace d
                (some { dst with list := vadInsert vad dst.list })
              match clonePages src dst.pml4 vad.flags (pages vad.start vad.stop)
                s.mach with
              | .error e => .error e
              | .ok (mach, false) => .ok ({ s with mach }, false)
              | .ok (mach, true) => cloneVads src d list { s with mach }

/-- `vas_clone`. -/
def vasClone (s : Vm) (a : Nat) : Except VmPanic (Vm × Option Nat) :=
  match s.spaces a with
  | none => .ok (s, none)
  | some src =>
      match s.vasCreate none with
      | (s, none) => .ok (s, none)
      | (s, some d) =>
          let s := match s.spaces d with
            | none => s
            | some dst =>
                s.setSpace d (some { dst with userStart := src.userStart })
          match cloneVads src.pml4 d src.list s with
          | .error e => .error e
          | .ok (s, true) => .ok (s, some d)
          | .ok (s, false) =>
              match s.vasDestroy d with
              | .error e => .error e
              | .ok s => .ok (s, none)

-- ==== runs

/-- The calls. -/
inductive Call where
  | create (pt : Option Nat)
  | mapAnon (a hint length : Nat) (flags : Word)
  | mapPhys (a hint phys length : Nat) (flags : Word)
  | unmap (a start length : Nat)
  | protect (a start length : Nat) (newFlags : Word)
  | pageFault (a addr : Nat) (err : Word)
  | accessOk (a addr len : Nat) (write : Bool)
  | add (a : Nat) (vad : Vad)
  | clone (a : Nat)
  | destroy (a : Nat)

/-- A call without its result. -/
def call (s : Vm) : Call → Except VmPanic Vm
  | .create pt => .ok (s.vasCreate pt).1
  | .mapAnon a hint length flags =>
      (s.vasMapAnon a hint length flags).map Prod.fst
  | .mapPhys a hint phys length flags =>
      (s.vasMapPhys a hint phys length flags).map Prod.fst
  | .unmap a start length => (s.vasUnmap a start length).map Prod.fst
  | .protect a start length newFlags =>
      .ok (s.vasProtect a start length newFlags).1
  | .pageFault a addr err =>
      match s.spaces a with
      | none => .ok s
      | some v => s.lift ((s.mach.vasHandlePageFault v addr err).map Prod.fst)
  | .accessOk a addr len write =>
      match s.spaces a with
      | none => .ok s
      | some v => s.lift ((s.mach.vasUserAccessOk v addr len write).map Prod.fst)
  | .add a vad => .ok (s.vasAdd a vad).1
  | .clone a => (s.vasClone a).map Prod.fst
  | .destroy a => s.vasDestroy a

/-- The runs from `s₀` that make only calls that `may` allows. The coins
of each call are new. -/
inductive Reachable (may : Vm → Call → Prop) (s₀ : Vm) : Vm → Prop
  | init : Reachable may s₀ s₀
  | call {s s' : Vm} {k : Call} (coins : List Coin) : Reachable may s₀ s →
      may s k → { s with coins }.call k = .ok s' → Reachable may s₀ s'

end Vm

end Alix
