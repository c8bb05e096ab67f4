/-
The allocator that drivers get, `sdi_kernel_alloc` and `sdi_kernel_free`
of `sdi/host.c`.

A block of the heap holds padding, a header of 32 bytes and the bytes of
the user, who gets the address behind the header. The header carries a
magic word and the address of the block; `sdi_kernel_free` subtracts 32
from what it is given and believes the header if the magic word is there.

Sizes and addresses have 64 bits, the flags have 32.
-/
import Alix.Mm.Kheap

namespace Alix

abbrev SDI_ALLOC_ZERO : BitVec 32 := 1#32
abbrev SDI_ALLOC_ATOMIC : BitVec 32 := 2#32
abbrev SDI_ALLOC_PAGE_ALIGNED : BitVec 32 := 4#32

abbrev SDI_ALLOC_SUPPORTED_FLAGS : BitVec 32 :=
  SDI_ALLOC_ZERO ||| SDI_ALLOC_ATOMIC ||| SDI_ALLOC_PAGE_ALIGNED

abbrev SDI_ALLOC_MAGIC : Nat := 0x534449414c4c4f43

/-- `sizeof(sdi_alloc_header_t)`. -/
abbrev sizeofAllocHeader : Nat := 32

/-- `sdi_align_up`. -/
def sdiAlignUp (value align : Nat) : Nat :=
  (value + align - 1) % 2 ^ 64 &&& (2 ^ 64 - 1 - (align - 1))

/-- `align` of `sdi_kernel_alloc`. -/
def sdiAlign (flags : BitVec 32) : Nat :=
  if flags &&& SDI_ALLOC_PAGE_ALIGNED ≠ 0 then PAGE_SIZE else 16

/-- `total` of `sdi_kernel_alloc`. -/
def sdiTotal (size : Nat) (flags : BitVec 32) : Nat :=
  (size + sizeofAllocHeader + sdiAlign flags - 1) % 2 ^ 64

/-- The header of a pointer. -/
def allocHeader (userPtr : Nat) : Nat := (userPtr + (2 ^ 64 - sizeofAllocHeader)) % 2 ^ 64

namespace Kheap

open Bytes (fill)

/-- The part of `sdi_kernel_alloc` behind `kmalloc`. -/
def sdiPlace (s : Kheap) (raw size : Nat) (flags : BitVec 32) : Kheap × Nat :=
  let userPtr := sdiAlignUp ((raw + sizeofAllocHeader) % 2 ^ 64) (sdiAlign flags)
  let header := allocHeader userPtr
  let s := s.put header 8 SDI_ALLOC_MAGIC
  let s := s.put (header + 8) 8 raw
  let s := s.put (header + 16) 8 size
  let s := s.put (header + 24) 4 flags.toNat
  (if flags &&& SDI_ALLOC_ZERO ≠ 0 then { s with mem := fill s.mem userPtr size 0 } else s, userPtr)

/-- `sdi_kernel_alloc`. -/
def sdiKernelAlloc (s : Kheap) (size : Nat) (flags : BitVec 32) : Except HeapStop (Kheap × Nat) :=
  if size = 0 ∨ flags &&& ~~~SDI_ALLOC_SUPPORTED_FLAGS ≠ 0 then .ok (s, 0)
  else
    let total := sdiTotal size flags
    if total < size then .ok (s, 0)
    else
      match s.kmalloc total with
      | .error e => .error e
      | .ok (s, raw) => if raw = 0 then .ok (s, 0) else .ok (s.sdiPlace raw size flags)

/-- `sdi_kernel_free`. -/
def sdiKernelFree (s : Kheap) (ptr : Nat) : Except HeapStop Kheap :=
  if ptr = 0 then .ok s
  else
    let header := allocHeader ptr
    if s.get64 header = SDI_ALLOC_MAGIC then
      let s := s.put header 8 0
      s.kfree (s.get64 (header + 8))
    else s.kfree ptr

end Kheap

end Alix
