/-
The buffer of a regular file, in the kernel's heap (`fs/tmpfs.c`).

`Files.lean` has the nodes of a tmpfs and takes a file buffer as the list
of its bytes. Here the node has what the code has: a pointer into the
heap, how many bytes are there, and how many of them are the file; and the
calls are `krealloc`, `memset` and `memcpy` on the memory. It is one file,
with the counter of its file system; the other files are allocations of
the heap like any other. `Proofs/Mirror.lean` connects the two.

Sizes, offsets and pointers are 64-bit, and a sum of them wraps. The
source of a `memcpy` is what the caller hands over, the bytes of
`buffer`; the loop of `tmpfs_resize_node` and the searches of the heap
need not end, which is `diverges`.
-/
import Alix.Fs.Files
import Alix.Mm.Kheap

namespace Alix

open Bytes (Byte Memory fill)
open Tmpfs (growLoop tmpfsMinSize tmpfsOpenFlagsValid)

/-- `timespec_t`. -/
structure Timespec where
  s : Nat
  ns : Nat
deriving DecidableEq

/-- `tmpfs_now`, from `time_uptime_us()`. -/
def tmpfsNow (uptimeUs : Nat) : Timespec := ⟨uptimeUs / 1000000, uptimeUs % 1000000 * 1000⟩

/-- A `vnode_t` and the `tmpfs_node_t` behind it. -/
structure FileNode where
  /-- `vnode.type` -/
  type : NodeType
  /-- `vnode.private_data` is the node, and not NULL. -/
  privateData : Bool
  data : Nat
  capacity : Nat
  size : Nat
  atime : Timespec
  mtime : Timespec
  ctime : Timespec

/-- A file, the heap its buffer is in, and `byte_count` of its file
system. -/
structure FileState where
  heap : Kheap
  node : FileNode
  byteCount : Nat

/-- A regular file as `tmpfs_alloc_node` leaves it: without a buffer. -/
def newFile (heap : Kheap) (byteCount now : Nat) : FileState where
  heap := heap
  node :=
    { type := .reg, privateData := true, data := 0, capacity := 0, size := 0
      atime := tmpfsNow now, mtime := tmpfsNow now, ctime := tmpfsNow now }
  byteCount := byteCount

/-- The arguments of `tmpfs_write`, but for `writec`: whether `node` is
given, the bytes behind `buffer` if that is, and three numbers. -/
structure WriteArgs where
  node : Bool
  buffer : Option (Nat → Byte)
  size : Nat
  offset : Nat
  flags : BitVec 32
  size_lt : size < 2 ^ 64
  offset_lt : offset < 2 ^ 64

/-- A byte of the buffer. -/
def WriteArgs.byte (a : WriteArgs) : Nat → Byte := a.buffer.getD fun _ => 0

/-- `memcpy` to an address; after the last one comes address 0. -/
def memcpyTo (m : Memory) (dst : Nat) (src : Nat → Byte) (n : Nat) : Memory :=
  fun x =>
    let i := (x + (2 ^ 64 - dst % 2 ^ 64)) % 2 ^ 64
    if x < 2 ^ 64 ∧ i < n then src i else m x

namespace FileState

-- ==== resizing

/-- `memset(p, 0, n)`. -/
def clear (s : FileState) (p n : Nat) : FileState :=
  { s with heap := { s.heap with mem := fill s.heap.mem p n 0 } }

/-- The last two statements of `tmpfs_resize_node`. -/
def setSize (s : FileState) (size : Nat) : FileState :=
  { s with
    byteCount := (s.byteCount + (size + 2 ^ 64 - s.node.size)) % 2 ^ 64
    node := { s.node with size } }

/-- Where the doubling starts. -/
def startCapacity (node : FileNode) : Nat :=
  if node.capacity ≠ 0 then node.capacity else 64

/-- `tmpfs_resize_node`, with its return code. -/
def resizeNode (s : FileState) (size : Nat) : Except HeapStop (FileState × Int) :=
  if size ≤ s.node.capacity then
    let s := if size > s.node.size then
        s.clear (s.node.data + s.node.size) (size - s.node.size)
      else s
    .ok (s.setSize size, 0)
  else
    match growLoop 66 (startCapacity s.node) size with
    | none => .error .diverges
    | some newCapacity =>
        match s.heap.krealloc s.node.data newCapacity with
        | .error e => .error e
        | .ok (heap, newData) =>
            let s := { s with heap }
            if newData = 0 then .ok (s, -1)
            else
              let s := if newCapacity > s.node.capacity then
                  s.clear (newData + s.node.capacity) (newCapacity - s.node.capacity)
                else s
              let s := if size > s.node.size then
                  s.clear (newData + s.node.size) (size - s.node.size)
                else s
              let s := { s with
                node := { s.node with data := newData, capacity := newCapacity } }
              .ok (s.setSize size, 0)

-- ==== open, read and write

/-- `tmpfs_open`, with its return code; `node` says whether `*node` is
given. -/
def tmpfsOpen (s : FileState) (node : Bool) (flags : BitVec 32) (now : Nat) :
    FileState × Int :=
  if !node ∨ !tmpfsOpenFlagsValid flags then (s, -1)
  else if flags &&& O_DIRECTORY ≠ 0 ∧ s.node.type ≠ .dir then (s, -1)
  else if s.node.type = .dir ∧ flags &&& O_ACCMODE ≠ O_RDONLY then (s, -1)
  else if flags &&& O_TRUNC ≠ 0 ∧ s.node.type = .reg
      ∧ flags &&& O_ACCMODE ≠ O_RDONLY then
    let s := s.setSize 0
    ({ s with node := { s.node with mtime := tmpfsNow now, ctime := tmpfsNow now } }, 0)
  else (s, 0)

/-- `tmpfs_read`, with `*readc`, the return code and the bytes that are
copied to the buffer. -/
def tmpfsRead (s : FileState) (node buffer : Bool) (size offset : Nat) (readc : Option Nat)
    (now : Nat) : FileState × Option Nat × Int × List Byte :=
  if !node ∨ !buffer then (s, readc, -1, [])
  else if !s.node.privateData ∨ s.node.type ≠ .reg then (s, readc, -1, [])
  else
    let count := if offset ≥ s.node.size then 0 else tmpfsMinSize size (s.node.size - offset)
    let bytes := (List.range count).map fun i => s.heap.mem (s.node.data + offset + i)
    ({ s with node := { s.node with atime := tmpfsNow now } }, readc.map fun _ => count, 0, bytes)

/-- Where `tmpfs_write` starts to write; with `O_APPEND` this is read
before the lock is taken. -/
def writeOffset (s : FileState) (a : WriteArgs) : Nat :=
  if a.flags &&& O_APPEND ≠ 0 then s.node.size else a.offset

/-- What `tmpfs_write` does under `size_lock`, once it has an offset. -/
def writeLocked (s : FileState) (a : WriteArgs) (offset now : Nat) :
    Except HeapStop (FileState × Int) :=
  match s.resizeNode ((offset + a.size) % 2 ^ 64) with
  | .error e => .error e
  | .ok (s, rc) =>
      let s := if rc = 0 ∧ a.size ≠ 0 then
          { s with heap := { s.heap with
              mem := memcpyTo s.heap.mem (s.node.data + offset) a.byte a.size } }
        else s
      let s := if rc = 0 then
          { s with node := { s.node with mtime := tmpfsNow now, ctime := tmpfsNow now } }
        else s
      .ok (s, rc)

/-- The calls that `tmpfs_write` sends back before it takes the lock. -/
def Refused (s : FileState) (a : WriteArgs) : Prop :=
  a.node = false ∨ (a.buffer = none ∧ a.size ≠ 0) ∨ s.node.privateData = false
    ∨ s.node.type ≠ .reg

instance (s : FileState) (a : WriteArgs) : Decidable (s.Refused a) :=
  inferInstanceAs (Decidable (_ ∨ _ ∨ _ ∨ _))

/-- `tmpfs_write`, with `*writec` and the return code. -/
def tmpfsWrite (s : FileState) (a : WriteArgs) (writec : Option Nat) (now : Nat) :
    Except HeapStop (FileState × Option Nat × Int) :=
  if s.Refused a then .ok (s, writec, -1)
  else
    match s.writeLocked a (s.writeOffset a) now with
    | .error e => .error e
    | .ok (s, rc) =>
        if rc ≠ 0 then .ok (s, writec, rc) else .ok (s, writec.map fun _ => a.size, 0)

end FileState

end Alix
