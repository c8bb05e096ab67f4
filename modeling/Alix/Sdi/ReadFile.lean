/-
`sdi_read_file` of `sdi/elf.c`.

The file is read in chunks of 1024 bytes into a buffer of the heap that
starts with 4096 bytes and doubles. A vnode is held from `vfs_open` to
`vfs_close`, and each way out of the loop has its own `vfs_close`; the two
failures have a `kfree` as well.

`fault` says in which rounds `vfs_read` fails although the file could be
read; a reallocation fails when the heap says so. The loop ends with the
file (`readLoop_spec`); its fuel is one more than the bytes of the file.
-/
import Alix.Fs.Mount
import Alix.Mm.Kheap

namespace Alix

open Bytes (Memory Byte copy)
open Tmpfs (growLoop)

/-- `sizeof(chunk)`. -/
abbrev sizeofChunk : Nat := 1024

/-- The bytes of a chunk, from address 0 on. -/
def chunkMemory (chunk : List UInt8) : Memory := fun i => (chunk.getD i 0).toBitVec

namespace Vfs

/-- `vfs_read` of a vnode that is open, in round `k`: the return code and
the chunk, whose length is `got`. -/
def vfsRead (s : Vfs) (fault : Nat → Bool) (k node offset : Nat) : Int × List UInt8 :=
  if fault k then (-1, []) else s.store.tmpfsRead (some node) true sizeofChunk offset

end Vfs

/-- Makes room for `need` bytes: the buffer and its capacity; `none` if
`krealloc` has failed. -/
def growBuffer (heap : Kheap) (buffer capacity need : Nat) :
    Except HeapStop (Kheap × Option (Nat × Nat)) :=
  if need > capacity then
    match growLoop 66 (if capacity ≠ 0 then capacity * 2 % 2 ^ 64 else 4096) need with
    | none => .error .diverges
    | some newCapacity =>
        match heap.krealloc buffer newCapacity with
        | .error e => .error e
        | .ok (heap, newBuffer) =>
            .ok (heap, if newBuffer = 0 then none else some (newBuffer, newCapacity))
  else .ok (heap, some (buffer, capacity))

/-- What `sdi_read_file` leaves: the vnodes, the heap, and `*out_buffer`
and `*out_size` where it returns 0. -/
abbrev ReadResult : Type := Except HeapStop (Vfs × Kheap × Option (Nat × Nat))

/-- Closes the vnode, frees the buffer and returns -1. -/
def readFailed (s : Vfs) (heap : Kheap) (node buffer : Nat) : ReadResult :=
  let (s, _) := s.vfsClose (some node)
  match heap.kfree buffer with
  | .error e => .error e
  | .ok heap => .ok (s, heap, none)

/-- The loop of `sdi_read_file`, from round `k` on. -/
def readLoop (s : Vfs) (node : Nat) (fault : Nat → Bool) :
    Nat → Nat → Kheap → Nat → Nat → Nat → Nat → ReadResult
  | 0, _, _, _, _, _, _ => .error .diverges
  | fuel + 1, k, heap, buffer, capacity, size, offset =>
      let (rc, chunk) := s.vfsRead fault k node offset
      let got := chunk.length
      if rc ≠ 0 then readFailed s heap node buffer
      else if got = 0 then
        let (s, _) := s.vfsClose (some node)
        .ok (s, heap, some (buffer, size))
      else
        match growBuffer heap buffer capacity ((size + got) % 2 ^ 64) with
        | .error e => .error e
        | .ok (heap, none) => readFailed s heap node buffer
        | .ok (heap, some (buffer, capacity)) =>
            let heap := { heap with
              mem := copy heap.mem (buffer + size) (chunkMemory chunk) 0 got }
            readLoop s node fault fuel (k + 1) heap buffer capacity ((size + got) % 2 ^ 64)
              ((offset + got) % 2 ^ 64)

/-- `sdi_read_file`; `none` is -1. -/
def sdiReadFile (s : Vfs) (heap : Kheap) (fault : Nat → Bool) (path : Option CStr)
    (outBuffer outSize : Bool) : ReadResult :=
  if path.isNone ∨ !outBuffer ∨ !outSize then .ok (s, heap, none)
  else
    match s.vfsOpen s.store.fs.vfsroot path O_RDONLY true with
    | (s, .error _) => .ok (s, heap, none)
    | (s, .ok node) =>
        readLoop s node fault ((s.store.file node).data.length + 1) 0 heap 0 0 0 0

end Alix
