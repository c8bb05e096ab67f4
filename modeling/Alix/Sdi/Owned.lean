/-
What the loader of driver images leaves allocated.

`LiveHeap` is the heap together with its live allocations, which every
call of the heap updates. The loader makes three calls, all of them in
`sdi_elf_prepare_sections`: the two tables and the block of the module.
It is written here once more over `LiveHeap`; without the live allocations
it is the loader of `Elf.lean`, followed by `register`, which stands for
`sdi_kernel_register_loaded_driver` with the callbacks of the driver
(`loadDriverImage_heap`). The callbacks may write where they like, and
make no calls of the heap.
-/
import Alix.Sdi.Elf
import Alix.Mm.Proofs.KheapRun

namespace Alix

open Bytes (Memory)
open Elf

/-- The heap, and what has been handed out and not been freed. -/
structure LiveHeap where
  heap : Kheap
  live : List (Nat × Nat)

namespace LiveHeap

/-- A call of the heap. -/
def call (h : LiveHeap) (k : Kheap.HeapCall) : Except HeapStop (LiveHeap × Nat) :=
  match h.heap.heapCall k with
  | .error e => .error e
  | .ok (s, p) => .ok (⟨s, k.after h.live p⟩, p)

/-- `sdi_elf_prepare_sections` up to `kmalloc`; see `Kheap.reserveModule`. -/
def reserveModule (h : LiveHeap) (ctx : ElfContext) :
    Except HeapStop (LiveHeap × Option (ElfContext × Nat)) :=
  match h.call (.kzalloc (8 * ctx.shnum)) with
  | .error e => .error e
  | .ok (h, bases) =>
      match h.call (.kzalloc (8 * ctx.shnum)) with
      | .error e => .error e
      | .ok (h, offsets) =>
          if bases = 0 ∨ offsets = 0 then .ok (h, none)
          else
            match layoutUpto ctx ctx.shnum with
            | none => .ok (h, none)
            | some l =>
                if l.total = 0 then .ok (h, none)
                else
                  match h.call (.kmalloc ((l.total + l.maxAlign - 1) % 2 ^ 64)) with
                  | .error e => .error e
                  | .ok (h, block) =>
                      if block = 0 then .ok (h, none)
                      else
                        .ok (h, some (⟨ctx.image, ctx.imageSize, ctx.shoff, fun _ => 0,
                          l.sectionOffsets, block, l.total⟩, l.maxAlign))

/-- `sdi_load_driver_image`, with its return code. -/
def loadDriverImage (address : String → Nat) (register : Kheap → Nat → Kheap × Int)
    (h : LiveHeap) (pml4 : Option Nat) (image : Memory) (imageSize : Nat) :
    Except HeapStop (LiveHeap × Int) :=
  if !validateHeader image imageSize then .ok (h, -1)
  else
    match h.reserveModule (.start image imageSize) with
    | .error e => .error e
    | .ok (h, none) => .ok (h, -1)
    | .ok (h, some (ctx, maxAlign)) =>
        let (s, ctx, rc) := h.heap.fillModule pml4 ctx maxAlign
        if rc ≠ 0 then .ok ({ h with heap := s }, -1)
        else
          let (ws, rc) := applyRelocations address ctx
          let s := { s with mem := relocated s.mem ws }
          if rc ≠ 0 then .ok ({ h with heap := s }, -1)
          else
            match findLoadedSymbol address ctx "sdi_driver" with
            | none => .ok ({ h with heap := s }, -1)
            | some symbol =>
                let (s, rc) := register s symbol
                .ok ({ h with heap := s }, rc)

end LiveHeap

end Alix
