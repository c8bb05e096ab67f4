/-
Relocating a driver in the memory its image is in.

`sdi_elf_context_t` holds pointers. The image and `section_bases` are
looked at wherever the source names them, and between the looks
`sdi_elf_apply_relocations` writes. Here they are in one memory: `Place`
has the pointers, `see` is the context that a memory shows there, and each
round looks at what the rounds before have left. Within a round nothing is
looked at after the write, so a round is that of `ElfReads.lean`. Fixed
for a section of relocations are the pointers that the source keeps in
variables: the section and its symbol table, `relocs`, `symbols`, and
`count`.

What `sdi_elf_prepare_sections` writes is another matter, and its image is
apart from that. The offsets of the sections are not read again and are
left out.
-/
import Alix.Sdi.ElfReads

namespace Alix

open Bytes (Memory Byte load storeAll)
open Traced

namespace Elf

/-- The pointers of `sdi_elf_context_t`; `sections` by its offset. -/
structure Place where
  image : Nat
  imageSize : Nat
  shoff : Nat
  sectionBases : Nat
deriving DecidableEq

namespace Place

/-- What the loader sees of a memory. -/
def see (p : Place) (m : Memory) : ElfContext where
  image i := m (p.image + i)
  imageSize := p.imageSize
  shoff := p.shoff
  sectionBases i := load m (p.sectionBases + i * 8) 8
  sectionOffsets _ := 0
  moduleBase := 0
  moduleSize := 0

end Place

/-- A loop of the relocations from round `i` on, with what it writes. -/
def roundsIn (step : Memory → Nat → Traced Read (Option (List Write))) :
    Nat → Nat → Memory → Traced Read (List Write × Int)
  | 0, _, _ => pure ([], 0)
  | n + 1, i, m => do
      match ← step m i with
      | none => return ([], -1)
      | some ws =>
          let rest ← roundsIn step n (i + 1) (relocated m ws)
          return (ws ++ rest.1, rest.2)

namespace Place

variable (address : String → Nat)

/-- One round of the inner loop of `sdi_elf_apply_relocations`, for section
`i` with the symbol table `link`. The headers are looked at again, the
pointers into the tables are kept. -/
def applyEntry (p : Place) (i link relocs symbols : Nat) (m : Memory) (r : Nat) :
    Traced Read (Option (List Write)) :=
  let ctx := p.see m
  readEntry address ctx { ctx.sections i with shOffset := relocs }
    { ctx.sections link with shOffset := symbols } r

/-- One round of the outer loop. -/
def applySection (p : Place) (m : Memory) (i : Nat) : Traced Read (List Write × Int) := do
  let ctx := p.see m
  let relsec ← readShdr ctx i
  if relsec.shType ≠ SHT_RELA then return ([], 0)
  else if relsec.shLink ≥ ctx.shnum ∨ relsec.shInfo ≥ ctx.shnum then return ([], -1)
  else if relsec.shEntsize ≠ sizeofRela ∨ relsec.shSize % sizeofRela ≠ 0 then return ([], -1)
  else if ctx.sectionBases relsec.shInfo = 0 then return ([], 0)
  else if !rangeOk ctx.imageSize relsec.shOffset relsec.shSize then return ([], -1)
  else
    let symtab ← readShdr ctx relsec.shLink
    if symtab.shType ≠ SHT_SYMTAB ∨ !symtabOk ctx symtab then return ([], -1)
    else
      roundsIn (p.applyEntry address i relsec.shLink relsec.shOffset symtab.shOffset)
        (relsec.shSize / sizeofRela) 0 m

/-- The outer loop from section `i` on. -/
def applyFrom (p : Place) : Nat → Nat → Memory → Traced Read (List Write × Int)
  | 0, _, _ => pure ([], 0)
  | n + 1, i, m =>
      -- `e_shnum` is looked at before each round
      if i ≥ (p.see m).shnum then pure ([], 0)
      else do
        let first ← p.applySection address m i
        if first.2 ≠ 0 then return first
        else
          let rest ← applyFrom p n (i + 1) (relocated m first.1)
          return (first.1 ++ rest.1, rest.2)

/-- `sdi_elf_apply_relocations`: what it reads, what it writes, and what it
returns. The number of sections has 16 bits. -/
def applyRelocations (p : Place) (m : Memory) : Traced Read (List Write × Int) :=
  p.applyFrom address (2 ^ 16) 0 m

end Place

end Elf

namespace Kheap

open Elf

/-- Where `sdi_elf_prepare_sections` puts `section_bases`. -/
def basesAt (s : Kheap) (ctx : ElfContext) : Nat :=
  match s.kzalloc (8 * ctx.shnum) with
  | .error _ => 0
  | .ok (_, bases) => bases

/-- `image` as the context that the loader starts with. -/
def imageAt (s : Kheap) (image imageSize : Nat) : ElfContext :=
  .start (fun i => s.mem (image + i)) imageSize

/-- The pointers after `sdi_elf_prepare_sections`. -/
def placeAt (s : Kheap) (image imageSize : Nat) (ctx : ElfContext) : Place :=
  ⟨image, imageSize, ctx.shoff, s.basesAt (s.imageAt image imageSize)⟩

end Kheap

namespace Elf

/-- The memory with `section_bases` filled in. -/
def Place.enter (p : Place) (m : Memory) (ctx : ElfContext) : Memory :=
  storeAll m p.sectionBases 8 8 ctx.sectionBases ctx.shnum

variable (address : String → Nat)

end Elf

end Alix
