/-
What `sdi_load_driver_image` reads of its image.

These are the functions of `Elf.lean` with what they read, in the order
of the source; without it they are those functions (`loadReads_value`). A
structure of the format is read as a whole, and where it is looked at
again it is not listed again. A name is read as a string: up to its
terminator, wherever that is.

Of the loops only the one of the section layout carries something from
round to round. The others go on or end, so they are searches (`scan`),
and what the relocations write is given by `applyRelocations`.
-/
import Alix.Lib.Traced
import Alix.Sdi.Elf

namespace Alix.Elf

open Bytes (Memory Byte)
open Traced

/-- Bytes of the image, or a string in it. -/
inductive Read where
  | bytes (off len : Nat)
  | name (off : Nat)
deriving DecidableEq

/-- What is read lies in the image, a string with its terminator. -/
def Read.Within (image : Memory) (imageSize : Nat) : Read → Prop
  | .bytes off len => off + len ≤ imageSize
  | .name off => ∃ n, strlen image (2 ^ 64) off = some n ∧ off + n + 1 ≤ imageSize

def readEhdr (image : Memory) : Traced Read Ehdr := ⟨[.bytes 0 sizeofEhdr], ehdr image⟩

def readShdr (ctx : ElfContext) (i : Nat) : Traced Read Shdr :=
  ⟨[.bytes (ctx.shoff + i * sizeofShdr) sizeofShdr], ctx.sections i⟩

def readSym (ctx : ElfContext) (a : Nat) : Traced Read Sym :=
  ⟨[.bytes a sizeofSym], symAt ctx.image a⟩

def readRela (ctx : ElfContext) (a : Nat) : Traced Read Rela :=
  ⟨[.bytes a sizeofRela], relaAt ctx.image a⟩

/-- A string is compared, or shown in a message. -/
def readString (a : Nat) : Traced Read Unit := ⟨[.name a], ()⟩

/-- `sdi_elf_validate_header`. -/
def readHeader (image : Memory) (imageSize : Nat) : Traced Read Bool :=
  if !rangeOk imageSize 0 sizeofEhdr then pure false
  else do
    let _ ← readEhdr image
    return validateHeader image imageSize

-- ==== the sections

/-- The first rounds of the first loop of `sdi_elf_prepare_sections`. -/
def readLayout (ctx : ElfContext) : Nat → Traced Read (Option SectionLayout)
  | 0 => pure (some ⟨0, 1, fun _ => 0⟩)
  | n + 1 => do
      match ← readLayout ctx n with
      | none => return none
      | some l =>
          let _ ← readShdr ctx n
          return layoutStep ctx l n

/-- `sdi_elf_prepare_sections` up to `kmalloc`. -/
def readReserve (s : Kheap) (ctx : ElfContext) :
    Traced Read (Except HeapStop (Kheap × Option (ElfContext × Nat))) :=
  match s.kzalloc (8 * ctx.shnum) with
  | .error e => pure (.error e)
  | .ok (s, bases) =>
      match s.kzalloc (8 * ctx.shnum) with
      | .error e => pure (.error e)
      | .ok (s, offsets) =>
          if bases = 0 ∨ offsets = 0 then pure (.ok (s, none))
          else do
            match ← readLayout ctx ctx.shnum with
            | none => return .ok (s, none)
            | some l =>
                if l.total = 0 then return .ok (s, none)
                else
                  match s.kmalloc ((l.total + l.maxAlign - 1) % 2 ^ 64) with
                  | .error e => return .error e
                  | .ok (s, block) =>
                      if block = 0 then return .ok (s, none)
                      else
                        return .ok (s, some (⟨ctx.image, ctx.imageSize, ctx.shoff, fun _ => 0,
                          l.sectionOffsets, block, l.total⟩, l.maxAlign))

/-- One round of the second loop: the header, and what is copied. -/
def readPlace (ctx : ElfContext) (i : Nat) : Traced Read Unit := do
  let h ← readShdr ctx i
  if h.alloc ∧ h.shType ≠ SHT_NOBITS ∧ h.shSize ≠ 0 then ⟨[.bytes h.shOffset h.shSize], ()⟩
  else pure ()

/-- `sdi_elf_prepare_sections`. -/
def readPrepare (s : Kheap) (pml4 : Option Nat) (ctx : ElfContext) :
    Traced Read (Except HeapStop (Kheap × ElfContext × Int)) := do
  match ← readReserve s ctx with
  | .error e => return .error e
  | .ok (s, none) => return .ok (s, ctx, -1)
  | .ok (s, some (ctx, maxAlign)) =>
      let (s, ctx, rc) := s.fillModule pml4 ctx maxAlign
      if rc ≠ 0 then return .ok (s, ctx, rc)
      else ⟨(List.range ctx.shnum).flatMap fun i => (readPlace ctx i).trace, .ok (s, ctx, rc)⟩

-- ==== symbols

/-- `sdi_elf_symbol_name`. -/
def readSymbolName (ctx : ElfContext) (symtab : Shdr) (symbol : Sym) : Traced Read (Option Nat) :=
  if symtab.shLink ≥ ctx.shnum then pure none
  else do
    let _ ← readShdr ctx symtab.shLink
    return symbolName ctx symtab symbol

variable (address : String → Nat)

/-- `sdi_elf_symbol_value`. -/
def readSymbolValue (ctx : ElfContext) (symtab : Shdr) (symbol : Sym) :
    Traced Read (Option Nat) :=
  if symbol.stShndx = SHN_ABS then pure (some symbol.stValue)
  else if symbol.stShndx = SHN_UNDEF then do
    match ← readSymbolName ctx symtab symbol with
    | none => return none
    | some name =>
        readString name
        return resolveExport address ctx.image name
  else if symbol.stShndx ≥ ctx.shnum ∨ ctx.sectionBases symbol.stShndx = 0 then do
    match ← readSymbolName ctx symtab symbol with
    | none => return none
    | some name =>
        -- the message shows the name
        readString name
        return none
  else pure (some ((ctx.sectionBases symbol.stShndx + symbol.stValue) % 2 ^ 64))

-- ==== relocations

/-- What a round of the inner loop of `sdi_elf_apply_relocations` does. -/
def readEntry (ctx : ElfContext) (relsec symtab : Shdr) (r : Nat) :
    Traced Read (Option (List Write)) := do
  let reloc ← readRela ctx (relsec.shOffset + r * sizeofRela)
  if reloc.sym ≥ symtab.shSize / sizeofSym then return none
  else
    let dest ← readShdr ctx relsec.shInfo
    if reloc.rOffset ≥ dest.shSize then return none
    else
      let target := (ctx.sectionBases relsec.shInfo + reloc.rOffset) % 2 ^ 64
      let symbol ← readSym ctx (symtab.shOffset + reloc.sym * sizeofSym)
      match ← readSymbolValue address ctx symtab symbol with
      | none => return none
      | some symbolValue =>
          return applyRelocation relsec.shInfo target reloc.type symbolValue reloc.rAddend target

/-- The round: -1 is returned if there is nothing to write. -/
def entryRound (ctx : ElfContext) (relsec symtab : Shdr) (r : Nat) :
    Traced Read (Option Int) := do
  let writes ← readEntry address ctx relsec symtab r
  return if writes.isNone then some (-1) else none

/-- What a round of the outer loop does, with its return code. -/
def readSection (ctx : ElfContext) (i : Nat) : Traced Read Int := do
  let relsec ← readShdr ctx i
  if relsec.shType ≠ SHT_RELA then return 0
  else if relsec.shLink ≥ ctx.shnum ∨ relsec.shInfo ≥ ctx.shnum then return -1
  else if relsec.shEntsize ≠ sizeofRela ∨ relsec.shSize % sizeofRela ≠ 0 then return -1
  else if ctx.sectionBases relsec.shInfo = 0 then return 0
  else if !rangeOk ctx.imageSize relsec.shOffset relsec.shSize then return -1
  else
    let symtab ← readShdr ctx relsec.shLink
    if symtab.shType ≠ SHT_SYMTAB ∨ !symtabOk ctx symtab then return -1
    else
      let stopped ← scan (entryRound address ctx relsec symtab) (relsec.shSize / sizeofRela) 0
      return stopped.getD 0

/-- The round. -/
def sectionRound (ctx : ElfContext) (i : Nat) : Traced Read (Option Int) := do
  let rc ← readSection address ctx i
  return if rc ≠ 0 then some rc else none

/-- `sdi_elf_apply_relocations`, with its return code. -/
def readRelocations (ctx : ElfContext) : Traced Read Int := do
  let stopped ← scan (sectionRound address ctx) ctx.shnum 0
  return stopped.getD 0

-- ==== the search

/-- One round of the inner loop of `sdi_elf_find_loaded_symbol`. -/
def readCandidate (ctx : ElfContext) (symtab : Shdr) (name : List Byte) (s : Nat) :
    Traced Read (Option Sym) := do
  let symbol ← readSym ctx (symtab.shOffset + s * sizeofSym)
  match ← readSymbolName ctx symtab symbol with
  | none => return none
  | some a =>
      readString a
      return if stringEqual ctx.image a name then some symbol else none

/-- One round of the outer loop. -/
def readSymtab (ctx : ElfContext) (name : List Byte) (i : Nat) :
    Traced Read (Option (Option Nat)) := do
  let symtab ← readShdr ctx i
  if symtab.shType ≠ SHT_SYMTAB then return none
  else if !symtabOk ctx symtab then return some none
  else
    match ← scan (readCandidate ctx symtab name) (symtab.shSize / sizeofSym) 0 with
    | none => return none
    | some symbol => return some (← readSymbolValue address ctx symtab symbol)

/-- `sdi_elf_find_loaded_symbol`. -/
def readLoadedSymbol (ctx : ElfContext) (name : String) : Traced Read (Option Nat) := do
  return (← scan (readSymtab address ctx (bytesOf name)) ctx.shnum 0).join

-- ==== the loader

/-- `sdi_load_driver_image` up to the call of
`sdi_kernel_register_loaded_driver`. -/
def loadReads (s : Kheap) (pml4 : Option Nat) (image : Memory) (imageSize : Nat) :
    Traced Read (Except HeapStop (Kheap × Option (ElfContext × Nat))) := do
  if !(← readHeader image imageSize) then return .ok (s, none)
  else
    match ← readPrepare s pml4 (.start image imageSize) with
    | .error e => return .error e
    | .ok (s, ctx, rc) =>
        if rc ≠ 0 then return .ok (s, none)
        else
          let rc ← readRelocations address ctx
          let s := { s with mem := relocated s.mem (applyRelocations address ctx).1 }
          if rc ≠ 0 then return .ok (s, none)
          else
            let symbol ← readLoadedSymbol address ctx "sdi_driver"
            return .ok (s, symbol.map fun symbol => (ctx, symbol))

end Alix.Elf
