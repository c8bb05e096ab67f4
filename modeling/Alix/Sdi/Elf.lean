/-
The loader of driver images, `sdi/elf.c`.

An image is a file in memory: its bytes from offset 0 on and its size, and
what is behind its last byte is whatever memory is there. The structures of
the format are read where the format has them.

`section_bases` and `section_offsets` are arrays that the loader gets
zeroed from the heap and fills; here they are functions, and the module is
the one thing that is written through a computed pointer. Pointer
arithmetic is that of 64-bit addresses.

The image here is apart from what the loader writes, and
`sdi_elf_apply_relocations` is the list of its writes, in order, with its
return code. Where a relocation is written over the image itself, the next
one reads what is there then: the same loop in the one memory is
`Place.applyRelocations` in `ElfMem.lean`, and `relocations_alike` says
when the two are the same.

The addresses of the exported functions are the linker's, a parameter.
`klog` is left out.
-/
import Alix.Mm.Direct

namespace Alix

open Bytes (Memory Byte load fill copy)
open Paging (PAGE_PRESENT PAGE_WRITE PAGE_GLOBAL)

namespace Elf

-- ==== constants

abbrev EV_CURRENT : Nat := 1
abbrev ET_REL : Nat := 1
abbrev EM_X86_64 : Nat := 62

abbrev SHT_SYMTAB : Nat := 2
abbrev SHT_STRTAB : Nat := 3
abbrev SHT_RELA : Nat := 4
abbrev SHT_NOBITS : Nat := 8

abbrev SHN_UNDEF : Nat := 0
abbrev SHN_ABS : Nat := 0xfff1

abbrev R_X86_64_NONE : Nat := 0
abbrev R_X86_64_64 : Nat := 1
abbrev R_X86_64_PC32 : Nat := 2
abbrev R_X86_64_PLT32 : Nat := 4
abbrev R_X86_64_32 : Nat := 10
abbrev R_X86_64_32S : Nat := 11

abbrev sizeofEhdr : Nat := 64
abbrev sizeofShdr : Nat := 64
abbrev sizeofSym : Nat := 24
abbrev sizeofRela : Nat := 24

-- ==== the file

/-- `elf64_ehdr_t`, as far as it is read; `e_ident` by itself. -/
structure Ehdr where
  eType : Nat
  eMachine : Nat
  eVersion : Nat
  eShoff : Nat
  eEhsize : Nat
  eShentsize : Nat
  eShnum : Nat

def ehdr (image : Memory) : Ehdr where
  eType := load image 16 2
  eMachine := load image 18 2
  eVersion := load image 20 4
  eShoff := load image 40 8
  eEhsize := load image 52 2
  eShentsize := load image 58 2
  eShnum := load image 60 2

/-- `elf64_shdr_t`, as far as it is read. -/
structure Shdr where
  shType : Nat
  shFlags : Nat
  shOffset : Nat
  shSize : Nat
  shLink : Nat
  shInfo : Nat
  shAddralign : Nat
  shEntsize : Nat

def shdrAt (image : Memory) (a : Nat) : Shdr where
  shType := load image (a + 4) 4
  shFlags := load image (a + 8) 8
  shOffset := load image (a + 24) 8
  shSize := load image (a + 32) 8
  shLink := load image (a + 40) 4
  shInfo := load image (a + 44) 4
  shAddralign := load image (a + 48) 8
  shEntsize := load image (a + 56) 8

/-- `elf64_sym_t`, as far as it is read. -/
structure Sym where
  stName : Nat
  stShndx : Nat
  stValue : Nat

def symAt (image : Memory) (a : Nat) : Sym where
  stName := load image a 4
  stShndx := load image (a + 6) 2
  stValue := load image (a + 8) 8

/-- `elf64_rela_t`; the addend by its 64 bits. -/
structure Rela where
  rOffset : Nat
  rInfo : Nat
  rAddend : Nat

def relaAt (image : Memory) (a : Nat) : Rela where
  rOffset := load image a 8
  rInfo := load image (a + 8) 8
  rAddend := load image (a + 16) 8

/-- `ELF64_R_SYM`. -/
def Rela.sym (r : Rela) : Nat := r.rInfo / 2 ^ 32

/-- `ELF64_R_TYPE`. -/
def Rela.type (r : Rela) : Nat := r.rInfo % 2 ^ 32

/-- `section->sh_flags & SHF_ALLOC`. -/
def Shdr.alloc (h : Shdr) : Bool := h.shFlags.testBit 1

/-- `align` of `sdi_elf_prepare_sections`. -/
def Shdr.align (h : Shdr) : Nat := if h.shAddralign ≠ 0 then h.shAddralign else 1

/-- `sdi_elf_context_t`. `ehdr` and `sections` point into the image;
`shoff` is how far the second one does. -/
structure ElfContext where
  image : Memory
  imageSize : Nat
  shoff : Nat
  sectionBases : Nat → Nat
  sectionOffsets : Nat → Nat
  moduleBase : Nat
  moduleSize : Nat

/-- The context of `sdi_load_driver_image` before anything is loaded. -/
def ElfContext.start (image : Memory) (imageSize : Nat) : ElfContext :=
  ⟨image, imageSize, (ehdr image).eShoff, fun _ => 0, fun _ => 0, 0, 0⟩

/-- `ctx->ehdr->e_shnum`. -/
def ElfContext.shnum (ctx : ElfContext) : Nat := (ehdr ctx.image).eShnum

/-- `ctx->sections[i]`. -/
def ElfContext.sections (ctx : ElfContext) (i : Nat) : Shdr :=
  shdrAt ctx.image (ctx.shoff + i * sizeofShdr)

-- ==== sums

/-- `sdi_elf_range_ok`. -/
def rangeOk (imageSize offset size : Nat) : Bool :=
  offset ≤ imageSize && size ≤ imageSize - offset

/-- `sdi_elf_u64_add_ok`, with `*out` if it is ok. -/
def u64AddOk (a b : Nat) : Option Nat :=
  if (a + b) % 2 ^ 64 ≥ a then some ((a + b) % 2 ^ 64) else none

/-- `sdi_elf_align_up`. -/
def alignUp (value align : Nat) : Nat :=
  if align ≤ 1 then value
  else (value + align - 1) % 2 ^ 64 &&& (2 ^ 64 - 1 - (align - 1))

/-- `sdi_elf_is_power_of_two`. -/
def isPowerOfTwo (value : Nat) : Bool := value ≠ 0 && value &&& (value - 1) == 0

/-- `sdi_elf_validate_header`. -/
def validateHeader (image : Memory) (imageSize : Nat) : Bool :=
  if !rangeOk imageSize 0 sizeofEhdr then false
  else if image 0 ≠ 0x7f ∨ image 1 ≠ 0x45 ∨ image 2 ≠ 0x4c ∨ image 3 ≠ 0x46 then false
  else if image 4 ≠ 2 ∨ image 5 ≠ 1 ∨ image 6 ≠ 1 then false
  else
    let ehdr := ehdr image
    if ehdr.eType ≠ ET_REL ∨ ehdr.eMachine ≠ EM_X86_64 ∨ ehdr.eVersion ≠ EV_CURRENT then false
    else if ehdr.eEhsize < sizeofEhdr ∨ ehdr.eShentsize ≠ sizeofShdr ∨ ehdr.eShnum = 0 then false
    else
      match u64AddOk 0 (ehdr.eShnum * ehdr.eShentsize) with
      | none => false
      | some sectionBytes => rangeOk imageSize ehdr.eShoff sectionBytes

-- ==== the layout

/-- `total`, `max_align` and `section_offsets` of the first loop of
`sdi_elf_prepare_sections`. -/
structure SectionLayout where
  total : Nat
  maxAlign : Nat
  sectionOffsets : Nat → Nat

/-- One round of the loop; `none` is -1. -/
def layoutStep (ctx : ElfContext) (l : SectionLayout) (i : Nat) : Option SectionLayout :=
  let h := ctx.sections i
  if !h.alloc then some l
  else if !isPowerOfTwo h.align || h.align > PAGE_SIZE then none
  else if h.shType ≠ SHT_NOBITS ∧ !rangeOk ctx.imageSize h.shOffset h.shSize then none
  else
    let total := alignUp l.total h.align
    match u64AddOk total h.shSize with
    | none => none
    | some sum =>
        some ⟨sum, if h.align > l.maxAlign then h.align else l.maxAlign,
          Function.update l.sectionOffsets i total⟩

/-- The first rounds of the loop. -/
def layoutUpto (ctx : ElfContext) : Nat → Option SectionLayout
  | 0 => some ⟨0, 1, fun _ => 0⟩
  | n + 1 =>
      match layoutUpto ctx n with
      | none => none
      | some l => layoutStep ctx l n

end Elf

open Elf

namespace Kheap

-- ==== the sections

/-- `sdi_elf_prepare_sections` up to `kmalloc`, with `module_base` the
block as it comes and with `max_align`; `none` is -1. -/
def reserveModule (s : Kheap) (ctx : ElfContext) :
    Except HeapStop (Kheap × Option (ElfContext × Nat)) :=
  match s.kzalloc (8 * ctx.shnum) with
  | .error e => .error e
  | .ok (s, bases) =>
      match s.kzalloc (8 * ctx.shnum) with
      | .error e => .error e
      | .ok (s, offsets) =>
          if bases = 0 ∨ offsets = 0 then .ok (s, none)
          else
            match layoutUpto ctx ctx.shnum with
            | none => .ok (s, none)
            | some l =>
                if l.total = 0 then .ok (s, none)
                else
                  match s.kmalloc ((l.total + l.maxAlign - 1) % 2 ^ 64) with
                  | .error e => .error e
                  | .ok (s, block) =>
                      if block = 0 then .ok (s, none)
                      else
                        .ok (s, some (⟨ctx.image, ctx.imageSize, ctx.shoff, fun _ => 0,
                          l.sectionOffsets, block, l.total⟩, l.maxAlign))

/-- One round of the second loop. -/
def placeSection (s : Kheap × ElfContext) (i : Nat) : Kheap × ElfContext :=
  let (s, ctx) := s
  let h := ctx.sections i
  if !h.alloc then (s, ctx)
  else
    let base := (ctx.moduleBase + ctx.sectionOffsets i) % 2 ^ 64
    let ctx := { ctx with sectionBases := Function.update ctx.sectionBases i base }
    if h.shType ≠ SHT_NOBITS ∧ h.shSize ≠ 0 then
      ({ s with mem := copy s.mem base ctx.image h.shOffset h.shSize }, ctx)
    else (s, ctx)

/-- `sdi_elf_prepare_sections` from there on. -/
def fillModule (s : Kheap) (pml4 : Option Nat) (ctx : ElfContext) (maxAlign : Nat) :
    Kheap × ElfContext × Int :=
  let base := alignUp ctx.moduleBase maxAlign
  let ctx := { ctx with moduleBase := base }
  let s := { s with mem := fill s.mem base ctx.moduleSize 0 }
  let first := pageAlignDown base
  let size := (pageAlignUp ((base + ctx.moduleSize) % 2 ^ 64) + (2 ^ 64 - first)) % 2 ^ 64
  let (s, rc) := s.pagingMapRange pml4 first (s.virtToPhys first) size
    (PAGE_PRESENT ||| PAGE_WRITE ||| PAGE_GLOBAL)
  if rc ≠ 0 then (s, ctx, -1)
  else
    let (s, ctx) := (List.range ctx.shnum).foldl placeSection (s, ctx)
    (s, ctx, 0)

/-- `sdi_elf_prepare_sections`; `pml4` is that of `kernel_vas`. -/
def prepareSections (s : Kheap) (pml4 : Option Nat) (ctx : ElfContext) :
    Except HeapStop (Kheap × ElfContext × Int) :=
  match s.reserveModule ctx with
  | .error e => .error e
  | .ok (s, none) => .ok (s, ctx, -1)
  | .ok (s, some (ctx, maxAlign)) => .ok (s.fillModule pml4 ctx maxAlign)

end Kheap

namespace Elf

-- ==== symbols

/-- The names of `sdi_elf_exports`. -/
def exportNames : List String :=
  ["sdi_alloc", "sdi_attach_driver", "sdi_call", "sdi_class_register", "sdi_class_unregister",
    "sdi_detach_driver", "sdi_dma_alloc", "sdi_dma_free", "sdi_find_driver", "sdi_free",
    "sdi_get_driver_at", "sdi_get_driver_count", "sdi_get_info", "sdi_get_resource",
    "sdi_irq_ack", "sdi_irq_bind", "sdi_irq_mask", "sdi_irq_unbind", "sdi_irq_unmask",
    "sdi_is_initialized", "sdi_log", "sdi_mmio_barrier", "sdi_mmio_map", "sdi_mmio_read",
    "sdi_mmio_unmap", "sdi_mmio_write", "sdi_now_ns", "sdi_pio_read", "sdi_pio_write",
    "sdi_probe_driver", "sdi_register_driver", "sdi_remove_driver", "sdi_resume_driver",
    "sdi_start_driver", "sdi_stop_driver", "sdi_suspend_driver", "sdi_unregister_driver"]

/-- The bytes of a name in the source. -/
def bytesOf (name : String) : List Byte := name.toList.map fun c => BitVec.ofNat 8 c.toNat

/-- `strlen`, if there is a zero in so many bytes. -/
def strlen (m : Memory) : Nat → Nat → Option Nat
  | 0, _ => none
  | n + 1, a => if m a = 0 then some 0 else (strlen m n (a + 1)).map (· + 1)

/-- `sdi_elf_string_equal` with a name of the source. No memory is larger
than `2^64` bytes. -/
def stringEqual (m : Memory) (a : Nat) (name : List Byte) : Bool :=
  match strlen m (2 ^ 64) a with
  | none => false
  | some n => n == name.length && (List.range n).all fun i => m (a + i) == name.getD i 0

variable (address : String → Nat)

/-- `sdi_elf_resolve_export`. -/
def resolveExport (m : Memory) (a : Nat) : Option Nat :=
  (exportNames.find? fun name => stringEqual m a (bytesOf name)).map address

/-- `sdi_elf_symbol_name`, as an offset into the image. -/
def symbolName (ctx : ElfContext) (symtab : Shdr) (symbol : Sym) : Option Nat :=
  if symtab.shLink ≥ ctx.shnum then none
  else
    let strtab := ctx.sections symtab.shLink
    if strtab.shType ≠ SHT_STRTAB ∨ symbol.stName ≥ strtab.shSize
        ∨ !rangeOk ctx.imageSize strtab.shOffset strtab.shSize then none
    else some (strtab.shOffset + symbol.stName)

/-- `sdi_elf_symbol_value`; `none` is -1. -/
def symbolValue (ctx : ElfContext) (symtab : Shdr) (symbol : Sym) : Option Nat :=
  if symbol.stShndx = SHN_ABS then some symbol.stValue
  else if symbol.stShndx = SHN_UNDEF then
    match symbolName ctx symtab symbol with
    | none => none
    | some name => resolveExport address ctx.image name
  else if symbol.stShndx ≥ ctx.shnum ∨ ctx.sectionBases symbol.stShndx = 0 then none
  else some ((ctx.sectionBases symbol.stShndx + symbol.stValue) % 2 ^ 64)

/-- The checks of a symbol table. -/
def symtabOk (ctx : ElfContext) (symtab : Shdr) : Bool :=
  symtab.shEntsize == sizeofSym && rangeOk ctx.imageSize symtab.shOffset symtab.shSize

-- ==== relocations

/-- `(int64_t)`. -/
def toInt64 (x : Nat) : Int := (BitVec.ofNat 64 x).toInt

/-- `sdi_elf_fits_i32`. -/
def fitsI32 (value : Int) : Bool := -2 ^ 31 ≤ value && value ≤ 2 ^ 31 - 1

/-- A `memcpy` of `sdi_elf_apply_relocation`: the low bytes of a value go
to `target`. `info` is the `sh_info` it happens for. -/
structure Write where
  info : Nat
  target : Nat
  width : Nat
  value : Nat
deriving DecidableEq

/-- `sdi_elf_apply_relocation`; `none` is -1. -/
def applyRelocation (info target type symbolValue addend place : Nat) : Option (List Write) :=
  if type = R_X86_64_NONE then some []
  else if type = R_X86_64_64 then some [⟨info, target, 8, (symbolValue + addend) % 2 ^ 64⟩]
  else if type = R_X86_64_PC32 ∨ type = R_X86_64_PLT32 then
    let relative := (symbolValue + addend + (2 ^ 64 - place)) % 2 ^ 64
    if !fitsI32 (toInt64 relative) then none else some [⟨info, target, 4, relative % 2 ^ 32⟩]
  else if type = R_X86_64_32 then
    let value := (symbolValue + addend) % 2 ^ 64
    if value > 2 ^ 32 - 1 then none else some [⟨info, target, 4, value⟩]
  else if type = R_X86_64_32S then
    let relative := (symbolValue + addend) % 2 ^ 64
    if !fitsI32 (toInt64 relative) then none else some [⟨info, target, 4, relative % 2 ^ 32⟩]
  else none

/-- `relocs[r]` of a section of relocations. -/
def reloc (ctx : ElfContext) (relsec : Shdr) (r : Nat) : Rela :=
  relaAt ctx.image (relsec.shOffset + r * sizeofRela)

/-- One round of the inner loop of `sdi_elf_apply_relocations`. -/
def applyEntry (ctx : ElfContext) (relsec symtab : Shdr) (r : Nat) : Option (List Write) :=
  let reloc := reloc ctx relsec r
  if reloc.sym ≥ symtab.shSize / sizeofSym then none
  else if reloc.rOffset ≥ (ctx.sections relsec.shInfo).shSize then none
  else
    let target := (ctx.sectionBases relsec.shInfo + reloc.rOffset) % 2 ^ 64
    let symbol := symAt ctx.image (symtab.shOffset + reloc.sym * sizeofSym)
    match symbolValue address ctx symtab symbol with
    | none => none
    | some symbolValue =>
        applyRelocation relsec.shInfo target reloc.type symbolValue reloc.rAddend target

/-- A loop from round `i` on, with what is written up to a failure. -/
def rounds (step : Nat → Option (List Write)) : Nat → Nat → List Write × Int
  | 0, _ => ([], 0)
  | n + 1, i =>
      match step i with
      | none => ([], -1)
      | some ws =>
          let rest := rounds step n (i + 1)
          (ws ++ rest.1, rest.2)

/-- One round of the outer loop. -/
def applySection (ctx : ElfContext) (i : Nat) : List Write × Int :=
  let relsec := ctx.sections i
  if relsec.shType ≠ SHT_RELA then ([], 0)
  else if relsec.shLink ≥ ctx.shnum ∨ relsec.shInfo ≥ ctx.shnum then ([], -1)
  else if relsec.shEntsize ≠ sizeofRela ∨ relsec.shSize % sizeofRela ≠ 0 then ([], -1)
  else if ctx.sectionBases relsec.shInfo = 0 then ([], 0)
  else if !rangeOk ctx.imageSize relsec.shOffset relsec.shSize then ([], -1)
  else
    let symtab := ctx.sections relsec.shLink
    if symtab.shType ≠ SHT_SYMTAB ∨ !symtabOk ctx symtab then ([], -1)
    else rounds (applyEntry address ctx relsec symtab) (relsec.shSize / sizeofRela) 0

/-- The outer loop from section `i` on. -/
def applyFrom (ctx : ElfContext) : Nat → Nat → List Write × Int
  | 0, _ => ([], 0)
  | n + 1, i =>
      let first := applySection address ctx i
      if first.2 ≠ 0 then first
      else
        let rest := applyFrom ctx n (i + 1)
        (first.1 ++ rest.1, rest.2)

/-- `sdi_elf_apply_relocations`: what it writes, and what it returns. -/
def applyRelocations (ctx : ElfContext) : List Write × Int := applyFrom address ctx ctx.shnum 0

/-- The memory after the writes. -/
def relocated (m : Memory) (ws : List Write) : Memory :=
  ws.foldl (fun m w => Bytes.store m w.target w.width w.value) m

-- ==== the loader

/-- The symbols of a table from `s` on, in `sdi_elf_find_loaded_symbol`. -/
def findIn (ctx : ElfContext) (symtab : Shdr) (name : List Byte) : Nat → Nat → Option Sym
  | 0, _ => none
  | n + 1, s =>
      let symbol := symAt ctx.image (symtab.shOffset + s * sizeofSym)
      match symbolName ctx symtab symbol with
      | none => findIn ctx symtab name n (s + 1)
      | some a =>
          if stringEqual ctx.image a name then some symbol
          else findIn ctx symtab name n (s + 1)

/-- The sections from `i` on, in `sdi_elf_find_loaded_symbol`. -/
def findFrom (ctx : ElfContext) (name : List Byte) : Nat → Nat → Option Nat
  | 0, _ => none
  | n + 1, i =>
      let symtab := ctx.sections i
      if symtab.shType ≠ SHT_SYMTAB then findFrom ctx name n (i + 1)
      else if !symtabOk ctx symtab then none
      else
        match findIn ctx symtab name (symtab.shSize / sizeofSym) 0 with
        | some symbol => symbolValue address ctx symtab symbol
        | none => findFrom ctx name n (i + 1)

/-- `sdi_elf_find_loaded_symbol`; `none` is -1. -/
def findLoadedSymbol (ctx : ElfContext) (name : String) : Option Nat :=
  findFrom address ctx (bytesOf name) ctx.shnum 0

end Elf

namespace Kheap

open Elf

/-- `sdi_load_driver_image` up to the call of
`sdi_kernel_register_loaded_driver`: the sections are prepared, the
relocations written and `sdi_driver` is found. `none` is -1. -/
def loadDriverImage (address : String → Nat) (s : Kheap) (pml4 : Option Nat) (image : Memory)
    (imageSize : Nat) : Except HeapStop (Kheap × Option (ElfContext × Nat)) :=
  if !validateHeader image imageSize then .ok (s, none)
  else
    match s.prepareSections pml4 (.start image imageSize) with
    | .error e => .error e
    | .ok (s, ctx, rc) =>
        if rc ≠ 0 then .ok (s, none)
        else
          let (ws, rc) := applyRelocations address ctx
          let s := { s with mem := relocated s.mem ws }
          if rc ≠ 0 then .ok (s, none)
          else .ok (s, (findLoadedSymbol address ctx "sdi_driver").map fun symbol => (ctx, symbol))

end Kheap

namespace Elf

-- ==== images

/-- An image by its numbers: where, how many bytes, and which. -/
def imageOf (fields : List (Nat × Nat × Nat)) : Memory :=
  fields.foldl (fun m f => Bytes.store m f.1 f.2.1 f.2.2) fun _ => 0

/-- The header of an object file whose section headers are behind it. -/
def ehdrFields (shnum : Nat) : List (Nat × Nat × Nat) :=
  [(0, 7, 0x0101_02_46_4c_45_7f), (16, 2, ET_REL), (18, 2, EM_X86_64), (20, 4, EV_CURRENT),
    (40, 8, sizeofEhdr), (52, 2, sizeofEhdr), (58, 2, sizeofShdr), (60, 2, shnum)]

/-- Section header `i`. -/
def shdrFields (i type flags offset size link info align entsize : Nat) :
    List (Nat × Nat × Nat) :=
  let a := sizeofEhdr + i * sizeofShdr
  [(a + 4, 4, type), (a + 8, 8, flags), (a + 24, 8, offset), (a + 32, 8, size), (a + 40, 4, link),
    (a + 44, 4, info), (a + 48, 8, align), (a + 56, 8, entsize)]

end Elf

end Alix
