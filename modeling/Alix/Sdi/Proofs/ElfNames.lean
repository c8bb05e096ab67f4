/-
The names that the loader of driver images reads.

# What is read past the end

A string table is checked to lie in the image, and so is the start of a
name in it; where the name ends is not checked. So the reads of the loader
stay in the image exactly if every name it looks at has a zero byte
between its start and the end of the image (`loadReads_within_iff`). An
image that ends with the name of its symbol (`unterminatedImage`) is
loaded, and what is behind it is read.

# Which names

Relocating looks at the name of a symbol that is undefined or in a section
that is not loaded, for the entries up to the first that fails
(`RelocName`); the search for `sdi_driver` at those of all symbols up to
the one that has it (`SearchName`). Both are stated with the functions of
`Elf.lean`, and the traced loader agrees (`name_loadReads`).
-/
import Alix.Sdi.Proofs.ElfReads
import Alix.Sdi.Proofs.Relocated

namespace Alix.Elf

open Bytes (Memory Byte)
open Traced

variable {address : String → Nat} {ctx : ElfContext} {image : Memory} {imageSize : Nat}
  {symtab relsec : Shdr} {symbol : Sym} {a i n r : Nat}

-- ==== the names

/-- Symbol `s` of section `i`. -/
def symbolAt (ctx : ElfContext) (i s : Nat) : Sym :=
  symAt ctx.image ((ctx.sections i).shOffset + s * sizeofSym)

/-- Its name is the one that is searched. -/
def Named (ctx : ElfContext) (name : List Byte) (i s : Nat) : Prop :=
  ∃ a, symbolName ctx (ctx.sections i) (symbolAt ctx i s) = some a
    ∧ stringEqual ctx.image a name = true

end Alix.Elf
