/-
The symbol table of the kernel, `debug/kallsyms.c`.

The table is generated from the output of `nm -n`, which is in the order
of the addresses. The lookup runs while the kernel panics, over any
address that is found on the stack. An entry is returned as its index. The
loop carries the proof that it stays in the table, so it reads no entry
that is not there; `lo`, `hi` and `mid` are at most `kallsyms_count` and do
not wrap.
-/
import Mathlib.Data.BitVec

namespace Alix

/-- `struct kallsyms_entry`. -/
structure KallsymsEntry where
  addr : BitVec 64
  size : BitVec 64
  name : String
deriving DecidableEq, Repr

/-- `kallsyms`, as the build emits it: sorted by address, where several
symbols may have one address. -/
structure Kallsyms where
  table : Array KallsymsEntry
  sorted : table.toList.Pairwise fun a b => a.addr ≤ b.addr

/-- The loop of `kallsyms_lookup`. -/
def kallsymsLoop (table : Array KallsymsEntry) (addr : BitVec 64) (lo hi : Nat)
    (hbound : hi ≤ table.size) (best : Option (Fin table.size)) : Option (Fin table.size) :=
  if h : lo < hi then
    let mid := lo + (hi - lo) / 2
    have hmid : mid < table.size := by omega
    let sym := table[mid]
    if sym.addr ≤ addr then kallsymsLoop table addr (mid + 1) hi hbound (some ⟨mid, hmid⟩)
    else kallsymsLoop table addr lo mid (Nat.le_of_lt hmid) best
  else best
termination_by hi - lo

/-- `kallsyms_lookup`. `offset` is what the pointer of that name points to,
before the call and after it, if it is not null. -/
def kallsymsLookup (table : Array KallsymsEntry) (addr : BitVec 64)
    (offset : Option (BitVec 64)) : Option (Fin table.size) × Option (BitVec 64) :=
  match kallsymsLoop table addr 0 table.size (Nat.le_refl _) none with
  | none => (none, offset)
  | some best => (some best, offset.map fun _ => addr - table[best].addr)

/-- The entry that the lookup points to. -/
def entryAt (table : Array KallsymsEntry) (best : Fin table.size) : KallsymsEntry :=
  table[best]

end Alix
