/-
The walk over the MADT, `acpi/madt.c`.

Memory is bytes, and a pointer into the table is a number; a structure is
registered by its pointer. The four arrays and their counts are lists
(`MadtArray`), which the one macro `MADT_HANDLE_STRUCT` fills. What
`acpi_get_table` finds comes with the call. The log is left out; the
entries whose `addr` is taken as the base of the local APIC are kept in
`overrides`.

The loop has a fuel and answers nothing when it runs out.
-/
import Alix.Lib.Bytes
import Mathlib.Logic.Function.Basic

namespace Alix.Madt

open Bytes (Memory load)

-- ==== constants

abbrev MAX_CPUS : Nat := 256

abbrev MADT_LAPIC : Nat := 0x00
abbrev MADT_IOAPIC : Nat := 0x01
abbrev MADT_ISO : Nat := 0x02
abbrev MADT_LAPIC_NMI : Nat := 0x04
abbrev MADT_LAPIC_OVERRIDE : Nat := 0x05

/-- `sizeof(madt_header_t)`: `type` and `len` are at 0 and 1. -/
abbrev sizeofMadtHeader : Nat := 2

/-- `sizeof(madt_lapic_override_t)`: `addr` is at 4. -/
abbrev sizeofLapicOverride : Nat := 12

/-- `sizeof(madt_t)`: `hdr.length`, `lapic_addr` and `flags` are at 4, 36
and 40, and `structures` comes behind them. -/
abbrev sizeofMadt : Nat := 44

-- ==== the state

/-- The arrays of registered structures. -/
inductive MadtArray where
  | lapics
  | ioapics
  | isos
  | nmis
deriving DecidableEq, Repr

namespace MadtArray

/-- The type of the entries that go into an array. -/
def type : MadtArray → Nat
  | lapics => MADT_LAPIC
  | ioapics => MADT_IOAPIC
  | isos => MADT_ISO
  | nmis => MADT_LAPIC_NMI

/-- `ARRAY_LEN` of an array. -/
def limit : MadtArray → Nat
  | lapics => MAX_CPUS
  | ioapics => MAX_CPUS
  | isos => 16
  | nmis => 224

/-- `sizeof` of the structure that an entry is read through. -/
def size : MadtArray → Nat
  | lapics => 8
  | ioapics => 12
  | isos => 10
  | nmis => 6

end MadtArray

/-- The variables of `madt.c`, and the ports written. -/
structure Statics where
  madt : Option Nat
  lapicBase : Nat
  arrays : MadtArray → List Nat
  overrides : List Nat
  outb : List (Nat × Nat)

/-- Before the only call of `madt_init`. -/
def Statics.init : Statics := ⟨none, 0, fun _ => [], [], []⟩

-- ==== the walk

/-- `MADT_BOUNDED_APPEND`. -/
def boundedAppend (array : List Nat) (limit item : Nat) : List Nat :=
  if array.length < limit then array ++ [item] else array

/-- `MADT_HANDLE_STRUCT`. -/
def handleStruct (s : Statics) (a : MadtArray) (entry : Nat) : Statics :=
  { s with arrays := Function.update s.arrays a (boundedAppend (s.arrays a) a.limit entry) }

/-- The switch on the type of an entry. -/
def handleEntry (m : Memory) (s : Statics) (entry : Nat) : Statics :=
  let type := load m entry 1
  if type = MADT_LAPIC then handleStruct s .lapics entry
  else if type = MADT_IOAPIC then handleStruct s .ioapics entry
  else if type = MADT_ISO then handleStruct s .isos entry
  else if type = MADT_LAPIC_NMI then handleStruct s .nmis entry
  else if type = MADT_LAPIC_OVERRIDE then
    { s with lapicBase := load m (entry + 4) 8, overrides := s.overrides ++ [entry] }
  else s

/-- The loop of `madt_init`. -/
def madtLoop (m : Memory) (stop : Nat) : Nat → Nat → Statics → Option Statics
  | 0, _, _ => none
  | fuel + 1, entry, s =>
      if ¬ entry + sizeofMadtHeader ≤ stop then some s
      else
        let len := load m (entry + 1) 1
        if len < sizeofMadtHeader ∨ entry + len > stop then some s
        else madtLoop m stop fuel (entry + len) (handleEntry m s entry)

/-- `madt_init`; the error is the panic. -/
def madtInit (m : Memory) (fuel : Nat) (s : Statics) (table : Option Nat) :
    Option (Except String Statics) :=
  match table with
  | none => some (.error "MADT not found, cant continue without APIC support")
  | some madt =>
      let s := { s with madt := some madt }
      let s :=
        if load m (madt + 40) 4 % 2 = 1 then
          { s with outb := s.outb ++ [(0x21, 0xff), (0xa1, 0xff)] }
        else s
      let s := { s with lapicBase := load m (madt + 36) 4 }
      (madtLoop m (madt + load m (madt + 4) 4) fuel (madt + sizeofMadt) s).map .ok

end Alix.Madt
