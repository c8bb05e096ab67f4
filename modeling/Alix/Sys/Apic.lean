/-
The I/O APICs, `sys/apic.c`, and `irq_install` of `cpu/idt.c`.

A controller is a selector and its registers, of 32 bits each; the version
register can only be read, and every other one reads back what was written
(`Chip`). The accesses of `ioapic_read` and `ioapic_write` are at a base,
and the controller that answers is the one at that base. They are kept in
`log`, oldest first. A register number is a byte, so `IOAPICREDTBLL(n)` is
cut to eight bits.

Of the local APIC there are the base and the writes, and of the page
tables the mappings that are asked for. The handler table that
`irq_install` also fills is in `Host.lean`. What is logged is left out.
-/
import Mathlib.Data.BitVec
import Mathlib.Logic.Function.Basic

namespace Alix

namespace Apic

-- ==== constants

abbrev IOAPICVER : BitVec 8 := 1#8

abbrev IRQ_BASE : Nat := 0x20

abbrev IOAPIC_FIXED : BitVec 8 := 0#8
abbrev IOAPIC_PHYSICAL_DESTINATION : BitVec 1 := 0#1
abbrev IOAPIC_ACTIVE_HI : BitVec 8 := 0#8
abbrev IOAPIC_ACTIVE_LO : BitVec 1 := 1#1
abbrev IOAPIC_TRIGGER_EDGE : BitVec 8 := 0#8
abbrev IOAPIC_TRIGGER_LEVEL : BitVec 1 := 1#1

abbrev SPURIOUS_VECTOR : BitVec 32 := 0xff#32
abbrev APIC_LVT_DISABLE : BitVec 32 := 0x10000#32

/-- `enum apic_regs`, the ones that `apic_cpu_init` writes. -/
abbrev APIC_TPR : BitVec 16 := 0x80#16
abbrev APIC_LOCAL_DEST : BitVec 16 := 0xd0#16
abbrev APIC_DEST_FORMAT : BitVec 16 := 0xe0#16
abbrev APIC_SPURIOUS_IVR : BitVec 16 := 0xf0#16
abbrev APIC_ERROR_STATUS : BitVec 16 := 0x280#16

/-- `APIC_LVT_REGS`. -/
def APIC_LVT_REGS : List (BitVec 16) := [0x320#16, 0x330#16, 0x340#16, 0x350#16, 0x360#16, 0x370#16]

/-- `IOAPICREDTBLL`. -/
def IOAPICREDTBLL (n : BitVec 32) : BitVec 8 := (0x10#32 + 2#32 * n).setWidth 8

/-- `IOAPICREDTBLH`. -/
def IOAPICREDTBLH (n : BitVec 32) : BitVec 8 := (0x10#32 + 2#32 * n + 1#32).setWidth 8

end Apic

-- ==== data model

/-- `madt_ioapic_t`, the fields that are read. -/
structure MadtIoapic where
  addr : BitVec 32
  gsiBase : BitVec 32
deriving DecidableEq, Repr

/-- `madt_iso_t`, the fields that are read. -/
structure MadtIso where
  src : BitVec 8
  gsi : BitVec 32
  flags : BitVec 16
deriving DecidableEq, Repr

/-- A controller: what was last written to `IOREGSEL`, and the registers
behind `IOWIN`. -/
structure Chip where
  regsel : BitVec 8
  reg : BitVec 8 → BitVec 32

/-- A read or a write of a register. -/
inductive Access where
  | read (base : BitVec 64) (reg : BitVec 8)
  | write (base : BitVec 64) (reg : BitVec 8) (data : BitVec 32)
deriving DecidableEq, Repr

/-- `union ioapic_redirect_entry`. -/
structure Redent where
  vec : BitVec 8
  deliveryMode : BitVec 3
  destinationMode : BitVec 1
  deliveryStatus : BitVec 1
  pinPolarity : BitVec 1
  remoteIrr : BitVec 1
  triggerMode : BitVec 1
  mask : BitVec 1
  reserved : BitVec 39
  dest : BitVec 8

namespace Redent

/-- The fields in their order, the first one lowest. -/
def bits (e : Redent) : BitVec 64 :=
  e.dest ++ e.reserved ++ e.mask ++ e.triggerMode ++ e.remoteIrr ++ e.pinPolarity
    ++ e.deliveryStatus ++ e.destinationMode ++ e.deliveryMode ++ e.vec

/-- `bytes.low`. -/
def low (e : Redent) : BitVec 32 := e.bits.extractLsb' 0 32

/-- `bytes.high`. -/
def high (e : Redent) : BitVec 32 := e.bits.extractLsb' 32 32

end Redent

/-- What the MADT has registered, and the machine. -/
structure Apic where
  ioapics : List MadtIoapic
  isos : List MadtIso
  hhdm : BitVec 64
  chips : BitVec 64 → Chip
  log : List Access
  lapicBase : BitVec 64
  lapicWrites : List (BitVec 64 × BitVec 32)
  /-- the register `APIC_BASE_MSR` -/
  baseMsr : BitVec 64
  mapped : List (BitVec 64 × BitVec 64)

namespace Apic

-- ==== the registers

/-- `PHYS_TO_VIRT` of the address of a controller. -/
def baseOf (s : Apic) (io : MadtIoapic) : BitVec 64 := io.addr.setWidth 64 + s.hhdm

/-- `mmio_write32(base + IOREGSEL, regoff)`. -/
def select (s : Apic) (base : BitVec 64) (regoff : BitVec 8) : Apic :=
  { s with chips := Function.update s.chips base { s.chips base with regsel := regoff } }

/-- `ioapic_read`. -/
def ioapicRead (s : Apic) (base : BitVec 64) (regoff : BitVec 8) : Apic × BitVec 32 :=
  let s := { s.select base regoff with log := s.log ++ [Access.read base regoff] }
  (s, (s.chips base).reg (s.chips base).regsel)

/-- `mmio_write32(base + IOWIN, data)`. -/
def writeWindow (s : Apic) (base : BitVec 64) (data : BitVec 32) : Apic :=
  let c := s.chips base
  if c.regsel = IOAPICVER then s
  else
    { s with
      chips := Function.update s.chips base
        { c with reg := Function.update c.reg c.regsel data } }

/-- `ioapic_write`. -/
def ioapicWrite (s : Apic) (base : BitVec 64) (regoff : BitVec 8) (data : BitVec 32) : Apic :=
  let s := { s.select base regoff with log := s.log ++ [Access.write base regoff data] }
  s.writeWindow base data

/-- The field of the version register that bounds the redirection loops. -/
def maxreds (version : BitVec 32) : BitVec 8 := (version >>> 16).setWidth 8

-- ==== the redirection

/-- The search for the controller of a GSI, the same loop in
`ioapic_write_red` and in `ioapic_set_irq_mask`. -/
def searchIoapic (gsi : BitVec 32) : List MadtIoapic → Apic → Apic × Option MadtIoapic
  | [], s => (s, none)
  | io :: ioapics, s =>
      let (s, version) := s.ioapicRead (s.baseOf io) IOAPICVER
      let maxreds := maxreds version
      if io.gsiBase ≤ gsi ∧ io.gsiBase + maxreds.setWidth 32 > gsi then (s, some io)
      else searchIoapic gsi ioapics s

/-- `ioapic_write_red`. -/
def ioapicWriteRed (s : Apic) (gsi : BitVec 32) (vec deliveryMode polarity triggerMode
    dest : BitVec 8) : Apic :=
  let redent : Redent :=
    { vec
      deliveryMode := deliveryMode.setWidth 3
      destinationMode := IOAPIC_PHYSICAL_DESTINATION
      deliveryStatus := 0
      pinPolarity := polarity.setWidth 1
      remoteIrr := 0
      triggerMode := triggerMode.setWidth 1
      mask := 0
      reserved := 0
      dest }
  -- `vec - IRQ_BASE` is an `int`
  let iso := s.isos.find? fun iso => (vec.toNat : Int) - IRQ_BASE == (iso.src.toNat : Int)
  let (gsi, redent) :=
    match iso with
    | none => (gsi, redent)
    | some iso =>
        let redent :=
          if iso.flags &&& 2 ≠ 0 then { redent with pinPolarity := IOAPIC_ACTIVE_LO } else redent
        let redent :=
          if iso.flags &&& 8 ≠ 0 then { redent with triggerMode := IOAPIC_TRIGGER_LEVEL }
          else redent
        (iso.gsi, redent)
  match searchIoapic gsi s.ioapics s with
  | (s, none) => s
  | (s, some io) =>
      let base := s.baseOf io
      let pin := gsi - io.gsiBase
      let s := s.ioapicWrite base (IOAPICREDTBLL pin) redent.low
      s.ioapicWrite base (IOAPICREDTBLH pin) redent.high

/-- `ioapic_gsi_for_irq`. -/
def ioapicGsiForIrq (s : Apic) (irq : BitVec 8) : BitVec 32 :=
  match s.isos.find? fun iso => iso.src == irq with
  | some iso => iso.gsi
  | none => irq.setWidth 32

/-- `ioapic_set_irq_mask`. -/
def ioapicSetIrqMask (s : Apic) (irq : BitVec 8) (masked : Bool) : Apic × Int :=
  if irq ≥ 16 then (s, -1)
  else
    let gsi := s.ioapicGsiForIrq irq
    match searchIoapic gsi s.ioapics s with
    | (s, none) => (s, -1)
    | (s, some io) =>
        let base := s.baseOf io
        let pin := gsi - io.gsiBase
        let (s, low) := s.ioapicRead base (IOAPICREDTBLL pin)
        let low := if masked then low ||| 0x10000#32 else low &&& ~~~0x10000#32
        (s.ioapicWrite base (IOAPICREDTBLL pin) low, 0)

/-- `irq_install`. -/
def irqInstall (s : Apic) (irq lapicId : BitVec 8) : Apic :=
  if irq ≥ 16 then s
  else
    s.ioapicWriteRed (irq.setWidth 32) (BitVec.ofNat 8 IRQ_BASE + irq) IOAPIC_FIXED IOAPIC_ACTIVE_HI
      IOAPIC_TRIGGER_EDGE lapicId

-- ==== initialisation

/-- `lapic_write`. -/
def lapicWrite (s : Apic) (reg : BitVec 16) (val : BitVec 32) : Apic :=
  { s with lapicWrites := s.lapicWrites ++ [(s.lapicBase + reg.setWidth 64, val)] }

/-- `apic_cpu_init`. -/
def apicCpuInit (s : Apic) (cpuIndex : BitVec 8) : Apic :=
  let s := { s with baseMsr := (s.baseMsr ||| 1#64 <<< 11) &&& ~~~(1#64 <<< 10) }
  let s := s.lapicWrite APIC_SPURIOUS_IVR (1#32 <<< 8 ||| SPURIOUS_VECTOR)
  let s := s.lapicWrite APIC_DEST_FORMAT 0xffffffff#32
  let s := s.lapicWrite APIC_LOCAL_DEST
    (if cpuIndex < 8 then (1#32 <<< cpuIndex.toNat) <<< 24 else 0)
  let s := APIC_LVT_REGS.foldl (fun s reg => s.lapicWrite reg APIC_LVT_DISABLE) s
  let s := s.lapicWrite APIC_TPR 0
  s.lapicWrite APIC_ERROR_STATUS 0

/-- `paging_map_page`, as a request. -/
def pagingMapPage (s : Apic) (virt phys : BitVec 64) : Apic :=
  { s with mapped := s.mapped ++ [(virt, phys)] }

/-- The loop over the redirection entries of a controller. -/
def maskEntries (base : BitVec 64) (maxreds : Nat) (s : Apic) : Apic :=
  (List.range maxreds).foldl (fun s n =>
    let n := BitVec.ofNat 32 n
    (s.ioapicWrite base (IOAPICREDTBLL n) 0x10000#32).ioapicWrite base (IOAPICREDTBLH n) 0) s

/-- A round of the loop over the controllers. -/
def initIoapic (s : Apic) (io : MadtIoapic) : Apic :=
  let base := s.baseOf io
  let s := s.pagingMapPage base (io.addr.setWidth 64)
  let (s, version) := s.ioapicRead base IOAPICVER
  s.maskEntries base (maxreds version).toNat

/-- `apic_init`. -/
def apicInit (s : Apic) : Apic :=
  let lapicVirt := s.lapicBase + s.hhdm
  let s := s.pagingMapPage lapicVirt s.lapicBase
  let s := { s with lapicBase := lapicVirt }
  let s := s.apicCpuInit 0
  s.ioapics.foldl initIoapic s

end Apic

end Alix
