/-
Starting the other processors: `cpu/smp.c`, with `idt_init` of `cpu/idt.c`
and `gdt_init_cpu` of `cpu/gdt.c`, which each of them calls.

The processors share one interrupt descriptor table, and each fills it in
again, field by field, while the others already use it. So the stores of
`idt_set_desc` are operations of their own here. Everything else a processor
does before it goes online concerns itself: its registers, its slot of
`cpu_gdt`, its idle thread. The first loop of `smp_init` runs before any of
them is let go; the state starts behind it.

A processor is its position in the answer of the boot loader, and a
`struct cpu_info *` is the position in `cpu_infos`. Of the registers there are
those this code loads; loading FS with a selector clears its base. What
`apic_cpu_init` and `timer_init` do is elsewhere, and the log is left out. A
processor that panics does nothing any more.
-/
import Alix.Lib.Parallel
import Mathlib.Data.BitVec

namespace Alix.Smp

open Parallel (System State)

abbrev MAX_CPUS : Nat := 256

-- ==== the tables

/-- The fields of `idt_entry_t`. -/
inductive GateField where
  | baseLow | codeseg | ist | flags | baseMid | baseHigh | reserved
deriving DecidableEq

/-- A table of gates. -/
abbrev Idt : Type := Nat → GateField → Nat

/-- A store into a field of a gate. -/
structure Store where
  vector : Nat
  field : GateField
  value : Nat
deriving DecidableEq

def Store.apply (st : Store) (idt : Idt) : Idt :=
  Function.update idt st.vector (Function.update (idt st.vector) st.field st.value)

abbrev IDT_TRAP : Nat := 0xf
abbrev IDT_INTERRUPT : Nat := 0xe

/-- `idt_set_desc`. -/
def idtSetDesc (vector offset type dpl : Nat) : List Store :=
  [⟨vector, .baseLow, offset % 2 ^ 16⟩,
    ⟨vector, .codeseg, 0x08⟩,
    ⟨vector, .ist, 0⟩,
    ⟨vector, .flags, (1 <<< 7 ||| dpl <<< 5 ||| type) % 2 ^ 8⟩,
    ⟨vector, .baseMid, offset / 2 ^ 16 % 2 ^ 16⟩,
    ⟨vector, .baseHigh, offset / 2 ^ 32 % 2 ^ 32⟩,
    ⟨vector, .reserved, 0⟩]

/-- `idt_desc_base`. -/
def idtDescBase (gate : GateField → Nat) : Nat :=
  gate .baseLow ||| gate .baseMid <<< 16 ||| gate .baseHigh <<< 32

/-- The stores of `idt_init`: the exceptions, the other vectors, and the
system call again. -/
def idtInit (isrStubs : Nat → Nat) : List Store :=
  (List.range 32).flatMap (fun v => idtSetDesc v (isrStubs v) IDT_TRAP 0)
    ++ (List.range' 32 224).flatMap (fun v => idtSetDesc v (isrStubs v) IDT_INTERRUPT 0)
    ++ idtSetDesc 0x80 (isrStubs 0x80) IDT_TRAP 3

/-- `_ENTRY`, as the eight bytes of the descriptor. -/
def entry (base limit access flags : BitVec 32) : BitVec 64 :=
  (limit &&& 0xffff).setWidth 64
    ||| (base &&& 0xffff).setWidth 64 <<< 16
    ||| (base >>> 16 &&& 0xff).setWidth 64 <<< 32
    ||| (access &&& 0xff).setWidth 64 <<< 40
    ||| ((limit >>> 16 &&& 0x0f) ||| (flags &&& 0xf0)).setWidth 64 <<< 48
    ||| (base >>> 24 &&& 0xff).setWidth 64 <<< 56

/-- `gdt_template`. -/
def gdtTemplate : List (BitVec 64) :=
  [entry 0 0 0 0,
    entry 0 0xfffff 0b10011010 0b10100000,
    entry 0 0xfffff 0b10010010 0b10000000,
    entry 0 0xfffff 0b11111010 0b10100000,
    entry 0 0xfffff 0b11110010 0b10000000,
    entry 0 0 0 0,
    entry 0 0 0 0]

-- ==== the state

/-- What the boot loader says about a processor. -/
structure MpInfo where
  processorId : Nat
  lapicId : Nat

/-- `struct limine_mp_response`. -/
structure MpResponse where
  cpuCount : Nat
  cpus : Nat → MpInfo
  bspLapicId : Nat

/-- `struct cpu_info`, without what the scheduler keeps in it. -/
structure CpuInfo where
  index : Nat
  processorId : Nat
  lapicId : Nat
  isBsp : Bool
  online : Bool

/-- The address spaces of this phase. -/
inductive Space where
  | loader
  | kernel
deriving DecidableEq

/-- The registers of a processor: `gdtr` is a slot of `cpu_gdt`, `fsBase` a
position in `cpu_infos`, and `idtr` whether the table is loaded. -/
structure Regs where
  cr3 : Space
  gdtr : Option Nat
  cs : Nat
  ds : Nat
  fsBase : Option Nat
  idtr : Bool
deriving DecidableEq

/-- What all processors see; `extraArgument` and `gotoAddress` are fields of the
`limine_mp_info` at that position. -/
structure Shared where
  infos : Nat → CpuInfo
  idleThread : Nat → Bool
  extraArgument : Nat → Nat
  gotoAddress : Nat → Bool
  gdt : Nat → List (BitVec 64)
  idt : Idt
  regs : Nat → Regs

-- ==== the programs

inductive Op where
  /-- `vas_switch(kernel_vas)` -/
  | vasSwitch
  /-- `gdt_init_cpu(cpu->index)` -/
  | gdtInitCpu (cpu : Nat)
  | cpuSetCurrent (cpu : Nat)
  /-- a store of `idt_init` -/
  | idt (st : Store)
  | lidt
  | schedInit
  /-- `atomic_store(&cpu->online, 1)` -/
  | online (cpu : Nat)
  /-- `atomic_store(&cpu->mp_info->goto_address, smp_ap_entry)` -/
  | goto (cpu : Nat)
  /-- the loop of `smp_wait_all_online` for one processor -/
  | wait (cpu : Nat)
deriving DecidableEq

/-- `smp_ap_entry`. -/
def smpApEntry (isrStubs : Nat → Nat) (cpu : Nat) : List Op :=
  [.vasSwitch, .gdtInitCpu cpu, .cpuSetCurrent cpu] ++ (idtInit isrStubs).map .idt
    ++ [.lidt, .schedInit, .online cpu]

variable (r : MpResponse)

/-- `smp_cpu_count`. -/
def smpCpuCount : Nat := if r.cpuCount > MAX_CPUS then MAX_CPUS else r.cpuCount

/-- The first loop of `smp_init`. -/
def smpInfos (i : Nat) : CpuInfo :=
  if i < smpCpuCount r then
    let info := r.cpus i
    let isBsp := info.lapicId == r.bspLapicId
    ⟨i, info.processorId, info.lapicId, isBsp, isBsp⟩
  else ⟨0, 0, 0, false, false⟩

/-- The second loop of `smp_init`, and what `kmain` does then that concerns the
other processors. -/
def kmain : List Op :=
  (List.range (smpCpuCount r)).map
      (fun i => if (smpInfos r i).isBsp then .cpuSetCurrent i else .goto i)
    ++ [.schedInit] ++ (List.range (smpCpuCount r)).map .wait

/-- The slot of `gdt_init_cpu`. -/
def gdtSlot (cpuIndex : Nat) : Nat := if cpuIndex ≥ MAX_CPUS then 0 else cpuIndex

/-- Change the registers of a processor. -/
def Shared.modRegs (x : Shared) (c : Nat) (f : Regs → Regs) : Shared :=
  { x with regs := Function.update x.regs c (f (x.regs c)) }

/-- An operation of processor `c`; nothing where it waits or has panicked. -/
def exec (c : Nat) (op : Op) (x : Shared) : Option Shared :=
  match op with
  | .vasSwitch => some (x.modRegs c fun g => { g with cr3 := .kernel })
  | .gdtInitCpu p =>
      let slot := gdtSlot (x.infos p).index
      some ({ x with gdt := Function.update x.gdt slot gdtTemplate }.modRegs c
        fun g => { g with gdtr := some slot, cs := 0x08, ds := 0x10, fsBase := none })
  | .cpuSetCurrent p => some (x.modRegs c fun g => { g with fsBase := some p })
  | .idt st => some { x with idt := st.apply x.idt }
  | .lidt => some (x.modRegs c fun g => { g with idtr := true })
  | .schedInit =>
      match (x.regs c).fsBase with
      -- "sched: no current CPU"
      | none => none
      | some p =>
          if x.idleThread p then some x
          else some { x with idleThread := Function.update x.idleThread p true }
  | .online p =>
      some { x with infos := Function.update x.infos p { x.infos p with online := true } }
  | .goto p => some { x with gotoAddress := Function.update x.gotoAddress p true }
  | .wait p => if (x.infos p).online then some x else none

/-- A processor that waits for its `goto_address` goes to `smp_ap_entry`. -/
def enter (isrStubs : Nat → Nat) (c : Nat) (x : Shared) : Option (List Op) :=
  if x.gotoAddress c then some (smpApEntry isrStubs (x.extraArgument c)) else none

def smp (isrStubs : Nat → Nat) : System Nat Op Shared := ⟨exec, enter isrStubs⟩

/-- The registers as the boot loader leaves them. -/
def loaderRegs : Regs := ⟨.loader, none, 0, 0, none, false⟩

/-- Those of the processor that booted, which has called `gdt_init`, `idt_init`
and `paging_init`. -/
def bspRegs : Regs := ⟨.kernel, some 0, 0x08, 0x10, none, true⟩

/-- The table after the first `idt_init`. -/
def bootIdt (isrStubs : Nat → Nat) : Idt :=
  (idtInit isrStubs).foldl (fun idt st => st.apply idt) fun _ _ => 0

/-- Processor `bsp` is behind the first loop of `smp_init`. -/
def start (isrStubs : Nat → Nat) (bsp : Nat) : State Nat Op Shared where
  shared :=
    { infos := smpInfos r
      idleThread := fun _ => false
      extraArgument := fun c => if c < smpCpuCount r then c else 0
      gotoAddress := fun _ => false
      gdt := Function.update (fun _ => []) 0 gdtTemplate
      idt := bootIdt isrStubs
      regs := Function.update (fun _ => loaderRegs) bsp bspRegs }
  rest := Function.update (fun _ => none) bsp (some (kmain r))

end Alix.Smp
