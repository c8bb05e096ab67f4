/-
The report of a panic, `debug/panic.c`.

A report is the calls of `klog_ns_force` that `vkpanic` makes, each with
its format and arguments; the log makes records of them (`Line.draft`).
The walk over the stack frames reads words at addresses it finds, and
`load` gives none where nothing is mapped. Then the read faults, the
handler panics and waits for `panic_lock`, and the report ends there: the
second value says whether the end was reached.
-/
import Alix.Cpu.Isr
import Alix.Debug.Kallsyms
import Alix.Log.Klog

namespace Alix.Debug

open Klib X86 Cpu Log

/-- An argument. -/
inductive Arg where
  | num (v : Word)
  | str (s : List UInt8)

/-- The arguments in their slots. The string in slot `n` is at address
`n + 1`. -/
def argList (as : List Arg) : Args where
  slot n :=
    match as[n]? with
    | some (.num v) => v
    | some (.str _) => BitVec.ofNat 64 (n + 1)
    | none => 0
  str p :=
    match as[p.toNat - 1]? with
    | some (.str s) => s
    | some (.num _) | none => []

/-- A call of `klog_ns_force("panic", ...)`. -/
structure Line where
  fmt : List UInt8
  args : List Arg

/-- What is printed. -/
def Line.text (l : Line) : List UInt8 :=
  (formatLoop (argList l.args) l.fmt.length l.fmt ([] : List UInt8) 0).1

/-- What the log makes of it. -/
def Line.draft (junk : Nat → UInt8) (now : BitVec 64) (l : Line) : Draft :=
  kvlogWriteImpl junk now (some (chars "panic")) (some l.fmt) (argList l.args)

/-- What `panic_log_addr` and `panic_log_trace` do behind what stands in
front of the address. -/
def logSymbol (table : Array KallsymsEntry) (front : List UInt8) (arg : Arg) (addr : Word) : Line :=
  match kallsymsLookup table addr (some 0) with
  | (some best, offset) =>
      let sym := entryAt table best
      if sym.size ≠ 0 then
        { fmt := front ++ chars "[<%016llx>] %s+0x%llx/0x%llx"
          args := [arg, .num addr, .str (chars sym.name), .num (offset.getD 0), .num sym.size] }
      else
        { fmt := front ++ chars "[<%016llx>] %s+0x%llx"
          args := [arg, .num addr, .str (chars sym.name), .num (offset.getD 0)] }
  | (none, _) => { fmt := front ++ chars "[<%016llx>]", args := [arg, .num addr] }

/-- `panic_log_addr`. -/
def panicLogAddr (table : Array KallsymsEntry) (label : List UInt8) (addr : Word) : Line :=
  logSymbol table (chars "%s") (.str label) addr

/-- `panic_log_trace`. -/
def panicLogTrace (table : Array KallsymsEntry) (depth : Nat) (addr : Word) : Line :=
  logSymbol table (chars "  #%zu ") (.num (BitVec.ofNat 64 depth)) addr

/-- `panic_log_message`. -/
def panicLogMessage (junk : Nat → UInt8) (fmt : Option (List UInt8)) (ap : Args) : Line :=
  let msg := CString.read KLOG_MSG_MAX klogMsgMax_pos (kvsnprintf ap junk KLOG_MSG_MAX fmt).1
  { fmt := chars "Kernel panic: %s", args := [.str msg.bytes] }

-- ==== the backtrace

variable (load : Word → Option Word)

/-- `panic_frame_is_sane`. It reads the frame before it looks at the
address. -/
def panicFrameIsSane (frame prev : Word) : Option Bool :=
  (load frame).map fun next =>
    if frame = 0 then false
    else if frame &&& 0xf ≠ 0 then false
    else if next ≤ frame then false
    else if prev ≠ 0 ∧ next ≤ prev then false
    else if next = 0 ∨ next &&& 0xf ≠ 0 then false
    else true

/-- `panic_backtrace_limit`. -/
abbrev PANIC_BACKTRACE_LIMIT : Nat := 16

/-- The loop of `panic_dump_backtrace`, with the rounds that are left: the
addresses that are logged, with their depths, and whether it comes to its
end. -/
def panicWalk : Nat → Nat → Word → Word → List (Word × Nat) × Bool
  | 0, _, _, _ => ([], true)
  | rounds + 1, depth, frame, prev =>
      if frame = 0 then ([], true)
      else
        match panicFrameIsSane load frame prev with
        | none => ([], false)
        | some false => ([], true)
        | some true =>
            match load (frame + 8) with
            | none => ([], false)
            | some retAddr =>
                if retAddr = 0 then ([], true)
                else
                  match load frame with
                  | none => ([(retAddr, depth)], false)
                  | some next =>
                      let rest := panicWalk rounds (depth + 1) next frame
                      ((retAddr, depth) :: rest.1, rest.2)

/-- `panic_dump_backtrace`. -/
def panicDumpBacktrace (table : Array KallsymsEntry) (regs : Option InterruptFrame) :
    List Line × Bool :=
  let head : Line := { fmt := chars "Call Trace:", args := [] }
  match regs with
  | none => ([head], true)
  | some regs =>
      let walk := panicWalk load (PANIC_BACKTRACE_LIMIT - 1) 1 (regs.gpr .rbp) 0
      (head :: panicLogTrace table 0 regs.rip
        :: walk.1.map (fun p => panicLogTrace table p.2 p.1), walk.2)

-- ==== the report

/-- `panic_dump_regs`. -/
def panicDumpRegs (table : Array KallsymsEntry) : Option InterruptFrame → List Line
  | none => []
  | some regs =>
      [{ fmt := chars "RAX: %016llx  RBX: %016llx  RCX: %016llx  RDX: %016llx"
         args := [.num (regs.gpr .rax), .num (regs.gpr .rbx), .num (regs.gpr .rcx),
           .num (regs.gpr .rdx)] },
        { fmt := chars "RSI: %016llx  RDI: %016llx  RBP: %016llx  RSP: %016llx"
          args := [.num (regs.gpr .rsi), .num (regs.gpr .rdi), .num (regs.gpr .rbp),
            .num (regs.gpr .rsp)] },
        { fmt := chars "R8:  %016llx  R9:  %016llx  R10: %016llx  R11: %016llx"
          args := [.num (regs.gpr .r8), .num (regs.gpr .r9), .num (regs.gpr .r10),
            .num (regs.gpr .r11)] },
        { fmt := chars "R12: %016llx  R13: %016llx  R14: %016llx  R15: %016llx"
          args := [.num (regs.gpr .r12), .num (regs.gpr .r13), .num (regs.gpr .r14),
            .num (regs.gpr .r15)] },
        { fmt := chars "CS:  %016llx  SS:  %016llx  DS:  %016llx  ES:  %016llx"
          args := [.num regs.cs, .num regs.ss, .num regs.ds, .num regs.es] },
        { fmt := chars "CR0: %016llx  CR2: %016llx  CR3: %016llx  CR4: %016llx"
          args := [.num (regs.cr .cr0), .num (regs.cr .cr2), .num (regs.cr .cr3),
            .num (regs.cr .cr4)] },
        { fmt := chars "RFLAGS: %016llx  ERR: %016llx  VEC: %llu"
          args := [.num regs.rflags, .num regs.err, .num regs.vector] },
        panicLogAddr table (chars "RIP: ") regs.rip]

/-- The fields of `struct cpu_info` that a report has. -/
structure CpuId where
  index : BitVec 32
  lapicId : BitVec 32
  processorId : BitVec 32
  isBsp : Bool

/-- `panic_dump_cpu`; `cpu` is `cpu_current()`. -/
def panicDumpCpu : Option CpuId → Line
  | none => { fmt := chars "CPU: unknown", args := [] }
  | some cpu =>
      { fmt := chars "CPU: cpu%u lapic=%u acpi=%u%s"
        args := [.num (cpu.index.setWidth 64), .num (cpu.lapicId.setWidth 64),
          .num (cpu.processorId.setWidth 64), .str (if cpu.isBsp then chars " (bsp)" else [])] }

/-- The calls of `vkpanic`, and whether it comes to its end. -/
def vkpanic (table : Array KallsymsEntry) (junk : Nat → UInt8) (cpu : Option CpuId)
    (regs : Option InterruptFrame) (fmt : Option (List UInt8)) (ap : Args) : List Line × Bool :=
  let trace := panicDumpBacktrace load table regs
  let lines := panicLogMessage junk fmt ap :: panicDumpCpu cpu
    :: (panicDumpRegs table regs ++ trace.1)
  if trace.2 then (lines ++ [{ fmt := chars "---[ end Kernel panic ]---", args := [] }], true)
  else (lines, false)

end Alix.Debug
