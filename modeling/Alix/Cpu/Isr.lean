/-
The code that saves the registers of what is interrupted: `cpu/idt.asm`,
and `kpanic` of `debug/panic.c`, instruction by instruction.

Both build an `interrupt_frame_t` on the stack. A stub pushes a zero where
the processor has not pushed an error code, and the vector;
`isr_handler_stub` pushes the registers, calls `isr_common_handler`, and
goes back to the frame that the call returned, or to its own. What the
handler does comes with it as a function of the machine at the call, which
gives the machine behind it. `kpanic` without a frame makes one of its own
caller.

The kernel's code is interrupted in ring 0 and no gate has a stack of its
own, so the processor pushes on the stack of that code, which it aligns
first. Which vectors come with an error code is the processor's; it is
said by the error code itself.
-/
import Alix.Lib.X86

namespace Alix.Cpu

open X86

variable (status : Instr → Machine → Word)

-- ==== the frame

/-- The order of the registers in memory: that of `popaq`. -/
def savedRegs : List Reg :=
  [.rax, .rbx, .rcx, .rdx, .rbp, .rdi, .rsi, .r8, .r9, .r10, .r11, .r12, .r13, .r14, .r15]

/-- `interrupt_frame_t`; its `rsp` is `gpr .rsp`. -/
structure InterruptFrame where
  es : Word
  ds : Word
  cr : CReg → Word
  gpr : Reg → Word
  vector : Word
  err : Word
  rip : Word
  cs : Word
  rflags : Word
  ss : Word

/-- The fields in the order of the declaration. -/
def InterruptFrame.words (f : InterruptFrame) : List Word :=
  [f.es, f.ds, f.cr .cr0, f.cr .cr2, f.cr .cr3, f.cr .cr4] ++ savedRegs.map f.gpr
    ++ [f.vector, f.err, f.rip, f.cs, f.rflags, f.gpr .rsp, f.ss]

-- ==== an interrupt

/-- IF. -/
def IF_FLAG : Word := 0x200

/-- TF, NT and RF, which every gate clears. -/
def GATE_FLAGS : Word := 0x14100

/-- The processor takes an interrupt: `trap` says which type the gate has
(an interrupt gate clears IF as well), and `err` is the error code, where
there is one. -/
def deliver (m : Machine) (trap : Bool) (err : Option Word) (stub : Word) : Machine :=
  let m' := m.set .rsp (m.gpr .rsp &&& ~~~0xf)
  let m' := m'.push ((m.seg .ss).setWidth 64)
  let m' := m'.push (m.gpr .rsp)
  let m' := m'.push m.rflags
  let m' := m'.push ((m.seg .cs).setWidth 64)
  let m' := m'.push m.rip
  let m' := match err with
    | some code => m'.push code
    | none => m'
  { m'.setSeg .cs 0x08 with
    rip := stub
    rflags := m.rflags &&& ~~~(if trap then GATE_FLAGS else GATE_FLAGS ||| IF_FLAG) }

-- ==== the stubs

/-- The vectors for which `create_isr` leaves out the zero. -/
def errorCodeVectors : List Nat := [8, 10, 11, 12, 13, 14, 17, 30]

/-- `create_isr`. -/
def createIsr (vector : Nat) : List Instr :=
  (if vector ∈ errorCodeVectors then [] else [.pushImm 0])
    ++ [.pushImm (BitVec.ofNat 64 vector)]

def pushaq : List Instr :=
  [.push .r15, .push .r14, .push .r13, .push .r12, .push .r11, .push .r10, .push .r9,
    .push .r8, .push .rsi, .push .rdi, .push .rbp, .push .rdx, .push .rcx, .push .rbx,
    .push .rax]

def popaq : List Instr :=
  [.pop .rax, .pop .rbx, .pop .rcx, .pop .rdx, .pop .rbp, .pop .rdi, .pop .rsi, .pop .r8,
    .pop .r9, .pop .r10, .pop .r11, .pop .r12, .pop .r13, .pop .r14, .pop .r15]

/-- `isr_handler_stub`, up to the call. -/
def isrEntry : List Instr :=
  pushaq
    ++ [.movCr .rax .cr4, .push .rax, .movCr .rax .cr3, .push .rax,
      .movCr .rax .cr2, .push .rax, .movCr .rax .cr0, .push .rax,
      .movSeg .rax .ds, .push .rax, .movSeg .rax .es, .push .rax]
    ++ [.cld, .mov .rdi .rsp]

/-- The instructions behind `.got_frame`. -/
def gotFrame : List Instr :=
  [.mov .rsp .rax, .add .rsp 0x30] ++ popaq ++ [.add .rsp 0x10, .iretq]

/-- `isr_handler_stub`, behind the call. The jump is taken if ZF is not
set. -/
def isrExit (m : Machine) : Machine :=
  let m := exec status m (.test .rax)
  let m := if m.gpr .rax = 0 then exec status m (.mov .rax .rsp) else m
  run status m gotFrame

/-- The machine that calls `isr_common_handler`. -/
def isrCall (m : Machine) (trap : Bool) (vector : Nat) (err : Option Word) (stub : Word) :
    Machine :=
  run status (deliver m trap err stub) (createIsr vector ++ isrEntry)

/-- An interrupt, from the processor's part to the `iretq`. -/
def isr (handler : Machine → Machine) (m : Machine) (trap : Bool) (vector : Nat)
    (err : Option Word) (stub : Word) : Machine :=
  isrExit status (handler (isrCall status m trap vector err stub))

-- ==== kpanic

/-- The instructions of `kpanic` for `regs == NULL`, up to the call of
`kpanic_with_regs`. -/
def kpanicCapture : List Instr :=
  [.push .rax,
    .xor .rax, .movwSeg .rax .ss, .push .rax,
    .lea .rax .rsp 24, .push .rax,
    .pushf,
    .xor .rax, .movwSeg .rax .cs, .push .rax,
    .load .rax .rsp 40, .push .rax,
    .pushImm 0, .pushImm 0,
    .push .r15, .push .r14, .push .r13, .push .r12, .push .r11, .push .r10, .push .r9,
    .push .r8, .push .rsi, .push .rdi, .push .rbp, .push .rdx, .push .rcx, .push .rbx,
    .load .rax .rsp 168, .push .rax,
    .movCr .rax .cr4, .push .rax, .movCr .rax .cr3, .push .rax,
    .movCr .rax .cr2, .push .rax, .movCr .rax .cr0, .push .rax,
    .xor .rax, .movwSeg .rax .ds, .push .rax,
    .xor .rax, .movwSeg .rax .es, .push .rax,
    .mov .rdi .rsp]

/-- `kpanic`, up to where `kpanic_with_regs` is called or jumped to. -/
def kpanic (m : Machine) : Machine :=
  let m := exec status m (.test .rdi)
  if m.gpr .rdi = 0 then run status m kpanicCapture else m

end Alix.Cpu
