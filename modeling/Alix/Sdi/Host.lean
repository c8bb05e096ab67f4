/-
Interrupts, from the vector stub to a driver: the handler table of
`cpu/idt.c`, the timer's handler, and the interrupt part of `sdi/host.c`.

`isr_common_handler` looks up the vector in `vector_handlers` and calls
what it finds. Two functions are ever installed there: `timer_irq` and
`sdi_irq_dispatch`, which calls the driver handler that is bound to the
interrupt. A driver handler is code of the driver; it is a number here,
and an interrupt comes with `code`, the calls into `sdi_kernel_call` that
a handler makes for an instance. Interrupt gates keep interrupts off, so
no other interrupt is taken before the handler is done.

`log` holds what the outside sees, oldest first: the end-of-interrupt
writes, the calls of driver handlers and of `sched_tick`. The I/O APIC is
outside: an interrupt may be pending when its pin is masked, so no mask is
looked at when one is delivered, and whether a pin exists comes with the
call.
-/
import Alix.Sdi.Registry

namespace Alix.Sdi

-- ==== constants

abbrev SDI_ERR_BUSY : Status := -5
abbrev SDI_ERR_RANGE : Status := -12

abbrev IRQ_BASE : Nat := 0x20
abbrev SDI_IRQ_COUNT : Nat := 16
abbrev MAX_CPUS : Nat := 256

/-- `sizeof(sdi_irq_bind_req_t)`. -/
abbrev SIZEOF_IRQ_BIND_REQ : Nat := 32

/-- `sizeof(sdi_irq_bind_resp_t)`. -/
abbrev SIZEOF_IRQ_BIND_RESP : Nat := 16

-- ==== data model

/-- `interrupt_frame_t`, the field that is read. -/
structure Frame where
  vector : Nat
deriving DecidableEq, Repr

/-- The functions that `vector_handlers` ever points to. -/
inductive IrqCallback where
  | timerIrq
  | sdiIrqDispatch
deriving DecidableEq, Repr

/-- `irq_handler_t`. -/
structure IrqHandler where
  ctx : Option Frame
  callback : Option IrqCallback
  vector : Nat
  lapicId : Nat
deriving DecidableEq, Repr

/-- `sdi_irq_binding_t`. -/
structure IrqBinding where
  used : Bool
  irq : Nat
  handler : Option Nat
  instance_ : Nat
deriving DecidableEq, Repr

/-- What the outside sees. -/
inductive Effect where
  /-- `apic_send_eoi` -/
  | eoi
  /-- a call of `sched_tick` -/
  | schedTick
  /-- a call of a driver handler with its two arguments -/
  | invoke (handler instance_ irq : Nat)
deriving DecidableEq, Repr

/-- The static variables of `idt.c`, `timer.c` and `host.c` that
interrupts use. -/
structure Host where
  vectorHandlers : Nat → IrqHandler
  irqBindings : Nat → IrqBinding
  timerTicks : Nat → Nat
  log : List Effect

namespace Host

/-- The statics when the kernel starts. -/
def static : Host where
  vectorHandlers := fun _ => ⟨none, none, 0, 0⟩
  irqBindings := fun _ => ⟨false, 0, none, 0⟩
  timerTicks := fun _ => 0
  log := []

def emit (s : Host) (e : Effect) : Host := { s with log := s.log ++ [e] }

/-- `apic_send_eoi`. -/
def apicSendEoi (s : Host) : Host := s.emit .eoi

-- ==== the vector table

/-- `irq_set_vector`. -/
def irqSetVector (s : Host) (vector : Nat) (callback : Option IrqCallback)
    (ctx : Option Frame) (lapicId : Nat) : Host :=
  { s with vectorHandlers :=
      Function.update s.vectorHandlers vector ⟨ctx, callback, vector, lapicId⟩ }

/-- `irq_install`. -/
def irqInstall (s : Host) (irq : Nat) (callback : Option IrqCallback)
    (ctx : Option Frame) (lapicId : Nat) : Host :=
  if irq ≥ 16 then s else s.irqSetVector (IRQ_BASE + irq) callback ctx lapicId

/-- `irq_uninstall_vector`. -/
def irqUninstallVector (s : Host) (vector : Nat) : Host :=
  s.irqSetVector vector none none 0

/-- `irq_uninstall`. -/
def irqUninstall (s : Host) (irq : Nat) : Host :=
  if irq ≥ 16 then s else s.irqUninstallVector (IRQ_BASE + irq)

-- ==== the host's calls

/-- Store a binding. -/
def setBinding (s : Host) (irq : Nat) (b : IrqBinding) : Host :=
  { s with irqBindings := Function.update s.irqBindings irq b }

/-- The arguments of `SDI_OP_IRQ_BIND`: the request, where `in_data` is not
null, and the room for the response, where `out_data` and its size are
given. -/
structure BindArgs where
  inData : Option (Nat × Nat)
  inSize : Nat
  resourceIndex : Nat
  handler : Option Nat
  instance_ : Nat
  outSize : Option Nat
deriving DecidableEq, Repr

/-- `sdi_check_payload` on the size and the version of a header. -/
def sdiCheckPayload (payload : Option (Nat × Nat)) (size required : Nat) :
    Status :=
  match payload with
  | none => SDI_ERR_SHORT
  | some (headerSize, version) =>
      if size < required then SDI_ERR_SHORT
      else if headerSize < required then SDI_ERR_SHORT
      else if version / 2 ^ 24 ≠ SDI_VERSION_MAJOR then SDI_ERR_UNSUPPORTED
      else SDI_OK

/-- `sdi_host_irq_bind` on the CPU with `lapicId`, with the handle it
returns. -/
def sdiHostIrqBind (s : Host) (req : BindArgs) (lapicId : Nat) :
    Host × Except Status Nat :=
  if sdiCheckPayload req.inData req.inSize SIZEOF_IRQ_BIND_REQ ≠ SDI_OK then
    (s, .error SDI_ERR_INVAL)
  else if (req.outSize.getD 0) < SIZEOF_IRQ_BIND_RESP then
    (s, .error SDI_ERR_SHORT)
  else if req.handler.isNone then (s, .error SDI_ERR_INVAL)
  else if req.resourceIndex ≥ SDI_IRQ_COUNT then (s, .error SDI_ERR_RANGE)
  else
    let irq := req.resourceIndex
    if (s.irqBindings irq).used then (s, .error SDI_ERR_BUSY)
    else
      let s := s.setBinding irq ⟨true, irq, req.handler, req.instance_⟩
      (s.irqInstall irq (some .sdiIrqDispatch) none lapicId, .ok (irq + 1))

/-- `sdi_irq_from_handle`. -/
def sdiIrqFromHandle (s : Host) (target : Nat) : Except Status Nat :=
  if target = SDI_NULL_HANDLE ∨ target > SDI_IRQ_COUNT then
    .error SDI_ERR_NOT_FOUND
  else if !(s.irqBindings (target - 1)).used then .error SDI_ERR_NOT_FOUND
  else .ok (target - 1)

/-- `sdi_host_irq_unbind`. -/
def sdiHostIrqUnbind (s : Host) (target : Nat) : Host × Status :=
  match s.sdiIrqFromHandle target with
  | .error st => (s, st)
  | .ok irq => ((s.irqUninstall irq).setBinding irq ⟨false, 0, none, 0⟩, SDI_OK)

/-- `sdi_host_irq_mask`; `pin` says whether the I/O APIC has one. -/
def sdiHostIrqMask (s : Host) (target : Nat) (pin : Bool) : Status :=
  match s.sdiIrqFromHandle target with
  | .error st => st
  | .ok _ => if pin then SDI_OK else SDI_ERR_NOT_FOUND

/-- The operations that `sdi_kernel_call` knows. What a port access answers
comes with it. -/
inductive HostOp where
  | nop
  | pioRead (ret : Status)
  | pioWrite (ret : Status)
  | irqBind (req : BindArgs) (lapicId : Nat)
  | irqUnbind
  | irqAck
  | irqMask (pin : Bool)
  | irqUnmask (pin : Bool)
  | unknown
deriving DecidableEq, Repr

/-- A call of `sdi_kernel_call`. -/
structure HostCall where
  target : Nat
  op : HostOp
deriving DecidableEq, Repr

/-- `sdi_kernel_call`, with the handle that a successful bind returns. -/
def sdiKernelCall (s : Host) (k : HostCall) : Host × Except Status (Option Nat) :=
  let answer (st : Status) : Except Status (Option Nat) :=
    if st = SDI_OK then .ok none else .error st
  match k.op with
  | .nop => (s, .ok none)
  | .pioRead ret => (s, answer ret)
  | .pioWrite ret => (s, answer ret)
  | .irqBind req lapicId =>
      match s.sdiHostIrqBind req lapicId with
      | (s, .error st) => (s, .error st)
      | (s, .ok irq) => (s, .ok (some irq))
  | .irqUnbind =>
      let (s, st) := s.sdiHostIrqUnbind k.target
      (s, answer st)
  | .irqAck =>
      match s.sdiIrqFromHandle k.target with
      | .error st => (s, .error st)
      | .ok _ => (s.apicSendEoi, .ok none)
  | .irqMask pin => (s, answer (s.sdiHostIrqMask k.target pin))
  | .irqUnmask pin => (s, answer (s.sdiHostIrqMask k.target pin))
  | .unknown => (s, .error SDI_ERR_UNSUPPORTED)

/-- The calls a driver makes, one after the other. -/
def runCalls (s : Host) (ks : List HostCall) : Host :=
  ks.foldl (fun s k => (s.sdiKernelCall k).1) s

-- ==== the handlers

/-- The code of the drivers: the calls that a handler makes for an instance
and an interrupt handle. -/
abbrev DriverCode : Type := Nat → Nat → Nat → List HostCall

/-- The interrupt that `sdi_irq_dispatch` reads off a frame. -/
def frameIrq (frame : Frame) : Nat :=
  let vector := frame.vector % 256
  if vector ≥ IRQ_BASE then vector - IRQ_BASE else 0xff

/-- `sdi_irq_dispatch`. -/
def sdiIrqDispatch (s : Host) (code : DriverCode) (frame : Frame) : Host :=
  let irq := frameIrq frame
  let b := s.irqBindings irq
  let s :=
    if irq < SDI_IRQ_COUNT ∧ b.used then
      match b.handler with
      | none => s
      | some handler =>
          (s.emit (.invoke handler b.instance_ (irq + 1))).runCalls
            (code handler b.instance_ (irq + 1))
    else s
  s.apicSendEoi

/-- `timer_irq` on the CPU with an index, up to where `sched_tick` may
switch threads. -/
def timerIrq (s : Host) (index : Nat) : Host :=
  let s :=
    if index < MAX_CPUS then
      { s with timerTicks :=
          Function.update s.timerTicks index ((s.timerTicks index + 1) % 2 ^ 64) }
    else s
  s.apicSendEoi.emit .schedTick

/-- `irq_dispatch_vector`. -/
def irqDispatchVector (s : Host) (code : DriverCode) (index vector : Nat)
    (frame : Frame) : Host :=
  let h := s.vectorHandlers vector
  match h.callback with
  | none => s
  | some .timerIrq => s.timerIrq index
  | some .sdiIrqDispatch => s.sdiIrqDispatch code (h.ctx.getD frame)

/-- `isr_common_handler`; the error is the exception that it panics with. -/
def isrCommonHandler (s : Host) (code : DriverCode) (index : Nat)
    (frame : Frame) : Except Nat Host :=
  let vector := frame.vector % 256
  if vector = 0xff then .ok s
  else if vector < 32 then .error vector
  else if vector = 0x80 then .ok s
  else .ok (s.irqDispatchVector code index vector frame)

end Host

end Alix.Sdi
