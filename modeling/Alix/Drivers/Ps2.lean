/-
The PS/2 keyboard driver, `drivers/ps2/main.c`, under the lifecycle calls
of the SDI core.

An instance is the `ps2_keyboard_t` that `ps2_keyboard_attach` allocates,
named by its pointer; pointers are the numbers from one on, in the order
of allocation. A lifecycle call goes through `SDI_LIFECYCLE_CALL`, which
looks up the driver and keeps no record of earlier calls. Its body is a
list of instructions (`Instr`), and a keyboard interrupt may come before
each of them; a second lifecycle call comes only when the first has
returned. What the controller's ports answer comes with the event, and the
key that is logged is left out.

After `sdi_free` the memory belongs to somebody else. `exec` is given
`stale`, what a read of it then finds.
-/
import Alix.Sdi.Host

namespace Alix.Ps2

open Sdi

-- ==== constants

abbrev PS2_STATUS_OUTPUT_FULL : BitVec 8 := 0x01#8

/-- The resource, and interrupt, that the driver binds. -/
abbrev KEYBOARD_IRQ : Nat := 1

/-- The vector it arrives on. -/
abbrev KEYBOARD_VECTOR : Nat := IRQ_BASE + KEYBOARD_IRQ

/-- The number of `ps2_keyboard_irq` among the driver handlers. -/
abbrev PS2_HANDLER : Nat := 1

-- ==== the handler

/-- `ps2_keyboard_t`. -/
structure Kbd where
  irq : Nat
  leftShift : Bool
  rightShift : Bool
  extended : Bool
deriving DecidableEq, Repr

/-- What `sdi_alloc` with `SDI_ALLOC_ZERO` gives. -/
def Kbd.zero : Kbd := ⟨SDI_NULL_HANDLE, false, false, false⟩

/-- `ps2_keyboard_irq`, where the two ports answer `status` and `code`. -/
def ps2KeyboardIrq (kbd : Kbd) (status code : BitVec 8) : Kbd :=
  if status &&& PS2_STATUS_OUTPUT_FULL = 0 then kbd
  else if code = 0xfa#8 ∨ code = 0xfe#8 then kbd
  else if code = 0xe0#8 then { kbd with extended := true }
  else
    let released := code &&& 0x80#8 != 0
    let code := code &&& 0x7f#8
    let kbd :=
      if !kbd.extended && code == 0x2a#8 then { kbd with leftShift := !released }
      else if !kbd.extended && code == 0x36#8 then
        { kbd with rightShift := !released }
      else kbd
    { kbd with extended := false }

/-- The calls it makes: it reads the status port and the data port. -/
def ps2Code : Host.DriverCode := fun _ _ _ =>
  [⟨SDI_NULL_HANDLE, .pioRead SDI_OK⟩, ⟨SDI_NULL_HANDLE, .pioRead SDI_OK⟩]

-- ==== the state

/-- The lifecycle calls that the driver implements. -/
inductive Life where
  | start
  | stop
  | detach
deriving DecidableEq, Repr

/-- The steps of their bodies that matter outside the controller. -/
inductive Instr where
  /-- `sdi_irq_bind`, up to its return -/
  | bind
  /-- the store to `kbd->irq` that `sdi_irq_bind` makes -/
  | store (irq : Nat)
  /-- `sdi_irq_unmask(kbd->irq)` -/
  | unmask
  /-- `if (kbd->irq != SDI_NULL_HANDLE) sdi_irq_unbind(kbd->irq)` -/
  | unbind
  /-- `kbd->irq = SDI_NULL_HANDLE` -/
  | clear
  /-- `sdi_free(kbd)` -/
  | free
deriving DecidableEq, Repr

/-- `ps2_keyboard_start`, `ps2_keyboard_stop`, `ps2_keyboard_detach`; what
follows the bind depends on its answer. -/
def Life.body : Life → List Instr
  | .start => [.bind]
  | .stop => [.unbind, .clear]
  | .detach => [.free]

/-- The core and the host, the instances, and the lifecycle call that has
not returned. `called` records the lifecycle calls made so far. -/
structure Sys where
  core : Registry
  host : Host
  kbd : Nat → Kbd
  count : Nat
  freed : Nat → Bool
  called : Nat → Life → Bool
  inst : Nat
  code : List Instr

namespace Sys

def setKbd (s : Sys) (i : Nat) (k : Kbd) : Sys :=
  { s with kbd := Function.update s.kbd i k }

/-- What a read of `kbd->irq` finds. -/
def readIrq (s : Sys) (stale : Nat) : Nat :=
  if s.freed s.inst then stale else (s.kbd s.inst).irq

-- ==== the steps

/-- The request of `sdi_irq_bind(SDI_NULL_HANDLE, 1, 0, ps2_keyboard_irq,
instance, &kbd->irq)`. -/
def bindReq (i : Nat) : Host.BindArgs where
  inData := some (SIZEOF_IRQ_BIND_REQ, SDI_VERSION_MAJOR * 2 ^ 24)
  inSize := SIZEOF_IRQ_BIND_REQ
  resourceIndex := KEYBOARD_IRQ
  handler := some PS2_HANDLER
  instance_ := i
  outSize := some SIZEOF_IRQ_BIND_RESP

/-- One instruction, with what is left after it. -/
def exec (s : Sys) (lapicId stale : Nat) (pin : Bool) : Sys :=
  match s.code with
  | [] => s
  | .bind :: _ =>
      match s.host.sdiKernelCall ⟨SDI_NULL_HANDLE, .irqBind (bindReq s.inst) lapicId⟩ with
      | (host, .ok (some irq)) => { s with host, code := [.store irq, .unmask] }
      | (host, _) => { s with host, code := [] }
  | .store irq :: code =>
      { s.setKbd s.inst { s.kbd s.inst with irq } with code }
  | .unmask :: code =>
      { s with
        host := (s.host.sdiKernelCall ⟨s.readIrq stale, .irqUnmask pin⟩).1, code }
  | .unbind :: code =>
      if s.readIrq stale ≠ SDI_NULL_HANDLE then
        { s with
          host := (s.host.sdiKernelCall ⟨s.readIrq stale, .irqUnbind⟩).1, code }
      else { s with code }
  | .clear :: code =>
      { s.setKbd s.inst { s.kbd s.inst with irq := SDI_NULL_HANDLE } with code }
  | .free :: code =>
      { s with freed := Function.update s.freed s.inst true, code }

/-- The operation that `SDI_LIFECYCLE_CALL` looks for. -/
def Life.op : Life → DriverOps → Bool
  | .start => (·.start)
  | .stop => (·.stop)
  | .detach => (·.detach)

/-- Whether the core passes a call on to the driver. -/
def passes (core : Registry) (handle : Nat) (fn : DriverOps → Bool) : Bool :=
  ((core.opsFromHandle handle).map fn).getD false

/-- `sdi_attach_driver`; `mem` says whether the heap has room. -/
def attach (s : Sys) (handle : Nat) (mem : Bool) : Sys :=
  if passes s.core handle (·.attach) ∧ mem then
    { s.setKbd (s.count + 1) Kbd.zero with count := s.count + 1 }
  else s

/-- `sdi_start_driver`, `sdi_stop_driver` or `sdi_detach_driver`, up to the
first instruction of the driver. -/
def call (s : Sys) (handle : Nat) (life : Life) (i : Nat) : Sys :=
  let called := Function.update (s.called i) life true
  let s := { s with called := Function.update s.called i called }
  if passes s.core handle (Life.op life) then { s with inst := i, code := life.body }
  else s

/-- What an interrupt adds to the log. -/
def interruptLog (s : Sys) : List Effect :=
  match s.host.isrCommonHandler ps2Code 0 ⟨KEYBOARD_VECTOR⟩ with
  | .error _ => []
  | .ok host => host.log.drop s.host.log.length

/-- What an entry of the log does to the instances. -/
def handle (status code : BitVec 8) (kbd : Nat → Kbd) : Effect → Nat → Kbd
  | .invoke handler i _ =>
      if handler = PS2_HANDLER then
        Function.update kbd i (ps2KeyboardIrq (kbd i) status code)
      else kbd
  | .eoi => kbd
  | .schedTick => kbd

/-- A keyboard interrupt. -/
def interrupt (s : Sys) (status code : BitVec 8) : Sys :=
  match s.host.isrCommonHandler ps2Code 0 ⟨KEYBOARD_VECTOR⟩ with
  | .error _ => s
  | .ok host =>
      { s with host, kbd := s.interruptLog.foldl (handle status code) s.kbd }

-- ==== the runs

inductive Event where
  | attach (handle : Nat) (mem : Bool)
  | call (handle : Nat) (life : Life) (i : Nat)
  | exec (lapicId stale : Nat) (pin : Bool)
  | irq (status code : BitVec 8)
deriving DecidableEq, Repr

/-- A lifecycle call is made on an instance, once, and after the one before
has returned. -/
def Allowed (s : Sys) : Event → Prop
  | .attach .. => s.code = []
  | .call _ life i => s.code = [] ∧ 0 < i ∧ i ≤ s.count ∧ s.called i life = false
  | .exec .. => s.code ≠ []
  | .irq .. => True

def step (s : Sys) : Event → Sys
  | .attach handle mem => s.attach handle mem
  | .call handle life i => s.call handle life i
  | .exec lapicId stale pin => s.exec lapicId stale pin
  | .irq status code => s.interrupt status code

/-- Before the driver is attached: the core as the loader leaves it, and a
host that has not heard of `ps2_keyboard_irq`. -/
def init (core : Registry) (host : Host) : Sys where
  core := core
  host := host
  kbd := fun _ => Kbd.zero
  count := 0
  freed := fun _ => false
  called := fun _ _ => false
  inst := 0
  code := []

end Sys

end Alix.Ps2
