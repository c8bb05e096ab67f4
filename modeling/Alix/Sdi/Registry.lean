/-
The driver registry of `sdi/sdi.c`.

The registry is a slot array. A registration checks the descriptor, then
the name, then looks for a free slot; only then does it call the
driver's `init`, and it fills the slot after `init` has returned. An
unregistration finds the slot, calls `fini`, and clears the slot after
`fini` has returned. Both callbacks are driver code, and the loader
exports `sdi_register_driver` and `sdi_unregister_driver` to it.

A `Call` is one call together with what its callback does: the calls the
callback makes while it runs, in order, and the status it returns. Each
function is cut at its callback into the part before (`registerBegin`,
`unregisterBegin`) and the part after (`registerEnd`, `unregisterEnd`),
and `exec` runs the nested calls between the two. A driver that looks at
results before it makes its next call is covered: whatever it decides,
the calls it makes are some list.

A pointer to a callback is a `Bool`, true when it is not null; a string
is the bytes before its terminator. Counters and handles are naturals
reduced to the width of their C type.
-/
import Mathlib.Algebra.Group.Nat.Defs
import Mathlib.Data.List.Basic
import Mathlib.Logic.Function.Basic

namespace Alix.Sdi

-- ==== constants

/-- `sdi_status_t`. Callbacks may return any value. -/
abbrev Status : Type := Int

abbrev SDI_OK : Status := 0
abbrev SDI_ERR_NOMEM : Status := -2
abbrev SDI_ERR_INVAL : Status := -3
abbrev SDI_ERR_UNSUPPORTED : Status := -4
abbrev SDI_ERR_EXISTS : Status := -15
abbrev SDI_ERR_NOT_FOUND : Status := -16
abbrev SDI_ERR_SHORT : Status := -18
abbrev SDI_ERR_NOT_READY : Status := -19

abbrev SDI_VERSION_MAJOR : Nat := 1
abbrev SDI_NULL_HANDLE : Nat := 0
abbrev SDI_REGISTRY_CAPACITY : Nat := 64

/-- `SDI_CAP_REQUIRED_CORE`: the six capabilities from `CORE` to
`REGISTRY`. -/
abbrev SDI_CAP_REQUIRED_CORE : BitVec 64 := 0x3f#64

/-- `sizeof(sdi_host_ops_t)`. -/
abbrev SIZEOF_HOST_OPS : Nat := 80

/-- `sizeof(sdi_driver_desc_t)`. -/
abbrev SIZEOF_DRIVER_DESC : Nat := 96

/-- `sizeof(sdi_driver_ops_t)`. -/
abbrev SIZEOF_DRIVER_OPS : Nat := 88

-- ==== data model

/-- The bytes of a driver's name. -/
abbrev Name : Type := List UInt8

/-- `sdi_driver_ops_t`. -/
structure DriverOps where
  size : Nat
  version : Nat
  init : Bool
  fini : Bool
  probe : Bool
  attach : Bool
  start : Bool
  stop : Bool
  suspend : Bool
  resume : Bool
  detach : Bool
  remove : Bool
deriving DecidableEq, Repr

/-- `sdi_driver_desc_t`, the fields the registry reads. -/
structure DriverDesc where
  size : Nat
  version : Nat
  name : Option Name
  abiMajor : Nat
  requiredCaps : BitVec 64
  ops : Option DriverOps
deriving DecidableEq, Repr

/-- `sdi_host_ops_t`, the fields `sdi_init` reads. -/
structure HostOps where
  size : Nat
  version : Nat
  caps : BitVec 64
  maxDrivers : Nat
  log : Bool
  alloc : Bool
  free : Bool
  nowNs : Bool
  call : Bool
deriving DecidableEq, Repr

/-- `sdi_registry_entry_t`. -/
structure Entry where
  handle : Nat
  driver : Option DriverDesc
  used : Bool
deriving DecidableEq, Repr

/-- A cleared slot. -/
def Entry.empty : Entry :=
  { handle := SDI_NULL_HANDLE, driver := none, used := false }

/-- The file's static variables. -/
structure Registry where
  hostCaps : BitVec 64
  registry : Nat → Entry
  maxDrivers : Nat
  driverCount : Nat
  nextHandle : Nat
  initialized : Bool

namespace Registry

/-- The statics before `sdi_init`. -/
def static : Registry :=
  { hostCaps := 0, registry := fun _ => Entry.empty, maxDrivers := 0
    driverCount := 0, nextHandle := 1, initialized := false }

/-- Store a slot. -/
def setEntry (s : Registry) (i : Nat) (e : Entry) : Registry :=
  { s with registry := Function.update s.registry i e }

end Registry

-- ==== helpers

/-- `sdi_strlen_`. -/
def strlen (s : Option Name) : Nat := (s.map List.length).getD 0

/-- `sdi_streq_`. -/
def streq (a b : Option Name) : Bool :=
  match a, b with
  | some a, some b => a == b
  | _, _ => false

/-- `sdi_check_abi_`. -/
def checkAbi (size minSize version : Nat) : Status :=
  if size < minSize then SDI_ERR_SHORT
  else if version / 2 ^ 24 % 256 ≠ SDI_VERSION_MAJOR then SDI_ERR_UNSUPPORTED
  else SDI_OK

namespace Registry

/-- `sdi_require_init_`. -/
def requireInit (s : Registry) : Status :=
  if s.initialized then SDI_OK else SDI_ERR_NOT_READY

/-- `sdi_entry_from_handle_`: the index of the slot. -/
def entryFromHandle (s : Registry) (handle : Nat) : Option Nat :=
  if handle = SDI_NULL_HANDLE then none
  else (List.range s.maxDrivers).find? fun i =>
    (s.registry i).used && (s.registry i).handle == handle

/-- The search for a name in `sdi_register_driver` and
`sdi_find_driver`. -/
def entryFromName (s : Registry) (name : Option Name) : Option Nat :=
  (List.range s.maxDrivers).find? fun i =>
    (s.registry i).used && streq ((s.registry i).driver.bind (·.name)) name

/-- The search for a free slot in `sdi_register_driver`. -/
def freeSlot (s : Registry) : Option Nat :=
  (List.range s.maxDrivers).find? fun i => !(s.registry i).used

end Registry

-- ==== sdi_init

/-- `sdi_init`; `options` is `options->max_drivers` where options are
given. -/
def sdiInit (s : Registry) (host : Option HostOps) (options : Option Nat) :
    Registry × Status :=
  match host with
  | none => (s, SDI_ERR_INVAL)
  | some host =>
      if checkAbi host.size SIZEOF_HOST_OPS host.version ≠ SDI_OK then
        (s, SDI_ERR_INVAL)
      else if !host.log || !host.alloc || !host.free || !host.nowNs
          || !host.call then
        (s, SDI_ERR_INVAL)
      else if host.caps &&& SDI_CAP_REQUIRED_CORE ≠ SDI_CAP_REQUIRED_CORE then
        (s, SDI_ERR_UNSUPPORTED)
      else
        let requested := host.maxDrivers
        let requested :=
          match options with
          | some maxDrivers => if maxDrivers ≠ 0 then maxDrivers else requested
          | none => requested
        let requested :=
          if requested = 0 ∨ requested > SDI_REGISTRY_CAPACITY then
            SDI_REGISTRY_CAPACITY
          else requested
        ({ hostCaps := host.caps
           registry := fun i =>
             if i < SDI_REGISTRY_CAPACITY then Entry.empty else s.registry i
           maxDrivers := requested, driverCount := 0, nextHandle := 1
           initialized := true }, SDI_OK)

-- ==== register, unregister

namespace Registry

/-- `sdi_register_driver` up to the call of `init`: the descriptor with
its operations, and the free slot. -/
def registerBegin (s : Registry) (driver : Option DriverDesc)
    (outHandle : Bool) : Except Status (DriverDesc × DriverOps × Nat) :=
  if s.requireInit ≠ SDI_OK then .error SDI_ERR_NOT_READY
  else
    match driver with
    | none => .error SDI_ERR_INVAL
    | some driver =>
        match driver.name, driver.ops with
        | some name, some ops =>
            if !outHandle then .error SDI_ERR_INVAL
            else if checkAbi driver.size SIZEOF_DRIVER_DESC driver.version
                ≠ SDI_OK then
              .error SDI_ERR_INVAL
            else if checkAbi ops.size SIZEOF_DRIVER_OPS ops.version
                ≠ SDI_OK then
              .error SDI_ERR_INVAL
            else if driver.abiMajor ≠ SDI_VERSION_MAJOR then
              .error SDI_ERR_UNSUPPORTED
            else if driver.requiredCaps &&& ~~~s.hostCaps ≠ 0 then
              .error SDI_ERR_UNSUPPORTED
            else if strlen (some name) = 0 then .error SDI_ERR_INVAL
            else if (s.entryFromName (some name)).isSome then
              .error SDI_ERR_EXISTS
            else
              match s.freeSlot with
              | none => .error SDI_ERR_NOMEM
              | some i => .ok (driver, ops, i)
        | _, _ => .error SDI_ERR_INVAL

/-- The rest of `sdi_register_driver`, with the handle it returns. -/
def registerEnd (s : Registry) (driver : DriverDesc) (i : Nat) :
    Registry × Nat :=
  let handle := s.nextHandle
  let s := s.setEntry i { handle, driver := some driver, used := true }
  let next := (handle + 1) % 2 ^ 64
  let next := if next = SDI_NULL_HANDLE then 1 else next
  ({ s with nextHandle := next, driverCount := (s.driverCount + 1) % 2 ^ 32 },
    handle)

/-- `sdi_unregister_driver` up to the call of `fini`: the slot, and
whether there is a `fini`. -/
def unregisterBegin (s : Registry) (handle : Nat) :
    Except Status (Nat × Bool) :=
  if s.requireInit ≠ SDI_OK then .error SDI_ERR_NOT_READY
  else
    match s.entryFromHandle handle with
    | none => .error SDI_ERR_NOT_FOUND
    | some i =>
        let ops := (s.registry i).driver.bind (·.ops)
        .ok (i, (ops.map (·.fini)).getD false)

/-- The rest of `sdi_unregister_driver`. -/
def unregisterEnd (s : Registry) (i : Nat) : Registry :=
  let s := s.setEntry i Entry.empty
  { s with driverCount := (s.driverCount + 2 ^ 32 - 1) % 2 ^ 32 }

end Registry

-- ==== calls

/-- A call of the registration API. `init` and `fini` are the calls the
callback makes if it is called, and `ret` what it returns. -/
inductive Call where
  | register (driver : Option DriverDesc) (outHandle : Bool)
      (init : List Call) (ret : Status)
  | unregister (handle : Nat) (fini : List Call) (ret : Status)

/-- What a call that returns `SDI_OK` reports. -/
inductive Report where
  | registered (handle : Nat) (driver : DriverDesc)
  | unregistered (handle : Nat)
deriving DecidableEq, Repr

/-- The registry and, newest first, the reports so far. -/
structure World where
  reg : Registry
  log : List Report

mutual

/-- One call, with the calls its callback makes. -/
def exec : Call → World → World × Except Status Report
  | .register driver outHandle init ret, w =>
      match w.reg.registerBegin driver outHandle with
      | .error st => (w, .error st)
      | .ok (driver, ops, i) =>
          let w := if ops.init then execAll init w else w
          let st := if ops.init then ret else SDI_OK
          if st ≠ SDI_OK then (w, .error st)
          else
            let (reg, handle) := w.reg.registerEnd driver i
            let report := .registered handle driver
            (⟨reg, report :: w.log⟩, .ok report)
  | .unregister handle fini ret, w =>
      match w.reg.unregisterBegin handle with
      | .error st => (w, .error st)
      | .ok (i, hasFini) =>
          let w := if hasFini then execAll fini w else w
          let st := if hasFini then ret else SDI_OK
          if st ≠ SDI_OK then (w, .error st)
          else
            let report := .unregistered handle
            (⟨w.reg.unregisterEnd i, report :: w.log⟩, .ok report)

/-- Calls one after the other. -/
def execAll : List Call → World → World
  | [], w => w
  | c :: cs, w => execAll cs (exec c w).1

end

/-- The world after `sdi_init`. -/
def boot (host : Option HostOps) (options : Option Nat) : World :=
  ⟨(sdiInit Registry.static host options).1, []⟩

-- ==== queries

namespace Registry

/-- `sdi_find_driver`. `name` and `out_handle` may be null. -/
def sdiFindDriver (s : Registry) (name : Option Name) (outHandle : Bool) :
    Except Status Nat :=
  if s.requireInit ≠ SDI_OK then .error SDI_ERR_NOT_READY
  else if name.isNone || !outHandle then .error SDI_ERR_INVAL
  else
    match s.entryFromName name with
    | none => .error SDI_ERR_NOT_FOUND
    | some i => .ok (s.registry i).handle

/-- `sdi_get_driver_count`. -/
def sdiGetDriverCount (s : Registry) (outCount : Bool) : Except Status Nat :=
  if !outCount then .error SDI_ERR_INVAL else .ok s.driverCount

/-- The loop of `sdi_get_driver_at` over the slots `is`. -/
def usedAt (s : Registry) (index : Nat) : List Nat → Nat → Option Nat
  | [], _ => none
  | i :: is, seen =>
      if (s.registry i).used then
        if seen = index then some i else s.usedAt index is (seen + 1)
      else s.usedAt index is seen

/-- `sdi_get_driver_at`. -/
def sdiGetDriverAt (s : Registry) (index : Nat) (outDriver outHandle : Bool) :
    Except Status (Option DriverDesc × Nat) :=
  if s.requireInit ≠ SDI_OK then .error SDI_ERR_NOT_READY
  else if !outDriver || !outHandle then .error SDI_ERR_INVAL
  else
    match s.usedAt index (List.range s.maxDrivers) 0 with
    | none => .error SDI_ERR_NOT_FOUND
    | some i => .ok ((s.registry i).driver, (s.registry i).handle)

-- ==== lifecycle calls

/-- The operations a lifecycle call finds under a handle. -/
def opsFromHandle (s : Registry) (handle : Nat) : Option DriverOps :=
  (s.entryFromHandle handle).bind fun i => (s.registry i).driver.bind (·.ops)

/-- `SDI_LIFECYCLE_CALL`: `fn` selects the operation, `ret` is what it
returns. -/
def lifecycleCall (s : Registry) (handle : Nat) (fn : DriverOps → Bool)
    (unsupportedOk : Bool) (ret : Status) : Status :=
  match s.opsFromHandle handle with
  | none => SDI_ERR_NOT_FOUND
  | some ops =>
      if !fn ops then if unsupportedOk then SDI_OK else SDI_ERR_UNSUPPORTED
      else ret

/-- `sdi_start_driver`. -/
def sdiStartDriver (s : Registry) (handle : Nat) (ret : Status) : Status :=
  s.lifecycleCall handle (·.start) false ret

/-- `sdi_stop_driver`. -/
def sdiStopDriver (s : Registry) (handle : Nat) (ret : Status) : Status :=
  s.lifecycleCall handle (·.stop) true ret

/-- `sdi_resume_driver`. -/
def sdiResumeDriver (s : Registry) (handle : Nat) (ret : Status) : Status :=
  s.lifecycleCall handle (·.resume) true ret

/-- `sdi_detach_driver`. -/
def sdiDetachDriver (s : Registry) (handle : Nat) (ret : Status) : Status :=
  s.lifecycleCall handle (·.detach) true ret

/-- `sdi_remove_driver`. -/
def sdiRemoveDriver (s : Registry) (handle : Nat) (ret : Status) : Status :=
  s.lifecycleCall handle (·.remove) true ret

/-- `sdi_suspend_driver`. -/
def sdiSuspendDriver (s : Registry) (handle : Nat) (ret : Status) : Status :=
  s.lifecycleCall handle (·.suspend) true ret

/-- `sdi_probe_driver` and `sdi_attach_driver`: the operation is checked
before the two pointer arguments, `args` when both are given. -/
def argumentCall (s : Registry) (handle : Nat) (fn : DriverOps → Bool)
    (args : Bool) (ret : Status) : Status :=
  match s.opsFromHandle handle with
  | none => SDI_ERR_NOT_FOUND
  | some ops =>
      if !fn ops then SDI_ERR_UNSUPPORTED
      else if !args then SDI_ERR_INVAL
      else ret

/-- `sdi_probe_driver`. -/
def sdiProbeDriver (s : Registry) (handle : Nat) (args : Bool)
    (ret : Status) : Status :=
  s.argumentCall handle (·.probe) args ret

/-- `sdi_attach_driver`. -/
def sdiAttachDriver (s : Registry) (handle : Nat) (args : Bool)
    (ret : Status) : Status :=
  s.argumentCall handle (·.attach) args ret

end Registry

end Alix.Sdi
