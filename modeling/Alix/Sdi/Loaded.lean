/-
`sdi_kernel_register_loaded_driver` of `sdi/host.c`: what is done with a
driver's descriptor once its module is loaded.

The driver is registered, probed with its soft match, attached if the
probe gives it a score, and started. A hook that the driver lacks, or
that answers `SDI_ERR_UNSUPPORTED`, ends the sequence with success; any
other answer but `SDI_OK` ends it with -1.

The hooks are driver code. `Hooks` says what each answers on what it is
given; `init` is taken to make no calls of its own. Beside the registry
the model keeps the instances that an `attach` has handed out and no
`detach` has taken back. The log lines are left out.
-/
import Alix.Sdi.Registry

namespace Alix.Sdi

abbrev SDI_MATCH_SOFT : Nat := 7

/-- `SDI_ABI_VERSION`. -/
abbrev SDI_ABI_VERSION : Nat := 0x01000000

/-- `sizeof(sdi_match_id_t)`. -/
abbrev SIZEOF_MATCH_ID : Nat := 72

/-- `sdi_match_id_t`. The last two are pointers. -/
structure MatchId where
  size : Nat
  version : Nat
  kind : Nat
  flags : Nat
  vendor : Nat
  device : Nat
  subvendor : Nat
  subdevice : Nat
  classCode : Nat
  revision : Nat
  compatible : Nat
  driverData : Nat
deriving DecidableEq, Repr

/-- A cleared match after `SDI_INIT_PTR`. -/
def MatchId.init : MatchId :=
  { size := SIZEOF_MATCH_ID, version := SDI_ABI_VERSION, kind := 0, flags := 0
    vendor := 0, device := 0, subvendor := 0, subdevice := 0, classCode := 0
    revision := 0, compatible := 0, driverData := 0 }

/-- `sdi_driver_desc_t`, with the array of matches where it has one. -/
structure LoadedDesc extends DriverDesc where
  matchCount : Nat
  matchIds : Option (Nat → MatchId)

/-- What the driver's hooks answer: `probe` its status and the score it
leaves, `attach` its status and the instance it stores. -/
structure Hooks where
  init : Status
  probe : MatchId → Status × Nat
  attach : Option MatchId → Status × Nat
  start : Nat → Status

/-- The registry and the instances that are attached, each under its
driver's handle. -/
structure Drivers extends World where
  attached : List (Nat × Nat)

/-- `sdi_find_soft_match`. -/
def sdiFindSoftMatch (driver : LoadedDesc) : Option MatchId :=
  driver.matchIds.bind fun ids =>
    ((List.range driver.matchCount).map ids).find? fun m => m.kind == SDI_MATCH_SOFT

namespace Drivers

/-- The part of `sdi_kernel_register_loaded_driver` from the start on. -/
def startLoaded (w : Drivers) (handle instance_ : Nat) (c : Hooks) : Drivers × Int :=
  let st := w.reg.sdiStartDriver handle (c.start instance_)
  if st = SDI_ERR_UNSUPPORTED then (w, 0)
  else if st ≠ SDI_OK then (w, -1)
  else (w, 0)

/-- The part from the attach on. -/
def attachLoaded (w : Drivers) (handle : Nat) (m : Option MatchId) (c : Hooks) : Drivers × Int :=
  let st := w.reg.sdiAttachDriver handle true (c.attach m).1
  if st = SDI_ERR_UNSUPPORTED then (w, 0)
  else if st ≠ SDI_OK then (w, -1)
  else
    let instance_ := (c.attach m).2
    startLoaded { w with attached := (handle, instance_) :: w.attached } handle instance_ c

/-- What the probe is given. -/
def probeMatch (m : Option MatchId) : MatchId :=
  match m with
  | some m => m
  | none => { MatchId.init with kind := SDI_MATCH_SOFT }

/-- The part from the probe on. -/
def probeLoaded (w : Drivers) (handle : Nat) (m : Option MatchId) (c : Hooks) : Drivers × Int :=
  let (ret, score) := c.probe (probeMatch m)
  let st := w.reg.sdiProbeDriver handle true ret
  if st = SDI_ERR_UNSUPPORTED then (w, 0)
  else if st ≠ SDI_OK then (w, -1)
  else if score = 0 then (w, 0)
  else attachLoaded w handle m c

/-- `sdi_kernel_register_loaded_driver`. -/
def registerLoadedDriver (w : Drivers) (driver : Option LoadedDesc) (c : Hooks) : Drivers × Int :=
  match driver with
  | none => (w, -1)
  | some driver =>
      match exec (.register (some driver.toDriverDesc) true [] c.init) w.toWorld with
      | (world, .ok (.registered handle _)) =>
          probeLoaded { w with toWorld := world } handle (sdiFindSoftMatch driver) c
      | (world, _) => ({ w with toWorld := world }, -1)

end Drivers

end Alix.Sdi
