/-
Starting the APIC timers, `sys/timer.c`.

Every CPU calls `timer_init` once, the application processors from
`smp_ap_entry` and the boot processor from `kmain`, and each with a rate of
its own. They share three words and no lock. `Pc` is where a CPU is in the
call, and a step of a CPU is one atomic access to the shared words, or the
work between two of them. `elapsed` is what the calibration measures: how
far the APIC timer counts down in ten milliseconds of the PIT.
-/
import Mathlib.Algebra.Group.Nat.Defs
import Mathlib.Data.Nat.Basic
import Mathlib.Logic.Function.Basic

namespace Alix

/-- `timer_calibrate_reload`. The quotient is cut to 32 bits after it has
been tested for zero. -/
def timerCalibrateReload (elapsed hz : Nat) : Nat :=
  if hz = 0 then 0
  else
    let reload := elapsed * 100 / hz
    let reload := if reload = 0 then 1 else reload
    reload % 2 ^ 32

/-- What `timer_program_apic` writes to the initial count. -/
def timerProgramApic (reload : Nat) : Nat := if reload = 0 then 1 else reload

/-- Where a CPU is in `timer_init`. -/
inductive TimerPc where
  /-- not in the call yet -/
  | outside
  /-- before the exchange on `timer_vector_installed` -/
  | install
  /-- before the first load of `timer_reload` -/
  | load
  /-- before the exchange on `timer_calibrating` -/
  | claim
  | calibrate
  /-- before the store to `timer_reload` -/
  | publish (reload : Nat)
  /-- before the store to `timer_calibrating` -/
  | unclaim (reload : Nat)
  /-- in the loop that waits for another CPU's calibration -/
  | wait
  | program (reload : Nat)
  | returned
deriving DecidableEq, Repr

/-- The shared words, and for each CPU where it is and what it has
programmed. -/
structure Timer where
  reload : Nat
  calibrating : Bool
  vectorInstalled : Bool
  pc : Nat → TimerPc
  programmed : Nat → Option Nat

namespace Timer

/-- Before any CPU has called `timer_init`. -/
def init : Timer where
  reload := 0
  calibrating := false
  vectorInstalled := false
  pc := fun _ => .outside
  programmed := fun _ => none

def goto (s : Timer) (c : Nat) (pc : TimerPc) : Timer :=
  { s with pc := Function.update s.pc c pc }

/-- A step of CPU `c`, which calls `timer_init(hz)`. -/
def step (elapsed hz : Nat) (s : Timer) (c : Nat) : Timer :=
  match s.pc c with
  | .outside => s.goto c .install
  | .install => { s with vectorInstalled := true }.goto c .load
  | .load => if s.reload = 0 then s.goto c .claim else s.goto c (.program s.reload)
  | .claim =>
      if s.calibrating then s.goto c .wait
      else { s with calibrating := true }.goto c .calibrate
  | .calibrate =>
      let reload := timerCalibrateReload elapsed hz
      s.goto c (.publish (if reload = 0 then 1 else reload))
  | .publish reload => { s with reload }.goto c (.unclaim reload)
  | .unclaim reload => { s with calibrating := false }.goto c (.program reload)
  | .wait => if s.reload = 0 then s else s.goto c (.program s.reload)
  | .program reload =>
      { s with programmed :=
          Function.update s.programmed c (some (timerProgramApic reload)) }.goto c
        .returned
  | .returned => s

/-- The states that `n` CPUs come to, CPU `c` with the rate `hz c`. -/
inductive Reachable (elapsed n : Nat) (hz : Nat → Nat) : Timer → Prop
  | init : Reachable elapsed n hz init
  | step {s : Timer} {c : Nat} : Reachable elapsed n hz s → c < n →
      Reachable elapsed n hz (s.step elapsed (hz c) c)

end Timer

end Alix
