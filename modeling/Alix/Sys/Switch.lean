/-
The interrupt flag of one CPU across `context_switch` (`sys/sched.c`,
`cpu/idt.c`, `cpu/idt.asm`).

A `Core` is the scheduler together with the flag IF of the CPU it runs on
and, for every thread that is not running, the place it was switched away
from. `context_switch` pushes fifteen registers and no `rflags`: the
thread that comes runs on with the flag of the thread that went, until
its own code sets the flag. A thread that was preempted gets to the
`iretq` of the timer interrupt, which restores the flag that the
interrupt gate saved; a thread that never ran gets to the `popfq` of
`sched_load_thread_state`; a thread inside `sched_yield` or
`thread_block_current` just returns. Such returns are written to
`returned`, with the flag at the call and the flag at the return.

The timer interrupt is taken while the flag is set, and the gate clears
it until the `iretq`. Its handler is `sched_tick`. What the scheduler
does in a call is one step, as in `Alix.Sys.Sched`.
-/
import Alix.Sys.Sched

namespace Alix

abbrev SCHED_KERNEL_RFLAGS : Nat := 0x202

/-- The bit of `rflags` that is IF. -/
abbrev RFLAGS_IF_BIT : Nat := 9

/-- Where a thread that is not running will go on. -/
inductive Context where
  /-- at `sched_thread_trampoline`: it never ran -/
  | trampoline
  /-- inside `sched_yield` or `thread_block_current`, called with `flag` -/
  | voluntary (flag : Bool)
  /-- inside the timer interrupt, which saved `flag` -/
  | preempted (flag : Bool)
  /-- inside `sched_exit` -/
  | exited
deriving DecidableEq

structure Core where
  sched : Sched
  iflag : Bool
  context : Nat → Context
  returned : List (Bool × Bool)

namespace Core

/-- CPU 0 after boot, which ends with `sti`. -/
def init : Core where
  sched := Sched.schedInit 1
  iflag := true
  context := fun _ => .trampoline
  returned := []

def current (x : Core) : Nat := (x.sched.cpu 0).currentThread

/-- The rest of `context_switch` and what runs after it, on the stack of
`next`. A thread that has exited panics. -/
def load (x : Core) (next : Nat) : Option Core :=
  match x.context next with
  | .trampoline =>
      some { x with iflag := SCHED_KERNEL_RFLAGS.testBit RFLAGS_IF_BIT }
  | .voluntary flag => some { x with returned := (flag, x.iflag) :: x.returned }
  | .preempted flag => some { x with iflag := flag }
  | .exited => none

/-- Where the thread that makes the call `k` is while it waits. -/
def frame (flag : Bool) : Sched.Call → Context
  | .tick .. => .preempted flag
  | .exit .. => .exited
  | _ => .voluntary flag

/-- The flag while the call `k` is carried out: the timer comes through
an interrupt gate. -/
def gate (flag : Bool) : Sched.Call → Bool
  | .tick .. => false
  | _ => flag

/-- The calls that are logged when they come back. -/
def isVoluntary : Sched.Call → Bool
  | .yield .. => true
  | .blockCurrent .. => true
  | _ => false

def step (x : Core) (k : Sched.Call) : Option Core :=
  match x.sched.call k with
  | none => none
  | some sched =>
      let current := x.current
      let next := (sched.cpu 0).currentThread
      if next = current then
        -- the call returns, or `iretq` restores the flag, on the same stack
        some { x with
          sched
          returned := if isVoluntary k then (x.iflag, x.iflag) :: x.returned
            else x.returned }
      else
        load { x with
          sched
          iflag := gate x.iflag k
          context := Function.update x.context current (frame x.iflag k) } next

/-- What can happen: the timer fires while the flag is set. -/
def Enabled (x : Core) : Sched.Call → Prop
  | .tick .. => x.iflag = true
  | _ => True

end Core

end Alix
