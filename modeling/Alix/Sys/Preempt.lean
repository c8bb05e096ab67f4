/-
One CPU, statement by statement, with the timer interrupt between any two
(`sys/sched.c`, `sys/timer.c`).

A stack is the list of what is left to be done on it, innermost first;
the empty list is the thread's own code, which may make any call at any
time. A call puts its statements in front, and so does a timer interrupt,
which is taken if the flag IF is set: the gate clears IF, and the
statements of `sched_tick` come before the `iretq`. Between a `lock` and
its `unlock` a statement is one line of the source or one call to a
function of the queues; a test puts the statements of its branch in
front. A name in a statement is a local variable that has been read.

`context_switch` is where stacks change. What is left of the old stack is
kept under the thread that it is told to save, and the CPU goes on with
what is kept under the next one. `on` is the thread whose stack the CPU
is on, which is a fact of the machine; `current_thread` is a variable of
the program.

`release` of `thread_block_current` belongs to the caller and touches no
scheduler state. Threads are spawned at boot, before `sti`.
-/
import Alix.Sys.Switch

namespace Alix

/-- The calls a thread makes. -/
inductive Op where
  | yield
  | blockCurrent
  | wake (thread : Nat)
  | exit

/-- The statements. -/
inductive Instr where
  /-- `sched_cpu_lock` and `sched_cpu_unlock` -/
  | lock
  | unlock
  /-- `thread->status = status` -/
  | status (thread : Nat) (status : ThreadStatus)
  /-- `SCHED_TICK_RESET(thread)` -/
  | ticks (thread : Nat)
  | push (queue : Queue) (thread : Nat)
  /-- `if (rq_contains(..)) rq_remove(..)` -/
  | dequeue (thread : Nat)
  /-- `if (!rq_contains(..)) rq_push_back(..)` -/
  | enqueue (thread : Nat)
  /-- `cpu->current_thread = next` -/
  | setCurrent (next : Nat)
  | contextSwitch (prev next : Nat)
  /-- `sched_yield` under the lock -/
  | yield
  /-- the test of `thread_block_current` -/
  | blockCurrent
  | release
  /-- the test of `thread_wake`, and the one under the lock -/
  | wake (thread : Nat)
  | wakeBlocked (thread : Nat)
  /-- the test of `sched_exit`, and its choice of the next thread -/
  | exit
  | exitNext (current : Nat)
  /-- `sched_run_next_locked` -/
  | runNext (current : Nat)
  /-- a round of `sched_reap_cpu`, and its `rq_pop_front` -/
  | reap
  | reapPop
  /-- `sched_free_thread` -/
  | free (thread : Nat)
  /-- `sched_tick` under the lock -/
  | tick
  | iretq (flag : Bool)
  /-- the `popfq` of `sched_load_thread_state` -/
  | popfq
  | kpanic
deriving DecidableEq

structure Micro where
  sched : Sched
  iflag : Bool
  /-- `cpu->sched_lock` -/
  locked : Bool
  on : Nat
  code : List Instr
  saved : Nat → Nat × List Instr

namespace Micro

open Instr

abbrev SCHED_KERNEL_IF : Bool := SCHED_KERNEL_RFLAGS.testBit RFLAGS_IF_BIT

/-- The stack pointer that `context_switch` saves: of its value only that
it is not zero is ever read. -/
abbrev SAVED_RSP : Nat := 1

/-- CPU 0 with `n` threads of one process. -/
def spawned : Nat → Sched
  | 0 => (Sched.schedInit 1).spawnProc .kernel
  | n + 1 => (spawned n).spawnThread 0 1 true SAVED_RSP

/-- After boot, which ends with `sti`. -/
def boot (n : Nat) : Micro where
  sched := spawned n
  iflag := true
  locked := false
  on := 0
  code := []
  saved := fun t => (t, [popfq])

def currentThread (x : Micro) : Nat := (x.sched.cpu 0).currentThread

def idleThread (x : Micro) : Nat := (x.sched.cpu 0).idleThread

/-- The statements of a call. -/
def Op.code : Op → List Instr
  | .yield => [lock, yield]
  | .blockCurrent => [blockCurrent]
  | .wake thread => [wake thread]
  | .exit => [exit]

/-- `current->status = THREAD_RUNNABLE` and so on, in `sched_yield` and in
`sched_tick`. -/
def requeue (current : Nat) : List Instr :=
  [status current .runnable, ticks current, push (.run 0) current]

/-- The end of `sched_run_next_locked` and of `sched_exit`. -/
def switchTo (prev next : Nat) : List Instr :=
  [status next .running, ticks next, setCurrent next, unlock,
    contextSwitch prev next]

/-- The statements of a test: the rest of the code is `k`. -/
def jump (x : Micro) (k : List Instr) (branch : List Instr) : Option Micro :=
  some { x with code := branch ++ k }

/-- A statement that changes the scheduler. -/
def store (x : Micro) (k : List Instr) (sched : Sched) : Option Micro :=
  some { x with sched, code := k }

/-- `sched_tick` after it has taken the lock. -/
def tickLocked (x : Micro) (k : List Instr) : Option Micro :=
  let current := x.currentThread
  let s := x.sched.modTcb current fun th =>
    { th with totalTicks := th.totalTicks + 1 }
  if (s.tcb current).status = .running then
    let s := s.modTcb current fun th =>
      { th with ticksLeft := th.ticksLeft - 1 }
    if (s.tcb current).ticksLeft ≠ 0
        ∧ (current ≠ x.idleThread ∨ (s.queue (.run 0)).empty) then
      jump { x with sched := s } k [unlock]
    else
      jump { x with sched := s } k
        ((if current ≠ x.idleThread then requeue current else [])
          ++ [runNext current])
  else jump { x with sched := s } k [runNext current]

/-- One statement. -/
def exec (x : Micro) : Option Micro :=
  match x.code with
  | [] => none
  | lock :: k =>
      if x.locked then some x else some { x with locked := true, code := k }
  | unlock :: k => some { x with locked := false, code := k }
  | status t st :: k =>
      x.store k (x.sched.modTcb t fun th => { th with status := st })
  | ticks t :: k =>
      x.store k (x.sched.modTcb t fun th =>
        { th with ticksLeft := SCHED_QUANTUM_TICKS })
  | push q t :: k => x.store k (x.sched.pushBack q t)
  | dequeue t :: k => (x.sched.removeIfQueued (.run 0) t).bind (x.store k)
  | enqueue t :: k =>
      (x.sched.find (.run 0) t).bind fun
        | none => x.store k (x.sched.pushBack (.run 0) t)
        | some _ => x.store k x.sched
  | setCurrent t :: k => x.store k (x.sched.setCurrent 0 t)
  | contextSwitch prev next :: k =>
      let saved := Function.update x.saved prev (x.on, k)
      some { x with
        sched := x.sched.contextSwitch prev SAVED_RSP
        saved
        on := (saved next).1
        code := (saved next).2 }
  | yield :: k =>
      let current := x.currentThread
      x.jump k ((if current ≠ x.idleThread
          ∧ (x.sched.tcb current).status ≠ .zombie then requeue current else [])
        ++ [runNext current])
  | blockCurrent :: k =>
      let current := x.currentThread
      x.jump k (if current = x.idleThread then [] else
        [lock, status current .blocked, dequeue current, release,
          runNext current])
  | release :: k => x.store k x.sched
  | wake t :: k =>
      x.jump k (if t = x.idleThread then [] else [lock, wakeBlocked t])
  | wakeBlocked t :: k =>
      -- a thread that was freed meanwhile is not there to be read
      if x.sched.tcbCount ≤ t ∨ t ∈ x.sched.freedTcbs then none
      else if (x.sched.tcb t).status = .blocked then
        x.jump k [status t .runnable, ticks t, enqueue t, unlock]
      else x.jump k [unlock]
  | exit :: k =>
      let current := x.currentThread
      if current = x.idleThread then none
      else
        x.jump k [lock, status current .zombie, push (.zombie 0) current,
          exitNext current]
  | exitNext current :: k =>
      (x.sched.schedNextThread 0 (x.sched.tcbCount + 1)).bind fun (s, next) =>
        let next := if next = current then (s.cpu 0).idleThread else next
        jump { x with sched := s } k (switchTo current next ++ [kpanic])
  | runNext current :: k =>
      (x.sched.schedNextThread 0 (x.sched.tcbCount + 1)).bind fun (s, next) =>
        jump { x with sched := s } k
          (if next = current then
            [status current .running, ticks current, unlock]
          else switchTo current next)
  | reap :: k => x.jump k [lock, reapPop]
  | reapPop :: k =>
      match x.sched.popFront (.zombie 0) with
      | none => x.jump k [unlock]
      | some (s, none) => jump { x with sched := s } k [unlock]
      | some (s, some t) => jump { x with sched := s } k [unlock, free t, reap]
  | free t :: k => x.store k (x.sched.schedFreeThread 0 t)
  | tick :: k => x.tickLocked k
  | iretq flag :: k => some { x with iflag := flag, code := k }
  | popfq :: k => some { x with iflag := SCHED_KERNEL_IF, code := k }
  | kpanic :: _ => none

/-- The timer interrupt: `timer_irq` and `sched_tick`. -/
def irq (x : Micro) : Option Micro :=
  if x.iflag then
    some { x with
      iflag := false
      code := reap :: lock :: tick :: iretq x.iflag :: x.code }
  else none

/-- A call from the thread's own code. -/
def call (x : Micro) (op : Op) : Option Micro :=
  match x.code with
  | [] => some { x with code := Op.code op }
  | _ => none

inductive Event where
  | call (op : Op)
  | exec
  | irq

def step (x : Micro) : Event → Option Micro
  | .call op => x.call op
  | .exec => x.exec
  | .irq => x.irq

/-- The CPU stands between the `lock` of a call and the end of its
`unlock` or, if it switches, of its `context_switch`. -/
def underLock : Instr → Bool
  | lock | blockCurrent | wake _ | exit | reap | free _ | iretq _ | popfq
  | kpanic => false
  | _ => true

def inWindow (x : Micro) : Bool := x.code.head?.any underLock

end Micro

end Alix
