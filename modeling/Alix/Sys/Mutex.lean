/-
The mutex of `lib/mutex.c`, on top of the scheduler.

A section under `mutex->guard` and a section under a `sched_lock` are one
step each. The guard section of a contended `mutex_lock` ends inside
`thread_block_current`, whose release callback drops the guard, so the two
are one step; `thread_block_current` returns at once for the idle thread
and does not call back, and then the guard stays taken. `mutex_unlock`
drops the guard before it calls `thread_wake`, and there are steps between
the two (`Pc.waking`).

A step of a thread is a step of the CPU that runs it: a thread that is
blocked or preempted in the middle of a call goes on when the scheduler
has made it current again. `holds`, `enqueued` and `granted` are for the
record: who is between a successful acquire and its unlock, and the order
in which threads were queued and were handed the mutex.

`mutex->owner` is a thread's number here and the address of its TCB there.
A number is never given out again, an address is: a thread that exits with
the mutex leaves it to a later thread whose TCB gets the same address.
What is proved of the owner is about threads that do not exit with the
mutex; who does has not called `mutex_unlock`, and here nobody else can.
-/
import Alix.Sys.Sched

namespace Alix

/-- Where a thread is in the code of the mutex. -/
inductive Pc where
  /-- in no call -/
  | out
  /-- at the head of the loop of `mutex_lock` -/
  | locking
  /-- in `thread_block_current`, called by `mutex_lock` -/
  | parked
  /-- in `mutex_unlock`, before `thread_wake(next)` -/
  | waking (next : Nat)
  | panicked
deriving DecidableEq

/-- One `mutex_t`, the threads that use it, and the scheduler. -/
structure MutexSys where
  sched : Sched
  guard : Option Nat
  owner : Option Nat
  waiters : Rq Nat
  waitNodes : RqNodes Nat Nat
  pc : Nat → Pc
  holds : Nat → Bool
  enqueued : List Nat
  granted : List Nat

namespace MutexSys

def setPc (s : MutexSys) (t : Nat) (pc : Pc) : MutexSys :=
  { s with pc := Function.update s.pc t pc }

def setHolds (s : MutexSys) (t : Nat) (b : Bool) : MutexSys :=
  { s with holds := Function.update s.holds t b }

/-- `mutex_init`, before any thread uses the mutex. -/
def mutexInit (sched : Sched) : MutexSys where
  sched := sched
  guard := none
  owner := none
  waiters := Rq.init
  waitNodes := ⟨⟨fun _ => none, fun _ => none⟩, fun _ => none⟩
  pc := fun _ => .out
  holds := fun _ => false
  enqueued := []
  granted := []

/-- A thread has acquired the mutex and returns. -/
def acquired (s : MutexSys) (t : Nat) : MutexSys :=
  ({ s with owner := some t }.setHolds t true).setPc t .out

/-- `if (!rq_contains(waiters, t)) rq_push_back(waiters, &t->wait_node, t)`;
nothing if the walk over the queue does not end. -/
def enqueue (s : MutexSys) (t : Nat) : Option MutexSys :=
  match s.waitNodes.findFrom t s.sched.tcbCount s.waiters.head with
  | none => none
  | some (some _) => some s
  | some none =>
      let r := s.waitNodes.pushBack s.waiters t t
      some { s with
        waitNodes := r.1, waiters := r.2, enqueued := s.enqueued ++ [t] }

/-- A guard section of `mutex_lock`, by thread `t` on CPU `c`. -/
def mutexLock (s : MutexSys) (c t sp : Nat) : Option MutexSys :=
  match s.owner with
  | none => some (s.acquired t)
  | some owner =>
      if owner = t then some (s.setPc t .panicked)
      else
        match s.enqueue t with
        | none => none
        | some s =>
            if t = (s.sched.cpu c).idleThread then
              -- no callback: the guard stays taken
              some ({ s with guard := some t }.setPc t .parked)
            else
              match s.sched.threadBlockCurrent c sp with
              | none => none
              | some sched => some ({ s with sched }.setPc t .parked)

/-- `mutex_lock` behind `thread_block_current`. -/
def mutexRecheck (s : MutexSys) (t : Nat) : MutexSys :=
  if s.owner = some t then (s.setHolds t true).setPc t .out
  else s.setPc t .locking

/-- `mutex_try_lock`. -/
def mutexTryLock (s : MutexSys) (t : Nat) : MutexSys :=
  if s.owner = none then s.acquired t else s

/-- The guard section of `mutex_unlock`. -/
def mutexUnlock (s : MutexSys) (t : Nat) : MutexSys :=
  if s.owner ≠ some t then s.setPc t .panicked
  else
    let s := s.setHolds t false
    match s.waitNodes.popFront s.waiters with
    | none => { s with owner := none }
    | some (waitNodes, waiters, next) =>
        let s := { s with waitNodes, waiters, owner := next }
        match next with
        | none => s
        | some next =>
            { s with granted := s.granted ++ [next] }.setPc t (.waking next)

/-- The steps: of the thread that runs on a CPU, and of the scheduler. -/
inductive Act where
  | lock (c : Nat)
  | lockGuard (c sp : Nat)
  | recheck (c : Nat)
  | tryLock (c : Nat)
  | unlock (c : Nat)
  | wake (c : Nat)
  | sched (k : Sched.Call)

/-- The thread a CPU runs. -/
def current (s : MutexSys) (c : Nat) : Nat := (s.sched.cpu c).currentThread

/-- One step, where it can be taken and returns. -/
def step (s : MutexSys) : Act → Option MutexSys
  | .lock c =>
      if s.pc (s.current c) = .out then some (s.setPc (s.current c) .locking)
      else none
  | .lockGuard c sp =>
      if s.pc (s.current c) = .locking ∧ s.guard = none then
        s.mutexLock c (s.current c) sp
      else none
  | .recheck c =>
      if s.pc (s.current c) = .parked then some (s.mutexRecheck (s.current c))
      else none
  | .tryLock c =>
      if s.pc (s.current c) = .out ∧ s.guard = none then
        some (s.mutexTryLock (s.current c))
      else none
  | .unlock c =>
      if s.pc (s.current c) = .out ∧ s.guard = none then
        some (s.mutexUnlock (s.current c))
      else none
  | .wake c =>
      match s.pc (s.current c) with
      | .waking next =>
          match s.sched.threadWake next with
          | none => none
          | some sched => some ({ s with sched }.setPc (s.current c) .out)
      | _ => none
  | .sched k =>
      match s.sched.call k with
      | none => none
      | some sched => some { s with sched }

end MutexSys

end Alix
