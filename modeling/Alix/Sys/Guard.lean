/-
The guard of a mutex, taken and dropped.

In `MutexSys` a guard section is one step. Here `spinlock_lock` and what
follows it are separate: a thread spins on the guard, has it, may be
preempted while it does, and then runs the rest of its section, up to the
store that drops the guard. For `mutex_lock` that store is either its own
or the release callback of `thread_block_current`; `ran` counts how often
the callback has been run in the last call a thread has made.

Nothing that another CPU can see happens between `rq_push_back` on the
waiters and the `sched_lock` in `thread_block_current`, for the waiters
are read under the guard; the two are one step.
-/
import Alix.Sys.Mutex

namespace Alix

/-- The guard sections. -/
inductive Section where
  | lock
  | tryLock
  | unlock
deriving DecidableEq

/-- Where a thread enters a section from. -/
def Section.start : Section → Pc
  | .lock => .locking
  | .tryLock | .unlock => .out

/-- Where a thread is with the guard. -/
inductive Place where
  | away
  /-- in `spinlock_lock(&mutex->guard)` -/
  | spin (k : Section)
  /-- behind it -/
  | inside (k : Section)
deriving DecidableEq

structure GuardSys where
  m : MutexSys
  place : Nat → Place
  ran : Nat → Nat

namespace GuardSys

def init (cpuCount : Nat) : GuardSys where
  m := MutexSys.mutexInit (Sched.schedInit cpuCount)
  place := fun _ => .away
  ran := fun _ => 0

/-- The thread a CPU runs. -/
def current (s : GuardSys) (c : Nat) : Nat := s.m.current c

def setPlace (s : GuardSys) (t : Nat) (place : Place) : GuardSys :=
  { s with place := Function.update s.place t place }

def setRan (s : GuardSys) (t n : Nat) : GuardSys :=
  { s with ran := Function.update s.ran t n }

def setGuard (s : GuardSys) (guard : Option Nat) : GuardSys :=
  { s with m := { s.m with guard } }

/-- `spinlock_unlock(&mutex->guard)` at the end of a section that has left
the mutex as `m`. -/
def leave (s : GuardSys) (t : Nat) (m : MutexSys) : GuardSys :=
  ({ s with m }.setGuard none).setPlace t .away

/-- `mutex_release_guard`, called for thread `t`. -/
def mutexReleaseGuard (s : GuardSys) (t : Nat) : GuardSys :=
  (s.setGuard none).setRan t (s.ran t + 1)

/-- `thread_block_current(mutex_release_guard, &mutex->guard)`. -/
def threadBlockCurrent (s : GuardSys) (c sp : Nat) : Option GuardSys :=
  if s.current c = (s.m.sched.cpu c).idleThread then some s
  else
    match s.m.sched.threadBlockCurrent c sp with
    | none => none
    | some sched =>
        some ({ s with m := { s.m with sched } }.mutexReleaseGuard (s.current c))

/-- The section of `mutex_lock`, behind `spinlock_lock`. -/
def mutexLock (s : GuardSys) (c t sp : Nat) : Option GuardSys :=
  match s.m.owner with
  | none => some (s.leave t (s.m.acquired t))
  | some owner =>
      if owner = t then some (s.leave t (s.m.setPc t .panicked))
      else
        match s.m.enqueue t with
        | none => none
        | some m =>
            match ({ s with m }.setRan t 0).threadBlockCurrent c sp with
            | none => none
            | some s => some ({ s with m := s.m.setPc t .parked }.setPlace t .away)

/-- The rest of a section. -/
def body (s : GuardSys) (c t sp : Nat) : Section → Option GuardSys
  | .lock => s.mutexLock c t sp
  | .tryLock => some (s.leave t (s.m.mutexTryLock t))
  | .unlock => some (s.leave t (s.m.mutexUnlock t))

/-- The steps: of the thread that runs on a CPU, and of the scheduler. -/
inductive Act where
  | lock (c : Nat)
  | enter (c : Nat) (k : Section)
  | spin (c : Nat)
  | body (c sp : Nat)
  | recheck (c : Nat)
  | wake (c : Nat)
  | sched (k : Sched.Call)

/-- A step that has nothing to do with the guard. -/
def pass (s : GuardSys) (a : MutexSys.Act) : Option GuardSys :=
  (s.m.step a).map fun m => { s with m }

/-- One step, where it can be taken and returns. -/
def step (s : GuardSys) : Act → Option GuardSys
  | .lock c => if s.place (s.current c) = .away then s.pass (.lock c) else none
  | .enter c k =>
      if s.place (s.current c) = .away ∧ s.m.pc (s.current c) = k.start then
        some (s.setPlace (s.current c) (.spin k))
      else none
  | .spin c =>
      match s.place (s.current c) with
      | .spin k =>
          match s.m.guard with
          | none =>
              some ((s.setGuard (some (s.current c))).setPlace (s.current c)
                (.inside k))
          | some _ => some s
      | .away | .inside _ => none
  | .body c sp =>
      match s.place (s.current c) with
      | .inside k => s.body c (s.current c) sp k
      | .away | .spin _ => none
  | .recheck c => if s.place (s.current c) = .away then s.pass (.recheck c) else none
  | .wake c => if s.place (s.current c) = .away then s.pass (.wake c) else none
  | .sched k => s.pass (.sched k)

end GuardSys

end Alix
