/-
The processes of `sys/sched.c` and their pids.

A process is named by the allocation its `pcb_t` is in, and the chain
`proc_list`, `proc->next` is the list of the processes on it, the head
first. What `spawn_proc` calls answers through arguments: `kzalloc` the
new `pcb_t`, `vas_create` an address space, and `sched_parent_pid` the pid
of the caller. Both changes of the list happen under `proc_lock`, so a
call is one step.

The fields that nothing here reads are left out: the name, the threads and
their count.
-/
import Alix.Sys.Sched

namespace Alix.Pids

-- ==== constants

abbrev SCHED_INVALID_PID : Nat := 2 ^ 64 - 1
abbrev SCHED_IDLE_PID : Nat := 0
abbrev SCHED_PID_MIN : Nat := 1
abbrev SCHED_PID_MAX : Nat := 65535

-- ==== data model

/-- `pcb_t`. -/
structure Pcb where
  pid : Nat
  ppid : Nat
  type : ProcType
  vas : Option Nat

/-- What `kzalloc` leaves in a `pcb_t`; `PROC_KERNEL` is 0. -/
def Pcb.zero : Pcb := ⟨0, 0, .kernel, none⟩

/-- The statics `next_pid` and `proc_list`, and the processes. -/
structure Procs where
  nextPid : Nat
  procList : List Nat
  pcb : Nat → Pcb

namespace Procs

/-- The statics when the kernel starts. -/
def static (pcb : Nat → Pcb) : Procs := ⟨SCHED_PID_MIN, [], pcb⟩

def modPcb (s : Procs) (proc : Nat) (f : Pcb → Pcb) : Procs :=
  { s with pcb := Function.update s.pcb proc (f (s.pcb proc)) }

-- ==== pids

/-- `sched_pid_in_use`. -/
def schedPidInUse (s : Procs) (pid : Nat) : Bool :=
  s.procList.any fun proc => (s.pcb proc).pid == pid

/-- `next_pid++`, and back to the first after the last. -/
def advance (pid : Nat) : Nat :=
  let next := (pid + 1) % 2 ^ 64
  if next > SCHED_PID_MAX then SCHED_PID_MIN else next

/-- The loop of `sched_alloc_pid`, with the pid it returns and `next_pid`;
`none` if it has not come to an end. -/
def allocLoop (s : Procs) (start : Nat) : Nat → Nat → Option (Nat × Nat)
  | 0, _ => none
  | fuel + 1, pid =>
      let next := advance pid
      if !s.schedPidInUse pid then some (pid, next)
      else if next = start then some (SCHED_INVALID_PID, next)
      else s.allocLoop start fuel next

/-- `sched_alloc_pid`. The loop goes once round the pids. -/
def schedAllocPid (s : Procs) : Option (Procs × Nat) :=
  (s.allocLoop s.nextPid SCHED_PID_MAX s.nextPid).map fun r => ({ s with nextPid := r.2 }, r.1)

-- ==== the list

/-- `sched_proc_link_locked`. -/
def schedProcLinkLocked (s : Procs) (proc : Nat) : Procs :=
  { s with procList := proc :: s.procList }

/-- `sched_proc_unlink_locked`. -/
def schedProcUnlinkLocked (s : Procs) (proc : Nat) : Procs :=
  { s with procList := s.procList.erase proc }

/-- `sched_proc_release_pid`. -/
def schedProcReleasePid (s : Procs) (proc : Nat) : Procs :=
  if (s.pcb proc).type = .idle then s else s.schedProcUnlinkLocked proc

-- ==== the calls

/-- What `spawn_proc` is given: its arguments, and what it gets from the
functions it calls. -/
structure SpawnArgs where
  type : ProcType
  vas : Option Nat
  kzalloc : Option Nat
  schedParentPid : Nat
  vasCreate : Option Nat
  kernelVas : Option Nat

/-- `proc->vas` in the end. -/
def SpawnArgs.space (a : SpawnArgs) : Option Nat :=
  match a.vas with
  | some vas => some vas
  | none => if a.type = .user then a.vasCreate else a.kernelVas

/-- `spawn_proc` up to `proc->ppid`: the pid. -/
def takePid (s : Procs) (proc : Nat) (type : ProcType) : Option Procs :=
  let s := s.modPcb proc fun _ => Pcb.zero
  if type = .idle then some (s.modPcb proc fun p => { p with pid := SCHED_IDLE_PID })
  else
    match s.schedAllocPid with
    | none => none
    | some (s, pid) =>
        let s := s.modPcb proc fun p => { p with pid }
        some (if pid ≠ SCHED_INVALID_PID then s.schedProcLinkLocked proc else s)

/-- `spawn_proc`, with the process it returns. -/
def spawnProc (s : Procs) (a : SpawnArgs) : Option (Procs × Option Nat) :=
  match a.kzalloc with
  | none => some (s, none)
  | some proc =>
      match s.takePid proc a.type with
      | none => none
      | some s =>
          if (s.pcb proc).pid = SCHED_INVALID_PID then some (s, none)
          else
            let s := s.modPcb proc fun p =>
              { p with ppid := a.schedParentPid, type := a.type, vas := a.space }
            match a.space with
            | none => some (s.schedProcReleasePid proc, none)
            | some _ => some (s, some proc)

/-- `sched_free_proc`. -/
def schedFreeProc (s : Procs) (proc : Option Nat) : Procs :=
  match proc with
  | none => s
  | some proc => s.schedProcReleasePid proc

-- ==== runs

/-- Any sequence of `spawn_proc` and `sched_free_proc`, with the processes
that are live: those that `spawn_proc` has returned and that have not been
freed. `kzalloc` does not return what is live. -/
inductive Run : Procs → List Nat → Prop
  | start (pcb : Nat → Pcb) : Run (static pcb) []
  | spawn {s s' : Procs} {live : List Nat} {r : Option Nat} (a : SpawnArgs) (h : Run s live)
      (htype : a.type ≠ .idle) (hnew : ∀ p, a.kzalloc = some p → p ∉ live)
      (hcall : s.spawnProc a = some (s', r)) : Run s' (r.toList ++ live)
  | free {s : Procs} {live : List Nat} (proc : Nat) (h : Run s live) (hproc : proc ∈ live) :
      Run (s.schedFreeProc (some proc)) (live.erase proc)

end Procs

end Alix.Pids
