/-
The scheduler of `sys/sched.c`.

A thread and a process are named by the allocation they live in, and the
numbers of the first `cpuCount` of each belong to the static idle threads
and their processes. A thread's `rq_node` carries the thread itself as
its datum. The thread list of a process is the chain `pcb->thread`,
`thread->next`; `kfree` is recorded in the two lists of what has been
freed, newest first, so that a second `kfree` would show.

Every function below runs under the `sched_lock` of one CPU, or is one
such section after another with nothing observable between; here each is
one step. `c` is the CPU the step runs on (`cpu_current()->index`), and
`sp` the stack pointer that `context_switch` saves. A function answers
nothing where the source does not come back: the panics of `sched_exit`,
and a walk over damaged links that does not end. What `thread_block_current`
calls through `release` belongs to its caller and touches no scheduler
state.

A thread takes a stack of 16 KiB from a heap that rounds it to a block of
32 KiB of the at most 128 TiB that the direct map can hold, so fewer than
`2^32` threads exist at a time and the counters do not wrap.
-/
import Mathlib.Algebra.Group.Nat.Defs
import Alix.Sys.Rq

namespace Alix

/-- `thread_status_t`. -/
inductive ThreadStatus where
  | runnable
  | running
  | blocked
  | zombie
deriving DecidableEq, Repr

/-- `proc_type_t`. -/
inductive ProcType where
  | kernel
  | user
  | idle
deriving DecidableEq, Repr

/-- `tcb_t`, without what the scheduler does not read. -/
structure Tcb where
  status : ThreadStatus
  ticksLeft : Nat
  totalTicks : Nat
  rsp : Nat
  parent : Nat
  cpuIndex : Nat

/-- `pcb_t`, likewise. -/
structure Pcb where
  type : ProcType
  thread : List Nat
  threadCount : Nat

/-- The scheduler's part of `struct cpu_info`. -/
structure CpuInfo where
  currentThread : Nat
  idleThread : Nat
  schedThreadCount : Nat

/-- The queues: the `rq` of a CPU and its entry of `zombie_rq`. -/
inductive Queue where
  | run (cpu : Nat)
  | zombie (cpu : Nat)
deriving DecidableEq, Repr

abbrev SCHED_QUANTUM_TICKS : Nat := 2

structure Sched where
  cpuCount : Nat
  cpu : Nat → CpuInfo
  queue : Queue → Rq Nat
  nodes : RqNodes Nat Nat
  tcb : Nat → Tcb
  pcb : Nat → Pcb
  tcbCount : Nat
  pcbCount : Nat
  freedTcbs : List Nat
  freedPcbs : List Nat

namespace Sched

-- ==== fields

def modTcb (s : Sched) (t : Nat) (f : Tcb → Tcb) : Sched :=
  { s with tcb := Function.update s.tcb t (f (s.tcb t)) }

def modCpu (s : Sched) (c : Nat) (f : CpuInfo → CpuInfo) : Sched :=
  { s with cpu := Function.update s.cpu c (f (s.cpu c)) }

def modPcb (s : Sched) (p : Nat) (f : Pcb → Pcb) : Sched :=
  { s with pcb := Function.update s.pcb p (f (s.pcb p)) }

/-- `thread->status = status` and `SCHED_TICK_RESET(thread)`. -/
def setStatus (s : Sched) (t : Nat) (status : ThreadStatus) : Sched :=
  s.modTcb t fun th => { th with status, ticksLeft := SCHED_QUANTUM_TICKS }

/-- `rq_push_back(queue, &thread->rq_node, thread)`. -/
def pushBack (s : Sched) (q : Queue) (t : Nat) : Sched :=
  let r := s.nodes.pushBack (s.queue q) t t
  { s with nodes := r.1, queue := Function.update s.queue q r.2 }

/-- `rq_pop_front(queue)`, where the queue has a first node. -/
def popFront (s : Sched) (q : Queue) : Option (Sched × Option Nat) :=
  match s.nodes.popFront (s.queue q) with
  | none => none
  | some (nodes, rq, data) =>
      some ({ s with nodes, queue := Function.update s.queue q rq }, data)

/-- `rq_find(queue, thread)`. -/
def find (s : Sched) (q : Queue) (t : Nat) : Option (Option Nat) :=
  s.nodes.findFrom t s.tcbCount (s.queue q).head

/-- `if (rq_contains(queue, thread)) rq_remove(queue, thread)`. -/
def removeIfQueued (s : Sched) (q : Queue) (t : Nat) : Option Sched :=
  match s.find q t with
  | none => none
  | some none => some s
  | some (some node) =>
      let r := s.nodes.removeNode (s.queue q) node
      some { s with nodes := r.1, queue := Function.update s.queue q r.2 }

-- ==== spawn_thread

/-- `sched_cpu_load`. -/
def schedCpuLoad (s : Sched) (c : Nat) : Nat :=
  let current := (s.cpu c).currentThread
  let load := (s.cpu c).schedThreadCount
  if current ≠ (s.cpu c).idleThread ∧ (s.tcb current).status = .running then
    load + 1
  else load

/-- One round of `sched_select_cpu` over the best CPU so far. -/
def selectRound (s : Sched) (best : Option Nat × Nat) (c : Nat) :
    Option Nat × Nat :=
  if s.schedCpuLoad c < best.2 then (some c, s.schedCpuLoad c) else best

/-- `sched_select_cpu`. -/
def schedSelectCpu (s : Sched) (c : Nat) : Nat :=
  ((List.range s.cpuCount).foldl s.selectRound (none, 2 ^ 64 - 1)).1.getD c

/-- `spawn_proc`, as far as threads are concerned. -/
def spawnProc (s : Sched) (type : ProcType) : Sched :=
  { s with
    pcb := Function.update s.pcb s.pcbCount ⟨type, [], 0⟩
    pcbCount := s.pcbCount + 1 }

/-- `spawn_thread`. `mem` says whether the heap has room for the thread
and its stack, `rsp` is the top of that stack. -/
def spawnThread (s : Sched) (c pcb : Nat) (mem : Bool) (rsp : Nat) : Sched :=
  if (s.pcb pcb).type = .user then s
  else
    let cpu := s.schedSelectCpu c
    if !mem then s
    else
      let thread := s.tcbCount
      let tcb := ⟨.runnable, SCHED_QUANTUM_TICKS, 0, rsp, pcb, cpu⟩
      let s := { s with
        tcb := Function.update s.tcb thread tcb
        tcbCount := s.tcbCount + 1
        nodes := s.nodes.nodeInit thread thread }
      let s := s.modPcb pcb fun p => { p with
        thread := thread :: p.thread
        threadCount := p.threadCount + 1 }
      let s := s.pushBack (.run cpu) thread
      s.modCpu cpu fun i =>
        { i with schedThreadCount := i.schedThreadCount + 1 }

-- ==== reaping

/-- `sched_proc_unlink_thread`. -/
def schedProcUnlinkThread (s : Sched) (pcb thread : Nat) : Sched :=
  if thread ∈ (s.pcb pcb).thread then
    s.modPcb pcb fun p => { p with
      thread := p.thread.erase thread
      threadCount := p.threadCount - 1 }
  else s

/-- `sched_free_proc`. -/
def schedFreeProc (s : Sched) (pcb : Nat) : Sched :=
  { s with freedPcbs := pcb :: s.freedPcbs }

/-- `sched_free_thread`. -/
def schedFreeThread (s : Sched) (c thread : Nat) : Sched :=
  if thread = (s.cpu c).idleThread then s
  else
    let cpu := (s.tcb thread).cpuIndex
    let s :=
      if cpu < s.cpuCount then s.modCpu cpu fun i =>
        { i with schedThreadCount := i.schedThreadCount - 1 }
      else s
    let proc := (s.tcb thread).parent
    let s := s.schedProcUnlinkThread proc thread
    let s := { s with freedTcbs := thread :: s.freedTcbs }
    if (s.pcb proc).threadCount = 0 then s.schedFreeProc proc else s

/-- `sched_queue_zombie_locked`. -/
def schedQueueZombieLocked (s : Sched) (c thread : Nat) : Sched :=
  if thread = (s.cpu c).idleThread then s
  else
    let s := s.modTcb thread fun th => { th with status := .zombie }
    s.pushBack (.zombie c) thread

/-- The loop of `sched_reap_cpu`. -/
def schedReapCpu (s : Sched) (c : Nat) : Nat → Option Sched
  | 0 => none
  | fuel + 1 =>
      match s.popFront (.zombie c) with
      | none => some s
      | some (s, none) => some s
      | some (s, some thread) => (s.schedFreeThread c thread).schedReapCpu c fuel

/-- `sched_reap`. -/
def schedReap (s : Sched) (c : Nat) : Option Sched :=
  s.schedReapCpu c (s.tcbCount + 1)

-- ==== switching

/-- The loop of `sched_next_thread`. -/
def schedNextThread (s : Sched) (c : Nat) : Nat → Option (Sched × Nat)
  | 0 => none
  | fuel + 1 =>
      match s.popFront (.run c) with
      | none => some (s, (s.cpu c).idleThread)
      | some (s, none) => some (s, (s.cpu c).idleThread)
      | some (s, some next) =>
          if (s.tcb next).status = .runnable ∧ (s.tcb next).rsp ≠ 0 then
            some (s, next)
          else if (s.tcb next).status = .zombie then
            (s.schedQueueZombieLocked c next).schedNextThread c fuel
          else s.schedNextThread c fuel

/-- `context_switch`: the state it leaves behind is the saved stack
pointer of the thread that was running. -/
def contextSwitch (s : Sched) (prev sp : Nat) : Sched :=
  s.modTcb prev fun th => { th with rsp := sp }

/-- `cpu->current_thread = thread`. -/
def setCurrent (s : Sched) (c thread : Nat) : Sched :=
  s.modCpu c fun i => { i with currentThread := thread }

/-- `sched_run_next_locked`. -/
def schedRunNextLocked (s : Sched) (c current sp : Nat) : Option Sched :=
  match s.schedNextThread c (s.tcbCount + 1) with
  | none => none
  | some (s, next) =>
      if next = current then some (s.setStatus current .running)
      else
        some (((s.setStatus next .running).setCurrent c next).contextSwitch
          current sp)

/-- `sched_tick`. -/
def schedTick (s : Sched) (c sp : Nat) : Option Sched :=
  match s.schedReap c with
  | none => none
  | some s =>
      let idle := (s.cpu c).idleThread
      let current := (s.cpu c).currentThread
      let s := s.modTcb current fun th =>
        { th with totalTicks := th.totalTicks + 1 }
      if (s.tcb current).status = .running then
        let s := s.modTcb current fun th =>
          { th with ticksLeft := th.ticksLeft - 1 }
        if (s.tcb current).ticksLeft ≠ 0
            ∧ (current ≠ idle ∨ (s.queue (.run c)).empty) then some s
        else
          let s :=
            if current ≠ idle then
              (s.setStatus current .runnable).pushBack (.run c) current
            else s
          s.schedRunNextLocked c current sp
      else s.schedRunNextLocked c current sp

/-- `sched_yield`. -/
def schedYield (s : Sched) (c sp : Nat) : Option Sched :=
  let current := (s.cpu c).currentThread
  let s :=
    if current ≠ (s.cpu c).idleThread ∧ (s.tcb current).status ≠ .zombie then
      (s.setStatus current .runnable).pushBack (.run c) current
    else s
  s.schedRunNextLocked c current sp

/-- `thread_block_current`. -/
def threadBlockCurrent (s : Sched) (c sp : Nat) : Option Sched :=
  let current := (s.cpu c).currentThread
  if current = (s.cpu c).idleThread then some s
  else
    let s := s.modTcb current fun th => { th with status := .blocked }
    match s.removeIfQueued (.run c) current with
    | none => none
    | some s => s.schedRunNextLocked c current sp

/-- `thread_block`. -/
def threadBlock (s : Sched) (c thread sp : Nat) : Option Sched :=
  let cpu := (s.tcb thread).cpuIndex
  if s.cpuCount ≤ cpu ∨ thread = (s.cpu cpu).idleThread then some s
  else
    let s := s.modTcb thread fun th => { th with status := .blocked }
    match s.removeIfQueued (.run cpu) thread with
    | none => none
    | some s =>
        if cpu = c ∧ (s.cpu cpu).currentThread = thread then
          s.schedRunNextLocked cpu thread sp
        else some s

/-- `thread_wake`. -/
def threadWake (s : Sched) (thread : Nat) : Option Sched :=
  let cpu := (s.tcb thread).cpuIndex
  if s.cpuCount ≤ cpu ∨ thread = (s.cpu cpu).idleThread then some s
  else if (s.tcb thread).status = .blocked then
    let s := s.setStatus thread .runnable
    match s.find (.run cpu) thread with
    | none => none
    | some none => some (s.pushBack (.run cpu) thread)
    | some (some _) => some s
  else some s

/-- `sched_exit`. -/
def schedExit (s : Sched) (c sp : Nat) : Option Sched :=
  let current := (s.cpu c).currentThread
  if current = (s.cpu c).idleThread then none
  else
    let s := s.schedQueueZombieLocked c current
    match s.schedNextThread c (s.tcbCount + 1) with
    | none => none
    | some (s, next) =>
        let next := if next = current then (s.cpu c).idleThread else next
        some (((s.setStatus next .running).setCurrent c next).contextSwitch
          current sp)

-- ==== runs

/-- `sched_init` on every CPU. -/
def schedInit (cpuCount : Nat) : Sched where
  cpuCount := cpuCount
  cpu := fun c => ⟨c, c, 0⟩
  queue := fun _ => Rq.init
  nodes := ⟨⟨fun _ => none, fun _ => none⟩, fun t => some t⟩
  tcb := fun t => ⟨.running, SCHED_QUANTUM_TICKS, 0, 1, t, t⟩
  pcb := fun p => ⟨.idle, [p], 1⟩
  tcbCount := cpuCount
  pcbCount := cpuCount
  freedTcbs := []
  freedPcbs := []

/-- The calls. -/
inductive Call where
  | spawnProc (type : ProcType)
  | spawnThread (c pcb : Nat) (mem : Bool) (rsp : Nat)
  | tick (c sp : Nat)
  | yield (c sp : Nat)
  | blockCurrent (c sp : Nat)
  | wake (thread : Nat)
  | exit (c sp : Nat)
  | reap (c : Nat)
  | block (c thread sp : Nat)

def call (s : Sched) : Call → Option Sched
  | .spawnProc type => some (s.spawnProc type)
  | .spawnThread c pcb mem rsp => some (s.spawnThread c pcb mem rsp)
  | .tick c sp => s.schedTick c sp
  | .yield c sp => s.schedYield c sp
  | .blockCurrent c sp => s.threadBlockCurrent c sp
  | .wake thread => s.threadWake thread
  | .exit c sp => s.schedExit c sp
  | .reap c => s.schedReap c
  | .block c thread sp => s.threadBlock c thread sp

/-- A thread that has been allocated and not freed. -/
def Live (s : Sched) (t : Nat) : Prop := t < s.tcbCount ∧ t ∉ s.freedTcbs

/-- What a call may be given: a CPU that exists, a thread or a process
that has not been freed, a stack. -/
def Valid (s : Sched) : Call → Prop
  | .spawnProc _ => True
  | .spawnThread c pcb _ rsp =>
      c < s.cpuCount ∧ pcb < s.pcbCount ∧ pcb ∉ s.freedPcbs ∧ rsp ≠ 0
  | .tick c sp => c < s.cpuCount ∧ sp ≠ 0
  | .yield c sp => c < s.cpuCount ∧ sp ≠ 0
  | .blockCurrent c sp => c < s.cpuCount ∧ sp ≠ 0
  | .wake thread => s.Live thread
  | .exit c sp => c < s.cpuCount ∧ sp ≠ 0
  | .reap c => c < s.cpuCount
  | .block c thread sp => c < s.cpuCount ∧ s.Live thread ∧ sp ≠ 0

end Sched

end Alix
