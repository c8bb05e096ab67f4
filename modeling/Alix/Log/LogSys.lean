/-
The log while many contexts write to it, and panics.

A context is a thread, with the interrupt and exception handlers that run
on its stack. It is any number; which of them are on a CPU, and with
interrupts on or off, is left open, so every order of their steps is a
run. The machine has some of these runs, and not all: what holds of every
run holds of the machine, and that there is one says nothing about it.
What a context does in the log is
a stack of frames: a handler that comes in between has its frames above
those of what it interrupts, and only the topmost frame runs. Handlers
that do not log have no frame.

`klog_lock` is a word that `spinlock_lock` exchanges, and interrupts stay
on while it is held. Behind it `kvlog_write_impl` takes a number and
stores the record, and then `uart_wbuf` sends one character after the
other, each of them a step. Only `vkpanic` turns interrupts off: a
context with a panic on its stack logs its report and nothing else, unless
it faults and panics once more.

`issued`, `written`, `mark` and `winner` are not in the source. They say
which calls have been made and in what order they have been stored, how
many had been when `klog_init` ran, and whose panic has `panic_lock`.
-/
import Alix.Log.Klog
import Mathlib.Logic.Relation

namespace Alix.Log

/-- A call of `kvlog_write_impl`. -/
structure Call where
  id : Nat
  draft : Draft
  /-- whether `vkpanic` made it -/
  report : Bool
deriving DecidableEq

/-- What a context is in the middle of. -/
inductive Frame where
  /-- in `spinlock_lock(&klog_lock)` -/
  | spin (k : Call)
  /-- behind it, with nothing done -/
  | store (k : Call)
  /-- in `uart_wbuf`, with these characters left -/
  | emit (k : Call) (rest : List UInt8)
  /-- in `spinlock_lock(&panic_lock)`, with the report to make -/
  | panicSpin (report : List Draft)
  /-- behind it, with the rest of the report -/
  | panic (rest : List Draft)

/-- A frame of `vkpanic`. -/
def Frame.panics : Frame → Bool
  | .panicSpin _ | .panic _ => true
  | .spin _ | .store _ | .emit _ _ => false

structure LogSys where
  klog : Klog
  /-- `klog_lock.value` -/
  lock : Bool
  /-- `panic_lock.value` -/
  panicLock : Bool
  /-- what the UART has been sent -/
  wire : List UInt8
  frames : Nat → List Frame
  issued : List Call
  written : List Call
  mark : Nat
  winner : Option (List Draft)

namespace LogSys

/-- Before anything runs. -/
def boot (slot : Nat → Record) : LogSys where
  klog := { ring := { slot, head := 0, count := 0 }, nextSeq := 0, ready := false }
  lock := false
  panicLock := false
  wire := []
  frames := fun _ => []
  issued := []
  written := []
  mark := 0
  winner := none

def setFrames (s : LogSys) (t : Nat) (fs : List Frame) : LogSys :=
  { s with frames := Function.update s.frames t fs }

/-- A context calls `kvlog_write_impl`. -/
def enter (s : LogSys) (t : Nat) (draft : Draft) (report : Bool) (below : List Frame) : LogSys :=
  let k : Call := { id := s.issued.length, draft, report }
  { s with issued := s.issued ++ [k] }.setFrames t (.spin k :: below)

/-- The steps. -/
inductive Act where
  /-- the code of a context, or a handler on its stack, calls the log -/
  | call (t : Nat) (draft : Draft)
  /-- one `atomic_exchange` on `klog_lock` -/
  | tryLock (t : Nat)
  /-- the number and the ring, and the line -/
  | store (t : Nat) (junk : Nat → UInt8)
  /-- one `outb` -/
  | putc (t : Nat)
  | unlock (t : Nat)
  | klogInit
  /-- `vkpanic` is called -/
  | vkpanic (t : Nat) (report : List Draft)
  /-- one `atomic_exchange` on `panic_lock` -/
  | tryPanicLock (t : Nat)
  /-- the next `klog_ns_force` of `vkpanic` -/
  | report (t : Nat)

/-- One step, where it can be taken. -/
def step (s : LogSys) : Act → Option LogSys
  | .call t draft => some (s.enter t draft false (s.frames t))
  | .tryLock t =>
      match s.frames t with
      | .spin k :: below =>
          if s.lock then some s else some ({ s with lock := true }.setFrames t (.store k :: below))
      | _ => none
  | .store t junk =>
      match s.frames t with
      | .store k :: below =>
          some ({ s with
            klog := s.klog.store k.draft
            written := s.written ++ [k] }.setFrames t
              (.emit k (klogEmit junk k.draft).bytes :: below))
      | _ => none
  | .putc t =>
      match s.frames t with
      | .emit k (c :: rest) :: below =>
          some ({ s with wire := s.wire ++ [c] }.setFrames t (.emit k rest :: below))
      | _ => none
  | .unlock t =>
      match s.frames t with
      | .emit _ [] :: below => some ({ s with lock := false }.setFrames t below)
      | _ => none
  | .klogInit => some { s with klog := s.klog.klogInit, mark := s.written.length }
  | .vkpanic t report => some (s.setFrames t (.panicSpin report :: s.frames t))
  | .tryPanicLock t =>
      match s.frames t with
      | .panicSpin report :: below =>
          if s.panicLock then some s
          else some ({ s with panicLock := true, winner := some report }.setFrames t
            (.panic report :: below))
      | _ => none
  | .report t =>
      match s.frames t with
      | .panic (draft :: rest) :: below => some (s.enter t draft true (.panic rest :: below))
      | _ => none

/-- When the machine can take a step: code that calls the log runs with
interrupts on, or is a handler that an interrupt can reach, and `kmain`
calls `klog_init` before anything else runs. -/
def May (s : LogSys) : Act → Prop
  | .call t _ => ∀ f ∈ s.frames t, f.panics = false
  | .klogInit => ∀ t, s.frames t = []
  | .tryLock _ | .store _ _ | .putc _ | .unlock _ | .vkpanic _ _ | .tryPanicLock _
  | .report _ => True

/-- Some step. Every step of the machine is one. The converse fails: there
are no CPUs here, so a context may step that no CPU would run. -/
def Next (s s' : LogSys) : Prop := ∃ a, s.May a ∧ s.step a = some s'

/-- Any number of steps. -/
abbrev Runs : LogSys → LogSys → Prop := Relation.ReflTransGen Next

end LogSys

end Alix.Log
