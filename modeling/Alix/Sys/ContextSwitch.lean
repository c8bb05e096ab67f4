/-
`context_switch` and `sched_make_stack` of `sys/sched.c`, word by word,
and threads that use them.

A thread that is not running exists as words on its stack: fifteen
registers and the address where it goes on. Its stack pointer is in its
TCB. `Cores` is the memory and the registers of some CPUs; what a thread
does between two switches is not said, only what it must not write
(`Guarded`): what a thread that is not running has on its stack, and the
word with its stack pointer. The scheduler decides who comes next; here
any thread may, if it does not run.
-/
import Alix.Cpu.Isr

namespace Alix.Cpu

open X86
open Bytes (Memory)

-- ==== the code

/-- `SCHED_TCB_RSP_OFFSET`. -/
abbrev SCHED_TCB_RSP_OFFSET : Word := 56

/-- `SCHED_CONTEXT_QWORDS`. -/
abbrev SCHED_CONTEXT_QWORDS : Nat := 16

/-- `SCHED_CONTEXT_THREAD_ARG_SLOT`. -/
abbrev SCHED_CONTEXT_THREAD_ARG_SLOT : Nat := 5

/-- `context_switch(prev, next)`: `prev` is in `rdi` and `next` in `rsi`. -/
def contextSwitch : List Instr :=
  pushaq
    ++ [.store .rdi SCHED_TCB_RSP_OFFSET .rsp, .load .rsp .rsi SCHED_TCB_RSP_OFFSET]
    ++ popaq ++ [.ret]

/-- `*--sp = v`. -/
def putWord (x : Memory × Word) (v : Word) : Memory × Word :=
  (store64 x.1 (x.2 - 8) v, x.2 - 8)

/-- `sched_make_stack`. -/
def schedMakeStack (m : Memory) (entry thread stack : Word) (qwords : Nat) : Memory × Word :=
  let x := putWord (m, stack + BitVec.ofNat 64 (8 * qwords)) entry
  let x := (List.replicate (SCHED_CONTEXT_QWORDS - 1) 0).foldl putWord x
  (store64 x.1 (x.2 + BitVec.ofNat 64 (8 * SCHED_CONTEXT_THREAD_ARG_SLOT)) thread, x.2)

-- ==== the threads

/-- Where the TCBs and the stacks are. -/
structure Layout (τ : Type) where
  tcb : τ → Word
  stack : τ → Word
  qwords : τ → Nat
  room : ∀ t, SCHED_CONTEXT_QWORDS ≤ qwords t
    ∧ (stack t).toNat + 8 * qwords t < 2 ^ 64 ∧ (tcb t).toNat + 64 ≤ 2 ^ 64
  tcbs : ∀ t u, t ≠ u → (tcb t).toNat + 64 ≤ (tcb u).toNat ∨ (tcb u).toNat + 64 ≤ (tcb t).toNat
  areas : ∀ t u, t ≠ u → (stack t).toNat + 8 * qwords t ≤ (stack u).toNat
    ∨ (stack u).toNat + 8 * qwords u ≤ (stack t).toNat
  apart : ∀ t u, (tcb t).toNat + 64 ≤ (stack u).toNat
    ∨ (stack u).toNat + 8 * qwords u ≤ (tcb t).toNat

namespace Layout

variable {τ : Type} (L : Layout τ)

/-- The end of a stack. -/
def stackEnd (t : τ) : Nat := (L.stack t).toNat + 8 * L.qwords t

/-- The address of `rsp` in a TCB. -/
def slot (t : τ) : Nat := (L.tcb t).toNat + 56

/-- The stack pointer in a TCB. -/
def savedSp (m : Memory) (t : τ) : Nat := Bytes.load m (L.slot t) 8

/-- What nobody else may write while `t` is not running. -/
def Guarded (m : Memory) (t : τ) (x : Nat) : Prop :=
  L.slot t ≤ x ∧ x < L.slot t + 8 ∨ L.savedSp m t ≤ x ∧ x < L.stackEnd t

end Layout

/-- The memory, and the registers and the thread of every CPU. `born`
are the threads that have a stack. -/
structure Cores (κ τ : Type) where
  mem : Memory
  regs : κ → Regs
  current : κ → τ
  born : τ → Bool

inductive Act (κ τ : Type) where
  /-- the thread of a CPU has run on -/
  | run (c : κ) (regs : Regs) (mem : Memory)
  /-- it makes the stack of a thread that is to start in `entry` -/
  | spawn (c : κ) (t : τ) (entry : Word)
  /-- it calls `context_switch` -/
  | switch (c : κ) (t : τ)

namespace Cores

variable {κ τ : Type} [DecidableEq κ] [DecidableEq τ]

/-- The machine of a CPU. -/
def machine (s : Cores κ τ) (c : κ) : Machine := { s.regs c with mem := s.mem }

def step (status : Instr → Machine → Word) (L : Layout τ) (s : Cores κ τ) : Act κ τ → Cores κ τ
  | .run c regs mem => { s with mem, regs := Function.update s.regs c regs }
  | .spawn _ t entry =>
      let x := schedMakeStack s.mem entry (L.tcb t) (L.stack t) (L.qwords t)
      { s with
        mem := store64 x.1 (L.tcb t + SCHED_TCB_RSP_OFFSET) x.2
        born := Function.update s.born t true }
  | .switch c t =>
      let m := run status (s.machine c) contextSwitch
      { s with
        mem := m.mem
        regs := Function.update s.regs c m.toRegs
        current := Function.update s.current c t }

/-- A thread that has a stack and runs nowhere. -/
def Waiting (s : Cores κ τ) (t : τ) : Prop := s.born t = true ∧ ∀ c, s.current c ≠ t

/-- What a step needs. A switch needs its two arguments, and a stack
pointer in the stack of the thread, with the room for the registers below
it and the return address above. -/
def Enabled (L : Layout τ) (s : Cores κ τ) : Act κ τ → Prop
  | .run _ _ mem => ∀ u, s.Waiting u → ∀ x, L.Guarded s.mem u x → mem x = s.mem x
  | .spawn _ t _ => s.born t = false
  | .switch c t =>
      (s.regs c).gpr .rdi = L.tcb (s.current c) ∧ (s.regs c).gpr .rsi = L.tcb t
        ∧ (L.stack (s.current c)).toNat + 120 ≤ ((s.regs c).gpr .rsp).toNat
        ∧ ((s.regs c).gpr .rsp).toNat + 8 ≤ L.stackEnd (s.current c)
        ∧ (t = s.current c ∨ s.Waiting t)

end Cores

end Alix.Cpu
