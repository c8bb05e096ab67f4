/-
A thread goes on with the registers and the stack that it had.

`Stored` says that a thread's registers lie on its stack, under the stack
pointer in its TCB. The first half of `context_switch` makes that true of
the thread that leaves (`Saved`, from `pushaq`), `sched_make_stack` makes
it true of a new thread, and for the second half nothing else is needed
(`switch_restores`). In between no step touches those words, because the
stacks and the TCBs of two threads are apart (`Parked.step`). So between
leaving and coming back any number of steps may lie, of any threads on
any CPUs.

The flags, the control and the segment registers are not saved: they are
those of the thread before.
-/
import Alix.Sys.ContextSwitch
import Alix.Cpu.Proofs.Isr

namespace Alix.Cpu

open X86
open Bytes (Memory)

variable {κ τ : Type} {L : Layout τ} {t u : τ} {m₀ m m' : Memory}
  {status : Instr → Machine → Word}

-- ==== the context

/-- Where a thread is. -/
structure Context where
  gpr : Reg → Word
  rip : Word

/-- The registers of a thread lie on its stack, and the rest of the stack
is as in the memory `m₀`. -/
structure Stored (L : Layout τ) (m₀ m : Memory) (t : τ) (x : Context) : Prop where
  sp : L.savedSp m t + 128 = (x.gpr .rsp).toNat
  low : (L.stack t).toNat ≤ L.savedSp m t
  top : (x.gpr .rsp).toNat ≤ L.stackEnd t
  words : Holds m (L.savedSp m t) (savedRegs.map x.gpr ++ [x.rip])
  above : ∀ y, (x.gpr .rsp).toNat ≤ y → y < L.stackEnd t → m y = m₀ y

/-- Only guarded bytes count. -/
theorem Stored.congr {x : Context} (h : Stored L m₀ m t x)
    (hsame : ∀ y, L.Guarded m t y → m' y = m y) : Stored L m₀ m' t x := by
  have hsp : L.savedSp m' t = L.savedSp m t :=
    Bytes.load_congr fun y h1 h2 => hsame y (Or.inl ⟨h1, h2⟩)
  have h128 := h.sp
  have htop := h.top
  constructor
  · rw [hsp]
    exact h.sp
  · rw [hsp]
    exact h.low
  · exact h.top
  · rw [hsp]
    apply h.words.congr
    intro y h1 h2
    have hlen : (savedRegs.map x.gpr ++ [x.rip]).length = 16 := rfl
    exact hsame y (Or.inr ⟨h1, by omega⟩)
  · intro y h1 h2
    rw [hsame y (Or.inr ⟨by omega, h2⟩)]
    exact h.above y h1 h2

/-- A write that stays in the TCB and the stack of another thread. -/
theorem Stored.frame {x : Context} (h : Stored L m₀ m t x) (hne : u ≠ t)
    (hsame : ∀ y, m' y ≠ m y → L.slot u ≤ y ∧ y < L.slot u + 8
      ∨ (L.stack u).toNat ≤ y ∧ y < L.stackEnd u) : Stored L m₀ m' t x := by
  apply h.congr
  intro y hy
  by_contra hdiff
  have hwhere := hsame y hdiff
  have h1 := L.tcbs u t hne
  have h2 := L.areas u t hne
  have h3 := L.apart u t
  have h4 := L.apart t u
  have hlow := h.low
  unfold Layout.Guarded Layout.slot Layout.stackEnd at *
  omega

-- ==== switching

/-- The registers behind the call of `context_switch`. -/
def returned (M : Machine) : Context where
  gpr := Function.update M.gpr .rsp (M.gpr .rsp + 8)
  rip := M.top

theorem returned_rsp (M : Machine) : (returned M).gpr .rsp = M.gpr .rsp + 8 := by
  simp [returned]

theorem toNat_slot (L : Layout τ) (t : τ) :
    (L.tcb t + SCHED_TCB_RSP_OFFSET).toNat = L.slot t := by
  have h := (L.room t).2.2
  rw [BitVec.toNat_add, show SCHED_TCB_RSP_OFFSET.toNat = 56 from rfl]
  exact Nat.mod_eq_of_lt (by omega)

/-- The store of a stack pointer into its place in the TCB. -/
theorem store_slot {m : Memory} {p : Word} (hp : p.toNat = L.slot t) (sp : Word) :
    L.savedSp (store64 m p sp) t = sp.toNat
      ∧ ∀ y, ¬ (L.slot t ≤ y ∧ y < L.slot t + 8) → store64 m p sp y = m y := by
  constructor
  · unfold Layout.savedSp
    rw [← hp]
    exact load_store64 ..
  · intro y hy
    apply store64_outside
    rw [hp]
    omega

/-- Up to where the stack pointer is in the TCB. -/
theorem switch_saves (status : Instr → Machine → Word) {M : Machine}
    (hrdi : M.gpr .rdi = L.tcb t)
    (hlow : (L.stack t).toNat + 120 ≤ (M.gpr .rsp).toNat)
    (hend : (M.gpr .rsp).toNat + 8 ≤ L.stackEnd t) :
    ∃ M', run status M (pushaq ++ [.store .rdi SCHED_TCB_RSP_OFFSET .rsp]) = M'
      ∧ Stored L M.mem M'.mem t (returned M)
      ∧ (∀ r, r ≠ .rsp → M'.gpr r = M.gpr r)
      ∧ M'.cr = M.cr ∧ M'.seg = M.seg ∧ M'.rflags = M.rflags
      ∧ ∀ y, M'.mem y ≠ M.mem y → L.slot t ≤ y ∧ y < L.slot t + 8
        ∨ (L.stack t).toNat ≤ y ∧ y < L.stackEnd t := by
  have hend64 := (L.room t).2.1
  have hpush := (Saved.refl M).pushes status savedRegs.reverse
    (by simp [savedRegs]; omega) (by decide)
  rw [← pushaq_eq, List.map_reverse, List.reverse_reverse, List.append_nil] at hpush
  have hflags : (run status M pushaq).rflags = M.rflags := by
    rw [pushaq_eq]
    exact run_pushes_rflags status _ M
  rw [run_append]
  generalize run status M pushaq = M₁ at hpush hflags
  have hsp₁ : (M₁.gpr .rsp).toNat + 120 = (M.gpr .rsp).toNat := hpush.sp
  have haddr : (M₁.gpr .rdi + SCHED_TCB_RSP_OFFSET).toNat = L.slot t := by
    rw [hpush.gpr .rdi (by decide) (by decide), hrdi]
    exact toNat_slot L t
  have hapart := L.apart t t
  have hstore : run status M₁ [.store .rdi SCHED_TCB_RSP_OFFSET .rsp] = { M₁ with
      mem := store64 M₁.mem (M₁.gpr .rdi + SCHED_TCB_RSP_OFFSET) (M₁.gpr .rsp) } := rfl
  rw [hstore]
  -- the word in the TCB, and the bytes outside it
  obtain ⟨hslot, hout⟩ := store_slot (m := M₁.mem) haddr (M₁.gpr .rsp)
  generalize store64 M₁.mem (M₁.gpr .rdi + SCHED_TCB_RSP_OFFSET) (M₁.gpr .rsp) = mem
    at hslot hout
  have hstack : ∀ y, (L.stack t).toNat ≤ y → y < L.stackEnd t → mem y = M₁.mem y := by
    intro y h1 h2
    apply hout
    unfold Layout.slot Layout.stackEnd at *
    omega
  have hregs : savedRegs.map (returned M).gpr = savedRegs.map M.gpr := by
    apply List.map_congr_left
    intro r hr
    exact Function.update_of_ne ((mem_savedRegs r).mp hr) ..
  have hrsp : ((returned M).gpr .rsp).toNat = (M.gpr .rsp).toNat + 8 := by
    rw [returned_rsp, BitVec.toNat_add]
    unfold Layout.stackEnd at hend
    exact Nat.mod_eq_of_lt (by rw [show (8 : Word).toNat = 8 from rfl]; omega)
  have hrip : Bytes.load mem (M.gpr .rsp).toNat 8 = (returned M).rip.toNat := by
    rw [show (returned M).rip = load64 M.mem (M.gpr .rsp) from rfl, toNat_load64]
    apply Bytes.load_congr
    intro y h1 h2
    rw [hstack y (by omega) (by omega)]
    exact hpush.outside y (Or.inr h1)
  refine ⟨_, rfl, ⟨?_, ?_, ?_, ?_, ?_⟩, ?_, hpush.cr, hpush.seg, hflags, ?_⟩
  · rw [hrsp, hslot]
    omega
  · rw [hslot]
    omega
  · rw [hrsp]
    exact hend
  · rw [hslot, hregs, holds_append]
    constructor
    · apply hpush.words.congr
      intro y h1 h2
      have hlen : (savedRegs.map M.gpr).length = 15 := rfl
      apply hstack <;> omega
    · refine ⟨?_, trivial⟩
      have hlen : (M₁.gpr .rsp).toNat + 8 * (savedRegs.map M.gpr).length = (M.gpr .rsp).toNat := hsp₁
      rw [hlen]
      exact hrip
  · intro y h1 h2
    rw [hrsp] at h1
    exact (hstack y (by omega) h2).trans (hpush.outside y (Or.inr (by omega)))
  · intro r hr
    exact hpush.gpr r hr (by simp)
  · intro y hy
    by_contra hno
    rw [not_or] at hno
    exact hy ((hout y hno.1).trans (hpush.outside y (by omega)))

/-- From there to the end. -/
theorem switch_restores {M : Machine} {x : Context} (hrsi : M.gpr .rsi = L.tcb t)
    (h : Stored L m₀ M.mem t x) :
    run status M ([.load .rsp .rsi SCHED_TCB_RSP_OFFSET] ++ popaq ++ [.ret])
      = { M with gpr := x.gpr, rip := x.rip } := by
  have hend64 := (L.room t).2.1
  have h128 := h.sp
  have htop := h.top
  have hsp : (load64 M.mem (M.gpr .rsi + SCHED_TCB_RSP_OFFSET)).toNat = L.savedSp M.mem t := by
    rw [toNat_load64, hrsi, toNat_slot]
    rfl
  have hload : run status M [.load .rsp .rsi SCHED_TCB_RSP_OFFSET]
      = M.set .rsp (load64 M.mem (M.gpr .rsi + SCHED_TCB_RSP_OFFSET)) := rfl
  rw [run_append, run_append, hload]
  generalize load64 M.mem (M.gpr .rsi + SCHED_TCB_RSP_OFFSET) = sp at hsp
  have hwords := h.words
  rw [holds_append, ← hsp] at hwords
  have hrsp : (M.set .rsp sp).gpr .rsp = sp := Machine.set_gpr_self
  have hlen : savedRegs.length = 15 := rfl
  unfold Layout.stackEnd at htop
  obtain ⟨gpr, hpop, hin, -, hend⟩ := run_pops status savedRegs x.gpr (M := M.set .rsp sp)
    (by rw [hrsp]; exact hwords.1) (by rw [hrsp, hlen]; omega) (by decide)
  rw [popaq_eq, hpop]
  rw [hrsp, hlen] at hend
  have htop : load64 M.mem (gpr .rsp) = x.rip := by
    apply load64_eq
    rw [hend]
    exact hwords.2.1
  have hgpr : Function.update gpr .rsp (gpr .rsp + 8) = x.gpr := by
    funext r
    by_cases hr : r = .rsp
    · rw [hr, Function.update_self]
      apply BitVec.eq_of_toNat_eq
      rw [BitVec.toNat_add, hend, show (8 : Word).toNat = 8 from rfl]
      omega
    · rw [Function.update_of_ne hr]
      exact hin r ((mem_savedRegs r).mpr hr)
  show { M with gpr := Function.update gpr .rsp (gpr .rsp + 8), rip := load64 M.mem (gpr .rsp) } = _
  rw [hgpr, htop]

theorem contextSwitch_eq : contextSwitch
    = (pushaq ++ [.store .rdi SCHED_TCB_RSP_OFFSET .rsp])
      ++ ([.load .rsp .rsi SCHED_TCB_RSP_OFFSET] ++ popaq ++ [.ret]) := rfl

/-- The second half does not write. -/
theorem restore_mem (M : Machine) :
    (run status M ([.load .rsp .rsi SCHED_TCB_RSP_OFFSET] ++ popaq ++ [.ret])).mem = M.mem := rfl

/-- The thread that leaves is stored, and nothing of another one has
changed. -/
theorem switch_leaves (status : Instr → Machine → Word) {M : Machine} (hrdi : M.gpr .rdi = L.tcb t)
    (hlow : (L.stack t).toNat + 120 ≤ (M.gpr .rsp).toNat)
    (hend : (M.gpr .rsp).toNat + 8 ≤ L.stackEnd t) :
    Stored L M.mem (run status M contextSwitch).mem t (returned M)
      ∧ ∀ y, (run status M contextSwitch).mem y ≠ M.mem y → L.slot t ≤ y ∧ y < L.slot t + 8
        ∨ (L.stack t).toNat ≤ y ∧ y < L.stackEnd t := by
  obtain ⟨M', hrun, hstored, -, -, -, -, hout⟩ := switch_saves status hrdi hlow hend
  rw [contextSwitch_eq, run_append, hrun, restore_mem]
  exact ⟨hstored, hout⟩

/-- The thread that comes gets its registers; those that are not saved
stay. -/
theorem switch_resumes (status : Instr → Machine → Word) {M : Machine} {x : Context}
    (hrdi : M.gpr .rdi = L.tcb t) (hrsi : M.gpr .rsi = L.tcb u)
    (hlow : (L.stack t).toNat + 120 ≤ (M.gpr .rsp).toNat)
    (hend : (M.gpr .rsp).toNat + 8 ≤ L.stackEnd t) (hne : t ≠ u)
    (hx : Stored L m₀ M.mem u x) :
    ∃ mem, run status M contextSwitch = { M with gpr := x.gpr, rip := x.rip, mem }
      ∧ Stored L m₀ mem u x := by
  obtain ⟨M', hrun, -, hgpr, hcr, hseg, hflags, hout⟩ :=
    switch_saves status hrdi hlow hend
  have hstored : Stored L m₀ M'.mem u x := hx.frame hne hout
  refine ⟨M'.mem, ?_, hstored⟩
  rw [contextSwitch_eq, run_append, hrun,
    switch_restores (by rw [hgpr .rsi (by decide), hrsi]) hstored, hcr, hseg, hflags]

-- ==== a new thread

/-- Words that are put on a stack. -/
theorem putWords (vs : List Word) {ws : List Word} {sp : Word} (h : Holds m sp.toNat ws)
    (hroom : 8 * vs.length ≤ sp.toNat) :
    Holds (vs.foldl putWord (m, sp)).1 (vs.foldl putWord (m, sp)).2.toNat (vs.reverse ++ ws)
      ∧ (vs.foldl putWord (m, sp)).2.toNat + 8 * vs.length = sp.toNat
      ∧ ∀ y, y < (vs.foldl putWord (m, sp)).2.toNat ∨ sp.toNat ≤ y →
        (vs.foldl putWord (m, sp)).1 y = m y := by
  induction vs generalizing m sp ws with
  | nil => exact ⟨h, rfl, fun _ _ => rfl⟩
  | cons v vs ih =>
      rw [List.length_cons] at hroom
      have hsp : (sp - 8).toNat = sp.toNat - 8 := by
        apply BitVec.toNat_sub_of_le
        rw [BitVec.le_def, show (8 : Word).toNat = 8 from rfl]
        omega
      have hput : Holds (store64 m (sp - 8) v) (sp - 8).toNat (v :: ws) := by
        apply Holds.cons_store
        rw [hsp, Nat.sub_add_cancel (by omega)]
        exact h
      obtain ⟨hwords, hend, hout⟩ := ih hput (by omega)
      rw [List.foldl_cons, show putWord (m, sp) v = (store64 m (sp - 8) v, sp - 8) from rfl]
      refine ⟨?_, by rw [List.length_cons]; omega, ?_⟩
      · rw [List.reverse_cons, List.append_assoc]
        exact hwords
      · intro y hy
        rw [hout y (by omega), store64_outside (by omega)]

/-- A thread that has never run. -/
def fresh (L : Layout τ) (t : τ) (entry : Word) : Context where
  gpr := fun r =>
    if r = .rdi then L.tcb t
    else if r = .rsp then L.stack t + BitVec.ofNat 64 (8 * L.qwords t)
    else 0
  rip := entry

theorem toNat_stackEnd (L : Layout τ) (t : τ) :
    (L.stack t + BitVec.ofNat 64 (8 * L.qwords t)).toNat = L.stackEnd t := by
  have h := (L.room t).2.1
  rw [BitVec.toNat_add, BitVec.toNat_ofNat, Nat.mod_eq_of_lt (a := 8 * L.qwords t) (by omega)]
  exact Nat.mod_eq_of_lt h

theorem schedMakeStack_eq (m : Memory) (entry thread stack : Word) (qwords : Nat) {x : Memory × Word}
    (hx : (entry :: List.replicate 15 0).foldl putWord
      (m, stack + BitVec.ofNat 64 (8 * qwords)) = x) :
    schedMakeStack m entry thread stack qwords
      = (store64 x.1 (x.2 + BitVec.ofNat 64 (8 * 5)) thread, x.2) := by
  rw [List.foldl_cons] at hx
  unfold schedMakeStack
  rw [show SCHED_CONTEXT_QWORDS - 1 = 15 from rfl]
  simp only [hx]

/-- `sched_make_stack`, and the store to the TCB behind it. -/
theorem spawn_stored (L : Layout τ) (t : τ) (m : Memory) (entry : Word) :
    let x := schedMakeStack m entry (L.tcb t) (L.stack t) (L.qwords t)
    let m' := store64 x.1 (L.tcb t + SCHED_TCB_RSP_OFFSET) x.2
    Stored L m m' t (fresh L t entry)
      ∧ ∀ y, m' y ≠ m y → L.slot t ≤ y ∧ y < L.slot t + 8
        ∨ (L.stack t).toNat ≤ y ∧ y < L.stackEnd t := by
  intro x m'
  obtain ⟨h16, hend64, -⟩ := L.room t
  have hslot := toNat_slot L t
  have htop := toNat_stackEnd L t
  have hapart := L.apart t t
  unfold SCHED_CONTEXT_QWORDS at h16
  obtain ⟨hwords, hend, hout⟩ := putWords (entry :: List.replicate 15 0)
    (show Holds m (L.stack t + BitVec.ofNat 64 (8 * L.qwords t)).toNat [] from trivial)
    (by rw [htop]; unfold Layout.stackEnd; simp; omega)
  generalize hx' : (entry :: List.replicate 15 0).foldl putWord
    (m, L.stack t + BitVec.ofNat 64 (8 * L.qwords t)) = x' at hwords hend hout
  have hx : x = (store64 x'.1 (x'.2 + BitVec.ofNat 64 (8 * 5)) (L.tcb t), x'.2) :=
    schedMakeStack_eq m entry (L.tcb t) (L.stack t) (L.qwords t) hx'
  have h128 : x'.2.toNat + 128 = L.stackEnd t := hend.trans htop
  have harg : (x'.2 + BitVec.ofNat 64 (8 * 5)).toNat = x'.2.toNat + 8 * 5 := by
    unfold Layout.stackEnd at h128
    rw [BitVec.toNat_add]
    exact Nat.mod_eq_of_lt (by rw [show (BitVec.ofNat 64 (8 * 5)).toNat = 40 from rfl]; omega)
  have hset : Holds x.1 x'.2.toNat (savedRegs.map (fresh L t entry).gpr ++ [entry]) := by
    rw [hx]
    exact hwords.set_store (i := 5) (by simp) harg (L.tcb t)
  have hlow : (L.stack t).toNat ≤ x'.2.toNat := by
    unfold Layout.stackEnd at h128
    omega
  obtain ⟨hsaved, hsame⟩ : L.savedSp m' t = x.2.toNat
      ∧ ∀ y, ¬ (L.slot t ≤ y ∧ y < L.slot t + 8) → m' y = x.1 y := store_slot hslot x.2
  have hsp : L.savedSp m' t = x'.2.toNat := hsaved.trans (by rw [hx])
  have hrsp : ((fresh L t entry).gpr .rsp).toNat = L.stackEnd t := htop
  refine ⟨⟨?_, ?_, ?_, ?_, ?_⟩, ?_⟩
  · rw [hsp, hrsp, h128]
  · rw [hsp]
    exact hlow
  · rw [hrsp]
  · rw [hsp]
    apply hset.congr
    intro y h1 h2
    have hlen : (savedRegs.map (fresh L t entry).gpr ++ [entry]).length = 16 := rfl
    apply hsame
    unfold Layout.slot Layout.stackEnd at *
    omega
  · intro y h1 h2
    rw [hrsp] at h1
    exact absurd h2 (Nat.not_lt.mpr h1)
  · intro y hy
    by_contra hno
    rw [not_or] at hno
    apply hy
    rw [hsame y hno.1, hx]
    refine (store64_outside ?_).trans (hout y ?_)
    · rw [harg]
      omega
    · rw [htop]
      omega

-- ==== the run

variable [DecidableEq κ] [DecidableEq τ]

/-- The step switches to `t`. -/
def Act.Resumes (a : Act κ τ) (t : τ) : Prop := ∃ c, a = .switch c t

namespace Cores

/-- A thread waits with its registers stored. -/
def Parked (s : Cores κ τ) (L : Layout τ) (m₀ : Memory) (t : τ) (x : Context) : Prop :=
  s.Waiting t ∧ Stored L m₀ s.mem t x

/-- No thread runs on two CPUs, or without a stack. -/
structure Sound (s : Cores κ τ) : Prop where
  born : ∀ c, s.born (s.current c) = true
  once : ∀ c c', s.current c = s.current c' → c = c'

/-- The steps of a run, each of which could be taken. -/
def Runs (status : Instr → Machine → Word) (L : Layout τ) :
    Cores κ τ → List (Act κ τ) → Cores κ τ → Prop
  | s, [], s' => s' = s
  | s, a :: as, s' => s.Enabled L a ∧ Runs status L (s.step status L a) as s'

variable {s s' : Cores κ τ} {a : Act κ τ} {x : Context}

theorem step_switch (s : Cores κ τ) (c : κ) (t : τ) :
    s.step status L (.switch c t) =
      { s with
        mem := (run status (s.machine c) contextSwitch).mem
        regs := Function.update s.regs c (run status (s.machine c) contextSwitch).toRegs
        current := Function.update s.current c t } := rfl

/-- Switching exchanges two threads. -/
theorem Sound.step (h : s.Sound) (ha : s.Enabled L a) : (s.step status L a).Sound := by
  cases a with
  | run c regs mem => exact ⟨h.born, h.once⟩
  | spawn c t entry =>
      refine ⟨fun c' => ?_, h.once⟩
      show Function.update s.born t true (s.current c') = true
      by_cases he : s.current c' = t
      · rw [he, Function.update_self]
      · rw [Function.update_of_ne he]
        exact h.born c'
  | switch c t =>
      obtain ⟨-, -, -, -, ht⟩ := ha
      have hfree : ∀ c', c' ≠ c → s.current c' ≠ t := by
        intro c' hc' he
        rcases ht with ht | ht
        · exact hc' (h.once c' c (he.trans ht))
        · exact ht.2 c' he
      constructor
      · intro c'
        show s.born (Function.update s.current c t c') = true
        by_cases hc : c' = c
        · rw [hc, Function.update_self]
          rcases ht with ht | ht
          · rw [ht]
            exact h.born c
          · exact ht.1
        · rw [Function.update_of_ne hc]
          exact h.born c'
      · intro c₁ c₂ he
        replace he : Function.update s.current c t c₁ = Function.update s.current c t c₂ := he
        by_cases h1 : c₁ = c
        · by_cases h2 : c₂ = c
          · rw [h1, h2]
          · rw [h1, Function.update_self, Function.update_of_ne h2] at he
            exact absurd he.symm (hfree c₂ h2)
        · by_cases h2 : c₂ = c
          · rw [h2, Function.update_self, Function.update_of_ne h1] at he
            exact absurd he (hfree c₁ h1)
          · rw [Function.update_of_ne h1, Function.update_of_ne h2] at he
            exact h.once c₁ c₂ he

/-- A thread that waits is not touched by the steps of others. -/
theorem Parked.step (h : s.Parked L m₀ t x) (ha : s.Enabled L a) (hres : ¬ a.Resumes t) :
    (s.step status L a).Parked L m₀ t x := by
  obtain ⟨hwait, hstored⟩ := h
  cases a with
  | run c regs mem =>
      exact ⟨hwait, hstored.congr fun y hy => ha t hwait y hy⟩
  | spawn c u entry =>
      have hne : u ≠ t := by
        rintro rfl
        exact Bool.false_ne_true (ha.symm.trans hwait.1)
      refine ⟨⟨?_, hwait.2⟩, hstored.frame hne (spawn_stored L u s.mem entry).2⟩
      show Function.update s.born u true t = true
      rw [Function.update_of_ne (Ne.symm hne)]
      exact hwait.1
  | switch c u =>
      have hne : u ≠ t := by
        rintro rfl
        exact hres ⟨c, rfl⟩
      obtain ⟨hrdi, -, hlow, hend, -⟩ := ha
      have hleaves := switch_leaves status (M := s.machine c) hrdi hlow hend
      refine ⟨⟨hwait.1, fun c' => ?_⟩, hstored.frame (hwait.2 c) hleaves.2⟩
      show Function.update s.current c u c' ≠ t
      by_cases hc : c' = c
      · rw [hc, Function.update_self]
        exact hne
      · rw [Function.update_of_ne hc]
        exact hwait.2 c'

theorem Parked.runs {as : List (Act κ τ)} (h : s.Parked L m₀ t x)
    (hrun : Runs status L s as s') (hres : ∀ a ∈ as, ¬ a.Resumes t) : s'.Parked L m₀ t x := by
  induction as generalizing s with
  | nil =>
      rw [show s' = s from hrun]
      exact h
  | cons a as ih =>
      obtain ⟨ha, hrest⟩ := hrun
      exact ih (h.step ha (hres a List.mem_cons_self)) hrest
        fun b hb => hres b (List.mem_cons_of_mem a hb)

theorem Sound.runs {as : List (Act κ τ)} (h : s.Sound) (hrun : Runs status L s as s') :
    s'.Sound := by
  induction as generalizing s with
  | nil =>
      rw [show s' = s from hrun]
      exact h
  | cons a as ih => exact ih (h.step hrun.1) hrun.2

/-- The step by which a thread comes to wait, and where it is then: behind
the call of `context_switch`, or at the start of its life. -/
inductive Leaves (L : Layout τ) (s : Cores κ τ) : Act κ τ → τ → Context → Prop
  | switch (c : κ) (u : τ) : u ≠ s.current c →
      Leaves L s (.switch c u) (s.current c) (returned (s.machine c))
  | spawn (c : κ) (t : τ) (entry : Word) : Leaves L s (.spawn c t entry) t (fresh L t entry)

theorem Leaves.parked (h : Leaves L s a t x) (hs : s.Sound) (ha : s.Enabled L a) :
    (s.step status L a).Parked L s.mem t x := by
  cases h with
  | switch c u hne =>
      obtain ⟨hrdi, -, hlow, hend, hu⟩ := ha
      have hleaves := switch_leaves status (M := s.machine c) hrdi hlow hend
      rw [step_switch]
      generalize run status (s.machine c) contextSwitch = M at hleaves
      refine ⟨⟨hs.born c, fun c' => ?_⟩, hleaves.1⟩
      show Function.update s.current c u c' ≠ s.current c
      by_cases hc : c' = c
      · rw [hc, Function.update_self]
        exact hne
      · rw [Function.update_of_ne hc]
        intro he
        exact hc (hs.once c' c he)
  | spawn c t entry =>
      refine ⟨⟨?_, fun c' he => ?_⟩, (spawn_stored L t s.mem entry).1⟩
      · show Function.update s.born t true t = true
        exact Function.update_self ..
      · have hborn := hs.born c'
        rw [show s.current c' = t from he, show s.born t = false from ha] at hborn
        exact Bool.false_ne_true hborn

/-- Whatever the others do in between, a thread that is switched to goes
on with the registers and the stack with which it left, or at its entry
with its TCB as the argument. What is not saved is as the thread before
left it. -/
theorem context_resumed {s₀ s₁ : Cores κ τ} {as bs : List (Act κ τ)} {c : κ}
    (hs : s.Sound) (hbefore : Runs status L s as s₀)
    (ha : s₀.Enabled L a) (hleaves : Leaves L s₀ a t x)
    (hrun : Runs status L (s₀.step status L a) bs s₁) (hres : ∀ b ∈ bs, ¬ b.Resumes t)
    (hswitch : s₁.Enabled L (.switch c t)) :
    let s₂ := s₁.step status L (.switch c t)
    (s₂.regs c).gpr = x.gpr ∧ (s₂.regs c).rip = x.rip
      ∧ (∀ y, (x.gpr .rsp).toNat ≤ y → y < L.stackEnd t → s₂.mem y = s₀.mem y)
      ∧ (s₂.regs c).rflags = (s₁.regs c).rflags ∧ (s₂.regs c).cr = (s₁.regs c).cr
      ∧ (s₂.regs c).seg = (s₁.regs c).seg := by
  intro s₂
  have hparked : s₁.Parked L s₀.mem t x :=
    (hleaves.parked (hs.runs hbefore) ha).runs hrun hres
  obtain ⟨hrdi, hrsi, hlow, hend, -⟩ := hswitch
  obtain ⟨mem, hm, hstored⟩ := switch_resumes status (M := s₁.machine c) hrdi hrsi
    hlow hend (hparked.1.2 c) hparked.2
  have hs₂ : s₂ = _ := step_switch s₁ c t
  rw [hs₂, hm]
  simp only [Function.update_self, true_and]
  exact ⟨hstored.above, rfl, rfl, rfl⟩

-- ==== an example

/-- Two threads, with 64 words of stack each. -/
def twoThreads : Layout Bool where
  tcb := fun t => if t then 0x1000 else 0x2000
  stack := fun t => if t then 0x10000 else 0x20000
  qwords := fun _ => 64
  room := by decide
  tcbs := by decide
  areas := by decide
  apart := by decide

/-- The registers of a thread that is about to switch to the other. -/
def calling (t : Bool) (rsp : Word) : Regs where
  gpr := fun r =>
    if r = .rdi then twoThreads.tcb t else if r = .rsi then twoThreads.tcb !t
    else if r = .rsp then rsp else 0x77
  cr := fun _ => 0
  seg := fun _ => 0
  rflags := 0
  rip := 0

/-- The first one runs, and will go on at 9. -/
def beforeFirst : Cores Unit Bool where
  mem := fun y => if y = 0x20100 then 9 else 0
  regs := fun _ => calling false 0x20100
  current := fun _ => false
  born := fun t => !t

/-- It has made the other one, -/
def otherMade : Cores Unit Bool :=
  beforeFirst.step (fun _ _ => 0) twoThreads (.spawn () true 7)

/-- and switched to it. -/
def afterFirst : Cores Unit Bool := otherMade.step (fun _ _ => 0) twoThreads (.switch () true)

/-- The other runs and writes to its stack. -/
def otherRuns : Act Unit Bool :=
  .run () (calling true 0x10180) fun y => if y = 0x10008 then 5 else afterFirst.mem y

/-- When the other one switches back, the first has its registers again. -/
theorem context_resumed_back :
    let s₂ := (afterFirst.step (fun _ _ => 0) twoThreads otherRuns).step (fun _ _ => 0) twoThreads
      (.switch () false)
    (s₂.regs ()).gpr .rsi = 0x1000 ∧ (s₂.regs ()).gpr .rbx = 0x77
      ∧ (s₂.regs ()).gpr .rsp = 0x20108 ∧ (s₂.regs ()).rip = 9 := by
  have hbefore : Runs (fun _ _ => 0) twoThreads beforeFirst [.spawn () true 7] otherMade :=
    ⟨rfl, rfl⟩
  have hswitch : otherMade.Enabled twoThreads (.switch () true) :=
    ⟨rfl, rfl, by decide, by decide, Or.inr ⟨rfl, fun _ => Bool.false_ne_true⟩⟩
  have hleaves : Leaves twoThreads otherMade (.switch () true) false
      (returned (otherMade.machine ())) := .switch () true (by decide)
  have hsp : twoThreads.savedSp afterFirst.mem false = 0x20088 := by decide +kernel
  have hruns : afterFirst.Enabled twoThreads otherRuns := by
    intro u hwait y hy
    cases u with
    | true => exact absurd rfl (hwait.2 ())
    | false =>
        have hslot : twoThreads.slot false = 0x2038 := by decide
        unfold Layout.Guarded at hy
        rw [hsp, hslot] at hy
        exact if_neg (by omega)
  have hrun : Runs (fun _ _ => 0) twoThreads afterFirst [otherRuns] _ := ⟨hruns, rfl⟩
  have hother : ∀ b ∈ [otherRuns], ¬ b.Resumes false := by
    rintro b hb ⟨c, rfl⟩
    cases List.mem_singleton.mp hb
  have hback : (afterFirst.step (fun _ _ => 0) twoThreads otherRuns).Enabled twoThreads
      (.switch () false) :=
    ⟨rfl, rfl, by decide, by decide, Or.inr ⟨rfl, fun _ => Bool.noConfusion⟩⟩
  have h := context_resumed ⟨by decide, by decide⟩ hbefore hswitch hleaves hrun hother hback
  have hrip : (returned (otherMade.machine ())).rip = 9 := by decide +kernel
  exact ⟨congrFun h.1 .rsi, congrFun h.1 .rbx, congrFun h.1 .rsp, h.2.1.trans hrip⟩

end Cores

end Alix.Cpu
