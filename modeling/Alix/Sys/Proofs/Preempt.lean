/-
When the timer may interrupt.

Outside the windows between a `lock` and the end of its `unlock` or
`context_switch`, the CPU is in order (`Inv`): the scheduler's own
invariants hold, the lock is free, `current_thread` is the thread whose
stack the CPU is on, and every thread that can be resumed has kept a
stack of its own. From such a state a call or an interrupt that runs to
its end leads to such a state again: what it does then is the atomic
operation of `Alix.Sys.Sched`, whose effect on the placement is known.
`Soon` says that a state is on the way there. On the way either IF is
clear or the CPU is in a window, where the lock is held or
`current_thread` has run ahead of the stack; so an interrupt is fatal in
a window and harmless elsewhere, and that is `run_tickOk`.
-/
import Alix.Sys.Preempt
import Alix.Sys.Proofs.SchedRun

namespace Alix.Micro

open Function (update update_self update_of_ne)
open Sched (Placed Counted Dies Frame)
open Instr

variable {x x' : Micro} {s s' : Sched} {f : Bool} {o : Nat} {k : List Instr}
  {sv : Nat → Nat × List Instr}

-- ==== the statement

/-- A state in which `sched_tick` may be entered. -/
def TickOk (x : Micro) : Prop :=
  x.locked = false ∧ x.currentThread = x.on

/-- The stack that is freed next is not the one the CPU is on. -/
def FreeOk (x : Micro) : Prop := ∀ t k, x.code = free t :: k → t ≠ x.on

/-- The runs with `n` threads in which events happen only where `may`
allows them. -/
inductive Run (may : Micro → Event → Prop) (n : Nat) : Micro → Prop where
  | boot : Run may n (boot n)
  | step {x x' : Micro} {e : Event} : Run may n x → may x e →
      x.step e = some x' → Run may n x'

/-- The timer does not interrupt a window. -/
def Outside (x : Micro) : Event → Prop
  | .irq => x.inWindow = false
  | _ => True

-- ==== the invariant

/-- What can be left on the stack of thread `me` outside a window. -/
inductive Rest (me : Nat) : List Instr → Prop where
  | body : Rest me []
  | iretq {k : List Instr} (flag : Bool) : Rest me k → Rest me (iretq flag :: k)
  | popfq {k : List Instr} : Rest me k → Rest me (popfq :: k)
  | yield {k : List Instr} : Rest me k → Rest me (lock :: yield :: k)
  | blockCurrent {k : List Instr} : Rest me k → Rest me (blockCurrent :: k)
  | block {k : List Instr} : me ≠ 0 → Rest me k →
      Rest me (lock :: status me .blocked :: dequeue me :: release
        :: runNext me :: k)
  | wake {k : List Instr} (t : Nat) : Rest me k → Rest me (wake t :: k)
  | wakeBlocked {k : List Instr} {t : Nat} : t ≠ 0 → Rest me k →
      Rest me (lock :: wakeBlocked t :: k)
  | exit {k : List Instr} : Rest me k → Rest me (exit :: k)
  | exitNext {k : List Instr} : me ≠ 0 → Rest me k →
      Rest me (lock :: status me .zombie :: push (.zombie 0) me
        :: exitNext me :: k)

/-- A thread that the scheduler may switch to. -/
def Resumable (s : Sched) (t : Nat) : Prop :=
  t = 0 ∨ (s.Thread t ∧ (s.tcb t).status ≠ .zombie)

/-- Every thread but `o` that may be resumed has a stack of its own. -/
def Kept (s : Sched) (o : Nat) (sv : Nat → Nat × List Instr) : Prop :=
  ∀ t, t ≠ o → Resumable s t → (sv t).1 = t ∧ Rest t (sv t).2

/-- The CPU is in order. -/
structure Inv (x : Micro) : Prop where
  placed : ∃ L, Placed x.sched L none
  counted : Counted x.sched
  one : x.sched.cpuCount = 1
  unlocked : x.locked = false
  current : x.currentThread = x.on
  rest : Rest x.on x.code
  kept : Kept x.sched x.on x.saved

/-- Neither an interrupt nor a bad `kfree` can happen here: IF is clear,
or the CPU is in a window where an interrupt would be fatal. -/
structure Closed (x : Micro) : Prop where
  shut : x.iflag = false ∨ (x.inWindow = true ∧ ¬ TickOk x)
  free : FreeOk x

/-- On the way to a state that is in order, or to the end of the run. -/
inductive Soon : Micro → Prop where
  | done {x : Micro} : Inv x → Soon x
  | stuck {x : Micro} : Closed x → x.code ≠ [] → x.exec = none → Soon x
  | step {x x' : Micro} : Closed x → x.exec = some x' → Soon x' → Soon x

theorem Kept.congr (h : Kept s o sv) (hf : Frame s s') (hd : Dies s s' []) :
    Kept s' o sv := by
  intro t hto hres
  refine h t hto (hres.imp_right fun e => ?_)
  have hthread := hf.thread.mp e.1
  refine ⟨hthread, fun hz => e.2 ?_⟩
  exact (hd t hthread).mpr (Or.inl hz)

theorem closed_under {i : Instr} (hi : underLock i = true) :
    Closed ⟨s, f, true, o, i :: k, sv⟩ := by
  refine ⟨Or.inr ⟨hi, fun e => (by cases e.1)⟩, fun t k' e => ?_⟩
  injection e with e
  subst e
  cases hi

/-- A statement under the lock. -/
theorem Soon.under {i : Instr} (hi : underLock i = true)
    (hexec : exec ⟨s, f, true, o, i :: k, sv⟩ = some x') (h : Soon x') :
    Soon ⟨s, f, true, o, i :: k, sv⟩ :=
  .step (closed_under hi) hexec h

-- ==== switching

/-- Statement by statement, a status and a fresh quantum. -/
theorem modTcb_status_ticks (s : Sched) (t : Nat) (st : ThreadStatus) :
    (s.modTcb t fun th => { th with status := st }).modTcb t
      (fun th => { th with ticksLeft := SCHED_QUANTUM_TICKS })
      = s.setStatus t st := by
  unfold Sched.setStatus Sched.modTcb
  simp

/-- After the switch the CPU is in order on the new stack. -/
theorem inv_switched {next : Nat} (hp : ∃ L, Placed s' L none)
    (hn : Counted s') (hone : s'.cpuCount = 1)
    (hcur : (s'.cpu 0).currentThread = next) (hne : next ≠ o)
    (hold : Resumable s' o → Rest o k) (hkept : Kept s' o sv) :
    Inv ⟨s', f, false, (update sv o (o, k) next).1,
      (update sv o (o, k) next).2, update sv o (o, k)⟩ := by
  have hres : Resumable s' next := by
    obtain ⟨L, hL⟩ := hp
    rw [← hcur]
    refine (hL.current 0 (by omega) (by simp)).imp_right fun e => ⟨e.1, ?_⟩
    rw [e.2.2]
    decide
  obtain ⟨hown, hrest⟩ := hkept next hne hres
  rw [update_of_ne hne]
  refine ⟨hp, hn, hone, rfl, hcur.trans hown.symm, by rw [hown]; exact hrest, ?_⟩
  intro t ht htres
  change t ≠ (sv next).1 at ht
  by_cases hto : t = o
  · subst hto
    show (update sv t (t, k) t).1 = t ∧ Rest t (update sv t (t, k) t).2
    rw [update_self]
    exact ⟨rfl, hold htres⟩
  · show (update sv o (o, k) t).1 = t ∧ Rest t (update sv o (o, k) t).2
    rw [update_of_ne hto]
    exact hkept t hto htres

/-- The statements of a switch. -/
theorem soon_switchTo {next : Nat}
    (hs' : ((s.setStatus next .running).setCurrent 0 next).contextSwitch o
      SAVED_RSP = s')
    (hp : ∃ L, Placed s' L none) (hn : Counted s') (hone : s'.cpuCount = 1)
    (hne : next ≠ o) (hold : Resumable s' o → Rest o k) (hkept : Kept s' o sv) :
    Soon ⟨s, f, true, o, switchTo o next ++ k, sv⟩ := by
  have hcur : (((s.setStatus next .running).setCurrent 0 next).cpu 0
      ).currentThread = next := by
    rw [Sched.setCurrent_current, if_pos rfl]
  have hcur' : (s'.cpu 0).currentThread = next := by
    rw [← hs']
    exact hcur
  refine .under rfl rfl (.under rfl rfl ?_)
  rw [modTcb_status_ticks]
  refine .under rfl rfl (.under rfl rfl (.step ⟨Or.inr ⟨rfl, ?_⟩, ?_⟩ rfl ?_))
  · -- the lock is free, but `current_thread` is no longer on its stack
    intro e
    exact hne (hcur.symm.trans e.2)
  · intro t k' e
    cases e
  · rw [hs']
    exact .done (inv_switched hp hn hone hcur' hne hold hkept)

/-- Looking for the next thread does not change who is current. -/
theorem schedNextThread_cpu {fuel next : Nat}
    (h : s.schedNextThread 0 fuel = some (s', next)) : s'.cpu = s.cpu := by
  induction fuel generalizing s with
  | zero => cases h
  | succ fuel ih =>
      have hpop : ∀ {s₁ : Sched} {t : Option Nat},
          s.popFront (.run 0) = some (s₁, t) → s₁.cpu = s.cpu := by
        intro s₁ t e
        unfold Sched.popFront at e
        split at e
        case h_1 => cases e
        case h_2 =>
          obtain ⟨rfl, -⟩ := Prod.mk.inj (Option.some.inj e)
          rfl
      unfold Sched.schedNextThread at h
      split at h
      case h_1 =>
        obtain ⟨rfl, -⟩ := Prod.mk.inj (Option.some.inj h)
        rfl
      case h_2 s₁ e =>
        obtain ⟨rfl, -⟩ := Prod.mk.inj (Option.some.inj h)
        exact hpop e
      case h_3 s₁ t e =>
        split at h
        case isTrue =>
          obtain ⟨rfl, -⟩ := Prod.mk.inj (Option.some.inj h)
          exact hpop e
        case isFalse =>
          split at h
          case isTrue =>
            refine (ih h).trans (Eq.trans ?_ (hpop e))
            unfold Sched.schedQueueZombieLocked
            split <;> rfl
          case isFalse => exact (ih h).trans (hpop e)

/-- `sched_run_next_locked`, statement by statement. -/
theorem soon_runNext (hs' : s.schedRunNextLocked 0 o SAVED_RSP = some s')
    (hcur : (s.cpu 0).currentThread = o) (hp : ∃ L, Placed s' L none)
    (hn : Counted s') (hone : s'.cpuCount = 1) (hk : Rest o k)
    (hkept : Kept s' o sv) :
    Soon ⟨s, f, true, o, runNext o :: k, sv⟩ := by
  unfold Sched.schedRunNextLocked at hs'
  cases hnext : s.schedNextThread 0 (s.tcbCount + 1) with
  | none => simp [hnext] at hs'
  | some r =>
      obtain ⟨s₁, next⟩ := r
      have hcpu := schedNextThread_cpu hnext
      simp only [hnext] at hs'
      have hexec : exec ⟨s, f, true, o, runNext o :: k, sv⟩
          = some ⟨s₁, f, true, o, (if next = o then
            [status o .running, ticks o, unlock] else switchTo o next) ++ k,
            sv⟩ := by
        show (s.schedNextThread 0 (s.tcbCount + 1)).bind _ = _
        rw [hnext]
        rfl
      refine .under rfl hexec ?_
      by_cases hno : next = o
      · rw [if_pos hno] at hs' ⊢
        injection hs' with hs'
        refine .under rfl rfl (.under rfl rfl ?_)
        rw [modTcb_status_ticks, hs']
        refine .under rfl rfl (.done ⟨hp, hn, hone, rfl, ?_, hk, hkept⟩)
        show (s'.cpu 0).currentThread = o
        rw [← hs', ← hcur, ← hcpu]
        rfl
      · rw [if_neg hno] at hs' ⊢
        injection hs' with hs'
        exact soon_switchTo hs' hp hn hone hno (fun _ => hk) hkept

-- ==== the calls

/-- `sched_yield` under the lock. -/
theorem soon_yield (h : Inv ⟨s, f, false, o, lock :: yield :: k, sv⟩) :
    Soon ⟨s, f, true, o, yield :: k, sv⟩ := by
  have hk : Rest o k := by
    cases h.rest with
    | yield hk => exact hk
  obtain ⟨L, (hL : Placed s L none)⟩ := h.placed
  have hcur : (s.cpu 0).currentThread = o := h.current
  have hc : 0 < s.cpuCount := by rw [h.one]; decide
  obtain ⟨s', L', hs', hf, hp, hd⟩ := hL.yield hc (show SAVED_RSP ≠ 0 by decide)
  have hkept : Kept s' o sv := h.kept.congr hf hd
  unfold Sched.schedYield at hs'
  simp only [hcur] at hs'
  have hexec : exec ⟨s, f, true, o, yield :: k, sv⟩
      = some ⟨s, f, true, o, ((if o ≠ (s.cpu 0).idleThread
        ∧ (s.tcb o).status ≠ .zombie then requeue o else []) ++ [runNext o])
        ++ k, sv⟩ := by
    subst hcur
    rfl
  refine .under rfl hexec ?_
  split
  case isTrue hcond =>
    rw [if_pos hcond] at hs'
    refine .under rfl rfl (.under rfl rfl ?_)
    rw [modTcb_status_ticks]
    refine .under rfl rfl ?_
    exact soon_runNext hs' hcur ⟨L', hp⟩ (h.counted.congr hf)
      (hf.cpuCount.trans h.one) hk hkept
  case isFalse hcond =>
    rw [if_neg hcond] at hs'
    exact soon_runNext hs' hcur ⟨L', hp⟩ (h.counted.congr hf)
      (hf.cpuCount.trans h.one) hk hkept

/-- `thread_block_current` under the lock. -/
theorem soon_block (h : Inv ⟨s, f, false, o, lock :: status o .blocked
      :: dequeue o :: release :: runNext o :: k, sv⟩) :
    Soon ⟨s, f, true, o, status o .blocked :: dequeue o :: release
      :: runNext o :: k, sv⟩ := by
  obtain ⟨ho, hk⟩ : o ≠ 0 ∧ Rest o k := by
    cases h.rest with
    | block ho hk => exact ⟨ho, hk⟩
  obtain ⟨L, (hL : Placed s L none)⟩ := h.placed
  have hcur : (s.cpu 0).currentThread = o := h.current
  have hc : 0 < s.cpuCount := by rw [h.one]; decide
  obtain ⟨s', L', hs', hf, hp, hd⟩ :=
    hL.blockCurrent hc (show SAVED_RSP ≠ 0 by decide)
  have hkept : Kept s' o sv := h.kept.congr hf hd
  unfold Sched.threadBlockCurrent at hs'
  simp only [hcur, hL.idle 0 hc, if_neg ho] at hs'
  refine .under rfl rfl ?_
  generalize hs₁ : s.modTcb o (fun th => { th with status := .blocked }) = s₁
    at hs'
  have hcpu : s₁.cpu = s.cpu := by rw [← hs₁]; rfl
  cases hrem : s₁.removeIfQueued (.run 0) o with
  | none => simp [hrem] at hs'
  | some s₂ =>
      simp only [hrem] at hs'
      have hcpu₂ : s₂.cpu = s₁.cpu := by
        unfold Sched.removeIfQueued at hrem
        split at hrem
        case h_1 => cases hrem
        case h_2 => rw [← Option.some.inj hrem]
        case h_3 => rw [← Option.some.inj hrem]
      have hexec : exec ⟨s₁, f, true, o, dequeue o :: release :: runNext o :: k,
          sv⟩ = some ⟨s₂, f, true, o, release :: runNext o :: k, sv⟩ := by
        show (s₁.removeIfQueued (.run 0) o).bind _ = _
        rw [hrem]
        rfl
      refine .under rfl hexec (.under rfl rfl ?_)
      exact soon_runNext hs' (by rw [hcpu₂, hcpu, hcur]) ⟨L', hp⟩
        (h.counted.congr hf) (hf.cpuCount.trans h.one) hk hkept

/-- `thread_wake` under the lock. -/
theorem soon_wake {t : Nat}
    (h : Inv ⟨s, f, false, o, lock :: wakeBlocked t :: k, sv⟩) :
    Soon ⟨s, f, true, o, wakeBlocked t :: k, sv⟩ := by
  obtain ⟨ht, hk⟩ : t ≠ 0 ∧ Rest o k := by
    cases h.rest with
    | wakeBlocked ht hk => exact ⟨ht, hk⟩
  obtain ⟨L, (hL : Placed s L none)⟩ := h.placed
  have hcur : (s.cpu 0).currentThread = o := h.current
  have hone : s.cpuCount = 1 := h.one
  by_cases hdead : s.tcbCount ≤ t ∨ t ∈ s.freedTcbs
  · exact .stuck (closed_under rfl) (by simp) (if_pos hdead)
  have hlive : s.Live t := ⟨by omega, fun e => hdead (Or.inr e)⟩
  have hcpu : (s.tcb t).cpuIndex = 0 := by
    have := hL.home t ⟨by omega, hlive⟩
    omega
  obtain ⟨s', L', hs', hf, hp, hd⟩ := hL.wake hlive
  have hkept : Kept s' o sv := h.kept.congr hf hd
  have hidle : ¬ (s.cpuCount ≤ 0 ∨ t = (s.cpu 0).idleThread) := by
    rw [hL.idle 0 (by omega)]
    omega
  unfold Sched.threadWake at hs'
  simp only [hcpu, if_neg hidle] at hs'
  by_cases hb : (s.tcb t).status = .blocked
  · rw [if_pos hb] at hs'
    have hexec : exec ⟨s, f, true, o, wakeBlocked t :: k, sv⟩ = some ⟨s, f, true,
        o, status t .runnable :: ticks t :: enqueue t :: unlock :: k, sv⟩ :=
      (if_neg hdead).trans (if_pos hb)
    refine .under rfl hexec (.under rfl rfl (.under rfl rfl ?_))
    rw [modTcb_status_ticks]
    generalize hs₁ : s.setStatus t .runnable = s₁ at hs'
    -- `rq_contains` decides whether the thread is pushed
    have hend : exec ⟨s₁, f, true, o, enqueue t :: unlock :: k, sv⟩
          = some ⟨s', f, true, o, unlock :: k, sv⟩
        ∧ (s'.cpu 0).currentThread = o := by
      show (s₁.find (.run 0) t).bind _ = _ ∧ _
      cases hfind : s₁.find (.run 0) t with
      | none => simp [hfind] at hs'
      | some r =>
          cases r with
          | none =>
              simp only [hfind] at hs'
              injection hs' with hs'
              subst hs₁ hs'
              exact ⟨rfl, hcur⟩
          | some node =>
              simp only [hfind] at hs'
              injection hs' with hs'
              subst hs₁ hs'
              exact ⟨rfl, hcur⟩
    refine .under rfl hend.1 (.under rfl rfl (.done ?_))
    exact ⟨⟨L', hp⟩, h.counted.congr hf, hf.cpuCount.trans hone, rfl, hend.2, hk,
      hkept⟩
  · have hexec : exec ⟨s, f, true, o, wakeBlocked t :: k, sv⟩
        = some ⟨s, f, true, o, unlock :: k, sv⟩ :=
      (if_neg hdead).trans (if_neg hb)
    refine .under rfl hexec (.under rfl rfl (.done ?_))
    exact ⟨⟨L, hL⟩, h.counted, hone, rfl, hcur, hk, h.kept⟩

/-- `sched_exit` under the lock. -/
theorem soon_exit (h : Inv ⟨s, f, false, o, lock :: status o .zombie
      :: push (.zombie 0) o :: exitNext o :: k, sv⟩) :
    Soon ⟨s, f, true, o, status o .zombie :: push (.zombie 0) o
      :: exitNext o :: k, sv⟩ := by
  have ho : o ≠ 0 := by
    cases h.rest with
    | exitNext ho _ => exact ho
  obtain ⟨L, (hL : Placed s L none)⟩ := h.placed
  have hcur : (s.cpu 0).currentThread = o := h.current
  have hc : 0 < s.cpuCount := by rw [h.one]; decide
  have hidle : (s.cpu 0).currentThread ≠ (s.cpu 0).idleThread := by
    rw [hcur, hL.idle 0 hc]
    exact ho
  obtain ⟨hthread, -, -⟩ := hL.current_thread hc hidle
  obtain ⟨s', L', hs', hf, hp, hd⟩ :=
    hL.exit hc (show SAVED_RSP ≠ 0 by decide) hidle
  rw [hcur] at hthread hd
  have hkept : Kept s' o sv := by
    intro t hto hres
    refine h.kept t hto (hres.imp_right fun e => ?_)
    have ht := hf.thread.mp e.1
    exact ⟨ht, fun hz => e.2 ((hd t ht).mpr (Or.inl hz))⟩
  -- the thread that exits is not resumed
  have hgone : ¬ Resumable s' o := by
    intro e
    rcases e with e | e
    · exact ho e
    · exact e.2 ((hd o hthread).mpr (Or.inr (List.mem_singleton.mpr rfl)))
  unfold Sched.schedExit Sched.schedQueueZombieLocked at hs'
  simp only [hcur, hL.idle 0 hc, if_neg ho] at hs'
  refine .under rfl rfl (.under rfl rfl ?_)
  generalize hs₁ : (s.modTcb o fun th => { th with status := .zombie }).pushBack
    (.zombie 0) o = s₁ at hs'
  cases hnext : s₁.schedNextThread 0 (s₁.tcbCount + 1) with
  | none => simp [hnext] at hs'
  | some r =>
      obtain ⟨s₂, next⟩ := r
      simp only [hnext] at hs'
      injection hs' with hs'
      have hexec : exec ⟨s₁, f, true, o, exitNext o :: k, sv⟩
          = some ⟨s₂, f, true, o, switchTo o (if next = o then
            (s₂.cpu 0).idleThread else next) ++ (kpanic :: k), sv⟩ := by
        show (s₁.schedNextThread 0 (s₁.tcbCount + 1)).bind _ = _
        rw [hnext]
        simp [jump]
      refine .under rfl hexec ?_
      refine soon_switchTo hs' ⟨L', hp⟩ (h.counted.congr hf)
        (hf.cpuCount.trans h.one) ?_ (fun e => (hgone e).elim) hkept
      split
      case isTrue =>
        have hidle₂ : (s₂.cpu 0).idleThread = 0 := by
          rw [schedNextThread_cpu hnext, ← hs₁]
          exact hL.idle 0 hc
        rw [hidle₂]
        exact Ne.symm ho
      case isFalse hno => exact hno

-- ==== the tick

/-- A statement with IF clear. -/
theorem Soon.off {l : Bool} {i : Instr} (hi : ∀ t, i = free t → t ≠ o)
    (hexec : exec ⟨s, false, l, o, i :: k, sv⟩ = some x') (h : Soon x') :
    Soon ⟨s, false, l, o, i :: k, sv⟩ := by
  refine .step ⟨Or.inl rfl, fun t k' e => ?_⟩ hexec h
  injection e with e
  exact hi t e

/-- `sched_reap_cpu`, statement by statement. It frees zombies, and the
thread it runs on is none. -/
theorem soon_reap {L : Queue → List Nat} {fuel : Nat} (hL : Placed s L none)
    (hn : Counted s) (hone : s.cpuCount = 1)
    (hcur : (s.cpu 0).currentThread = o)
    (hfuel : (L (.zombie 0)).length < fuel)
    (hk : ∀ s', s.schedReapCpu 0 fuel = some s' →
      Soon ⟨s', false, false, o, k, sv⟩) :
    Soon ⟨s, false, false, o, reap :: k, sv⟩ := by
  generalize hl : L (.zombie 0) = l at hfuel
  have hc : 0 < s.cpuCount := by omega
  induction l generalizing s L fuel with
  | nil =>
      cases fuel with
      | zero => simp at hfuel
      | succ fuel =>
          have hpop := hL.queues.popFront_nil hl
          have hexec : exec ⟨s, false, true, o, reapPop :: k, sv⟩
              = some ⟨s, false, true, o, unlock :: k, sv⟩ := by
            unfold exec
            simp only [hpop]
            rfl
          refine .off (by simp) rfl (.off (by simp) rfl (.off (by simp) hexec
            (.off (by simp) rfl (hk s ?_))))
          unfold Sched.schedReapCpu
          rw [hpop]
  | cons t X ih =>
      cases fuel with
      | zero => simp at hfuel
      | succ fuel =>
          obtain ⟨m, rq, hpop, hL', hn', hspec⟩ :=
            Sched.reap_round (Sched.reapable_placed 0) hL hn hc hl
          have hto : t ≠ o := by
            intro e
            have hz := ((hL.zombie 0 t).mp (by rw [hl]; simp)).2.2
            have hr := hL.current_running hc
            rw [hcur, ← e, hz] at hr
            cases hr
          have hexec : exec ⟨s, false, true, o, reapPop :: k, sv⟩
              = some ⟨s.withQueues m rq, false, true, o,
                unlock :: free t :: reap :: k, sv⟩ := by
            unfold exec
            simp only [hpop]
            rfl
          have hnext : ∀ s', ((s.withQueues m rq).schedFreeThread 0 t
              ).schedReapCpu 0 fuel = some s' →
              Soon ⟨s', false, false, o, k, sv⟩ := by
            intro s' hs'
            refine hk s' ?_
            unfold Sched.schedReapCpu
            rw [hpop]
            exact hs'
          refine .off (by simp) rfl (.off (by simp) rfl (.off (by simp) hexec
            (.off (by simp) rfl (.off (by simpa using hto) rfl ?_))))
          exact ih hL' hn' (hspec.cpuCount.trans hone)
            ((hspec.current 0).trans hcur) hnext (update_self _ _ _)
            (by simpa using hfuel) (by rw [hspec.cpuCount]; exact hc)

/-- What `sched_tick` does after the reap. -/
def tickReaped (s : Sched) : Option Sched :=
  let current := (s.cpu 0).currentThread
  let s := s.modTcb current fun th =>
    { th with totalTicks := th.totalTicks + 1 }
  if (s.tcb current).status = .running then
    let s := s.modTcb current fun th =>
      { th with ticksLeft := th.ticksLeft - 1 }
    if (s.tcb current).ticksLeft ≠ 0
        ∧ (current ≠ (s.cpu 0).idleThread ∨ (s.queue (.run 0)).empty) then
      some s
    else
      Sched.schedRunNextLocked (if current ≠ (s.cpu 0).idleThread then
        (s.setStatus current .runnable).pushBack (.run 0) current else s)
        0 current SAVED_RSP
  else s.schedRunNextLocked 0 current SAVED_RSP

theorem schedTick_eq {s₁ : Sched} (h : s.schedReap 0 = some s₁) :
    s.schedTick 0 SAVED_RSP = tickReaped s₁ := by
  unfold Sched.schedTick
  rw [h]
  rfl

/-- `sched_tick` under the lock. -/
theorem soon_tickLocked (hs' : tickReaped s = some s')
    (hcur : (s.cpu 0).currentThread = o) (hp : ∃ L, Placed s' L none)
    (hn : Counted s') (hone : s'.cpuCount = 1) (hk : Rest o k)
    (hkept : Kept s' o sv) :
    Soon ⟨s, false, true, o, tick :: k, sv⟩ := by
  unfold tickReaped at hs'
  simp only [hcur] at hs'
  have hexec : exec ⟨s, false, true, o, tick :: k, sv⟩
      = tickLocked ⟨s, false, true, o, tick :: k, sv⟩ k := rfl
  unfold tickLocked at hexec
  simp only [currentThread, idleThread, hcur] at hexec
  generalize hs₁ : s.modTcb o (fun th =>
    { th with totalTicks := th.totalTicks + 1 }) = s₁ at hs' hexec
  have hcur₁ : (s₁.cpu 0).currentThread = o := by
    rw [← hs₁]
    exact hcur
  by_cases hrun : (s₁.tcb o).status = .running
  · rw [if_pos hrun] at hs' hexec
    generalize hs₂ : s₁.modTcb o (fun th =>
      { th with ticksLeft := th.ticksLeft - 1 }) = s₂ at hs' hexec
    have hcur₂ : (s₂.cpu 0).currentThread = o := by
      rw [← hs₂]
      exact hcur₁
    have hidle : (s.cpu 0).idleThread = (s₂.cpu 0).idleThread := by
      rw [← hs₂, ← hs₁]
      rfl
    rw [hidle] at hexec
    by_cases hstay : (s₂.tcb o).ticksLeft ≠ 0
        ∧ (o ≠ (s₂.cpu 0).idleThread ∨ (s₂.queue (.run 0)).empty)
    · rw [if_pos hstay] at hs' hexec
      injection hs' with hs'
      subst hs'
      exact .off (by simp) hexec (.off (by simp) rfl
        (.done ⟨hp, hn, hone, rfl, hcur₂, hk, hkept⟩))
    · rw [if_neg hstay] at hs' hexec
      refine .off (by simp) hexec ?_
      by_cases hid : o ≠ (s₂.cpu 0).idleThread
      · simp only [if_pos hid] at hs' ⊢
        refine .off (by simp) rfl (.off (by simp) rfl ?_)
        rw [modTcb_status_ticks]
        exact .off (by simp) rfl (soon_runNext hs' hcur₂ hp hn hone hk hkept)
      · simp only [if_neg hid] at hs' ⊢
        exact soon_runNext hs' hcur₂ hp hn hone hk hkept
  · rw [if_neg hrun] at hs' hexec
    exact .off (by simp) hexec (soon_runNext hs' hcur₁ hp hn hone hk hkept)

/-- A timer interrupt outside the windows. -/
theorem soon_irq (h : Inv ⟨s, true, false, o, k, sv⟩) :
    Soon ⟨s, false, false, o, reap :: lock :: tick :: iretq true :: k, sv⟩ := by
  obtain ⟨L, (hL : Placed s L none)⟩ := h.placed
  have hcur : (s.cpu 0).currentThread = o := h.current
  have hone : s.cpuCount = 1 := h.one
  have hc : 0 < s.cpuCount := by omega
  obtain ⟨s₂, -, hreap, -, -, hr₂, -⟩ := hL.reap h.counted hc
  obtain ⟨s', s₁, L', hs', hp, hr, hn, hf, hd, -⟩ :=
    hL.tick h.counted hc (show SAVED_RSP ≠ 0 by decide)
  -- what was freed cannot be resumed, the others have their stacks
  have hkept₁ : Kept s₁ o sv := by
    intro t hto hres
    refine h.kept t hto (hres.imp_right fun e => ?_)
    obtain ⟨⟨h1, h2, h3⟩, hz⟩ := e
    rw [hr.cpuCount] at h1
    rw [hr.tcbCount] at h2
    rw [hr.freed] at h3
    rw [hr.tcb] at hz
    exact ⟨⟨h1, h2, fun e => h3 (Or.inl e)⟩, hz⟩
  rw [schedTick_eq hreap] at hs'
  refine soon_reap hL h.counted hone hcur
    (Nat.lt_succ_of_le (hL.queues.length_le _)) fun s₃ hs₃ => ?_
  have he : s₂ = s₃ := Option.some.inj (hreap.symm.trans hs₃)
  subst he
  refine .off (by simp) rfl (soon_tickLocked hs' ((hr₂.current 0).trans hcur)
    ⟨L', hp⟩ (hn.congr hf) ?_ (.iretq true h.rest) (hkept₁.congr hf hd))
  rw [hf.cpuCount, hr.cpuCount, hone]

-- ==== runs

/-- A statement from a state that is in order. -/
theorem Inv.exec (h : Inv x) (hexec : x.exec = some x') : Soon x' := by
  obtain ⟨s, f, l, o, code, sv⟩ := x
  have hl : l = false := h.unlocked
  subst hl
  obtain ⟨hplaced, hn, hone, -, hcur, hrest, hkept⟩ := h
  have hidle : idleThread ⟨s, f, false, o, code, sv⟩ = 0 := by
    obtain ⟨L, hL⟩ := hplaced
    exact hL.idle 0 (by omega)
  change (s.cpu 0).currentThread = o at hcur
  change (s.cpu 0).idleThread = 0 at hidle
  change Rest o code at hrest
  -- the same state with other code
  have hinv : ∀ {f' : Bool} {code' : List Instr}, Rest o code' →
      Inv ⟨s, f', false, o, code', sv⟩ := fun hrest' =>
    ⟨hplaced, hn, hone, rfl, hcur, hrest', hkept⟩
  cases hrest with
  | body => cases hexec
  | iretq flag hk =>
      injection hexec with hexec
      subst hexec
      exact .done (hinv hk)
  | popfq hk =>
      injection hexec with hexec
      subst hexec
      exact .done (hinv hk)
  | yield hk =>
      injection hexec with hexec
      subst hexec
      exact soon_yield (hinv (.yield hk))
  | blockCurrent hk =>
      injection hexec with hexec
      subst hexec
      show Soon ⟨s, f, false, o, (if (s.cpu 0).currentThread
        = (s.cpu 0).idleThread then [] else _) ++ _, sv⟩
      rw [hidle, hcur]
      split
      case isTrue => exact .done (hinv hk)
      case isFalse ho =>
        refine .done (hinv ?_)
        show Rest o (_ :: status (s.cpu 0).currentThread _
          :: dequeue (s.cpu 0).currentThread :: _
          :: runNext (s.cpu 0).currentThread :: _)
        rw [hcur]
        exact .block ho hk
  | block ho hk =>
      injection hexec with hexec
      subst hexec
      exact soon_block (hinv (.block ho hk))
  | wake t hk =>
      injection hexec with hexec
      subst hexec
      show Soon ⟨s, f, false, o, (if t = (s.cpu 0).idleThread then [] else _)
        ++ _, sv⟩
      rw [hidle]
      split
      case isTrue => exact .done (hinv hk)
      case isFalse ht => exact .done (hinv (.wakeBlocked ht hk))
  | wakeBlocked ht hk =>
      injection hexec with hexec
      subst hexec
      exact soon_wake (hinv (.wakeBlocked ht hk))
  | @exit k hk =>
      change (if (s.cpu 0).currentThread = (s.cpu 0).idleThread then none
        else some (Micro.mk s f false o (lock
          :: status (s.cpu 0).currentThread .zombie
          :: push (.zombie 0) (s.cpu 0).currentThread
          :: exitNext (s.cpu 0).currentThread :: k) sv)) = some x' at hexec
      rw [hidle, hcur] at hexec
      split at hexec
      case isTrue => cases hexec
      case isFalse ho =>
        injection hexec with hexec
        subst hexec
        exact .done (hinv (.exitNext ho hk))
  | exitNext ho hk =>
      injection hexec with hexec
      subst hexec
      exact soon_exit (hinv (.exitNext ho hk))

theorem Inv.not_inWindow (h : Inv x) : x.inWindow = false := by
  have hrest := h.rest
  unfold inWindow
  cases hcode : x.code with
  | nil => rfl
  | cons i k =>
      rw [hcode] at hrest
      cases hrest <;> rfl

theorem Inv.freeOk (h : Inv x) : FreeOk x := by
  intro t k e
  have hrest := h.rest
  rw [e] at hrest
  cases hrest

/-- One event of a guarded run. -/
theorem Soon.event (h : Soon x) {e : Event} (hmay : Outside x e)
    (hstep : x.step e = some x') : Soon x' := by
  cases e with
  | call op =>
      change x.call op = some x' at hstep
      unfold call at hstep
      split at hstep
      case h_1 hcode =>
        injection hstep with hstep
        cases h with
        | done hinv =>
            obtain ⟨hplaced, hn, hone, hl, hcur, -, hkept⟩ := hinv
            subst hstep
            refine .done ⟨hplaced, hn, hone, hl, hcur, ?_, hkept⟩
            cases op with
            | yield => exact .yield .body
            | blockCurrent => exact .blockCurrent .body
            | wake t => exact .wake t .body
            | exit => exact .exit .body
        | stuck _ hne _ => exact (hne hcode).elim
        | step hclosed hexec _ =>
            unfold Micro.exec at hexec
            rw [hcode] at hexec
            cases hexec
      case h_2 => cases hstep
  | exec =>
      cases h with
      | done hinv => exact hinv.exec hstep
      | stuck _ _ hexec =>
          have := hexec.symm.trans hstep
          cases this
      | step _ hexec hnext =>
          have := Option.some.inj (hexec.symm.trans hstep)
          rw [← this]
          exact hnext
  | irq =>
      change x.irq = some x' at hstep
      unfold irq at hstep
      split at hstep
      case isTrue hflag =>
        injection hstep with hstep
        subst hstep
        have hinv : Inv x := by
          cases h with
          | done hinv => exact hinv
          | stuck hclosed _ _ =>
              rcases hclosed.shut with e | e
              · rw [hflag] at e
                cases e
              · have := e.1.symm.trans hmay
                cases this
          | step hclosed _ _ =>
              rcases hclosed.shut with e | e
              · rw [hflag] at e
                cases e
              · have := e.1.symm.trans hmay
                cases this
        obtain ⟨s, f, l, o, code, sv⟩ := x
        have hl : l = false := hinv.unlocked
        change f = true at hflag
        subst hl hflag
        exact soon_irq hinv
      case isFalse => cases hstep

/-- Boot leaves threads that are placed and counted. -/
theorem spawned_inv (n : Nat) : (∃ gone L, Sched.RunInv (spawned n) gone L)
    ∧ (spawned n).cpuCount = 1 ∧ (spawned n).pcbCount = 2
    ∧ (spawned n).freedPcbs = [] ∧ ((spawned n).cpu 0).currentThread = 0 := by
  induction n with
  | zero =>
      have h := Sched.runInv_init 1
      exact ⟨⟨_, _, h.placed.spawnProc .kernel, h.counted.spawnProc .kernel,
        h.exited⟩, rfl, rfl, rfl, rfl⟩
  | succ n ih =>
      obtain ⟨⟨gone, L, hinv⟩, hone, hpcb, hfree, hcur⟩ := ih
      obtain ⟨hcpus, L', hinv'⟩ := hinv.spawnThread (p := 1) (c := 0)
        (by rw [hone]; decide) (by rw [hpcb]; decide) (by rw [hfree]; simp)
        (show SAVED_RSP ≠ 0 by decide) true
      refine ⟨⟨gone, L', hinv'⟩, hcpus.trans hone, ?_⟩
      show ((spawned n).spawnThread 0 1 true SAVED_RSP).pcbCount = 2
        ∧ ((spawned n).spawnThread 0 1 true SAVED_RSP).freedPcbs = []
        ∧ (((spawned n).spawnThread 0 1 true SAVED_RSP).cpu 0).currentThread = 0
      rcases Sched.spawnThread_spec (spawned n) 0 1 SAVED_RSP true with e | ⟨e, -⟩
      · rw [e]
        exact ⟨hpcb, hfree, hcur⟩
      · exact ⟨e.pcbCount.trans hpcb, e.freedPcbs.trans hfree,
          (e.current 0).trans hcur⟩

theorem inv_boot (n : Nat) : Inv (boot n) := by
  obtain ⟨⟨gone, L, hinv⟩, hone, -, -, hcur⟩ := spawned_inv n
  exact ⟨⟨L, hinv.placed⟩, hinv.counted, hone, rfl, hcur, .body,
    fun t _ _ => ⟨rfl, .popfq .body⟩⟩

theorem run_soon {n : Nat} (h : Run Outside n x) : Soon x := by
  induction h with
  | boot => exact .done (inv_boot n)
  | step _ hmay hstep ih => exact ih.event hmay hstep

theorem Closed.tickOk_iff (h : Closed x) (hflag : x.iflag = true) :
    TickOk x ↔ x.inWindow = false := by
  rcases h.shut with e | ⟨hwin, htick⟩
  · rw [hflag] at e
    cases e
  · simp [hwin, htick]

/-- In a run whose interrupts are all taken outside the windows, a stack
that is freed is not the one the CPU is on, and wherever the timer can
interrupt, `sched_tick` finds the lock free and itself on the stack of
`current_thread` exactly if that is outside the windows too. -/
theorem run_tickOk {n : Nat} (h : Run Outside n x) : FreeOk x
    ∧ (x.iflag = true → (TickOk x ↔ x.inWindow = false)) := by
  cases run_soon h with
  | done hinv =>
      refine ⟨hinv.freeOk, fun _ => ?_⟩
      simp [hinv.not_inWindow, TickOk, hinv.unlocked, hinv.current]
  | stuck hclosed _ _ => exact ⟨hclosed.free, hclosed.tickOk_iff⟩
  | step hclosed _ _ => exact ⟨hclosed.free, hclosed.tickOk_iff⟩

-- ==== traces

instance (x : Micro) (e : Event) : Decidable (Outside x e) :=
  match e with
  | .irq => inferInstanceAs (Decidable (_ = false))
  | .call _ | .exec => inferInstanceAs (Decidable True)

/-- Lets the events of a list happen, as long as they may. -/
def play (may : Micro → Event → Prop) [∀ x e, Decidable (may x e)] :
    Micro → List Event → Option Micro
  | x, [] => some x
  | x, e :: es =>
      if may x e then
        match x.step e with
        | none => none
        | some x' => play may x' es
      else none

theorem run_play {may : Micro → Event → Prop} [∀ x e, Decidable (may x e)]
    {n : Nat} {es : List Event} (h : Run may n x)
    (hp : play may x es = some x') : Run may n x' := by
  induction es generalizing x with
  | nil =>
      injection hp with hp
      rw [← hp]
      exact h
  | cons e es ih =>
      unfold play at hp
      split at hp
      case isTrue hmay =>
        split at hp
        case h_1 => cases hp
        case h_2 hstep => exact ih (h.step hmay hstep) hp
      case isFalse => cases hp

/-- The first tick after boot, up to the body of the thread that it
switches to. -/
def firstTick : List Event := .irq :: List.replicate 13 .exec

/-- One thread: the tick switches to it, and another tick finds it in
order. -/
theorem run_tickOk_first : ∃ x, TickOk x ∧ FreeOk x ∧ x.on = 1
    ∧ x.iflag = true := by
  have hplay : (play Outside (boot 1) firstTick).map
      (fun x => (x.inWindow, x.on, x.iflag)) = some (false, 1, true) := by
    decide +kernel
  obtain ⟨x, hrun, heq⟩ := Option.map_eq_some_iff.mp hplay
  obtain ⟨hwin, hrest⟩ := Prod.mk.inj heq
  obtain ⟨hon, hflag⟩ := Prod.mk.inj hrest
  obtain ⟨hfree, htick⟩ := run_tickOk (run_play .boot hrun)
  exact ⟨x, (htick hflag).mpr hwin, hfree, hon, hflag⟩

/-- One thread. It yields, and the timer interrupts it with the lock
held; or it exits, and the timer interrupts it between the `unlock` and
the `context_switch`, where `current_thread` is already the idle thread:
that tick finds the thread on the zombie queue and frees the stack it
runs on. -/
theorem irq_in_window :
    (∃ x x', Run (fun _ _ => True) 1 x ∧ x.irq = some x' ∧ x.locked = true)
      ∧ (∃ x x', Run (fun _ _ => True) 1 x ∧ x.irq = some x'
        ∧ x.currentThread ≠ x.on)
      ∧ ∃ x, Run (fun _ _ => True) 1 x ∧ ¬ FreeOk x := by
  refine ⟨?_, ?_, ?_⟩
  · have hplay : (play (fun _ _ => True) (boot 1)
        (firstTick ++ [.call .yield, .exec])).map
        (fun x => (x.irq.isSome, x.locked)) = some (true, true) := by
      decide +kernel
    obtain ⟨x, hrun, heq⟩ := Option.map_eq_some_iff.mp hplay
    obtain ⟨hirq, hlock⟩ := Prod.mk.inj heq
    obtain ⟨x', hx'⟩ := Option.isSome_iff_exists.mp hirq
    exact ⟨x, x', run_play .boot hrun, hx', hlock⟩
  · have hplay : (play (fun _ _ => True) (boot 1)
        (firstTick ++ .call .exit :: List.replicate 9 .exec)).map
        (fun x => (x.irq.isSome, x.currentThread, x.on))
        = some (true, 0, 1) := by
      decide +kernel
    obtain ⟨x, hrun, heq⟩ := Option.map_eq_some_iff.mp hplay
    obtain ⟨hirq, hrest⟩ := Prod.mk.inj heq
    obtain ⟨hcur, hon⟩ := Prod.mk.inj hrest
    obtain ⟨x', hx'⟩ := Option.isSome_iff_exists.mp hirq
    refine ⟨x, x', run_play .boot hrun, hx', ?_⟩
    rw [hcur, hon]
    decide
  · have hplay : (play (fun _ _ => True) (boot 1)
        (firstTick ++ .call .exit :: List.replicate 9 .exec
          ++ .irq :: List.replicate 4 .exec)).map
        (fun x => (x.code.head?, x.on)) = some (some (free 1), 1) := by
      decide +kernel
    obtain ⟨x, hrun, heq⟩ := Option.map_eq_some_iff.mp hplay
    obtain ⟨hhead, hon⟩ := Prod.mk.inj heq
    refine ⟨x, run_play .boot hrun, fun hfree => ?_⟩
    obtain ⟨k, hk⟩ := List.head?_eq_some_iff.mp hhead
    exact hfree 1 k hk hon.symm

end Alix.Micro
