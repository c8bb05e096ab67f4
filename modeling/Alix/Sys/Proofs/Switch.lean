/-
Which flag a voluntary call comes back with.

While threads run, IF is set: an `iretq` restores a set flag, since the
interrupt was taken, and `popfq` sets it. A thread that gives up the CPU
by itself therefore leaves with IF set, and if the thread that later
switches back to it does so by itself, IF is still set. Only a tick
switches with IF clear, so the one thing that can go wrong is a tick that
switches to a thread inside a voluntary call. `Unyielded` excludes it,
and says before the tick who that thread would be: the first of the run
queue, if the current thread has to make room.
-/
import Alix.Sys.Switch
import Alix.Sys.Proofs.SchedRun

namespace Alix.Core

open Function (update update_self update_of_ne)
open Sched (Call Placed RunInv NoBlock Expired)

variable {x x' : Core} {k : Call}

/-- The runs of one CPU that make only calls that `may` allows. -/
inductive Run (may : Core → Call → Prop) : Core → Prop where
  | init : Run may init
  | step {x x' : Core} {k : Call} : Run may x → x.sched.Valid k →
      k.isBlock = false → x.Enabled k → may x k → x.step k = some x' →
      Run may x'

/-- No tick switches to a thread that is inside a voluntary call. -/
def Unyielded (x : Core) : Call → Prop
  | .tick c _ => x.sched.Expired c →
      ∀ t ∈ (x.sched.queue (.run c)).head, ∀ flag, x.context t ≠ .voluntary flag
  | _ => True

/-- Every voluntary call has come back with the flag it was made with,
and the thread that runs now runs with interrupts enabled. -/
def FlagKept (x : Core) : Prop :=
  x.iflag = true ∧ ∀ r ∈ x.returned, r.2 = r.1

-- ==== the invariant

structure Inv (x : Core) : Prop where
  sched : ∃ gone L, RunInv x.sched gone L
  one : x.sched.cpuCount = 1
  kept : FlagKept x
  voluntary : ∀ t flag, x.context t = .voluntary flag → flag = true
  preempted : ∀ t flag, x.context t = .preempted flag → flag = true

theorem inv_init : Inv init :=
  ⟨⟨_, _, Sched.runInv_init 1⟩, rfl, ⟨rfl, fun r hr => (by cases hr)⟩,
    fun t flag h => (by cases h), fun t flag h => (by cases h)⟩

/-- A switch in which IF stays as it should. -/
theorem Inv.load {next : Nat} {y : Core} (h : Inv x)
    (hy : x'.load next = some y)
    (hsched : ∃ gone L, RunInv x'.sched gone L) (hone : x'.sched.cpuCount = 1)
    (hret : x'.returned = x.returned)
    (hcontext : ∃ flag, x'.context = update x.context x.current flag
      ∧ flag ≠ .voluntary false ∧ flag ≠ .preempted false)
    (hnext : next ≠ x.current)
    (hflag : ∀ flag, x.context next = .voluntary flag → x'.iflag = true) :
    Inv y := by
  obtain ⟨ctx, hctx, hvol, hpre⟩ := hcontext
  have hvoluntary : ∀ t flag, x'.context t = .voluntary flag → flag = true := by
    intro t flag ht
    rw [hctx] at ht
    by_cases htc : t = x.current
    · rw [htc, update_self] at ht
      cases flag with
      | true => rfl
      | false => exact (hvol ht).elim
    · rw [update_of_ne htc] at ht
      exact h.voluntary t flag ht
  have hpreempted : ∀ t flag, x'.context t = .preempted flag → flag = true := by
    intro t flag ht
    rw [hctx] at ht
    by_cases htc : t = x.current
    · rw [htc, update_self] at ht
      cases flag with
      | true => rfl
      | false => exact (hpre ht).elim
    · rw [update_of_ne htc] at ht
      exact h.preempted t flag ht
  unfold Core.load at hy
  split at hy
  case h_1 =>
    injection hy with hy
    subst hy
    exact ⟨hsched, hone, ⟨rfl, by rw [hret]; exact h.kept.2⟩, hvoluntary,
      hpreempted⟩
  case h_2 flag hctx' =>
    injection hy with hy
    subst hy
    have hold : x.context next = .voluntary flag := by
      rw [hctx, update_of_ne hnext] at hctx'
      exact hctx'
    have hset := hflag flag hold
    refine ⟨hsched, hone, ⟨hset, fun r hr => ?_⟩, hvoluntary, hpreempted⟩
    rcases List.mem_cons.mp hr with hr | hr
    · rw [hr]
      exact hset.trans (h.voluntary next flag hold).symm
    · rw [hret] at hr
      exact h.kept.2 r hr
  case h_3 flag hctx' =>
    injection hy with hy
    subst hy
    exact ⟨hsched, hone, ⟨hpreempted next flag hctx',
      by rw [hret]; exact h.kept.2⟩, hvoluntary, hpreempted⟩
  case h_4 => cases hy

/-- Where a tick goes. -/
theorem Inv.tick_switch (h : Inv x) {c sp : Nat}
    (hv : x.sched.Valid (.tick c sp)) {s : Sched}
    (hs : x.sched.schedTick c sp = some s) :
    c = 0 ∧ (¬ x.sched.Expired c → (s.cpu 0).currentThread = x.current)
      ∧ (x.sched.Expired c → (s.cpu 0).currentThread
        = (x.sched.queue (.run c)).head.getD x.current) := by
  obtain ⟨gone, L, hinv⟩ := h.sched
  obtain ⟨s', -, -, hs', -, -, -, -, -, hswitch⟩ :=
    hinv.placed.tick hinv.counted hv.1 hv.2
  rw [hs] at hs'
  injection hs' with hs'
  subst hs'
  have hc : c = 0 := by
    have := hv.1
    rw [h.one] at this
    omega
  subst hc
  refine ⟨rfl, hswitch.stays, fun hexp => ?_⟩
  rw [(hinv.placed.queues.rep (.run 0)).head]
  exact hswitch.goes hexp

/-- A tick that switches goes to a thread that is not inside a voluntary
call. -/
theorem Inv.tick_target (h : Inv x) {c sp : Nat} (hv : x.sched.Valid (.tick c sp))
    (hg : x.Unyielded (.tick c sp)) {s : Sched}
    (hs : x.sched.schedTick c sp = some s)
    (hne : (s.cpu 0).currentThread ≠ x.current) (flag : Bool) :
    x.context (s.cpu 0).currentThread ≠ .voluntary flag := by
  obtain ⟨-, hstays, hgoes⟩ := h.tick_switch hv hs
  by_cases hexp : x.sched.Expired c
  · have hnext := hgoes hexp
    cases hhead : (x.sched.queue (.run c)).head with
    | none =>
        rw [hhead] at hnext
        exact (hne hnext).elim
    | some t =>
        rw [hhead] at hnext
        rw [hnext]
        exact hg hexp t hhead flag
  · exact (hne (hstays hexp)).elim

theorem Inv.step (h : Inv x) (hv : x.sched.Valid k) (hk : k.isBlock = false)
    (hg : x.Unyielded k) (hstep : x.step k = some x') : Inv x' := by
  obtain ⟨gone, L, hinv⟩ := h.sched
  unfold Core.step at hstep
  cases hcall : x.sched.call k with
  | none => simp [hcall] at hstep
  | some s =>
      have hpanic : ¬ x.sched.Panics k := fun e => by
        rw [Sched.call_panics e] at hcall
        cases hcall
      obtain ⟨s', L', hcall', hcpus, hinv'⟩ := hinv.call hv hk hpanic
      rw [hcall] at hcall'
      injection hcall' with hs
      subst hs
      simp only [hcall] at hstep
      split at hstep
      case isTrue =>
        injection hstep with hstep
        subst hstep
        refine ⟨⟨_, L', hinv'⟩, hcpus.trans h.one, ⟨h.kept.1, fun r hr => ?_⟩,
          h.voluntary, h.preempted⟩
        simp only at hr
        split at hr
        case isTrue =>
          rcases List.mem_cons.mp hr with hr | hr
          · rw [hr]
          · exact h.kept.2 r hr
        case isFalse => exact h.kept.2 r hr
      case isFalse hne =>
        refine h.load hstep ⟨_, L', hinv'⟩ (hcpus.trans h.one) rfl
          ⟨_, rfl, ?_, ?_⟩ hne fun flag hctx => ?_
        · rw [h.kept.1]
          cases k <;> simp [frame]
        · rw [h.kept.1]
          cases k <;> simp [frame]
        · cases k with
          | tick c sp => exact (h.tick_target hv hg hcall hne flag hctx).elim
          | _ => exact h.kept.1

-- ==== runs

theorem run_inv (h : Run Unyielded x) : Inv x := by
  induction h with
  | init => exact inv_init
  | step _ hv hk _ hg hstep ih => exact ih.step hv hk hg hstep

theorem load_voluntary {next : Nat} {flag : Bool}
    (h : x.context next = .voluntary flag) : x.load next
      = some { x with returned := (flag, x.iflag) :: x.returned } := by
  unfold Core.load
  rw [h]

/-- A tick that does switch to a thread inside a voluntary call sends it
back with IF clear. -/
theorem Inv.step_unyielded (h : Inv x) (hv : x.sched.Valid k)
    (hstep : x.step k = some x') (hkept : FlagKept x') : x.Unyielded k := by
  cases k with
  | tick c sp =>
      intro hexp t hhead flag hctx
      obtain ⟨gone, L, hinv⟩ := h.sched
      unfold Core.step at hstep
      cases hcall : x.sched.call (.tick c sp) with
      | none => simp [hcall] at hstep
      | some s =>
          obtain ⟨hc, -, hgoes⟩ := h.tick_switch hv hcall
          subst hc
          have hnext : (s.cpu 0).currentThread = t := by
            rw [hgoes hexp, hhead]
            rfl
          -- a queued thread is not running
          have hne : t ≠ x.current := by
            intro e
            have hmem : t ∈ L (.run 0) := by
              rw [(hinv.placed.queues.rep (.run 0)).head] at hhead
              exact List.mem_of_mem_head? hhead
            have hst := ((hinv.placed.run 0 t).mp hmem).2.2
            have hrun := hinv.placed.current_running hv.1
            rw [e] at hst
            have := hst.symm.trans hrun
            cases this
          simp only [hcall, hnext, if_neg hne] at hstep
          rw [load_voluntary ((update_of_ne hne _ _).trans hctx)] at hstep
          injection hstep with hstep
          subst hstep
          have := hkept.1
          cases this
  | _ => trivial

/-- In a run in which no tick switched to a thread inside a voluntary
call, every voluntary call has come back with the flag it was made with
and the current thread runs with interrupts enabled; the next step keeps
that exactly if it is no such tick either. -/
theorem run_flagKept (h : Run Unyielded x) : FlagKept x
    ∧ ∀ k x', x.sched.Valid k → k.isBlock = false → x.Enabled k →
      x.step k = some x' → (FlagKept x' ↔ x.Unyielded k) := by
  have hinv := run_inv h
  refine ⟨hinv.kept, fun k x' hv hk _ hstep => ⟨?_, fun hg => ?_⟩⟩
  · exact hinv.step_unyielded hv hstep
  · exact (hinv.step hv hk hg hstep).kept

-- ==== traces

instance (s : Sched) (c : Nat) : Decidable (s.Expired c) :=
  inferInstanceAs (Decidable (_ ∨ _))

instance (x : Core) (k : Call) : Decidable (x.Enabled k) :=
  match k with
  | .tick .. => inferInstanceAs (Decidable (_ = true))
  | .spawnProc .. | .spawnThread .. | .yield .. | .blockCurrent .. | .wake ..
  | .exit .. | .reap .. | .block .. => inferInstanceAs (Decidable True)

/-- Makes the calls of a list, as long as they may be made. -/
def play (may : Core → Call → Prop) [∀ x k, Decidable (may x k)] :
    Core → List Call → Option Core
  | x, [] => some x
  | x, k :: ks =>
      if x.sched.Valid k ∧ k.isBlock = false ∧ x.Enabled k ∧ may x k then
        match x.step k with
        | none => none
        | some x' => play may x' ks
      else none

theorem run_play {may : Core → Call → Prop} [∀ x k, Decidable (may x k)]
    {ks : List Call} (h : Run may x) (hp : play may x ks = some x') :
    Run may x' := by
  induction ks generalizing x with
  | nil =>
      injection hp with hp
      rw [← hp]
      exact h
  | cons k ks ih =>
      unfold play at hp
      split at hp
      case isTrue hk =>
        split at hp
        case h_1 => cases hp
        case h_2 hstep => exact ih (h.step hk.1 hk.2.1 hk.2.2.1 hk.2.2.2 hstep) hp
      case isFalse => cases hp

instance (x : Core) (k : Call) : Decidable (x.Unyielded k) :=
  match k with
  | .tick c _ => inferInstanceAs (Decidable (x.sched.Expired c →
      ∀ t ∈ (x.sched.queue (.run c)).head,
        ∀ flag, x.context t ≠ .voluntary flag))
  | .spawnProc .. | .spawnThread .. | .yield .. | .blockCurrent .. | .wake ..
  | .exit .. | .reap .. | .block .. => inferInstanceAs (Decidable True)

/-- Two threads, of which each yields to the other. -/
theorem run_flagKept_yield : ∃ x, FlagKept x
    ∧ x.returned = [(true, true)] ∧ x.current = 1 := by
  have hplay : (play Unyielded init [.spawnProc .kernel,
      .spawnThread 0 1 true 8, .spawnThread 0 1 true 8, .tick 0 8,
      .yield 0 8, .yield 0 8]).map (fun x => (x.returned, x.current))
      = some ([(true, true)], 1) := by
    decide +kernel
  obtain ⟨x, hrun, heq⟩ := Option.map_eq_some_iff.mp hplay
  obtain ⟨hret, hcur⟩ := Prod.mk.inj heq
  exact ⟨x, (run_flagKept (run_play .init hrun)).1, hret, hcur⟩

/-- Two threads. The first yields to the second, and when that one's
quantum ends the tick switches back: `sched_yield` returns with IF clear. -/
theorem tick_resumes_yield : ∃ x, Run (fun _ _ => True) x ∧ ¬ FlagKept x
    ∧ x.returned = [(true, false)] ∧ x.iflag = false := by
  have hplay : (play (fun _ _ => True) init [.spawnProc .kernel,
      .spawnThread 0 1 true 8, .spawnThread 0 1 true 8, .tick 0 8,
      .yield 0 8, .tick 0 8, .tick 0 8]).map (fun x => (x.returned, x.iflag))
      = some ([(true, false)], false) := by
    decide +kernel
  obtain ⟨x, hrun, heq⟩ := Option.map_eq_some_iff.mp hplay
  obtain ⟨hret, hflag⟩ := Prod.mk.inj heq
  refine ⟨x, run_play .init hrun, fun hkept => ?_, hret, hflag⟩
  have := hflag.symm.trans hkept.1
  cases this

end Alix.Core
