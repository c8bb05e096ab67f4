/-
Mutual exclusion and hand-over of the mutex.

# What can go wrong

`mutex_unlock` makes the first waiter the owner under the guard, but wakes
it later; and a waiter queues itself under the guard, but blocks under a
second lock. The invariant says that neither gap loses anything: a waiter
that is queued is blocked already, since the guard is dropped only after
its status is set, and the thread that has popped a waiter still has its
`thread_wake` to call, which finds it blocked.

# The scheduler's part

`Sched.RunInv` places every thread. What is needed beyond it is that no
call of the scheduler but `thread_wake(t)` and `t`'s own
`thread_block_current` changes whether `t` is blocked (`call_blocked`).
-/
import Alix.Sys.Mutex
import Alix.Sys.Proofs.SchedRun

namespace Alix

namespace Sched

open Function (update update_self update_of_ne)

variable {s s' : Sched} {L : Queue → List Nat} {c t u : Nat} {gone : List Nat}
  {k : Call}

-- ==== who blocks and unblocks

/-- Whether a thread is blocked. -/
def Blocked (s : Sched) (t : Nat) : Prop := (s.tcb t).status = .blocked

/-- A step that neither blocks nor unblocks `t`, and frees no number. -/
structure Kept (s s' : Sched) (t : Nat) : Prop where
  blocked : s'.Blocked t ↔ s.Blocked t
  count : s.tcbCount ≤ s'.tcbCount

theorem Kept.trans {s'' : Sched} (h : Kept s s' t) (h' : Kept s' s'' t) :
    Kept s s'' t :=
  ⟨h'.blocked.trans h.blocked, Nat.le_trans h.count h'.count⟩

theorem kept_of_status (h : (s'.tcb t).status = (s.tcb t).status)
    (hn : s.tcbCount ≤ s'.tcbCount) : Kept s s' t :=
  ⟨by unfold Blocked; rw [h], hn⟩

/-- A new status for a thread that was not blocked and is not. -/
theorem kept_modTcb {f : Tcb → Tcb} (h : u = t → ¬ s.Blocked t
    ∧ (f (s.tcb t)).status ≠ .blocked) : Kept s (s.modTcb u f) t := by
  refine ⟨?_, Nat.le_refl _⟩
  unfold Blocked modTcb
  by_cases htu : t = u
  · subst htu
    obtain ⟨hnot, hf⟩ := h rfl
    simp only [update_self]
    exact ⟨fun e => (hf e).elim, fun e => (hnot e).elim⟩
  · simp only [update_of_ne htu]

theorem kept_touch {f : Tcb → Tcb} (h : ∀ th, (f th).status = th.status) (u : Nat) :
    Kept s (s.modTcb u f) t := by
  refine kept_of_status ?_ (Nat.le_refl _)
  rw [modTcb_tcb]
  split
  · rename_i e
    rw [h, e]
  · rfl

theorem kept_setStatus {st : ThreadStatus} (h : u = t → ¬ s.Blocked t)
    (hst : st ≠ .blocked) : Kept s (s.setStatus u st) t :=
  kept_modTcb fun e => ⟨h e, hst⟩

theorem popFront_tcb {q : Queue} {data : Option Nat}
    (h : s.popFront q = some (s', data)) :
    s'.tcb = s.tcb ∧ s'.cpu = s.cpu ∧ s'.tcbCount = s.tcbCount := by
  unfold popFront at h
  split at h
  · cases h
  · cases h
    exact ⟨rfl, rfl, rfl⟩

/-- `sched_next_thread` changes no status, and finds a runnable thread or
the idle thread. -/
theorem schedNextThread_status {fuel next : Nat}
    (h : s.schedNextThread c fuel = some (s', next)) :
    (∀ t, (s'.tcb t).status = (s.tcb t).status) ∧ s'.cpu = s.cpu
      ∧ s'.tcbCount = s.tcbCount
      ∧ (next = (s.cpu c).idleThread ∨ (s.tcb next).status = .runnable) := by
  induction fuel generalizing s with
  | zero => cases h
  | succ fuel ih =>
      unfold schedNextThread at h
      split at h
      · cases h
        exact ⟨fun _ => rfl, rfl, rfl, Or.inl rfl⟩
      · rename_i s1 hpop
        cases h
        obtain ⟨htcb, hcpu, hn⟩ := popFront_tcb hpop
        exact ⟨fun t => by rw [htcb], hcpu, hn, Or.inl (by rw [hcpu])⟩
      · rename_i s1 u hpop
        obtain ⟨htcb, hcpu, hn⟩ := popFront_tcb hpop
        split at h
        · rename_i hready
          cases h
          exact ⟨fun t => by rw [htcb], hcpu, hn, Or.inr (by rw [← htcb]; exact hready.1)⟩
        split at h
        · rename_i hzombie
          obtain ⟨hst, hcpu', hn', hnext⟩ := ih h
          have hq : (∀ t, ((s1.schedQueueZombieLocked c u).tcb t).status
              = (s1.tcb t).status) ∧ (s1.schedQueueZombieLocked c u).cpu = s1.cpu
              ∧ (s1.schedQueueZombieLocked c u).tcbCount = s1.tcbCount := by
            unfold schedQueueZombieLocked
            split
            · exact ⟨fun _ => rfl, rfl, rfl⟩
            · refine ⟨fun t => ?_, rfl, rfl⟩
              show (update s1.tcb u _ t).status = _
              by_cases htu : t = u
              · rw [htu, update_self, hzombie]
              · rw [update_of_ne htu]
          refine ⟨fun t => ?_, hcpu'.trans (hq.2.1.trans hcpu),
            hn'.trans (hq.2.2.trans hn), ?_⟩
          · rw [hst, hq.1, htcb]
          · rw [hq.2.1, hcpu, hq.1, htcb] at hnext
            exact hnext
        · obtain ⟨hst, hcpu', hn', hnext⟩ := ih h
          refine ⟨fun t => by rw [hst, htcb], hcpu'.trans hcpu, hn'.trans hn, ?_⟩
          rw [hcpu, htcb] at hnext
          exact hnext

/-- The thread that runs next was runnable, or is the idle thread. -/
theorem kept_running {next : Nat} (ht : t ≠ (s.cpu c).idleThread)
    (h : next = (s.cpu c).idleThread ∨ (s.tcb next).status = .runnable) :
    Kept s (s.setStatus next .running) t := by
  refine kept_setStatus ?_ (by decide)
  rintro rfl hb
  rcases h with e | e
  · exact ht e
  · unfold Blocked at hb
    rw [e] at hb
    cases hb

theorem kept_switch (s : Sched) (c next cur sp t : Nat) :
    Kept s ((s.setCurrent c next).contextSwitch cur sp) t := by
  have hcur : Kept s (s.setCurrent c next) t := kept_of_status rfl (Nat.le_refl _)
  exact hcur.trans (kept_touch (by intro th; rfl) cur)

/-- `sched_run_next_locked` wakes nobody but the idle thread. -/
theorem kept_runNext {cur sp : Nat} (h : s.schedRunNextLocked c cur sp = some s')
    (ht : t ≠ (s.cpu c).idleThread) : Kept s s' t := by
  unfold schedRunNextLocked at h
  split at h
  · cases h
  · rename_i s1 next hnext
    obtain ⟨hst, hcpu, hn, hrun⟩ := schedNextThread_status hnext
    have h1 : Kept s s1 t := kept_of_status (hst t) (Nat.le_of_eq hn.symm)
    rw [← hcpu] at ht hrun
    rw [← hst] at hrun
    have h2 := kept_running ht hrun
    split at h
    · rename_i hsame
      cases h
      rw [hsame] at h2
      exact h1.trans h2
    · cases h
      exact (h1.trans h2).trans (kept_switch _ c next cur sp t)

theorem kept_pushBack (s : Sched) (q : Queue) (u t : Nat) : Kept s (s.pushBack q u) t :=
  kept_of_status rfl (Nat.le_refl _)

theorem kept_removeIfQueued {q : Queue} (h : s.removeIfQueued q u = some s') :
    Kept s s' t ∧ s'.cpu = s.cpu := by
  unfold removeIfQueued at h
  split at h
  · cases h
  · cases h
    exact ⟨kept_of_status rfl (Nat.le_refl _), rfl⟩
  · cases h
    exact ⟨kept_of_status rfl (Nat.le_refl _), rfl⟩

/-- `thread_block_current` blocks the current thread and no other. -/
theorem threadBlockCurrent_spec {sp : Nat}
    (hcur : (s.cpu c).currentThread ≠ (s.cpu c).idleThread)
    (h : s.threadBlockCurrent c sp = some s') :
    (∀ t, t ≠ (s.cpu c).idleThread → t ≠ (s.cpu c).currentThread → Kept s s' t)
      ∧ s'.Blocked (s.cpu c).currentThread ∧ s.tcbCount ≤ s'.tcbCount := by
  unfold threadBlockCurrent at h
  rw [if_neg hcur] at h
  simp only at h
  split at h
  · cases h
  · rename_i s1 hrem
    have hrem' := fun t => kept_removeIfQueued (t := t) hrem
    have hcpu : s1.cpu = s.cpu := (hrem' 0).2
    have hnext := fun t (ht : t ≠ (s.cpu c).idleThread) =>
      kept_runNext (t := t) h (by rw [hcpu]; exact ht)
    refine ⟨fun t ht htc => ?_, ?_, ?_⟩
    · exact ((kept_modTcb fun e => (htc e.symm).elim).trans (hrem' t).1).trans
        (hnext t ht)
    · refine ((hnext _ hcur).blocked.trans (hrem' _).1.blocked).mpr ?_
      unfold Blocked
      rw [modTcb_tcb, if_pos rfl]
    · exact Nat.le_trans (hrem' 0).1.count (hnext _ hcur).count

/-- `thread_wake` unblocks its thread and no other. -/
theorem threadWake_spec (h : s.threadWake u = some s') :
    (∀ t, t ≠ u → Kept s s' t) ∧ s.tcbCount ≤ s'.tcbCount
      ∧ ((s.tcb u).cpuIndex < s.cpuCount → u ≠ (s.cpu (s.tcb u).cpuIndex).idleThread →
        ¬ s'.Blocked u) := by
  unfold threadWake at h
  simp only at h
  have hself : ¬ (s.setStatus u .runnable).Blocked u := by
    unfold Blocked
    rw [setStatus_tcb, if_pos rfl]
    exact fun e => (by cases e)
  split at h
  · rename_i hoff
    cases h
    refine ⟨fun _ _ => kept_of_status rfl (Nat.le_refl _), Nat.le_refl _, fun h1 h2 => ?_⟩
    rcases hoff with e | e
    · omega
    · exact (h2 e).elim
  split at h
  · split at h
    · cases h
    · cases h
      exact ⟨fun t ht => (kept_setStatus (fun e => (ht e.symm).elim) (by decide)).trans
        (kept_pushBack _ _ u t), Nat.le_refl _, fun _ _ => hself⟩
    · cases h
      exact ⟨fun t ht => kept_setStatus (fun e => (ht e.symm).elim) (by decide),
        Nat.le_refl _, fun _ _ => hself⟩
  · rename_i hnot
    cases h
    exact ⟨fun _ _ => kept_of_status rfl (Nat.le_refl _), Nat.le_refl _,
      fun _ _ => hnot⟩

/-- A thread is no CPU's idle thread. -/
theorem RunInv.not_idle (h : RunInv s gone L) (ht : s.Thread t) (hc : c < s.cpuCount) :
    t ≠ (s.cpu c).idleThread := by
  intro e
  rw [h.placed.idle c hc] at e
  have := ht.1
  omega

/-- The thread that a CPU runs is not blocked. -/
theorem RunInv.current_unblocked (h : RunInv s gone L) (hc : c < s.cpuCount) :
    ¬ s.Blocked (s.cpu c).currentThread := by
  intro hb
  unfold Blocked at hb
  rw [h.placed.current_running hc] at hb
  cases hb

theorem kept_spawnThread (ht : s.Thread t) (c p rsp : Nat) (mem : Bool) :
    Kept s (s.spawnThread c p mem rsp) t := by
  rcases spawnThread_spec s c p rsp mem with hsame | ⟨hspec, -⟩
  · rw [hsame]
    exact kept_of_status rfl (Nat.le_refl _)
  · refine kept_of_status ?_ (by rw [hspec.tcbCount]; omega)
    rw [hspec.tcb t (Nat.ne_of_lt ht.2.1)]

theorem RunInv.kept_tick (h : RunInv s gone L) (ht : s.Thread t) (hc : c < s.cpuCount)
    {sp : Nat} (hcall : s.schedTick c sp = some s') : Kept s s' t := by
  obtain ⟨s1, L1, hreap, hp1, -, hspec, -⟩ := h.placed.reap h.counted hc
  have h1 : Kept s s1 t :=
    kept_of_status (by rw [hspec.tcb]) (Nat.le_of_eq hspec.tcbCount.symm)
  have hidle1 : t ≠ (s1.cpu c).idleThread := by
    rw [hp1.idle c (by rw [hspec.cpuCount]; exact hc), ← h.placed.idle c hc]
    exact h.not_idle ht hc
  unfold schedTick at hcall
  simp only [hreap] at hcall
  split at hcall
  · rename_i hrun
    rw [modTcb_tcb, if_pos rfl] at hrun
    have h2 : Kept s1 ((s1.modTcb (s1.cpu c).currentThread fun th =>
        { th with totalTicks := th.totalTicks + 1 }).modTcb
          (s1.cpu c).currentThread fun th =>
            { th with ticksLeft := th.ticksLeft - 1 }) t :=
      (kept_touch (by intro th; rfl) _).trans (kept_touch (by intro th; rfl) _)
    split at hcall
    · cases hcall
      exact h1.trans h2
    · -- the current thread was running, so it is not `t` if `t` is blocked
      have h3 := h1.trans h2
      split at hcall
      · refine (h3.trans ?_).trans (kept_runNext hcall hidle1)
        refine (kept_setStatus (fun e => ?_) (by decide)).trans (kept_pushBack _ _ _ t)
        rw [h2.blocked]
        unfold Blocked
        rw [← e, hrun]
        exact fun e => (by cases e)
      · exact h3.trans (kept_runNext hcall hidle1)
  · exact (h1.trans (kept_touch (by intro th; rfl) _)).trans
      (kept_runNext hcall hidle1)

theorem RunInv.kept_yield (h : RunInv s gone L) (ht : s.Thread t) (hc : c < s.cpuCount)
    {sp : Nat} (hcall : s.schedYield c sp = some s') : Kept s s' t := by
  unfold schedYield at hcall
  simp only at hcall
  split at hcall
  · refine Kept.trans ?_ (kept_runNext hcall (h.not_idle ht hc))
    refine (kept_setStatus (fun e => ?_) (by decide)).trans (kept_pushBack _ _ _ t)
    rw [← e]
    exact h.current_unblocked hc
  · exact kept_runNext hcall (h.not_idle ht hc)

/-- `thread_block_current`, seen from a thread that is not the current one. -/
theorem RunInv.kept_blockCurrent (h : RunInv s gone L) (ht : s.Thread t) (hc : c < s.cpuCount)
    (hother : (s.cpu c).currentThread ≠ t) {sp : Nat}
    (hcall : s.threadBlockCurrent c sp = some s') : Kept s s' t := by
  by_cases hcur : (s.cpu c).currentThread = (s.cpu c).idleThread
  · unfold threadBlockCurrent at hcall
    rw [if_pos hcur] at hcall
    cases hcall
    exact kept_of_status rfl (Nat.le_refl _)
  · exact (threadBlockCurrent_spec hcur hcall).1 t (h.not_idle ht hc) (Ne.symm hother)

theorem RunInv.kept_exit (h : RunInv s gone L) (ht : s.Thread t) (hc : c < s.cpuCount)
    {sp : Nat} (hcall : s.schedExit c sp = some s') : Kept s s' t := by
  unfold schedExit at hcall
  simp only at hcall
  split at hcall
  · cases hcall
  rename_i hcur
  split at hcall
  · cases hcall
  rename_i s1 next hnext
  obtain ⟨hst, hcpu, hn, hrun⟩ := schedNextThread_status hnext
  have h1 : Kept s (s.schedQueueZombieLocked c (s.cpu c).currentThread) t := by
    unfold schedQueueZombieLocked
    rw [if_neg hcur]
    refine (kept_modTcb fun e => ⟨?_, by simp⟩).trans (kept_pushBack _ _ _ t)
    rw [← e]
    exact h.current_unblocked hc
  have hcpu0 : (s.schedQueueZombieLocked c (s.cpu c).currentThread).cpu = s.cpu := by
    unfold schedQueueZombieLocked
    rw [if_neg hcur]
    rfl
  have h2 : Kept (s.schedQueueZombieLocked c (s.cpu c).currentThread) s1 t :=
    kept_of_status (hst t) (Nat.le_of_eq hn.symm)
  have ht1 : t ≠ (s1.cpu c).idleThread := by
    rw [hcpu, hcpu0]
    exact h.not_idle ht hc
  rw [← hcpu, ← hst] at hrun
  have h3 : Kept s1 (s1.setStatus (if next = (s.cpu c).currentThread
      then (s1.cpu c).idleThread else next) .running) t := by
    refine kept_running ht1 ?_
    split
    · exact Or.inl rfl
    · exact hrun
  cases hcall
  exact ((h1.trans h2).trans h3).trans (kept_switch _ c _ _ sp t)

theorem RunInv.kept_reap (h : RunInv s gone L) (hc : c < s.cpuCount)
    (hcall : s.schedReap c = some s') (t : Nat) : Kept s s' t := by
  obtain ⟨s1, L1, hreap, -, -, hspec, -⟩ := h.placed.reap h.counted hc
  rw [hreap] at hcall
  cases hcall
  exact kept_of_status (by rw [hspec.tcb]) (Nat.le_of_eq hspec.tcbCount.symm)

/-- The other calls block and unblock nobody. -/
theorem RunInv.call_kept (h : RunInv s gone L) (hv : s.Valid k)
    (hk : k.isBlock = false) (hcall : s.call k = some s') (ht : s.Thread t)
    (hwake : k ≠ .wake t)
    (hblock : ∀ c sp, k = .blockCurrent c sp → (s.cpu c).currentThread ≠ t) :
    Kept s s' t := by
  cases k with
  | spawnProc type =>
      cases hcall
      exact kept_of_status rfl (Nat.le_refl _)
  | spawnThread c p mem rsp =>
      cases hcall
      exact kept_spawnThread ht c p rsp mem
  | tick c sp => exact h.kept_tick ht hv.1 hcall
  | yield c sp => exact h.kept_yield ht hv.1 hcall
  | blockCurrent c sp => exact h.kept_blockCurrent ht hv.1 (hblock c sp rfl) hcall
  | wake u => exact (threadWake_spec hcall).1 t fun e => hwake (by rw [e])
  | exit c sp => exact h.kept_exit ht hv.1 hcall
  | reap c => exact h.kept_reap hv hcall t
  | block c u sp => cases hk

end Sched

namespace MutexSys

open Function (update update_self update_of_ne)

-- ==== runs

/-- The steps of the threads that use the mutex. They are not idle
threads; inside a call of the mutex they only make the calls of its code;
and nobody else wakes a thread that is parked or blocks one. -/
def Calm (s : MutexSys) : Act → Prop
  | .lockGuard c sp => c < s.sched.cpuCount
      ∧ s.current c ≠ (s.sched.cpu c).idleThread ∧ sp ≠ 0
  | .lock c | .recheck c | .tryLock c | .unlock c | .wake c =>
      c < s.sched.cpuCount ∧ s.current c ≠ (s.sched.cpu c).idleThread
  | .sched k => s.sched.Valid k ∧ k.isBlock = false ∧ match k with
      | .yield c _ | .exit c _ | .blockCurrent c _ => s.pc (s.current c) = .out
      | .wake t => s.pc t ≠ .parked
      | _ => True

/-- The states that `n` CPUs come to. A thread that exits is gone: no later
one has its number, as it could have its address. -/
inductive Reachable (n : Nat) : MutexSys → Prop
  | init : Reachable n (mutexInit (Sched.schedInit n))
  | step {s s' : MutexSys} {a : Act} : Reachable n s → s.Calm a →
      s.step a = some s' → Reachable n s'

instance (s : MutexSys) (a : Act) : Decidable (s.Calm a) :=
  match a with
  | .lock _ | .recheck _ | .tryLock _ | .unlock _ | .wake _ =>
      inferInstanceAs (Decidable (_ ∧ _))
  | .lockGuard .. => inferInstanceAs (Decidable (_ ∧ _ ∧ _))
  | .sched k => match k with
      | .yield .. | .exit .. | .blockCurrent .. =>
          inferInstanceAs (Decidable (_ ∧ _ ∧ _ = _))
      | .wake _ => inferInstanceAs (Decidable (_ ∧ _ ∧ _ ≠ _))
      | .spawnProc _ | .spawnThread .. | .tick .. | .reap _ | .block .. =>
          inferInstanceAs (Decidable (_ ∧ _ ∧ True))

/-- Takes the steps of a list, as long as they can be taken. -/
def play : MutexSys → List Act → Option MutexSys
  | s, [] => some s
  | s, a :: as =>
      if s.Calm a then
        match s.step a with
        | none => none
        | some s' => play s' as
      else none

theorem reachable_play {n : Nat} {s s' : MutexSys} {as : List Act}
    (h : Reachable n s) (hp : play s as = some s') : Reachable n s' := by
  induction as generalizing s with
  | nil =>
      cases hp
      exact h
  | cons a as ih =>
      unfold play at hp
      split at hp
      case isTrue hcalm =>
        split at hp
        case h_1 => cases hp
        case h_2 s₁ hstep => exact ih (h.step hcalm hstep) hp
      case isFalse => cases hp

/-- What the mutex promises. -/
structure Ok (s : MutexSys) : Prop where
  /-- at most one thread holds the mutex, and it is the owner -/
  exclusive : ∀ t, s.holds t = true → s.owner = some t
  /-- the owner holds it, or is on its way out of `mutex_lock` -/
  owned : ∀ t, s.owner = some t → s.holds t = true ∨ s.pc t = .parked
  /-- the waiters are the threads blocked in `mutex_lock` that have not
  been handed the mutex; they were queued after all that have been -/
  waiters : ∃ W, Rep s.waitNodes s.waiters W ∧ W.Nodup
    ∧ (∀ t, t ∈ W ↔ s.pc t = .parked ∧ s.owner ≠ some t)
    ∧ (∀ t ∈ W, s.sched.Blocked t)
    ∧ (s.owner = none → W = [])
    ∧ s.enqueued = s.granted ++ W
  /-- a thread that comes back from `thread_block_current` has been
  handed the mutex -/
  handed : ∀ c, c < s.sched.cpuCount → s.pc (s.current c) = .parked →
    s.owner = some (s.current c)
  /-- an owner that is still blocked will be woken -/
  pending : ∀ t, s.owner = some t → s.pc t = .parked → s.sched.Blocked t →
    ∃ u, s.pc u = .waking t

/-- What the steps keep, with the threads gone and the waiters. -/
structure Inv (s : MutexSys) (gone W : List Nat) : Prop where
  run : ∃ L, Sched.RunInv s.sched gone L
  guard : s.guard = none
  rep : Rep s.waitNodes s.waiters W
  data : ∀ t ∈ W, s.waitNodes.data t = some t
  alive : ∀ t, s.pc t ≠ .out →
    s.sched.cpuCount ≤ t ∧ t < s.sched.tcbCount ∧ t ∉ gone
  waiting : ∀ t, t ∈ W ↔ s.pc t = .parked ∧ s.owner ≠ some t
  blocked : ∀ t ∈ W, s.sched.Blocked t
  free : s.owner = none → W = []
  holder : ∀ t, s.holds t = true → s.owner = some t
  owned : ∀ t, s.owner = some t → s.holds t = true ∨ s.pc t = .parked
  waking : ∀ u t, s.pc u = .waking t →
    s.owner = some t ∧ s.pc t = .parked ∧ s.sched.Blocked t
  unique : ∀ u u' t t', s.pc u = .waking t → s.pc u' = .waking t' → u = u'
  pending : ∀ t, s.owner = some t → s.pc t = .parked → s.sched.Blocked t →
    ∃ u, s.pc u = .waking t
  order : s.enqueued = s.granted ++ W

variable {s s' : MutexSys} {gone W : List Nat} {c t sp : Nat}

theorem inv_init (n : Nat) : Inv (mutexInit (Sched.schedInit n)) [] [] where
  run := ⟨_, Sched.runInv_init n⟩
  guard := rfl
  rep := ⟨Dll.isList_nil _, rfl, rfl, rfl⟩
  data := fun t ht => (by cases ht)
  alive := fun t ht => (ht rfl).elim
  waiting := fun t => ⟨fun h => (by cases h), fun h => (by cases h.1)⟩
  blocked := fun t ht => (by cases ht)
  free := fun _ => rfl
  holder := fun t ht => (by cases ht)
  owned := fun t ht => (by cases ht)
  waking := fun u t h => (by cases h)
  unique := fun u u' t t' h => (by cases h)
  pending := fun t ht => (by cases ht)
  order := rfl

-- ==== the thread

/-- The thread that runs is alive and not blocked. -/
theorem Inv.current (h : Inv s gone W) (hc : c < s.sched.cpuCount)
    (hidle : s.current c ≠ (s.sched.cpu c).idleThread) :
    (s.sched.cpuCount ≤ s.current c ∧ s.current c < s.sched.tcbCount
      ∧ s.current c ∉ gone) ∧ ¬ s.sched.Blocked (s.current c) := by
  obtain ⟨L, hrun⟩ := h.run
  obtain ⟨⟨hge, hlt, hfree⟩, -, hst⟩ := hrun.placed.current_thread hc hidle
  refine ⟨⟨hge, hlt, fun hg => ?_⟩, fun hb => ?_⟩
  · rcases (hrun.exited _).mp hg with e | ⟨-, e⟩
    · exact hfree e
    · have := hst.symm.trans e
      cases this
  · have := hst.symm.trans hb
    cases this

/-- A thread in the code of the mutex has not been freed. -/
theorem Inv.live (h : Inv s gone W) (ht : s.pc t ≠ .out) : s.sched.Thread t := by
  obtain ⟨L, hrun⟩ := h.run
  obtain ⟨hge, hlt, hg⟩ := h.alive t ht
  exact ⟨hge, hlt, fun hf => hg ((hrun.exited t).mpr (Or.inl hf))⟩

/-- Program points at which a thread is nobody's business. -/
def Pc.Plain (pc : Pc) : Prop := pc ≠ .parked ∧ ∀ n, pc ≠ .waking n

theorem Inv.setPc (h : Inv s gone W) {pc : Pc} (hold : Pc.Plain (s.pc t))
    (hnew : Pc.Plain pc) (halive : pc ≠ .out →
      s.sched.cpuCount ≤ t ∧ t < s.sched.tcbCount ∧ t ∉ gone) :
    Inv (s.setPc t pc) gone W := by
  have hparked : ∀ u, (s.setPc t pc).pc u = .parked ↔ s.pc u = .parked := by
    intro u
    show update s.pc t pc u = _ ↔ _
    by_cases hu : u = t
    · rw [hu, update_self]
      exact ⟨fun e => (hnew.1 e).elim, fun e => (hold.1 e).elim⟩
    · rw [update_of_ne hu]
  have hwaking : ∀ u n, (s.setPc t pc).pc u = .waking n ↔ s.pc u = .waking n := by
    intro u n
    show update s.pc t pc u = _ ↔ _
    by_cases hu : u = t
    · rw [hu, update_self]
      exact ⟨fun e => (hnew.2 n e).elim, fun e => (hold.2 n e).elim⟩
    · rw [update_of_ne hu]
  refine ⟨h.run, h.guard, h.rep, h.data, ?_, ?_, h.blocked, h.free, h.holder, ?_, ?_,
    ?_, ?_, h.order⟩
  · intro u hu
    change update s.pc t pc u ≠ .out at hu
    by_cases hut : u = t
    · rw [hut, update_self] at hu
      rw [hut]
      exact halive hu
    · rw [update_of_ne hut] at hu
      exact h.alive u hu
  · intro u
    rw [hparked]
    exact h.waiting u
  · intro u hu
    rw [hparked]
    exact h.owned u hu
  · intro u n hu
    rw [hparked]
    exact h.waking u n ((hwaking u n).mp hu)
  · intro u u' n n' hu hu'
    exact h.unique u u' n n' ((hwaking u n).mp hu) ((hwaking u' n').mp hu')
  · intro u hu hp hb
    obtain ⟨v, hv⟩ := h.pending u hu ((hparked u).mp hp) hb
    exact ⟨v, (hwaking v u).mpr hv⟩

-- ==== the steps

/-- With a free mutex nobody is parked and nobody is being woken. -/
theorem Inv.nobody (h : Inv s gone W) (ho : s.owner = none) :
    (∀ t, s.pc t ≠ .parked) ∧ ∀ u t, s.pc u ≠ .waking t := by
  refine ⟨fun t ht => ?_, fun u t hu => ?_⟩
  · have : t ∈ W := (h.waiting t).mpr ⟨ht, by rw [ho]; simp⟩
    rw [h.free ho] at this
    cases this
  · have := (h.waking u t hu).1
    rw [ho] at this
    cases this

/-- An uncontended acquire. -/
theorem Inv.acquired (h : Inv s gone W) (ho : s.owner = none) (t : Nat) :
    Inv (s.acquired t) gone W := by
  obtain ⟨hpark, hwake⟩ := h.nobody ho
  have hpc : ∀ u, (s.acquired t).pc u = if u = t then .out else s.pc u := by
    intro u
    show update s.pc t .out u = _
    by_cases hu : u = t
    · rw [hu, update_self, if_pos rfl]
    · rw [update_of_ne hu, if_neg hu]
  have hpark' : ∀ u, (s.acquired t).pc u ≠ .parked := by
    intro u
    rw [hpc]
    split
    · simp
    · exact hpark u
  have hwake' : ∀ u n, (s.acquired t).pc u ≠ .waking n := by
    intro u n
    rw [hpc]
    split
    · simp
    · exact hwake u n
  have hW := h.free ho
  subst hW
  refine ⟨h.run, h.guard, h.rep, h.data, ?_, ?_, h.blocked, fun _ => rfl, ?_, ?_,
    fun u n hu => (hwake' u n hu).elim, fun u u' n n' hu => (hwake' u n hu).elim,
    fun u _ hp => (hpark' u hp).elim, h.order⟩
  · intro u hu
    rw [hpc] at hu
    split at hu
    · exact (hu rfl).elim
    · exact h.alive u hu
  · intro u
    exact ⟨fun hu => (by cases hu), fun hu => (hpark' u hu.1).elim⟩
  · intro u hu
    change update s.holds t true u = true at hu
    by_cases hut : u = t
    · rw [hut]
      rfl
    · rw [update_of_ne hut] at hu
      have := h.holder u hu
      rw [ho] at this
      cases this
  · intro u hu
    cases hu
    exact Or.inl (update_self _ _ _)

/-- The waiter that is queued: it was not on the queue. -/
theorem Inv.enqueue (h : Inv s gone W) (hpc : s.pc t ≠ .parked) :
    s.enqueue t = some { s with
      waitNodes := (s.waitNodes.pushBack s.waiters t t).1
      waiters := (s.waitNodes.pushBack s.waiters t t).2
      enqueued := s.enqueued ++ [t] } := by
  have hnot : t ∉ W := fun hw => hpc ((h.waiting t).mp hw).1
  have hlen : W.length ≤ s.sched.tcbCount := by
    refine length_le_of_lt h.rep.list.nodup fun u hu => ?_
    have hpu := ((h.waiting u).mp hu).1
    exact (h.alive u (by rw [hpu]; simp)).2.1
  unfold MutexSys.enqueue
  rw [h.rep.findFrom h.data hlen, if_neg hnot]

/-- A thread that waits is queued, blocked, and behind
`thread_block_current`. -/
theorem Inv.park (h : Inv s gone W) (hpc : s.pc t = .locking) {o : Nat}
    (ho : s.owner = some o) (hne : o ≠ t)
    (halive : s.sched.cpuCount ≤ t ∧ t < s.sched.tcbCount ∧ t ∉ gone) {sched' : Sched}
    (hrun : ∃ L, Sched.RunInv sched' gone L) (hcpus : sched'.cpuCount = s.sched.cpuCount)
    (hcount : s.sched.tcbCount ≤ sched'.tcbCount) (hself : sched'.Blocked t)
    (hothers : ∀ u, s.pc u = .parked → (sched'.Blocked u ↔ s.sched.Blocked u)) :
    Inv ({ s with
      waitNodes := (s.waitNodes.pushBack s.waiters t t).1
      waiters := (s.waitNodes.pushBack s.waiters t t).2
      enqueued := s.enqueued ++ [t]
      sched := sched' }.setPc t .parked) gone (W ++ [t]) := by
  have hparked : s.pc t ≠ .parked := by rw [hpc]; simp
  have hnot : t ∉ W := fun hw => hparked ((h.waiting _).mp hw).1
  have hpc' : ∀ u, u ≠ t → (update s.pc t .parked) u = s.pc u :=
    fun u hu => update_of_ne hu _ _
  refine ⟨hrun, h.guard, h.rep.pushBack hnot, ?_, ?_, ?_, ?_, ?_, h.holder, ?_,
    ?_, ?_, ?_, ?_⟩
  · intro u hu
    show update s.waitNodes.data t (some t) u = some u
    by_cases hut : u = t
    · rw [hut, update_self]
    · rw [update_of_ne hut]
      exact h.data u ((List.mem_append.mp hu).resolve_right (by simpa using hut))
  · intro u hu
    show sched'.cpuCount ≤ u ∧ u < sched'.tcbCount ∧ u ∉ gone
    rw [hcpus]
    by_cases hut : u = t
    · rw [hut]
      exact ⟨halive.1, Nat.lt_of_lt_of_le halive.2.1 hcount, halive.2.2⟩
    · obtain ⟨h1, h2, h3⟩ := h.alive u (by rw [← hpc' u hut]; exact hu)
      exact ⟨h1, Nat.lt_of_lt_of_le h2 hcount, h3⟩
  · intro u
    show u ∈ W ++ [t] ↔ update s.pc t .parked u = .parked ∧ s.owner ≠ some u
    rw [List.mem_append, List.mem_singleton]
    by_cases hut : u = t
    · rw [hut, update_self]
      refine ⟨fun _ => ⟨rfl, ?_⟩, fun _ => Or.inr rfl⟩
      rw [ho]
      exact fun e => hne (Option.some.inj e)
    · rw [hpc' u hut]
      exact ⟨fun hu => (h.waiting u).mp (hu.resolve_right hut),
        fun hu => Or.inl ((h.waiting u).mpr hu)⟩
  · intro u hu
    rcases List.mem_append.mp hu with hu | hu
    · exact (hothers u ((h.waiting u).mp hu).1).mpr (h.blocked u hu)
    · rw [List.mem_singleton.mp hu]
      exact hself
  · intro hnone
    rw [show s.owner = none from hnone] at ho
    cases ho
  · intro u hu
    refine (h.owned u hu).imp_right fun hp => ?_
    show update s.pc t .parked u = .parked
    by_cases hut : u = t
    · rw [hut, update_self]
    · rw [hpc' u hut]
      exact hp
  · intro u n hu
    change update s.pc t .parked u = .waking n at hu
    have hut : u ≠ t := by
      rintro rfl
      rw [update_self] at hu
      cases hu
    rw [hpc' u hut] at hu
    obtain ⟨h1, h2, h3⟩ := h.waking u n hu
    have hnt : n ≠ t := by
      rintro rfl
      exact hparked h2
    refine ⟨h1, ?_, (hothers n h2).mpr h3⟩
    show update s.pc t .parked n = .parked
    rw [hpc' n hnt]
    exact h2
  · intro u u' n n' hu hu'
    have hback : ∀ v m, update s.pc t .parked v = .waking m → s.pc v = .waking m := by
      intro v m hv
      by_cases hvt : v = t
      · rw [hvt, update_self] at hv
        cases hv
      · rwa [hpc' v hvt] at hv
    exact h.unique u u' n n' (hback u n hu) (hback u' n' hu')
  · intro u hu hp hb
    have hut : u ≠ t := by
      rintro rfl
      rw [show s.owner = some u from hu] at ho
      exact hne (Option.some.inj ho).symm
    change update s.pc t .parked u = .parked at hp
    rw [hpc' u hut] at hp
    obtain ⟨v, hv⟩ := h.pending u hu hp ((hothers u hp).mp hb)
    have hvt : v ≠ t := by
      rintro rfl
      rw [hpc] at hv
      cases hv
    exact ⟨v, (hpc' v hvt).trans hv⟩
  · show s.enqueued ++ [t] = s.granted ++ (W ++ [t])
    rw [h.order, List.append_assoc]

/-- A contended `mutex_lock`: the thread queues itself and blocks. -/
theorem Inv.block (h : Inv s gone W) (hc : c < s.sched.cpuCount)
    (hidle : s.current c ≠ (s.sched.cpu c).idleThread) (hsp : sp ≠ 0)
    (hpc : s.pc (s.current c) = .locking) {o : Nat} (ho : s.owner = some o)
    (hne : o ≠ s.current c) (hlock : s.mutexLock c (s.current c) sp = some s') :
    Inv s' gone (W ++ [s.current c]) := by
  obtain ⟨L, hrun⟩ := h.run
  obtain ⟨halive, -⟩ := h.current hc hidle
  have hparked : s.pc (s.current c) ≠ .parked := by rw [hpc]; simp
  unfold mutexLock at hlock
  split at hlock
  · rename_i hnone
    rw [hnone] at ho
    cases ho
  rename_i o' ho'
  obtain rfl : o' = o := Option.some.inj (ho'.symm.trans ho)
  rw [if_neg hne, h.enqueue hparked] at hlock
  simp only [if_neg hidle] at hlock
  split at hlock
  · cases hlock
  rename_i sched' hblock
  obtain ⟨hkept, hself, hcount⟩ := Sched.threadBlockCurrent_spec hidle hblock
  obtain ⟨s'', L', hcall, hcpus, hrun'⟩ := hrun.call
    (show s.sched.Valid (.blockCurrent c sp) from ⟨hc, hsp⟩) rfl id
  have hsame : s'' = sched' := Option.some.inj (hcall.symm.trans hblock)
  subst hsame
  obtain rfl := (Option.some.inj hlock).symm
  -- the other threads are as blocked as they were
  refine h.park hpc ho hne halive ⟨L', hrun'⟩ hcpus hcount hself fun u hu => ?_
  have hut : u ≠ s.current c := fun e => hparked (by rw [← e]; exact hu)
  refine (hkept u (fun e => ?_) hut).blocked
  have hge := (h.alive u (by rw [hu]; simp)).1
  rw [hrun.placed.idle c hc] at e
  omega

/-- A thread that comes back from `thread_block_current` is the owner, and
its wakeup is over. -/
theorem Inv.handed (h : Inv s gone W) (hp : s.pc t = .parked)
    (hb : ¬ s.sched.Blocked t) :
    s.owner = some t ∧ ∀ u n, s.pc u ≠ .waking n := by
  have ho : s.owner = some t := by
    by_contra hne
    exact hb (h.blocked t ((h.waiting t).mpr ⟨hp, hne⟩))
  refine ⟨ho, fun u n hu => ?_⟩
  obtain ⟨hon, -, hbn⟩ := h.waking u n hu
  rw [ho] at hon
  cases hon
  exact hb hbn

/-- A waiter that is woken has been handed the mutex. -/
theorem Inv.recheck (h : Inv s gone W) (hp : s.pc t = .parked)
    (hb : ¬ s.sched.Blocked t) : Inv (s.mutexRecheck t) gone W := by
  obtain ⟨ho, hwake⟩ := h.handed hp hb
  unfold mutexRecheck
  rw [if_pos ho]
  have hpc : ∀ u, update s.pc t .out u = .parked ↔ u ≠ t ∧ s.pc u = .parked := by
    intro u
    by_cases hu : u = t
    · rw [hu, update_self]
      simp
    · rw [update_of_ne hu]
      simp [hu]
  have hwake' : ∀ u n, update s.pc t .out u ≠ .waking n := by
    intro u n
    by_cases hu : u = t
    · rw [hu, update_self]
      simp
    · rw [update_of_ne hu]
      exact hwake u n
  refine ⟨h.run, h.guard, h.rep, h.data, ?_, ?_, h.blocked, h.free, ?_, ?_,
    fun u n hu => (hwake' u n hu).elim, fun u u' n n' hu => (hwake' u n hu).elim, ?_,
    h.order⟩
  · intro u hu
    change update s.pc t .out u ≠ .out at hu
    by_cases hut : u = t
    · rw [hut, update_self] at hu
      exact (hu rfl).elim
    · rw [update_of_ne hut] at hu
      exact h.alive u hu
  · intro u
    rw [h.waiting u]
    show _ ↔ update s.pc t .out u = .parked ∧ s.owner ≠ some u
    rw [hpc]
    constructor
    · rintro ⟨h1, h2⟩
      exact ⟨⟨fun e => h2 (by rw [e]; exact ho), h1⟩, h2⟩
    · rintro ⟨⟨-, h1⟩, h2⟩
      exact ⟨h1, h2⟩
  · intro u hu
    change update s.holds t true u = true at hu
    by_cases hut : u = t
    · rw [hut]
      exact ho
    · rw [update_of_ne hut] at hu
      exact h.holder u hu
  · intro u hu
    have hut : u = t := Option.some.inj (hu.symm.trans ho)
    rw [hut]
    exact Or.inl (update_self _ _ _)
  · intro u hu hpu _
    have hut : u = t := Option.some.inj (hu.symm.trans ho)
    change update s.pc t .out u = .parked at hpu
    exact (((hpc u).mp hpu).1 hut).elim

/-- While the owner is out of `mutex_lock`, nobody is being woken. -/
theorem Inv.no_waking (h : Inv s gone W) (ho : s.owner = some t)
    (hp : s.pc t ≠ .parked) (u n : Nat) : s.pc u ≠ .waking n := by
  intro hu
  obtain ⟨hon, hpn, -⟩ := h.waking u n hu
  rw [ho] at hon
  cases hon
  exact hp hpn

/-- Once the owner lets go, nobody holds the mutex. -/
theorem Inv.not_held (h : Inv s gone W) (ho : s.owner = some t) (u : Nat) :
    update s.holds t false u ≠ true := by
  intro hu
  by_cases hut : u = t
  · rw [hut, update_self] at hu
    cases hu
  · rw [update_of_ne hut] at hu
    have := h.holder u hu
    rw [ho] at this
    exact hut (Option.some.inj this).symm

/-- `mutex_unlock` with nobody waiting. -/
theorem Inv.release (h : Inv s gone []) (ho : s.owner = some t)
    (hp : s.pc t = .out) :
    Inv { s.setHolds t false with owner := none } gone [] := by
  have hpark : ∀ u, s.pc u ≠ .parked := by
    intro u hu
    by_cases hou : s.owner = some u
    · rw [ho] at hou
      cases hou
      rw [hp] at hu
      cases hu
    · have := (h.waiting u).mpr ⟨hu, hou⟩
      cases this
  have hwake := h.no_waking ho (hpark t)
  refine ⟨h.run, h.guard, h.rep, h.data, h.alive, ?_, h.blocked, fun _ => rfl, ?_, ?_,
    fun u n hu => (hwake u n hu).elim, h.unique, fun u hu => (by cases hu), h.order⟩
  · intro u
    exact ⟨fun hu => (by cases hu), fun hu => (hpark u hu.1).elim⟩
  · exact fun u hu => (h.not_held ho u hu).elim
  · intro u hu
    cases hu

/-- `mutex_unlock` hands the mutex to the first waiter. -/
theorem Inv.handOver (h : Inv s gone W) (ho : s.owner = some t)
    (hp : s.pc t = .out) (ht : s.sched.cpuCount ≤ t ∧ t < s.sched.tcbCount ∧ t ∉ gone)
    {next : Nat} {W' : List Nat} (hW : W = next :: W') {nodes : RqNodes Nat Nat}
    {q : Rq Nat} (hdata : nodes.data = s.waitNodes.data) (hrep : Rep nodes q W') :
    Inv ({ s.setHolds t false with
      waitNodes := nodes, waiters := q, owner := some next
      granted := s.granted ++ [next] }.setPc t (.waking next)) gone W' := by
  subst hW
  have hnext := (h.waiting next).mp List.mem_cons_self
  have hnt : next ≠ t := by
    rintro rfl
    exact hnext.2 ho
  have hwake := h.no_waking ho (by rw [hp]; simp)
  have hnd := List.nodup_cons.mp h.rep.list.nodup
  have hpc : ∀ u, u ≠ t → update s.pc t (.waking next) u = s.pc u :=
    fun u hu => update_of_ne hu _ _
  have hparked : ∀ u, update s.pc t (.waking next) u = .parked ↔ s.pc u = .parked := by
    intro u
    by_cases hu : u = t
    · rw [hu, update_self, hp]
      simp
    · rw [hpc u hu]
  have hwaker : ∀ u n, update s.pc t (.waking next) u = .waking n →
      u = t ∧ n = next := by
    intro u n hu
    by_cases hut : u = t
    · rw [hut, update_self] at hu
      cases hu
      exact ⟨hut, rfl⟩
    · rw [hpc u hut] at hu
      exact (hwake u n hu).elim
  refine ⟨h.run, h.guard, hrep, ?_, ?_, ?_, ?_, fun hn => (by cases hn), ?_, ?_, ?_, ?_,
    ?_, ?_⟩
  · intro u hu
    show nodes.data u = some u
    rw [hdata]
    exact h.data u (List.mem_cons_of_mem _ hu)
  · intro u hu
    by_cases hut : u = t
    · rw [hut]
      exact ht
    · exact h.alive u (by rw [← hpc u hut]; exact hu)
  · intro u
    show u ∈ W' ↔ update s.pc t (.waking next) u = .parked ∧ some next ≠ some u
    rw [hparked]
    constructor
    · intro hu
      refine ⟨((h.waiting u).mp (List.mem_cons_of_mem _ hu)).1, fun e => ?_⟩
      cases e
      exact hnd.1 hu
    · rintro ⟨h1, h2⟩
      have hou : s.owner ≠ some u := by
        intro e
        rw [ho] at e
        cases e
        rw [hp] at h1
        cases h1
      have := (h.waiting u).mpr ⟨h1, hou⟩
      exact (List.mem_cons.mp this).resolve_left fun e => h2 (by rw [e])
  · intro u hu
    exact h.blocked u (List.mem_cons_of_mem _ hu)
  · exact fun u hu => (h.not_held ho u hu).elim
  · intro u hu
    cases hu
    exact Or.inr ((hparked next).mpr hnext.1)
  · intro u n hu
    obtain ⟨-, rfl⟩ := hwaker u n hu
    exact ⟨rfl, (hparked n).mpr hnext.1, h.blocked n List.mem_cons_self⟩
  · intro u u' n n' hu hu'
    rw [(hwaker u n hu).1, (hwaker u' n' hu').1]
  · intro u hu _ _
    cases hu
    exact ⟨t, update_self _ _ _⟩
  · show s.enqueued = s.granted ++ [next] ++ W'
    rw [h.order, List.append_assoc]
    rfl

theorem Inv.unlock (h : Inv s gone W) (hp : s.pc t = .out)
    (ht : s.sched.cpuCount ≤ t ∧ t < s.sched.tcbCount ∧ t ∉ gone) :
    ∃ W', Inv (s.mutexUnlock t) gone W' := by
  unfold mutexUnlock
  split
  · refine ⟨W, h.setPc ?_ ?_ fun _ => ht⟩
    · rw [hp]
      exact ⟨by simp, by simp⟩
    · exact ⟨by simp, by simp⟩
  · rename_i ho
    rw [not_not] at ho
    cases W with
    | nil =>
        refine ⟨[], ?_⟩
        have hpop : (s.setHolds t false).waitNodes.popFront (s.setHolds t false).waiters
            = none := h.rep.popFront_nil
        simp only [hpop]
        exact h.release ho hp
    | cons next W' =>
        obtain ⟨nodes, q, hpop, hdata, -, hrep⟩ := h.rep.popFront_cons
        rw [h.data next List.mem_cons_self] at hpop
        refine ⟨W', ?_⟩
        have hpop' : (s.setHolds t false).waitNodes.popFront
            (s.setHolds t false).waiters = some (nodes, q, some next) := hpop
        simp only [hpop']
        exact h.handOver ho hp ht rfl hdata hrep

-- ==== the scheduler

/-- The scheduler moves, and no parked thread is blocked or unblocked. -/
theorem Inv.schedule (h : Inv s gone W) {sched' : Sched} {gone' : List Nat}
    (hrun : ∃ L, Sched.RunInv sched' gone' L)
    (hcpus : sched'.cpuCount = s.sched.cpuCount)
    (halive : ∀ u, s.pc u ≠ .out → s.sched.tcbCount ≤ sched'.tcbCount ∧ u ∉ gone')
    (hparked : ∀ u, s.pc u = .parked → (sched'.Blocked u ↔ s.sched.Blocked u)) :
    Inv { s with sched := sched' } gone' W := by
  refine ⟨hrun, h.guard, h.rep, h.data, ?_, h.waiting, ?_, h.free, h.holder, h.owned,
    ?_, h.unique, ?_, h.order⟩
  · intro u hu
    obtain ⟨h1, h2, -⟩ := h.alive u hu
    obtain ⟨hcount, hgone⟩ := halive u hu
    show sched'.cpuCount ≤ u ∧ u < sched'.tcbCount ∧ u ∉ gone'
    rw [hcpus]
    exact ⟨h1, Nat.lt_of_lt_of_le h2 hcount, hgone⟩
  · intro u hu
    exact (hparked u ((h.waiting u).mp hu).1).mpr (h.blocked u hu)
  · intro u n hu
    obtain ⟨h1, h2, h3⟩ := h.waking u n hu
    exact ⟨h1, h2, (hparked n h2).mpr h3⟩
  · intro u hu hp hb
    exact h.pending u hu hp ((hparked u hp).mp hb)

/-- The wakeup that was pending is delivered. -/
theorem Inv.wake (h : Inv s gone W) {n : Nat} (hpc : s.pc t = .waking n)
    {sched' : Sched} (hwake : s.sched.threadWake n = some sched') :
    Inv ({ s with sched := sched' }.setPc t .out) gone W := by
  obtain ⟨L, hrun⟩ := h.run
  obtain ⟨ho, hpn, hbn⟩ := h.waking t n hpc
  have hnt : n ≠ t := by
    rintro rfl
    rw [hpc] at hpn
    cases hpn
  have hthread : s.sched.Thread n := h.live (by rw [hpn]; simp)
  obtain ⟨s'', L', hcall, hcpus, hrun'⟩ := hrun.call
    (show s.sched.Valid (.wake n) from ⟨hthread.2.1, hthread.2.2⟩) rfl id
  have hsame : s'' = sched' := Option.some.inj (hcall.symm.trans hwake)
  subst hsame
  obtain ⟨hkept, hcount, hawake⟩ := Sched.threadWake_spec hwake
  have hnot : ¬ s''.Blocked n := by
    have hhome := hrun.placed.home n hthread
    refine hawake hhome fun e => ?_
    rw [hrun.placed.idle _ hhome] at e
    have := hthread.1
    omega
  have hpc' : ∀ u, u ≠ t → update s.pc t .out u = s.pc u :=
    fun u hu => update_of_ne hu _ _
  have hparked : ∀ u, update s.pc t .out u = .parked ↔ s.pc u = .parked := by
    intro u
    by_cases hu : u = t
    · rw [hu, update_self, hpc]
      simp
    · rw [hpc' u hu]
  -- only one thread was waking another
  have hno : ∀ u m, update s.pc t .out u ≠ .waking m := by
    intro u m hu
    by_cases hut : u = t
    · rw [hut, update_self] at hu
      cases hu
    · rw [hpc' u hut] at hu
      exact hut (h.unique u t m n hu hpc)
  refine ⟨⟨L', hrun'⟩, h.guard, h.rep, h.data, ?_, ?_, ?_, h.free, h.holder, ?_,
    fun u m hu => (hno u m hu).elim, fun u u' m m' hu => (hno u m hu).elim, ?_, h.order⟩
  · intro u hu
    have hut : u ≠ t := by
      rintro rfl
      exact hu (update_self _ _ _)
    obtain ⟨h1, h2, h3⟩ := h.alive u (by rw [← hpc' u hut]; exact hu)
    show s''.cpuCount ≤ u ∧ u < s''.tcbCount ∧ u ∉ gone
    rw [hcpus]
    exact ⟨h1, Nat.lt_of_lt_of_le h2 hcount, h3⟩
  · intro u
    rw [h.waiting u]
    show _ ↔ update s.pc t .out u = .parked ∧ s.owner ≠ some u
    rw [hparked]
  · intro u hu
    have hun : u ≠ n := by
      rintro rfl
      exact ((h.waiting u).mp hu).2 ho
    exact (hkept u hun).blocked.mpr (h.blocked u hu)
  · intro u hu
    exact (h.owned u hu).imp_right (hparked u).mpr
  · intro u hu _ hb
    have hun : u = n := Option.some.inj (hu.symm.trans ho)
    rw [hun] at hb
    exact (hnot hb).elim

/-- The scheduler's own steps. -/
theorem Inv.sched (h : Inv s gone W) {k : Sched.Call} (hcalm : s.Calm (.sched k))
    {sched' : Sched} (hcall : s.sched.call k = some sched') :
    Inv { s with sched := sched' } (s.sched.exiting k ++ gone) W := by
  obtain ⟨hv, hk, hcalm⟩ := hcalm
  obtain ⟨L, hrun⟩ := h.run
  have hpanic : ¬ s.sched.Panics k := by
    intro e
    rw [Sched.call_panics e] at hcall
    cases hcall
  obtain ⟨s'', L', hcall', hcpus, hrun'⟩ := hrun.call hv hk hpanic
  have hsame : s'' = sched' := Option.some.inj (hcall'.symm.trans hcall)
  subst hsame
  have hblock : ∀ u, s.pc u ≠ .out → ∀ c sp, k = .blockCurrent c sp →
      (s.sched.cpu c).currentThread ≠ u := by
    rintro u hu c sp rfl rfl
    exact hu hcalm
  refine h.schedule ⟨L', hrun'⟩ hcpus (fun u hu => ⟨?_, fun hin => ?_⟩) fun u hu => ?_
  · by_cases hwake : k = .wake u
    · subst hwake
      exact (Sched.threadWake_spec hcall).2.1
    · exact (hrun.call_kept hv hk hcall (h.live hu) hwake (hblock u hu)).count
  · rcases List.mem_append.mp hin with hin | hin
    · -- the thread that exits is out of the mutex
      cases k with
      | exit c sp =>
          rw [List.mem_singleton.mp hin] at hu
          exact hu hcalm
      | _ => cases hin
    · exact (h.alive u hu).2.2 hin
  · have hout : s.pc u ≠ .out := by rw [hu]; simp
    refine (hrun.call_kept hv hk hcall (h.live hout) ?_ (hblock u hout)).blocked
    rintro rfl
    exact hcalm hu

-- ==== the runs

theorem Inv.lockGuard (h : Inv s gone W) (hc : c < s.sched.cpuCount)
    (hidle : s.current c ≠ (s.sched.cpu c).idleThread) (hsp : sp ≠ 0)
    (hpc : s.pc (s.current c) = .locking)
    (hlock : s.mutexLock c (s.current c) sp = some s') : ∃ W', Inv s' gone W' := by
  cases ho : s.owner with
  | none =>
      unfold mutexLock at hlock
      split at hlock
      · cases hlock
        exact ⟨W, h.acquired ho _⟩
      · rename_i o' ho'
        rw [ho] at ho'
        cases ho'
  | some o =>
      by_cases hself : o = s.current c
      · unfold mutexLock at hlock
        split at hlock
        · rename_i hnone
          rw [hnone] at ho
          cases ho
        rename_i o' ho'
        obtain rfl : o' = o := Option.some.inj (ho'.symm.trans ho)
        rw [if_pos hself] at hlock
        cases hlock
        refine ⟨W, h.setPc ?_ ?_ fun _ => (h.current hc hidle).1⟩
        · rw [hpc]
          exact ⟨by simp, by simp⟩
        · exact ⟨by simp, by simp⟩
      · exact ⟨_, h.block hc hidle hsp hpc ho hself hlock⟩

/-- Every step of every thread and of the scheduler keeps the invariant. -/
theorem Inv.step (h : Inv s gone W) {a : Act} (hcalm : s.Calm a)
    (hstep : s.step a = some s') : ∃ gone' W', Inv s' gone' W' := by
  cases a with
  | lock c =>
      obtain ⟨hc, hidle⟩ := hcalm
      simp only [MutexSys.step] at hstep
      split at hstep
      · rename_i hpc
        cases hstep
        refine ⟨gone, W, h.setPc ?_ ?_ fun _ => (h.current hc hidle).1⟩
        · rw [hpc]
          exact ⟨by simp, by simp⟩
        · exact ⟨by simp, by simp⟩
      · cases hstep
  | lockGuard c sp =>
      obtain ⟨hc, hidle, hsp⟩ := hcalm
      simp only [MutexSys.step] at hstep
      split at hstep
      · rename_i hpc
        exact ⟨gone, h.lockGuard hc hidle hsp hpc.1 hstep⟩
      · cases hstep
  | recheck c =>
      obtain ⟨hc, hidle⟩ := hcalm
      simp only [MutexSys.step] at hstep
      split at hstep
      · rename_i hpc
        cases hstep
        exact ⟨gone, W, h.recheck hpc (h.current hc hidle).2⟩
      · cases hstep
  | tryLock c =>
      simp only [MutexSys.step] at hstep
      split at hstep
      · cases hstep
        unfold mutexTryLock
        split
        · rename_i ho
          exact ⟨gone, W, h.acquired ho _⟩
        · exact ⟨gone, W, h⟩
      · cases hstep
  | unlock c =>
      obtain ⟨hc, hidle⟩ := hcalm
      simp only [MutexSys.step] at hstep
      split at hstep
      · rename_i hpc
        cases hstep
        exact ⟨gone, h.unlock hpc.1 (h.current hc hidle).1⟩
      · cases hstep
  | wake c =>
      simp only [MutexSys.step] at hstep
      split at hstep
      · rename_i n hpc
        split at hstep
        · cases hstep
        · rename_i sched' hwake
          cases hstep
          exact ⟨gone, W, h.wake hpc hwake⟩
      · cases hstep
  | sched k =>
      simp only [MutexSys.step] at hstep
      split at hstep
      · cases hstep
      · rename_i sched' hcall
        cases hstep
        exact ⟨_, W, h.sched hcalm hcall⟩

theorem Reachable.inv {n : Nat} (h : Reachable n s) : ∃ gone W, Inv s gone W := by
  induction h with
  | init => exact ⟨[], [], inv_init n⟩
  | step _ hcalm hstep ih =>
      obtain ⟨gone, W, hinv⟩ := ih
      exact hinv.step hcalm hstep

/-- In every run the mutex excludes, hands over in the order of arrival and
loses no wakeup. -/
theorem reachable_ok {n : Nat} (h : Reachable n s) : Ok s := by
  obtain ⟨gone, W, hinv⟩ := h.inv
  refine ⟨hinv.holder, hinv.owned, ⟨W, hinv.rep, hinv.rep.list.nodup, hinv.waiting,
    hinv.blocked, hinv.free, hinv.order⟩, ?_, hinv.pending⟩
  intro c hc hp
  have hge := (hinv.alive _ (by rw [hp]; simp)).1
  have hidle : s.current c ≠ (s.sched.cpu c).idleThread := by
    obtain ⟨L, hrun⟩ := hinv.run
    rw [hrun.placed.idle c hc]
    omega
  exact (hinv.handed hp (hinv.current hc hidle).2).1

/-- One CPU and two threads. Thread 1 takes the mutex and yields; thread 2
queues itself and blocks; thread 1 unlocks and has yet to wake thread 2. -/
theorem reachable_ok_pending : ∃ s, Ok s ∧ s.owner = some 2 ∧ s.pc 2 = .parked
    ∧ (s.sched.tcb 2).status = .blocked ∧ s.pc 1 = .waking 2 := by
  have hplay : (play (mutexInit (Sched.schedInit 1)) [.sched (.spawnProc .kernel),
      .sched (.spawnThread 0 1 true 8), .sched (.spawnThread 0 1 true 8),
      .sched (.tick 0 8), .tryLock 0, .sched (.yield 0 8), .lock 0, .lockGuard 0 8,
      .unlock 0]).map (fun s => (s.owner, s.pc 2, (s.sched.tcb 2).status, s.pc 1))
      = some (some 2, .parked, .blocked, .waking 2) := by
    decide +kernel
  obtain ⟨s, hrun, heq⟩ := Option.map_eq_some_iff.mp hplay
  obtain ⟨ho, hrest⟩ := Prod.mk.inj heq
  obtain ⟨hp, hrest⟩ := Prod.mk.inj hrest
  obtain ⟨hb, hw⟩ := Prod.mk.inj hrest
  exact ⟨s, reachable_ok (reachable_play .init hrun), ho, hp, hb, hw⟩

end MutexSys

end Alix
