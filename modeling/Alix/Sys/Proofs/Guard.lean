/-
The guard is dropped once.

# What can go wrong

`thread_block_current` returns at once for the idle thread of a CPU, and
does not call `release`. The boot thread is that thread. When it finds the
mutex owned by somebody else it is queued, comes back with the guard still
taken, is not the owner, and spins on the guard for ever; so does
everybody else.

# What holds

As long as no idle thread comes to that point, the guard is held exactly by
the thread that is inside a section (`Held`), a thread that spins has not
got it, and each `thread_block_current` has called back once.
-/
import Alix.Sys.Guard
import Alix.Sys.Proofs.Recursion

namespace Alix

namespace GuardSys

open Function (update update_self update_of_ne)

variable {s s' : GuardSys} {c t sp : Nat} {a : Act}

-- ==== the statement

/-- Nobody waits for a guard that is its own, and whoever has come to the
end of `thread_block_current` has had the callback run once. -/
def Guarded (s : GuardSys) : Prop :=
  (∀ t k, s.place t = .spin k → s.m.guard ≠ some t)
    ∧ ∀ t, s.m.pc t = .parked → s.ran t = 1

/-- In the section of `mutex_lock`, an idle thread does not find the mutex
owned by another thread. -/
def Attended (s : GuardSys) : Act → Prop
  | .body c _ => s.place (s.current c) = .inside .lock →
      s.current c = (s.m.sched.cpu c).idleThread →
      s.m.owner = none ∨ s.m.owner = some (s.current c)
  | .lock _ | .enter .. | .spin _ | .recheck _ | .wake _ | .sched _ => True

/-- The runs on `n` CPUs that take only steps that `may` allows. -/
inductive Run (may : GuardSys → Act → Prop) (n : Nat) : GuardSys → Prop
  | init : Run may n (init n)
  | step {s s' : GuardSys} {a : Act} : Run may n s → may s a → s.step a = some s' →
      Run may n s'

-- ==== the invariant

/-- The guard is held by the thread that is inside. -/
structure Held (s : GuardSys) : Prop where
  guarded : ∀ t, s.m.guard = some t → ∃ k, s.place t = .inside k
  inside : ∀ t k, s.place t = .inside k → s.m.guard = some t
  start : ∀ t k, s.place t = .spin k ∨ s.place t = .inside k → s.m.pc t = k.start
  called : ∀ t, s.m.pc t = .parked → s.ran t = 1

theorem Held.safe (h : Held s) : Guarded s := by
  refine ⟨fun t k hp hg => ?_, h.called⟩
  obtain ⟨k', hk⟩ := h.guarded t hg
  rw [hp] at hk
  cases hk

theorem setPlace_place (s : GuardSys) (t : Nat) (p : Place) (u : Nat) :
    (s.setPlace t p).place u = if u = t then p else s.place u := by
  show update s.place t p u = _
  by_cases h : u = t
  · rw [if_pos h, h, update_self]
  · rw [if_neg h, update_of_ne h]

/-- A step of a thread that is away from the guard, which stays as it is. -/
theorem Held.pass (h : Held s) {m : MutexSys} (hp : s.place t = .away)
    (hguard : m.guard = s.m.guard) (hpc : ∀ u, u ≠ t → m.pc u = s.m.pc u)
    (hpark : m.pc t = .parked → s.m.pc t = .parked) : Held { s with m } := by
  refine ⟨fun u hu => h.guarded u (hguard.symm.trans hu),
    fun u k hu => hguard.trans (h.inside u k hu), fun u k hu => ?_, fun u hu => ?_⟩
  · have hut : u ≠ t := by
      intro e
      subst e
      rcases hu with hu | hu <;> (rw [show s.place u = _ from hp] at hu; cases hu)
    exact (hpc u hut).trans (h.start u k hu)
  · by_cases hut : u = t
    · subst hut
      exact h.called u (hpark hu)
    · exact h.called u ((hpc u hut).symm.trans hu)

/-- A thread that was inside has left, and has dropped the guard. -/
theorem Held.settle (h : Held s) {k : Section} (hin : s.place t = .inside k)
    (hguard : s'.m.guard = none) (hplace : s'.place = update s.place t .away)
    (hpc : ∀ u, u ≠ t → s'.m.pc u = s.m.pc u) (hran : ∀ u, u ≠ t → s'.ran u = s.ran u)
    (hpark : s'.m.pc t = .parked → s'.ran t = 1) : Held s' := by
  have hmine : ∀ u k, s.place u = .inside k → u = t := fun u k hu =>
    Option.some.inj ((h.inside u k hu).symm.trans (h.inside t _ hin))
  refine ⟨fun u hu => ?_, fun u k hu => ?_, fun u k hu => ?_, fun u hu => ?_⟩
  · rw [hguard] at hu
    cases hu
  · rw [hplace] at hu
    by_cases hut : u = t
    · rw [hut, update_self] at hu
      cases hu
    · rw [update_of_ne hut] at hu
      exact (hut (hmine u k hu)).elim
  · rw [hplace] at hu
    by_cases hut : u = t
    · rw [hut, update_self] at hu
      rcases hu with hu | hu <;> cases hu
    · rw [update_of_ne hut] at hu
      exact (hpc u hut).trans (h.start u k hu)
  · by_cases hut : u = t
    · subst hut
      exact hpark hu
    · exact (hran u hut).trans (h.called u ((hpc u hut).symm.trans hu))

-- ==== what sections change

theorem mutexTryLock_pc (m : MutexSys) {t : Nat} (ht : m.pc t = .out) (u : Nat) :
    (m.mutexTryLock t).pc u = m.pc u := by
  unfold MutexSys.mutexTryLock
  split
  · show update m.pc t .out u = m.pc u
    by_cases e : u = t
    · rw [e, update_self, ht]
    · rw [update_of_ne e]
  · rfl

theorem mutexUnlock_pc (m : MutexSys) {t : Nat} (ht : m.pc t = .out) :
    (∀ u, u ≠ t → (m.mutexUnlock t).pc u = m.pc u)
      ∧ (m.mutexUnlock t).pc t ≠ .parked := by
  unfold MutexSys.mutexUnlock
  split
  · exact ⟨fun u hu => update_of_ne hu .., by
      rw [MutexSys.setPc_pc, if_pos rfl]
      simp⟩
  · simp only
    split
    · exact ⟨fun _ _ => rfl, by
        show m.pc t ≠ _
        rw [ht]
        simp⟩
    · split
      · exact ⟨fun _ _ => rfl, by
          show m.pc t ≠ _
          rw [ht]
          simp⟩
      · exact ⟨fun u hu => update_of_ne hu .., by
          rw [MutexSys.setPc_pc, if_pos rfl]
          simp⟩

/-- Queueing a thread is all that `enqueue` does. -/
theorem enqueue_same {m m' : MutexSys} (h : m.enqueue t = some m') :
    m'.sched = m.sched ∧ m'.guard = m.guard ∧ m'.owner = m.owner ∧ m'.pc = m.pc := by
  unfold MutexSys.enqueue at h
  split at h
  · cases h
  · cases h
    exact ⟨rfl, rfl, rfl, rfl⟩
  · cases h
    exact ⟨rfl, rfl, rfl, rfl⟩

/-- A step of a thread that has nothing to do with the guard. -/
theorem step_unguarded {m m' : MutexSys} {a : MutexSys.Act}
    (ha : a = .lock c ∨ a = .recheck c ∨ a = .wake c) (h : m.step a = some m') :
    m'.guard = m.guard ∧ (∀ u, u ≠ m.current c → m'.pc u = m.pc u)
      ∧ m'.pc (m.current c) ≠ .parked := by
  have hgo : ∀ (m₁ : MutexSys) (pc : Pc), pc ≠ .parked →
      (m₁.setPc (m.current c) pc).pc (m.current c) ≠ .parked := by
    intro m₁ pc hpc
    rw [MutexSys.setPc_pc, if_pos rfl]
    exact hpc
  rcases ha with rfl | rfl | rfl <;> unfold MutexSys.step at h <;> simp only at h
  · split at h
    · cases h
      exact ⟨rfl, fun u hu => update_of_ne hu .., hgo _ _ (by simp)⟩
    · cases h
  · split at h
    · cases h
      unfold MutexSys.mutexRecheck
      split
      · exact ⟨rfl, fun u hu => update_of_ne hu .., hgo _ _ (by simp)⟩
      · exact ⟨rfl, fun u hu => update_of_ne hu .., hgo _ _ (by simp)⟩
    · cases h
  · split at h
    · split at h
      · cases h
      · cases h
        exact ⟨rfl, fun u hu => update_of_ne hu .., hgo _ _ (by simp)⟩
    · cases h

/-- A step of the scheduler. -/
theorem step_sched {m m' : MutexSys} {k : Sched.Call} (h : m.step (.sched k) = some m') :
    m'.guard = m.guard ∧ m'.pc = m.pc := by
  unfold MutexSys.step at h
  simp only at h
  split at h
  · cases h
  · cases h
    exact ⟨rfl, rfl⟩

/-- What the section of `mutex_lock` can do. -/
theorem mutexLock_cases (hl : s.mutexLock c (s.current c) sp = some s') :
    (s.m.owner = none ∧ s' = s.leave (s.current c) (s.m.acquired (s.current c)))
    ∨ (s.m.owner = some (s.current c)
        ∧ s' = s.leave (s.current c) (s.m.setPc (s.current c) .panicked))
    ∨ ∃ owner m, s.m.owner = some owner ∧ owner ≠ s.current c
        ∧ s.m.enqueue (s.current c) = some m
        ∧ ((s.current c = (s.m.sched.cpu c).idleThread
            ∧ s' = ⟨m.setPc (s.current c) .parked, update s.place (s.current c) .away,
                update s.ran (s.current c) 0⟩)
          ∨ s.current c ≠ (s.m.sched.cpu c).idleThread
            ∧ ∃ sched, s.m.sched.threadBlockCurrent c sp = some sched
              ∧ s' = ⟨{ m with sched, guard := none }.setPc (s.current c) .parked,
                  update s.place (s.current c) .away, update s.ran (s.current c) 1⟩) := by
  unfold GuardSys.mutexLock at hl
  split at hl
  · rename_i ho
    cases hl
    exact Or.inl ⟨ho, rfl⟩
  rename_i owner ho
  split at hl
  · rename_i e
    cases hl
    exact Or.inr (Or.inl ⟨by rw [ho, e], rfl⟩)
  rename_i hne
  split at hl
  · cases hl
  rename_i m he
  obtain ⟨hs, -, -, -⟩ := enqueue_same he
  refine Or.inr (Or.inr ⟨owner, m, ho, hne, he, ?_⟩)
  split at hl
  · cases hl
  rename_i s₁ hb
  cases hl
  have hcur : ({ s with m }.setRan (s.current c) 0).current c = s.current c := by
    show (m.sched.cpu c).currentThread = _
    rw [hs]
    rfl
  unfold GuardSys.threadBlockCurrent at hb
  rw [hcur] at hb
  split at hb
  · rename_i hidle
    cases hb
    have hidle' : s.current c = (m.sched.cpu c).idleThread := hidle
    rw [hs] at hidle'
    exact Or.inl ⟨hidle', rfl⟩
  · rename_i hbusy
    have hbusy' : s.current c ≠ (m.sched.cpu c).idleThread := hbusy
    rw [hs] at hbusy'
    split at hb
    · cases hb
    rename_i sched hblock
    have hblock' : m.sched.threadBlockCurrent c sp = some sched := hblock
    rw [hs] at hblock'
    cases hb
    refine Or.inr ⟨hbusy', sched, hblock', ?_⟩
    have hran : update (update s.ran (s.current c) 0) (s.current c)
        (update s.ran (s.current c) 0 (s.current c) + 1)
        = update s.ran (s.current c) 1 := by
      rw [update_self, Function.update_idem]
    show GuardSys.mk _ _ _ = _
    rw [← hran]
    rfl

/-- The section of `mutex_lock` that an idle thread does not leave by
`thread_block_current`. -/
theorem Held.mutexLock (h : Held s) (hin : s.place (s.current c) = .inside .lock)
    (hidle : s.current c = (s.m.sched.cpu c).idleThread →
      s.m.owner = none ∨ s.m.owner = some (s.current c))
    (hl : s.mutexLock c (s.current c) sp = some s') : Held s' := by
  have hout : ∀ pc : Pc, pc ≠ .parked →
      update s.m.pc (s.current c) pc (s.current c) ≠ .parked := by
    intro pc hpc
    rw [update_self]
    exact hpc
  rcases mutexLock_cases hl with ⟨-, rfl⟩ | ⟨-, rfl⟩ | ⟨o, m, ho, hne, he, hrest⟩
  · exact h.settle hin rfl rfl (fun u hu => update_of_ne hu ..) (fun _ _ => rfl)
      fun hp => (hout .out (by simp) hp).elim
  · exact h.settle hin rfl rfl (fun u hu => update_of_ne hu ..) (fun _ _ => rfl)
      fun hp => (hout .panicked (by simp) hp).elim
  · obtain ⟨-, -, -, hpc⟩ := enqueue_same he
    rcases hrest with ⟨hid, -⟩ | ⟨-, sched, -, rfl⟩
    · rcases hidle hid with e | e <;> rw [ho] at e
      · cases e
      · exact (hne (Option.some.inj e)).elim
    · refine h.settle hin rfl rfl (fun u hu => ?_) (fun u hu => update_of_ne hu ..)
        fun _ => update_self ..
      show update m.pc _ _ u = _
      rw [update_of_ne hu, hpc]

/-- The other sections. -/
theorem Held.body (h : Held s) {k : Section} (hin : s.place (s.current c) = .inside k)
    (hon : s.Attended (.body c sp)) (hb : s.body c (s.current c) sp k = some s') :
    Held s' := by
  cases k with
  | lock => exact h.mutexLock hin (hon hin) hb
  | tryLock =>
      have hout : s.m.pc (s.current c) = .out := h.start _ _ (Or.inr hin)
      cases hb
      refine h.settle hin rfl rfl (fun u _ => mutexTryLock_pc s.m hout u)
        (fun _ _ => rfl) fun hp => ?_
      rw [show (s.leave _ _).m.pc (s.current c) = s.m.pc (s.current c) from
        mutexTryLock_pc s.m hout _, hout] at hp
      cases hp
  | unlock =>
      have hout : s.m.pc (s.current c) = .out := h.start _ _ (Or.inr hin)
      obtain ⟨hother, hmine⟩ := mutexUnlock_pc s.m hout
      cases hb
      exact h.settle hin rfl rfl hother (fun _ _ => rfl) fun hp => (hmine hp).elim

/-- What one step keeps. -/
theorem Held.step (h : Held s) (hon : s.Attended a) (hstep : s.step a = some s') :
    Held s' := by
  have hpass : ∀ {c : Nat} {b : MutexSys.Act}, b = .lock c ∨ b = .recheck c ∨ b = .wake c →
      s.place (s.current c) = .away → s.pass b = some s' → Held s' := by
    intro c b hb hp hs
    obtain ⟨m, hm, rfl⟩ := Option.map_eq_some_iff.mp hs
    obtain ⟨hguard, hpc, hpark⟩ := step_unguarded hb hm
    exact h.pass hp hguard hpc fun e => (hpark e).elim
  unfold GuardSys.step at hstep
  cases a with
  | lock c | recheck c | wake c =>
      simp only at hstep
      split at hstep
      · rename_i hp
        exact hpass (by simp) hp hstep
      · cases hstep
  | enter c k =>
      simp only at hstep
      split at hstep
      · rename_i hp
        cases hstep
        refine ⟨fun u hu => ?_, fun u k' hu => ?_, fun u k' hu => ?_, h.called⟩
        · obtain ⟨k', hk⟩ := h.guarded u hu
          refine ⟨k', ?_⟩
          rw [setPlace_place, if_neg]
          · exact hk
          · intro e
            rw [e, hp.1] at hk
            cases hk
        · rw [setPlace_place] at hu
          split at hu
          · cases hu
          · exact h.inside u k' hu
        · rw [setPlace_place] at hu
          split at hu
          · rename_i e
            rcases hu with hu | hu
            · cases hu
              rw [e]
              exact hp.2
            · cases hu
          · exact h.start u k' hu
      · cases hstep
  | spin c =>
      simp only at hstep
      split at hstep
      · rename_i k hp
        split at hstep
        · rename_i hfree
          cases hstep
          refine ⟨fun u hu => ?_, fun u k' hu => ?_, fun u k' hu => ?_, h.called⟩
          · refine ⟨k, ?_⟩
            rw [setPlace_place, if_pos (Option.some.inj hu).symm]
          · rw [setPlace_place] at hu
            split at hu
            · rename_i e
              rw [e]
              rfl
            · rw [h.inside u k' hu] at hfree
              cases hfree
          · rw [setPlace_place] at hu
            split at hu
            · rename_i e
              rw [e]
              rcases hu with hu | hu
              · cases hu
              · cases hu
                exact h.start _ k (Or.inl hp)
            · exact h.start u k' hu
        · cases hstep
          exact h
      · cases hstep
      · cases hstep
  | body c sp =>
      simp only at hstep
      split at hstep
      · rename_i k hp
        exact h.body hp hon hstep
      · cases hstep
      · cases hstep
  | sched k =>
      obtain ⟨m, hm, rfl⟩ := Option.map_eq_some_iff.mp hstep
      obtain ⟨hguard, hpc⟩ := step_sched hm
      refine ⟨fun u hu => h.guarded u (hguard.symm.trans hu),
        fun u k' hu => hguard.trans (h.inside u k' hu), fun u k' hu => ?_, fun u hu => ?_⟩
      · exact (congrFun hpc u).trans (h.start u k' hu)
      · exact h.called u ((congrFun hpc u).symm.trans hu)

theorem held_init (n : Nat) : Held (init n) where
  guarded := fun t ht => by cases ht
  inside := fun t k ht => by cases ht
  start := fun t k ht => by rcases ht with ht | ht <;> cases ht
  called := fun t ht => by cases ht

theorem Run.held {n : Nat} (h : Run Attended n s) : Held s := by
  induction h with
  | init => exact held_init n
  | step _ hon hstep ih => exact ih.step hon hstep

/-- In the other case the callback has not been run. -/
theorem unattended {c sp : Nat} (h : ¬ s.Attended (.body c sp))
    (hstep : s.step (.body c sp) = some s') : ¬ Guarded s' := by
  intro hsafe
  unfold Attended at h
  push Not at h
  obtain ⟨hp, hidle, hfree, hother⟩ := h
  unfold GuardSys.step at hstep
  simp only [hp] at hstep
  rcases mutexLock_cases hstep with ⟨ho, -⟩ | ⟨ho, -⟩ | ⟨o, m, -, -, -, hrest⟩
  · exact hfree ho
  · exact hother ho
  · rcases hrest with ⟨-, rfl⟩ | ⟨hbusy, -⟩
    · have hran : update s.ran (s.current c) 0 (s.current c) = 1 :=
        hsafe.2 (s.current c) (update_self ..)
      rw [update_self] at hran
      cases hran
    · exact hbusy hidle

/-- As long as no idle thread finds the mutex taken, nobody waits for its
own guard and each callback runs once; the first time one does, that ends. -/
theorem run_guarded {n : Nat} (h : Run Attended n s) :
    Guarded s ∧ ∀ a s', s.step a = some s' → (Guarded s' ↔ s.Attended a) := by
  refine ⟨h.held.safe, fun a s' hstep => ⟨fun hsafe => ?_, fun hon => ?_⟩⟩
  · by_contra hon
    cases a with
    | body c sp => exact unattended hon hstep hsafe
    | lock c | enter c k | spin c | recheck c | wake c | sched k => exact hon trivial
  · exact (h.held.step hon hstep).safe

-- ==== traces

instance (s : GuardSys) (a : Act) : Decidable (s.Attended a) :=
  match a with
  | .body .. => inferInstanceAs (Decidable (_ → _ → _ ∨ _))
  | .lock _ | .enter .. | .spin _ | .recheck _ | .wake _ | .sched _ =>
      inferInstanceAs (Decidable True)

/-- The scheduler is called as it may be. -/
def Called (s : GuardSys) : Act → Prop
  | .sched k => s.m.sched.Valid k
  | .body c sp => c < s.m.sched.cpuCount ∧ sp ≠ 0
  | .lock c | .enter c _ | .spin c | .recheck c | .wake c => c < s.m.sched.cpuCount

instance (s : GuardSys) (a : Act) : Decidable (s.Called a) :=
  match a with
  | .sched _ => inferInstanceAs (Decidable (s.m.sched.Valid _))
  | .body .. => inferInstanceAs (Decidable (_ ∧ _))
  | .lock _ | .enter .. | .spin _ | .recheck _ | .wake _ =>
      inferInstanceAs (Decidable (_ < _))

/-- Takes the steps of a list, as long as `may` allows them. -/
def follow (may : GuardSys → Act → Prop) [∀ s a, Decidable (may s a)] :
    GuardSys → List Act → Option GuardSys
  | s, [] => some s
  | s, a :: as =>
      if may s a then
        match s.step a with
        | none => none
        | some s' => follow may s' as
      else none

theorem run_follow {may : GuardSys → Act → Prop} [∀ s a, Decidable (may s a)] {n : Nat}
    {as : List Act} (h : Run may n s) (hp : follow may s as = some s') :
    Run may n s' := by
  induction as generalizing s with
  | nil =>
      cases hp
      exact h
  | cons a as ih =>
      unfold follow at hp
      split at hp
      case isTrue hmay =>
        split at hp
        case h_1 => cases hp
        case h_2 s₁ hstep => exact ih (h.step hmay hstep) hp
      case isFalse => cases hp

/-- The thread that runs on CPU 0 calls `mutex_lock` and runs its section. -/
def lockSection : List Act := [.lock 0, .enter 0 .lock, .spin 0, .body 0 8]

/-- Two threads on CPU 0: thread 1 holds the mutex. -/
def taken : List Act :=
  [.sched (.spawnProc .kernel), .sched (.spawnThread 0 1 true 8),
    .sched (.spawnThread 0 1 true 8), .sched (.tick 0 8)] ++ lockSection

/-- Thread 2 is preempted inside its section, thread 1 spins, and then
thread 2 blocks. -/
theorem run_guarded_block : ∃ s, Guarded s ∧ s.m.pc 2 = .parked ∧ s.ran 2 = 1 := by
  have hrun : (follow Attended (init 1) (taken ++ [.sched (.yield 0 8), .lock 0,
      .enter 0 .lock, .spin 0, .sched (.tick 0 8), .sched (.tick 0 8), .enter 0 .unlock,
      .spin 0, .sched (.tick 0 8), .sched (.tick 0 8), .body 0 8])).map
      (fun s => (s.m.pc 2, s.ran 2)) = some (.parked, 1) := by
    decide +kernel
  obtain ⟨s, hs, heq⟩ := Option.map_eq_some_iff.mp hrun
  obtain ⟨hp, hran⟩ := Prod.mk.inj heq
  exact ⟨s, (run_guarded (run_follow .init hs)).1, hp, hran⟩

/-- Thread 1 of CPU 0 takes the mutex and blocks, and the idle thread, which
is thread 0, calls `mutex_lock`: it comes back from `thread_block_current`
with nothing called, and then waits for its own guard. -/
theorem idle_spins : ∃ s s', Run Called 1 s ∧ s.m.pc 0 = .parked ∧ s.ran 0 = 0
    ∧ Run Called 1 s' ∧ s'.place 0 = .spin .lock ∧ s'.m.guard = some 0 := by
  have hrun : (follow Called (init 1) ([.sched (.spawnProc .kernel),
      .sched (.spawnThread 0 1 true 8), .sched (.tick 0 8)] ++ lockSection
      ++ [.sched (.blockCurrent 0 8)] ++ lockSection)).bind (fun s =>
        (follow Called s [.recheck 0, .enter 0 .lock]).map fun s' =>
          ((s.m.pc 0, s.ran 0), s'.place 0, s'.m.guard))
      = some ((.parked, 0), .spin .lock, some 0) := by
    decide +kernel
  obtain ⟨s, hs, hrest⟩ := Option.bind_eq_some_iff.mp hrun
  obtain ⟨s', hs', heq⟩ := Option.map_eq_some_iff.mp hrest
  obtain ⟨h, h'⟩ := Prod.mk.inj heq
  obtain ⟨hp, hran⟩ := Prod.mk.inj h
  obtain ⟨hplace, hguard⟩ := Prod.mk.inj h'
  have hrun' := run_follow .init hs
  exact ⟨s, s', hrun', hp, hran, run_follow hrun' hs', hplace, hguard⟩

end GuardSys

end Alix
