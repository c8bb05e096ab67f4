/-
Whether a thread that `thread_block` has stopped stays stopped.

# What can go wrong

`thread_block` on a thread that another CPU runs sets its status and
leaves the rest to that CPU. `sched_tick` looks at the status of the
current thread before it queues it again, and `thread_block_current`
blocks it once more; `sched_yield` only asks whether it is a zombie, and
makes a blocked thread runnable (`yield_rouses`).

# The invariant

Nothing is assumed about the queues: a thread is taken from one only if
its status says that it is runnable, so damaged links do no harm here. All
that has to be kept is where the idle threads are (`Seated`), since those
run whatever their status. `Turn` is what one call does to the threads
that are asleep.
-/
import Alix.Sys.Proofs.Mutex

namespace Alix.Sched

open Function (update update_self update_of_ne)

variable {s s' s₁ s₂ : Sched} {c t u : Nat} {k : Call} {W : Nat → Prop}

-- ==== the statement

/-- A thread that is not to run: blocked, or at its end. -/
def Asleep (s : Sched) (t : Nat) : Prop :=
  (s.tcb t).status = .blocked ∨ (s.tcb t).status = .zombie

/-- No `sched_yield` on a CPU whose thread has been blocked meanwhile. -/
def Attentive (s : Sched) : Call → Prop
  | .yield c _ => ¬ (s.cpuCount ≤ (s.cpu c).currentThread
      ∧ s.Blocked (s.cpu c).currentThread)
  | _ => True

/-- Whether `thread_block(t)` and `thread_wake(t)` look at `t` at all. -/
def Blockable (s : Sched) (t : Nat) : Prop :=
  (s.tcb t).cpuIndex < s.cpuCount ∧ t ≠ (s.cpu (s.tcb t).cpuIndex).idleThread

/-- The states that the runs on `n` CPUs come to after a `thread_block(t)`
that blocks `t` and before the next `thread_wake(t)`. -/
inductive Since (may : Sched → Call → Prop) (n t : Nat) : Sched → Prop where
  | block {s s' : Sched} {gone : List Nat} {c sp : Nat} :
      Reachable may n s gone → s.Valid (.block c t sp) → s.Blockable t →
      s.call (.block c t sp) = some s' → Since may n t s'
  | call {s s' : Sched} {k : Call} : Since may n t s → s.Valid k → may s k →
      k ≠ .wake t → s.call k = some s' → Since may n t s'

-- ==== what a call does

/-- The idle threads are the first ones, each on its own CPU. -/
structure Seated (s : Sched) : Prop where
  count : s.cpuCount ≤ s.tcbCount
  idle : ∀ c, c < s.cpuCount → (s.cpu c).idleThread = c
  home : ∀ c, c < s.cpuCount → (s.tcb c).cpuIndex = c

/-- A step that wakes no thread outside `W`, and moves none. -/
structure Turn (W : Nat → Prop) (s s' : Sched) : Prop where
  cpuCount : s'.cpuCount = s.cpuCount
  count : s.tcbCount ≤ s'.tcbCount
  idle : ∀ c, (s'.cpu c).idleThread = (s.cpu c).idleThread
  home : ∀ t, t < s.tcbCount → (s'.tcb t).cpuIndex = (s.tcb t).cpuIndex
  asleep : ∀ t, s.cpuCount ≤ t → ¬ W t → s.Asleep t → s'.Asleep t

theorem Turn.trans (h₁ : Turn W s s₁) (h₂ : Turn W s₁ s₂) : Turn W s s₂ where
  cpuCount := h₂.cpuCount.trans h₁.cpuCount
  count := Nat.le_trans h₁.count h₂.count
  idle := fun c => (h₂.idle c).trans (h₁.idle c)
  home := fun t ht =>
    (h₂.home t (Nat.lt_of_lt_of_le ht h₁.count)).trans (h₁.home t ht)
  asleep := fun t ht hW ha =>
    h₂.asleep t (by rw [h₁.cpuCount]; exact ht) hW (h₁.asleep t ht hW ha)

theorem Seated.turn (h : Seated s) (ht : Turn W s s') : Seated s' where
  count := by
    rw [ht.cpuCount]
    exact Nat.le_trans h.count ht.count
  idle := by
    intro c hc
    rw [ht.cpuCount] at hc
    rw [ht.idle, h.idle c hc]
  home := by
    intro c hc
    rw [ht.cpuCount] at hc
    rw [ht.home c (Nat.lt_of_lt_of_le hc h.count), h.home c hc]

/-- A step that changes no thread. -/
theorem turn_of_tcb (hn : s'.cpuCount = s.cpuCount) (hm : s'.tcbCount = s.tcbCount)
    (hidle : ∀ c, (s'.cpu c).idleThread = (s.cpu c).idleThread)
    (hst : ∀ t, (s'.tcb t).status = (s.tcb t).status)
    (hhome : ∀ t, (s'.tcb t).cpuIndex = (s.tcb t).cpuIndex) : Turn W s s' where
  cpuCount := hn
  count := Nat.le_of_eq hm.symm
  idle := hidle
  home := fun t _ => hhome t
  asleep := by
    intro t _ _ ha
    unfold Asleep
    rw [hst]
    exact ha

theorem Turn.refl (s : Sched) : Turn W s s :=
  turn_of_tcb rfl rfl (fun _ => rfl) (fun _ => rfl) fun _ => rfl

/-- A store into one thread: it wakes that thread only if it is in `W`. -/
theorem turn_modTcb {f : Tcb → Tcb} (hf : (f (s.tcb u)).cpuIndex = (s.tcb u).cpuIndex)
    (hu : s.Asleep u → W u ∨ (s.modTcb u f).Asleep u) : Turn W s (s.modTcb u f) where
  cpuCount := rfl
  count := Nat.le_refl _
  idle := fun _ => rfl
  home := by
    intro t _
    rw [modTcb_tcb]
    split
    · rename_i e
      rw [e, hf]
    · rfl
  asleep := by
    intro t _ hW ha
    by_cases htu : t = u
    · subst htu
      exact (hu ha).resolve_left hW
    · unfold Asleep
      rw [modTcb_tcb, if_neg htu]
      exact ha

/-- A store that keeps the status. -/
theorem turn_touch {f : Tcb → Tcb} (hf : ∀ th, (f th).status = th.status
    ∧ (f th).cpuIndex = th.cpuIndex) (u : Nat) : Turn W s (s.modTcb u f) := by
  refine turn_modTcb (hf _).2 fun ha => Or.inr ?_
  unfold Asleep
  rw [modTcb_tcb, if_pos rfl, (hf _).1]
  exact ha

theorem turn_setStatus {st : ThreadStatus} (hu : s.Asleep u → W u) :
    Turn W s (s.setStatus u st) :=
  turn_modTcb rfl fun ha => Or.inl (hu ha)

/-- Putting a thread to sleep wakes nobody. -/
theorem turn_sleep {st : ThreadStatus} (hst : st = .blocked ∨ st = .zombie) (u : Nat) :
    Turn W s (s.modTcb u fun th => { th with status := st }) := by
  refine turn_modTcb rfl fun _ => Or.inr ?_
  unfold Asleep
  rw [modTcb_tcb, if_pos rfl]
  exact hst

theorem turn_pushBack (s : Sched) (q : Queue) (u : Nat) : Turn W s (s.pushBack q u) :=
  turn_of_tcb rfl rfl (fun _ => rfl) (fun _ => rfl) fun _ => rfl

theorem turn_popFront {q : Queue} {data : Option Nat}
    (h : s.popFront q = some (s', data)) : Turn W s s' := by
  unfold popFront at h
  split at h
  · cases h
  · cases h
    exact turn_of_tcb rfl rfl (fun _ => rfl) (fun _ => rfl) fun _ => rfl

theorem turn_removeIfQueued {q : Queue} (h : s.removeIfQueued q u = some s') :
    Turn W s s' := by
  unfold removeIfQueued at h
  split at h
  · cases h
  · cases h
    exact Turn.refl s
  · cases h
    exact turn_of_tcb rfl rfl (fun _ => rfl) (fun _ => rfl) fun _ => rfl

-- ==== switching

theorem turn_queueZombie (s : Sched) (c u : Nat) :
    Turn W s (s.schedQueueZombieLocked c u) := by
  unfold schedQueueZombieLocked
  split
  · exact Turn.refl s
  · exact (turn_sleep (Or.inr rfl) u).trans (turn_pushBack _ _ u)

theorem turn_nextThread {fuel next : Nat}
    (h : s.schedNextThread c fuel = some (s', next)) : Turn W s s' := by
  induction fuel generalizing s with
  | zero => cases h
  | succ fuel ih =>
      unfold schedNextThread at h
      split at h
      · cases h
        exact Turn.refl _
      · rename_i s1 hpop
        cases h
        exact turn_popFront hpop
      · rename_i s1 u hpop
        have hpop' : Turn W s s1 := turn_popFront hpop
        split at h
        · cases h
          exact hpop'
        split at h
        · exact (hpop'.trans (turn_queueZombie s1 c u)).trans (ih h)
        · exact hpop'.trans (ih h)

theorem turn_switch (s : Sched) (c next cur sp : Nat) :
    Turn W s ((s.setCurrent c next).contextSwitch cur sp) := by
  have hcur : Turn W s (s.setCurrent c next) := by
    refine turn_of_tcb rfl rfl (fun c' => ?_) (fun _ => rfl) fun _ => rfl
    show (update s.cpu c _ c').idleThread = _
    by_cases hc : c' = c
    · rw [hc, update_self]
    · rw [update_of_ne hc]
  exact hcur.trans
    (turn_touch (f := fun th => { th with rsp := sp }) (fun _ => ⟨rfl, rfl⟩) cur)

/-- The thread that runs next was runnable or is an idle thread, so no
sleeping thread is woken. -/
theorem Seated.turn_running (h : Seated s) (hc : c < s.cpuCount) {next : Nat}
    (hnext : next = (s.cpu c).idleThread ∨ (s.tcb next).status = .runnable) :
    Turn W s (s.setStatus next .running) := by
  have hturn : Turn (fun u => W u ∨ u = c) s (s.setStatus next .running) := by
    refine turn_setStatus fun ha => ?_
    rcases hnext with e | e
    · exact Or.inr (by rw [e, h.idle c hc])
    · rcases ha with ha | ha <;> (rw [e] at ha; cases ha)
  refine ⟨hturn.cpuCount, hturn.count, hturn.idle, hturn.home, fun t ht hW => ?_⟩
  refine hturn.asleep t ht fun e => ?_
  rcases e with e | e
  · exact hW e
  · omega

theorem Seated.turn_runNext (h : Seated s) (hc : c < s.cpuCount) {cur sp : Nat}
    (hrun : s.schedRunNextLocked c cur sp = some s') : Turn W s s' := by
  unfold schedRunNextLocked at hrun
  split at hrun
  · cases hrun
  · rename_i s1 next hnext
    have h1 : Turn W s s1 := turn_nextThread hnext
    obtain ⟨hst, hcpu, -, hready⟩ := schedNextThread_status hnext
    rw [← hcpu, ← hst] at hready
    have h2 : Turn W s1 (s1.setStatus next .running) :=
      (h.turn h1).turn_running (by rw [h1.cpuCount]; exact hc) hready
    split at hrun
    · rename_i hsame
      cases hrun
      rw [hsame] at h2
      exact h1.trans h2
    · cases hrun
      exact (h1.trans h2).trans (turn_switch _ c next cur sp)

-- ==== reaping

theorem turn_freeThread (s : Sched) (c u : Nat) : Turn W s (s.schedFreeThread c u) := by
  unfold schedFreeThread
  split
  · exact Turn.refl s
  · have hcpu : ∀ x : Nat, Turn W s (s.modCpu x fun i =>
        { i with schedThreadCount := i.schedThreadCount - 1 }) := by
      intro x
      refine turn_of_tcb rfl rfl (fun c' => ?_) (fun _ => rfl) fun _ => rfl
      show (update s.cpu x _ c').idleThread = _
      by_cases hc : c' = x
      · rw [hc, update_self]
      · rw [update_of_ne hc]
    have hproc : ∀ (s₁ : Sched) (p : Nat), Turn W s₁ (s₁.schedProcUnlinkThread p u) := by
      intro s₁ p
      unfold schedProcUnlinkThread
      split
      · exact turn_of_tcb rfl rfl (fun _ => rfl) (fun _ => rfl) fun _ => rfl
      · exact Turn.refl s₁
    have hdone : ∀ (s₁ : Sched) (p : Nat), Turn W s₁
        (if ({ s₁ with freedTcbs := u :: s₁.freedTcbs }.pcb p).threadCount = 0 then
          { s₁ with freedTcbs := u :: s₁.freedTcbs }.schedFreeProc p
        else { s₁ with freedTcbs := u :: s₁.freedTcbs }) := by
      intro s₁ p
      split
      · exact turn_of_tcb rfl rfl (fun _ => rfl) (fun _ => rfl) fun _ => rfl
      · exact turn_of_tcb rfl rfl (fun _ => rfl) (fun _ => rfl) fun _ => rfl
    simp only
    split
    · exact ((hcpu _).trans (hproc _ _)).trans (hdone _ _)
    · exact (hproc _ _).trans (hdone _ _)

theorem turn_reap {fuel : Nat} (h : s.schedReapCpu c fuel = some s') : Turn W s s' := by
  induction fuel generalizing s with
  | zero => cases h
  | succ fuel ih =>
      unfold schedReapCpu at h
      split at h
      · cases h
        exact Turn.refl _
      · rename_i s1 hpop
        cases h
        exact turn_popFront hpop
      · rename_i s1 u hpop
        exact ((turn_popFront hpop).trans (turn_freeThread s1 c u)).trans (ih h)

-- ==== the calls

/-- The threads that a call may set going. -/
def roused (s : Sched) : Call → Nat → Prop
  | .wake t, u => u = t
  | .yield c _, u => u = (s.cpu c).currentThread ∧ s.Blocked u
  | .spawnThread .., u => u = s.tcbCount
  | _, _ => False

/-- A step, and then the switch to the next thread. -/
theorem Seated.turn_then (h : Seated s) (hc : c < s.cpuCount) {cur sp : Nat}
    (h1 : Turn W s s₁) (hrun : s₁.schedRunNextLocked c cur sp = some s') : Turn W s s' :=
  h1.trans ((h.turn h1).turn_runNext (by rw [h1.cpuCount]; exact hc) hrun)

theorem turn_spawnThread (s : Sched) (c p rsp : Nat) (mem : Bool) :
    Turn (fun u => u = s.tcbCount) s (s.spawnThread c p mem rsp) := by
  rcases spawnThread_spec s c p rsp mem with hsame | ⟨hspec, -⟩
  · rw [hsame]
    exact Turn.refl s
  · refine ⟨hspec.cpuCount, by rw [hspec.tcbCount]; omega, hspec.idle,
      fun t ht => ?_, fun t _ hW ha => ?_⟩
    · rw [hspec.tcb t (Nat.ne_of_lt ht)]
    · unfold Asleep
      rw [hspec.tcb t hW]
      exact ha

theorem Seated.turn_tick (h : Seated s) (hc : c < s.cpuCount) {sp : Nat}
    (hcall : s.schedTick c sp = some s') : Turn W s s' := by
  unfold schedTick at hcall
  split at hcall
  · cases hcall
  rename_i s1 hreap
  have h1 : Turn W s s1 := turn_reap hreap
  have h2 : Turn W s _ := h1.trans
    (turn_touch (f := fun th => { th with totalTicks := th.totalTicks + 1 })
      (fun _ => ⟨rfl, rfl⟩) (s1.cpu c).currentThread)
  simp only at hcall
  split at hcall
  · rename_i hrun
    have h3 := h2.trans
      (turn_touch (f := fun th => { th with ticksLeft := th.ticksLeft - 1 })
        (fun _ => ⟨rfl, rfl⟩) (s1.cpu c).currentThread)
    split at hcall
    · cases hcall
      exact h3
    · refine h.turn_then hc ?_ hcall
      split
      · -- only a running thread goes back on the queue
        refine (h3.trans (turn_setStatus fun ha => ?_)).trans (turn_pushBack _ _ _)
        unfold Asleep at ha
        rw [modTcb_tcb, if_pos rfl] at ha
        rcases ha with ha | ha <;> (rw [hrun] at ha; cases ha)
      · exact h3
  · exact h.turn_then hc h2 hcall

/-- `sched_yield` makes its own thread runnable, blocked or not. -/
theorem Seated.turn_yield (h : Seated s) (hc : c < s.cpuCount) {sp : Nat}
    (hcall : s.schedYield c sp = some s') :
    Turn (fun u => u = (s.cpu c).currentThread ∧ s.Blocked u) s s' := by
  unfold schedYield at hcall
  simp only at hcall
  split at hcall
  · rename_i hgo
    refine h.turn_then hc ((turn_setStatus fun ha => ?_).trans (turn_pushBack _ _ _)) hcall
    exact ⟨rfl, ha.resolve_right hgo.2⟩
  · exact h.turn_runNext hc hcall

theorem Seated.turn_blockCurrent (h : Seated s) (hc : c < s.cpuCount) {sp : Nat}
    (hcall : s.threadBlockCurrent c sp = some s') : Turn W s s' := by
  unfold threadBlockCurrent at hcall
  simp only at hcall
  split at hcall
  · cases hcall
    exact Turn.refl s
  split at hcall
  · cases hcall
  · rename_i s1 hrem
    exact h.turn_then hc ((turn_sleep (Or.inl rfl) _).trans (turn_removeIfQueued hrem)) hcall

theorem turn_wake (hcall : s.threadWake u = some s') : Turn (fun t => t = u) s s' := by
  unfold threadWake at hcall
  have h1 : Turn (fun t => t = u) s (s.setStatus u .runnable) := turn_setStatus fun _ => rfl
  simp only at hcall
  split at hcall
  · cases hcall
    exact Turn.refl s
  split at hcall
  · split at hcall
    · cases hcall
    · cases hcall
      exact h1.trans (turn_pushBack _ _ _)
    · cases hcall
      exact h1
  · cases hcall
    exact Turn.refl s

theorem Seated.turn_exit (h : Seated s) (hc : c < s.cpuCount) {sp : Nat}
    (hcall : s.schedExit c sp = some s') : Turn W s s' := by
  unfold schedExit at hcall
  simp only at hcall
  split at hcall
  · cases hcall
  split at hcall
  · cases hcall
  · rename_i s1 next hnext
    cases hcall
    have h1 : Turn W s s1 := (turn_queueZombie s c _).trans (turn_nextThread hnext)
    obtain ⟨hst, hcpu, -, hready⟩ := schedNextThread_status hnext
    rw [← hcpu, ← hst] at hready
    refine (h1.trans ((h.turn h1).turn_running (by rw [h1.cpuCount]; exact hc) ?_)).trans
      (turn_switch _ c _ _ sp)
    split
    · exact Or.inl rfl
    · exact hready

theorem Seated.turn_block (h : Seated s) {sp : Nat}
    (hcall : s.threadBlock c u sp = some s') : Turn W s s' := by
  unfold threadBlock at hcall
  simp only at hcall
  split at hcall
  · cases hcall
    exact Turn.refl s
  rename_i hhome
  split at hcall
  · cases hcall
  · rename_i s1 hrem
    have h1 : Turn W s s1 := (turn_sleep (Or.inl rfl) _).trans (turn_removeIfQueued hrem)
    split at hcall
    · exact h.turn_then (by omega) h1 hcall
    · cases hcall
      exact h1

/-- What a call does to the sleeping threads. -/
theorem Seated.call (h : Seated s) (hv : s.Valid k) (hcall : s.call k = some s') :
    Turn (s.roused k) s s' := by
  cases k with
  | spawnProc type =>
      cases hcall
      exact turn_of_tcb rfl rfl (fun _ => rfl) (fun _ => rfl) fun _ => rfl
  | spawnThread c p mem rsp =>
      cases hcall
      exact turn_spawnThread s c p rsp mem
  | tick c sp => exact h.turn_tick hv.1 hcall
  | yield c sp => exact h.turn_yield hv.1 hcall
  | blockCurrent c sp => exact h.turn_blockCurrent hv.1 hcall
  | wake u => exact turn_wake hcall
  | exit c sp => exact h.turn_exit hv.1 hcall
  | reap c => exact turn_reap hcall
  | block c u sp => exact h.turn_block hcall

/-- `sched_yield` of a thread that has been blocked: it may run again. -/
theorem yield_rouses {sp : Nat} (hcall : s.call (.yield c sp) = some s')
    (hidle : (s.cpu c).currentThread ≠ (s.cpu c).idleThread)
    (hb : s.Blocked (s.cpu c).currentThread) :
    (s'.tcb (s.cpu c).currentThread).status = .runnable
      ∨ (s'.tcb (s.cpu c).currentThread).status = .running := by
  change s.schedYield c sp = some s' at hcall
  unfold schedYield at hcall
  simp only at hcall
  have hgo : (s.cpu c).currentThread ≠ (s.cpu c).idleThread
      ∧ (s.tcb (s.cpu c).currentThread).status ≠ .zombie :=
    ⟨hidle, fun e => by rw [hb] at e; cases e⟩
  rw [if_pos hgo] at hcall
  unfold schedRunNextLocked at hcall
  split at hcall
  · cases hcall
  · rename_i s1 next hnext
    obtain ⟨hst, -, -, -⟩ := schedNextThread_status hnext
    have hcur : (s1.tcb (s.cpu c).currentThread).status = .runnable := by
      rw [hst]
      show ((s.setStatus _ _).tcb _).status = _
      rw [setStatus_tcb, if_pos rfl]
    split at hcall
    · rename_i hsame
      cases hcall
      right
      rw [setStatus_tcb, if_pos rfl]
    · rename_i hother
      cases hcall
      left
      unfold contextSwitch
      rw [modTcb_tcb, if_pos rfl]
      show ((s1.setStatus next .running).tcb _).status = _
      rw [setStatus_tcb, if_neg (Ne.symm hother)]
      exact hcur

-- ==== runs

theorem seated_init (n : Nat) : Seated (schedInit n) :=
  ⟨Nat.le_refl _, fun _ _ => rfl, fun _ _ => rfl⟩

theorem reachable_seated {may : Sched → Call → Prop} {n : Nat} {gone : List Nat}
    (h : Reachable may n s gone) : Seated s := by
  induction h with
  | init => exact seated_init n
  | call _ hv _ hcall ih => exact ih.turn (ih.call hv hcall)

theorem Seated.blockable (h : Seated s) (ht : s.Blockable t) : s.cpuCount ≤ t := by
  by_contra hlt
  have hlt' : t < s.cpuCount := by omega
  refine ht.2 ?_
  rw [h.home t hlt', h.idle t hlt']

/-- `thread_block` puts its thread to sleep. -/
theorem Seated.block (h : Seated s) (ht : s.Blockable t) {sp : Nat}
    (hcall : s.call (.block c t sp) = some s') : s'.Asleep t := by
  have hgo : ¬ (s.cpuCount ≤ (s.tcb t).cpuIndex
      ∨ t = (s.cpu (s.tcb t).cpuIndex).idleThread) := by
    intro e
    rcases e with e | e
    · have := ht.1
      omega
    · exact ht.2 e
  change s.threadBlock c t sp = some s' at hcall
  unfold threadBlock at hcall
  simp only at hcall
  rw [if_neg hgo] at hcall
  split at hcall
  · cases hcall
  · rename_i s1 hrem
    have hset : Turn (fun _ => False) s
        (s.modTcb t fun th => { th with status := .blocked }) :=
      turn_sleep (Or.inl rfl) t
    have ha : (s.modTcb t fun th => { th with status := .blocked }).Asleep t := by
      unfold Asleep
      rw [modTcb_tcb, if_pos rfl]
      exact Or.inl rfl
    have hrem' : Turn (fun _ => False) _ s1 := turn_removeIfQueued hrem
    have h1 := hset.trans hrem'
    have hn := h.blockable ht
    have ha1 := hrem'.asleep t hn (fun e => e) ha
    split at hcall
    · have hrun : Turn (fun _ => False) s1 s' :=
        (h.turn h1).turn_runNext (by rw [h1.cpuCount]; exact ht.1) hcall
      exact hrun.asleep t (by rw [h1.cpuCount]; exact hn) (fun e => e) ha1
    · cases hcall
      exact ha1

/-- A thread that was blocked is still asleep. -/
theorem Since.asleep {n t : Nat} (h : Since Attentive n t s) :
    Seated s ∧ s.cpuCount ≤ t ∧ t < s.tcbCount ∧ s.Asleep t := by
  induction h with
  | block hreach hv ht hcall =>
      have hs := reachable_seated hreach
      have hturn := hs.call hv hcall
      exact ⟨hs.turn hturn, by rw [hturn.cpuCount]; exact hs.blockable ht,
        Nat.lt_of_lt_of_le hv.2.1.1 hturn.count, hs.block ht hcall⟩
  | call hsince hv hmay hne hcall ih =>
      rename_i s s' k
      obtain ⟨hs, hn, hlt, ha⟩ := ih
      have hturn := hs.call hv hcall
      refine ⟨hs.turn hturn, by rw [hturn.cpuCount]; exact hn,
        Nat.lt_of_lt_of_le hlt hturn.count, hturn.asleep t hn (fun hW => ?_) ha⟩
      cases k with
      | wake u => exact hne (by rw [show t = u from hW])
      | yield c sp =>
          obtain ⟨rfl, hb⟩ := hW
          exact hmay ⟨hn, hb⟩
      | spawnThread c p mem rsp => exact Nat.ne_of_lt hlt hW
      | spawnProc _ | tick _ _ | blockCurrent _ _ | exit _ _ | reap _ | block _ _ _ =>
          exact hW

/-- As long as every `sched_yield` is attentive, `thread_wake(t)` alone
makes a blocked thread runnable or running. -/
theorem since_not_running {n t : Nat} (h : Since Attentive n t s) :
    (s.tcb t).status ≠ .runnable ∧ (s.tcb t).status ≠ .running := by
  obtain ⟨-, -, -, ha⟩ := h.asleep
  rcases ha with ha | ha <;> (rw [ha]; exact ⟨by decide, by decide⟩)

-- ==== traces

instance (s : Sched) (t : Nat) : Decidable (s.Blocked t) :=
  inferInstanceAs (Decidable (_ = _))

instance (s : Sched) (k : Call) : Decidable (s.Attentive k) :=
  match k with
  | .yield .. => inferInstanceAs (Decidable (¬ (_ ∧ _)))
  | .spawnProc _ | .spawnThread .. | .tick .. | .blockCurrent .. | .wake _
  | .exit .. | .reap _ | .block .. => inferInstanceAs (Decidable True)

instance (s : Sched) (t : Nat) : Decidable (s.Blockable t) :=
  inferInstanceAs (Decidable (_ ∧ _))

theorem since_play {may : Sched → Call → Prop} [∀ s k, Decidable (may s k)]
    {n : Nat} {gone gone' : List Nat} {ks : List Call} (hwake : ∀ k ∈ ks, k ≠ .wake t)
    (h : Since may n t s) (hp : play may s gone ks = some (s', gone')) :
    Since may n t s' := by
  induction ks generalizing s gone with
  | nil =>
      obtain ⟨rfl, -⟩ := Prod.mk.inj (Option.some.inj hp)
      exact h
  | cons k ks ih =>
      unfold play at hp
      split at hp
      case isTrue hk =>
        split at hp
        case h_1 => cases hp
        case h_2 s₁ hcall =>
          exact ih (fun k' hk' => hwake k' (List.mem_cons_of_mem _ hk'))
            (h.call hk.1 hk.2 (hwake k List.mem_cons_self) hcall) hp
      case isFalse => cases hp

/-- Calls from the start, a `thread_block(t)`, and more calls. -/
def nap (may : Sched → Call → Prop) [∀ s k, Decidable (may s k)] (n : Nat)
    (ks : List Call) (c t sp : Nat) (ks' : List Call) : Option Sched :=
  match play may (schedInit n) [] ks with
  | none => none
  | some (s, _) =>
      if s.Valid (.block c t sp) ∧ s.Blockable t then
        match s.call (.block c t sp) with
        | none => none
        | some s' => (play may s' [] ks').map Prod.fst
      else none

theorem since_nap {may : Sched → Call → Prop} [∀ s k, Decidable (may s k)]
    {n sp : Nat} {ks ks' : List Call} (hwake : ∀ k ∈ ks', k ≠ .wake t)
    (hnap : nap may n ks c t sp ks' = some s) : Since may n t s := by
  unfold nap at hnap
  split at hnap
  · cases hnap
  rename_i s1 gone hplay
  split at hnap
  case isFalse => cases hnap
  case isTrue hv =>
    split at hnap
    · cases hnap
    rename_i s2 hcall
    obtain ⟨⟨s3, gone'⟩, hrest, rfl⟩ := Option.map_eq_some_iff.mp hnap
    exact since_play hwake (.block (reachable_play .init hplay) hv.1 hv.2 hcall) hrest

/-- Two CPUs: CPU 1 blocks thread 2 while CPU 0 runs it, and the tick of
CPU 0 takes it off the CPU. -/
theorem since_not_running_tick : ∃ s : Sched, (s.cpu 0).currentThread = 0
    ∧ (s.tcb 2).status ≠ .runnable ∧ (s.tcb 2).status ≠ .running := by
  have hnap : (nap Attentive 2 [.spawnProc .kernel, .spawnThread 0 2 true 8,
      .tick 0 8] 1 2 8 [.tick 0 8]).map (fun s => (s.cpu 0).currentThread)
      = some 0 := by
    decide +kernel
  obtain ⟨s, hs, hcur⟩ := Option.map_eq_some_iff.mp hnap
  exact ⟨s, hcur, since_not_running (since_nap (by simp) hs)⟩

/-- The same, but thread 2 yields before the tick: CPU 0 goes on running
it. -/
theorem yield_resumes_blocked : ∃ s, Since (fun _ _ => True) 2 2 s
    ∧ (s.tcb 2).status = .running := by
  have hnap : (nap (fun _ _ => True) 2 [.spawnProc .kernel,
      .spawnThread 0 2 true 8, .tick 0 8] 1 2 8 [.yield 0 8]).map
      (fun s => (s.tcb 2).status) = some .running := by
    decide +kernel
  obtain ⟨s, hs, hst⟩ := Option.map_eq_some_iff.mp hnap
  exact ⟨s, since_nap (by simp) hs, hst⟩

end Alix.Sched
