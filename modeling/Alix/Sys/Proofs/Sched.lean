/-
Where the threads are.

`Placed s L hole` is the placement invariant: the status of a thread says
where it is. A runnable thread is on the run queue of its CPU, a zombie
on the zombie queue, a running one is the current thread, a blocked one
is nowhere. With `hole = some c` the current thread of CPU `c` has
already been put away and the next one has not been picked, which is the
state in the middle of every switch.

A step is a few moves of one thread (`Placed.move`), so each operation of
the scheduler is `retire` (the current thread goes), `fill` (the next one
comes), or both. None of these touches what the counters count, which
`Frame` says; only `spawn_thread` and `sched_free_thread` do.
-/
import Alix.Sys.Proofs.Queues

namespace Alix.Sched

open Function (update update_self update_of_ne)

variable {s s' s₁ s₂ s₃ : Sched} {L L' : Queue → List Nat}
  {hole hole' : Option Nat} {c t : Nat}

/-- A spawned thread that has not been freed. -/
def Thread (s : Sched) (t : Nat) : Prop := s.cpuCount ≤ t ∧ s.Live t

-- ==== frame lemmas

/-- Steps that neither create nor free anything. -/
structure Frame (s s' : Sched) : Prop where
  cpuCount : s'.cpuCount = s.cpuCount
  tcbCount : s'.tcbCount = s.tcbCount
  freedTcbs : s'.freedTcbs = s.freedTcbs
  pcb : s'.pcb = s.pcb
  pcbCount : s'.pcbCount = s.pcbCount
  freedPcbs : s'.freedPcbs = s.freedPcbs
  idle : ∀ c, (s'.cpu c).idleThread = (s.cpu c).idleThread
  count : ∀ c, (s'.cpu c).schedThreadCount = (s.cpu c).schedThreadCount
  home : ∀ t, (s'.tcb t).cpuIndex = (s.tcb t).cpuIndex
  parent : ∀ t, (s'.tcb t).parent = (s.tcb t).parent

theorem Frame.refl (s : Sched) : Frame s s :=
  ⟨rfl, rfl, rfl, rfl, rfl, rfl, fun _ => rfl, fun _ => rfl, fun _ => rfl,
    fun _ => rfl⟩

theorem Frame.trans (h₁ : Frame s₁ s₂) (h₂ : Frame s₂ s₃) : Frame s₁ s₃ where
  cpuCount := h₂.cpuCount.trans h₁.cpuCount
  tcbCount := h₂.tcbCount.trans h₁.tcbCount
  freedTcbs := h₂.freedTcbs.trans h₁.freedTcbs
  pcb := h₂.pcb.trans h₁.pcb
  pcbCount := h₂.pcbCount.trans h₁.pcbCount
  freedPcbs := h₂.freedPcbs.trans h₁.freedPcbs
  idle := fun c => (h₂.idle c).trans (h₁.idle c)
  count := fun c => (h₂.count c).trans (h₁.count c)
  home := fun t => (h₂.home t).trans (h₁.home t)
  parent := fun t => (h₂.parent t).trans (h₁.parent t)

theorem Frame.thread (h : Frame s s') : s'.Thread t ↔ s.Thread t := by
  unfold Thread Live
  rw [h.cpuCount, h.tcbCount, h.freedTcbs]

theorem Frame.idleThreads (hf : Frame s s')
    (h : ∀ c < s.cpuCount, (s.cpu c).idleThread = c) :
    ∀ c < s'.cpuCount, (s'.cpu c).idleThread = c := by
  intro c hc
  rw [hf.cpuCount] at hc
  rw [hf.idle, h c hc]

theorem Frame.idleHomes (hf : Frame s s') (h : ∀ c < s.cpuCount, (s.tcb c).cpuIndex = c) :
    ∀ c < s'.cpuCount, (s'.tcb c).cpuIndex = c := by
  intro c hc
  rw [hf.cpuCount] at hc
  rw [hf.home, h c hc]

theorem Frame.homes (hf : Frame s s')
    (h : ∀ t, s.Thread t → (s.tcb t).cpuIndex < s.cpuCount) :
    ∀ t, s'.Thread t → (s'.tcb t).cpuIndex < s'.cpuCount := by
  intro t ht
  rw [hf.home, hf.cpuCount]
  exact h t (hf.thread.mp ht)

theorem modTcb_tcb (s : Sched) (t : Nat) (f : Tcb → Tcb) (u : Nat) :
    (s.modTcb t f).tcb u = if u = t then f (s.tcb t) else s.tcb u := by
  unfold modTcb
  by_cases hu : u = t
  · subst hu
    simp
  · simp [hu]

/-- Changing a thread's status, ticks or stack pointer. -/
theorem frame_modTcb (s : Sched) (t : Nat) (f : Tcb → Tcb)
    (hc : ∀ th, (f th).cpuIndex = th.cpuIndex)
    (hp : ∀ th, (f th).parent = th.parent) : Frame s (s.modTcb t f) := by
  refine ⟨rfl, rfl, rfl, rfl, rfl, rfl, fun _ => rfl, fun _ => rfl, ?_, ?_⟩
  · intro u
    rw [modTcb_tcb]
    split
    · rename_i hu
      rw [hc, hu]
    · rfl
  · intro u
    rw [modTcb_tcb]
    split
    · rename_i hu
      rw [hp, hu]
    · rfl

theorem frame_withQueues (s : Sched) (m : RqNodes Nat Nat)
    (q : Queue → Rq Nat) : Frame s (s.withQueues m q) :=
  ⟨rfl, rfl, rfl, rfl, rfl, rfl, fun _ => rfl, fun _ => rfl, fun _ => rfl,
    fun _ => rfl⟩

theorem frame_pushBack (s : Sched) (q : Queue) (t : Nat) :
    Frame s (s.pushBack q t) :=
  frame_withQueues s _ _

theorem frame_setCurrent (s : Sched) (c t : Nat) :
    Frame s (s.setCurrent c t) := by
  refine ⟨rfl, rfl, rfl, rfl, rfl, rfl, ?_, ?_, fun _ => rfl, fun _ => rfl⟩
  · intro c'
    unfold setCurrent modCpu
    by_cases hc : c' = c
    · subst hc
      simp
    · simp [hc]
  · intro c'
    unfold setCurrent modCpu
    by_cases hc : c' = c
    · subst hc
      simp
    · simp [hc]

theorem setCurrent_current (s : Sched) (c t c' : Nat) :
    ((s.setCurrent c t).cpu c').currentThread
      = if c' = c then t else (s.cpu c').currentThread := by
  unfold setCurrent modCpu
  by_cases hc : c' = c
  · subst hc
    simp
  · simp [hc]

-- ==== the invariant

/-- The status of a thread says where it is. -/
structure Placed (s : Sched) (L : Queue → List Nat) (hole : Option Nat) :
    Prop where
  queues : Queues s L
  idle : ∀ c < s.cpuCount, (s.cpu c).idleThread = c
  idleRuns : ∀ c < s.cpuCount, (s.tcb c).status = .running
  idleHome : ∀ c < s.cpuCount, (s.tcb c).cpuIndex = c
  home : ∀ t, s.Thread t → (s.tcb t).cpuIndex < s.cpuCount
  stack : ∀ t, s.Thread t → (s.tcb t).rsp ≠ 0
  run : ∀ c t, t ∈ L (.run c) ↔ s.Thread t ∧ (s.tcb t).cpuIndex = c
    ∧ (s.tcb t).status = .runnable
  zombie : ∀ c t, t ∈ L (.zombie c) ↔ s.Thread t ∧ (s.tcb t).cpuIndex = c
    ∧ (s.tcb t).status = .zombie
  current : ∀ c < s.cpuCount, hole ≠ some c → (s.cpu c).currentThread = c
    ∨ (s.Thread (s.cpu c).currentThread
      ∧ (s.tcb (s.cpu c).currentThread).cpuIndex = c
      ∧ (s.tcb (s.cpu c).currentThread).status = .running)
  running : ∀ t, s.Thread t → (s.tcb t).status = .running →
    hole ≠ some (s.tcb t).cpuIndex
      ∧ (s.cpu (s.tcb t).cpuIndex).currentThread = t

/-- One thread changes its status and its queue; the caller says who is
current. -/
theorem Placed.move (h : Placed s L hole) (hf : Frame s s')
    (hq : Queues s' L') (t : Nat)
    (hstatus : ∀ u, u ≠ t → (s'.tcb u).status = (s.tcb u).status)
    (hidle : t < s.cpuCount → (s'.tcb t).status = .running)
    (hstack : ∀ u, s.Thread u → (s'.tcb u).rsp ≠ 0)
    (hmem : ∀ q u, u ≠ t → (u ∈ L' q ↔ u ∈ L q))
    (hrun : ∀ c, t ∈ L' (.run c) ↔ s.Thread t ∧ (s.tcb t).cpuIndex = c
      ∧ (s'.tcb t).status = .runnable)
    (hzombie : ∀ c, t ∈ L' (.zombie c) ↔ s.Thread t ∧ (s.tcb t).cpuIndex = c
      ∧ (s'.tcb t).status = .zombie)
    (hcurrent : ∀ c < s.cpuCount, hole' ≠ some c →
      (s'.cpu c).currentThread = c ∨ (s.Thread (s'.cpu c).currentThread
        ∧ (s.tcb (s'.cpu c).currentThread).cpuIndex = c
        ∧ (s'.tcb (s'.cpu c).currentThread).status = .running))
    (hrunning : ∀ u, s.Thread u → (s'.tcb u).status = .running →
      hole' ≠ some (s.tcb u).cpuIndex
        ∧ (s'.cpu (s.tcb u).cpuIndex).currentThread = u) :
    Placed s' L' hole' where
  queues := hq
  idle := hf.idleThreads h.idle
  idleRuns := by
    intro c hc
    rw [hf.cpuCount] at hc
    by_cases hct : c = t
    · rw [hct]
      exact hidle (hct ▸ hc)
    · rw [hstatus c hct, h.idleRuns c hc]
  idleHome := hf.idleHomes h.idleHome
  home := hf.homes h.home
  stack := fun u hu => hstack u (hf.thread.mp hu)
  run := by
    intro c u
    rw [hf.thread, hf.home]
    by_cases hu : u = t
    · subst hu
      exact hrun c
    · rw [hmem _ u hu, h.run c u, hstatus u hu]
  zombie := by
    intro c u
    rw [hf.thread, hf.home]
    by_cases hu : u = t
    · subst hu
      exact hzombie c
    · rw [hmem _ u hu, h.zombie c u, hstatus u hu]
  current := by
    intro c hc hh
    rw [hf.cpuCount] at hc
    rw [hf.thread, hf.home]
    exact hcurrent c hc hh
  running := by
    intro u hu hr
    rw [hf.home]
    exact hrunning u (hf.thread.mp hu) hr

/-- Ticks and stack pointers place no thread. -/
theorem Placed.touch (h : Placed s L hole) (hf : Frame s s')
    (hq : Queues s' L) (hcpu : s'.cpu = s.cpu)
    (hstatus : ∀ u, (s'.tcb u).status = (s.tcb u).status)
    (hstack : ∀ u, s.Thread u → (s'.tcb u).rsp ≠ 0) : Placed s' L hole where
  queues := hq
  idle := by
    rw [hf.cpuCount, hcpu]
    exact h.idle
  idleRuns := by
    intro c hc
    rw [hf.cpuCount] at hc
    rw [hstatus, h.idleRuns c hc]
  idleHome := hf.idleHomes h.idleHome
  home := hf.homes h.home
  stack := fun u hu => hstack u (hf.thread.mp hu)
  run := by
    intro c u
    rw [hf.thread, hf.home, hstatus, h.run c u]
  zombie := by
    intro c u
    rw [hf.thread, hf.home, hstatus, h.zombie c u]
  current := by
    intro c hc hh
    rw [hf.cpuCount] at hc
    rw [hf.thread, hf.home, hstatus, hcpu]
    exact h.current c hc hh
  running := by
    intro u hu hr
    rw [hstatus] at hr
    rw [hf.home, hcpu]
    exact h.running u (hf.thread.mp hu) hr

-- ==== leaving the CPU

/-- The current thread of a CPU, when it is not the idle thread. -/
theorem Placed.current_thread (h : Placed s L none) (hc : c < s.cpuCount)
    (hcur : (s.cpu c).currentThread ≠ (s.cpu c).idleThread) :
    s.Thread (s.cpu c).currentThread
      ∧ (s.tcb (s.cpu c).currentThread).cpuIndex = c
      ∧ (s.tcb (s.cpu c).currentThread).status = .running := by
  rw [h.idle c hc] at hcur
  exact (h.current c hc (by simp)).resolve_left hcur

/-- A thread that is neither runnable nor a zombie is on no queue. -/
theorem Placed.not_queued (h : Placed s L hole)
    (hr : (s.tcb t).status ≠ .runnable) (hz : (s.tcb t).status ≠ .zombie)
    (q : Queue) : t ∉ L q := by
  cases q with
  | run c => exact fun ht => hr ((h.run c t).mp ht).2.2
  | zombie c => exact fun ht => hz ((h.zombie c t).mp ht).2.2

/-- Where a status other than running puts a thread of CPU `c`. -/
def destination (c : Nat) : ThreadStatus → Option Queue
  | .runnable => some (.run c)
  | .zombie => some (.zombie c)
  | _ => none

/-- A thread that is on no queue gets the status `st` and goes where that
belongs. -/
def put (s : Sched) (t : Nat) (f : Tcb → Tcb) (dest : Option Queue) : Sched :=
  match dest with
  | none => s.modTcb t f
  | some q => (s.modTcb t f).pushBack q t

/-- The lists after `put`. -/
def putList (L : Queue → List Nat) (t : Nat) (dest : Option Queue) :
    Queue → List Nat :=
  match dest with
  | none => L
  | some q => update L q (L q ++ [t])

theorem put_tcb (s : Sched) (t : Nat) (f : Tcb → Tcb) (dest : Option Queue)
    (u : Nat) :
    (s.put t f dest).tcb u = if u = t then f (s.tcb t) else s.tcb u := by
  cases dest with
  | none => exact modTcb_tcb s t f u
  | some q => exact modTcb_tcb s t f u

theorem put_cpu (s : Sched) (t : Nat) (f : Tcb → Tcb) (dest : Option Queue) :
    (s.put t f dest).cpu = s.cpu := by
  cases dest with
  | none => rfl
  | some q => rfl

theorem frame_put (s : Sched) (t : Nat) (f : Tcb → Tcb) (dest : Option Queue)
    (hc : ∀ th, (f th).cpuIndex = th.cpuIndex)
    (hp : ∀ th, (f th).parent = th.parent) : Frame s (s.put t f dest) := by
  cases dest with
  | none => exact frame_modTcb s t f hc hp
  | some q => exact (frame_modTcb s t f hc hp).trans (frame_pushBack _ q t)

theorem Queues.put (h : Queues s L) (ht : ∀ q, t ∉ L q) (hb : t < s.tcbCount)
    (f : Tcb → Tcb) (dest : Option Queue) :
    Queues (s.put t f dest) (putList L t dest) := by
  have hmod : Queues (s.modTcb t f) L := h.congr rfl rfl rfl
  cases dest with
  | none => exact hmod
  | some q => exact hmod.pushBack ht hb

theorem mem_putList {dest : Option Queue} {q : Queue} {u : Nat} :
    u ∈ putList L t dest q ↔ u ∈ L q ∨ (u = t ∧ dest = some q) := by
  cases dest with
  | none => simp [putList]
  | some q' =>
      show u ∈ update L q' (L q' ++ [t]) q ↔ _
      rw [mem_update]
      by_cases hq : q = q'
      · subst hq
        simp
      · rw [if_neg hq]
        simp [Ne.symm hq]

/-- The current thread goes: the CPU has a hole. -/
theorem Placed.retire (h : Placed s L none) (hc : c < s.cpuCount)
    (hcur : (s.cpu c).currentThread ≠ (s.cpu c).idleThread) {f : Tcb → Tcb}
    {st : ThreadStatus} (hst : ∀ th, (f th).status = st) (hne : st ≠ .running)
    (hhome : ∀ th, (f th).cpuIndex = th.cpuIndex)
    (hpar : ∀ th, (f th).parent = th.parent)
    (hrsp : ∀ th, (f th).rsp = th.rsp) :
    Frame s (s.put (s.cpu c).currentThread f (destination c st))
      ∧ Placed (s.put (s.cpu c).currentThread f (destination c st))
        (putList L (s.cpu c).currentThread (destination c st)) (some c) := by
  obtain ⟨hthread, hcpu, hrun⟩ := h.current_thread hc hcur
  generalize hcurrent : (s.cpu c).currentThread = cur at *
  have hnot := h.not_queued (t := cur) (by rw [hrun]; decide) (by rw [hrun]; decide)
  have hself : ((s.put cur f (destination c st)).tcb cur).status = st := by
    rw [put_tcb, if_pos rfl, hst]
  have hframe := frame_put s cur f (destination c st) hhome hpar
  refine ⟨hframe, h.move hframe
    (h.queues.put hnot hthread.2.1 f _) cur ?_ ?_ ?_ ?_ ?_ ?_ ?_ ?_⟩
  · intro u hu
    rw [put_tcb, if_neg hu]
  · intro hlt
    have := hthread.1
    omega
  · intro u hu
    rw [put_tcb]
    split
    case isTrue => rw [hrsp]; exact h.stack cur hthread
    case isFalse => exact h.stack u hu
  · intro q u hu
    rw [mem_putList]
    simp [hu]
  · intro c'
    rw [mem_putList, hself, hcpu]
    cases st <;> simp [hnot, destination, hthread]
  · intro c'
    rw [mem_putList, hself, hcpu]
    cases st <;> simp [hnot, destination, hthread]
  · intro c' hc' hh
    rw [put_cpu, put_tcb]
    have hcc : c' ≠ c := fun e => hh (by rw [e])
    rcases h.current c' hc' (by simp) with hcur' | hcur'
    · exact Or.inl hcur'
    · have : (s.cpu c').currentThread ≠ cur := by
        intro e
        rw [e, hcpu] at hcur'
        exact hcc hcur'.2.1.symm
      rw [if_neg this]
      exact Or.inr hcur'
  · intro u hu hr
    rw [put_tcb] at hr
    rw [put_cpu]
    split at hr
    case isTrue =>
      rw [hst] at hr
      exact (hne hr).elim
    case isFalse hne' =>
      obtain ⟨-, hu'⟩ := h.running u hu hr
      refine ⟨fun e => hne' ?_, hu'⟩
      rw [← Option.some.inj e, hcurrent] at hu'
      exact hu'.symm

-- ==== coming to the CPU

/-- With ready threads only, the next thread is the first one. -/
theorem pick_ready (hr : ∀ u ∈ L (.run c), s.ready u = true) :
    s.pick L c = (L (.run c)).head?.getD (s.cpu c).idleThread := by
  unfold pick
  cases hl : L (.run c) with
  | nil => rfl
  | cons t X =>
      rw [List.dropWhile_cons_of_neg (by simp [hr t (by simp [hl])])]

theorem afterNext_ready (hr : ∀ u ∈ L (.run c), s.ready u = true) :
    s.afterNext L c = update L (.run c) (L (.run c)).tail := by
  unfold afterNext
  cases hl : L (.run c) with
  | nil =>
      funext q
      by_cases hq : q = .zombie c
      · simp [hq]
      · simp [hq]
  | cons t X =>
      have ht : s.ready t = true := hr t (by simp [hl])
      funext q
      by_cases hq : q = .zombie c
      · simp [hq, ht]
      · simp [hq, ht]

theorem Placed.ready (h : Placed s L hole) {u : Nat} (hu : u ∈ L (.run c)) :
    s.ready u = true := by
  obtain ⟨hthread, -, hst⟩ := (h.run c u).mp hu
  simp [Sched.ready, hst, h.stack u hthread]

/-- The thread that comes: queued, or the idle thread. -/
def resume (s : Sched) (c next : Nat) : Sched :=
  (s.setStatus next .running).setCurrent c next

theorem setStatus_tcb (s : Sched) (t : Nat) (st : ThreadStatus) (u : Nat) :
    (s.setStatus t st).tcb u = if u = t then { s.tcb t with
      status := st, ticksLeft := SCHED_QUANTUM_TICKS } else s.tcb u := by
  unfold setStatus
  rw [modTcb_tcb]

theorem frame_setStatus (s : Sched) (t : Nat) (st : ThreadStatus) :
    Frame s (s.setStatus t st) :=
  frame_modTcb s t _ (fun _ => rfl) fun _ => rfl

theorem resume_tcb (s : Sched) (c next u : Nat) :
    (s.resume c next).tcb u = if u = next then { s.tcb next with
      status := .running, ticksLeft := SCHED_QUANTUM_TICKS } else s.tcb u :=
  setStatus_tcb s next .running u

theorem resume_current (s : Sched) (c next c' : Nat) :
    ((s.resume c next).cpu c').currentThread
      = if c' = c then next else (s.cpu c').currentThread :=
  setCurrent_current _ c next c'

theorem frame_resume (s : Sched) (c next : Nat) : Frame s (s.resume c next) :=
  (frame_setStatus s next .running).trans (frame_setCurrent _ c next)

/-- The first thread of the run queue, or else the idle thread. -/
def first (L : Queue → List Nat) (c : Nat) : Nat := (L (.run c)).head?.getD c

theorem first_cases (L : Queue → List Nat) (c : Nat) :
    first L c = c ∨ first L c ∈ L (.run c) := by
  unfold first
  cases L (.run c) with
  | nil => exact Or.inl rfl
  | cons t X => exact Or.inr List.mem_cons_self

/-- The first thread leaves the run queue, and the others stay. -/
theorem mem_tail_iff {u : Nat} (hu : u ≠ first L c) :
    u ∈ (L (.run c)).tail ↔ u ∈ L (.run c) := by
  unfold first at hu
  cases hl : L (.run c) with
  | nil => exact Iff.rfl
  | cons t X =>
      rw [hl] at hu
      exact (List.mem_cons.trans (or_iff_right hu)).symm

theorem Queues.first_gone (h : Queues s L) (c : Nat) : first L c ∉ (L (.run c)).tail := by
  have hnd := h.nodup (.run c)
  unfold first
  cases hl : L (.run c) with
  | nil => exact List.not_mem_nil
  | cons t X =>
      rw [hl] at hnd
      exact (List.nodup_cons.mp hnd).1

/-- `sched_next_thread` when every queued thread is ready. -/
theorem Queues.next_ready (h : Queues s L) (hidle : (s.cpu c).idleThread = c)
    (hown : c ∉ L (.run c)) (hready : ∀ u ∈ L (.run c), s.ready u = true) :
    ∃ m rq, s.schedNextThread c (s.tcbCount + 1) = some (s.withQueues m rq, first L c)
      ∧ Queues (s.withQueues m rq) (update L (.run c) (L (.run c)).tail) := by
  obtain ⟨m, rq, hnext, hq⟩ := h.schedNextThread
    (fun u hu e => hown (by rwa [e, hidle] at hu))
    (Nat.lt_succ_of_le (h.length_le (.run c)))
  rw [pick_ready hready, hidle] at hnext
  rw [afterNext_ready hready] at hq
  exact ⟨m, rq, hnext, hq⟩

/-- The next thread comes: the hole is filled. -/
theorem Placed.fill (h : Placed s L (some c)) (hc : c < s.cpuCount) :
    ∃ m rq L', s.schedNextThread c (s.tcbCount + 1)
        = some (s.withQueues m rq, first L c)
      ∧ Placed ((s.withQueues m rq).resume c (first L c)) L' none := by
  have hown : c ∉ L (.run c) := fun hmem => by
    have := ((h.run c c).mp hmem).1.1
    omega
  obtain ⟨m, rq, hnext, hq⟩ := h.queues.next_ready (h.idle c hc) hown fun u => h.ready
  have hpick := first_cases L c
  have htail := fun u => @mem_tail_iff L c u
  have hgone := h.queues.first_gone c
  generalize first L c = next at hnext hpick htail hgone ⊢
  -- the next thread is on no list any more
  have hnot : ∀ q, next ∉ update L (.run c) (L (.run c)).tail q := by
    intro q hmem
    rw [mem_update] at hmem
    split at hmem
    case isTrue => exact hgone hmem
    case isFalse hne =>
      rcases hpick with hp | hp
      · have hthread : s.Thread next := by
          cases q with
          | run c' => exact ((h.run c' next).mp hmem).1
          | zombie c' => exact ((h.zombie c' next).mp hmem).1
        have := hthread.1
        omega
      · exact hne (h.queues.apart q _ next hmem hp)
  have hself : (((s.withQueues m rq).resume c next).tcb next).status
      = .running := by
    rw [resume_tcb, if_pos rfl]
  have hstat : ∀ u, u ≠ next → (((s.withQueues m rq).resume c next).tcb u)
      = s.tcb u := by
    intro u hu
    rw [resume_tcb, if_neg hu]
    rfl
  refine ⟨m, rq, update L (.run c) (L (.run c)).tail, hnext, ?_⟩
  refine h.move ((frame_withQueues s m rq).trans (frame_resume _ c next))
    (hq.congr rfl rfl rfl) next ?_ ?_ ?_ ?_ ?_ ?_ ?_ ?_
  · intro u hu
    rw [hstat u hu]
  · exact fun _ => hself
  · intro u hu
    rw [resume_tcb]
    split
    case isTrue hun =>
      subst hun
      exact h.stack u hu
    case isFalse => exact h.stack u hu
  · intro q u hu
    rw [mem_update]
    split
    case isTrue hq' => rw [hq', htail u hu]
    case isFalse => rfl
  · intro c'
    rw [hself]
    exact ⟨fun hm => (hnot _ hm).elim, fun e => by cases e.2.2⟩
  · intro c'
    rw [hself]
    exact ⟨fun hm => (hnot _ hm).elim, fun e => by cases e.2.2⟩
  · intro c' hc' _
    rw [resume_current]
    by_cases hcc : c' = c
    · subst hcc
      rw [if_pos rfl]
      refine hpick.imp_right fun hp => ?_
      obtain ⟨hthread, hhome, -⟩ := (h.run c' next).mp hp
      exact ⟨hthread, hhome, hself⟩
    · rw [if_neg hcc]
      have hcur := h.current c' hc' fun e => hcc (Option.some.inj e).symm
      show (s.cpu c').currentThread = c' ∨ _
      refine hcur.imp_right fun hcur => ⟨hcur.1, hcur.2.1, ?_⟩
      show (((s.withQueues m rq).resume c next).tcb
        (s.cpu c').currentThread).status = .running
      by_cases hn : (s.cpu c').currentThread = next
      · rw [hn]
        exact hself
      · rw [hstat _ hn]
        exact hcur.2.2
  · intro u hu hr
    refine ⟨by simp, ?_⟩
    rw [resume_current]
    by_cases hun : u = next
    · rcases hpick with hp | hp
      · have := hu.1
        omega
      · rw [hun, if_pos ((h.run c next).mp hp).2.1]
    · rw [hstat u hun] at hr
      obtain ⟨hh, hcur⟩ := h.running u hu hr
      rw [if_neg fun e => hh (by rw [e])]
      exact hcur

/-- An idle CPU has a hole: nothing of it is running. -/
theorem Placed.open_idle (h : Placed s L none) (hc : c < s.cpuCount)
    (hcur : (s.cpu c).currentThread = (s.cpu c).idleThread) :
    Placed s L (some c) := by
  refine ⟨h.queues, h.idle, h.idleRuns, h.idleHome, h.home, h.stack, h.run,
    h.zombie, fun c' hc' _ => h.current c' hc' (by simp), fun t ht hr => ?_⟩
  obtain ⟨-, ht'⟩ := h.running t ht hr
  refine ⟨fun e => ?_, ht'⟩
  rw [← Option.some.inj e, hcur, h.idle c hc] at ht'
  have := ht.1
  omega

/-- Resuming the thread that is current anyway only sets its status. -/
theorem resume_self {cur : Nat} (h : (s.cpu c).currentThread = cur) :
    s.resume c cur = s.setStatus cur .running := by
  have hsame : ({ s.cpu c with currentThread := cur } : CpuInfo) = s.cpu c := by
    rw [← h]
  have hcpu : update s.cpu c { s.cpu c with currentThread := cur } = s.cpu := by
    rw [hsame, Function.update_eq_self]
  show ({ s.setStatus cur .running with
    cpu := update s.cpu c { s.cpu c with currentThread := cur } } : Sched) = _
  rw [hcpu]
  rfl

/-- `context_switch` saves a stack pointer. -/
theorem Placed.contextSwitch (h : Placed s L none) {sp : Nat} (hsp : sp ≠ 0)
    (prev : Nat) : Placed (s.contextSwitch prev sp) L none := by
  refine h.touch (frame_modTcb s prev _ (fun _ => rfl) fun _ => rfl)
    (h.queues.congr rfl rfl rfl) rfl (fun u => ?_) fun u hu => ?_
  · unfold Sched.contextSwitch
    rw [modTcb_tcb]
    split
    case isTrue hu => rw [hu]
    case isFalse => rfl
  · unfold Sched.contextSwitch
    rw [modTcb_tcb]
    split
    case isTrue => exact hsp
    case isFalse => exact h.stack u hu

theorem frame_contextSwitch (s : Sched) (prev sp : Nat) :
    Frame s (s.contextSwitch prev sp) :=
  frame_modTcb s prev _ (fun _ => rfl) fun _ => rfl

-- ==== zombies

/-- The zombies of `s'` are those of `s` and the threads of `D`. -/
def Dies (s s' : Sched) (D : List Nat) : Prop :=
  ∀ t, s.Thread t → ((s'.tcb t).status = .zombie
    ↔ (s.tcb t).status = .zombie ∨ t ∈ D)

theorem dies_of_status
    (h : ∀ t, s.Thread t → (s'.tcb t).status = (s.tcb t).status) :
    Dies s s' [] := by
  intro t ht
  rw [h t ht]
  simp

theorem Dies.trans {D : List Nat} (h₁ : Dies s₁ s₂ D) (hf : Frame s₁ s₂)
    (h₂ : Dies s₂ s₃ []) : Dies s₁ s₃ D := by
  intro t ht
  rw [h₂ t (hf.thread.mpr ht), h₁ t ht]
  simp

/-- A thread that is put away dies if its status says so. -/
theorem dies_put {f : Tcb → Tcb} (st : ThreadStatus) {D : List Nat}
    (hst : ∀ th, (f th).status = st) (hz : (s.tcb t).status ≠ .zombie)
    (hD : ∀ u, u ∈ D ↔ u = t ∧ st = .zombie) (dest : Option Queue) :
    Dies s (s.put t f dest) D := by
  intro u _
  rw [put_tcb, hD]
  split
  case isTrue hu =>
    subst hu
    simp [hst, hz]
  case isFalse hu => simp [hu]

/-- The thread that comes was not a zombie. -/
theorem Placed.dies_resume (h : Placed s L hole) (hc : c < s.cpuCount)
    {next : Nat} (hpick : next = c ∨ next ∈ L (.run c))
    (m : RqNodes Nat Nat) (rq : Queue → Rq Nat) :
    Dies s ((s.withQueues m rq).resume c next) [] := by
  intro u hu
  rw [resume_tcb]
  split
  case isTrue hun =>
    subst hun
    have hnot : (s.tcb u).status ≠ .zombie := by
      rcases hpick with e | e
      · have := hu.1
        omega
      · rw [((h.run c u).mp e).2.2]
        decide
    simp [hnot]
  case isFalse =>
    show (s.tcb u).status = _ ↔ _
    simp

theorem dies_contextSwitch (s : Sched) (prev sp : Nat) :
    Dies s (s.contextSwitch prev sp) [] := by
  refine dies_of_status fun t _ => ?_
  unfold contextSwitch
  rw [modTcb_tcb]
  split
  case isTrue ht => rw [ht]
  case isFalse => rfl

/-- `sched_run_next_locked`, after the current thread was put away. -/
theorem Placed.runNext (h : Placed s L (some c)) (hc : c < s.cpuCount)
    {cur sp : Nat} (hsp : sp ≠ 0) (hcur : (s.cpu c).currentThread = cur) :
    ∃ s' L', s.schedRunNextLocked c cur sp = some s' ∧ Frame s s'
      ∧ Placed s' L' none ∧ Dies s s' []
      ∧ (s'.cpu c).currentThread = first L c := by
  obtain ⟨m, rq, L', hnext, hp⟩ := h.fill hc
  have hpick := first_cases L c
  generalize first L c = next at hnext hp hpick ⊢
  have hnew : (((s.withQueues m rq).resume c next).cpu c).currentThread
      = next := by
    rw [resume_current, if_pos rfl]
  have hf : Frame s ((s.withQueues m rq).resume c next) :=
    (frame_withQueues s m rq).trans (frame_resume _ c next)
  have hd := h.dies_resume hc hpick m rq
  unfold schedRunNextLocked
  rw [hnext]
  by_cases hn : next = cur
  · subst hn
    refine ⟨(s.withQueues m rq).resume c next, L', ?_, hf, hp, hd, hnew⟩
    rw [resume_self (s := s.withQueues m rq) hcur]
    simp
  · refine ⟨((s.withQueues m rq).resume c next).contextSwitch cur sp, L', ?_,
      hf.trans (frame_contextSwitch _ cur sp), hp.contextSwitch hsp cur,
      hd.trans hf (dies_contextSwitch _ cur sp), hnew⟩
    simp [hn, resume]

-- ==== the operations

theorem Placed.yield (h : Placed s L none) (hc : c < s.cpuCount) {sp : Nat}
    (hsp : sp ≠ 0) : ∃ s' L', s.schedYield c sp = some s' ∧ Frame s s'
      ∧ Placed s' L' none ∧ Dies s s' [] := by
  unfold schedYield
  simp only
  by_cases hcur : (s.cpu c).currentThread = (s.cpu c).idleThread
  · rw [if_neg fun e => e.1 hcur]
    obtain ⟨s', L', hs', hf, hp, hd, -⟩ :=
      (h.open_idle hc hcur).runNext hc hsp rfl
    exact ⟨s', L', hs', hf, hp, hd⟩
  · obtain ⟨-, -, hrun⟩ := h.current_thread hc hcur
    rw [if_pos ⟨hcur, by rw [hrun]; decide⟩]
    obtain ⟨hfr, hput⟩ := h.retire hc hcur (f := fun th => { th with
      status := .runnable, ticksLeft := SCHED_QUANTUM_TICKS })
      (fun _ => rfl) (by decide) (fun _ => rfl) (fun _ => rfl) fun _ => rfl
    obtain ⟨s', L', hs', hf, hp, hd, -⟩ := hput.runNext hc hsp rfl
    exact ⟨s', L', hs', hfr.trans hf, hp, (dies_put .runnable (fun _ => rfl)
      (by rw [hrun]; decide) (by simp) _).trans hfr hd⟩

theorem Placed.blockCurrent (h : Placed s L none) (hc : c < s.cpuCount)
    {sp : Nat} (hsp : sp ≠ 0) : ∃ s' L', s.threadBlockCurrent c sp = some s'
      ∧ Frame s s' ∧ Placed s' L' none ∧ Dies s s' [] := by
  unfold threadBlockCurrent
  by_cases hcur : (s.cpu c).currentThread = (s.cpu c).idleThread
  · rw [if_pos hcur]
    exact ⟨s, L, rfl, Frame.refl s, h, dies_of_status fun _ _ => rfl⟩
  · rw [if_neg hcur]
    obtain ⟨-, -, hrun⟩ := h.current_thread hc hcur
    obtain ⟨hfr, hput⟩ := h.retire hc hcur
      (f := fun th => { th with status := .blocked }) (fun _ => rfl)
      (by decide) (fun _ => rfl) (fun _ => rfl) fun _ => rfl
    change Placed (s.modTcb (s.cpu c).currentThread fun th =>
      { th with status := .blocked }) L (some c) at hput
    obtain ⟨m, rq, hrem, hq⟩ :=
      hput.queues.removeIfQueued (.run c) (s.cpu c).currentThread
    -- a running thread is on no queue, so there is nothing to remove
    have hnot := h.not_queued (t := (s.cpu c).currentThread)
      (by rw [hrun]; decide) (by rw [hrun]; decide)
    rw [List.erase_of_not_mem (hnot _), Function.update_eq_self] at hq
    have hput' := hput.touch (frame_withQueues _ m rq) hq rfl (fun _ => rfl)
      hput.stack
    obtain ⟨s', L', hs', hf, hp, hd, -⟩ := hput'.runNext hc hsp rfl
    simp only [hrem]
    have hd' := dies_put (s := s) (t := (s.cpu c).currentThread) (D := [])
      (f := fun th => { th with status := .blocked }) .blocked (fun _ => rfl)
      (by rw [hrun]; decide) (by simp) none
    exact ⟨s', L', hs', (hfr.trans (frame_withQueues _ m rq)).trans hf, hp,
      Dies.trans hd' hfr hd⟩

/-- A wake puts a blocked thread on its run queue. -/
theorem Placed.wake (h : Placed s L none) (ht : s.Live t) :
    ∃ s' L', s.threadWake t = some s' ∧ Frame s s' ∧ Placed s' L' none
      ∧ Dies s s' [] := by
  unfold threadWake
  by_cases hidle : t < s.cpuCount
  · have hcpu := h.idleHome t hidle
    rw [if_pos (Or.inr (by rw [hcpu, h.idle t hidle]))]
    exact ⟨s, L, rfl, Frame.refl s, h, dies_of_status fun _ _ => rfl⟩
  have hthread : s.Thread t := ⟨by omega, ht⟩
  have hhome := h.home t hthread
  rw [if_neg]
  · by_cases hb : (s.tcb t).status = .blocked
    · have hnot := h.not_queued (t := t) (by rw [hb]; decide) (by rw [hb]; decide)
      have hq : Queues (s.setStatus t .runnable) L := h.queues.congr rfl rfl rfl
      have hframe : Frame s ((s.setStatus t .runnable).pushBack
          (.run (s.tcb t).cpuIndex) t) :=
        (frame_setStatus s t .runnable).trans (frame_pushBack _ _ t)
      simp only [if_pos hb, hq.find, if_neg (hnot _)]
      refine ⟨_, putList L t (some (.run (s.tcb t).cpuIndex)), rfl, hframe, ?_,
        dies_put (f := fun th => { th with
          status := .runnable, ticksLeft := SCHED_QUANTUM_TICKS }) .runnable
          (fun _ => rfl) (by rw [hb]; decide) (by simp)
          (some (.run (s.tcb t).cpuIndex))⟩
      have hself : ((s.setStatus t .runnable).tcb t).status = .runnable := by
        rw [setStatus_tcb, if_pos rfl]
      have hother : ∀ u, u ≠ t → (s.setStatus t .runnable).tcb u = s.tcb u := by
        intro u hu
        rw [setStatus_tcb, if_neg hu]
      refine h.move hframe (hq.pushBack hnot ht.1) t ?_ ?_ ?_ ?_ ?_ ?_ ?_ ?_
      · intro u hu
        exact congrArg Tcb.status (hother u hu)
      · intro hlt
        omega
      · intro u hu
        show ((s.setStatus t .runnable).tcb u).rsp ≠ 0
        rw [setStatus_tcb]
        split
        case isTrue => exact h.stack t hthread
        case isFalse => exact h.stack u hu
      · intro q u hu
        rw [mem_putList]
        simp [hu]
      · intro c'
        rw [mem_putList]
        show _ ↔ s.Thread t ∧ _ ∧ ((s.setStatus t .runnable).tcb t).status = _
        rw [hself]
        simp [hnot, hthread]
      · intro c'
        rw [mem_putList]
        show _ ↔ s.Thread t ∧ _ ∧ ((s.setStatus t .runnable).tcb t).status = _
        rw [hself]
        simp [hnot]
      · intro c' hc' hh
        refine (h.current c' hc' hh).imp_right fun hcur => ?_
        have hne : (s.cpu c').currentThread ≠ t := by
          intro e
          rw [e, hb] at hcur
          cases hcur.2.2
        refine ⟨hcur.1, hcur.2.1, ?_⟩
        show ((s.setStatus t .runnable).tcb (s.cpu c').currentThread).status = _
        rw [hother _ hne]
        exact hcur.2.2
      · intro u hu hr
        have hne : u ≠ t := by
          intro e
          rw [e] at hr
          have := hself.symm.trans hr
          cases this
        have hr' : (s.tcb u).status = .running :=
          (congrArg Tcb.status (hother u hne)).symm.trans hr
        exact h.running u hu hr'
    · rw [if_neg hb]
      exact ⟨s, L, rfl, Frame.refl s, h, dies_of_status fun _ _ => rfl⟩
  · intro e
    rcases e with e | e
    · omega
    · rw [h.idle _ hhome] at e
      have := hthread.1
      omega

/-- A thread that moves to a zombie queue is not the one picked next. -/
theorem first_zombie_ne {d : Nat} (hne : t ≠ c) (hnot : t ∉ L (.run c)) :
    first (putList L t (destination d .zombie)) c ≠ t := by
  intro e
  rcases first_cases (putList L t (destination d .zombie)) c with e' | hmem
  · exact hne (e.symm.trans e')
  · rw [e, mem_putList] at hmem
    rcases hmem with hmem | hmem
    · exact hnot hmem
    · cases hmem.2

/-- `sched_exit`, from the thread that is picked next. -/
theorem schedExit_eq {next : Nat} (hcur : (s.cpu c).currentThread ≠ (s.cpu c).idleThread)
    (hnext : (s.put (s.cpu c).currentThread (fun th => { th with status := .zombie })
        (destination c .zombie)).schedNextThread c (s.tcbCount + 1) = some (s', next))
    (hne : next ≠ (s.cpu c).currentThread) (sp : Nat) :
    s.schedExit c sp = some ((s'.resume c next).contextSwitch
      (s.cpu c).currentThread sp) := by
  have hz : s.schedQueueZombieLocked c (s.cpu c).currentThread
      = s.put (s.cpu c).currentThread (fun th => { th with status := .zombie })
        (destination c .zombie) := by
    unfold schedQueueZombieLocked
    rw [if_neg hcur]
    rfl
  unfold schedExit
  rw [if_neg hcur]
  simp only [hz]
  rw [show (s.put (s.cpu c).currentThread (fun th => { th with
    status := .zombie }) (destination c .zombie)).tcbCount = s.tcbCount from rfl, hnext]
  simp only [if_neg hne]
  rfl

/-- `sched_exit` of a thread that is not the idle thread. -/
theorem Placed.exit (h : Placed s L none) (hc : c < s.cpuCount) {sp : Nat}
    (hsp : sp ≠ 0) (hcur : (s.cpu c).currentThread ≠ (s.cpu c).idleThread) :
    ∃ s' L', s.schedExit c sp = some s' ∧ Frame s s' ∧ Placed s' L' none
      ∧ Dies s s' [(s.cpu c).currentThread] := by
  obtain ⟨hthread, -, hrun⟩ := h.current_thread hc hcur
  obtain ⟨hfr, hput⟩ := h.retire hc hcur
    (f := fun th => { th with status := .zombie }) (fun _ => rfl)
    (by decide) (fun _ => rfl) (fun _ => rfl) fun _ => rfl
  obtain ⟨m, rq, L', hnext, hp⟩ := hput.fill hc
  have hpick := first_cases (putList L (s.cpu c).currentThread
    (destination c .zombie)) c
  -- the next thread is another one: this one is on the zombie queue only
  have hown : (s.cpu c).currentThread ≠ c := by
    have := hthread.1
    omega
  have hne := first_zombie_ne (d := c) hown
    (h.not_queued (by rw [hrun]; decide) (by rw [hrun]; decide) (.run c))
  generalize first (putList L (s.cpu c).currentThread
    (destination c .zombie)) c = next at hnext hp hpick hne
  have hfr' := (hfr.trans (frame_withQueues _ m rq)).trans
    (frame_resume _ c next)
  have hd := (dies_put (D := [(s.cpu c).currentThread]) .zombie (fun _ => rfl)
    (by rw [hrun]; decide) (by simp) _).trans hfr
    (hput.dies_resume hc hpick m rq)
  exact ⟨_, L', schedExit_eq hcur hnext hne sp, hfr'.trans (frame_contextSwitch _ _ sp),
    hp.contextSwitch hsp _, hd.trans hfr' (dies_contextSwitch _ _ sp)⟩

end Alix.Sched
