/-
The queues when `thread_block` is called on a thread of another CPU.

`thread_block` may stop the thread that another CPU is running, and
`thread_wake` then queues it there while it still runs. From there on the
status of a thread no longer says where it is, and what is left of the
placement invariant is `Linked`: a queued thread is runnable, belongs to
the CPU of its queue, and a zombie is not the current thread.

`Linked` is enough for every push but three. `sched_yield` and
`sched_exit` push the current thread without asking whether it is queued,
and `thread_wake` asks the run queue but not the zombie queue. `Guarded`
says that no call is made where one of these three would push a node that
is linked already; in a run of guarded calls the queues stay lists
(`reachable_queues`), and without the guard they do not
(`yield_breaks_queue`).
-/
import Alix.Sys.Proofs.SchedRun

namespace Alix.Sched

open Function (update update_self update_of_ne)

variable {s s' s₁ : Sched} {L L' : Queue → List Nat}
  {hole hole' : Option Nat} {c t : Nat} {gone : List Nat} {k : Call}

-- ==== the statement

/-- Every queue is a doubly linked list of its length, no node is on it
twice and no node is on two queues. -/
def QueuesOk (s : Sched) : Prop :=
  ∃ L : Queue → List Nat, (∀ q, Rep s.nodes (s.queue q) (L q))
    ∧ ∀ q q' t, t ∈ L q → t ∈ L q' → q = q'

/-- `rq_contains(queue, thread)`. -/
def contains (s : Sched) (q : Queue) (t : Nat) : Bool :=
  (s.find q t).any Option.isSome

/-- The current thread does not yield or exit while it is on its run
queue, and no blocked thread is woken from the zombie queue. -/
def Guarded (s : Sched) : Call → Prop
  | .yield c _ => s.contains (.run c) (s.cpu c).currentThread = false
  | .exit c _ => s.contains (.run c) (s.cpu c).currentThread = false
  | .wake t => (s.tcb t).status = .blocked →
      s.contains (.zombie (s.tcb t).cpuIndex) t = false
  | _ => True

theorem Queues.contains (h : Queues s L) {q : Queue} :
    s.contains q t = false ↔ t ∉ L q := by
  unfold Sched.contains
  rw [h.find]
  by_cases ht : t ∈ L q
  · simp [ht]
  · simp [ht]

-- ==== the invariant

/-- Who may be queued where. The current thread of CPU `c` may be a
zombie if `hole = some c`: it is about to be replaced. -/
structure Linked (s : Sched) (L : Queue → List Nat) (hole : Option Nat) :
    Prop where
  queues : Queues s L
  idle : ∀ c < s.cpuCount, (s.cpu c).idleThread = c
  idleHome : ∀ c < s.cpuCount, (s.tcb c).cpuIndex = c
  home : ∀ t, s.Thread t → (s.tcb t).cpuIndex < s.cpuCount
  stack : ∀ t, s.Thread t → (s.tcb t).rsp ≠ 0
  run : ∀ c, ∀ t ∈ L (.run c), s.Thread t ∧ (s.tcb t).cpuIndex = c
    ∧ (s.tcb t).status = .runnable
  zombie : ∀ c, ∀ t ∈ L (.zombie c), s.Thread t ∧ (s.tcb t).cpuIndex = c
    ∧ (hole ≠ some c → (s.cpu c).currentThread ≠ t)
  current : ∀ c < s.cpuCount, (s.cpu c).currentThread = c
    ∨ (s.Thread (s.cpu c).currentThread
      ∧ (s.tcb (s.cpu c).currentThread).cpuIndex = c)

/-- A step that creates and frees nothing is judged by where it puts
threads. -/
theorem Linked.step (h : Linked s L hole) (hf : Frame s s')
    (hq : Queues s' L') (hstack : ∀ u, s.Thread u → (s'.tcb u).rsp ≠ 0)
    (hrun : ∀ c, ∀ u ∈ L' (.run c), s.Thread u ∧ (s.tcb u).cpuIndex = c
      ∧ (s'.tcb u).status = .runnable)
    (hzombie : ∀ c, ∀ u ∈ L' (.zombie c), s.Thread u
      ∧ (s.tcb u).cpuIndex = c
      ∧ (hole' ≠ some c → (s'.cpu c).currentThread ≠ u))
    (hcurrent : ∀ c < s.cpuCount, (s'.cpu c).currentThread = c
      ∨ (s.Thread (s'.cpu c).currentThread
        ∧ (s.tcb (s'.cpu c).currentThread).cpuIndex = c)) :
    Linked s' L' hole' where
  queues := hq
  idle := hf.idleThreads h.idle
  idleHome := hf.idleHomes h.idleHome
  home := hf.homes h.home
  stack := fun u hu => hstack u (hf.thread.mp hu)
  run := by
    intro c u hu
    rw [hf.thread, hf.home]
    exact hrun c u hu
  zombie := by
    intro c u hu
    rw [hf.thread, hf.home]
    exact hzombie c u hu
  current := by
    intro c hc
    rw [hf.cpuCount] at hc
    rw [hf.thread, hf.home]
    exact hcurrent c hc

/-- Changes to threads that are not queued, and none of the status or
the stack pointer of one that is. -/
theorem Linked.touch (h : Linked s L hole) (f : Tcb → Tcb)
    (hhome : ∀ th, (f th).cpuIndex = th.cpuIndex)
    (hpar : ∀ th, (f th).parent = th.parent)
    (hstack : ∀ th, th.rsp ≠ 0 → (f th).rsp ≠ 0)
    (hst : (∀ th, (f th).status = th.status) ∨ ∀ c, t ∉ L (.run c)) :
    Linked (s.modTcb t f) L hole := by
  refine h.step (frame_modTcb s t f hhome hpar) (h.queues.congr rfl rfl rfl)
    (fun u hu => ?_) (fun c u hu => ?_) h.zombie h.current
  · rw [modTcb_tcb]
    split
    case isTrue hut => exact hstack _ (by rw [← hut]; exact h.stack u hu)
    case isFalse => exact h.stack u hu
  · obtain ⟨hthread, hcpu, hr⟩ := h.run c u hu
    refine ⟨hthread, hcpu, ?_⟩
    rw [modTcb_tcb]
    split
    case isTrue hut =>
      rcases hst with hst | hst
      · rw [hst, ← hut]
        exact hr
      · exact (hst c (by rw [← hut]; exact hu)).elim
    case isFalse => exact hr

theorem Linked.ready (h : Linked s L hole) {u : Nat} (hu : u ∈ L (.run c)) :
    s.ready u = true := by
  obtain ⟨hthread, -, hst⟩ := h.run c u hu
  simp [Sched.ready, hst, h.stack u hthread]

/-- A thread that is on none of the queues of its CPU is on no queue. -/
theorem Linked.not_queued (h : Linked s L hole)
    (hr : t ∉ L (.run (s.tcb t).cpuIndex))
    (hz : t ∉ L (.zombie (s.tcb t).cpuIndex)) (q : Queue) : t ∉ L q := by
  cases q with
  | run c =>
      intro ht
      have hc := (h.run c t ht).2.1
      rw [hc] at hr
      exact hr ht
  | zombie c =>
      intro ht
      have hc := (h.zombie c t ht).2.1
      rw [hc] at hz
      exact hz ht

theorem Linked.current_thread (h : Linked s L hole) (hc : c < s.cpuCount)
    (hcur : (s.cpu c).currentThread ≠ (s.cpu c).idleThread) :
    s.Thread (s.cpu c).currentThread
      ∧ (s.tcb (s.cpu c).currentThread).cpuIndex = c := by
  rw [h.idle c hc] at hcur
  exact (h.current c hc).resolve_left hcur

-- ==== switching

/-- The current thread is queued; it was on no queue. -/
theorem Linked.retire (h : Linked s L none) (hc : c < s.cpuCount)
    (hcur : (s.cpu c).currentThread ≠ (s.cpu c).idleThread)
    (hnot : (s.cpu c).currentThread ∉ L (.run c)) {f : Tcb → Tcb}
    {st : ThreadStatus} (hst : ∀ th, (f th).status = st)
    (hhome : ∀ th, (f th).cpuIndex = th.cpuIndex)
    (hpar : ∀ th, (f th).parent = th.parent)
    (hrsp : ∀ th, (f th).rsp = th.rsp) :
    Linked (s.put (s.cpu c).currentThread f (destination c st))
      (putList L (s.cpu c).currentThread (destination c st)) (some c) := by
  obtain ⟨hthread, hcpu⟩ := h.current_thread hc hcur
  have hzom : (s.cpu c).currentThread ∉ L (.zombie c) := fun e =>
    (h.zombie c _ e).2.2 (by simp) rfl
  have hnone := h.not_queued (t := (s.cpu c).currentThread)
    (by rw [hcpu]; exact hnot) (by rw [hcpu]; exact hzom)
  generalize hcurrent : (s.cpu c).currentThread = cur at *
  refine h.step (frame_put s cur f _ hhome hpar)
    (h.queues.put hnone hthread.2.1 f _) (fun u hu => ?_) (fun c' u hu => ?_)
    (fun c' u hu => ?_) (by rw [put_cpu]; exact h.current)
  · rw [put_tcb]
    split
    case isTrue => rw [hrsp]; exact h.stack cur hthread
    case isFalse => exact h.stack u hu
  · rw [mem_putList] at hu
    rw [put_tcb]
    rcases hu with hu | ⟨hu, hd⟩
    · have hne : u ≠ cur := fun e => hnone _ (by rw [← e]; exact hu)
      rw [if_neg hne]
      exact h.run c' u hu
    · -- only the status runnable leads to a run queue
      have hc' : c' = c ∧ st = .runnable := by
        cases st <;> simp [destination] at hd
        exact ⟨hd.symm, rfl⟩
      rw [if_pos hu, hst, hu, hc'.1]
      exact ⟨hthread, hcpu, hc'.2⟩
  · rw [mem_putList] at hu
    rw [put_cpu]
    rcases hu with hu | ⟨hu, hd⟩
    · obtain ⟨hu', hcpu', hne⟩ := h.zombie c' u hu
      exact ⟨hu', hcpu', fun _ => hne (by simp)⟩
    · have hc' : c' = c := by
        cases st <;> simp [destination] at hd
        exact hd.symm
      rw [hu, hc']
      exact ⟨hthread, hcpu, fun e => (e rfl).elim⟩

/-- The next thread comes. -/
theorem Linked.fill (h : Linked s L hole) (hc : c < s.cpuCount)
    (hhole : ∀ c' < s.cpuCount, c' ≠ c → hole ≠ some c') :
    ∃ m rq, s.schedNextThread c (s.tcbCount + 1)
        = some (s.withQueues m rq, first L c)
      ∧ Linked ((s.withQueues m rq).resume c (first L c))
        (update L (.run c) (L (.run c)).tail) none := by
  have hown : c ∉ L (.run c) := fun hmem => by
    have := (h.run c c hmem).1.1
    omega
  obtain ⟨m, rq, hnext, hq⟩ := h.queues.next_ready (h.idle c hc) hown fun u => h.ready
  have hpick := first_cases L c
  -- a thread that stays queued is another one
  have hstay : ∀ c', ∀ u ∈ update L (.run c) (L (.run c)).tail (.run c'),
      u ∈ L (.run c') ∧ u ≠ first L c := by
    intro c' u hu
    rw [mem_update] at hu
    split at hu
    case isTrue hcc =>
      rw [hcc]
      refine ⟨List.mem_of_mem_tail hu, ?_⟩
      rintro rfl
      exact h.queues.first_gone c hu
    case isFalse hcc =>
      refine ⟨hu, ?_⟩
      rintro rfl
      rcases hpick with e | e
      · have := (h.run c' _ hu).1.1
        omega
      · exact hcc (h.queues.apart _ _ _ hu e)
  refine ⟨m, rq, hnext, ?_⟩
  generalize first L c = next at hpick hstay
  have hf : Frame s ((s.withQueues m rq).resume c next) :=
    (frame_withQueues s m rq).trans (frame_resume _ c next)
  have hq' : Queues ((s.withQueues m rq).resume c next)
      (update L (.run c) (L (.run c)).tail) := hq.congr rfl rfl rfl
  refine h.step hf hq' (fun u hu => ?_) (fun c' u hu => ?_)
    (fun c' u hu => ?_) fun c' hc' => ?_
  · rw [resume_tcb]
    split
    case isTrue hun => rw [← hun]; exact h.stack u hu
    case isFalse => exact h.stack u hu
  · obtain ⟨hmem, hne⟩ := hstay c' u hu
    rw [resume_tcb, if_neg hne]
    exact h.run c' u hmem
  · rw [mem_update, if_neg (by simp)] at hu
    obtain ⟨hthread, hcpu, hz⟩ := h.zombie c' u hu
    refine ⟨hthread, hcpu, fun _ => ?_⟩
    rw [resume_current]
    split
    case isTrue hcc =>
      intro e
      rcases hpick with e' | e'
      · have := hthread.1
        omega
      · rw [e] at e'
        cases h.queues.apart _ _ u hu e'
    case isFalse hcc =>
      have hlt := h.home u hthread
      rw [hcpu] at hlt
      exact hz (hhole c' hlt hcc)
  · rw [resume_current]
    split
    case isTrue hcc =>
      rw [hcc]
      refine hpick.imp_right fun e => ?_
      obtain ⟨hthread, hcpu, -⟩ := h.run c next e
      exact ⟨hthread, hcpu⟩
    case isFalse => exact h.current c' hc'

theorem Linked.contextSwitch (h : Linked s L hole) {sp : Nat} (hsp : sp ≠ 0)
    (prev : Nat) : Linked (s.contextSwitch prev sp) L hole :=
  h.touch _ (fun _ => rfl) (fun _ => rfl) (fun _ _ => hsp)
    (Or.inl fun _ => rfl)

/-- `sched_run_next_locked`. -/
theorem Linked.runNext (h : Linked s L hole) (hc : c < s.cpuCount)
    (hhole : ∀ c' < s.cpuCount, c' ≠ c → hole ≠ some c') {cur sp : Nat}
    (hsp : sp ≠ 0) (hcur : (s.cpu c).currentThread = cur) :
    ∃ s' L', s.schedRunNextLocked c cur sp = some s' ∧ Frame s s'
      ∧ Linked s' L' none := by
  obtain ⟨m, rq, hnext, hp⟩ := h.fill hc hhole
  generalize first L c = next at hnext hp
  have hf : Frame s ((s.withQueues m rq).resume c next) :=
    (frame_withQueues s m rq).trans (frame_resume _ c next)
  unfold schedRunNextLocked
  rw [hnext]
  by_cases hn : next = cur
  · subst hn
    refine ⟨(s.withQueues m rq).resume c next, _, ?_, hf, hp⟩
    rw [resume_self (s := s.withQueues m rq) hcur]
    simp
  · refine ⟨((s.withQueues m rq).resume c next).contextSwitch cur sp, _, ?_,
      hf.trans (frame_contextSwitch _ cur sp), hp.contextSwitch hsp cur⟩
    simp [hn, resume]

-- ==== the operations

/-- A current thread that is on no run queue goes to its own, and the
next one comes. -/
theorem Linked.requeue (h : Linked s L none) (hc : c < s.cpuCount) {sp : Nat}
    (hsp : sp ≠ 0)
    (hcur : (s.cpu c).currentThread ≠ (s.cpu c).idleThread)
    (hnot : (s.cpu c).currentThread ∉ L (.run c)) :
    ∃ s' L', ((s.setStatus (s.cpu c).currentThread .runnable).pushBack (.run c)
        (s.cpu c).currentThread).schedRunNextLocked c (s.cpu c).currentThread sp
          = some s' ∧ Frame s s' ∧ Linked s' L' none := by
  have hput := h.retire hc hcur hnot (f := fun th => { th with
    status := .runnable, ticksLeft := SCHED_QUANTUM_TICKS }) (fun _ => rfl)
    (fun _ => rfl) (fun _ => rfl) fun _ => rfl
  have hfr : Frame s ((s.setStatus (s.cpu c).currentThread .runnable).pushBack
      (.run c) (s.cpu c).currentThread) :=
    (frame_setStatus s _ .runnable).trans (frame_pushBack _ _ _)
  obtain ⟨s', L', hs', hf, hp⟩ := hput.runNext hc
    (fun c' _ hne e => hne (Option.some.inj e).symm) hsp rfl
  exact ⟨s', L', hs', hfr.trans hf, hp⟩

theorem Linked.yield (h : Linked s L none) (hc : c < s.cpuCount) {sp : Nat}
    (hsp : sp ≠ 0) (hnot : (s.cpu c).currentThread ∉ L (.run c)) :
    ∃ s' L', s.schedYield c sp = some s' ∧ Frame s s'
      ∧ Linked s' L' none := by
  unfold schedYield
  simp only
  split
  case isTrue hcur => exact h.requeue hc hsp hcur.1 hnot
  case isFalse => exact h.runNext hc (by simp) hsp rfl

/-- Blocking a thread takes it off its run queue. -/
theorem Linked.blocked (h : Linked s L none) (hthread : s.Thread t) :
    ∃ m rq L', (s.modTcb t fun th => { th with status := .blocked }
        ).removeIfQueued (.run (s.tcb t).cpuIndex) t
          = some ((s.modTcb t fun th =>
            { th with status := .blocked }).withQueues m rq)
      ∧ Frame s ((s.modTcb t fun th =>
          { th with status := .blocked }).withQueues m rq)
      ∧ Linked ((s.modTcb t fun th =>
          { th with status := .blocked }).withQueues m rq) L' none := by
  have hq : Queues (s.modTcb t fun th => { th with status := .blocked }) L :=
    h.queues.congr rfl rfl rfl
  have hf : Frame s (s.modTcb t fun th => { th with status := .blocked }) :=
    frame_modTcb s t _ (fun _ => rfl) fun _ => rfl
  obtain ⟨m, rq, hrem, hq'⟩ := hq.removeIfQueued (.run (s.tcb t).cpuIndex) t
  have hf' := hf.trans (frame_withQueues _ m rq)
  have htcb : ∀ u, ((s.modTcb t fun th =>
      { th with status := .blocked }).withQueues m rq).tcb u
      = if u = t then { s.tcb t with status := .blocked } else s.tcb u :=
    modTcb_tcb s t fun th => { th with status := .blocked }
  refine ⟨m, rq, _, hrem, hf', h.step hf' hq' (fun u hu => ?_)
    (fun c u hu => ?_) (fun c u hu => ?_) h.current⟩
  · rw [htcb]
    split
    case isTrue => exact h.stack t hthread
    case isFalse => exact h.stack u hu
  · rw [mem_update] at hu
    have hmem : u ∈ L (.run c) ∧ u ≠ t := by
      split at hu
      case isTrue hcc =>
        rw [hcc]
        exact (List.Nodup.mem_erase_iff (h.queues.nodup _)).mp hu |>.symm
      case isFalse hcc =>
        refine ⟨hu, fun e => hcc ?_⟩
        rw [← e, (h.run c u hu).2.1]
    rw [htcb, if_neg hmem.2]
    exact h.run c u hmem.1
  · rw [mem_update, if_neg (by simp)] at hu
    exact h.zombie c u hu

theorem Linked.blockCurrent (h : Linked s L none) (hc : c < s.cpuCount)
    {sp : Nat} (hsp : sp ≠ 0) : ∃ s' L', s.threadBlockCurrent c sp = some s'
      ∧ Frame s s' ∧ Linked s' L' none := by
  unfold threadBlockCurrent
  by_cases hcur : (s.cpu c).currentThread = (s.cpu c).idleThread
  · rw [if_pos hcur]
    exact ⟨s, L, rfl, Frame.refl s, h⟩
  · rw [if_neg hcur]
    obtain ⟨hthread, hcpu⟩ := h.current_thread hc hcur
    obtain ⟨m, rq, L₁, hrem, hfr, h₁⟩ := h.blocked hthread
    rw [hcpu] at hrem
    obtain ⟨s', L', hs', hf, hp⟩ := h₁.runNext hc (by simp) hsp rfl
    simp only [hrem]
    exact ⟨s', L', hs', hfr.trans hf, hp⟩

/-- An idle thread is the idle thread of the CPU it is on. -/
theorem Linked.idle_iff (h : Linked s L none) (ht : s.Live t) :
    (s.cpuCount ≤ (s.tcb t).cpuIndex
      ∨ t = (s.cpu (s.tcb t).cpuIndex).idleThread) ↔ t < s.cpuCount := by
  by_cases hlt : t < s.cpuCount
  · simp [hlt, h.idleHome t hlt, h.idle t hlt]
  · have hthread : s.Thread t := ⟨by omega, ht⟩
    have hhome := h.home t hthread
    rw [h.idle _ hhome]
    constructor
    · intro e
      omega
    · intro e
      omega

theorem Linked.block (h : Linked s L none) (ht : s.Live t) {sp : Nat}
    (hsp : sp ≠ 0) (c : Nat) : ∃ s' L', s.threadBlock c t sp = some s'
      ∧ Frame s s' ∧ Linked s' L' none := by
  unfold threadBlock
  simp only [h.idle_iff ht]
  by_cases hlt : t < s.cpuCount
  · rw [if_pos hlt]
    exact ⟨s, L, rfl, Frame.refl s, h⟩
  · rw [if_neg hlt]
    have hthread : s.Thread t := ⟨by omega, ht⟩
    obtain ⟨m, rq, L₁, hrem, hfr, h₁⟩ := h.blocked hthread
    simp only [hrem]
    split
    case isTrue hcur =>
      obtain ⟨s', L', hs', hf, hp⟩ :=
        h₁.runNext (h.home t hthread) (by simp) hsp hcur.2
      exact ⟨s', L', hs', hfr.trans hf, hp⟩
    case isFalse => exact ⟨_, L₁, rfl, hfr, h₁⟩

theorem Linked.wake (h : Linked s L none) (ht : s.Live t)
    (hz : (s.tcb t).status = .blocked → t ∉ L (.zombie (s.tcb t).cpuIndex)) :
    ∃ s' L', s.threadWake t = some s' ∧ Frame s s' ∧ Linked s' L' none := by
  unfold threadWake
  simp only [h.idle_iff ht]
  by_cases hlt : t < s.cpuCount
  · rw [if_pos hlt]
    exact ⟨s, L, rfl, Frame.refl s, h⟩
  rw [if_neg hlt]
  by_cases hb : (s.tcb t).status = .blocked
  · have hthread : s.Thread t := ⟨by omega, ht⟩
    -- a blocked thread is on no run queue
    have hrun : ∀ c, t ∉ L (.run c) := by
      intro c hmem
      have := (h.run c t hmem).2.2
      rw [hb] at this
      cases this
    have hnot := h.not_queued (hrun _) (hz hb)
    have h₁ : Linked (s.setStatus t .runnable) L none := h.touch _
      (fun _ => rfl) (fun _ => rfl) (fun _ hs => hs) (Or.inr hrun)
    simp only [if_pos hb, h₁.queues.find, if_neg (hnot _)]
    refine ⟨_, _, rfl, (frame_setStatus s t .runnable).trans
      (frame_pushBack _ _ t), h₁.step (frame_pushBack _ _ t)
      (h₁.queues.pushBack hnot ht.1) h₁.stack (fun c u hu => ?_)
      (fun c u hu => ?_) h₁.current⟩
    · rw [mem_update] at hu
      split at hu
      case isTrue hcc =>
        rcases List.mem_append.mp hu with hu | hu
        · rw [← hcc] at hu
          exact h₁.run c u hu
        · rw [List.mem_singleton.mp hu]
          injection hcc with hcc
          have hself : (s.setStatus t .runnable).tcb t = { s.tcb t with
              status := .runnable, ticksLeft := SCHED_QUANTUM_TICKS } := by
            rw [setStatus_tcb, if_pos rfl]
          refine ⟨hthread, by rw [hself, hcc], ?_⟩
          show ((s.setStatus t .runnable).tcb t).status = _
          rw [hself]
      case isFalse => exact h₁.run c u hu
    · rw [mem_update, if_neg (by simp)] at hu
      exact h₁.zombie c u hu
  · rw [if_neg hb]
    exact ⟨s, L, rfl, Frame.refl s, h⟩

theorem Linked.exit (h : Linked s L none) (hc : c < s.cpuCount) {sp : Nat}
    (hsp : sp ≠ 0) (hcur : (s.cpu c).currentThread ≠ (s.cpu c).idleThread)
    (hnot : (s.cpu c).currentThread ∉ L (.run c)) :
    ∃ s' L', s.schedExit c sp = some s' ∧ Frame s s'
      ∧ Linked s' L' none := by
  obtain ⟨hthread, -⟩ := h.current_thread hc hcur
  have hput := h.retire hc hcur hnot
    (f := fun th => { th with status := .zombie }) (fun _ => rfl)
    (fun _ => rfl) (fun _ => rfl) fun _ => rfl
  have hfr : Frame s (s.put (s.cpu c).currentThread
      (fun th => { th with status := .zombie }) (destination c .zombie)) :=
    frame_put s _ _ _ (fun _ => rfl) fun _ => rfl
  obtain ⟨m, rq, hnext, hp⟩ := hput.fill hc
    fun c' _ hne e => hne (Option.some.inj e).symm
  -- the next thread is another one: this one is on the zombie queue only
  have hown : (s.cpu c).currentThread ≠ c := by
    have := hthread.1
    omega
  have hne := first_zombie_ne (d := c) hown hnot
  exact ⟨_, _, schedExit_eq hcur hnext hne sp, ((hfr.trans (frame_withQueues _ m rq)).trans
    (frame_resume _ c _)).trans (frame_contextSwitch _ _ sp),
    hp.contextSwitch hsp _⟩

theorem Linked.free (h : Linked s L none) (hspec : FreeSpec s s' t)
    (ht : t ∈ L (.zombie c)) (hq : Queues s' L')
    (hmem : ∀ q u, u ∈ L' q ↔ u ∈ L q ∧ u ≠ t) : Linked s' L' none where
  queues := hq
  idle := hspec.idleThreads h.idle
  idleHome := hspec.idleHomes h.idleHome
  home := hspec.homes h.home
  stack := hspec.stacks h.stack
  run := by
    intro c u hu
    obtain ⟨hu, hne⟩ := (hmem _ u).mp hu
    obtain ⟨hthread, hrest⟩ := h.run c u hu
    rw [hspec.thread, hspec.tcb]
    exact ⟨⟨hthread, hne⟩, hrest⟩
  zombie := by
    intro c u hu
    obtain ⟨hu, hne⟩ := (hmem _ u).mp hu
    obtain ⟨hthread, hrest⟩ := h.zombie c u hu
    rw [hspec.thread, hspec.tcb, hspec.current]
    exact ⟨⟨hthread, hne⟩, hrest⟩
  current := by
    rw [hspec.cpuCount]
    intro c' hc'
    rw [hspec.current, hspec.tcb, hspec.thread]
    -- a zombie is not the current thread of its CPU
    refine (h.current c' hc').imp_right fun hcur => ⟨⟨hcur.1, fun e => ?_⟩, hcur.2⟩
    obtain ⟨-, hhome, hne⟩ := h.zombie c t ht
    rw [e, hhome] at hcur
    rw [← hcur.2] at e
    exact hne (by simp) e

theorem reapable_linked (c : Nat) : Reapable c fun s L => Linked s L none where
  queues := fun h => h.queues
  zombie := by
    intro s L h hc t ht
    obtain ⟨hthread, -⟩ := h.zombie c t ht
    refine ⟨hthread, h.home t hthread, ?_⟩
    rw [h.idle c hc]
    have := hthread.1
    omega
  free := fun h ht hspec hq hmem => h.free hspec ht hq hmem

theorem Linked.reap (h : Linked s L none) (hn : Counted s)
    (hc : c < s.cpuCount) : ∃ s' L', s.schedReap c = some s'
      ∧ Linked s' L' none ∧ Counted s' ∧ Reaped s s' (L (.zombie c))
      ∧ ∀ q, q ≠ .zombie c → L' q = L q :=
  reap_loop (reapable_linked c) h hn hc
    (Nat.lt_succ_of_le (h.queues.length_le _))

/-- A switch away from the current thread, which is queued first if it
was running. -/
theorem Linked.tick_switch (h : Linked s L none) (hn : Counted s)
    (hc : c < s.cpuCount) {sp : Nat} (hsp : sp ≠ 0)
    (hrun : (s.tcb (s.cpu c).currentThread).status = .running) :
    ∃ s' L', (if (s.cpu c).currentThread ≠ (s.cpu c).idleThread then
        (s.setStatus (s.cpu c).currentThread .runnable).pushBack (.run c)
          (s.cpu c).currentThread
      else s).schedRunNextLocked c (s.cpu c).currentThread sp = some s'
        ∧ Linked s' L' none ∧ Counted s' := by
  split
  case isTrue hcur =>
    have hnot : (s.cpu c).currentThread ∉ L (.run c) := by
      intro e
      have hr := (h.run c _ e).2.2
      rw [hrun] at hr
      cases hr
    obtain ⟨s', L', hs', hf, hp⟩ := h.requeue hc hsp hcur hnot
    exact ⟨s', L', hs', hp, hn.congr hf⟩
  case isFalse =>
    obtain ⟨s', L', hs', hf, hp⟩ := h.runNext hc (by simp) hsp rfl
    exact ⟨s', L', hs', hp, hn.congr hf⟩

theorem Linked.tick (h : Linked s L none) (hn : Counted s)
    (hc : c < s.cpuCount) {sp : Nat} (hsp : sp ≠ 0) :
    ∃ s' L', s.schedTick c sp = some s' ∧ Linked s' L' none
      ∧ Counted s' := by
  obtain ⟨s₁, L₁, hreap, h₁, hn₁, hspec, -⟩ := h.reap hn hc
  rw [← hspec.cpuCount] at hc
  -- counting the tick moves nobody
  have htouch : ∀ {s₂ : Sched} (f : Tcb → Tcb), Linked s₂ L₁ none → Counted s₂ →
      (∀ th, (f th).cpuIndex = th.cpuIndex) → (∀ th, (f th).parent = th.parent) →
      (∀ th, (f th).rsp = th.rsp) → (∀ th, (f th).status = th.status) →
      Linked (s₂.modTcb (s₁.cpu c).currentThread f) L₁ none
        ∧ Counted (s₂.modTcb (s₁.cpu c).currentThread f) := by
    intro s₂ f h₂ hn₂ hhome hpar hrsp hst
    exact ⟨h₂.touch f hhome hpar (fun th hs => by rw [hrsp]; exact hs)
      (Or.inl hst), hn₂.congr (frame_modTcb s₂ _ f hhome hpar)⟩
  obtain ⟨h₂, hn₂⟩ := htouch
    (fun th => { th with totalTicks := th.totalTicks + 1 }) h₁ hn₁
    (fun _ => rfl) (fun _ => rfl) (fun _ => rfl) fun _ => rfl
  unfold schedTick
  simp only [hreap]
  split
  case isTrue hrun =>
    obtain ⟨h₃, hn₃⟩ := htouch
      (fun th => { th with ticksLeft := th.ticksLeft - 1 }) h₂ hn₂
      (fun _ => rfl) (fun _ => rfl) (fun _ => rfl) fun _ => rfl
    split
    case isTrue => exact ⟨_, L₁, rfl, h₃, hn₃⟩
    case isFalse =>
      refine h₃.tick_switch hn₃ hc hsp ?_
      show ((Sched.modTcb _ (s₁.cpu c).currentThread _).tcb
        (s₁.cpu c).currentThread).status = _
      rw [modTcb_tcb, if_pos rfl]
      exact hrun
  case isFalse =>
    obtain ⟨s', L', hs', hf, hp⟩ := h₂.runNext hc (by simp) hsp rfl
    exact ⟨s', L', hs', hp, hn₂.congr hf⟩

/-- A new thread is runnable and queued. -/
theorem Linked.spawn (h : Linked s L none) (hn : Counted s)
    {cpu p rsp : Nat} (hspec : SpawnSpec s s' cpu p rsp)
    (hcpu : cpu < s.cpuCount) (hrsp : rsp ≠ 0)
    (hq : Queues s' (update L (.run cpu) (L (.run cpu) ++ [s.tcbCount]))) :
    Linked s' (update L (.run cpu) (L (.run cpu) ++ [s.tcbCount])) none := by
  have hold : ∀ u, s.Thread u → s'.tcb u = s.tcb u := fun u hu =>
    hspec.tcb u (Nat.ne_of_lt hu.2.1)
  have hthread : ∀ u, s.Thread u → s'.Thread u := fun u hu =>
    (hspec.thread hn).mpr (Or.inl hu)
  refine ⟨hq, hspec.idleThreads h.idle, hspec.idleHomes hn h.idleHome,
    hspec.homes hn hcpu h.home, hspec.stacks hn hrsp h.stack, ?_, ?_, ?_⟩
  · intro c u hu
    have hcases : u ∈ L (.run c) ∨ (u = s.tcbCount ∧ c = cpu) := by
      rw [mem_update] at hu
      split at hu
      case isTrue hcc =>
        injection hcc with hcc
        rw [hcc]
        simpa using hu
      case isFalse => exact Or.inl hu
    rcases hcases with hu | ⟨rfl, rfl⟩
    · obtain ⟨hu', hrest⟩ := h.run c u hu
      rw [hold u hu']
      exact ⟨hthread u hu', hrest⟩
    · rw [hspec.fresh]
      exact ⟨(hspec.thread hn).mpr (Or.inr rfl), rfl, rfl⟩
  · intro c u hu
    rw [mem_update, if_neg (by simp)] at hu
    obtain ⟨hu', hrest⟩ := h.zombie c u hu
    rw [hold u hu', hspec.current]
    exact ⟨hthread u hu', hrest⟩
  · rw [hspec.cpuCount]
    intro c hc
    rw [hspec.current]
    refine (h.current c hc).imp_right fun hcur => ?_
    rw [hold _ hcur.1]
    exact ⟨hthread _ hcur.1, hcur.2⟩

-- ==== runs

/-- Every guarded call returns, unless it is the panic of `sched_exit`,
and keeps the invariant. -/
theorem Linked.call (h : Linked s L none) (hn : Counted s) (hv : s.Valid k)
    (hg : s.Guarded k) (hpanic : ¬ s.Panics k) :
    ∃ s' L', s.call k = some s' ∧ Linked s' L' none ∧ Counted s' := by
  cases k with
  | spawnProc type =>
      exact ⟨_, L, rfl, ⟨h.queues.congr rfl rfl rfl, h.idle, h.idleHome, h.home,
        h.stack, h.run, h.zombie, h.current⟩, hn.spawnProc type⟩
  | spawnThread c p mem rsp =>
      obtain ⟨hc, hp, hfree, hrsp⟩ := hv
      rcases spawnThread_spec s c p rsp mem with hsame | ⟨hspec, hqueues⟩
      · exact ⟨s, L, congrArg some hsame, h, hn⟩
      · exact ⟨_, _, rfl, h.spawn hn hspec (schedSelectCpu_lt hc) hrsp
          (hqueues L h.queues), hn.spawn hspec hp hfree⟩
  | tick c sp => exact h.tick hn hv.1 hv.2
  | yield c sp =>
      obtain ⟨s', L', hs', hf, hp⟩ :=
        h.yield hv.1 hv.2 (h.queues.contains.mp hg)
      exact ⟨s', L', hs', hp, hn.congr hf⟩
  | blockCurrent c sp =>
      obtain ⟨s', L', hs', hf, hp⟩ := h.blockCurrent hv.1 hv.2
      exact ⟨s', L', hs', hp, hn.congr hf⟩
  | wake t =>
      obtain ⟨s', L', hs', hf, hp⟩ :=
        h.wake hv fun hb => h.queues.contains.mp (hg hb)
      exact ⟨s', L', hs', hp, hn.congr hf⟩
  | exit c sp =>
      obtain ⟨s', L', hs', hf, hp⟩ :=
        h.exit hv.1 hv.2 hpanic (h.queues.contains.mp hg)
      exact ⟨s', L', hs', hp, hn.congr hf⟩
  | reap c =>
      obtain ⟨s', L', hs', hp, hn', -⟩ := h.reap hn hv
      exact ⟨s', L', hs', hp, hn'⟩
  | block c t sp =>
      obtain ⟨s', L', hs', hf, hp⟩ := h.block hv.2.1 hv.2.2 c
      exact ⟨s', L', hs', hp, hn.congr hf⟩

theorem linked_init (n : Nat) : Linked (schedInit n) (fun _ => []) none := by
  have h := placed_init n
  exact ⟨h.queues, h.idle, h.idleHome, h.home, h.stack, fun c t ht => (by cases ht),
    fun c t ht => (by cases ht), fun c _ => Or.inl rfl⟩

theorem reachable_linked {n : Nat} (h : Reachable Guarded n s gone) :
    ∃ L, Linked s L none ∧ Counted s := by
  induction h with
  | init => exact ⟨_, linked_init n, counted_init n⟩
  | call _ hv hg hcall ih =>
      obtain ⟨L, hl, hn⟩ := ih
      have hpanic : ¬ Panics _ _ := fun e => by
        rw [call_panics e] at hcall
        cases hcall
      obtain ⟨s'', L', hcall', hl', hn'⟩ := hl.call hn hv hg hpanic
      rw [hcall] at hcall'
      injection hcall' with he
      subst he
      exact ⟨L', hl', hn'⟩

/-- In a run of guarded calls the queues stay lists, and every further
guarded call returns. -/
theorem reachable_queues {n : Nat} (h : Reachable Guarded n s gone) :
    QueuesOk s ∧ ∀ k, s.Valid k → s.Guarded k → ¬ s.Panics k →
      ∃ s', s.call k = some s' := by
  obtain ⟨L, hl, hn⟩ := reachable_linked h
  refine ⟨⟨L, hl.queues.rep, hl.queues.apart⟩, fun k hv hg hpanic => ?_⟩
  obtain ⟨s', -, hs', -⟩ := hl.call hn hv hg hpanic
  exact ⟨s', hs'⟩

/-- The guard can be evaluated. -/
instance (s : Sched) (k : Call) : Decidable (s.Guarded k) :=
  match k with
  | .spawnProc _ => inferInstanceAs (Decidable True)
  | .spawnThread .. => inferInstanceAs (Decidable True)
  | .tick .. => inferInstanceAs (Decidable True)
  | .yield .. => inferInstanceAs (Decidable (_ = false))
  | .blockCurrent .. => inferInstanceAs (Decidable True)
  | .wake t => inferInstanceAs (Decidable ((s.tcb t).status = .blocked → _ = false))
  | .exit .. => inferInstanceAs (Decidable (_ = false))
  | .reap .. => inferInstanceAs (Decidable True)
  | .block .. => inferInstanceAs (Decidable True)

/-- Two CPUs: CPU 1 blocks the thread that CPU 0 runs and wakes it, and
the next tick of CPU 0 takes it off the queue again. -/
theorem reachable_queues_remote_block : ∃ s, QueuesOk s
    ∧ (s.cpu 0).currentThread = 2 ∧ (s.tcb 2).status = .running
    ∧ (s.queue (.run 0)).len = 0 := by
  have hplay : (play Guarded (schedInit 2) [] [.spawnProc .kernel,
      .spawnThread 0 2 true 8, .tick 0 8, .block 1 2 8, .wake 2,
      .tick 0 8]).map (fun r => ((r.1.cpu 0).currentThread,
        (r.1.tcb 2).status, (r.1.queue (.run 0)).len))
      = some (2, .running, 0) := by
    decide +kernel
  obtain ⟨⟨s, gone⟩, hrun, heq⟩ := Option.map_eq_some_iff.mp hplay
  obtain ⟨hcur, hrest⟩ := Prod.mk.inj heq
  obtain ⟨hst, hlen⟩ := Prod.mk.inj hrest
  exact ⟨s, (reachable_queues (reachable_play .init hrun)).1, hcur, hst, hlen⟩

/-- Two CPUs: CPU 1 blocks thread 2, which CPU 0 runs, and wakes it; two
more threads are spawned, and thread 2 yields. `rq_push_back` clears the
links of a node that is the head of its queue: the two queued nodes are
lost and the length still counts two. -/
theorem yield_breaks_queue : ∃ s gone,
    Reachable (fun _ _ => True) 2 s gone ∧ ¬ QueuesOk s := by
  have hplay : (play (fun _ _ => True) (schedInit 2) [] [.spawnProc .kernel,
      .spawnThread 0 2 true 8, .tick 0 8, .block 1 2 8, .wake 2,
      .spawnThread 0 2 true 8, .spawnThread 0 2 true 8, .yield 0 8]).map
      (fun r => ((r.1.queue (.run 0)).head, (r.1.queue (.run 0)).len))
      = some (none, 2) := by
    decide +kernel
  obtain ⟨⟨s, gone⟩, hrun, heq⟩ := Option.map_eq_some_iff.mp hplay
  obtain ⟨hhead, hlen⟩ := Prod.mk.inj heq
  refine ⟨s, gone, reachable_play .init hrun, fun hok => ?_⟩
  obtain ⟨L, hrep, -⟩ := hok
  have hhead' := (hrep (.run 0)).head
  have hlen' := (hrep (.run 0)).len
  rw [hhead] at hhead'
  rw [List.head?_eq_none_iff.mp hhead'.symm, hlen] at hlen'
  cases hlen'

end Alix.Sched
