/-
The scheduler over whole runs.

A run starts from `sched_init` on any number of CPUs and makes any
number of calls, in any order and on any CPU, `thread_block` apart: that
one may stop a thread that runs elsewhere, and is looked at on its own.
Beside the state a run carries `gone`, the threads that have called
`sched_exit`.

`RunInv` is what a run keeps: the placement of threads, the counts, and
that the threads gone are the freed ones and the zombies. Each call keeps
it (`RunInv.call`), and it implies `Accounted`, which says where every
thread is and what the counters hold.
-/
import Alix.Sys.Proofs.Accounts

namespace Alix.Sched

variable {s s' s₁ : Sched} {L L' : Queue → List Nat} {c t : Nat}
  {gone : List Nat} {k : Call}

-- ==== runs

/-- The thread that a call ends. -/
def exiting (s : Sched) : Call → List Nat
  | .exit c _ => [(s.cpu c).currentThread]
  | _ => []

/-- `thread_block`, which names its thread. -/
def Call.isBlock : Call → Bool
  | .block .. => true
  | _ => false

/-- `sched_exit` on an idle thread, which panics. -/
def Panics (s : Sched) : Call → Prop
  | .exit c _ => (s.cpu c).currentThread = (s.cpu c).idleThread
  | _ => False

/-- The runs on `cpuCount` CPUs that make only calls that `may` allows,
with the threads that have exited. -/
inductive Reachable (may : Sched → Call → Prop) (cpuCount : Nat) :
    Sched → List Nat → Prop where
  | init : Reachable may cpuCount (schedInit cpuCount) []
  | call {s s' : Sched} {gone : List Nat} {k : Call} :
      Reachable may cpuCount s gone → s.Valid k → may s k →
      s.call k = some s' → Reachable may cpuCount s' (s.exiting k ++ gone)

/-- Every call but `thread_block`. -/
def NoBlock (_ : Sched) (k : Call) : Prop := k.isBlock = false

instance (s : Sched) (k : Call) : Decidable (NoBlock s k) :=
  inferInstanceAs (Decidable (_ = _))

instance (s : Sched) (t : Nat) : Decidable (s.Live t) :=
  inferInstanceAs (Decidable (_ ∧ _))

instance (s : Sched) (k : Call) : Decidable (s.Valid k) :=
  match k with
  | .spawnProc _ => inferInstanceAs (Decidable True)
  | .spawnThread .. => inferInstanceAs (Decidable (_ ∧ _ ∧ _ ∧ _))
  | .tick .. => inferInstanceAs (Decidable (_ ∧ _))
  | .yield .. => inferInstanceAs (Decidable (_ ∧ _))
  | .blockCurrent .. => inferInstanceAs (Decidable (_ ∧ _))
  | .wake t => inferInstanceAs (Decidable (s.Live t))
  | .exit .. => inferInstanceAs (Decidable (_ ∧ _))
  | .reap .. => inferInstanceAs (Decidable (_ < _))
  | .block .. => inferInstanceAs (Decidable (_ ∧ _ ∧ _))

/-- Makes the calls of a list, as long as they may be made. -/
def play (may : Sched → Call → Prop) [∀ s k, Decidable (may s k)] :
    Sched → List Nat → List Call → Option (Sched × List Nat)
  | s, gone, [] => some (s, gone)
  | s, gone, k :: ks =>
      if s.Valid k ∧ may s k then
        match s.call k with
        | none => none
        | some s' => play may s' (s.exiting k ++ gone) ks
      else none

theorem reachable_play {may : Sched → Call → Prop}
    [∀ s k, Decidable (may s k)] {n : Nat} {gone' : List Nat} {ks : List Call}
    (h : Reachable may n s gone) (hp : play may s gone ks = some (s', gone')) :
    Reachable may n s' gone' := by
  induction ks generalizing s gone with
  | nil =>
      obtain ⟨rfl, rfl⟩ := Prod.mk.inj (Option.some.inj hp)
      exact h
  | cons k ks ih =>
      unfold play at hp
      split at hp
      case isTrue hk =>
        split at hp
        case h_1 => cases hp
        case h_2 s₁ hcall => exact ih (h.call hk.1 hk.2 hcall) hp
      case isFalse => cases hp

-- ==== the run invariant

/-- The threads gone are the freed ones and the zombies. -/
def Exited (s : Sched) (gone : List Nat) : Prop :=
  ∀ t, t ∈ gone ↔ t ∈ s.freedTcbs ∨ (s.Thread t ∧ (s.tcb t).status = .zombie)

structure RunInv (s : Sched) (gone : List Nat) (L : Queue → List Nat) :
    Prop where
  placed : Placed s L none
  counted : Counted s
  exited : Exited s gone

theorem placed_init (n : Nat) : Placed (schedInit n) (fun _ => []) none := by
  have hthread : ∀ t, ¬ (schedInit n).Thread t := fun t ht =>
    Nat.lt_irrefl _ (Nat.lt_of_le_of_lt ht.1 ht.2.1)
  have hqueues : Queues (schedInit n) fun _ => [] :=
    ⟨fun q => ⟨Dll.isList_nil _, rfl, rfl, rfl⟩, fun q q' t ht => (by cases ht),
      fun q t ht => (by cases ht), fun q t ht => (by cases ht)⟩
  refine ⟨hqueues, fun _ _ => rfl, fun _ _ => rfl, fun _ _ => rfl,
    fun t ht => (hthread t ht).elim, fun t ht => (hthread t ht).elim, ?_, ?_,
    fun c _ _ => Or.inl rfl, fun t ht => (hthread t ht).elim⟩
  · intro c t
    simp [hthread]
  · intro c t
    simp [hthread]

theorem counted_init (n : Nat) : Counted (schedInit n) where
  cpus := Nat.le_refl n
  count := by
    intro c _
    have hnil : (schedInit n).threadsOf c = [] := by
      refine List.eq_nil_iff_forall_not_mem.mpr fun t ht => ?_
      obtain ⟨ht, -⟩ := mem_threadsOf.mp ht
      exact Nat.lt_irrefl _ (Nat.lt_of_le_of_lt ht.1 ht.2.1)
    rw [hnil]
    rfl
  listed := by
    intro p hp _
    refine ⟨rfl, List.nodup_singleton p, fun t => ?_⟩
    rw [show ((schedInit n).pcb p).thread = [p] from rfl, List.mem_singleton]
    constructor
    · intro e
      subst e
      exact ⟨⟨hp, List.not_mem_nil⟩, rfl⟩
    · intro e
      exact e.2
  parent := fun _ ht => ht
  freed := ⟨List.nodup_nil, fun t ht => (by cases ht)⟩
  freedProc := by
    refine ⟨List.nodup_nil, fun p => ⟨fun hp => (by cases hp), fun hp => ?_⟩⟩
    obtain ⟨t, ht, hpar⟩ := hp.2.1
    exact absurd (hp.2.2 t ht hpar) List.not_mem_nil

theorem runInv_init (n : Nat) : RunInv (schedInit n) [] fun _ => [] := by
  refine ⟨placed_init n, counted_init n, fun t => ⟨fun ht => (by cases ht), ?_⟩⟩
  intro ht
  rcases ht with ht | ht
  · cases ht
  · exact (Nat.lt_irrefl _ (Nat.lt_of_le_of_lt ht.1.1 ht.1.2.1)).elim

/-- A step that frees nothing. -/
theorem Exited.frame {D : List Nat} (h : Exited s gone) (hf : Frame s s')
    (hd : Dies s s' D) (hD : ∀ t ∈ D, s.Thread t) : Exited s' (D ++ gone) := by
  intro t
  rw [List.mem_append, h, hf.freedTcbs, hf.thread]
  by_cases ht : s.Thread t
  · rw [hd t ht]
    tauto
  · have : t ∉ D := fun e => ht (hD t e)
    tauto

/-- A step that only frees zombies. -/
theorem Exited.reaped {zombies : List Nat} (h : Exited s gone)
    (hz : ∀ t ∈ zombies, s.Thread t ∧ (s.tcb t).status = .zombie)
    (hr : Reaped s s' zombies) : Exited s' gone := by
  intro t
  have hthread : s'.Thread t ↔ s.Thread t ∧ t ∉ zombies := by
    unfold Thread Live
    rw [hr.cpuCount, hr.tcbCount, hr.freed]
    tauto
  have := hz t
  rw [h, hr.freed, hthread, hr.tcb]
  tauto

theorem Placed.zombie_dead (h : Placed s L none) (c : Nat) :
    ∀ t ∈ L (.zombie c), s.Thread t ∧ (s.tcb t).status = .zombie := by
  intro t ht
  obtain ⟨hthread, -, hz⟩ := (h.zombie c t).mp ht
  exact ⟨hthread, hz⟩

theorem Placed.spawnProc (h : Placed s L none) (type : ProcType) :
    Placed (s.spawnProc type) L none :=
  ⟨h.queues.congr rfl rfl rfl, h.idle, h.idleRuns, h.idleHome, h.home, h.stack,
    h.run, h.zombie, h.current, h.running⟩

theorem RunInv.spawnThread (h : RunInv s gone L) {p rsp : Nat}
    (hc : c < s.cpuCount) (hp : p < s.pcbCount) (hfree : p ∉ s.freedPcbs)
    (hrsp : rsp ≠ 0) (mem : Bool) :
    (s.spawnThread c p mem rsp).cpuCount = s.cpuCount
      ∧ ∃ L', RunInv (s.spawnThread c p mem rsp) gone L' := by
  rcases spawnThread_spec s c p rsp mem with hsame | ⟨hspec, hqueues⟩
  · rw [hsame]
    exact ⟨rfl, L, h⟩
  · refine ⟨hspec.cpuCount, _, h.placed.spawn h.counted hspec
      (schedSelectCpu_lt hc) hrsp (hqueues L h.placed.queues),
      h.counted.spawn hspec hp hfree, fun t => ?_⟩
    rw [h.exited, hspec.freedTcbs, hspec.thread h.counted]
    -- the new thread is runnable
    by_cases ht : t = s.tcbCount
    · subst ht
      have : ¬ s.Thread s.tcbCount := fun e => Nat.lt_irrefl _ e.2.1
      simp [hspec.fresh, this]
    · rw [hspec.tcb t ht]
      simp [ht]

/-- Every call returns, unless it is the panic of `sched_exit`, and keeps
the invariant. -/
theorem RunInv.call (h : RunInv s gone L) (hv : s.Valid k)
    (hk : k.isBlock = false) (hpanic : ¬ s.Panics k) :
    ∃ s' L', s.call k = some s' ∧ s'.cpuCount = s.cpuCount
      ∧ RunInv s' (s.exiting k ++ gone) L' := by
  have hnone : ∀ t ∈ ([] : List Nat), s.Thread t := fun t ht => (by cases ht)
  cases k with
  | spawnProc type =>
      exact ⟨_, L, rfl, rfl, h.placed.spawnProc type, h.counted.spawnProc type,
        h.exited⟩
  | spawnThread c p mem rsp =>
      obtain ⟨hc, hp, hfree, hrsp⟩ := hv
      obtain ⟨hcpus, L', h'⟩ := h.spawnThread hc hp hfree hrsp mem
      exact ⟨_, L', rfl, hcpus, h'⟩
  | tick c sp =>
      obtain ⟨s', s₁, L', hs', hp, hr, hn, hf, hd, -⟩ :=
        h.placed.tick h.counted hv.1 hv.2
      have hex := h.exited.reaped (h.placed.zombie_dead c) hr
      exact ⟨s', L', hs', hf.cpuCount.trans hr.cpuCount, hp, hn.congr hf,
        hex.frame hf hd fun t ht => (by cases ht)⟩
  | yield c sp =>
      obtain ⟨s', L', hs', hf, hp, hd⟩ := h.placed.yield hv.1 hv.2
      exact ⟨s', L', hs', hf.cpuCount, hp, h.counted.congr hf,
        h.exited.frame hf hd hnone⟩
  | blockCurrent c sp =>
      obtain ⟨s', L', hs', hf, hp, hd⟩ := h.placed.blockCurrent hv.1 hv.2
      exact ⟨s', L', hs', hf.cpuCount, hp, h.counted.congr hf,
        h.exited.frame hf hd hnone⟩
  | wake t =>
      obtain ⟨s', L', hs', hf, hp, hd⟩ := h.placed.wake hv
      exact ⟨s', L', hs', hf.cpuCount, hp, h.counted.congr hf,
        h.exited.frame hf hd hnone⟩
  | exit c sp =>
      obtain ⟨s', L', hs', hf, hp, hd⟩ := h.placed.exit hv.1 hv.2 hpanic
      refine ⟨s', L', hs', hf.cpuCount, hp, h.counted.congr hf,
        h.exited.frame hf hd ?_⟩
      intro t ht
      rw [List.mem_singleton.mp ht]
      exact (h.placed.current_thread hv.1 hpanic).1
  | reap c =>
      obtain ⟨s', L', hs', hp, hn, hr, -⟩ := h.placed.reap h.counted hv
      exact ⟨s', L', hs', hr.cpuCount, hp, hn,
        h.exited.reaped (h.placed.zombie_dead c) hr⟩
  | block c t sp => cases hk

theorem call_panics (h : s.Panics k) : s.call k = none := by
  cases k with
  | exit c sp =>
      show s.schedExit c sp = none
      unfold schedExit
      exact if_pos h
  | _ => exact h.elim

theorem reachable_runInv {n : Nat} (h : Reachable NoBlock n s gone) :
    ∃ L, RunInv s gone L := by
  induction h with
  | init => exact ⟨_, runInv_init n⟩
  | call _ hv hk hcall ih =>
      obtain ⟨L, hinv⟩ := ih
      have hpanic : ¬ Panics _ _ := fun e => by
        rw [call_panics e] at hcall
        cases hcall
      obtain ⟨s'', L', hcall', -, hinv'⟩ := hinv.call hv hk hpanic
      rw [hcall] at hcall'
      injection hcall' with he
      subst he
      exact ⟨L', hinv'⟩

-- ==== what it means

/-- The places a thread can be. -/
inductive Place where
  | current
  | ready
  | blocked
  | zombie
deriving DecidableEq

/-- Thread `t` is at a place. -/
def At (s : Sched) (L : Queue → List Nat) (t : Nat) : Place → Prop
  | .current => (s.cpu (s.tcb t).cpuIndex).currentThread = t
  | .ready => (s.tcb t).status = .runnable
      ∧ (L (.run (s.tcb t).cpuIndex)).count t = 1
  | .blocked => (s.tcb t).status = .blocked ∧ ∀ q, t ∉ L q
  | .zombie => (s.tcb t).status = .zombie
      ∧ (L (.zombie (s.tcb t).cpuIndex)).count t = 1

/-- The place a status stands for. -/
def placeOf : ThreadStatus → Place
  | .runnable => .ready
  | .running => .current
  | .blocked => .blocked
  | .zombie => .zombie

/-- What holds of the threads and the counters, with `gone` the threads
that have exited and `L q` the nodes on the queue `q`. -/
structure Accounted (s : Sched) (gone : List Nat) (L : Queue → List Nat) :
    Prop where
  lists : ∀ q, Rep s.nodes (s.queue q) (L q)
  place : ∀ t, s.Thread t → ∃! p, s.At L t p
  /-- a queue holds threads of its own CPU, and only live ones -/
  queued : ∀ q t, t ∈ L q → s.Thread t
    ∧ (q = .run (s.tcb t).cpuIndex ∨ q = .zombie (s.tcb t).cpuIndex)
  current : ∀ c < s.cpuCount,
    (s.cpu c).currentThread = (s.cpu c).idleThread
      ∨ (s.Thread (s.cpu c).currentThread
        ∧ (s.tcb (s.cpu c).currentThread).cpuIndex = c)
  /-- only exited threads are freed, none of them twice; one that has not
  been freed yet waits on its zombie queue -/
  exited : ∀ t, t ∈ gone ↔ t ∈ s.freedTcbs ∨ (s.Thread t ∧ s.At L t .zombie)
  freedOnce : s.freedTcbs.Nodup
  /-- and the next reap of its CPU frees it -/
  reaps : ∀ c < s.cpuCount, ∃ s', s.schedReap c = some s'
    ∧ ∀ t, t ∈ s'.freedTcbs ↔ t ∈ s.freedTcbs ∨ t ∈ L (.zombie c)
  threadCount : ∀ p < s.pcbCount, p ∉ s.freedPcbs →
    (s.pcb p).threadCount = (s.pcb p).thread.length
      ∧ (s.pcb p).thread.Nodup
      ∧ ∀ t, t ∈ (s.pcb p).thread ↔ s.Live t ∧ (s.tcb t).parent = p
  schedThreadCount : ∀ c < s.cpuCount,
    (s.cpu c).schedThreadCount = (s.threadsOf c).length
  /-- a process is freed with the last of its threads, once -/
  proc : s.freedPcbs.Nodup ∧ ∀ p, p ∈ s.freedPcbs ↔ p < s.pcbCount
    ∧ (∃ t < s.tcbCount, (s.tcb t).parent = p)
    ∧ ∀ t < s.tcbCount, (s.tcb t).parent = p → t ∈ s.freedTcbs
  returns : ∀ k, s.Valid k → k.isBlock = false → ¬ s.Panics k →
    ∃ s', s.call k = some s'

/-- The status of a thread says where it is. -/
theorem Placed.at_iff (h : Placed s L none) (ht : s.Thread t) {p : Place} :
    s.At L t p ↔ p = placeOf (s.tcb t).status := by
  have hrun := h.run (s.tcb t).cpuIndex t
  have hzom := h.zombie (s.tcb t).cpuIndex t
  simp only [ht, true_and] at hrun hzom
  have hone : ∀ q, (L q).count t = 1 ↔ t ∈ L q := by
    intro q
    rw [List.Nodup.count (h.queues.nodup q)]
    simp
  have hcur : (s.cpu (s.tcb t).cpuIndex).currentThread = t
      ↔ (s.tcb t).status = .running := by
    constructor
    · intro e
      rcases h.current _ (h.home t ht) (by simp) with e' | e'
      · have hlt := h.home t ht
        have := ht.1
        omega
      · rw [e] at e'
        exact e'.2.2
    · intro hr
      exact (h.running t ht hr).2
  cases p with
  | current =>
      show (s.cpu (s.tcb t).cpuIndex).currentThread = t ↔ _
      rw [hcur]
      cases (s.tcb t).status <;> simp [placeOf]
  | ready =>
      show (s.tcb t).status = .runnable ∧ _ ↔ _
      rw [hone, hrun]
      cases (s.tcb t).status <;> simp [placeOf]
  | blocked =>
      show (s.tcb t).status = .blocked ∧ _ ↔ _
      have hnot : (s.tcb t).status = .blocked → ∀ q, t ∉ L q := fun hb =>
        h.not_queued (by rw [hb]; decide) (by rw [hb]; decide)
      rw [and_iff_left_of_imp hnot]
      cases (s.tcb t).status <;> simp [placeOf]
  | zombie =>
      show (s.tcb t).status = .zombie ∧ _ ↔ _
      rw [hone, hzom]
      cases (s.tcb t).status <;> simp [placeOf]

theorem RunInv.accounted (h : RunInv s gone L) : Accounted s gone L where
  lists := h.placed.queues.rep
  place := by
    intro t ht
    refine ⟨_, (h.placed.at_iff ht).mpr rfl, fun p hp => ?_⟩
    exact (h.placed.at_iff ht).mp hp
  queued := by
    intro q t ht
    cases q with
    | run c =>
        obtain ⟨hthread, hc, -⟩ := (h.placed.run c t).mp ht
        exact ⟨hthread, Or.inl (by rw [hc])⟩
    | zombie c =>
        obtain ⟨hthread, hc, -⟩ := (h.placed.zombie c t).mp ht
        exact ⟨hthread, Or.inr (by rw [hc])⟩
  current := by
    intro c hc
    rw [h.placed.idle c hc]
    exact (h.placed.current c hc (by simp)).imp_right fun e => ⟨e.1, e.2.1⟩
  exited := by
    intro t
    rw [h.exited t]
    refine or_congr_right (and_congr_right fun ht => ?_)
    rw [h.placed.at_iff ht]
    cases (s.tcb t).status <;> simp [placeOf]
  freedOnce := h.counted.freed.1
  reaps := by
    intro c hc
    obtain ⟨s', -, hs', -, -, hr, -⟩ := h.placed.reap h.counted hc
    exact ⟨s', hs', hr.freed⟩
  threadCount := h.counted.listed
  schedThreadCount := h.counted.count
  proc := h.counted.freedProc
  returns := by
    intro k hv hk hpanic
    obtain ⟨s', -, hs', -⟩ := h.call hv hk hpanic
    exact ⟨s', hs'⟩

/-- Every state a run reaches is accounted for. -/
theorem reachable_accounted {n : Nat} (h : Reachable NoBlock n s gone) :
    ∃ L, Accounted s gone L := by
  obtain ⟨L, hinv⟩ := reachable_runInv h
  exact ⟨L, hinv.accounted⟩

/-- One CPU: a thread is spawned, the tick switches to it, it exits, and
the next tick frees it and its process. -/
theorem reachable_accounted_exit : ∃ s L, Accounted s [1] L
    ∧ s.freedTcbs = [1] ∧ s.freedPcbs = [1]
    ∧ (s.cpu 0).schedThreadCount = 0 := by
  have hplay : (play NoBlock (schedInit 1) [] [.spawnProc .kernel,
      .spawnThread 0 1 true 8, .tick 0 8, .exit 0 8, .tick 0 8]).map
      (fun r => (r.2, r.1.freedTcbs, r.1.freedPcbs,
        (r.1.cpu 0).schedThreadCount)) = some ([1], [1], [1], 0) := by
    decide +kernel
  obtain ⟨⟨s, gone⟩, hrun, heq⟩ := Option.map_eq_some_iff.mp hplay
  obtain ⟨rfl, hrest⟩ := Prod.mk.inj heq
  obtain ⟨hfreed, hrest⟩ := Prod.mk.inj hrest
  obtain ⟨hproc, hcount⟩ := Prod.mk.inj hrest
  obtain ⟨L, hL⟩ := reachable_accounted (reachable_play .init hrun)
  exact ⟨s, L, hL, hfreed, hproc, hcount⟩

end Alix.Sched
