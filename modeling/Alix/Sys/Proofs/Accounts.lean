/-
What the counters of the scheduler count.

`Counted` relates the counters and the two kinds of `kfree` to the threads
themselves: the thread list of a process is its unfreed threads, a CPU
counts its unfreed threads, and a process has been freed exactly if it has
had threads and none is left. Only `spawn_thread` and `sched_free_thread`
change what it speaks of; for the other operations `Frame` carries it
over.
-/
import Mathlib.Data.List.Nodup
import Alix.Sys.Proofs.Sched

namespace Alix.Sched

open Function (update update_self update_of_ne)

variable {s s' : Sched} {L : Queue → List Nat} {hole : Option Nat} {c t : Nat}

/-- The unfreed threads of a CPU, without its idle thread. -/
def threadsOf (s : Sched) (c : Nat) : List Nat :=
  (List.range s.tcbCount).filter fun t =>
    decide (s.cpuCount ≤ t) && !decide (t ∈ s.freedTcbs)
      && decide ((s.tcb t).cpuIndex = c)

theorem mem_threadsOf : t ∈ s.threadsOf c
    ↔ s.Thread t ∧ (s.tcb t).cpuIndex = c := by
  unfold threadsOf Thread Live
  simp only [List.mem_filter, List.mem_range, Bool.and_eq_true,
    decide_eq_true_eq, Bool.not_eq_true', decide_eq_false_iff_not]
  constructor
  · intro h
    exact ⟨⟨h.2.1.1, h.1, h.2.1.2⟩, h.2.2⟩
  · intro h
    exact ⟨h.1.2.1, ⟨h.1.1, h.1.2.2⟩, h.2⟩

theorem nodup_threadsOf (s : Sched) (c : Nat) : (s.threadsOf c).Nodup :=
  List.nodup_range.filter _

/-- Two lists of distinct threads with the same members are as long. -/
theorem length_eq_of_mem_iff {l l' : List Nat} (hl : l.Nodup) (hl' : l'.Nodup)
    (h : ∀ t, t ∈ l ↔ t ∈ l') : l.length = l'.length :=
  ((List.perm_ext_iff_of_nodup hl hl').mpr h).length_eq

/-- The counters count. -/
structure Counted (s : Sched) : Prop where
  cpus : s.cpuCount ≤ s.tcbCount
  count : ∀ c < s.cpuCount,
    (s.cpu c).schedThreadCount = (s.threadsOf c).length
  listed : ∀ p < s.pcbCount, p ∉ s.freedPcbs →
    (s.pcb p).threadCount = (s.pcb p).thread.length
      ∧ (s.pcb p).thread.Nodup
      ∧ ∀ t, t ∈ (s.pcb p).thread ↔ s.Live t ∧ (s.tcb t).parent = p
  parent : ∀ t < s.tcbCount, (s.tcb t).parent < s.pcbCount
  freed : s.freedTcbs.Nodup ∧ ∀ t ∈ s.freedTcbs,
    s.cpuCount ≤ t ∧ t < s.tcbCount
  freedProc : s.freedPcbs.Nodup ∧ ∀ p, p ∈ s.freedPcbs ↔ p < s.pcbCount
    ∧ (∃ t < s.tcbCount, (s.tcb t).parent = p)
    ∧ ∀ t < s.tcbCount, (s.tcb t).parent = p → t ∈ s.freedTcbs

theorem Counted.congr (h : Counted s) (hf : Frame s s') : Counted s' where
  cpus := by
    rw [hf.cpuCount, hf.tcbCount]
    exact h.cpus
  count := by
    intro c hc
    rw [hf.cpuCount] at hc
    rw [hf.count, h.count c hc]
    refine length_eq_of_mem_iff (nodup_threadsOf s c) (nodup_threadsOf s' c) ?_
    intro t
    rw [mem_threadsOf, mem_threadsOf, hf.thread, hf.home]
  listed := by
    intro p hp hfree
    rw [hf.pcbCount] at hp
    rw [hf.freedPcbs] at hfree
    obtain ⟨h1, h2, h3⟩ := h.listed p hp hfree
    rw [hf.pcb]
    refine ⟨h1, h2, fun t => ?_⟩
    rw [h3 t, hf.parent]
    unfold Live
    rw [hf.tcbCount, hf.freedTcbs]
  parent := by
    rw [hf.tcbCount, hf.pcbCount]
    intro t ht
    rw [hf.parent]
    exact h.parent t ht
  freed := by
    rw [hf.freedTcbs, hf.cpuCount, hf.tcbCount]
    exact h.freed
  freedProc := by
    rw [hf.freedPcbs, hf.freedTcbs, hf.pcbCount, hf.tcbCount]
    simp only [hf.parent]
    exact h.freedProc

/-- A live thread's process has not been freed. -/
theorem Counted.parent_live (h : Counted s) (ht : s.Live t) :
    (s.tcb t).parent ∉ s.freedPcbs := by
  intro hp
  obtain ⟨-, -, hall⟩ := (h.freedProc.2 _).mp hp
  exact ht.2 (hall t ht.1 rfl)

-- ==== freeing

/-- What `sched_free_thread` changes, the queues apart. -/
structure FreeSpec (s s' : Sched) (t : Nat) : Prop where
  cpuCount : s'.cpuCount = s.cpuCount
  tcb : s'.tcb = s.tcb
  tcbCount : s'.tcbCount = s.tcbCount
  current : ∀ c, (s'.cpu c).currentThread = (s.cpu c).currentThread
  idle : ∀ c, (s'.cpu c).idleThread = (s.cpu c).idleThread
  count : ∀ c, (s'.cpu c).schedThreadCount
    = (s.cpu c).schedThreadCount - if c = (s.tcb t).cpuIndex then 1 else 0
  freedTcbs : s'.freedTcbs = t :: s.freedTcbs
  pcbCount : s'.pcbCount = s.pcbCount
  pcb : ∀ p, p ≠ (s.tcb t).parent → s'.pcb p = s.pcb p
  list : (s'.pcb (s.tcb t).parent).thread
    = (s.pcb (s.tcb t).parent).thread.erase t
  threadCount : (s'.pcb (s.tcb t).parent).threadCount
    = (s.pcb (s.tcb t).parent).threadCount - 1
  freedPcbs : s'.freedPcbs
    = if (s.pcb (s.tcb t).parent).threadCount - 1 = 0 then
        (s.tcb t).parent :: s.freedPcbs
      else s.freedPcbs

/-- A thread leaves its process and the counts. -/
theorem schedFreeThread_spec (hidle : t ≠ (s.cpu c).idleThread)
    (hhome : (s.tcb t).cpuIndex < s.cpuCount)
    (hmem : t ∈ (s.pcb (s.tcb t).parent).thread) :
    FreeSpec s (s.schedFreeThread c t) t := by
  have hcpu : ∀ c', (update s.cpu (s.tcb t).cpuIndex
      { s.cpu (s.tcb t).cpuIndex with schedThreadCount :=
        (s.cpu (s.tcb t).cpuIndex).schedThreadCount - 1 } c').currentThread
        = (s.cpu c').currentThread
      ∧ (update s.cpu (s.tcb t).cpuIndex
      { s.cpu (s.tcb t).cpuIndex with schedThreadCount :=
        (s.cpu (s.tcb t).cpuIndex).schedThreadCount - 1 } c').idleThread
        = (s.cpu c').idleThread
      ∧ (update s.cpu (s.tcb t).cpuIndex
      { s.cpu (s.tcb t).cpuIndex with schedThreadCount :=
        (s.cpu (s.tcb t).cpuIndex).schedThreadCount - 1 } c').schedThreadCount
        = (s.cpu c').schedThreadCount
          - if c' = (s.tcb t).cpuIndex then 1 else 0 := by
    intro c'
    by_cases hc : c' = (s.tcb t).cpuIndex
    · rw [hc, update_self, if_pos rfl]
      exact ⟨rfl, rfl, rfl⟩
    · rw [update_of_ne hc, if_neg hc]
      exact ⟨rfl, rfl, rfl⟩
  have hstate : s.schedFreeThread c t = { s with
      cpu := update s.cpu (s.tcb t).cpuIndex
        { s.cpu (s.tcb t).cpuIndex with schedThreadCount :=
          (s.cpu (s.tcb t).cpuIndex).schedThreadCount - 1 }
      pcb := update s.pcb (s.tcb t).parent
        { s.pcb (s.tcb t).parent with
          thread := (s.pcb (s.tcb t).parent).thread.erase t
          threadCount := (s.pcb (s.tcb t).parent).threadCount - 1 }
      freedTcbs := t :: s.freedTcbs
      freedPcbs := if (s.pcb (s.tcb t).parent).threadCount - 1 = 0 then
          (s.tcb t).parent :: s.freedPcbs
        else s.freedPcbs } := by
    unfold schedFreeThread schedProcUnlinkThread schedFreeProc modPcb modCpu
    simp only [if_neg hidle, if_pos hhome, if_pos hmem, update_self]
    split <;> rfl
  rw [hstate]
  refine ⟨rfl, rfl, rfl, fun c' => (hcpu c').1, fun c' => (hcpu c').2.1,
    fun c' => (hcpu c').2.2, rfl, rfl, fun p hp => update_of_ne hp _ _, ?_, ?_,
    rfl⟩
  · simp only [update_self]
  · simp only [update_self]

/-- It does not touch the queues. -/
theorem schedFreeThread_queues (s : Sched) (c t : Nat) :
    (s.schedFreeThread c t).nodes = s.nodes
      ∧ (s.schedFreeThread c t).queue = s.queue
      ∧ (s.schedFreeThread c t).tcbCount = s.tcbCount := by
  unfold schedFreeThread schedProcUnlinkThread schedFreeProc modPcb modCpu
  split
  case isTrue => exact ⟨rfl, rfl, rfl⟩
  case isFalse =>
    simp only
    split <;> split <;> split <;> exact ⟨rfl, rfl, rfl⟩

/-- Nor does it read them. -/
theorem FreeSpec.of_withQueues {m : RqNodes Nat Nat} {rq : Queue → Rq Nat}
    (h : FreeSpec (s.withQueues m rq) s' t) : FreeSpec s s' t :=
  ⟨h.cpuCount, h.tcb, h.tcbCount, h.current, h.idle, h.count, h.freedTcbs,
    h.pcbCount, h.pcb, h.list, h.threadCount, h.freedPcbs⟩

theorem FreeSpec.live (h : FreeSpec s s' t) {u : Nat} :
    s'.Live u ↔ s.Live u ∧ u ≠ t := by
  unfold Live
  rw [h.tcbCount, h.freedTcbs, List.mem_cons, not_or]
  constructor
  · intro e
    exact ⟨⟨e.1, e.2.2⟩, e.2.1⟩
  · intro e
    exact ⟨e.1.1, e.2, e.1.2⟩

theorem FreeSpec.thread (h : FreeSpec s s' t) {u : Nat} :
    s'.Thread u ↔ s.Thread u ∧ u ≠ t := by
  unfold Thread
  rw [h.live, h.cpuCount, and_assoc]

theorem FreeSpec.idleThreads (hspec : FreeSpec s s' t)
    (h : ∀ c < s.cpuCount, (s.cpu c).idleThread = c) :
    ∀ c < s'.cpuCount, (s'.cpu c).idleThread = c := by
  rw [hspec.cpuCount]
  intro c hc
  rw [hspec.idle, h c hc]

theorem FreeSpec.idleHomes (hspec : FreeSpec s s' t)
    (h : ∀ c < s.cpuCount, (s.tcb c).cpuIndex = c) :
    ∀ c < s'.cpuCount, (s'.tcb c).cpuIndex = c := by
  rw [hspec.cpuCount, hspec.tcb]
  exact h

theorem FreeSpec.homes (hspec : FreeSpec s s' t)
    (h : ∀ u, s.Thread u → (s.tcb u).cpuIndex < s.cpuCount) :
    ∀ u, s'.Thread u → (s'.tcb u).cpuIndex < s'.cpuCount := by
  intro u hu
  rw [hspec.cpuCount, hspec.tcb]
  exact h u (hspec.thread.mp hu).1

theorem FreeSpec.stacks (hspec : FreeSpec s s' t)
    (h : ∀ u, s.Thread u → (s.tcb u).rsp ≠ 0) :
    ∀ u, s'.Thread u → (s'.tcb u).rsp ≠ 0 := by
  intro u hu
  rw [hspec.tcb]
  exact h u (hspec.thread.mp hu).1

theorem FreeSpec.length_threadsOf (hspec : FreeSpec s s' t) (ht : s.Thread t) (c : Nat) :
    (s'.threadsOf c).length
      = (s.threadsOf c).length - if c = (s.tcb t).cpuIndex then 1 else 0 := by
  have hmem : ∀ u, u ∈ s'.threadsOf c ↔ u ∈ s.threadsOf c ∧ u ≠ t := by
    intro u
    rw [mem_threadsOf, mem_threadsOf, hspec.thread, hspec.tcb, and_right_comm]
  symm
  split
  case isTrue hcpu =>
    have hin : t ∈ s.threadsOf c := mem_threadsOf.mpr ⟨ht, hcpu.symm⟩
    rw [← List.length_erase_of_mem hin]
    refine length_eq_of_mem_iff ((nodup_threadsOf s c).erase t)
      (nodup_threadsOf s' c) fun u => ?_
    rw [hmem u, (nodup_threadsOf s c).mem_erase_iff, and_comm]
  case isFalse hcpu =>
    refine length_eq_of_mem_iff (nodup_threadsOf s c) (nodup_threadsOf s' c) ?_
    intro u
    rw [hmem u]
    refine ⟨fun hu => ⟨hu, fun e => hcpu ?_⟩, fun hu => hu.1⟩
    rw [e] at hu
    exact (mem_threadsOf.mp hu).2.symm

/-- The last thread of a process goes exactly if every other one is freed
already. -/
theorem Counted.last_iff (h : Counted s) (ht : s.Live t) :
    (s.pcb (s.tcb t).parent).threadCount - 1 = 0
      ↔ ∀ u < s.tcbCount, (s.tcb u).parent = (s.tcb t).parent → u ∈ t :: s.freedTcbs := by
  obtain ⟨h1, h2, h3⟩ := h.listed _ (h.parent t ht.1) (h.parent_live ht)
  have hmem : t ∈ (s.pcb (s.tcb t).parent).thread := (h3 t).mpr ⟨ht, rfl⟩
  rw [h1, ← List.length_erase_of_mem hmem, List.length_eq_zero_iff]
  constructor
  · intro hnil u hu hpar
    by_contra hno
    have hlive : s.Live u := ⟨hu, fun e => hno (List.mem_cons_of_mem _ e)⟩
    have hne : u ≠ t := fun e => hno (by rw [e]; exact List.mem_cons_self)
    have : u ∈ (s.pcb (s.tcb t).parent).thread.erase t :=
      h2.mem_erase_iff.mpr ⟨hne, (h3 u).mpr ⟨hlive, hpar⟩⟩
    rw [hnil] at this
    cases this
  · intro hall
    rw [List.eq_nil_iff_forall_not_mem]
    intro u hu
    obtain ⟨hne, hu⟩ := h2.mem_erase_iff.mp hu
    obtain ⟨hlive, hpar⟩ := (h3 u).mp hu
    rcases List.mem_cons.mp (hall u hlive.1 hpar) with e | e
    · exact hne e
    · exact hlive.2 e

/-- Freeing a live thread keeps the counts. -/
theorem Counted.free (h : Counted s) (hspec : FreeSpec s s' t)
    (ht : s.Thread t) : Counted s' where
  cpus := by
    rw [hspec.cpuCount, hspec.tcbCount]
    exact h.cpus
  count := by
    intro c hc
    rw [hspec.cpuCount] at hc
    rw [hspec.count, h.count c hc, hspec.length_threadsOf ht]
  listed := by
    intro p hp hfree
    rw [hspec.pcbCount] at hp
    have hfree' : p ∉ s.freedPcbs := by
      rw [hspec.freedPcbs] at hfree
      split at hfree
      case isTrue => exact fun e => hfree (List.mem_cons_of_mem _ e)
      case isFalse => exact hfree
    obtain ⟨h1, h2, h3⟩ := h.listed p hp hfree'
    by_cases hpt : p = (s.tcb t).parent
    · subst hpt
      have hmem : t ∈ (s.pcb (s.tcb t).parent).thread := (h3 t).mpr ⟨ht.2, rfl⟩
      rw [hspec.list, hspec.threadCount, h1]
      refine ⟨(List.length_erase_of_mem hmem).symm, h2.erase t, fun u => ?_⟩
      rw [h2.mem_erase_iff, h3 u, hspec.live, hspec.tcb]
      tauto
    · rw [hspec.pcb p hpt]
      refine ⟨h1, h2, fun u => ?_⟩
      rw [h3 u, hspec.live, hspec.tcb]
      refine ⟨fun e => ⟨⟨e.1, fun eu => hpt ?_⟩, e.2⟩, fun e => ⟨e.1.1, e.2⟩⟩
      rw [← e.2, eu]
  parent := by
    rw [hspec.tcbCount, hspec.pcbCount, hspec.tcb]
    exact h.parent
  freed := by
    rw [hspec.freedTcbs, hspec.cpuCount, hspec.tcbCount]
    refine ⟨List.nodup_cons.mpr ⟨ht.2.2, h.freed.1⟩, fun u hu => ?_⟩
    cases hu with
    | head => exact ⟨ht.1, ht.2.1⟩
    | tail _ hu => exact h.freed.2 u hu
  freedProc := by
    have hparent := h.parent_live ht.2
    rw [hspec.freedPcbs, hspec.pcbCount, hspec.tcbCount, hspec.tcb,
      hspec.freedTcbs]
    constructor
    · split
      case isTrue => exact List.nodup_cons.mpr ⟨hparent, h.freedProc.1⟩
      case isFalse => exact h.freedProc.1
    · intro p
      by_cases hpt : p = (s.tcb t).parent
      · subst hpt
        rw [← h.last_iff ht.2]
        split
        case isTrue hz =>
          exact ⟨fun _ => ⟨h.parent t ht.2.1, ⟨t, ht.2.1, rfl⟩, hz⟩,
            fun _ => List.mem_cons_self⟩
        case isFalse hz =>
          exact ⟨fun e => (hparent e).elim, fun e => (hz e.2.2).elim⟩
      · have hold := h.freedProc.2 p
        have hsame : (∀ u < s.tcbCount, (s.tcb u).parent = p →
            u ∈ t :: s.freedTcbs) ↔ ∀ u < s.tcbCount, (s.tcb u).parent = p →
            u ∈ s.freedTcbs := by
          refine forall_congr' fun u => imp_congr_right fun _ =>
            imp_congr_right fun hpar => ?_
          rw [List.mem_cons]
          refine or_iff_right fun e => hpt ?_
          rw [← hpar, e]
        rw [hsame, ← hold]
        split
        case isTrue => rw [List.mem_cons, or_iff_right hpt]
        case isFalse => rfl

/-- Freeing a zombie that was taken off its queue. -/
theorem Placed.free {L' : Queue → List Nat} (h : Placed s L none)
    (hspec : FreeSpec s s' t) (hq : Queues s' L')
    (hmem : ∀ q u, u ∈ L' q ↔ u ∈ L q ∧ u ≠ t)
    (hz : (s.tcb t).status = .zombie) : Placed s' L' none where
  queues := hq
  idle := hspec.idleThreads h.idle
  idleRuns := by
    rw [hspec.cpuCount, hspec.tcb]
    exact h.idleRuns
  idleHome := hspec.idleHomes h.idleHome
  home := hspec.homes h.home
  stack := hspec.stacks h.stack
  run := by
    intro c u
    rw [hmem, h.run c u, hspec.thread, hspec.tcb]
    tauto
  zombie := by
    intro c u
    rw [hmem, h.zombie c u, hspec.thread, hspec.tcb]
    tauto
  current := by
    rw [hspec.cpuCount]
    intro c hc hh
    rw [hspec.current, hspec.tcb, hspec.thread]
    refine (h.current c hc hh).imp_right fun hcur => ⟨⟨hcur.1, fun e => ?_⟩, hcur.2⟩
    rw [e, hz] at hcur
    cases hcur.2.2
  running := by
    intro u hu hr
    rw [hspec.tcb] at hr ⊢
    rw [hspec.current]
    exact h.running u (hspec.thread.mp hu).1 hr

-- ==== reaping

/-- What a run of `sched_reap_cpu` leaves alone, and whom it frees. -/
structure Reaped (s s' : Sched) (zombies : List Nat) : Prop where
  tcb : s'.tcb = s.tcb
  cpuCount : s'.cpuCount = s.cpuCount
  tcbCount : s'.tcbCount = s.tcbCount
  current : ∀ c, (s'.cpu c).currentThread = (s.cpu c).currentThread
  freed : ∀ t, t ∈ s'.freedTcbs ↔ t ∈ s.freedTcbs ∨ t ∈ zombies

/-- An invariant that a reap of CPU `c` keeps: its zombies are threads of
a CPU that exists, and it survives the freeing of one. -/
structure Reapable (c : Nat) (I : Sched → (Queue → List Nat) → Prop) :
    Prop where
  queues : ∀ {s L}, I s L → Queues s L
  zombie : ∀ {s L}, I s L → c < s.cpuCount → ∀ t ∈ L (.zombie c),
    s.Thread t ∧ (s.tcb t).cpuIndex < s.cpuCount ∧ t ≠ (s.cpu c).idleThread
  free : ∀ {s L s' L' t}, I s L → t ∈ L (.zombie c) → FreeSpec s s' t →
    Queues s' L' → (∀ q u, u ∈ L' q ↔ u ∈ L q ∧ u ≠ t) → I s' L'

/-- A round of `sched_reap_cpu` that finds a zombie. -/
theorem reap_round {I : Sched → (Queue → List Nat) → Prop} (hI : Reapable c I)
    (h : I s L) (hn : Counted s) (hc : c < s.cpuCount) {X : List Nat}
    (hl : L (.zombie c) = t :: X) :
    ∃ m rq, s.popFront (.zombie c) = some (s.withQueues m rq, some t)
      ∧ I ((s.withQueues m rq).schedFreeThread c t) (update L (.zombie c) X)
      ∧ Counted ((s.withQueues m rq).schedFreeThread c t)
      ∧ FreeSpec s ((s.withQueues m rq).schedFreeThread c t) t := by
  obtain ⟨m, rq, hpop, hq⟩ := (hI.queues h).popFront_cons hl
  have ht : t ∈ L (.zombie c) := by rw [hl]; exact List.mem_cons_self
  obtain ⟨hthread, hhome, hnidle⟩ := hI.zombie h hc t ht
  have hlisted := (hn.listed _ (hn.parent t hthread.2.1)
    (hn.parent_live hthread.2)).2.2
  have hspec := (schedFreeThread_spec (s := s.withQueues m rq) (c := c)
    hnidle hhome ((hlisted t).mpr ⟨hthread.2, rfl⟩)).of_withQueues
  have hqueues := schedFreeThread_queues (s.withQueues m rq) c t
  have hmem : ∀ q u, u ∈ update L (.zombie c) X q ↔ u ∈ L q ∧ u ≠ t := by
    intro q u
    have hnd := (hI.queues h).nodup (.zombie c)
    rw [hl] at hnd
    rw [mem_update]
    split
    case isTrue hqz =>
      rw [hqz, hl, List.mem_cons]
      constructor
      · intro hu
        exact ⟨Or.inr hu, fun e => (List.nodup_cons.mp hnd).1 (e ▸ hu)⟩
      · intro hu
        exact hu.1.resolve_left hu.2
    case isFalse hqz =>
      refine ⟨fun hu => ⟨hu, fun e => hqz ?_⟩, fun hu => hu.1⟩
      exact (hI.queues h).apart q _ t (e ▸ hu) ht
  exact ⟨m, rq, hpop, hI.free h ht hspec
    (hq.congr hqueues.1 hqueues.2.1 hqueues.2.2) hmem, hn.free hspec hthread,
    hspec⟩

/-- The loop frees the zombies of its CPU, each once. -/
theorem reap_loop {I : Sched → (Queue → List Nat) → Prop} (hI : Reapable c I)
    (h : I s L) (hn : Counted s) (hc : c < s.cpuCount) {fuel : Nat}
    (hfuel : (L (.zombie c)).length < fuel) :
    ∃ s' L', s.schedReapCpu c fuel = some s' ∧ I s' L' ∧ Counted s'
      ∧ Reaped s s' (L (.zombie c)) ∧ ∀ q, q ≠ .zombie c → L' q = L q := by
  generalize hl : L (.zombie c) = l at hfuel
  induction l generalizing s L fuel with
  | nil =>
      cases fuel with
      | zero => simp at hfuel
      | succ fuel =>
          unfold schedReapCpu
          rw [(hI.queues h).popFront_nil hl]
          exact ⟨s, L, rfl, h, hn, ⟨rfl, rfl, rfl, fun _ => rfl,
            fun t => by simp⟩, fun q _ => rfl⟩
  | cons t X ih =>
      cases fuel with
      | zero => simp at hfuel
      | succ fuel =>
          obtain ⟨m, rq, hpop, hI', hn₁, hspec⟩ := reap_round hI h hn hc hl
          obtain ⟨s', L', hrun, hp', hn', hreap, hsame⟩ := ih hI' hn₁
            (by rw [hspec.cpuCount]; exact hc) (update_self _ _ _)
            (by simpa using hfuel)
          refine ⟨s', L', ?_, hp', hn', ⟨hreap.tcb.trans hspec.tcb,
            hreap.cpuCount.trans hspec.cpuCount,
            hreap.tcbCount.trans hspec.tcbCount,
            fun c' => (hreap.current c').trans (hspec.current c'), fun u => ?_⟩,
            fun q hqz => (hsame q hqz).trans (update_of_ne hqz _ _)⟩
          · unfold schedReapCpu
            rw [hpop]
            exact hrun
          · rw [hreap.freed, hspec.freedTcbs, List.mem_cons, List.mem_cons]
            tauto

theorem reapable_placed (c : Nat) : Reapable c fun s L => Placed s L none where
  queues := fun h => h.queues
  zombie := by
    intro s L h hc t ht
    obtain ⟨hthread, hhome, -⟩ := (h.zombie c t).mp ht
    refine ⟨hthread, h.home t hthread, ?_⟩
    rw [h.idle c hc]
    have := hthread.1
    omega
  free := fun h ht hspec hq hmem =>
    h.free hspec hq hmem ((h.zombie c _).mp ht).2.2

/-- `sched_reap` frees every zombie of its CPU. -/
theorem Placed.reap (h : Placed s L none) (hn : Counted s)
    (hc : c < s.cpuCount) :
    ∃ s' L', s.schedReap c = some s' ∧ Placed s' L' none ∧ Counted s'
      ∧ Reaped s s' (L (.zombie c)) ∧ ∀ q, q ≠ .zombie c → L' q = L q :=
  reap_loop (reapable_placed c) h hn hc
    (Nat.lt_succ_of_le (h.queues.length_le _))

-- ==== ticking

/-- Counting ticks moves nobody. -/
theorem Placed.count (h : Placed s L hole) (t : Nat) (f : Tcb → Tcb)
    (hst : ∀ th, (f th).status = th.status) (hrsp : ∀ th, (f th).rsp = th.rsp)
    (hhome : ∀ th, (f th).cpuIndex = th.cpuIndex)
    (hpar : ∀ th, (f th).parent = th.parent) :
    Frame s (s.modTcb t f) ∧ Placed (s.modTcb t f) L hole
      ∧ Dies s (s.modTcb t f) [] := by
  have hf := frame_modTcb s t f hhome hpar
  have hsame : ∀ u, ((s.modTcb t f).tcb u).status = (s.tcb u).status := by
    intro u
    rw [modTcb_tcb]
    split
    case isTrue hu => rw [hst, hu]
    case isFalse => rfl
  refine ⟨hf, h.touch hf (h.queues.congr rfl rfl rfl) rfl hsame fun u hu => ?_,
    dies_of_status fun u _ => hsame u⟩
  · rw [modTcb_tcb]
    split
    case isTrue hut => rw [hrsp, ← hut]; exact h.stack u hu
    case isFalse => exact h.stack u hu

/-- The current thread of a CPU is running. -/
theorem Placed.current_running (h : Placed s L none) (hc : c < s.cpuCount) :
    (s.tcb (s.cpu c).currentThread).status = .running := by
  rcases h.current c hc (by simp) with e | e
  · rw [e]
    exact h.idleRuns c hc
  · exact e.2.2

/-- The current thread has to make room: it is the idle thread, or its
quantum ends with this tick. -/
def Expired (s : Sched) (c : Nat) : Prop :=
  (s.cpu c).currentThread = (s.cpu c).idleThread
    ∨ (s.tcb (s.cpu c).currentThread).ticksLeft ≤ 1

/-- A tick goes to the first thread of the run queue if the current one
has to make room, and nowhere else. -/
structure TickSwitch (s s' : Sched) (L : Queue → List Nat) (c : Nat) :
    Prop where
  stays : ¬ s.Expired c → (s'.cpu c).currentThread = (s.cpu c).currentThread
  goes : s.Expired c → (s'.cpu c).currentThread
    = (L (.run c)).head?.getD (s.cpu c).currentThread

/-- `sched_tick`: a reap, and then nothing is freed any more. -/
theorem Placed.tick (h : Placed s L none) (hn : Counted s)
    (hc : c < s.cpuCount) {sp : Nat} (hsp : sp ≠ 0) :
    ∃ s' s₁ L', s.schedTick c sp = some s' ∧ Placed s' L' none
      ∧ Reaped s s₁ (L (.zombie c)) ∧ Counted s₁ ∧ Frame s₁ s'
      ∧ Dies s₁ s' [] ∧ TickSwitch s s' L c := by
  obtain ⟨s₁, L₁, hreap, h₁, hn₁, hspec, hsame⟩ := h.reap hn hc
  have hidle : (s₁.cpu c).idleThread = (s.cpu c).idleThread := by
    rw [h₁.idle c (by rw [hspec.cpuCount]; exact hc), h.idle c hc]
  have hlist : L₁ (.run c) = L (.run c) := hsame _ (by simp)
  rw [← hspec.cpuCount] at hc
  have hrun := h₁.current_running hc
  obtain ⟨hf₂, h₂, hd₂⟩ := h₁.count (s₁.cpu c).currentThread
    (fun th => { th with totalTicks := th.totalTicks + 1 }) (fun _ => rfl)
    (fun _ => rfl) (fun _ => rfl) fun _ => rfl
  obtain ⟨hf₃, h₃, hd₃⟩ := h₂.count (s₁.cpu c).currentThread
    (fun th => { th with ticksLeft := th.ticksLeft - 1 }) (fun _ => rfl)
    (fun _ => rfl) (fun _ => rfl) fun _ => rfl
  have hf := hf₂.trans hf₃
  have hd := hd₂.trans hf₂ hd₃
  unfold schedTick
  simp only [hreap]
  rw [if_pos (by rw [modTcb_tcb, if_pos rfl]; exact hrun)]
  generalize hs₃ : (s₁.modTcb (s₁.cpu c).currentThread fun th =>
    { th with totalTicks := th.totalTicks + 1 }).modTcb
      (s₁.cpu c).currentThread (fun th =>
        { th with ticksLeft := th.ticksLeft - 1 }) = s₃ at h₃ hf hd
  have hcpu : s₁.cpu = s₃.cpu := by rw [← hs₃]; rfl
  have hleft : (s₃.tcb (s₁.cpu c).currentThread).ticksLeft
      = (s₁.tcb (s₁.cpu c).currentThread).ticksLeft - 1 := by
    rw [← hs₃, modTcb_tcb, if_pos rfl, modTcb_tcb, if_pos rfl]
  rw [hspec.tcb] at hleft
  have hcurrent := hspec.current c
  have hc₃ : c < s₃.cpuCount := by rw [hf.cpuCount]; exact hc
  rw [hcpu] at hleft hcurrent hidle ⊢
  split
  case isTrue hstay =>
    refine ⟨s₃, s₁, L₁, rfl, h₃, hspec, hn₁, hf, hd, fun _ => hcurrent, ?_⟩
    -- nobody is waiting, or the idle thread would have gone
    intro hexp
    unfold Expired at hexp
    rw [← hcurrent, ← hidle] at hexp
    have hempty : (s₃.queue (.run c)).empty = true := by
      rcases hexp with e | e
      · exact hstay.2.resolve_left (not_not.mpr e)
      · omega
    have hlen := (h₃.queues.rep (.run c)).len
    rw [beq_iff_eq.mp hempty, hlist] at hlen
    rw [List.length_eq_zero_iff.mp hlen.symm]
    exact hcurrent
  case isFalse hexp =>
    by_cases hcur : (s₃.cpu c).currentThread = (s₃.cpu c).idleThread
    · rw [if_neg (not_not.mpr hcur)]
      obtain ⟨s', L', hs', hf', hp', hd', hnew⟩ :=
        (h₃.open_idle hc₃ hcur).runNext hc₃ hsp rfl
      refine ⟨s', s₁, L', hs', hp', hspec, hn₁, hf.trans hf', hd.trans hf hd',
        fun hno => (hno (Or.inl ?_)).elim, fun _ => ?_⟩
      · rw [← hcurrent, ← hidle, hcur]
      · rw [hnew, first, hlist, ← hcurrent, hcur, h₃.idle c hc₃]
    · rw [if_pos hcur]
      obtain ⟨hfr, hput⟩ := h₃.retire hc₃ hcur (f := fun th => { th with
        status := .runnable, ticksLeft := SCHED_QUANTUM_TICKS })
        (fun _ => rfl) (by decide) (fun _ => rfl) (fun _ => rfl) fun _ => rfl
      obtain ⟨s', L', hs', hf', hp', hd', hnew⟩ := hput.runNext hc₃ hsp rfl
      have hrun₃ := (h₃.current_thread hc₃ hcur).2.2
      have hdput := dies_put (s := s₃) (D := []) (f := fun th => { th with
        status := .runnable, ticksLeft := SCHED_QUANTUM_TICKS }) .runnable
        (fun _ => rfl) (by rw [hrun₃]; decide) (by simp)
        (destination c .runnable)
      refine ⟨s', s₁, L', hs', hp', hspec, hn₁, (hf.trans hfr).trans hf',
        hd.trans hf (hdput.trans hfr hd'), fun hno => (hno (Or.inr ?_)).elim,
        fun _ => ?_⟩
      · -- the quantum is used up, or the tick would have returned
        have hzero : (s₃.tcb (s₃.cpu c).currentThread).ticksLeft = 0 := by
          by_contra hne
          exact hexp ⟨hne, Or.inl hcur⟩
        rw [← hcurrent]
        omega
      · -- the current thread went to the end of the queue
        rw [hnew, first]
        show (update L₁ (.run c) (L₁ (.run c) ++ [_]) (.run c)).head?.getD c = _
        rw [update_self, hlist, ← hcurrent]
        cases L (.run c) with
        | nil => rfl
        | cons t X => rfl

-- ==== spawning

/-- `sched_select_cpu` picks a CPU that exists. -/
theorem schedSelectCpu_lt (hc : c < s.cpuCount) :
    s.schedSelectCpu c < s.cpuCount := by
  have hfold : ∀ (l : List Nat) (best : Option Nat × Nat),
      (∀ x ∈ l, x < s.cpuCount) → (∀ x ∈ best.1, x < s.cpuCount) →
      ∀ x ∈ (l.foldl s.selectRound best).1, x < s.cpuCount := by
    intro l
    induction l with
    | nil => exact fun best _ hb => hb
    | cons y l ih =>
        intro best hl hb
        refine ih _ (fun x hx => hl x (List.mem_cons_of_mem _ hx)) ?_
        unfold selectRound
        split
        case isTrue =>
          intro x hx
          cases hx
          exact hl y List.mem_cons_self
        case isFalse => exact hb
  unfold schedSelectCpu
  cases hbest : ((List.range s.cpuCount).foldl s.selectRound
      (none, 2 ^ 64 - 1)).1 with
  | none => exact hc
  | some x =>
      exact hfold _ _ (fun x hx => List.mem_range.mp hx) (fun x hx => by cases hx)
        x hbest

/-- What a successful `spawn_thread` for process `p` changes, the queues
apart. -/
structure SpawnSpec (s s' : Sched) (cpu p rsp : Nat) : Prop where
  cpuCount : s'.cpuCount = s.cpuCount
  tcb : ∀ t, t ≠ s.tcbCount → s'.tcb t = s.tcb t
  fresh : s'.tcb s.tcbCount = ⟨.runnable, SCHED_QUANTUM_TICKS, 0, rsp, p, cpu⟩
  tcbCount : s'.tcbCount = s.tcbCount + 1
  current : ∀ c, (s'.cpu c).currentThread = (s.cpu c).currentThread
  idle : ∀ c, (s'.cpu c).idleThread = (s.cpu c).idleThread
  count : ∀ c, (s'.cpu c).schedThreadCount
    = (s.cpu c).schedThreadCount + if c = cpu then 1 else 0
  freedTcbs : s'.freedTcbs = s.freedTcbs
  pcbCount : s'.pcbCount = s.pcbCount
  freedPcbs : s'.freedPcbs = s.freedPcbs
  pcb : ∀ p', p' ≠ p → s'.pcb p' = s.pcb p'
  list : (s'.pcb p).thread = s.tcbCount :: (s.pcb p).thread
  threadCount : (s'.pcb p).threadCount = (s.pcb p).threadCount + 1

/-- A spawn does nothing, or it creates a thread and queues it. -/
theorem spawnThread_spec (s : Sched) (c p rsp : Nat) (mem : Bool) :
    s.spawnThread c p mem rsp = s ∨
      (SpawnSpec s (s.spawnThread c p mem rsp) (s.schedSelectCpu c) p rsp
        ∧ ∀ L, Queues s L → Queues (s.spawnThread c p mem rsp)
          (update L (.run (s.schedSelectCpu c))
            (L (.run (s.schedSelectCpu c)) ++ [s.tcbCount]))) := by
  unfold spawnThread
  split
  case isTrue => exact Or.inl rfl
  case isFalse =>
    cases mem with
    | false => exact Or.inl rfl
    | true =>
        right
        simp only [Bool.not_true, Bool.false_eq_true, if_false]
        generalize s.schedSelectCpu c = cpu
        refine ⟨⟨rfl, fun t ht => update_of_ne ht _ _, update_self _ _ _, rfl, ?_,
          ?_, ?_, rfl, rfl, rfl, fun p' hp => update_of_ne hp _ _, ?_, ?_⟩, ?_⟩
        · intro c'
          unfold modCpu
          by_cases hc : c' = cpu
          · subst hc
            simp [pushBack, modPcb]
          · simp [pushBack, modPcb, hc]
        · intro c'
          unfold modCpu
          by_cases hc : c' = cpu
          · subst hc
            simp [pushBack, modPcb]
          · simp [pushBack, modPcb, hc]
        · intro c'
          unfold modCpu
          by_cases hc : c' = cpu
          · subst hc
            simp [pushBack, modPcb]
          · simp [pushBack, modPcb, hc]
        · simp [modCpu, pushBack, modPcb]
        · simp [modCpu, pushBack, modPcb]
        · intro L hq
          have hnew : ∀ q, s.tcbCount ∉ L q := fun q hmem =>
            Nat.lt_irrefl _ (hq.bound q _ hmem)
          -- the node of the new thread is initialised before it is queued
          have hinit : Queues { s with
              tcbCount := s.tcbCount + 1
              nodes := s.nodes.nodeInit s.tcbCount s.tcbCount } L := by
            refine ⟨fun q => (hq.rep q).nodeInit (hnew q), hq.apart, ?_, ?_⟩
            · intro q t ht
              show update s.nodes.data s.tcbCount (some s.tcbCount) t = some t
              have hne : t ≠ s.tcbCount := fun e => hnew q (by rw [← e]; exact ht)
              rw [update_of_ne hne]
              exact hq.data q t ht
            · intro q t ht
              exact Nat.lt_succ_of_lt (hq.bound q t ht)
          exact (hinit.pushBack (q := .run cpu) hnew (Nat.lt_succ_self _)).congr
            rfl rfl rfl

theorem SpawnSpec.thread {cpu p rsp : Nat} (h : SpawnSpec s s' cpu p rsp)
    (hn : Counted s) {u : Nat} :
    s'.Thread u ↔ s.Thread u ∨ u = s.tcbCount := by
  unfold Thread Live
  rw [h.cpuCount, h.tcbCount, h.freedTcbs]
  have hcpus := hn.cpus
  have hfresh : s.tcbCount ∉ s.freedTcbs := fun e =>
    Nat.lt_irrefl _ (hn.freed.2 _ e).2
  constructor
  · intro e
    by_cases hu : u = s.tcbCount
    · exact Or.inr hu
    · exact Or.inl ⟨e.1, by omega, e.2.2⟩
  · intro e
    rcases e with e | rfl
    · exact ⟨e.1, by omega, e.2.2⟩
    · exact ⟨hcpus, by omega, hfresh⟩

section

variable {cpu p rsp : Nat}

theorem SpawnSpec.idleThreads (hspec : SpawnSpec s s' cpu p rsp)
    (h : ∀ c < s.cpuCount, (s.cpu c).idleThread = c) :
    ∀ c < s'.cpuCount, (s'.cpu c).idleThread = c := by
  rw [hspec.cpuCount]
  intro c hc
  rw [hspec.idle, h c hc]

theorem SpawnSpec.idleHomes (hspec : SpawnSpec s s' cpu p rsp) (hn : Counted s)
    (h : ∀ c < s.cpuCount, (s.tcb c).cpuIndex = c) :
    ∀ c < s'.cpuCount, (s'.tcb c).cpuIndex = c := by
  have hcpus := hn.cpus
  rw [hspec.cpuCount]
  intro c hc
  rw [hspec.tcb c (by omega), h c hc]

theorem SpawnSpec.homes (hspec : SpawnSpec s s' cpu p rsp) (hn : Counted s)
    (hcpu : cpu < s.cpuCount) (h : ∀ u, s.Thread u → (s.tcb u).cpuIndex < s.cpuCount) :
    ∀ u, s'.Thread u → (s'.tcb u).cpuIndex < s'.cpuCount := by
  intro u hu
  rw [hspec.cpuCount]
  rcases (hspec.thread hn).mp hu with hu | rfl
  · rw [hspec.tcb u (Nat.ne_of_lt hu.2.1)]
    exact h u hu
  · rw [hspec.fresh]
    exact hcpu

theorem SpawnSpec.stacks (hspec : SpawnSpec s s' cpu p rsp) (hn : Counted s)
    (hrsp : rsp ≠ 0) (h : ∀ u, s.Thread u → (s.tcb u).rsp ≠ 0) :
    ∀ u, s'.Thread u → (s'.tcb u).rsp ≠ 0 := by
  intro u hu
  rcases (hspec.thread hn).mp hu with hu | rfl
  · rw [hspec.tcb u (Nat.ne_of_lt hu.2.1)]
    exact h u hu
  · rw [hspec.fresh]
    exact hrsp

theorem SpawnSpec.length_threadsOf (hspec : SpawnSpec s s' cpu p rsp) (hn : Counted s)
    (c : Nat) : (s'.threadsOf c).length
      = (s.threadsOf c).length + if c = cpu then 1 else 0 := by
  have hmem : ∀ u, u ∈ s'.threadsOf c
      ↔ u ∈ s.threadsOf c ∨ (u = s.tcbCount ∧ c = cpu) := by
    intro u
    rw [mem_threadsOf, mem_threadsOf, hspec.thread hn]
    by_cases hu : u = s.tcbCount
    · subst hu
      rw [hspec.fresh]
      have : ¬ s.Thread s.tcbCount := fun e => Nat.lt_irrefl _ e.2.1
      simp [this, eq_comm]
    · rw [hspec.tcb u hu]
      simp [hu]
  have hnot : s.tcbCount ∉ s.threadsOf c := fun e =>
    Nat.lt_irrefl _ (mem_threadsOf.mp e).1.2.1
  symm
  split
  case isTrue hcc =>
    show (s.tcbCount :: s.threadsOf c).length = _
    refine length_eq_of_mem_iff
      (List.nodup_cons.mpr ⟨hnot, nodup_threadsOf s c⟩)
      (nodup_threadsOf s' c) fun u => ?_
    rw [hmem u, List.mem_cons]
    simp [hcc, or_comm]
  case isFalse hcc =>
    refine length_eq_of_mem_iff (nodup_threadsOf s c) (nodup_threadsOf s' c) ?_
    intro u
    rw [hmem u]
    simp [hcc]

/-- The other processes have the threads they had. -/
theorem SpawnSpec.child_iff (hspec : SpawnSpec s s' cpu p rsp) {p' u : Nat} (hpp : p' ≠ p) :
    u < s.tcbCount + 1 ∧ (s'.tcb u).parent = p' ↔ u < s.tcbCount ∧ (s.tcb u).parent = p' := by
  by_cases hun : u = s.tcbCount
  · rw [hun, hspec.fresh]
    exact ⟨fun e => (hpp e.2.symm).elim, fun e => (Nat.lt_irrefl _ e.1).elim⟩
  · rw [hspec.tcb u hun]
    exact and_congr_left fun _ => by omega

end

theorem SpawnSpec.live {cpu p rsp : Nat} (h : SpawnSpec s s' cpu p rsp)
    (hn : Counted s) {u : Nat} :
    s'.Live u ↔ s.Live u ∨ u = s.tcbCount := by
  unfold Live
  rw [h.tcbCount, h.freedTcbs]
  have hfresh : s.tcbCount ∉ s.freedTcbs := fun e =>
    Nat.lt_irrefl _ (hn.freed.2 _ e).2
  constructor
  · intro e
    by_cases hu : u = s.tcbCount
    · exact Or.inr hu
    · exact Or.inl ⟨by omega, e.2⟩
  · intro e
    rcases e with e | rfl
    · exact ⟨by omega, e.2⟩
    · exact ⟨by omega, hfresh⟩

/-- A new thread is runnable and queued. -/
theorem Placed.spawn (h : Placed s L none) (hn : Counted s)
    {cpu p rsp : Nat} (hspec : SpawnSpec s s' cpu p rsp)
    (hcpu : cpu < s.cpuCount) (hrsp : rsp ≠ 0)
    (hq : Queues s' (update L (.run cpu) (L (.run cpu) ++ [s.tcbCount]))) :
    Placed s' (update L (.run cpu) (L (.run cpu) ++ [s.tcbCount])) none := by
  have hcpus := hn.cpus
  have hold : ∀ u, s.Thread u → s'.tcb u = s.tcb u := fun u hu =>
    hspec.tcb u (Nat.ne_of_lt hu.2.1)
  have hidle : ∀ c < s.cpuCount, s'.tcb c = s.tcb c := fun c hc =>
    hspec.tcb c (by omega)
  have hnew : ∀ q, s.tcbCount ∉ L q := fun q hmem =>
    Nat.lt_irrefl _ (h.queues.bound q _ hmem)
  have hmem : ∀ q u, u ∈ update L (.run cpu) (L (.run cpu) ++ [s.tcbCount]) q
      ↔ u ∈ L q ∨ (u = s.tcbCount ∧ q = .run cpu) := by
    intro q u
    rw [mem_update]
    by_cases hqc : q = .run cpu
    · subst hqc
      simp
    · rw [if_neg hqc]
      simp [hqc]
  refine ⟨hq, hspec.idleThreads h.idle, ?_, hspec.idleHomes hn h.idleHome,
    hspec.homes hn hcpu h.home, hspec.stacks hn hrsp h.stack, ?_, ?_, ?_, ?_⟩
  · rw [hspec.cpuCount]
    intro c hc
    rw [hidle c hc, h.idleRuns c hc]
  · intro c u
    rw [hmem, hspec.thread hn]
    by_cases hu : u = s.tcbCount
    · subst hu
      rw [hspec.fresh]
      simp [hnew, eq_comm]
    · rw [hspec.tcb u hu, h.run c u]
      simp [hu]
  · intro c u
    rw [hmem, hspec.thread hn]
    by_cases hu : u = s.tcbCount
    · subst hu
      rw [hspec.fresh]
      simp [hnew]
    · rw [hspec.tcb u hu, h.zombie c u]
      simp [hu]
  · rw [hspec.cpuCount]
    intro c hc hh
    rw [hspec.current]
    refine (h.current c hc hh).imp_right fun hcur => ?_
    rw [hold _ hcur.1]
    exact ⟨(hspec.thread hn).mpr (Or.inl hcur.1), hcur.2⟩
  · intro u hu hr
    rcases (hspec.thread hn).mp hu with hu | rfl
    · rw [hold u hu] at hr ⊢
      rw [hspec.current]
      exact h.running u hu hr
    · rw [hspec.fresh] at hr
      cases hr

/-- A new thread is counted, and its process stays. -/
theorem Counted.spawn (hn : Counted s) {cpu p rsp : Nat}
    (hspec : SpawnSpec s s' cpu p rsp) (hp : p < s.pcbCount)
    (hfree : p ∉ s.freedPcbs) : Counted s' where
  cpus := by
    have := hn.cpus
    rw [hspec.cpuCount, hspec.tcbCount]
    omega
  count := by
    rw [hspec.cpuCount]
    intro c hc
    rw [hspec.count, hn.count c hc, hspec.length_threadsOf hn]
  listed := by
    rw [hspec.pcbCount, hspec.freedPcbs]
    intro p' hp' hfree'
    obtain ⟨h1, h2, h3⟩ := hn.listed p' hp' hfree'
    have hnot : s.tcbCount ∉ (s.pcb p').thread := fun e =>
      Nat.lt_irrefl _ ((h3 _).mp e).1.1
    by_cases hpp : p' = p
    · subst hpp
      rw [hspec.list, hspec.threadCount, h1]
      refine ⟨rfl, List.nodup_cons.mpr ⟨hnot, h2⟩, fun u => ?_⟩
      rw [List.mem_cons, h3 u, hspec.live hn]
      by_cases hu : u = s.tcbCount
      · subst hu
        rw [hspec.fresh]
        simp
      · rw [hspec.tcb u hu]
        simp [hu]
    · rw [hspec.pcb p' hpp]
      refine ⟨h1, h2, fun u => ?_⟩
      rw [h3 u, hspec.live hn]
      by_cases hu : u = s.tcbCount
      · subst hu
        rw [hspec.fresh]
        have : ¬ s.Live s.tcbCount := fun e => Nat.lt_irrefl _ e.1
        simp [this, Ne.symm hpp]
      · rw [hspec.tcb u hu]
        simp [hu]
  parent := by
    rw [hspec.tcbCount, hspec.pcbCount]
    intro u hu
    by_cases hun : u = s.tcbCount
    · rw [hun, hspec.fresh]
      exact hp
    · rw [hspec.tcb u hun]
      exact hn.parent u (by omega)
  freed := by
    rw [hspec.freedTcbs, hspec.cpuCount, hspec.tcbCount]
    refine ⟨hn.freed.1, fun u hu => ?_⟩
    have := hn.freed.2 u hu
    omega
  freedProc := by
    rw [hspec.freedPcbs, hspec.pcbCount, hspec.tcbCount, hspec.freedTcbs]
    refine ⟨hn.freedProc.1, fun p' => ?_⟩
    rw [hn.freedProc.2 p']
    have hfresh : s.tcbCount ∉ s.freedTcbs := fun e =>
      Nat.lt_irrefl _ (hn.freed.2 _ e).2
    by_cases hpp : p' = p
    · subst hpp
      -- it was not freed before, and the new thread keeps it
      constructor
      · intro e
        exact (hfree ((hn.freedProc.2 p').mpr e)).elim
      · intro e
        have := e.2.2 s.tcbCount (by omega) (by rw [hspec.fresh])
        exact (hfresh this).elim
    · have hchild := fun u => hspec.child_iff (u := u) hpp
      refine and_congr_right fun _ => and_congr (exists_congr fun u => (hchild u).symm) ?_
      refine forall_congr' fun u => ?_
      rw [← and_imp, ← and_imp]
      exact imp_congr_left (hchild u).symm

/-- `spawn_proc` adds a process without threads. -/
theorem Counted.spawnProc (hn : Counted s) (type : ProcType) :
    Counted (s.spawnProc type) where
  cpus := hn.cpus
  count := hn.count
  listed := by
    intro p hp hfree
    show (update s.pcb s.pcbCount ⟨type, [], 0⟩ p).threadCount = _ ∧ _
    by_cases hpp : p = s.pcbCount
    · subst hpp
      have hpcb : (s.spawnProc type).pcb s.pcbCount = ⟨type, [], 0⟩ :=
        update_self _ _ _
      rw [update_self, hpcb]
      refine ⟨rfl, List.nodup_nil, fun u => ⟨fun e => (by cases e), fun e => ?_⟩⟩
      have := hn.parent u e.1.1
      have hpar : (s.tcb u).parent = s.pcbCount := e.2
      omega
    · have hpcb : (s.spawnProc type).pcb p = s.pcb p := update_of_ne hpp _ _
      rw [update_of_ne hpp, hpcb]
      have hp' : p < s.pcbCount + 1 := hp
      exact hn.listed p (by omega) hfree
  parent := fun u hu => Nat.lt_succ_of_lt (hn.parent u hu)
  freed := hn.freed
  freedProc := by
    refine ⟨hn.freedProc.1, fun p => (hn.freedProc.2 p).trans ?_⟩
    show _ ↔ p < s.pcbCount + 1 ∧ _
    constructor
    · intro e
      exact ⟨by omega, e.2⟩
    · intro e
      obtain ⟨u, hu, hpar⟩ := e.2.1
      have hlt := hn.parent u hu
      have hpar' : (s.tcb u).parent = p := hpar
      exact ⟨by omega, e.2⟩

end Alix.Sched
