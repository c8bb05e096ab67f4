/-
Pids are unique, and none is missed.

# The scan

`sched_alloc_pid` starts at a cursor, steps on and wraps, and gives up
when the cursor that it has stepped to is the one it started at. So it
looks at position 0, 1, .. from the start (`visit`), and the stop test
comes true after the last of the 65535 positions and not before: the pid
just behind the cursor is looked at as well. The invariant of the loop is
that the positions so far are in use (`allocLoop_spec`).

# The processes

`proc_list` has exactly the processes that are live, in the order they
were made (`Inv`). A pid that is handed out is not in use, and a process
that has been given one is on the list before anybody else looks.
-/
import Mathlib.Data.List.Nodup
import Alix.Sys.Pids

namespace Alix.Pids

/-- The pids of processes, from `SCHED_PID_MIN` to `SCHED_PID_MAX`. -/
def InRange (pid : Nat) : Prop := 1 ≤ pid ∧ pid ≤ 65535

namespace Procs

variable {s s' : Procs} {live : List Nat} {start k fuel pid proc : Nat}

-- ==== fields

@[simp] theorem modPcb_self (s : Procs) (proc : Nat) (f : Pcb → Pcb) :
    (s.modPcb proc f).pcb proc = f (s.pcb proc) := Function.update_self _ _ _

theorem modPcb_of_ne (s : Procs) {p : Nat} (f : Pcb → Pcb) (h : p ≠ proc) :
    (s.modPcb proc f).pcb p = s.pcb p := Function.update_of_ne h _ _

/-- Whether a pid is in use depends on the processes of the list. -/
theorem schedPidInUse_congr (hlist : s'.procList = s.procList)
    (hpcb : ∀ p ∈ s.procList, s'.pcb p = s.pcb p) (pid : Nat) :
    s'.schedPidInUse pid = s.schedPidInUse pid := by
  unfold schedPidInUse
  rw [hlist, Bool.eq_iff_iff, List.any_eq_true, List.any_eq_true]
  constructor
  · intro h
    obtain ⟨p, hp, he⟩ := h
    exact ⟨p, hp, by rwa [← hpcb p hp]⟩
  · intro h
    obtain ⟨p, hp, he⟩ := h
    exact ⟨p, hp, by rwa [hpcb p hp]⟩

-- ==== the scan

/-- The pid at a position from the start of the scan. -/
def visit (start k : Nat) : Nat := (start - 1 + k) % 65535 + 1

theorem visit_zero (h : InRange start) : visit start 0 = start := by
  obtain ⟨h1, h2⟩ := h
  unfold visit
  omega

theorem visit_inRange (start k : Nat) : InRange (visit start k) := by
  unfold visit
  constructor <;> omega

/-- Every pid has a position. -/
theorem exists_visit (hs : InRange start) (hp : InRange pid) :
    ∃ k < 65535, visit start k = pid := by
  obtain ⟨hs1, hs2⟩ := hs
  obtain ⟨hp1, hp2⟩ := hp
  refine ⟨(pid + 65535 - start) % 65535, Nat.mod_lt _ (by omega), ?_⟩
  unfold visit
  omega

theorem advance_visit (start k : Nat) : advance (visit start k) = visit start (k + 1) := by
  unfold advance visit
  simp only [SCHED_PID_MIN, SCHED_PID_MAX]
  split
  · omega
  · omega

/-- The cursor is back at the start after the last position. -/
theorem visit_eq_start (hs : InRange start) (hk : k < 65535) :
    visit start (k + 1) = start ↔ k + 1 = 65535 := by
  obtain ⟨h1, h2⟩ := hs
  unfold visit
  omega

/-- The loop at a position, where all before it are in use, comes to an
end: with a pid that is not in use, or when all are. -/
theorem allocLoop_spec (hs : InRange start) (hk : k + fuel = 65535) (hpos : 0 < fuel)
    (hused : ∀ j < k, s.schedPidInUse (visit start j) = true) :
    ∃ pid next, s.allocLoop start fuel (visit start k) = some (pid, next) ∧ InRange next
      ∧ ((InRange pid ∧ s.schedPidInUse pid = false)
        ∨ (pid = SCHED_INVALID_PID ∧ ∀ q, InRange q → s.schedPidInUse q = true)) := by
  induction fuel generalizing k with
  | zero => exact absurd hpos (Nat.lt_irrefl 0)
  | succ fuel ih =>
      unfold allocLoop
      rw [advance_visit]
      cases huse : s.schedPidInUse (visit start k) with
      | false =>
          refine ⟨visit start k, visit start (k + 1), by simp, visit_inRange _ _, Or.inl ?_⟩
          exact ⟨visit_inRange _ _, huse⟩
      | true =>
          have hnext : ∀ j < k + 1, s.schedPidInUse (visit start j) = true := by
            intro j hj
            by_cases he : j = k
            · rw [he]
              exact huse
            · apply hused
              omega
          by_cases hstop : visit start (k + 1) = start
          · -- once round
            have hlast := (visit_eq_start hs (by omega)).mp hstop
            refine ⟨SCHED_INVALID_PID, start, by simp [hstop], hs, Or.inr ⟨rfl, ?_⟩⟩
            intro q hq
            obtain ⟨j, hj, rfl⟩ := exists_visit hs hq
            apply hnext
            omega
          · have hmore : k + 1 ≠ 65535 := fun e => hstop ((visit_eq_start hs (by omega)).mpr e)
            obtain ⟨pid, next, hloop, h⟩ := ih (k := k + 1) (by omega) (by omega) hnext
            exact ⟨pid, next, by simpa [hstop] using hloop, h⟩

/-- `sched_alloc_pid` returns, and returns a pid that is not in use if
there is one. -/
theorem schedAllocPid_spec (s : Procs) (h : InRange s.nextPid) :
    ∃ pid next, s.schedAllocPid = some ({ s with nextPid := next }, pid) ∧ InRange next
      ∧ ((InRange pid ∧ s.schedPidInUse pid = false)
        ∨ (pid = SCHED_INVALID_PID ∧ ∀ q, InRange q → s.schedPidInUse q = true)) := by
  obtain ⟨pid, next, hloop, hspec⟩ := @allocLoop_spec s s.nextPid 0 SCHED_PID_MAX h
    (by simp) (by simp) (fun j hj => absurd hj (Nat.not_lt_zero j))
  rw [visit_zero h] at hloop
  refine ⟨pid, next, ?_, hspec⟩
  unfold schedAllocPid
  rw [hloop]
  rfl

theorem not_inRange_invalid : ¬ InRange SCHED_INVALID_PID := by
  intro h
  exact absurd h.2 (by decide)

-- ==== the processes

/-- What holds of the list between calls. -/
structure Inv (s : Procs) (live : List Nat) : Prop where
  next : InRange s.nextPid
  list : s.procList = live
  range : ∀ p ∈ live, InRange (s.pcb p).pid
  type : ∀ p ∈ live, (s.pcb p).type ≠ .idle
  distinct : (live.map fun p => (s.pcb p).pid).Nodup

theorem Inv.static (pcb : Nat → Pcb) : Inv (static pcb) [] where
  next := ⟨Nat.le_refl 1, show 1 ≤ 65535 by decide⟩
  list := rfl
  range := by simp
  type := by simp
  distinct := by simp

/-- What is not live may be written to. -/
theorem Inv.modPcb (h : Inv s live) (hp : proc ∉ live) (f : Pcb → Pcb) :
    Inv (s.modPcb proc f) live := by
  have hkeep : ∀ p ∈ live, (s.modPcb proc f).pcb p = s.pcb p := fun p hmem =>
    s.modPcb_of_ne f (by rintro rfl; exact hp hmem)
  refine ⟨h.next, h.list, fun p hmem => ?_, fun p hmem => ?_, ?_⟩
  · rw [hkeep p hmem]
    exact h.range p hmem
  · rw [hkeep p hmem]
    exact h.type p hmem
  · have hsame : (live.map fun p => ((s.modPcb proc f).pcb p).pid)
        = live.map fun p => (s.pcb p).pid := by
      apply List.map_congr_left
      intro p hmem
      rw [hkeep p hmem]
    rw [hsame]
    exact h.distinct

theorem Inv.cursor (h : Inv s live) {next : Nat} (hn : InRange next) :
    Inv { s with nextPid := next } live :=
  ⟨hn, h.list, h.range, h.type, h.distinct⟩

/-- A process comes to the list with a pid that is not in use. -/
theorem Inv.link (h : Inv s live) (hrange : InRange (s.pcb proc).pid)
    (htype : (s.pcb proc).type ≠ .idle) (hfree : s.schedPidInUse (s.pcb proc).pid = false) :
    Inv (s.schedProcLinkLocked proc) (proc :: live) where
  next := h.next
  list := by
    unfold schedProcLinkLocked
    rw [h.list]
  range := by
    intro p hp
    cases List.mem_cons.mp hp with
    | inl he =>
        rw [he]
        exact hrange
    | inr hmem => exact h.range p hmem
  type := by
    intro p hp
    cases List.mem_cons.mp hp with
    | inl he =>
        rw [he]
        exact htype
    | inr hmem => exact h.type p hmem
  distinct := by
    show ((proc :: live).map fun p => (s.pcb p).pid).Nodup
    rw [List.map_cons, List.nodup_cons]
    refine ⟨fun hmem => ?_, h.distinct⟩
    obtain ⟨p, hp, he⟩ := List.mem_map.mp hmem
    unfold schedPidInUse at hfree
    rw [h.list] at hfree
    have hany := List.any_eq_false.mp hfree p hp
    exact hany (by simpa using he)

/-- And leaves it. -/
theorem Inv.release (h : Inv s live) (hp : proc ∈ live) :
    Inv (s.schedProcReleasePid proc) (live.erase proc) := by
  unfold schedProcReleasePid
  rw [if_neg (h.type proc hp)]
  have hsub : (live.erase proc).Sublist live := List.erase_sublist
  refine ⟨h.next, ?_, fun p hmem => h.range p (hsub.mem hmem), fun p hmem =>
    h.type p (hsub.mem hmem), h.distinct.sublist (hsub.map _)⟩
  unfold schedProcUnlinkLocked
  rw [h.list]

/-- The pid of a new process: it is on the list with it, or there is
none. -/
theorem Inv.takePid (h : Inv s live) (hp : proc ∉ live) {type : ProcType} (htype : type ≠ .idle)
    (hs : s.takePid proc type = some s') :
    ((s'.pcb proc).pid ≠ SCHED_INVALID_PID ∧ Inv s' (proc :: live))
      ∨ ((s'.pcb proc).pid = SCHED_INVALID_PID ∧ Inv s' live) := by
  unfold Procs.takePid at hs
  have hz := h.modPcb hp fun _ => Pcb.zero
  have hzero : (s.modPcb proc fun _ => Pcb.zero).pcb proc = Pcb.zero := by simp
  revert hs hz hzero
  generalize s.modPcb proc (fun _ => Pcb.zero) = t
  intro hs hz hzero
  obtain ⟨pid, next, halloc, hnext, hcase⟩ := t.schedAllocPid_spec hz.next
  simp only [htype, if_false, halloc, Option.some.injEq] at hs
  have hu := (hz.cursor hnext).modPcb hp fun p => { p with pid }
  have hpid : (({ t with nextPid := next }.modPcb proc fun p => { p with pid }).pcb proc)
      = { Pcb.zero with pid } := by
    simp [hzero]
  have huse : ∀ q, ({ t with nextPid := next }.modPcb proc fun p => { p with pid }).schedPidInUse q
      = t.schedPidInUse q := by
    refine schedPidInUse_congr rfl fun p hmem => Procs.modPcb_of_ne _ _ ?_
    rintro rfl
    rw [hz.list] at hmem
    exact hp hmem
  revert hs hu hpid huse
  generalize ({ t with nextPid := next }.modPcb proc fun p => { p with pid }) = u
  intro hs hu hpid huse
  obtain ⟨hrange, hfree⟩ | ⟨he, -⟩ := hcase
  · have hne : pid ≠ SCHED_INVALID_PID := fun e => not_inRange_invalid (e ▸ hrange)
    rw [if_pos hne] at hs
    have hlink : Inv (u.schedProcLinkLocked proc) (proc :: live) := by
      apply hu.link
      · rw [hpid]
        exact hrange
      · simp [hpid, Pcb.zero]
      · rw [huse, hpid]
        exact hfree
    rw [hs] at hlink
    refine Or.inl ⟨?_, hlink⟩
    rw [← hs]
    show (u.pcb proc).pid ≠ _
    rw [hpid]
    exact hne
  · rw [if_neg (not_not.mpr he)] at hs
    rw [← hs]
    refine Or.inr ⟨?_, hu⟩
    rw [hpid]
    exact he

/-- A process of the list is given its other fields. -/
theorem Inv.fill (h : Inv s live) {f : Pcb → Pcb} (hpid : (f (s.pcb proc)).pid = (s.pcb proc).pid)
    (htype : (f (s.pcb proc)).type ≠ .idle) : Inv (s.modPcb proc f) live := by
  have hkeep : ∀ p, ((s.modPcb proc f).pcb p).pid = (s.pcb p).pid := by
    intro p
    by_cases he : p = proc
    · rw [he, modPcb_self, hpid]
    · rw [s.modPcb_of_ne f he]
  refine ⟨h.next, h.list, fun p hp => ?_, fun p hp => ?_, ?_⟩
  · rw [hkeep]
    exact h.range p hp
  · by_cases he : p = proc
    · rw [he, modPcb_self]
      exact htype
    · rw [s.modPcb_of_ne f he]
      exact h.type p hp
  · simpa [hkeep] using h.distinct

/-- `spawn_proc`. -/
theorem Inv.spawn (h : Inv s live) {a : SpawnArgs} {r : Option Nat} (htype : a.type ≠ .idle)
    (hnew : ∀ p, a.kzalloc = some p → p ∉ live) (hs : s.spawnProc a = some (s', r)) :
    Inv s' (r.toList ++ live) := by
  unfold spawnProc at hs
  cases hk : a.kzalloc with
  | none =>
      rw [hk] at hs
      cases hs
      exact h
  | some proc =>
  cases ht : s.takePid proc a.type with
  | none => simp [hk, ht] at hs
  | some t =>
  simp only [hk, ht] at hs
  obtain ⟨hne, hlisted⟩ | ⟨he, hnone⟩ := h.takePid (hnew proc hk) htype ht
  · rw [if_neg hne] at hs
    have hfilled : Inv (t.modPcb proc fun p =>
        { p with ppid := a.schedParentPid, type := a.type, vas := a.space }) (proc :: live) := by
      apply hlisted.fill
      · rfl
      · exact htype
    cases hspace : a.space with
    | none =>
        rw [hspace] at hs hfilled
        cases hs
        have hback := hfilled.release List.mem_cons_self
        rwa [List.erase_cons_head] at hback
    | some vas =>
        rw [hspace] at hs hfilled
        cases hs
        exact hfilled
  · rw [if_pos he] at hs
    cases hs
    exact hnone

theorem Run.inv (h : Run s live) : Inv s live := by
  induction h with
  | start pcb => exact Inv.static pcb
  | spawn a _ htype hnew hcall ih => exact ih.spawn htype hnew hcall
  | free proc _ hproc ih => exact ih.release hproc

/-- In every run live processes have different pids from 1 to 65535, and
the cursor is one. And whatever pids are in use, from any cursor
`sched_alloc_pid` returns: a pid that is not in use if there is one, and
`SCHED_INVALID_PID` only if there is none; the cursor stays one. -/
theorem pids_unique :
    (∀ s live, Run s live →
      (live.map fun p => (s.pcb p).pid).Nodup ∧ (∀ p ∈ live, InRange (s.pcb p).pid)
        ∧ InRange s.nextPid)
      ∧ ∀ s : Procs, InRange s.nextPid → ∃ pid next,
        s.schedAllocPid = some ({ s with nextPid := next }, pid) ∧ InRange next
          ∧ ((∃ q, InRange q ∧ s.schedPidInUse q = false) →
            InRange pid ∧ s.schedPidInUse pid = false)
          ∧ (pid = SCHED_INVALID_PID → ∀ q, InRange q → s.schedPidInUse q = true) := by
  constructor
  · intro s live h
    exact ⟨h.inv.distinct, h.inv.range, h.inv.next⟩
  · intro s hs
    obtain ⟨pid, next, hcall, hnext, hcase⟩ := s.schedAllocPid_spec hs
    refine ⟨pid, next, hcall, hnext, ?_⟩
    obtain ⟨hrange, hfree⟩ | ⟨he, hall⟩ := hcase
    · refine ⟨fun _ => ⟨hrange, hfree⟩, fun e => ?_⟩
      exact absurd (e ▸ hrange) not_inRange_invalid
    · refine ⟨fun hsome => ?_, fun _ => hall⟩
      obtain ⟨q, hq, hfree⟩ := hsome
      rw [hall q hq] at hfree
      cases hfree

/-- Two kernel processes. -/
theorem pids_unique_two : ∃ s, Run s [9, 8] ∧ (s.pcb 8).pid = 1 ∧ (s.pcb 9).pid = 2
    ∧ ([9, 8].map fun p => (s.pcb p).pid).Nodup := by
  let args (proc : Nat) : SpawnArgs := ⟨.kernel, none, some proc, 0, none, some 1⟩
  have h8 := (Run.start fun _ => Pcb.zero).spawn (args 8) (by simp [args]) (by simp) rfl
  have h9 := h8.spawn (args 9) (by simp [args]) (by simp [args]) rfl
  exact ⟨_, h9, rfl, rfl, (pids_unique.1 _ _ h9).1⟩

end Procs

end Alix.Pids
