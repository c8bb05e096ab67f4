/-
The test for recursive locking.

# What can go wrong

`mutex_lock` looks at the owner twice: behind `thread_block_current`, where
the guard is not held, and at the head of the loop, where finding itself
means that it locks twice. A waiter that somebody else has woken finds
itself not the owner and goes round the loop; it is still queued, and if
`mutex_unlock` hands it the mutex before it has the guard again, it takes
the grant for a second lock and panics.

# What holds

Nothing is assumed about the scheduler, and `thread_wake` and
`thread_block` may come at any time. A waiter is parked or at the head of
the loop (`Queued.waiting`), and the test is wrong exactly when a waiter at
the head of the loop is handed the mutex.
-/
import Alix.Sys.Proofs.Mutex

namespace Alix

/-- More steps do not change what a walk has found. -/
theorem RqNodes.findFrom_mono {m : RqNodes Nat Nat} {t fuel : Nat} {o : Option Nat}
    {r : Option Nat} (h : m.findFrom t fuel o = some r) (k : Nat) :
    m.findFrom t (fuel + k) o = some r := by
  induction fuel generalizing o with
  | zero =>
      cases o with
      | none =>
          cases h
          cases k <;> rfl
      | some node => cases h
  | succ fuel ih =>
      cases o with
      | none =>
          cases h
          rw [Nat.add_right_comm]
          rfl
      | some node =>
          rw [Nat.add_right_comm]
          unfold findFrom at h ⊢
          split
          · rename_i hd
            rw [if_pos hd] at h
            exact h
          · rename_i hd
            rw [if_neg hd] at h
            exact ih h

/-- A walk that ends has found what there is. -/
theorem Rep.found {m : RqNodes Nat Nat} {q : Rq Nat} {L : List Nat} {t fuel : Nat}
    {r : Option Nat} (h : Rep m q L) (hdata : ∀ x ∈ L, m.data x = some x)
    (hf : m.findFrom t fuel q.head = some r) :
    r = if t ∈ L then some t else none := by
  have hmore := RqNodes.findFrom_mono hf L.length
  rw [h.findFrom hdata (by omega)] at hmore
  exact (Option.some.inj hmore).symm

namespace MutexSys

open Function (update update_self update_of_ne)

variable {s s' : MutexSys} {W : List Nat} {c t : Nat} {a : Act}

-- ==== the statement

/-- A thread at the head of the loop that finds itself the owner has
returned from a `mutex_lock` before and not unlocked. -/
def RecursionSafe (s : MutexSys) : Prop :=
  ∀ t, s.pc t = .locking → s.owner = some t → s.holds t = true

/-- `mutex_unlock` does not hand the mutex to a waiter that is at the head
of the loop. -/
def Punctual (s : MutexSys) : Act → Prop
  | .unlock c => s.owner = some (s.current c) →
      ∀ w ∈ s.waiters.head, s.pc w ≠ .locking
  | .lock _ | .lockGuard .. | .recheck _ | .tryLock _ | .wake _ | .sched _ => True

/-- The runs on `n` CPUs that take only steps that `may` allows. A thread
that exits is gone: no later one has its number, as it could have its
address. -/
inductive Run (may : MutexSys → Act → Prop) (n : Nat) : MutexSys → Prop
  | init : Run may n (mutexInit (Sched.schedInit n))
  | step {s s' : MutexSys} {a : Act} : Run may n s → may s a → s.step a = some s' →
      Run may n s'

-- ==== the invariant

/-- The waiters are `W`, and nobody is the owner by mistake. -/
structure Queued (s : MutexSys) (W : List Nat) : Prop where
  rep : Rep s.waitNodes s.waiters W
  data : ∀ t ∈ W, s.waitNodes.data t = some t
  waiting : ∀ t ∈ W, s.pc t = .parked ∨ s.pc t = .locking
  owned : ∀ t ∈ W, s.owner ≠ some t
  free : s.owner = none → W = []
  holder : ∀ t, s.holds t = true → s.owner = some t
  owner : ∀ t, s.owner = some t → s.holds t = true ∨ s.pc t = .parked

theorem Queued.safe (h : Queued s W) : RecursionSafe s := by
  intro t hp ho
  rcases h.owner t ho with hh | hh
  · exact hh
  · rw [hh] at hp
    cases hp

theorem setPc_pc (s : MutexSys) (t : Nat) (pc : Pc) (u : Nat) :
    (s.setPc t pc).pc u = if u = t then pc else s.pc u := by
  show update s.pc t pc u = _
  by_cases h : u = t
  · rw [if_pos h, h, update_self]
  · rw [if_neg h, update_of_ne h]

/-- A thread that is no waiter, and is not on its way out with the mutex,
goes anywhere. -/
theorem Queued.setPc (h : Queued s W) {pc : Pc} (hW : t ∈ W → pc = .parked ∨ pc = .locking)
    (hown : s.owner = some t → s.holds t = true ∨ pc = .parked) :
    Queued (s.setPc t pc) W := by
  refine ⟨h.rep, h.data, fun u hu => ?_, h.owned, h.free, h.holder, fun u hu => ?_⟩
  · rw [setPc_pc]
    split
    · rename_i e
      exact hW (e ▸ hu)
    · exact h.waiting u hu
  · rw [setPc_pc]
    split
    · rename_i e
      subst e
      exact hown hu
    · exact h.owner u hu

/-- Nobody owns the mutex, and a thread takes it. -/
theorem Queued.acquired (h : Queued s W) (ho : s.owner = none) (t : Nat) :
    Queued (s.acquired t) W := by
  have hW := h.free ho
  subst hW
  have hnobody : ∀ u, s.holds u = false := by
    intro u
    by_contra hu
    have := h.holder u (by simpa using hu)
    rw [ho] at this
    cases this
  have hholds : ∀ u, (s.acquired t).holds u = if u = t then true else s.holds u := by
    intro u
    show update s.holds t true u = _
    by_cases e : u = t
    · rw [if_pos e, e, update_self]
    · rw [if_neg e, update_of_ne e]
  refine ⟨h.rep, fun u hu => (by cases hu), fun u hu => (by cases hu),
    fun u hu => (by cases hu), fun _ => rfl, fun u hu => ?_, fun u hu => ?_⟩
  · rw [hholds] at hu
    split at hu
    · rename_i e
      show some t = some u
      rw [e]
    · rw [hnobody] at hu
      cases hu
  · have hut : u = t := (Option.some.inj (show some t = some u from hu)).symm
    left
    rw [hholds, if_pos hut]

/-- The contended part of a guard section: the thread is queued. -/
theorem Queued.enqueue (h : Queued s W) (hp : s.pc t = .locking)
    (ho : s.owner ≠ none) (hne : s.owner ≠ some t) (he : s.enqueue t = some s') :
    ∃ W', Queued (s'.setPc t .parked) W' ∧ s'.sched = s.sched := by
  unfold MutexSys.enqueue at he
  have hpark : ∀ {s₁ : MutexSys} {W₁ : List Nat}, Queued s₁ W₁ → s₁.owner = s.owner →
      Queued (s₁.setPc t .parked) W₁ := fun h₁ _ =>
    h₁.setPc (fun _ => Or.inl rfl) fun _ => Or.inr rfl
  split at he
  · cases he
  · cases he
    exact ⟨W, hpark h rfl, rfl⟩
  · rename_i hfind
    have hnot : t ∉ W := by
      have hr := h.rep.found h.data hfind
      intro ht
      rw [if_pos ht] at hr
      cases hr
    cases he
    have hdata : ∀ u, (s.waitNodes.pushBack s.waiters t t).1.data u
        = if u = t then some t else s.waitNodes.data u := by
      intro u
      show update s.waitNodes.data t (some t) u = _
      by_cases e : u = t
      · rw [if_pos e, e, update_self]
      · rw [if_neg e, update_of_ne e]
    refine ⟨W ++ [t], hpark ⟨h.rep.pushBack hnot, fun u hu => ?_, fun u hu => ?_,
      fun u hu => ?_, fun e => (ho e).elim, h.holder, h.owner⟩ rfl, rfl⟩
    · rw [hdata]
      split
      · rename_i e
        rw [e]
      · rename_i e
        refine h.data u ((List.mem_append.mp hu).resolve_right fun hm => e ?_)
        exact List.mem_singleton.mp hm
    · rcases List.mem_append.mp hu with hu | hu
      · exact h.waiting u hu
      · rw [List.mem_singleton.mp hu]
        exact Or.inr hp
    · rcases List.mem_append.mp hu with hu | hu
      · exact h.owned u hu
      · rw [List.mem_singleton.mp hu]
        exact hne

/-- What the scheduler and the guard do is nothing to the waiters. -/
theorem Queued.unseen (h : Queued s W) {sched : Sched} {guard : Option Nat} :
    Queued { s with sched, guard } W :=
  ⟨h.rep, h.data, h.waiting, h.owned, h.free, h.holder, h.owner⟩

-- ==== the steps

/-- A guard section of `mutex_lock`. -/
theorem Queued.mutexLock {sp : Nat} (h : Queued s W) (hp : s.pc t = .locking)
    (hl : s.mutexLock c t sp = some s') : ∃ W', Queued s' W' := by
  unfold MutexSys.mutexLock at hl
  split at hl
  · rename_i ho
    cases hl
    exact ⟨W, h.acquired ho t⟩
  rename_i owner ho
  split at hl
  · -- the test: the thread has not been queued, so it holds the mutex
    rename_i e
    subst e
    cases hl
    have hh : s.holds owner = true := h.safe owner hp ho
    exact ⟨W, h.setPc (fun hW => (h.owned owner hW ho).elim) fun _ => Or.inl hh⟩
  rename_i hne
  split at hl
  · cases hl
  rename_i s₁ he
  have hpark : ∃ W', Queued (s₁.setPc t .parked) W' := by
    obtain ⟨W', h', -⟩ := h.enqueue hp (by rw [ho]; simp)
      (by rw [ho]; exact fun e => hne (Option.some.inj e)) he
    exact ⟨W', h'⟩
  obtain ⟨W', h'⟩ := hpark
  split at hl
  · cases hl
    exact ⟨W', h'.unseen⟩
  · split at hl
    · cases hl
    · cases hl
      exact ⟨W', h'.unseen⟩

/-- `mutex_lock` behind `thread_block_current`. -/
theorem Queued.recheck (h : Queued s W) : Queued (s.mutexRecheck t) W := by
  unfold MutexSys.mutexRecheck
  split
  · rename_i ho
    have hW : t ∉ W := fun ht => h.owned t ht ho
    have hset : ∀ u, update s.holds t true u = if u = t then true else s.holds u := by
      intro u
      by_cases e : u = t
      · rw [if_pos e, e, update_self]
      · rw [if_neg e, update_of_ne e]
    have hheld : Queued (s.setHolds t true) W := by
      refine ⟨h.rep, h.data, h.waiting, h.owned, h.free, fun u hu => ?_, fun u hu => ?_⟩
      · have hu' : (if u = t then true else s.holds u) = true := by
          rw [← hset]
          exact hu
        split at hu'
        · rename_i e
          rw [e]
          exact ho
        · exact h.holder u hu'
      · have hut : t = u := Option.some.inj (ho.symm.trans hu)
        left
        show update s.holds t true u = true
        rw [hut, update_self]
    exact hheld.setPc (fun ht => (hW ht).elim) fun _ => Or.inl (update_self ..)
  · rename_i ho
    exact h.setPc (fun _ => Or.inr rfl) fun e => (ho e).elim

/-- The owner lets go, and the first waiter is the owner. -/
theorem Queued.mutexUnlock (h : Queued s W) (hp : s.pc t = .out)
    (hon : s.owner = some t → ∀ w ∈ s.waiters.head, s.pc w ≠ .locking) :
    ∃ W', Queued (s.mutexUnlock t) W' := by
  have htW : t ∉ W := by
    intro ht
    rcases h.waiting t ht with e | e <;> (rw [hp] at e; cases e)
  unfold MutexSys.mutexUnlock
  split
  · rename_i ho
    exact ⟨W, h.setPc (fun ht => (htW ht).elim) fun e => (ho e).elim⟩
  rename_i ho
  have ho : s.owner = some t := by
    by_contra e
    exact ho e
  have hfree : ∀ u, update s.holds t false u = false := by
    intro u
    by_cases e : u = t
    · rw [e, update_self]
    · rw [update_of_ne e]
      by_contra hu
      have hown := h.holder u (by simpa using hu)
      rw [ho] at hown
      exact e (Option.some.inj hown).symm
  simp only
  cases W with
  | nil =>
      rw [show (s.setHolds t false).waitNodes.popFront (s.setHolds t false).waiters = none
        from h.rep.popFront_nil]
      refine ⟨[], h.rep, h.data, h.waiting, fun u hu => (by cases hu), fun _ => rfl,
        fun u hu => ?_, fun u hu => (by cases hu)⟩
      exact absurd ((hfree u).symm.trans hu) (by simp)
  | cons w W =>
      obtain ⟨m', q', hpop, hd, -, hrep⟩ := h.rep.popFront_cons
      rw [h.data w List.mem_cons_self] at hpop
      rw [show (s.setHolds t false).waitNodes.popFront (s.setHolds t false).waiters
        = some (m', q', some w) from hpop]
      have hnd := List.nodup_cons.mp h.rep.list.nodup
      have hwt : w ≠ t := fun e => htW (e ▸ List.mem_cons_self)
      have hparked : s.pc w = .parked := by
        refine (h.waiting w List.mem_cons_self).resolve_right (hon ho w ?_)
        rw [h.rep.head]
        rfl
      refine ⟨W, hrep, fun u hu => ?_, fun u hu => ?_, fun u hu e => ?_,
        fun e => (by cases e), fun u hu => ?_, fun u hu => ?_⟩
      · show m'.data u = some u
        rw [hd]
        exact h.data u (List.mem_cons_of_mem w hu)
      · have hut : u ≠ t := fun e => htW (e ▸ List.mem_cons_of_mem w hu)
        show update s.pc t _ u = _ ∨ update s.pc t _ u = _
        rw [update_of_ne hut]
        exact h.waiting u (List.mem_cons_of_mem w hu)
      · have huw : w = u := Option.some.inj e
        exact hnd.1 (huw ▸ hu)
      · exact absurd ((hfree u).symm.trans hu) (by simp)
      · have huw : w = u := Option.some.inj hu
        right
        show update s.pc t _ u = _
        rw [← huw, update_of_ne hwt]
        exact hparked

/-- What one step keeps. -/
theorem Queued.step (h : Queued s W) (hon : s.Punctual a) (hstep : s.step a = some s') :
    ∃ W', Queued s' W' := by
  have hleave : ∀ {u : Nat} {pc : Pc}, s.pc u ≠ .parked → s.pc u ≠ .locking →
      Queued (s.setPc u pc) W := by
    intro u pc h1 h2
    refine h.setPc (fun hW => ?_) fun ho => Or.inl ?_
    · exact ((h.waiting u hW).elim h1 h2).elim
    · exact (h.owner u ho).resolve_right h1
  unfold MutexSys.step at hstep
  cases a with
  | lock c =>
      simp only at hstep
      split at hstep
      · rename_i hp
        cases hstep
        exact ⟨W, hleave (by rw [hp]; simp) (by rw [hp]; simp)⟩
      · cases hstep
  | lockGuard c sp =>
      simp only at hstep
      split at hstep
      · rename_i hp
        exact h.mutexLock hp.1 hstep
      · cases hstep
  | recheck c =>
      simp only at hstep
      split at hstep
      · cases hstep
        exact ⟨W, h.recheck⟩
      · cases hstep
  | tryLock c =>
      simp only at hstep
      split at hstep
      · cases hstep
        unfold MutexSys.mutexTryLock
        split
        · rename_i ho
          exact ⟨W, h.acquired ho _⟩
        · exact ⟨W, h⟩
      · cases hstep
  | unlock c =>
      simp only at hstep
      split at hstep
      · rename_i hp
        cases hstep
        exact h.mutexUnlock hp.1 hon
      · cases hstep
  | wake c =>
      simp only at hstep
      split at hstep
      · rename_i next hp
        split at hstep
        · cases hstep
        · cases hstep
          have h' : Queued (s.setPc (s.current c) .out) W :=
            hleave (by rw [hp]; simp) (by rw [hp]; simp)
          exact ⟨W, h'.unseen⟩
      · cases hstep
  | sched k =>
      simp only at hstep
      split at hstep
      · cases hstep
      · cases hstep
        exact ⟨W, h.unseen⟩

theorem queued_init (sched : Sched) : Queued (mutexInit sched) [] where
  rep := ⟨Dll.isList_nil _, rfl, rfl, rfl⟩
  data := fun t ht => by cases ht
  waiting := fun t ht => by cases ht
  owned := fun t ht => by cases ht
  free := fun _ => rfl
  holder := fun t ht => by cases ht
  owner := fun t ht => by cases ht

theorem Run.queued {n : Nat} (h : Run Punctual n s) : ∃ W, Queued s W := by
  induction h with
  | init => exact ⟨[], queued_init _⟩
  | step _ hon hstep ih =>
      obtain ⟨W, hW⟩ := ih
      exact hW.step hon hstep

/-- The other way round: a waiter at the head of the loop that is handed
the mutex finds itself the owner. -/
theorem Queued.unpunctual (h : Queued s W) (hp : s.pc t = .out) (ho : s.owner = some t)
    {w : Nat} (hw : w ∈ s.waiters.head) (hpw : s.pc w = .locking) :
    ¬ RecursionSafe (s.mutexUnlock t) := by
  intro hsafe
  have hne : w ≠ t := by
    intro e
    rw [e, hp] at hpw
    cases hpw
  cases W with
  | nil =>
      rw [h.rep.head] at hw
      cases hw
  | cons x W =>
      obtain ⟨m', q', hpop, -, -, -⟩ := h.rep.popFront_cons
      rw [h.rep.head] at hw
      cases hw
      rw [h.data w List.mem_cons_self] at hpop
      have hu : s.mutexUnlock t = { s.setHolds t false with
          waitNodes := m', waiters := q', owner := some w,
          granted := s.granted ++ [w] }.setPc t (.waking w) := by
        unfold MutexSys.mutexUnlock
        rw [if_neg (fun e => e ho)]
        simp only
        rw [show (s.setHolds t false).waitNodes.popFront (s.setHolds t false).waiters
          = some (m', q', some w) from hpop]
        rfl
      rw [hu] at hsafe
      have hpc : update s.pc t (.waking w) w = .locking := by
        rw [update_of_ne hne]
        exact hpw
      have hholds : update s.holds t false w = true := hsafe w hpc rfl
      rw [update_of_ne hne] at hholds
      exact h.owned w List.mem_cons_self (h.holder w hholds)

/-- As long as `mutex_unlock` is punctual, a thread that finds itself the
owner at the head of the loop does lock twice; the first time it is not,
that ends. -/
theorem run_recursionSafe {n : Nat} (h : Run Punctual n s) :
    RecursionSafe s ∧ ∀ a s', s.step a = some s' → (RecursionSafe s' ↔ s.Punctual a) := by
  obtain ⟨W, hW⟩ := h.queued
  refine ⟨hW.safe, fun a s' hstep => ⟨fun hsafe => ?_, fun hon => ?_⟩⟩
  · cases a with
    | unlock c =>
        intro ho w hw hpw
        unfold MutexSys.step at hstep
        simp only at hstep
        split at hstep
        · rename_i hp
          cases hstep
          exact hW.unpunctual hp.1 ho hw hpw hsafe
        · cases hstep
    | lock c | lockGuard c sp | recheck c | tryLock c | wake c | sched k => trivial
  · obtain ⟨W', hW'⟩ := hW.step hon hstep
    exact hW'.safe

-- ==== traces

instance (s : MutexSys) (a : Act) : Decidable (s.Punctual a) :=
  match a with
  | .unlock _ => inferInstanceAs (Decidable (_ → ∀ w ∈ s.waiters.head, s.pc w ≠ .locking))
  | .lock _ | .lockGuard .. | .recheck _ | .tryLock _ | .wake _ | .sched _ =>
      inferInstanceAs (Decidable True)

/-- A step of the mutex, or a `thread_wake` of any thread. -/
def Rousing (s : MutexSys) (a : Act) : Prop :=
  s.Calm a ∨ match a with
    | .sched (.wake t) => s.sched.Valid (.wake t)
    | _ => False

instance (s : MutexSys) (a : Act) : Decidable (s.Rousing a) :=
  match a with
  | .sched k => match k with
      | .wake _ => inferInstanceAs (Decidable (_ ∨ _))
      | .spawnProc _ | .spawnThread .. | .tick .. | .yield .. | .blockCurrent ..
      | .exit .. | .reap _ | .block .. => inferInstanceAs (Decidable (_ ∨ False))
  | .lock _ | .lockGuard .. | .recheck _ | .tryLock _ | .unlock _ | .wake _ =>
      inferInstanceAs (Decidable (_ ∨ False))

/-- Takes the steps of a list, as long as `may` allows them. -/
def follow (may : MutexSys → Act → Prop) [∀ s a, Decidable (may s a)] :
    MutexSys → List Act → Option MutexSys
  | s, [] => some s
  | s, a :: as =>
      if may s a then
        match s.step a with
        | none => none
        | some s' => follow may s' as
      else none

theorem run_follow {may : MutexSys → Act → Prop} [∀ s a, Decidable (may s a)] {n : Nat}
    {as : List Act} (h : Run may n s) (hp : follow may s as = some s') :
    Run may n s' := by
  induction as generalizing s with
  | nil =>
      cases hp
      exact h
  | cons a as ih =>
      unfold follow at hp
      split at hp
      case isTrue hmay =>
        split at hp
        case h_1 => cases hp
        case h_2 s₁ hstep => exact ih (h.step hmay hstep) hp
      case isFalse => cases hp

/-- Thread 1 holds the mutex; thread 2 is queued, woken by somebody else,
and behind `thread_block_current`, not the owner. -/
def roused : List Act :=
  [.sched (.spawnProc .kernel), .sched (.spawnThread 0 1 true 8),
    .sched (.spawnThread 0 1 true 8), .sched (.tick 0 8), .lock 0, .lockGuard 0 8,
    .sched (.yield 0 8), .lock 0, .lockGuard 0 8, .sched (.wake 2),
    .sched (.yield 0 8), .recheck 0]

/-- Thread 2 gets to block again before thread 1 unlocks. -/
theorem run_recursionSafe_again : ∃ s, RecursionSafe s ∧ s.owner = some 2
    ∧ s.pc 2 = .parked := by
  have hrun : (follow Punctual (mutexInit (Sched.schedInit 1))
      (roused ++ [.lockGuard 0 8, .unlock 0])).map (fun s => (s.owner, s.pc 2))
      = some (some 2, .parked) := by
    decide +kernel
  obtain ⟨s, hs, heq⟩ := Option.map_eq_some_iff.mp hrun
  obtain ⟨ho, hp⟩ := Prod.mk.inj heq
  exact ⟨s, (run_recursionSafe (run_follow .init hs)).1, ho, hp⟩

/-- Thread 2 is preempted at the head of the loop, and thread 1 unlocks:
thread 2 is handed the mutex, takes it for a second lock and panics. -/
theorem unlock_grant_panics : ∃ s s', Run Rousing 1 s ∧ s.pc 2 = .locking
    ∧ s.owner = some 2 ∧ s.holds 2 = false
    ∧ s.step (.lockGuard 0 8) = some s' ∧ s'.pc 2 = .panicked := by
  have hrun : (follow Rousing (mutexInit (Sched.schedInit 1)) (roused
      ++ [.sched (.tick 0 8), .sched (.tick 0 8), .unlock 0, .wake 0,
        .sched (.yield 0 8)])).bind (fun s => (s.step (.lockGuard 0 8)).map
      fun s' => (s.pc 2, s.owner, s.holds 2, s'.pc 2))
      = some (.locking, some 2, false, .panicked) := by
    decide +kernel
  obtain ⟨s, hs, hstep⟩ := Option.bind_eq_some_iff.mp hrun
  obtain ⟨s', hs', heq⟩ := Option.map_eq_some_iff.mp hstep
  obtain ⟨hp, hrest⟩ := Prod.mk.inj heq
  obtain ⟨ho, hrest⟩ := Prod.mk.inj hrest
  obtain ⟨hh, hp'⟩ := Prod.mk.inj hrest
  exact ⟨s, s', run_follow .init hs, hp, ho, hh, hs', hp'⟩

end MutexSys

end Alix
