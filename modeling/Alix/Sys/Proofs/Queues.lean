/-
The queues of the scheduler as lists.

`Queues s L` says that every queue `q` of the scheduler is the list `L q`
and that no thread is on two of them. It reads the nodes and the queue
records only, so a change to a thread, a CPU or a process keeps it as it
stands; the lemmas here are about the operations that move threads:
pushing, popping, searching, removing, and the loop that looks for the
next thread to run.
-/
import Alix.Sys.Sched
import Alix.Sys.Proofs.Rq

namespace Alix.Sched

open Function (update update_self update_of_ne)

/-- Every queue is the list `L` gives it, and no thread is on two. -/
structure Queues (s : Sched) (L : Queue → List Nat) : Prop where
  rep : ∀ q, Rep s.nodes (s.queue q) (L q)
  apart : ∀ q q' t, t ∈ L q → t ∈ L q' → q = q'
  data : ∀ q t, t ∈ L q → s.nodes.data t = some t
  bound : ∀ q t, t ∈ L q → t < s.tcbCount

/-- The scheduler with other queues. -/
def withQueues (s : Sched) (nodes : RqNodes Nat Nat) (queue : Queue → Rq Nat) :
    Sched := { s with nodes, queue }

variable {s : Sched} {L : Queue → List Nat} {q : Queue} {t c : Nat}

theorem Queues.nodup (h : Queues s L) (q : Queue) : (L q).Nodup :=
  (h.rep q).list.nodup

theorem Queues.length_le (h : Queues s L) (q : Queue) :
    (L q).length ≤ s.tcbCount :=
  length_le_of_lt (h.nodup q) (h.bound q)

/-- Queues do not read threads, CPUs or processes. -/
theorem Queues.congr (h : Queues s L) {s' : Sched} (hn : s'.nodes = s.nodes)
    (hq : s'.queue = s.queue) (hb : s'.tcbCount = s.tcbCount) :
    Queues s' L where
  rep := by rw [hn, hq]; exact h.rep
  apart := h.apart
  data := by rw [hn]; exact h.data
  bound := by rw [hb]; exact h.bound

/-- Membership after one list was replaced. -/
theorem mem_update {X : List Nat} {q' : Queue} :
    t ∈ update L q X q' ↔ if q' = q then t ∈ X else t ∈ L q' := by
  by_cases hq : q' = q
  · subst hq
    simp
  · simp [hq]

/-- The queues stay apart when one of them becomes a list of its own
members and of threads that were nowhere. -/
private theorem apart_update (h : Queues s L) {X : List Nat}
    (hX : ∀ u ∈ X, u ∈ L q ∨ ∀ q', u ∉ L q') (q₁ q₂ : Queue) (u : Nat)
    (h₁ : u ∈ update L q X q₁) (h₂ : u ∈ update L q X q₂) : q₁ = q₂ := by
  rw [mem_update] at h₁ h₂
  by_cases e₁ : q₁ = q <;> by_cases e₂ : q₂ = q
  · rw [e₁, e₂]
  · rw [if_pos e₁] at h₁
    rw [if_neg e₂] at h₂
    rcases hX u h₁ with hu | hu
    · rw [e₁]
      exact h.apart q q₂ u hu h₂
    · exact (hu q₂ h₂).elim
  · rw [if_neg e₁] at h₁
    rw [if_pos e₂] at h₂
    rcases hX u h₂ with hu | hu
    · rw [e₂]
      exact h.apart q₁ q u h₁ hu
    · exact (hu q₁ h₁).elim
  · rw [if_neg e₁] at h₁
    rw [if_neg e₂] at h₂
    exact h.apart q₁ q₂ u h₁ h₂

/-- `rq_push_back` of a thread that is on no queue. -/
theorem Queues.pushBack (h : Queues s L) (ht : ∀ q', t ∉ L q')
    (hb : t < s.tcbCount) :
    Queues (s.pushBack q t) (update L q (L q ++ [t])) where
  rep := by
    intro q'
    show Rep (s.nodes.pushBack (s.queue q) t t).1
      (update s.queue q (s.nodes.pushBack (s.queue q) t t).2 q') _
    by_cases hq : q' = q
    · subst hq
      rw [update_self, update_self]
      exact (h.rep q').pushBack (ht q')
    · rw [update_of_ne hq, update_of_ne hq]
      exact (h.rep q).pushBack_frame (h.rep q') (ht q') fun y hy hy' =>
        hq (h.apart q' q y hy hy')
  apart := by
    refine apart_update h fun u hu => ?_
    rcases List.mem_append.mp hu with hu | hu
    · exact Or.inl hu
    · rw [List.mem_singleton.mp hu]
      exact Or.inr ht
  data := by
    intro q' u hu
    show update s.nodes.data t (some t) u = some u
    by_cases hut : u = t
    · rw [hut, update_self]
    · rw [update_of_ne hut]
      rw [mem_update] at hu
      split at hu
      case isTrue =>
        rcases List.mem_append.mp hu with hu | hu
        · exact h.data q u hu
        · exact (hut (List.mem_singleton.mp hu)).elim
      case isFalse => exact h.data q' u hu
  bound := by
    intro q' u hu
    rw [mem_update] at hu
    split at hu
    case isTrue =>
      rcases List.mem_append.mp hu with hu | hu
      · exact h.bound q u hu
      · rw [List.mem_singleton.mp hu]
        exact hb
    case isFalse => exact h.bound q' u hu

/-- Taking a member out of its queue. -/
theorem Queues.unlinked (h : Queues s L) {X : List Nat} (ht : t ∈ L q)
    (hX : ∀ u ∈ X, u ∈ L q) {m : RqNodes Nat Nat} {rq : Rq Nat}
    (hdata : m.data = s.nodes.data) (hlinks : m.links = s.nodes.links.unlink t)
    (hrep : Rep m rq X) :
    Queues (s.withQueues m (update s.queue q rq)) (update L q X) where
  rep := by
    intro q'
    show Rep m (update s.queue q rq q') _
    by_cases hq : q' = q
    · subst hq
      rw [update_self, update_self]
      exact hrep
    · rw [update_of_ne hq, update_of_ne hq]
      exact (h.rep q).unlink_frame ht (h.rep q')
        (fun y hy hy' => hq (h.apart q' q y hy hy')) hlinks
  apart := apart_update h fun u hu => Or.inl (hX u hu)
  data := by
    intro q' u hu
    show m.data u = some u
    rw [hdata]
    rw [mem_update] at hu
    split at hu
    case isTrue => exact h.data q u (hX u hu)
    case isFalse => exact h.data q' u hu
  bound := by
    intro q' u hu
    rw [mem_update] at hu
    split at hu
    case isTrue => exact h.bound q u (hX u hu)
    case isFalse => exact h.bound q' u hu

theorem Queues.popFront_nil (h : Queues s L) (hq : L q = []) :
    s.popFront q = none := by
  have hrep := h.rep q
  rw [hq] at hrep
  unfold Sched.popFront
  rw [hrep.popFront_nil]

/-- `rq_pop_front` of a nonempty queue. -/
theorem Queues.popFront_cons (h : Queues s L) {X : List Nat}
    (hq : L q = t :: X) :
    ∃ m rq, s.popFront q = some (s.withQueues m rq, some t)
      ∧ Queues (s.withQueues m rq) (update L q X) := by
  have hrep := h.rep q
  rw [hq] at hrep
  obtain ⟨m, rq, hpop, hdata, hlinks, hrep'⟩ := hrep.popFront_cons
  have ht : t ∈ L q := by rw [hq]; exact List.mem_cons_self
  refine ⟨m, update s.queue q rq, ?_, ?_⟩
  · unfold Sched.popFront
    rw [hpop, h.data q t ht]
    rfl
  · refine h.unlinked ht (fun u hu => ?_) hdata hlinks hrep'
    rw [hq]
    exact List.mem_cons_of_mem _ hu

theorem Queues.find (h : Queues s L) (q : Queue) (t : Nat) :
    s.find q t = some (if t ∈ L q then some t else none) :=
  (h.rep q).findFrom (h.data q) (h.length_le q)

/-- `rq_remove`, if the thread is there. -/
theorem Queues.removeIfQueued (h : Queues s L) (q : Queue) (t : Nat) :
    ∃ m rq, s.removeIfQueued q t = some (s.withQueues m rq)
      ∧ Queues (s.withQueues m rq) (update L q ((L q).erase t)) := by
  unfold Sched.removeIfQueued
  rw [h.find q t]
  by_cases ht : t ∈ L q
  · rw [if_pos ht]
    exact ⟨_, _, rfl, h.unlinked ht (fun u hu => List.mem_of_mem_erase hu) rfl
      rfl ((h.rep q).removeNode ht)⟩
  · rw [if_neg ht, List.erase_of_not_mem ht, Function.update_eq_self]
    exact ⟨s.nodes, s.queue, rfl, h⟩

-- ==== the next thread

/-- The test of `sched_next_thread`. -/
def ready (s : Sched) (t : Nat) : Bool :=
  decide ((s.tcb t).status = .runnable ∧ (s.tcb t).rsp ≠ 0)

/-- The thread `sched_next_thread` finds: the first ready one. -/
def pick (s : Sched) (L : Queue → List Nat) (c : Nat) : Nat :=
  ((L (.run c)).dropWhile fun t => !s.ready t).head?.getD (s.cpu c).idleThread

/-- The lists it leaves: what it passes over goes to the zombies or
nowhere. -/
def afterNext (s : Sched) (L : Queue → List Nat) (c : Nat) :
    Queue → List Nat :=
  let passed := (L (.run c)).takeWhile fun t => !s.ready t
  let zombies := passed.filter fun t => (s.tcb t).status = .zombie
  update (update L (.run c) ((L (.run c)).dropWhile fun t => !s.ready t).tail)
    (.zombie c) (L (.zombie c) ++ zombies)

/-- `sched_queue_zombie_locked` of a zombie only moves it. -/
theorem schedQueueZombieLocked_zombie (ht : t ≠ (s.cpu c).idleThread)
    (hz : (s.tcb t).status = .zombie) :
    s.schedQueueZombieLocked c t = s.pushBack (.zombie c) t := by
  unfold schedQueueZombieLocked modTcb
  rw [if_neg ht]
  have : ({ s.tcb t with status := .zombie } : Tcb) = s.tcb t := by
    rw [← hz]
  simp only [this, Function.update_eq_self]

/-- Passing over a thread that is not ready. -/
theorem pick_skip {L' : Queue → List Nat} {X : List Nat}
    (hl : L (.run c) = t :: X) (hl' : L' (.run c) = X) (hr : s.ready t = false) :
    s.pick L' c = s.pick L c := by
  unfold pick
  rw [hl, hl', List.dropWhile_cons_of_pos (by simp [hr])]

theorem afterNext_skip {L' : Queue → List Nat} {X : List Nat}
    (hl : L (.run c) = t :: X) (hl' : L' (.run c) = X) (hr : s.ready t = false)
    (hz : L' (.zombie c) = L (.zombie c)
      ++ if (s.tcb t).status = .zombie then [t] else [])
    (hrest : ∀ q, q ≠ .run c → q ≠ .zombie c → L' q = L q) :
    s.afterNext L' c = s.afterNext L c := by
  unfold afterNext
  funext q
  by_cases hq : q = .zombie c
  · subst hq
    rw [update_self, update_self, hz, hl, hl',
      List.takeWhile_cons_of_pos (by simp [hr]), List.append_assoc]
    congr 1
    by_cases hs : (s.tcb t).status = .zombie
    · rw [if_pos hs, List.filter_cons_of_pos (by simpa using hs)]
      rfl
    · rw [if_neg hs, List.filter_cons_of_neg (by simpa using hs)]
      rfl
  · rw [update_of_ne hq, update_of_ne hq]
    by_cases hq' : q = .run c
    · subst hq'
      rw [update_self, update_self, hl, hl',
        List.dropWhile_cons_of_pos (by simp [hr])]
    · rw [update_of_ne hq', update_of_ne hq', hrest q hq' hq]

/-- The loop finds the first thread that is ready. -/
theorem Queues.schedNextThread (h : Queues s L) {fuel : Nat}
    (hidle : ∀ t ∈ L (.run c), t ≠ (s.cpu c).idleThread)
    (hfuel : (L (.run c)).length < fuel) :
    ∃ m rq, s.schedNextThread c fuel = some (s.withQueues m rq, s.pick L c)
      ∧ Queues (s.withQueues m rq) (s.afterNext L c) := by
  -- induction on the run queue, over whatever queues are left
  generalize hl : L (.run c) = l at hidle hfuel
  induction l generalizing s L fuel with
  | nil =>
      cases fuel with
      | zero => simp at hfuel
      | succ fuel =>
          unfold Sched.schedNextThread pick afterNext
          rw [h.popFront_nil hl, hl]
          refine ⟨s.nodes, s.queue, rfl, ?_⟩
          simp only [List.takeWhile_nil, List.dropWhile_nil, List.tail_nil,
            List.filter_nil, List.append_nil]
          rw [← hl, Function.update_eq_self, Function.update_eq_self]
          exact h
  | cons t X ih =>
      cases fuel with
      | zero => simp at hfuel
      | succ fuel =>
          obtain ⟨m, rq, hpop, h1⟩ := h.popFront_cons hl
          have hlen : X.length < fuel := by simpa using hfuel
          have hX : ∀ u ∈ X, u ≠ (s.cpu c).idleThread := fun u hu =>
            hidle u (List.mem_cons_of_mem _ hu)
          unfold Sched.schedNextThread
          rw [hpop]
          by_cases hr : s.ready t = true
          -- the first thread is ready
          · have hr' : (s.tcb t).status = .runnable ∧ (s.tcb t).rsp ≠ 0 := by
              simpa [ready] using hr
            refine ⟨m, rq, ?_, ?_⟩
            · show (if (s.tcb t).status = .runnable ∧ (s.tcb t).rsp ≠ 0 then _
                else _) = _
              rw [if_pos hr']
              simp [pick, hl, hr]
            · have : s.afterNext L c = update L (.run c) X := by
                unfold afterNext
                funext q
                by_cases hq : q = .zombie c
                · simp [hq, hl, hr]
                · simp [hq, hl, hr]
              rw [this]
              exact h1
          · have hr' : ¬ ((s.tcb t).status = .runnable ∧ (s.tcb t).rsp ≠ 0) := by
              simpa [ready] using hr
            rw [Bool.not_eq_true] at hr
            by_cases hz : (s.tcb t).status = .zombie
            -- a zombie goes to its queue
            · have hnot : ∀ q', t ∉ update L (.run c) X q' := by
                intro q' hmem
                have ht : t ∈ L (.run c) := by rw [hl]; exact List.mem_cons_self
                rw [mem_update] at hmem
                split at hmem
                case isTrue =>
                  have hnd := h.nodup (.run c)
                  rw [hl] at hnd
                  exact (List.nodup_cons.mp hnd).1 hmem
                case isFalse hq => exact hq (h.apart q' _ t hmem ht)
              have hb : t < s.tcbCount :=
                h.bound (.run c) t (by rw [hl]; exact List.mem_cons_self)
              have h2 := h1.pushBack (q := .zombie c) hnot hb
              have hl' : update (update L (.run c) X) (.zombie c)
                  (update L (.run c) X (.zombie c) ++ [t]) (.run c) = X := by simp
              obtain ⟨m', rq', hrun, h3⟩ := ih h2 hl' hX hlen
              have hpick := pick_skip (s := s) hl hl' hr
              have hafter := afterNext_skip (s := s) hl hl' hr
                (by rw [if_pos hz]; simp) fun q h1 h2 => by simp [h1, h2]
              refine ⟨m', rq', ?_, ?_⟩
              · show (if (s.tcb t).status = .runnable ∧ (s.tcb t).rsp ≠ 0 then _
                  else if (s.tcb t).status = .zombie then
                    ((s.withQueues m rq).schedQueueZombieLocked c t).schedNextThread
                      c fuel
                  else _) = _
                have hmove : (s.withQueues m rq).schedQueueZombieLocked c t
                    = (s.withQueues m rq).pushBack (.zombie c) t :=
                  schedQueueZombieLocked_zombie (hidle t List.mem_cons_self) hz
                rw [if_neg hr', if_pos hz, hmove, hrun, ← hpick]
                rfl
              · rw [← hafter]
                exact h3
            -- anything else is dropped
            · have hl' : update L (.run c) X (.run c) = X := by simp
              obtain ⟨m', rq', hrun, h3⟩ := ih h1 hl' hX hlen
              have hpick := pick_skip (s := s) hl hl' hr
              have hafter := afterNext_skip (s := s) hl hl' hr
                (by rw [if_neg hz]; simp) fun q h1 _ => by simp [h1]
              refine ⟨m', rq', ?_, ?_⟩
              · show (if (s.tcb t).status = .runnable ∧ (s.tcb t).rsp ≠ 0 then _
                  else if (s.tcb t).status = .zombie then _
                  else (s.withQueues m rq).schedNextThread c fuel) = _
                rw [if_neg hr', if_neg hz, hrun, ← hpick]
                rfl
              · rw [← hafter]
                exact h3

end Alix.Sched
