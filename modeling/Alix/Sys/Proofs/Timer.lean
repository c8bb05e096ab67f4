/-
Whose rate a CPU's timer gets.

# What goes wrong

The calibration measures a property of the machine, but what is kept in
`timer_reload` is the count for the rate of the CPU that did it. Every
other CPU programs that count. The one that enters first decides, and a
CPU that is late in the exchange on `timer_calibrating` calibrates once
more.

# What holds

Whatever the order, a CPU programs the count of some CPU
(`reachable_programmed`). So the counts are those of the CPUs' own rates in
every order if and only if all rates have the same count, which is a
relation between the rates and the measured count (`ownRate_iff`).
-/
import Alix.Sys.Timer

namespace Alix.Timer

open Function (update update_self update_of_ne)

variable {elapsed n : Nat} {hz : Nat → Nat} {s : Timer} {c : Nat}

-- ==== the statement

/-- The count for a rate. -/
def count (elapsed hz : Nat) : Nat :=
  timerProgramApic (timerCalibrateReload elapsed hz)

/-- Over all orders, the count that a CPU programs is a function of its own
rate. -/
def OwnRate (elapsed n : Nat) (hz : Nat → Nat) : Prop :=
  ∃ f : Nat → Nat, ∀ s, Reachable elapsed n hz s → ∀ c, c < n →
    ∀ r, s.programmed c = some r → r = f (hz c)

-- ==== the invariant

theorem count_pos (elapsed hz : Nat) : 0 < count elapsed hz := by
  unfold count timerProgramApic
  split <;> omega

/-- The count as arithmetic: the quotient cut to 32 bits, and at least one. -/
theorem count_eq (elapsed hz : Nat) :
    count elapsed hz = max 1 (elapsed * 100 / hz % 2 ^ 32) := by
  unfold count timerProgramApic timerCalibrateReload
  by_cases hhz : hz = 0
  · rw [hhz]
    simp
  · simp only [if_neg hhz]
    generalize elapsed * 100 / hz = q
    by_cases hq : q = 0
    · rw [hq]
      simp
    · rw [if_neg hq]
      split <;> omega

theorem timerProgramApic_count (elapsed hz : Nat) :
    timerProgramApic (count elapsed hz) = count elapsed hz := by
  have hpos := count_pos elapsed hz
  rw [timerProgramApic, if_neg (by omega)]

/-- The reload value that a CPU carries. -/
def carried : TimerPc → Option Nat
  | .publish r | .unclaim r | .program r => some r
  | _ => none

/-- Every count about is the count of some CPU's rate. -/
structure Inv (elapsed n : Nat) (hz : Nat → Nat) (s : Timer) : Prop where
  reload : s.reload ≠ 0 → ∃ d, d < n ∧ s.reload = count elapsed (hz d)
  carried : ∀ c r, carried (s.pc c) = some r → ∃ d, d < n ∧ r = count elapsed (hz d)
  programmed : ∀ c r, s.programmed c = some r →
    ∃ d, d < n ∧ r = count elapsed (hz d)

/-- A CPU goes on with a value that is the count of some rate, or none. -/
theorem Inv.goto (h : Inv elapsed n hz s) {pc : TimerPc}
    (hpc : ∀ r, Timer.carried pc = some r → ∃ d, d < n ∧ r = count elapsed (hz d)) :
    Inv elapsed n hz (s.goto c pc) where
  reload := h.reload
  carried := by
    intro c' r hr
    unfold Timer.goto at hr
    by_cases hc : c' = c
    · rw [hc] at hr
      simp only [update_self] at hr
      exact hpc r hr
    · simp only [update_of_ne hc] at hr
      exact h.carried c' r hr
  programmed := h.programmed

/-- One step of one CPU. -/
theorem Inv.step (h : Inv elapsed n hz s) (hc : c < n) :
    Inv elapsed n hz (s.step elapsed (hz c) c) := by
  have hload : s.reload ≠ 0 → Inv elapsed n hz (s.goto c (.program s.reload)) := by
    intro hne
    refine h.goto fun r hr => ?_
    cases hr
    exact h.reload hne
  unfold Timer.step
  cases hpc : s.pc c with
  | outside => exact h.goto fun r hr => (by cases hr)
  | install =>
      have h' : Inv elapsed n hz { s with vectorInstalled := true } :=
        ⟨h.reload, h.carried, h.programmed⟩
      exact h'.goto fun r hr => (by cases hr)
  | load =>
      simp only
      split
      · exact h.goto fun r hr => (by cases hr)
      · rename_i hne
        exact hload hne
  | claim =>
      simp only
      split
      · exact h.goto fun r hr => (by cases hr)
      · have h' : Inv elapsed n hz { s with calibrating := true } :=
          ⟨h.reload, h.carried, h.programmed⟩
        exact h'.goto fun r hr => (by cases hr)
  | calibrate =>
      refine h.goto fun r hr => ?_
      cases hr
      exact ⟨c, hc, rfl⟩
  | publish reload =>
      have hmine := h.carried c reload (by rw [hpc]; rfl)
      have h' : Inv elapsed n hz { s with reload } :=
        ⟨fun _ => hmine, h.carried, h.programmed⟩
      refine h'.goto fun r hr => ?_
      cases hr
      exact hmine
  | unclaim reload =>
      have hmine := h.carried c reload (by rw [hpc]; rfl)
      have h' : Inv elapsed n hz { s with calibrating := false } :=
        ⟨h.reload, h.carried, h.programmed⟩
      refine h'.goto fun r hr => ?_
      cases hr
      exact hmine
  | wait =>
      simp only
      split
      · exact h
      · rename_i hne
        exact hload hne
  | program reload =>
      obtain ⟨d, hd, hmine⟩ := h.carried c reload (by rw [hpc]; rfl)
      let programmed := update s.programmed c (some (timerProgramApic reload))
      have h' : Inv elapsed n hz { s with programmed } := by
        refine ⟨h.reload, h.carried, fun c' r hr => ?_⟩
        change update s.programmed c (some (timerProgramApic reload)) c' = some r at hr
        by_cases hc' : c' = c
        · rw [hc', update_self] at hr
          cases hr
          exact ⟨d, hd, by rw [hmine, timerProgramApic_count]⟩
        · rw [update_of_ne hc'] at hr
          exact h.programmed c' r hr
      exact h'.goto fun r hr => (by cases hr)
  | returned => exact h

/-- A CPU programs the count of some CPU's rate. -/
theorem reachable_programmed (h : Reachable elapsed n hz s) {r : Nat}
    (hr : s.programmed c = some r) : ∃ d, d < n ∧ r = count elapsed (hz d) := by
  have hinv : Inv elapsed n hz s := by
    clear hr
    induction h with
    | init => exact ⟨fun h => (h rfl).elim, fun c r hr => (by cases hr),
        fun c r hr => (by cases hr)⟩
    | step _ hc ih => exact ih.step hc
  exact hinv.programmed c r hr

-- ==== the two orders

/-- Steps of one CPU. -/
def steps (elapsed : Nat) (hz : Nat → Nat) (s : Timer) (c : Nat) : Nat → Timer
  | 0 => s
  | k + 1 => (steps elapsed hz s c k).step elapsed (hz c) c

theorem Reachable.steps (h : Reachable elapsed n hz s) (hc : c < n) (k : Nat) :
    Reachable elapsed n hz (steps elapsed hz s c k) := by
  induction k with
  | zero => exact h
  | succ k ih => exact ih.step hc

/-- The state when the CPU that entered first has returned. -/
def alone (elapsed hz c : Nat) : Timer where
  reload := count elapsed hz
  calibrating := false
  vectorInstalled := true
  pc := update (fun _ => .outside) c .returned
  programmed := update (fun _ => none) c (some (count elapsed hz))

/-- The CPU that enters first calibrates for its own rate. -/
theorem steps_first (elapsed : Nat) (hz : Nat → Nat) (c : Nat) :
    steps elapsed hz init c 8 = alone elapsed (hz c) c := by
  have hcount : (if timerCalibrateReload elapsed (hz c) = 0 then 1
      else timerCalibrateReload elapsed (hz c)) = count elapsed (hz c) := rfl
  simp [steps, Timer.step, init, Timer.goto, hcount, alone, timerProgramApic_count]

/-- A CPU that enters after another has published takes what it finds. -/
theorem steps_later (elapsed : Nat) (hz : Nat → Nat) {d : Nat}
    (hpc : s.pc d = .outside) (hne : s.reload ≠ 0) :
    (steps elapsed hz s d 4).programmed d = some (timerProgramApic s.reload) := by
  simp [steps, Timer.step, Timer.goto, hpc, hne]

/-- In some order a CPU programs the count of its own rate, and in some
order that of any other CPU's. -/
theorem reachable_any (elapsed : Nat) (hz : Nat → Nat) (hc : c < n) {d : Nat}
    (hd : d < n) :
    ∃ s, Reachable elapsed n hz s ∧ s.programmed d = some (count elapsed (hz c)) := by
  have hfirst : Reachable elapsed n hz (alone elapsed (hz c) c) := by
    rw [← steps_first]
    exact Reachable.init.steps hc 8
  by_cases hdc : d = c
  · rw [hdc]
    refine ⟨_, hfirst, ?_⟩
    show update (fun _ => none) c (some (count elapsed (hz c))) c = _
    rw [update_self]
  · refine ⟨_, hfirst.steps hd 4, ?_⟩
    have hpos : (alone elapsed (hz c) c).reload ≠ 0 :=
      Nat.pos_iff_ne_zero.mp (count_pos elapsed (hz c))
    have hpc : (alone elapsed (hz c) c).pc d = .outside := by
      show update (fun _ => TimerPc.outside) c .returned d = _
      rw [update_of_ne hdc]
    rw [steps_later elapsed hz hpc hpos]
    exact congrArg some (timerProgramApic_count elapsed (hz c))

/-- The count that a CPU programs depends on its own rate alone if and only
if the rates of all CPUs divide the measured count to the same value, as
far as 32 bits keep it and zero becomes one. -/
theorem ownRate_iff (elapsed n : Nat) (hz : Nat → Nat) :
    OwnRate elapsed n hz
      ↔ ∀ c d, c < n → d < n →
        max 1 (elapsed * 100 / hz c % 2 ^ 32) = max 1 (elapsed * 100 / hz d % 2 ^ 32) := by
  simp only [← count_eq]
  constructor
  · intro hown c d hc hd
    obtain ⟨f, hf⟩ := hown
    obtain ⟨s, hs, hprog⟩ := reachable_any elapsed hz hc hd
    obtain ⟨s', hs', hprog'⟩ := reachable_any elapsed hz hd hd
    rw [hf s hs d hd _ hprog, hf s' hs' d hd _ hprog']
  · intro hsame
    refine ⟨count elapsed, fun s hs c hc r hr => ?_⟩
    obtain ⟨d, hd, rfl⟩ := reachable_programmed hs hr
    exact hsame d c hd hc

/-- A boot processor with 1000 interrupts a second and an application
processor with 100: the latter programs 100000 where it enters first, and
10000 where it enters second. -/
theorem rates_shared : ¬ OwnRate 100000 2 fun c => if c = 0 then 1000 else 100 := by
  intro hown
  obtain ⟨f, hf⟩ := hown
  have hc : (0 : Nat) < 2 := by decide
  have hd : (1 : Nat) < 2 := by decide
  obtain ⟨s, hs, hsecond⟩ := reachable_any 100000
    (fun c => if c = 0 then 1000 else 100) hc hd
  obtain ⟨s', hs', hfirst⟩ := reachable_any 100000
    (fun c => if c = 0 then 1000 else 100) hd hd
  have hsame := (hf s hs 1 hd _ hsecond).trans (hf s' hs' 1 hd _ hfirst).symm
  revert hsame
  decide

end Alix.Timer
