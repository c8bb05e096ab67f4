/-
Interrupts and the memory of a keyboard instance.

# What can go wrong

The binding of an interrupt holds the instance pointer, and the core keeps
no lifecycle state. `ps2_keyboard_detach` frees the instance and leaves
the binding; `ps2_keyboard_start` binds whatever instance it is given. So
a detach without a stop, and a start after a detach, end with an interrupt
on freed memory.

# The invariant

No binding of `ps2_keyboard_irq` holds a freed instance (`Inv.live`), and
the call under way keeps that: it frees only what is not bound, and binds
only what is not freed.
-/
import Alix.Drivers.Ps2
import Alix.Sdi.Proofs.Host

namespace Alix.Ps2.Sys

open Sdi Function

variable {s s' : Sys} {e : Event} {i : Nat}

-- ==== the statement

/-- Whether an interrupt is bound to `ps2_keyboard_irq` and an instance. -/
def Bound (host : Host) (irq i : Nat) : Prop :=
  (host.irqBindings irq).used = true
    ∧ (host.irqBindings irq).handler = some PS2_HANDLER
    ∧ (host.irqBindings irq).instance_ = i

/-- A keyboard interrupt that comes now does not reach a freed instance. -/
def Safe (s : Sys) : Prop :=
  ∀ i irq, .invoke PS2_HANDLER i irq ∈ s.interruptLog → s.freed i = false

/-- An instance is detached only while it is not bound, and once it is
freed it is not started where the interrupt is free to be bound. -/
def Tidy (s : Sys) : Event → Prop
  | .call _ .detach i => ¬ Bound s.host KEYBOARD_IRQ i
  | .call _ .start i =>
      s.freed i = false ∨ (s.host.irqBindings KEYBOARD_IRQ).used = true
  | _ => True

/-- The runs that make only events that `may` allows. -/
inductive Reachable (may : Sys → Event → Prop) : Sys → Prop
  | init {core : Registry} {host : Host} : (∀ irq i, ¬ Bound host irq i) →
      Reachable may (init core host)
  | step {s : Sys} {e : Event} : Reachable may s → s.Allowed e → may s e →
      Reachable may (s.step e)

-- ==== the interrupts

/-- The handler reads ports and nothing else. -/
theorem runCalls_ps2Code (host : Host) (h i irq : Nat) :
    host.runCalls (ps2Code h i irq) = host := rfl

/-- An interrupt leaves the bindings, and what it adds to the log invokes
only what is bound. -/
theorem interrupt_spec (s : Sys) : ∃ host new,
    s.host.isrCommonHandler ps2Code 0 ⟨KEYBOARD_VECTOR⟩ = .ok host
      ∧ host.irqBindings = s.host.irqBindings ∧ host.log = s.host.log ++ new
      ∧ ∀ i irq, .invoke PS2_HANDLER i irq ∈ new → ∃ irq', Bound s.host irq' i := by
  show ∃ host new, Except.ok (s.host.irqDispatchVector ps2Code 0 KEYBOARD_VECTOR
    ⟨KEYBOARD_VECTOR⟩) = .ok host ∧ _
  unfold Host.irqDispatchVector
  simp only
  cases (s.host.vectorHandlers KEYBOARD_VECTOR).callback with
  | none => exact ⟨_, [], rfl, rfl, by simp, fun i irq h => by simp at h⟩
  | some cb =>
      cases cb with
      | timerIrq => exact ⟨_, _, rfl, rfl, Host.timerIrq_log _ _,
          fun i irq h => by simp at h⟩
      | sdiIrqDispatch =>
          simp only
          generalize (s.host.vectorHandlers KEYBOARD_VECTOR).ctx.getD _ = frame
          unfold Host.sdiIrqDispatch
          simp only [runCalls_ps2Code]
          split
          · rename_i hused
            cases hh : (s.host.irqBindings (Host.frameIrq frame)).handler with
            | none => exact ⟨_, [.eoi], rfl, rfl, rfl, fun i irq h => by simp at h⟩
            | some handler =>
                refine ⟨_, [.invoke handler (s.host.irqBindings
                  (Host.frameIrq frame)).instance_ (Host.frameIrq frame + 1), .eoi],
                  rfl, rfl, ?_, ?_⟩
                · exact List.append_assoc _ _ _
                · intro i irq h
                  simp only [List.mem_cons, Effect.invoke.injEq, reduceCtorEq,
                    List.not_mem_nil, or_false] at h
                  obtain ⟨rfl, rfl, -⟩ := h
                  exact ⟨_, hused.2, hh, rfl⟩
          · exact ⟨_, [.eoi], rfl, rfl, rfl, fun i irq h => by simp at h⟩

/-- What an interrupt invokes is bound. -/
theorem mem_interruptLog {irq : Nat} (h : .invoke PS2_HANDLER i irq ∈ s.interruptLog) :
    ∃ irq', Bound s.host irq' i := by
  obtain ⟨host, new, hok, -, hlog, hinv⟩ := interrupt_spec s
  unfold interruptLog at h
  rw [hok] at h
  simp only [hlog, List.drop_left] at h
  exact hinv i irq h

-- ==== the invariant

/-- What is left of a lifecycle call. -/
inductive Rest : List Instr → Prop where
  | done : Rest []
  | bind : Rest [.bind]
  | bound (irq : Nat) : Rest [.store irq, .unmask]
  | stored : Rest [.unmask]
  | unbind : Rest [.unbind, .clear]
  | clear : Rest [.clear]
  | free : Rest [.free]

structure Inv (s : Sys) : Prop where
  live : ∀ irq i, Bound s.host irq i → irq = KEYBOARD_IRQ ∧ s.freed i = false
  rest : Rest s.code
  free : s.code = [.free] → ¬ Bound s.host KEYBOARD_IRQ s.inst
  bind : s.code = [.bind] → s.freed s.inst = false
    ∨ (s.host.irqBindings KEYBOARD_IRQ).used = true

theorem Inv.safe (h : Inv s) : s.Safe := by
  intro i irq hmem
  obtain ⟨irq', hb⟩ := mem_interruptLog hmem
  exact (h.live irq' i hb).2

/-- A step of the host that binds nothing new, with no call under way that
frees or binds. -/
theorem Inv.settle (h : Inv s) {host : Host} {kbd : Nat → Kbd} {code : List Instr}
    (hb : ∀ irq i, Bound host irq i → Bound s.host irq i) (hr : Rest code)
    (hfree : code ≠ [.free]) (hbind : code ≠ [.bind]) :
    Inv { s with host, kbd, code } where
  live := fun irq i hi => h.live irq i (hb irq i hi)
  rest := hr
  free := fun e => (hfree e).elim
  bind := fun e => (hbind e).elim

theorem Inv.call (h : Inv s) {handle : Nat} {life : Life}
    (ht : s.Tidy (.call handle life i)) : Inv (s.call handle life i) := by
  unfold Sys.call
  simp only
  split
  · cases life with
    | start =>
        exact ⟨h.live, .bind, fun e => (by cases e), fun _ => ht⟩
    | stop => exact ⟨h.live, .unbind, fun e => (by cases e), fun e => (by cases e)⟩
    | detach => exact ⟨h.live, .free, fun _ => ht, fun e => (by cases e)⟩
  · exact ⟨h.live, h.rest, h.free, h.bind⟩

theorem Inv.attach (h : Inv s) (handle : Nat) (mem : Bool) :
    Inv (s.attach handle mem) := by
  unfold Sys.attach
  split
  · exact ⟨h.live, h.rest, h.free, h.bind⟩
  · exact h

theorem Inv.interrupt (h : Inv s) (status code : BitVec 8) :
    Inv (s.interrupt status code) := by
  obtain ⟨host, new, hok, hsame, -, -⟩ := interrupt_spec s
  unfold Sys.interrupt
  rw [hok]
  have hb : ∀ irq i, Bound host irq i ↔ Bound s.host irq i := by
    intro irq i
    unfold Bound
    rw [hsame]
  refine ⟨fun irq i hi => h.live irq i ((hb irq i).mp hi), h.rest,
    fun e hi => h.free e ((hb _ _).mp hi), fun e => ?_⟩
  show _ ∨ (host.irqBindings KEYBOARD_IRQ).used = true
  rw [hsame]
  exact h.bind e

/-- The bind: it fails, or the instance is alive and bound. -/
theorem Inv.execBind (h : Inv s) (hc : s.code = [.bind]) (lapicId stale : Nat)
    (pin : Bool) : Inv (s.exec lapicId stale pin) := by
  unfold exec
  simp only [hc, Host.sdiKernelCall]
  rcases s.host.sdiHostIrqBind_cases (bindReq s.inst) lapicId with
    ⟨st, hres⟩ | ⟨-, -, hfree, hres⟩
  · rw [hres]
    exact h.settle (fun _ _ hi => hi) .done (by simp) (by simp)
  · rw [hres]
    have halive : s.freed s.inst = false := by
      rcases h.bind hc with ha | hu
      · exact ha
      · rw [show (bindReq s.inst).resourceIndex = KEYBOARD_IRQ from rfl, hu] at hfree
        cases hfree
    refine ⟨fun irq i hi => ?_, .bound _, fun e => (by cases e), fun e => (by cases e)⟩
    change Bound ((s.host.setBinding KEYBOARD_IRQ ⟨true, KEYBOARD_IRQ,
      some PS2_HANDLER, s.inst⟩).irqInstall KEYBOARD_IRQ (some .sdiIrqDispatch) none
        lapicId) irq i at hi
    have hb : ((s.host.setBinding KEYBOARD_IRQ ⟨true, KEYBOARD_IRQ,
        some PS2_HANDLER, s.inst⟩).irqInstall KEYBOARD_IRQ (some .sdiIrqDispatch) none
          lapicId).irqBindings = update s.host.irqBindings KEYBOARD_IRQ
            ⟨true, KEYBOARD_IRQ, some PS2_HANDLER, s.inst⟩ := rfl
    unfold Bound at hi
    rw [hb] at hi
    by_cases hirq : irq = KEYBOARD_IRQ
    · rw [hirq, update_self] at hi
      rw [← hi.2.2]
      exact ⟨hirq, halive⟩
    · rw [update_of_ne hirq] at hi
      exact h.live irq i hi

/-- An unbind binds nothing. -/
theorem bound_unbind {host : Host} {target irq : Nat}
    (hb : Bound (host.sdiKernelCall ⟨target, .irqUnbind⟩).1 irq i) :
    Bound host irq i := by
  change Bound (host.sdiHostIrqUnbind target).1 irq i at hb
  unfold Host.sdiHostIrqUnbind at hb
  split at hb
  · exact hb
  · rename_i q hq
    have hsame : ((host.irqUninstall q).setBinding q ⟨false, 0, none, 0⟩).irqBindings
        = update host.irqBindings q ⟨false, 0, none, 0⟩ := by
      unfold Host.irqUninstall
      split <;> rfl
    unfold Bound at hb
    rw [hsame] at hb
    by_cases hirq : irq = q
    · rw [hirq, update_self] at hb
      cases hb.1
    · rw [update_of_ne hirq] at hb
      exact hb

/-- The next piece of code, whatever interrupt comes. -/
theorem Inv.exec (h : Inv s) (lapicId stale : Nat) (pin : Bool) :
    Inv (s.exec lapicId stale pin) := by
  have hrest := h.rest
  generalize hcode : s.code = code at hrest
  cases hrest with
  | done =>
      unfold Sys.exec
      rw [hcode]
      exact h
  | bind => exact h.execBind hcode lapicId stale pin
  | bound irq =>
      unfold Sys.exec
      rw [hcode]
      exact h.settle (fun _ _ hi => hi) .stored (by simp) (by simp)
  | stored =>
      unfold Sys.exec
      rw [hcode]
      exact h.settle (fun _ _ hi => hi) .done (by simp) (by simp)
  | unbind =>
      unfold Sys.exec
      simp only [hcode]
      split
      · exact h.settle (fun _ _ hi => bound_unbind hi) .clear (by simp) (by simp)
      · exact h.settle (fun _ _ hi => hi) .clear (by simp) (by simp)
  | clear =>
      unfold Sys.exec
      rw [hcode]
      exact h.settle (fun _ _ hi => hi) .done (by simp) (by simp)
  | free =>
      unfold Sys.exec
      rw [hcode]
      refine ⟨fun irq i hi => ?_, .done, fun e => (by cases e), fun e => (by cases e)⟩
      obtain ⟨hirq, halive⟩ := h.live irq i hi
      have hne : i ≠ s.inst := by
        rintro rfl
        refine h.free hcode ?_
        rw [← hirq]
        exact hi
      exact ⟨hirq, (update_of_ne hne _ _).trans halive⟩

-- ==== the runs

theorem reachable_inv (h : Reachable Tidy s) : Inv s := by
  induction h with
  | init hnone =>
      exact ⟨fun irq i hi => (hnone irq i hi).elim, .done, fun e => (by cases e),
        fun e => (by cases e)⟩
  | @step s e _ _ htidy ih =>
      cases e with
      | attach handle mem => exact ih.attach handle mem
      | call handle life i => exact ih.call htidy
      | exec lapicId stale pin => exact ih.exec lapicId stale pin
      | irq status code => exact ih.interrupt status code

/-- In a tidy run no keyboard interrupt reaches a freed instance. -/
theorem tidy_safe (h : Reachable Tidy s) : s.Safe :=
  (reachable_inv h).safe

-- ==== traces

instance (host : Host) (irq i : Nat) : Decidable (Bound host irq i) :=
  inferInstanceAs (Decidable (_ ∧ _ ∧ _))

instance (s : Sys) (e : Event) : Decidable (s.Allowed e) :=
  match e with
  | .attach .. => inferInstanceAs (Decidable (_ = _))
  | .call .. => inferInstanceAs (Decidable (_ ∧ _ ∧ _ ∧ _))
  | .exec .. => inferInstanceAs (Decidable (_ ≠ _))
  | .irq .. => inferInstanceAs (Decidable True)

instance (s : Sys) (e : Event) : Decidable (s.Tidy e) :=
  match e with
  | .call _ .start _ => inferInstanceAs (Decidable (_ ∨ _))
  | .call _ .detach _ => inferInstanceAs (Decidable (¬ _))
  | .call _ .stop _ | .attach .. | .exec .. | .irq .. =>
      inferInstanceAs (Decidable True)

/-- The events of a list, as long as they may come. -/
def play (may : Sys → Event → Prop) [∀ s e, Decidable (may s e)] :
    Sys → List Event → Option Sys
  | s, [] => some s
  | s, e :: es => if s.Allowed e ∧ may s e then play may (s.step e) es else none

theorem reachable_play {may : Sys → Event → Prop} [∀ s e, Decidable (may s e)]
    {es : List Event} (h : Reachable may s) (hp : play may s es = some s') :
    Reachable may s' := by
  induction es generalizing s with
  | nil =>
      cases hp
      exact h
  | cons e es ih =>
      unfold play at hp
      split at hp
      case isTrue he => exact ih (h.step he.1 he.2) hp
      case isFalse => cases hp

/-- A core that has registered the driver, under handle 1. -/
def loaded : Registry where
  hostCaps := 0
  registry := Function.update (fun _ => Entry.empty) 0
    ⟨1, some ⟨SIZEOF_DRIVER_DESC, 2 ^ 24, some [112], 1, 0, some
      ⟨SIZEOF_DRIVER_OPS, 2 ^ 24, true, false, true, true, true, true, false, false,
        true, false⟩⟩, true⟩
  maxDrivers := SDI_REGISTRY_CAPACITY
  driverCount := 1
  nextHandle := 2
  initialized := true

/-- Attach an instance and start it. -/
def started : List Event :=
  [.attach 1 true, .call 1 .start 1, .exec 0 0 true, .exec 0 0 true, .exec 0 0 true]

theorem static_unbound (irq i : Nat) : ¬ Bound Host.static irq i :=
  fun h => (by cases h.1)

/-- Started, stopped and detached: the interrupt that comes then finds the
instance freed and does not reach it. -/
theorem tidy_safe_stopped : ∃ s : Sys, s.Safe ∧ s.freed 1 = true := by
  have hplay : (play Tidy (init loaded Host.static) (started ++ [.irq 1 0x1e,
      .call 1 .stop 1, .exec 0 0 true, .exec 0 0 true, .call 1 .detach 1,
      .exec 0 0 true])).map (fun s => s.freed 1) = some true := by
    decide +kernel
  obtain ⟨s, hrun, hfreed⟩ := Option.map_eq_some_iff.mp hplay
  exact ⟨s, tidy_safe (reachable_play (.init static_unbound) hrun), hfreed⟩

/-- Started and detached without a stop: the next key reaches the instance
that has been freed. -/
theorem detach_bound_unsafe : ∃ s, Reachable (fun _ _ => True) s ∧ ¬ s.Safe := by
  have hplay : (play (fun _ _ => True) (init loaded Host.static) (started ++
      [.call 1 .detach 1, .exec 0 0 true])).map
      (fun s => (s.freed 1, s.interruptLog)) = some (true, [.invoke 1 1 2, .eoi]) := by
    decide +kernel
  obtain ⟨s, hrun, heq⟩ := Option.map_eq_some_iff.mp hplay
  obtain ⟨hfreed, hlog⟩ := Prod.mk.inj heq
  refine ⟨s, reachable_play (.init static_unbound) hrun, fun hsafe => ?_⟩
  have hlive := hsafe 1 2 (by rw [hlog]; simp)
  rw [hfreed] at hlive
  cases hlive

end Alix.Ps2.Sys
