/-
The end-of-interrupt writes of one interrupt.

# What can go wrong

Three places write the register: `timer_irq`, `sdi_irq_dispatch` behind
the driver handler, and `SDI_OP_IRQ_ACK`, which a driver handler may call
itself. So a driver that acknowledges its interrupt acknowledges twice,
and a vector without a callback is never acknowledged: the interrupt stays
in service and holds back every one of lower priority.

# What holds

`answered_iff`: the interrupt is acknowledged exactly once if and only if
a callback is installed and, where it is the dispatcher of SDI, the driver
handler makes no acknowledgement that succeeds.
-/
import Mathlib.Data.List.TakeWhile
import Alix.Sdi.Host

namespace Alix.Sdi.Host

variable {s s' : Host} {code : DriverCode} {frame : Frame}

-- ==== the statement

/-- The effects of one interrupt hold one end-of-interrupt write, and it
comes before the scheduler may switch threads. -/
def AckedOnce (new : List Effect) : Prop :=
  new.count .eoi = 1 ∧ (new.takeWhile (· ≠ .schedTick)).count .eoi = 1

/-- Whether a call is an acknowledgement of a handle that is bound. -/
def acks (s : Host) (k : HostCall) : Bool :=
  k.op == .irqAck && decide (k.target ≠ SDI_NULL_HANDLE)
    && decide (k.target ≤ SDI_IRQ_COUNT) && (s.irqBindings (k.target - 1)).used

/-- Calls none of which is one. -/
def Unacked : Host → List HostCall → Prop
  | _, [] => True
  | s, k :: ks => s.acks k = false ∧ Unacked (s.sdiKernelCall k).1 ks

/-- The calls that the driver makes when `sdi_irq_dispatch` gets a frame,
and the state it makes them in. -/
def driverCalls (s : Host) (code : DriverCode) (frame : Frame) :
    Host × List HostCall :=
  let irq := frameIrq frame
  let b := s.irqBindings irq
  if irq < SDI_IRQ_COUNT ∧ b.used then
    match b.handler with
    | none => (s, [])
    | some handler => (s.emit (.invoke handler b.instance_ (irq + 1)),
        code handler b.instance_ (irq + 1))
  else (s, [])

/-- A callback is installed, and the driver leaves the acknowledgement to
the kernel. -/
def Answered (s : Host) (code : DriverCode) (frame : Frame) : Prop :=
  match (s.vectorHandlers (frame.vector % 256)).callback with
  | none => False
  | some .timerIrq => True
  | some .sdiIrqDispatch =>
      let frame := (s.vectorHandlers (frame.vector % 256)).ctx.getD frame
      Unacked (s.driverCalls code frame).1 (s.driverCalls code frame).2

-- ==== the driver's calls

/-- A step that adds effects: so many end-of-interrupt writes, and no call
of `sched_tick`. -/
def Adds (s s' : Host) (n : Nat) : Prop :=
  ∃ new, s'.log = s.log ++ new ∧ new.count .eoi = n ∧ .schedTick ∉ new

theorem Adds.refl (s : Host) : Adds s s 0 :=
  ⟨[], by simp, rfl, by simp⟩

theorem Adds.trans {s₁ : Host} {m n : Nat} (h : Adds s s₁ m) (h' : Adds s₁ s' n) :
    Adds s s' (m + n) := by
  obtain ⟨new, hlog, hn, hno⟩ := h
  obtain ⟨new', hlog', hn', hno'⟩ := h'
  refine ⟨new ++ new', ?_, ?_, ?_⟩
  · rw [hlog', hlog, List.append_assoc]
  · rw [List.count_append, hn, hn']
  · intro hmem
    rcases List.mem_append.mp hmem with hmem | hmem
    · exact hno hmem
    · exact hno' hmem

theorem adds_of_log (h : s'.log = s.log) : Adds s s' 0 :=
  ⟨[], by rw [h, List.append_nil], rfl, by simp⟩

theorem adds_eoi (s : Host) : Adds s s.apicSendEoi 1 :=
  ⟨[.eoi], rfl, rfl, by simp⟩

theorem irqInstall_log (s : Host) (irq : Nat) (cb : Option IrqCallback)
    (ctx : Option Frame) (lapicId : Nat) :
    (s.irqInstall irq cb ctx lapicId).log = s.log := by
  unfold irqInstall
  split <;> rfl

theorem irqUninstall_log (s : Host) (irq : Nat) : (s.irqUninstall irq).log = s.log := by
  unfold irqUninstall
  split <;> rfl

/-- `sdi_host_irq_bind` changes nothing, or binds an interrupt that was
free. -/
theorem sdiHostIrqBind_cases (s : Host) (req : BindArgs) (lapicId : Nat) :
    (∃ st, s.sdiHostIrqBind req lapicId = (s, .error st))
      ∨ (req.handler.isSome ∧ req.resourceIndex < SDI_IRQ_COUNT
        ∧ (s.irqBindings req.resourceIndex).used = false
        ∧ s.sdiHostIrqBind req lapicId
          = ((s.setBinding req.resourceIndex
                ⟨true, req.resourceIndex, req.handler, req.instance_⟩).irqInstall
              req.resourceIndex (some .sdiIrqDispatch) none lapicId,
            .ok (req.resourceIndex + 1))) := by
  unfold sdiHostIrqBind
  by_cases hpay : sdiCheckPayload req.inData req.inSize SIZEOF_IRQ_BIND_REQ ≠ SDI_OK
  · exact Or.inl ⟨_, if_pos hpay⟩
  rw [if_neg hpay]
  by_cases hout : req.outSize.getD 0 < SIZEOF_IRQ_BIND_RESP
  · exact Or.inl ⟨_, if_pos hout⟩
  rw [if_neg hout]
  by_cases hnone : req.handler.isNone = true
  · exact Or.inl ⟨_, if_pos hnone⟩
  rw [if_neg hnone]
  by_cases hrange : req.resourceIndex ≥ SDI_IRQ_COUNT
  · exact Or.inl ⟨_, if_pos hrange⟩
  rw [if_neg hrange]
  by_cases hused : (s.irqBindings req.resourceIndex).used = true
  · exact Or.inl ⟨_, if_pos hused⟩
  refine Or.inr ⟨?_, by omega, by simpa using hused, if_neg hused⟩
  cases hh : req.handler with
  | none => exact (hnone (by rw [hh]; rfl)).elim
  | some handler => rfl

theorem sdiHostIrqBind_log (s : Host) (req : BindArgs) (lapicId : Nat) :
    (s.sdiHostIrqBind req lapicId).1.log = s.log := by
  rcases s.sdiHostIrqBind_cases req lapicId with ⟨st, h⟩ | ⟨-, -, -, h⟩
  · rw [h]
  · rw [h]
    exact irqInstall_log _ _ _ _ _

theorem sdiHostIrqUnbind_log (s : Host) (target : Nat) :
    (s.sdiHostIrqUnbind target).1.log = s.log := by
  unfold sdiHostIrqUnbind
  split
  · rfl
  · exact irqUninstall_log _ _

/-- A call writes the register if it acknowledges, and else not. -/
theorem sdiKernelCall_adds (s : Host) (k : HostCall) :
    Adds s (s.sdiKernelCall k).1 (if s.acks k then 1 else 0) := by
  obtain ⟨target, op⟩ := k
  cases op with
  | irqAck =>
      have hfrom : s.sdiIrqFromHandle target
          = if s.acks ⟨target, .irqAck⟩ then .ok (target - 1)
            else .error SDI_ERR_NOT_FOUND := by
        unfold sdiIrqFromHandle acks
        by_cases h0 : target = SDI_NULL_HANDLE
        · simp [h0]
        by_cases hle : target ≤ SDI_IRQ_COUNT
        · have hgt : ¬ target > SDI_IRQ_COUNT := by omega
          cases hu : (s.irqBindings (target - 1)).used <;> simp [h0, hgt, hle]
        · have hgt : target > SDI_IRQ_COUNT := by omega
          simp [hgt, hle]
      unfold sdiKernelCall
      simp only [hfrom]
      by_cases hk : s.acks ⟨target, .irqAck⟩ = true
      · rw [if_pos hk, if_pos hk]
        exact adds_eoi s
      · rw [if_neg hk, if_neg hk]
        exact Adds.refl s
  | irqBind req lapicId =>
      refine adds_of_log ?_
      have hlog := sdiHostIrqBind_log s req lapicId
      unfold sdiKernelCall
      simp only
      split
      · rename_i heq
        rw [heq] at hlog
        exact hlog
      · rename_i heq
        rw [heq] at hlog
        exact hlog
  | irqUnbind => exact adds_of_log (sdiHostIrqUnbind_log s target)
  | nop => exact Adds.refl s
  | pioRead ret => exact Adds.refl s
  | pioWrite ret => exact Adds.refl s
  | irqMask pin => exact Adds.refl s
  | irqUnmask pin => exact Adds.refl s
  | unknown => exact Adds.refl s

/-- A driver's calls write the register unless none of them acknowledges. -/
theorem runCalls_adds (ks : List HostCall) (s : Host) :
    ∃ n, Adds s (s.runCalls ks) n ∧ (n = 0 ↔ Unacked s ks) := by
  induction ks generalizing s with
  | nil => exact ⟨0, Adds.refl s, by simp [Unacked]⟩
  | cons k ks ih =>
      obtain ⟨n, hadds, hiff⟩ := ih (s.sdiKernelCall k).1
      refine ⟨_, (sdiKernelCall_adds s k).trans hadds, ?_⟩
      show _ ↔ s.acks k = false ∧ Unacked (s.sdiKernelCall k).1 ks
      rw [← hiff]
      cases s.acks k <;> simp

-- ==== the interrupts

theorem sdiIrqDispatch_eq (s : Host) (code : DriverCode) (frame : Frame) :
    s.sdiIrqDispatch code frame
      = ((s.driverCalls code frame).1.runCalls (s.driverCalls code frame).2).apicSendEoi := by
  unfold sdiIrqDispatch driverCalls
  by_cases hb : frameIrq frame < SDI_IRQ_COUNT ∧ (s.irqBindings (frameIrq frame)).used
  · simp only [if_pos hb]
    cases (s.irqBindings (frameIrq frame)).handler <;> rfl
  · simp only [if_neg hb]
    rfl

theorem driverCalls_adds (s : Host) (code : DriverCode) (frame : Frame) :
    Adds s (s.driverCalls code frame).1 0 := by
  unfold driverCalls
  by_cases hb : frameIrq frame < SDI_IRQ_COUNT ∧ (s.irqBindings (frameIrq frame)).used
  · simp only [if_pos hb]
    cases (s.irqBindings (frameIrq frame)).handler with
    | none => exact Adds.refl s
    | some handler => exact ⟨[_], rfl, by simp, by simp⟩
  · simp only [if_neg hb]
    exact Adds.refl s

/-- `sdi_irq_dispatch` writes the register once, and the driver may have
written it before. -/
theorem sdiIrqDispatch_adds (s : Host) (code : DriverCode) (frame : Frame) :
    ∃ n, Adds s (s.sdiIrqDispatch code frame) (n + 1)
      ∧ (n = 0 ↔ Unacked (s.driverCalls code frame).1 (s.driverCalls code frame).2) := by
  obtain ⟨n, hadds, hiff⟩ := runCalls_adds (s.driverCalls code frame).2
    (s.driverCalls code frame).1
  rw [sdiIrqDispatch_eq]
  have h := ((driverCalls_adds s code frame).trans hadds).trans (adds_eoi _)
  rw [Nat.zero_add] at h
  exact ⟨n, h, hiff⟩

theorem timerIrq_log (s : Host) (index : Nat) :
    (s.timerIrq index).log = s.log ++ [.eoi, .schedTick] := by
  unfold timerIrq
  simp only
  split <;> simp [apicSendEoi, emit]

/-- Without `sched_tick`, the first part is all of it. -/
theorem ackedOnce_of_adds {new : List Effect} (h : .schedTick ∉ new) :
    AckedOnce new ↔ new.count .eoi = 1 := by
  have htake : new.takeWhile (· ≠ .schedTick) = new := by
    rw [List.takeWhile_eq_self_iff]
    intro e he
    simp only [ne_eq, decide_eq_true_eq]
    rintro rfl
    exact h he
  unfold AckedOnce
  rw [htake]
  exact and_self_iff

/-- An interrupt on a vector from 32 to 254 other than 0x80 is acknowledged
exactly once if and only if it is answered. -/
theorem answered_iff (s : Host) (code : DriverCode) (index : Nat) (frame : Frame)
    (hlo : 32 ≤ frame.vector % 256) (hhi : frame.vector % 256 ≤ 254)
    (hsys : frame.vector % 256 ≠ 0x80) :
    ∃ s' new, s.isrCommonHandler code index frame = .ok s'
      ∧ s'.log = s.log ++ new ∧ (AckedOnce new ↔ s.Answered code frame) := by
  have hne : frame.vector % 256 ≠ 0xff := by omega
  have hge : ¬ frame.vector % 256 < 32 := by omega
  unfold isrCommonHandler irqDispatchVector Answered
  simp only [if_neg hne, if_neg hge, if_neg hsys]
  cases hcb : (s.vectorHandlers (frame.vector % 256)).callback with
  | none => exact ⟨s, [], rfl, by simp, by simp [AckedOnce]⟩
  | some cb =>
      cases cb with
      | timerIrq =>
          refine ⟨_, _, rfl, timerIrq_log s index, ?_⟩
          exact ⟨fun _ => trivial, fun _ => ⟨rfl, rfl⟩⟩
      | sdiIrqDispatch =>
          obtain ⟨n, ⟨new, hlog, hn, hno⟩, hiff⟩ := sdiIrqDispatch_adds s code
            ((s.vectorHandlers (frame.vector % 256)).ctx.getD frame)
          refine ⟨_, new, rfl, hlog, ?_⟩
          rw [ackedOnce_of_adds hno, hn, ← hiff]
          omega

-- ==== traces

/-- `sdi_irq_bind` of interrupt 1, with driver handler 7 for instance 9. -/
def bindOne : HostCall :=
  ⟨SDI_NULL_HANDLE, .irqBind ⟨some (SIZEOF_IRQ_BIND_REQ, 2 ^ 24),
    SIZEOF_IRQ_BIND_REQ, 1, some 7, 9, some SIZEOF_IRQ_BIND_RESP⟩ 0⟩

/-- A handler that reads a port. -/
theorem answered_read :
    ∃ s' new, (static.runCalls [bindOne]).isrCommonHandler
        (fun _ _ _ => [⟨0, .pioRead SDI_OK⟩]) 0 ⟨0x21⟩ = .ok s'
      ∧ s'.log = new ∧ .invoke 7 9 2 ∈ new ∧ AckedOnce new := by
  obtain ⟨s', new, hok, hlog, hiff⟩ := answered_iff (static.runCalls [bindOne])
    (fun _ _ _ => [⟨0, .pioRead SDI_OK⟩]) 0 ⟨0x21⟩ (by decide) (by decide) (by decide)
  have hlog' : s'.log = [.invoke 7 9 2, .eoi] := by
    cases hok
    rfl
  have hnew : new = [.invoke 7 9 2, .eoi] := hlog.symm.trans hlog'
  refine ⟨s', new, hok, hlog, by rw [hnew]; simp, hiff.mpr ?_⟩
  show _ ∧ _
  exact ⟨rfl, trivial⟩

/-- An interrupt that arrives after its handler was unbound, and one whose
handler acknowledges it. -/
theorem unanswered_unbound_acked :
    (∃ s', (static.runCalls [bindOne, ⟨2, .irqUnbind⟩]).isrCommonHandler
        (fun _ _ _ => []) 0 ⟨0x21⟩ = .ok s' ∧ s'.log = [] ∧ ¬ AckedOnce [])
      ∧ ∃ s', (static.runCalls [bindOne]).isrCommonHandler
          (fun _ _ _ => [⟨2, .irqAck⟩]) 0 ⟨0x21⟩ = .ok s'
        ∧ s'.log = [.invoke 7 9 2, .eoi, .eoi]
        ∧ ¬ AckedOnce [.invoke 7 9 2, .eoi, .eoi] :=
  ⟨⟨_, rfl, rfl, fun h => absurd h.1 (by decide)⟩,
    ⟨_, rfl, rfl, fun h => absurd h.1 (by decide)⟩⟩

end Alix.Sdi.Host
