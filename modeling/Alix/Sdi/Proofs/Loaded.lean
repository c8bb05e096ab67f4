/-
What a failed `sdi_kernel_register_loaded_driver` leaves behind.

The registration comes first and takes nothing when it is refused. What
follows never touches the registry again (`probeLoaded_world`) and never
detaches, so a failure is clean when the registration is what failed.
`HookErrs` names the hook that makes the rest fail, in the order of the
sequence, and `probeLoaded_fails` is one case for each. There is nothing
that undoes the registration then, nor the attach when the start fails.
-/
import Alix.Sdi.Loaded
import Alix.Sdi.Proofs.RegistryRun

namespace Alix.Sdi

-- ==== statements

/-- The names and handles of the used entries, in the order of the
slots. -/
def Registry.entries (s : Registry) : List (Option Name × Nat) :=
  s.usedList.map fun i => (s.nameAt i, (s.registry i).handle)

/-- The operations that the new handle of a registration leads to. -/
def Registry.opsOfNew (s : Registry) (d : DriverDesc) (i : Nat) : Option DriverOps :=
  (s.registerEnd d i).1.opsFromHandle s.nextHandle

/-- A hook that is there and answers with an error. -/
def Errs (present : Bool) (st : Status) : Prop :=
  present = true ∧ st ≠ SDI_OK ∧ st ≠ SDI_ERR_UNSUPPORTED

/-- One of the hooks that the sequence comes to answers with an error. -/
def HookErrs (ops : DriverOps) (m : Option MatchId) (c : Hooks) : Prop :=
  let probe := c.probe (Drivers.probeMatch m)
  let attach := c.attach m
  Errs ops.probe probe.1
    ∨ (ops.probe = true ∧ probe.1 = SDI_OK ∧ probe.2 ≠ 0)
      ∧ (Errs ops.attach attach.1
        ∨ (ops.attach = true ∧ attach.1 = SDI_OK) ∧ Errs ops.start (c.start attach.2))

namespace Drivers

/-- If -1 comes back, the registry and the attached instances are as
before. -/
def CleanFailure (w : Drivers) (driver : Option LoadedDesc) (c : Hooks) : Prop :=
  let r := w.registerLoadedDriver driver c
  r.2 = -1 → r.1.reg.entries = w.reg.entries ∧ r.1.reg.driverCount = w.reg.driverCount
    ∧ r.1.attached = w.attached

/-- If the registration goes through, no hook after it answers with an
error. -/
def Settles (w : Drivers) (driver : Option LoadedDesc) (c : Hooks) : Prop :=
  ∀ d ops i, w.reg.registerBegin (driver.map (·.toDriverDesc)) true = .ok (d, ops, i) →
    (ops.init = true → c.init = SDI_OK) →
    ∃ ops', w.reg.opsOfNew d i = some ops' ∧ ¬ HookErrs ops' (driver.bind sdiFindSoftMatch) c

-- ==== the hooks

variable {w : Drivers} {handle instance_ : Nat} {m : Option MatchId} {c : Hooks} {ops : DriverOps}

theorem startLoaded_world : (w.startLoaded handle instance_ c).1 = w := by
  unfold startLoaded
  simp only
  split_ifs <;> rfl

theorem attachLoaded_world : (w.attachLoaded handle m c).1.toWorld = w.toWorld := by
  unfold attachLoaded
  simp only
  split_ifs
  · rfl
  · rfl
  · rw [startLoaded_world]

/-- Nothing from the probe on touches the registry. -/
theorem probeLoaded_world : (w.probeLoaded handle m c).1.toWorld = w.toWorld := by
  unfold probeLoaded
  simp only
  split_ifs
  · rfl
  · rfl
  · rfl
  · exact attachLoaded_world

/-- The status of a hook under a handle that leads to its driver. -/
theorem argumentCall_some {fn : DriverOps → Bool} {ret : Status}
    (ho : w.reg.opsFromHandle handle = some ops) :
    w.reg.argumentCall handle fn true ret = if fn ops then ret else SDI_ERR_UNSUPPORTED := by
  unfold Registry.argumentCall
  rw [ho]
  cases h : fn ops <;> simp [h]

theorem lifecycleCall_some {fn : DriverOps → Bool} {ret : Status}
    (ho : w.reg.opsFromHandle handle = some ops) :
    w.reg.lifecycleCall handle fn false ret = if fn ops then ret else SDI_ERR_UNSUPPORTED := by
  unfold Registry.lifecycleCall
  rw [ho]
  cases h : fn ops <;> simp [h]

theorem startLoaded_fails (ho : w.reg.opsFromHandle handle = some ops) :
    (w.startLoaded handle instance_ c).2 = -1 ↔ Errs ops.start (c.start instance_) := by
  unfold startLoaded Registry.sdiStartDriver Errs
  rw [lifecycleCall_some ho]
  cases ops.start with
  | false => simp
  | true =>
      by_cases hu : c.start instance_ = SDI_ERR_UNSUPPORTED
      · simp [hu]
      · by_cases hn : c.start instance_ = SDI_OK <;> simp [hu, hn]

theorem attachLoaded_fails (ho : w.reg.opsFromHandle handle = some ops) :
    (w.attachLoaded handle m c).2 = -1 ↔ Errs ops.attach (c.attach m).1
      ∨ (ops.attach = true ∧ (c.attach m).1 = SDI_OK) ∧ Errs ops.start (c.start (c.attach m).2) := by
  have hstart := @startLoaded_fails { w with attached := (handle, (c.attach m).2) :: w.attached }
    handle (c.attach m).2 c ops ho
  unfold attachLoaded Registry.sdiAttachDriver
  rw [argumentCall_some ho]
  cases ops.attach with
  | false => simp [Errs]
  | true =>
      by_cases hu : (c.attach m).1 = SDI_ERR_UNSUPPORTED
      · simp [Errs, hu]
      · by_cases hn : (c.attach m).1 = SDI_OK
        · simp [hn, hstart, Errs]
        · simp [Errs, hu, hn]

/-- The sequence fails at a hook. -/
theorem probeLoaded_fails (ho : w.reg.opsFromHandle handle = some ops) :
    (w.probeLoaded handle m c).2 = -1 ↔ HookErrs ops m c := by
  have hattach := @attachLoaded_fails w handle m c ops ho
  unfold probeLoaded HookErrs Registry.sdiProbeDriver
  obtain ⟨ret, score⟩ := c.probe (probeMatch m)
  simp only [argumentCall_some ho]
  cases ops.probe with
  | false => simp [Errs]
  | true =>
      by_cases hu : ret = SDI_ERR_UNSUPPORTED
      · simp [Errs, hu]
      · by_cases hn : ret = SDI_OK
        · by_cases hz : score = 0
          · simp [Errs, hn, hz]
          · simp [hn, hz, hattach, Errs]
        · simp [Errs, hu, hn]

/-- A handle that leads to no operations makes it fail at once. -/
theorem probeLoaded_lost (ho : w.reg.opsFromHandle handle = none) :
    (w.probeLoaded handle m c).2 = -1 := by
  unfold probeLoaded Registry.sdiProbeDriver Registry.argumentCall
  rw [ho]
  simp

-- ==== the registration

/-- A refused registration leaves everything as it is. -/
theorem registerLoadedDriver_refused {driver : Option LoadedDesc}
    (h : ∀ d ops i, w.reg.registerBegin (driver.map (·.toDriverDesc)) true = .ok (d, ops, i) →
      ops.init = true ∧ c.init ≠ SDI_OK) :
    w.registerLoadedDriver driver c = (w, -1) := by
  unfold registerLoadedDriver
  cases driver with
  | none => rfl
  | some driver =>
      simp only [exec_register_flat]
      cases hb : w.reg.registerBegin (some driver.toDriverDesc) true with
      | error st => rfl
      | ok r =>
          obtain ⟨d, ops, i⟩ := r
          obtain ⟨hi, hne⟩ := h d ops i hb
          simp [hi, hne]

/-- The registry after the registration. -/
def registered (w : Drivers) (d : DriverDesc) (i : Nat) : Drivers :=
  { w with reg := (w.reg.registerEnd d i).1, log := .registered w.reg.nextHandle d :: w.log }

/-- One that goes through is followed by the hooks. -/
theorem registerLoadedDriver_accepted {driver : Option LoadedDesc} {d : DriverDesc} {i : Nat}
    (hb : w.reg.registerBegin (driver.map (·.toDriverDesc)) true = .ok (d, ops, i))
    (hi : ops.init = true → c.init = SDI_OK) :
    w.registerLoadedDriver driver c
      = (w.registered d i).probeLoaded w.reg.nextHandle (driver.bind sdiFindSoftMatch) c := by
  cases driver with
  | none =>
      unfold Registry.registerBegin at hb
      split at hb <;> cases hb
  | some driver =>
      have hst : (if ops.init then c.init else SDI_OK) = SDI_OK := by
        split_ifs with h
        · exact hi h
        · rfl
      unfold registerLoadedDriver
      simp only [Option.map_some] at hb
      simp only [exec_register_flat, hb, hst]
      simp [registered]

/-- Then the counter has moved. -/
theorem driverCount_registerEnd (s : Registry) (d : DriverDesc) (i : Nat) :
    (s.registerEnd d i).1.driverCount ≠ s.driverCount := by
  show (s.driverCount + 1) % 2 ^ 32 ≠ s.driverCount
  omega

/-- Where the next handle is new, the hooks that count are the driver's
own. -/
theorem opsOfNew_eq {s : Registry} {driver : Option DriverDesc} {d : DriverDesc} {i : Nat}
    (hb : s.registerBegin driver true = .ok (d, ops, i)) (hnext : s.nextHandle ≠ SDI_NULL_HANDLE)
    (hnew : ∀ j ∈ s.usedSlots, (s.registry j).handle ≠ s.nextHandle) :
    driver = some d ∧ s.opsOfNew d i = some ops := by
  obtain ⟨name, hd, -, -, -, hops, -, -, -, -, -, -, hslot⟩ := Registry.registerBegin_ok hb
  obtain ⟨hi, -⟩ := Registry.freeSlot_some hslot
  obtain ⟨hself, hother, hused⟩ := s.registerEnd_slots d hi
  have hfound : (s.registerEnd d i).1.entryFromHandle s.nextHandle = some i := by
    apply Registry.entryFromHandle_of_mem hnext
    · simp [hused]
    · rw [hself]
    · intro j hj hh
      by_contra hne
      rw [hused, Finset.mem_insert] at hj
      rw [hother j hne] at hh
      exact hnew j (hj.resolve_left hne) hh
  refine ⟨hd, ?_⟩
  unfold Registry.opsOfNew Registry.opsFromHandle
  rw [hfound]
  simp [hself, hops]

/-- After a registration a failure is never clean. -/
theorem cleanFailure_accepted {driver : Option LoadedDesc} {d : DriverDesc} {i : Nat}
    (hb : w.reg.registerBegin (driver.map (·.toDriverDesc)) true = .ok (d, ops, i))
    (hi : ops.init = true → c.init = SDI_OK) :
    w.CleanFailure driver c
      ↔ ∃ o, w.reg.opsOfNew d i = some o ∧ ¬ HookErrs o (driver.bind sdiFindSoftMatch) c := by
  unfold CleanFailure
  rw [registerLoadedDriver_accepted hb hi]
  constructor
  · intro hclean
    by_contra hno
    have hfails : ((w.registered d i).probeLoaded w.reg.nextHandle
        (driver.bind sdiFindSoftMatch) c).2 = -1 := by
      cases ho : w.reg.opsOfNew d i with
      | none => exact probeLoaded_lost (w := w.registered d i) ho
      | some o =>
          apply (probeLoaded_fails (w := w.registered d i) ho).mpr
          by_contra hn
          exact hno ⟨o, ho, hn⟩
    obtain ⟨-, hcount, -⟩ := hclean hfails
    rw [probeLoaded_world] at hcount
    exact driverCount_registerEnd w.reg d i hcount
  · intro ⟨o, ho, hn⟩ r hfails
    exact absurd ((probeLoaded_fails (w := w.registered d i) ho).mp hfails) hn

/-- A failure is clean exactly when the registration is what failed; and
where the next handle is new, the hooks that count are the driver's own. -/
theorem cleanFailure_iff (w : Drivers) (driver : Option LoadedDesc) (c : Hooks) :
    (w.CleanFailure driver c ↔ w.Settles driver c)
      ∧ ∀ (d : DriverDesc) (ops : DriverOps) (i : Nat),
        w.reg.registerBegin (driver.map (·.toDriverDesc)) true = .ok (d, ops, i) →
        w.reg.nextHandle ≠ SDI_NULL_HANDLE →
        (∀ j ∈ w.reg.usedSlots, (w.reg.registry j).handle ≠ w.reg.nextHandle) →
        driver.map (·.toDriverDesc) = some d ∧ w.reg.opsOfNew d i = some ops := by
  refine ⟨?_, fun d ops i hb hnext hnew => opsOfNew_eq hb hnext hnew⟩
  by_cases hacc : ∃ d ops i, w.reg.registerBegin (driver.map (·.toDriverDesc)) true
      = .ok (d, ops, i) ∧ (ops.init = true → c.init = SDI_OK)
  · obtain ⟨d, ops, i, hb, hi⟩ := hacc
    rw [cleanFailure_accepted hb hi]
    constructor
    · intro hset d' ops' i' hb' _
      rw [hb] at hb'
      cases hb'
      exact hset
    · intro hset
      exact hset d ops i hb hi
  · -- the registration is refused
    have href : w.registerLoadedDriver driver c = (w, -1) := by
      apply registerLoadedDriver_refused
      intro d ops i hb
      by_contra hn
      exact hacc ⟨d, ops, i, hb, fun hi => by_contra fun hne => hn ⟨hi, hne⟩⟩
    constructor
    · intro _ d ops i hb hi
      exact absurd ⟨d, ops, i, hb, hi⟩ hacc
    · intro _
      unfold CleanFailure
      rw [href]
      simp

/-- A driver with a probe that answers `SDI_ERR_INVAL`. -/
def pickyDriver : LoadedDesc :=
  { smallDriver [112] with
    ops := (smallDriver [112]).ops.map fun ops => { ops with probe := true }
    matchCount := 0, matchIds := none }

/-- It stays registered. -/
theorem failed_probe_registered :
    ¬ CleanFailure { boot (some smallHost) none with attached := [] } (some pickyDriver)
      { init := SDI_OK, probe := fun _ => (SDI_ERR_INVAL, 0), attach := fun _ => (SDI_OK, 1)
        start := fun _ => SDI_OK } := by
  intro h
  obtain ⟨-, hcount, -⟩ := h (by decide +kernel)
  exact absurd hcount (by decide +kernel)

end Drivers

end Alix.Sdi
