/-
The slot array as a finite map, over whole runs of calls that do not
nest.

`Spec` is what the registry is for: a finite map from names to a handle
and a descriptor, and the handles given out so far. `SpecStep` says which
answer each call may give and what it does to the map; it knows no slots.
`Sim` relates the two: a name is in the map when a used slot holds it,
and every handle given out is below the counter. Fewer than `2^64 - 1`
calls keep the counter from wrapping, so a handle is never given out
twice.

Every run of the registry is a run of the map with the same answers
(`run_refines`), and after it the four lookups read exactly the map.
-/
import Alix.Sdi.Proofs.Registry
import Mathlib.Data.Finmap

namespace Alix.Sdi

-- ==== the runs

/-- The calls that hand a registered driver's operations an instance. -/
inductive Lifecycle where
  | probe (args : Bool)
  | attach (args : Bool)
  | start
  | stop
  | suspend
  | resume
  | detach
  | remove

/-- A call that does not nest. `ret` is what the driver's callback
returns, if the call gets to it. -/
inductive Op where
  | register (driver : Option DriverDesc) (outHandle : Bool) (ret : Status)
  | unregister (handle : Nat) (ret : Status)
  | find (name : Option Name) (outHandle : Bool)
  | count (outCount : Bool)
  | driverAt (index : Nat) (outDriver outHandle : Bool)
  | lifecycle (fn : Lifecycle) (handle : Nat) (ret : Status)

/-- What a call hands back besides `SDI_OK`. -/
inductive Answer where
  | report (r : Report)
  | handle (handle : Nat)
  | count (n : Nat)
  | driver (driver : Option DriverDesc) (handle : Nat)
  | status (st : Status)

abbrev Result : Type := Except Status Answer

/-- A lifecycle call. -/
def Registry.lifecycle (s : Registry) (fn : Lifecycle) (handle : Nat)
    (ret : Status) : Status :=
  match fn with
  | .probe args => s.sdiProbeDriver handle args ret
  | .attach args => s.sdiAttachDriver handle args ret
  | .start => s.sdiStartDriver handle ret
  | .stop => s.sdiStopDriver handle ret
  | .suspend => s.sdiSuspendDriver handle ret
  | .resume => s.sdiResumeDriver handle ret
  | .detach => s.sdiDetachDriver handle ret
  | .remove => s.sdiRemoveDriver handle ret

/-- One call. -/
def step (op : Op) (w : World) : World × Result :=
  match op with
  | .register driver outHandle ret =>
      let (w, r) := exec (.register driver outHandle [] ret) w
      (w, r.map .report)
  | .unregister handle ret =>
      let (w, r) := exec (.unregister handle [] ret) w
      (w, r.map .report)
  | .find name outHandle => (w, (w.reg.sdiFindDriver name outHandle).map .handle)
  | .count outCount => (w, (w.reg.sdiGetDriverCount outCount).map .count)
  | .driverAt index outDriver outHandle =>
      (w, (w.reg.sdiGetDriverAt index outDriver outHandle).map
        fun r => .driver r.1 r.2)
  | .lifecycle fn handle ret => (w, .ok (.status (w.reg.lifecycle fn handle ret)))

/-- Calls one after the other, with their results. -/
def run : List Op → World → World × List Result
  | [], w => (w, [])
  | op :: ops, w =>
      let (w, r) := step op w
      let (w, rs) := run ops w
      (w, r :: rs)

-- ==== the map

/-- Names to handles and descriptors, and the handles given out. -/
structure Spec where
  map : Finmap fun _ : Name => Nat × DriverDesc
  issued : List Nat

/-- A descriptor that passes the ABI and capability checks. -/
structure Acceptable (caps : BitVec 64) (d : DriverDesc) (ops : DriverOps)
    (name : Name) : Prop where
  named : d.name = some name
  nonempty : name ≠ []
  operated : d.ops = some ops
  descAbi : checkAbi d.size SIZEOF_DRIVER_DESC d.version = SDI_OK
  opsAbi : checkAbi ops.size SIZEOF_DRIVER_OPS ops.version = SDI_OK
  major : d.abiMajor = SDI_VERSION_MAJOR
  granted : d.requiredCaps &&& ~~~caps = 0

/-- When a registration succeeds. -/
structure CanRegister (caps : BitVec 64) (max : Nat) (m : Spec)
    (driver : Option DriverDesc) (outHandle : Bool) (ret : Status)
    (d : DriverDesc) (ops : DriverOps) (name : Name) : Prop where
  given : driver = some d
  out : outHandle = true
  acceptable : Acceptable caps d ops name
  absent : m.map.lookup name = none
  room : m.map.keys.card < max
  init : ops.init = true → ret = SDI_OK

/-- When an unregistration succeeds. -/
structure CanUnregister (m : Spec) (handle : Nat) (ret : Status)
    (d : DriverDesc) (name : Name) : Prop where
  present : m.map.lookup name = some (handle, d)
  fini : (d.ops.map (·.fini)).getD false = true → ret = SDI_OK

/-- What a lifecycle call returns for a driver with these operations. -/
def Lifecycle.dispatch (fn : Lifecycle) (ops : DriverOps) (ret : Status) :
    Status :=
  match fn with
  | .probe args =>
      if !ops.probe then SDI_ERR_UNSUPPORTED
      else if args then ret else SDI_ERR_INVAL
  | .attach args =>
      if !ops.attach then SDI_ERR_UNSUPPORTED
      else if args then ret else SDI_ERR_INVAL
  | .start => if ops.start then ret else SDI_ERR_UNSUPPORTED
  | .stop => if ops.stop then ret else SDI_OK
  | .suspend => if ops.suspend then ret else SDI_OK
  | .resume => if ops.resume then ret else SDI_OK
  | .detach => if ops.detach then ret else SDI_OK
  | .remove => if ops.remove then ret else SDI_OK

/-- The calls on the map: the answer and the map afterwards. -/
def SpecStep (caps : BitVec 64) (max : Nat) (m : Spec) (op : Op) (r : Result)
    (m' : Spec) : Prop :=
  match op with
  | .register driver outHandle ret =>
      (∃ d ops name h, CanRegister caps max m driver outHandle ret d ops name
          ∧ h ≠ SDI_NULL_HANDLE ∧ h ∉ m.issued
          ∧ r = .ok (.report (.registered h d))
          ∧ m' = ⟨m.map.insert name (h, d), h :: m.issued⟩)
        ∨ ((¬ ∃ d ops name, CanRegister caps max m driver outHandle ret d ops name)
          ∧ (∃ st, st ≠ SDI_OK ∧ r = .error st) ∧ m' = m)
  | .unregister handle ret =>
      (∃ d name, CanUnregister m handle ret d name
          ∧ r = .ok (.report (.unregistered handle))
          ∧ m' = ⟨m.map.erase name, m.issued⟩)
        ∨ ((¬ ∃ d name, CanUnregister m handle ret d name)
          ∧ (∃ st, st ≠ SDI_OK ∧ r = .error st) ∧ m' = m)
  | .find name outHandle =>
      m' = m ∧ r =
        match name, outHandle with
        | some name, true =>
            match m.map.lookup name with
            | some (h, _) => .ok (.handle h)
            | none => .error SDI_ERR_NOT_FOUND
        | _, _ => .error SDI_ERR_INVAL
  | .count outCount =>
      m' = m ∧ r = if outCount then .ok (.count m.map.keys.card)
        else .error SDI_ERR_INVAL
  | .driverAt index outDriver outHandle =>
      m' = m ∧
        if outDriver && outHandle then
          if index < m.map.keys.card then
            ∃ name h d, m.map.lookup name = some (h, d)
              ∧ r = .ok (.driver (some d) h)
          else r = .error SDI_ERR_NOT_FOUND
        else r = .error SDI_ERR_INVAL
  | .lifecycle fn handle ret =>
      m' = m ∧
        ((∃ name d ops, m.map.lookup name = some (handle, d)
            ∧ d.ops = some ops ∧ r = .ok (.status (fn.dispatch ops ret)))
          ∨ ((¬ ∃ name d, m.map.lookup name = some (handle, d))
            ∧ r = .ok (.status SDI_ERR_NOT_FOUND)))

/-- Runs of the map. -/
inductive SpecRun (caps : BitVec 64) (max : Nat) :
    Spec → List Op → List Result → Spec → Prop
  | nil (m : Spec) : SpecRun caps max m [] [] m
  | cons {m m' m'' : Spec} {op : Op} {ops : List Op} {r : Result}
      {rs : List Result} : SpecStep caps max m op r m' →
      SpecRun caps max m' ops rs m'' → SpecRun caps max m (op :: ops) (r :: rs) m''

/-- The lookups of the registry read exactly the map. -/
structure Reads (w : World) (m : Spec) : Prop where
  size : m.map.keys.card ≤ w.reg.maxDrivers
  count : w.reg.driverCount = m.map.keys.card
  find : ∀ name, w.reg.sdiFindDriver (some name) true
    = match m.map.lookup name with
      | some (h, _) => .ok h
      | none => .error SDI_ERR_NOT_FOUND
  handle : ∀ h d, (∃ i, w.reg.entryFromHandle h = some i
      ∧ (w.reg.registry i).driver = some d)
    ↔ ∃ name, m.map.lookup name = some (h, d)
  retired : ∀ h, .unregistered h ∈ w.log → w.reg.entryFromHandle h = none
  at_mem : ∀ k, k < m.map.keys.card → ∃ name h d,
    m.map.lookup name = some (h, d)
      ∧ w.reg.sdiGetDriverAt k true true = .ok (some d, h)
  at_once : ∀ name h d, m.map.lookup name = some (h, d) →
    ∃! k, k < m.map.keys.card
      ∧ w.reg.sdiGetDriverAt k true true = .ok (some d, h)
  at_end : ∀ k, m.map.keys.card ≤ k →
    w.reg.sdiGetDriverAt k true true = .error SDI_ERR_NOT_FOUND

-- ==== the simulation

/-- The registry after `n` calls and the map they describe. -/
structure Sim (caps : BitVec 64) (max : Nat) (w : World) (m : Spec)
    (n : Nat) : Prop where
  inv : Inv w
  ready : w.reg.initialized = true
  caps : w.reg.hostCaps = caps
  max : w.reg.maxDrivers = max
  map : ∀ name h d, m.map.lookup name = some (h, d)
    ↔ ∃ i ∈ w.reg.usedSlots, w.reg.registry i = ⟨h, some d, true⟩
      ∧ d.name = some name
  below : ∀ h ∈ m.issued, h < w.reg.nextHandle
  holds : ∀ i ∈ w.reg.usedSlots, (w.reg.registry i).handle ∈ m.issued
  retired : ∀ h, .unregistered h ∈ w.log →
    h ∈ m.issued ∧ ∀ i ∈ w.reg.usedSlots, (w.reg.registry i).handle ≠ h
  next : w.reg.nextHandle ≤ n + 1
  operated : ∀ i ∈ w.reg.usedSlots, ∀ d, (w.reg.registry i).driver = some d →
    ∃ ops, d.ops = some ops

variable {caps : BitVec 64} {max n : Nat} {w : World} {m : Spec}

/-- A used slot, read through the map. -/
theorem Sim.of_used (h : Sim caps max w m n) {i : Nat}
    (hi : i ∈ w.reg.usedSlots) :
    ∃ d name, w.reg.registry i = ⟨(w.reg.registry i).handle, some d, true⟩
      ∧ w.reg.nameAt i = some name ∧ d.name = some name
      ∧ m.map.lookup name = some ((w.reg.registry i).handle, d) := by
  obtain ⟨d, name, hd, hn⟩ := h.inv.named i hi
  have he : w.reg.registry i = ⟨(w.reg.registry i).handle, some d, true⟩ := by
    rw [← hd, ← (Registry.mem_usedSlots.mp hi).2]
  have hat : w.reg.nameAt i = some name := by
    unfold Registry.nameAt
    rw [hd]
    exact hn
  exact ⟨d, name, he, hat, hn, (h.map name _ d).mpr ⟨i, hi, he, hn⟩⟩

/-- The map has one entry for each used slot. -/
theorem Sim.card (h : Sim caps max w m n) :
    m.map.keys.card = w.reg.usedSlots.card := by
  have himage : m.map.keys
      = w.reg.usedSlots.image fun i => (w.reg.nameAt i).getD [] := by
    ext name
    rw [Finmap.mem_keys, Finmap.mem_iff, Finset.mem_image]
    constructor
    · rintro ⟨⟨hd, d⟩, hl⟩
      obtain ⟨i, hi, he, hn⟩ := (h.map name hd d).mp hl
      exact ⟨i, hi, by simp [Registry.nameAt, he, hn]⟩
    · rintro ⟨i, hi, he⟩
      obtain ⟨d, name', -, hat, -, hl⟩ := h.of_used hi
      rw [hat] at he
      refine ⟨((w.reg.registry i).handle, d), ?_⟩
      rw [← he]
      exact hl
  rw [himage]
  apply Finset.card_image_of_injOn
  intro a ha b hb heq
  obtain ⟨d, na, -, hna, -, -⟩ := h.of_used ha
  obtain ⟨d', nb, -, hnb, -, -⟩ := h.of_used hb
  refine h.inv.names a ha b hb ?_
  simp only [hna, hnb, Option.getD_some] at heq ⊢
  rw [heq]

theorem Sim.absent_iff (h : Sim caps max w m n) (name : Name) :
    w.reg.entryFromName (some name) = none ↔ m.map.lookup name = none := by
  rw [Registry.entryFromName_none]
  constructor
  · intro hno
    cases hl : m.map.lookup name with
    | none => rfl
    | some v =>
        obtain ⟨hd, d⟩ := v
        obtain ⟨i, hi, he, hn⟩ := (h.map name hd d).mp hl
        exact absurd (by simp [Registry.nameAt, he, hn]) (hno i hi)
  · intro hl i hi hname
    obtain ⟨d, name', -, hat, -, hl'⟩ := h.of_used hi
    rw [hat] at hname
    cases hname
    rw [hl] at hl'
    cases hl'

/-- There is a free slot when the map has room. -/
theorem Sim.room_iff (h : Sim caps max w m n) :
    w.reg.freeSlot ≠ none ↔ m.map.keys.card < max := by
  rw [h.card, ← h.max]
  constructor
  · intro hne
    obtain ⟨i, hi⟩ := Option.ne_none_iff_exists'.mp hne
    obtain ⟨hlt, hfree⟩ := Registry.freeSlot_some hi
    have hsub : w.reg.usedSlots ⊂ Finset.range w.reg.maxDrivers := by
      refine Finset.filter_ssubset.mpr ⟨i, Finset.mem_range.mpr hlt, ?_⟩
      simp [hfree]
    have := Finset.card_lt_card hsub
    rwa [Finset.card_range] at this
  · intro hlt hnone
    have hall : w.reg.usedSlots = Finset.range w.reg.maxDrivers := by
      apply Finset.filter_true_of_mem
      intro i hi
      unfold Registry.freeSlot at hnone
      have := List.find?_eq_none.mp hnone i
        (List.mem_range.mpr (Finset.mem_range.mp hi))
      simpa using this
    rw [hall, Finset.card_range] at hlt
    omega

/-- What `sdi_entry_from_handle_` finds is the map's entry. -/
theorem Sim.handle_iff (h : Sim caps max w m n) (hd : Nat) (d : DriverDesc) :
    (∃ i, w.reg.entryFromHandle hd = some i ∧ (w.reg.registry i).driver = some d)
      ↔ ∃ name, m.map.lookup name = some (hd, d) := by
  constructor
  · rintro ⟨i, hi, hdrv⟩
    obtain ⟨-, hu, hh⟩ := Registry.entryFromHandle_some hi
    obtain ⟨d', name, hreg, -, -, hl⟩ := h.of_used hu
    rw [hreg] at hdrv
    cases hdrv
    rw [hh] at hl
    exact ⟨name, hl⟩
  · rintro ⟨name, hl⟩
    obtain ⟨i, hi, he, -⟩ := (h.map name hd d).mp hl
    have hh : (w.reg.registry i).handle = hd := by rw [he]
    refine ⟨i, Registry.entryFromHandle_of_mem ?_ hi hh ?_, by rw [he]⟩
    · rw [← hh]
      exact h.inv.nonzero i hi
    · intro j hj hjh
      exact h.inv.handles j hj i hi (by rw [hjh, hh])

-- ==== steps

theorem registerBegin_error {s : Registry} {driver : Option DriverDesc}
    {outHandle : Bool} {st : Status}
    (h : s.registerBegin driver outHandle = .error st) : st ≠ SDI_OK := by
  unfold Registry.registerBegin at h
  repeat' split at h
  all_goals
    cases h
    first | decide | skip

/-- The checks of `sdi_register_driver` pass on an acceptable descriptor
with a new name when there is a slot. -/
theorem registerBegin_of {s : Registry} {d : DriverDesc} {ops : DriverOps}
    {name : Name} {i : Nat} (hready : s.initialized = true)
    (ha : Acceptable s.hostCaps d ops name)
    (hnew : s.entryFromName (some name) = none) (hslot : s.freeSlot = some i) :
    s.registerBegin (some d) true = .ok (d, ops, i) := by
  have hlen : strlen (some name) ≠ 0 := by
    have := ha.nonempty
    simpa [strlen] using this
  unfold Registry.registerBegin
  simp only [Registry.requireInit, hready, ha.named, ha.operated, ha.descAbi,
    ha.opsAbi, ha.major, ha.granted, hnew, hslot]
  simp [hlen]

theorem exec_register_flat (driver : Option DriverDesc) (outHandle : Bool)
    (ret : Status) (w : World) :
    exec (.register driver outHandle [] ret) w
      = match w.reg.registerBegin driver outHandle with
        | .error st => (w, .error st)
        | .ok (d, ops, i) =>
            if (if ops.init then ret else SDI_OK) ≠ SDI_OK then
              (w, .error (if ops.init then ret else SDI_OK))
            else
              (⟨(w.reg.registerEnd d i).1,
                .registered w.reg.nextHandle d :: w.log⟩,
                .ok (.registered w.reg.nextHandle d)) := by
  unfold exec execAll
  cases w.reg.registerBegin driver outHandle with
  | error st => rfl
  | ok r =>
      simp only [ite_self]
      rfl

theorem exec_unregister_flat (handle : Nat) (ret : Status) (w : World) :
    exec (.unregister handle [] ret) w
      = match w.reg.unregisterBegin handle with
        | .error st => (w, .error st)
        | .ok (i, hasFini) =>
            if (if hasFini then ret else SDI_OK) ≠ SDI_OK then
              (w, .error (if hasFini then ret else SDI_OK))
            else
              (⟨w.reg.unregisterEnd i, .unregistered handle :: w.log⟩,
                .ok (.unregistered handle)) := by
  unfold exec execAll
  cases w.reg.unregisterBegin handle with
  | error st => rfl
  | ok r =>
      simp only [ite_self]

/-- Filling a slot is adding an entry. -/
theorem Sim.registered (h : Sim caps max w m n) (hn : n + 2 < 2 ^ 64)
    {d : DriverDesc} {ops : DriverOps} {name : Name} {i : Nat}
    (ha : Acceptable caps d ops name)
    (hnew : w.reg.entryFromName (some name) = none)
    (hslot : w.reg.freeSlot = some i) :
    w.reg.nextHandle ∉ m.issued
      ∧ Sim caps max ⟨(w.reg.registerEnd d i).1,
          .registered w.reg.nextHandle d :: w.log⟩
          ⟨m.map.insert name (w.reg.nextHandle, d),
            w.reg.nextHandle :: m.issued⟩ (n + 1) := by
  obtain ⟨hlt, hfree⟩ := Registry.freeSlot_some hslot
  have hfresh : w.reg.nextHandle ∉ m.issued := fun hc =>
    Nat.lt_irrefl _ (h.below _ hc)
  have hinv := h.inv.registerEnd hlt hfree ha.named hnew fun j hj he =>
    hfresh (by rw [← he]; exact h.holds j hj)
  obtain ⟨hself, hother, hused⟩ := w.reg.registerEnd_slots d hlt
  have hnot : i ∉ w.reg.usedSlots := by
    intro hc
    rw [(Registry.mem_usedSlots.mp hc).2] at hfree
    cases hfree
  have hold : ∀ j ∈ w.reg.usedSlots,
      (w.reg.registerEnd d i).1.registry j = w.reg.registry j := fun j hj =>
    hother j fun e => hnot (by rw [← e]; exact hj)
  have hnext : (w.reg.registerEnd d i).1.nextHandle = w.reg.nextHandle + 1 := by
    have hle := h.next
    have hmod : (w.reg.nextHandle + 1) % 2 ^ 64 = w.reg.nextHandle + 1 :=
      Nat.mod_eq_of_lt (by omega)
    show (if (w.reg.nextHandle + 1) % 2 ^ 64 = SDI_NULL_HANDLE then 1
      else (w.reg.nextHandle + 1) % 2 ^ 64) = _
    rw [hmod, if_neg (Nat.succ_ne_zero _)]
  have habs := (h.absent_iff name).mp hnew
  refine ⟨hfresh, hinv, h.ready, h.caps, h.max, ?_, ?_, ?_, ?_, ?_, ?_⟩
  · intro name' h' d'
    show _ ↔ ∃ j ∈ (w.reg.registerEnd d i).1.usedSlots, _
    rw [hused]
    by_cases he : name' = name
    · subst he
      rw [Finmap.lookup_insert]
      constructor
      · intro hv
        cases hv
        exact ⟨i, Finset.mem_insert_self .., hself, ha.named⟩
      · rintro ⟨j, hj, hreg, hn'⟩
        rcases Finset.mem_insert.mp hj with rfl | hj
        · rw [hself] at hreg
          cases hreg
          rfl
        · rw [hold j hj] at hreg
          have := (h.map name' h' d').mpr ⟨j, hj, hreg, hn'⟩
          rw [habs] at this
          cases this
    · rw [Finmap.lookup_insert_of_ne _ he, h.map name' h' d']
      constructor
      · rintro ⟨j, hj, hreg, hn'⟩
        exact ⟨j, Finset.mem_insert_of_mem hj, by rw [hold j hj]; exact hreg, hn'⟩
      · rintro ⟨j, hj, hreg, hn'⟩
        rcases Finset.mem_insert.mp hj with rfl | hj
        · rw [hself] at hreg
          cases hreg
          rw [ha.named] at hn'
          exact absurd (Option.some.inj hn').symm he
        · exact ⟨j, hj, by rw [← hold j hj]; exact hreg, hn'⟩
  · intro x hx
    rw [hnext]
    rcases List.mem_cons.mp hx with rfl | hx
    · exact Nat.lt_succ_self _
    · exact Nat.lt_succ_of_lt (h.below x hx)
  · intro j hj
    rw [hused] at hj
    rcases Finset.mem_insert.mp hj with rfl | hj
    · rw [hself]
      exact List.mem_cons_self
    · rw [hold j hj]
      exact List.mem_cons_of_mem _ (h.holds j hj)
  · intro x hx
    rcases List.mem_cons.mp hx with hx | hx
    · cases hx
    · obtain ⟨hin, hno⟩ := h.retired x hx
      refine ⟨List.mem_cons_of_mem _ hin, fun j hj => ?_⟩
      rw [hused] at hj
      rcases Finset.mem_insert.mp hj with rfl | hj
      · rw [hself]
        intro e
        change w.reg.nextHandle = x at e
        exact hfresh (by rw [e]; exact hin)
      · rw [hold j hj]
        exact hno j hj
  · rw [hnext]
    have := h.next
    omega
  · intro j hj d' hd'
    rw [hused] at hj
    rcases Finset.mem_insert.mp hj with rfl | hj
    · rw [hself] at hd'
      cases hd'
      exact ⟨ops, ha.operated⟩
    · rw [hold j hj] at hd'
      exact h.operated j hj d' hd'

/-- Clearing a slot is removing an entry. -/
theorem Sim.unregistered (h : Sim caps max w m n) {d : DriverDesc}
    {name : Name} {handle i : Nat} (hi : i ∈ w.reg.usedSlots)
    (he : w.reg.registry i = ⟨handle, some d, true⟩) (hname : d.name = some name) :
    Sim caps max ⟨w.reg.unregisterEnd i, .unregistered handle :: w.log⟩
      ⟨m.map.erase name, m.issued⟩ (n + 1) := by
  have hh : (w.reg.registry i).handle = handle := by rw [he]
  obtain ⟨hother, hused⟩ := w.reg.unregisterEnd_slots i
  have hnameAt : w.reg.nameAt i = some name := by
    unfold Registry.nameAt
    rw [he]
    exact hname
  refine ⟨h.inv.unregisterEnd hi hh, h.ready, h.caps, h.max, ?_, h.below, ?_, ?_,
    Nat.le_succ_of_le h.next, ?_⟩
  · intro name' h' d'
    show _ ↔ ∃ j ∈ (w.reg.unregisterEnd i).usedSlots, _
    rw [hused]
    by_cases hne : name' = name
    · subst hne
      rw [Finmap.lookup_erase]
      constructor
      · intro hv
        cases hv
      · rintro ⟨j, hj, hreg, hn'⟩
        obtain ⟨hji, hj⟩ := Finset.mem_erase.mp hj
        rw [hother j hji] at hreg
        refine absurd (h.inv.names j hj i hi ?_) hji
        rw [hnameAt]
        unfold Registry.nameAt
        rw [hreg]
        exact hn'
    · rw [Finmap.lookup_erase_ne hne, h.map name' h' d']
      constructor
      · rintro ⟨j, hj, hreg, hn'⟩
        have hji : j ≠ i := by
          rintro rfl
          rw [he] at hreg
          cases hreg
          rw [hname] at hn'
          exact hne (Option.some.inj hn').symm
        exact ⟨j, Finset.mem_erase.mpr ⟨hji, hj⟩, by rw [hother j hji]; exact hreg, hn'⟩
      · rintro ⟨j, hj, hreg, hn'⟩
        obtain ⟨hji, hj⟩ := Finset.mem_erase.mp hj
        exact ⟨j, hj, by rw [← hother j hji]; exact hreg, hn'⟩
  · intro j hj
    rw [hused] at hj
    obtain ⟨hji, hj⟩ := Finset.mem_erase.mp hj
    rw [hother j hji]
    exact h.holds j hj
  · intro x hx
    -- the handle was given out, and its slot is the one that is cleared
    have hkeep : ∀ j ∈ (w.reg.unregisterEnd i).usedSlots,
        j ≠ i ∧ j ∈ w.reg.usedSlots
          ∧ (w.reg.unregisterEnd i).registry j = w.reg.registry j := by
      intro j hj
      rw [hused] at hj
      obtain ⟨hji, hj⟩ := Finset.mem_erase.mp hj
      exact ⟨hji, hj, hother j hji⟩
    rcases List.mem_cons.mp hx with hx | hx
    · cases hx
      refine ⟨by rw [← hh]; exact h.holds i hi, fun j hj => ?_⟩
      obtain ⟨hji, hj, hreg⟩ := hkeep j hj
      rw [hreg]
      intro e
      exact hji (h.inv.handles j hj i hi (by rw [e, hh]))
    · obtain ⟨hin, hno⟩ := h.retired x hx
      refine ⟨hin, fun j hj => ?_⟩
      obtain ⟨-, hj, hreg⟩ := hkeep j hj
      rw [hreg]
      exact hno j hj
  · intro j hj d' hd'
    rw [hused] at hj
    obtain ⟨hji, hj⟩ := Finset.mem_erase.mp hj
    rw [hother j hji] at hd'
    exact h.operated j hj d' hd'

/-- `sdi_register_driver` is the map's registration. -/
theorem Sim.step_register (h : Sim caps max w m n) (hn : n + 2 < 2 ^ 64)
    (driver : Option DriverDesc) (outHandle : Bool) (ret : Status) :
    ∃ m', SpecStep caps max m (.register driver outHandle ret)
        (step (.register driver outHandle ret) w).2 m'
      ∧ Sim caps max (step (.register driver outHandle ret) w).1 m' (n + 1) := by
  have hstay : Sim caps max w m (n + 1) :=
    { h with next := Nat.le_succ_of_le h.next }
  unfold step
  simp only [exec_register_flat]
  cases hb : w.reg.registerBegin driver outHandle with
  | error st =>
      refine ⟨m, Or.inr ⟨?_, ⟨st, registerBegin_error hb, rfl⟩, rfl⟩, hstay⟩
      rintro ⟨d, ops, name, hc⟩
      obtain ⟨i, hi⟩ := Option.ne_none_iff_exists'.mp (h.room_iff.mpr hc.room)
      have hok := registerBegin_of h.ready (by rw [h.caps]; exact hc.acceptable)
        ((h.absent_iff name).mpr hc.absent) hi
      rw [hc.given, hc.out, hok] at hb
      cases hb
  | ok r =>
      obtain ⟨d, ops, i⟩ := r
      obtain ⟨name, hgiven, hout, -, hname, hops, habi, hoabi, hmajor, hcaps,
        hne, hnew, hslot⟩ := Registry.registerBegin_ok hb
      rw [h.caps] at hcaps
      have ha : Acceptable caps d ops name :=
        ⟨hname, hne, hops, habi, hoabi, hmajor, hcaps⟩
      simp only
      generalize hret : (if ops.init then ret else SDI_OK) = st
      by_cases hst : st ≠ SDI_OK
      · rw [if_pos hst]
        refine ⟨m, Or.inr ⟨?_, ⟨st, hst, rfl⟩, rfl⟩, hstay⟩
        rintro ⟨d', ops', name', hc⟩
        rw [hc.given] at hgiven
        cases hgiven
        have hops' := hc.acceptable.operated
        rw [hops] at hops'
        cases hops'
        apply hst
        rw [← hret]
        split
        case isTrue hinit => exact hc.init hinit
        case isFalse => rfl
      · rw [if_neg hst]
        obtain ⟨hfresh, hsim⟩ := h.registered hn ha hnew hslot
        refine ⟨_, Or.inl ⟨d, ops, name, w.reg.nextHandle, ?_, h.inv.next,
          hfresh, rfl, rfl⟩, hsim⟩
        refine ⟨hgiven, hout, ha, (h.absent_iff name).mp hnew,
          h.room_iff.mp (by rw [hslot]; simp), fun hinit => ?_⟩
        rw [if_pos hinit] at hret
        rw [hret]
        exact not_not.mp hst

theorem unregisterBegin_error {s : Registry} {handle : Nat} {st : Status}
    (h : s.unregisterBegin handle = .error st) : st ≠ SDI_OK := by
  unfold Registry.unregisterBegin at h
  split at h
  case isTrue => cases h; decide
  case isFalse =>
    split at h
    case h_1 => cases h; decide
    case h_2 => cases h

/-- `sdi_unregister_driver` is the map's. -/
theorem Sim.step_unregister (h : Sim caps max w m n) (handle : Nat)
    (ret : Status) :
    ∃ m', SpecStep caps max m (.unregister handle ret)
        (step (.unregister handle ret) w).2 m'
      ∧ Sim caps max (step (.unregister handle ret) w).1 m' (n + 1) := by
  have hstay : Sim caps max w m (n + 1) :=
    { h with next := Nat.le_succ_of_le h.next }
  unfold step
  simp only [exec_unregister_flat]
  cases hb : w.reg.unregisterBegin handle with
  | error st =>
      refine ⟨m, Or.inr ⟨?_, ⟨st, unregisterBegin_error hb, rfl⟩, rfl⟩, hstay⟩
      rintro ⟨d, name, hc⟩
      obtain ⟨i, hi, -⟩ := (h.handle_iff handle d).mpr ⟨name, hc.present⟩
      unfold Registry.unregisterBegin at hb
      simp [Registry.requireInit, h.ready, hi] at hb
  | ok r =>
      obtain ⟨i, hasFini⟩ := r
      obtain ⟨-, hentry, hfini⟩ := Registry.unregisterBegin_ok hb
      obtain ⟨-, hi, hh⟩ := Registry.entryFromHandle_some hentry
      obtain ⟨d, name, hreg, -, hname, hl⟩ := h.of_used hi
      rw [hh] at hreg hl
      rw [hreg] at hfini
      change hasFini = (d.ops.map (·.fini)).getD false at hfini
      simp only
      generalize hret : (if hasFini then ret else SDI_OK) = st
      by_cases hst : st ≠ SDI_OK
      · rw [if_pos hst]
        refine ⟨m, Or.inr ⟨?_, ⟨st, hst, rfl⟩, rfl⟩, hstay⟩
        rintro ⟨d', name', hc⟩
        -- one handle, one entry
        obtain ⟨j, hj, hjd⟩ := (h.handle_iff handle d').mpr ⟨name', hc.present⟩
        rw [hentry] at hj
        cases hj
        rw [hreg] at hjd
        cases hjd
        apply hst
        rw [← hret]
        split
        case isTrue hf => exact hc.fini (by rw [← hfini]; exact hf)
        case isFalse => rfl
      · rw [if_neg hst]
        refine ⟨_, Or.inl ⟨d, name, ⟨hl, fun hf => ?_⟩, rfl, rfl⟩,
          h.unregistered hi hreg hname⟩
        rw [hfini, if_pos hf] at hret
        rw [hret]
        exact not_not.mp hst

-- ==== queries

theorem Sim.find_eq (h : Sim caps max w m n) (name : Name) :
    w.reg.sdiFindDriver (some name) true
      = match m.map.lookup name with
        | some (hd, _) => .ok hd
        | none => .error SDI_ERR_NOT_FOUND := by
  unfold Registry.sdiFindDriver
  simp only [Registry.requireInit, h.ready]
  cases he : w.reg.entryFromName (some name) with
  | none =>
      rw [(h.absent_iff name).mp he]
      simp
  | some i =>
      obtain ⟨hi, hat⟩ := Registry.entryFromName_some he
      obtain ⟨d, name', -, hat', -, hl⟩ := h.of_used hi
      rw [hat] at hat'
      cases hat'
      rw [hl]
      simp

/-- The loop of `sdi_get_driver_at` counts used slots. -/
theorem usedAt_eq (s : Registry) : ∀ (is : List Nat) (seen k : Nat),
    s.usedAt (seen + k) is seen = (is.filter fun i => (s.registry i).used)[k]? := by
  intro is
  induction is with
  | nil => intro seen k; rfl
  | cons i is ih =>
      intro seen k
      unfold Registry.usedAt
      cases hu : (s.registry i).used with
      | false =>
          rw [if_neg (by simp), ih, List.filter_cons_of_neg (by simp [hu])]
      | true =>
          rw [if_pos rfl, List.filter_cons_of_pos (by simpa using hu)]
          cases k with
          | zero => simp
          | succ k =>
              rw [if_neg (by omega), show seen + (k + 1) = seen + 1 + k by omega,
                ih, List.getElem?_cons_succ]

/-- The used slots in the order `sdi_get_driver_at` counts them. -/
def Registry.usedList (s : Registry) : List Nat :=
  (List.range s.maxDrivers).filter fun i => (s.registry i).used

theorem usedList_nodup (s : Registry) : s.usedList.Nodup :=
  List.Nodup.filter _ List.nodup_range

theorem mem_usedList {s : Registry} {i : Nat} :
    i ∈ s.usedList ↔ i ∈ s.usedSlots := by
  rw [Registry.mem_usedSlots]
  simp [Registry.usedList]

theorem usedList_length (s : Registry) : s.usedList.length = s.usedSlots.card := by
  rw [← List.toFinset_card_of_nodup (usedList_nodup s)]
  congr 1
  ext i
  rw [List.mem_toFinset, mem_usedList]

theorem Sim.driverAt_eq (h : Sim caps max w m n) (k : Nat) :
    w.reg.sdiGetDriverAt k true true
      = match w.reg.usedList[k]? with
        | none => .error SDI_ERR_NOT_FOUND
        | some i => .ok ((w.reg.registry i).driver, (w.reg.registry i).handle) := by
  have hat : w.reg.usedAt k (List.range w.reg.maxDrivers) 0
      = w.reg.usedList[k]? := by
    have := usedAt_eq w.reg (List.range w.reg.maxDrivers) 0 k
    rwa [Nat.zero_add] at this
  unfold Registry.sdiGetDriverAt
  rw [hat]
  cases w.reg.usedList[k]? with
  | none => simp [Registry.requireInit, h.ready]
  | some i => simp [Registry.requireInit, h.ready]

/-- The slot at a valid index is an entry of the map. -/
theorem Sim.driverAt_mem (h : Sim caps max w m n) {k : Nat}
    (hk : k < m.map.keys.card) :
    ∃ name hd d, m.map.lookup name = some (hd, d)
      ∧ w.reg.sdiGetDriverAt k true true = .ok (some d, hd) := by
  rw [h.card, ← usedList_length] at hk
  have hi : w.reg.usedList[k] ∈ w.reg.usedSlots :=
    mem_usedList.mp (List.getElem_mem hk)
  obtain ⟨d, name, hreg, -, -, hl⟩ := h.of_used hi
  refine ⟨name, _, d, hl, ?_⟩
  rw [h.driverAt_eq, List.getElem?_eq_getElem hk]
  simp only
  rw [hreg]

theorem Sim.driverAt_end (h : Sim caps max w m n) {k : Nat}
    (hk : m.map.keys.card ≤ k) :
    w.reg.sdiGetDriverAt k true true = .error SDI_ERR_NOT_FOUND := by
  rw [h.card, ← usedList_length] at hk
  rw [h.driverAt_eq, List.getElem?_eq_none hk]

/-- Every entry of the map is at one index. -/
theorem Sim.driverAt_once (h : Sim caps max w m n) {name : Name} {hd : Nat}
    {d : DriverDesc} (hl : m.map.lookup name = some (hd, d)) :
    ∃! k, k < m.map.keys.card
      ∧ w.reg.sdiGetDriverAt k true true = .ok (some d, hd) := by
  obtain ⟨i, hi, hreg, -⟩ := (h.map name hd d).mp hl
  obtain ⟨k, hk, hki⟩ := List.getElem_of_mem (mem_usedList.mpr hi)
  rw [h.card, ← usedList_length]
  refine ⟨k, ⟨hk, ?_⟩, ?_⟩
  · rw [h.driverAt_eq, List.getElem?_eq_getElem hk, hki]
    simp only
    rw [hreg]
  · rintro j ⟨hj, hat⟩
    rw [h.driverAt_eq, List.getElem?_eq_getElem hj] at hat
    injection hat with hat
    have hh : (w.reg.registry w.reg.usedList[j]).handle = hd :=
      (Prod.mk.inj hat).2
    have hji := h.inv.handles _ (mem_usedList.mp (List.getElem_mem hj)) i hi
      (by rw [hh, hreg])
    exact (List.Nodup.getElem_inj_iff (usedList_nodup w.reg)).mp
      (hji.trans hki.symm)

/-- A lifecycle call sees the operations of the map's driver. -/
theorem lifecycle_eq (s : Registry) (fn : Lifecycle) (handle : Nat)
    (ret : Status) :
    s.lifecycle fn handle ret
      = match s.opsFromHandle handle with
        | none => SDI_ERR_NOT_FOUND
        | some ops => fn.dispatch ops ret := by
  cases fn <;>
  · simp only [Registry.lifecycle, Registry.sdiProbeDriver,
      Registry.sdiAttachDriver, Registry.sdiStartDriver, Registry.sdiStopDriver,
      Registry.sdiSuspendDriver, Registry.sdiResumeDriver,
      Registry.sdiDetachDriver, Registry.sdiRemoveDriver,
      Registry.lifecycleCall, Registry.argumentCall, Lifecycle.dispatch]
    cases s.opsFromHandle handle with
    | none => rfl
    | some ops => simp only [Bool.not_eq_true', if_true]; repeat' split <;> simp_all

-- ==== the runs

/-- The calls that only look. -/
theorem Sim.step_query (h : Sim caps max w m n) {op : Op} {r : Result}
    (hstep : step op w = (w, r)) (hspec : SpecStep caps max m op r m) :
    ∃ m', SpecStep caps max m op (step op w).2 m'
      ∧ Sim caps max (step op w).1 m' (n + 1) := by
  rw [hstep]
  exact ⟨m, hspec, { h with next := Nat.le_succ_of_le h.next }⟩

/-- Every call is a call on the map, with the same answer. -/
theorem Sim.step (h : Sim caps max w m n) (hn : n + 2 < 2 ^ 64) (op : Op) :
    ∃ m', SpecStep caps max m op (Sdi.step op w).2 m'
      ∧ Sim caps max (Sdi.step op w).1 m' (n + 1) := by
  cases op with
  | register driver outHandle ret => exact h.step_register hn driver outHandle ret
  | unregister handle ret => exact h.step_unregister handle ret
  | find name outHandle =>
      refine h.step_query rfl ⟨rfl, ?_⟩
      cases name with
      | none => simp [Registry.sdiFindDriver, Registry.requireInit, h.ready, Except.map]
      | some name =>
          cases outHandle with
          | false =>
              simp [Registry.sdiFindDriver, Registry.requireInit, h.ready, Except.map]
          | true =>
              simp only [h.find_eq]
              cases m.map.lookup name with
              | none => rfl
              | some v => rfl
  | count outCount =>
      refine h.step_query rfl ⟨rfl, ?_⟩
      rw [h.card, ← h.inv.count]
      cases outCount with
      | false => rfl
      | true => rfl
  | driverAt index outDriver outHandle =>
      refine h.step_query rfl ⟨rfl, ?_⟩
      cases hout : outDriver && outHandle with
      | false =>
          unfold Registry.sdiGetDriverAt
          have hargs : (!outDriver || !outHandle) = true := by
            rw [← Bool.not_and, hout]
            rfl
          simp [Registry.requireInit, h.ready, hargs, Except.map]
      | true =>
          obtain ⟨rfl, rfl⟩ := Bool.and_eq_true_iff.mp hout
          simp only [if_true]
          split
          case isTrue hk =>
            obtain ⟨name, hd, d, hl, hat⟩ := h.driverAt_mem hk
            exact ⟨name, hd, d, hl, by rw [hat]; rfl⟩
          case isFalse hk =>
            rw [h.driverAt_end (Nat.le_of_not_lt hk)]
            rfl
  | lifecycle fn handle ret =>
      refine h.step_query rfl ⟨rfl, ?_⟩
      rw [lifecycle_eq]
      unfold Registry.opsFromHandle
      cases he : w.reg.entryFromHandle handle with
      | none =>
          refine Or.inr ⟨?_, rfl⟩
          rintro ⟨name, d, hl⟩
          obtain ⟨i, hi, -⟩ := (h.handle_iff handle d).mpr ⟨name, hl⟩
          rw [he] at hi
          cases hi
      | some i =>
          obtain ⟨-, hi, hh⟩ := Registry.entryFromHandle_some he
          obtain ⟨d, name, hreg, -, -, hl⟩ := h.of_used hi
          rw [hh] at hreg hl
          obtain ⟨ops, hops⟩ := h.operated i hi d (by rw [hreg])
          refine Or.inl ⟨name, d, ops, hl, hops, ?_⟩
          rw [Option.bind_some, hreg, Option.bind_some, hops]

theorem Sim.run (h : Sim caps max w m n) (ops : List Op)
    (hn : n + ops.length + 1 < 2 ^ 64) :
    ∃ m', SpecRun caps max m ops (Sdi.run ops w).2 m'
      ∧ Sim caps max (Sdi.run ops w).1 m' (n + ops.length) := by
  induction ops generalizing w m n with
  | nil => exact ⟨m, .nil m, h⟩
  | cons op ops ih =>
      rw [List.length_cons] at hn
      obtain ⟨m₁, hstep, h₁⟩ := h.step (by omega) op
      obtain ⟨m₂, hrun, h₂⟩ := ih h₁ (by omega)
      refine ⟨m₂, .cons hstep hrun, ?_⟩
      rw [List.length_cons, show n + (ops.length + 1) = n + 1 + ops.length by omega]
      exact h₂

theorem Sim.reads (h : Sim caps max w m n) : Reads w m where
  size := by
    rw [h.card]
    refine Nat.le_trans (Finset.card_filter_le _ _) ?_
    rw [Finset.card_range]
  count := by
    rw [h.card]
    exact h.inv.count
  find := h.find_eq
  handle := h.handle_iff
  retired := by
    intro hd hlog
    cases he : w.reg.entryFromHandle hd with
    | none => rfl
    | some i =>
        obtain ⟨-, hi, hh⟩ := Registry.entryFromHandle_some he
        exact absurd hh ((h.retired hd hlog).2 i hi)
  at_mem := fun _ hk => h.driverAt_mem hk
  at_once := fun _ _ _ hl => h.driverAt_once hl
  at_end := fun _ hk => h.driverAt_end hk

/-- After `sdi_init` nothing is registered. -/
theorem sim_boot {host : Option HostOps} {options : Option Nat}
    (hinit : (sdiInit Registry.static host options).2 = SDI_OK) :
    Sim (boot host options).reg.hostCaps (boot host options).reg.maxDrivers
      (boot host options) ⟨∅, []⟩ 0 := by
  obtain ⟨hused, -, -, hnext⟩ := boot_spec host options
  have hempty : ∀ i, i ∉ (boot host options).reg.usedSlots := by
    intro i hi
    have := (Registry.mem_usedSlots.mp hi).2
    rw [hused i] at this
    cases this
  have hready : (boot host options).reg.initialized = true := by
    unfold boot
    rcases sdiInit_cases Registry.static host options with
      ⟨st, hne, he⟩ | ⟨caps, k, -, he⟩
    · rw [he] at hinit
      exact absurd hinit hne
    · rw [he]
  refine ⟨inv_boot host options, hready, rfl, rfl, ?_, ?_, ?_, ?_, ?_, ?_⟩
  · intro name h d
    rw [Finmap.lookup_empty]
    constructor
    · intro hc
      cases hc
    · rintro ⟨i, hi, -⟩
      exact absurd hi (hempty i)
  · intro h hh
    cases hh
  · exact fun i hi => absurd hi (hempty i)
  · intro h hh
    cases hh
  · rw [hnext]
  · exact fun i hi => absurd hi (hempty i)

/-- Every run of fewer than `2^64 - 1` calls after `sdi_init` is a run of
the map with the same results, and after it the registry reads as the
map. -/
theorem run_refines (host : Option HostOps) (options : Option Nat)
    (hinit : (sdiInit Registry.static host options).2 = SDI_OK)
    (ops : List Op) (hlen : ops.length < 2 ^ 64 - 1) :
    ∃ m, SpecRun (boot host options).reg.hostCaps
        (boot host options).reg.maxDrivers ⟨∅, []⟩ ops
        (run ops (boot host options)).2 m
      ∧ Reads (run ops (boot host options)).1 m := by
  obtain ⟨m, hrun, hsim⟩ := (sim_boot hinit).run ops (by omega)
  exact ⟨m, hrun, hsim.reads⟩

/-- Two drivers on a host with two slots, the first one taken out again. -/
theorem run_refines_two :
    let ops := [Op.register (some (smallDriver [97])) true SDI_OK,
      .register (some (smallDriver [98])) true SDI_OK, .unregister 1 SDI_OK,
      .driverAt 0 true true]
    (sdiInit Registry.static (some smallHost) none).2 = SDI_OK
      ∧ ops.length < 2 ^ 64 - 1
      ∧ ∃ m, SpecRun SDI_CAP_REQUIRED_CORE 2 ⟨∅, []⟩ ops
          (run ops (boot (some smallHost) none)).2 m
        ∧ Reads (run ops (boot (some smallHost) none)).1 m :=
  ⟨by decide, by decide, run_refines (some smallHost) none (by decide) _ (by decide)⟩

end Alix.Sdi
