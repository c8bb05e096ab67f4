/-
What a registration and an unregistration do to the slots, and nested
calls.

`Inv` holds in every state, also while a callback runs: the counter
counts the used slots, their handles and names are distinct, and every
live registration is in a slot. Filling a slot keeps it when the slot is
free, the name is absent and the handle is new (`Inv.registerEnd`);
clearing one keeps it when the slot still holds the handle
(`Inv.unregisterEnd`).

Both are checked before the callback and used after it. A callback that
makes calls of its own can take the slot, register the name or clear the
entry in between. `undisturbed` says that none does, call by call and at
every depth, and `calls_consistent` that this is enough.
-/
import Alix.Sdi.Registry
import Mathlib.Data.Finset.Card
import Mathlib.Data.Finset.Range

namespace Alix.Sdi

-- ==== slots

namespace Registry

/-- The slots in use. -/
def usedSlots (s : Registry) : Finset Nat :=
  (Finset.range s.maxDrivers).filter fun i => (s.registry i).used = true

/-- The name in a slot. -/
def nameAt (s : Registry) (i : Nat) : Option Name :=
  (s.registry i).driver.bind (·.name)

variable {s : Registry}

theorem mem_usedSlots {i : Nat} :
    i ∈ s.usedSlots ↔ i < s.maxDrivers ∧ (s.registry i).used = true := by
  simp [usedSlots]

/-- What `sdi_entry_from_handle_` finds. -/
theorem entryFromHandle_some {h i : Nat} (he : s.entryFromHandle h = some i) :
    h ≠ SDI_NULL_HANDLE ∧ i ∈ s.usedSlots ∧ (s.registry i).handle = h := by
  unfold entryFromHandle at he
  split at he
  case isTrue => cases he
  case isFalse hne =>
    have hp := List.find?_some he
    have hm := List.mem_of_find?_eq_some he
    simp only [Bool.and_eq_true, beq_iff_eq] at hp
    exact ⟨hne, mem_usedSlots.mpr ⟨List.mem_range.mp hm, hp.1⟩, hp.2⟩

/-- The first slot with a handle is the only one. -/
theorem entryFromHandle_of_mem {h i : Nat} (hne : h ≠ SDI_NULL_HANDLE)
    (hi : i ∈ s.usedSlots) (hh : (s.registry i).handle = h)
    (hinj : ∀ j ∈ s.usedSlots, (s.registry j).handle = h → j = i) :
    s.entryFromHandle h = some i := by
  obtain ⟨hlt, hu⟩ := mem_usedSlots.mp hi
  have hsome : (s.entryFromHandle h).isSome = true := by
    unfold entryFromHandle
    rw [if_neg hne, List.find?_isSome]
    exact ⟨i, List.mem_range.mpr hlt, by simp [hu, hh]⟩
  obtain ⟨j, hj⟩ := Option.isSome_iff_exists.mp hsome
  obtain ⟨-, hju, hjh⟩ := entryFromHandle_some hj
  rw [hj, hinj j hju hjh]

theorem streq_some {a : Option Name} {n : Name} :
    streq a (some n) = true ↔ a = some n := by
  cases a with
  | none => simp [streq]
  | some a => simp [streq]

/-- What the search for a name finds. -/
theorem entryFromName_some {n : Name} {i : Nat}
    (he : s.entryFromName (some n) = some i) :
    i ∈ s.usedSlots ∧ s.nameAt i = some n := by
  unfold entryFromName at he
  have hp := List.find?_some he
  have hm := List.mem_of_find?_eq_some he
  simp only [Bool.and_eq_true, streq_some] at hp
  exact ⟨mem_usedSlots.mpr ⟨List.mem_range.mp hm, hp.1⟩, hp.2⟩

theorem entryFromName_none {n : Name} :
    s.entryFromName (some n) = none ↔ ∀ i ∈ s.usedSlots, s.nameAt i ≠ some n := by
  unfold entryFromName
  rw [List.find?_eq_none]
  constructor
  · intro h i hi hn
    obtain ⟨hlt, hu⟩ := mem_usedSlots.mp hi
    exact h i (List.mem_range.mpr hlt) (by rw [hu, Bool.true_and, streq_some]; exact hn)
  · intro h i hi hc
    simp only [Bool.and_eq_true, streq_some] at hc
    exact h i (mem_usedSlots.mpr ⟨List.mem_range.mp hi, hc.1⟩) hc.2

theorem freeSlot_some {i : Nat} (hf : s.freeSlot = some i) :
    i < s.maxDrivers ∧ (s.registry i).used = false := by
  unfold freeSlot at hf
  have hp := List.find?_some hf
  have hm := List.mem_of_find?_eq_some hf
  exact ⟨List.mem_range.mp hm, by simpa using hp⟩

/-- Every descriptor that passes the checks has a name, and the slot was
free. -/
theorem registerBegin_ok {driver : Option DriverDesc} {outHandle : Bool}
    {d : DriverDesc} {ops : DriverOps} {i : Nat}
    (h : s.registerBegin driver outHandle = .ok (d, ops, i)) :
    ∃ name, driver = some d ∧ outHandle = true ∧ s.initialized = true
      ∧ d.name = some name ∧ d.ops = some ops
      ∧ checkAbi d.size SIZEOF_DRIVER_DESC d.version = SDI_OK
      ∧ checkAbi ops.size SIZEOF_DRIVER_OPS ops.version = SDI_OK
      ∧ d.abiMajor = SDI_VERSION_MAJOR ∧ d.requiredCaps &&& ~~~s.hostCaps = 0
      ∧ name ≠ [] ∧ s.entryFromName (some name) = none
      ∧ s.freeSlot = some i := by
  unfold registerBegin at h
  split at h
  case isTrue => cases h
  case isFalse hready =>
    cases driver with
    | none => cases h
    | some driver =>
        simp only at h
        split at h
        case h_2 => cases h
        case h_1 name ops' hname hops =>
          split at h
          case isTrue => cases h
          split at h
          case isTrue => cases h
          split at h
          case isTrue => cases h
          split at h
          case isTrue => cases h
          split at h
          case isTrue => cases h
          split at h
          case isTrue => cases h
          split at h
          case isTrue => cases h
          rename_i hout habi hops' hmajor hcaps hlen hexists
          split at h
          case h_1 => cases h
          case h_2 j hj =>
            injection h with h
            injection h with h1 h
            injection h with h2 h3
            subst h1 h2 h3
            refine ⟨name, rfl, by simpa using hout, ?_, hname, hops,
              by simpa using habi, by simpa using hops', by simpa using hmajor,
              by simpa using hcaps, ?_, by simpa using hexists, hj⟩
            · by_contra hi
              exact hready (by simp [requireInit, hi])
            · intro he
              exact hlen (by simp [strlen, he])

theorem unregisterBegin_ok {h i : Nat} {hasFini : Bool}
    (hb : s.unregisterBegin h = .ok (i, hasFini)) :
    s.initialized = true ∧ s.entryFromHandle h = some i
      ∧ hasFini = (((s.registry i).driver.bind (·.ops)).map (·.fini)).getD false := by
  unfold unregisterBegin at hb
  split at hb
  case isTrue => cases hb
  case isFalse hready =>
    split at hb
    case h_1 => cases hb
    case h_2 j hj =>
      injection hb with hb
      injection hb with h1 h2
      subst h1
      refine ⟨?_, hj, h2.symm⟩
      by_contra hi
      exact hready (by simp [requireInit, hi])

/-- `sdi_register_driver` fills one slot. -/
theorem registerEnd_slots (s : Registry) (d : DriverDesc) {i : Nat}
    (hi : i < s.maxDrivers) :
    (s.registerEnd d i).1.registry i = ⟨s.nextHandle, some d, true⟩
      ∧ (∀ j, j ≠ i → (s.registerEnd d i).1.registry j = s.registry j)
      ∧ (s.registerEnd d i).1.usedSlots = insert i s.usedSlots := by
  have hself : (s.registerEnd d i).1.registry i
      = ⟨s.nextHandle, some d, true⟩ := Function.update_self ..
  have hother : ∀ j, j ≠ i →
      (s.registerEnd d i).1.registry j = s.registry j := fun j hj =>
    Function.update_of_ne hj ..
  have hmax : (s.registerEnd d i).1.maxDrivers = s.maxDrivers := rfl
  refine ⟨hself, hother, ?_⟩
  ext j
  rw [Finset.mem_insert, mem_usedSlots, mem_usedSlots, hmax]
  by_cases hj : j = i
  · subst hj
    simp [hi, hself]
  · simp [hj, hother j hj]

/-- `sdi_unregister_driver` clears one slot. -/
theorem unregisterEnd_slots (s : Registry) (i : Nat) :
    (∀ j, j ≠ i → (s.unregisterEnd i).registry j = s.registry j)
      ∧ (s.unregisterEnd i).usedSlots = s.usedSlots.erase i := by
  have hself : (s.unregisterEnd i).registry i = Entry.empty :=
    Function.update_self ..
  have hother : ∀ j, j ≠ i →
      (s.unregisterEnd i).registry j = s.registry j := fun j hj =>
    Function.update_of_ne hj ..
  have hmax : (s.unregisterEnd i).maxDrivers = s.maxDrivers := rfl
  refine ⟨hother, ?_⟩
  ext j
  rw [Finset.mem_erase, mem_usedSlots, mem_usedSlots, hmax]
  by_cases hj : j = i
  · subst hj
    simp [hself, Entry.empty]
  · simp [hj, hother j hj]

end Registry

-- ==== the invariant

/-- The registrations that were reported and not taken back. -/
def live : List Report → List (Nat × DriverDesc)
  | [] => []
  | .registered handle driver :: log => (handle, driver) :: live log
  | .unregistered handle :: log => (live log).filter fun r => r.1 ≠ handle

/-- The registry agrees with what its callers were told. -/
structure Consistent (w : World) : Prop where
  count : w.reg.driverCount = w.reg.usedSlots.card
  found : ∀ handle driver, (handle, driver) ∈ live w.log →
    ∃ i, w.reg.entryFromHandle handle = some i
      ∧ (w.reg.registry i).driver = some driver
  nonzero : ∀ i ∈ w.reg.usedSlots, (w.reg.registry i).handle ≠ SDI_NULL_HANDLE
  handles : ∀ i ∈ w.reg.usedSlots, ∀ j ∈ w.reg.usedSlots,
    (w.reg.registry i).handle = (w.reg.registry j).handle → i = j
  names : ∀ i ∈ w.reg.usedSlots, ∀ j ∈ w.reg.usedSlots,
    w.reg.nameAt i = w.reg.nameAt j → i = j

/-- What every call keeps, at every depth. -/
structure Inv (w : World) : Prop extends Consistent w where
  bound : w.reg.maxDrivers ≤ SDI_REGISTRY_CAPACITY
  next : w.reg.nextHandle ≠ SDI_NULL_HANDLE
  named : ∀ i ∈ w.reg.usedSlots, ∃ d name, (w.reg.registry i).driver = some d
    ∧ d.name = some name

/-- `sdi_init` fails and changes nothing, or clears every slot. -/
theorem sdiInit_cases (s : Registry) (host : Option HostOps)
    (options : Option Nat) :
    (∃ st, st ≠ SDI_OK ∧ sdiInit s host options = (s, st))
      ∨ ∃ caps k, k ≤ SDI_REGISTRY_CAPACITY ∧ sdiInit s host options
        = ({ hostCaps := caps
             registry := fun i =>
               if i < SDI_REGISTRY_CAPACITY then Entry.empty else s.registry i
             maxDrivers := k, driverCount := 0, nextHandle := 1
             initialized := true }, SDI_OK) := by
  unfold sdiInit
  cases host with
  | none => exact Or.inl ⟨_, by decide, rfl⟩
  | some host =>
      simp only
      split
      case isTrue => exact Or.inl ⟨_, by decide, rfl⟩
      split
      case isTrue => exact Or.inl ⟨_, by decide, rfl⟩
      split
      case isTrue => exact Or.inl ⟨_, by decide, rfl⟩
      refine Or.inr ⟨_, _, ?_, rfl⟩
      have hclamp : ∀ r, (if r = 0 ∨ r > SDI_REGISTRY_CAPACITY then
          SDI_REGISTRY_CAPACITY else r) ≤ SDI_REGISTRY_CAPACITY := by
        intro r
        split <;> omega
      exact hclamp _

/-- After boot no slot is used and the first handle is 1. -/
theorem boot_spec (host : Option HostOps) (options : Option Nat) :
    (∀ i, ((boot host options).reg.registry i).used = false)
      ∧ (boot host options).reg.driverCount = 0
      ∧ (boot host options).reg.maxDrivers ≤ SDI_REGISTRY_CAPACITY
      ∧ (boot host options).reg.nextHandle = 1 := by
  unfold boot
  rcases sdiInit_cases Registry.static host options with
    ⟨st, -, he⟩ | ⟨caps, k, hk, he⟩
  · rw [he]
    exact ⟨fun _ => rfl, rfl, Nat.zero_le _, rfl⟩
  · rw [he]
    refine ⟨fun i => ?_, rfl, hk, rfl⟩
    simp only
    split <;> rfl

theorem inv_boot (host : Option HostOps) (options : Option Nat) :
    Inv (boot host options) := by
  obtain ⟨hused, hcount, hmax, hnext⟩ := boot_spec host options
  have hempty : (boot host options).reg.usedSlots = ∅ := by
    apply Finset.eq_empty_of_forall_notMem
    intro i hi
    have := (Registry.mem_usedSlots.mp hi).2
    rw [hused i] at this
    cases this
  have hlog : (boot host options).log = [] := rfl
  refine ⟨⟨?_, ?_, ?_, ?_, ?_⟩, hmax, ?_, ?_⟩
  · rw [hempty, hcount]
    rfl
  · rw [hlog]
    intro h d hd
    cases hd
  · simp [hempty]
  · simp [hempty]
  · simp [hempty]
  · rw [hnext]
    decide
  · simp [hempty]

/-- Filling a free slot with a new name and a new handle. -/
theorem Inv.registerEnd {w : World} (h : Inv w) {d : DriverDesc}
    {name : Name} {i : Nat} (hi : i < w.reg.maxDrivers)
    (hfree : (w.reg.registry i).used = false) (hname : d.name = some name)
    (hnew : w.reg.entryFromName (some name) = none)
    (hfresh : ∀ j ∈ w.reg.usedSlots,
      (w.reg.registry j).handle ≠ w.reg.nextHandle) :
    Inv ⟨(w.reg.registerEnd d i).1,
      .registered (w.reg.registerEnd d i).2 d :: w.log⟩ := by
  obtain ⟨hself, hother, hused⟩ := w.reg.registerEnd_slots d hi
  generalize hs : (w.reg.registerEnd d i).1 = s at hself hother hused ⊢
  have hmax : s.maxDrivers = w.reg.maxDrivers := by rw [← hs]; rfl
  have hnot : i ∉ w.reg.usedSlots := by
    intro hc
    rw [(Registry.mem_usedSlots.mp hc).2] at hfree
    cases hfree
  have hold : ∀ j, j ∈ w.reg.usedSlots → s.registry j = w.reg.registry j :=
    fun j hj => hother j fun e => hnot (by rw [← e]; exact hj)
  have hnameAt : ∀ j ∈ w.reg.usedSlots, s.nameAt j ≠ some name := by
    intro j hj
    unfold Registry.nameAt
    rw [hold j hj]
    exact Registry.entryFromName_none.mp hnew j hj
  have hnames : s.nameAt i = some name := by
    unfold Registry.nameAt
    rw [hself]
    exact hname
  have hhandles : ∀ a ∈ s.usedSlots, ∀ b ∈ s.usedSlots,
      (s.registry a).handle = (s.registry b).handle → a = b := by
    intro a ha b hb heq
    rw [hused, Finset.mem_insert] at ha hb
    rcases ha with rfl | ha <;> rcases hb with rfl | hb
    · rfl
    · rw [hself, hold b hb] at heq
      exact absurd heq.symm (hfresh b hb)
    · rw [hself, hold a ha] at heq
      exact absurd heq (hfresh a ha)
    · rw [hold a ha, hold b hb] at heq
      exact h.handles a ha b hb heq
  have hfound : ∀ j ∈ s.usedSlots, (s.registry j).handle ≠ SDI_NULL_HANDLE →
      s.entryFromHandle (s.registry j).handle = some j := fun j hj hne =>
    Registry.entryFromHandle_of_mem hne hj rfl fun k hk => hhandles k hk j hj
  refine ⟨⟨?_, ?_, ?_, hhandles, ?_⟩, by rw [hmax]; exact h.bound, ?_, ?_⟩
  · have hle : w.reg.usedSlots.card ≤ SDI_REGISTRY_CAPACITY := by
      refine Nat.le_trans (Finset.card_filter_le _ _) ?_
      rw [Finset.card_range]
      exact h.bound
    show s.driverCount = s.usedSlots.card
    rw [hused, Finset.card_insert_of_notMem hnot, ← h.count, ← hs]
    have hc := h.count
    show (w.reg.driverCount + 1) % 2 ^ 32 = w.reg.driverCount + 1
    have hcap : SDI_REGISTRY_CAPACITY = 64 := rfl
    omega
  · intro handle driver hlive
    rcases List.mem_cons.mp hlive with he | hlive
    · obtain ⟨rfl, rfl⟩ := Prod.mk.inj he
      have hin : i ∈ s.usedSlots := by rw [hused]; exact Finset.mem_insert_self ..
      have hf := hfound i hin (by rw [hself]; exact h.next)
      rw [hself] at hf
      exact ⟨i, hf, by rw [hself]⟩
    · obtain ⟨j, hj, hd⟩ := h.found handle driver hlive
      obtain ⟨hne, hju, hjh⟩ := Registry.entryFromHandle_some hj
      have hf := hfound j (by rw [hused]; exact Finset.mem_insert_of_mem hju)
        (by rw [hold j hju, hjh]; exact hne)
      rw [hold j hju, hjh] at hf
      exact ⟨j, hf, by rw [hold j hju]; exact hd⟩
  · intro a ha
    rw [hused, Finset.mem_insert] at ha
    rcases ha with rfl | ha
    · rw [hself]
      exact h.next
    · rw [hold a ha]
      exact h.nonzero a ha
  · intro a ha b hb heq
    rw [hused, Finset.mem_insert] at ha hb
    rcases ha with rfl | ha <;> rcases hb with rfl | hb
    · rfl
    · exact absurd (heq.symm.trans hnames) (hnameAt b hb)
    · exact absurd (heq.trans hnames) (hnameAt a ha)
    · refine h.names a ha b hb ?_
      unfold Registry.nameAt at heq ⊢
      rw [hold a ha, hold b hb] at heq
      exact heq
  · rw [← hs]
    show (if (w.reg.nextHandle + 1) % 2 ^ 64 = SDI_NULL_HANDLE then 1
      else (w.reg.nextHandle + 1) % 2 ^ 64) ≠ SDI_NULL_HANDLE
    split
    · decide
    · assumption
  · intro a ha
    rw [hused, Finset.mem_insert] at ha
    rcases ha with rfl | ha
    · exact ⟨d, name, by rw [hself], hname⟩
    · rw [hold a ha]
      exact h.named a ha

/-- Clearing the slot that holds a handle. -/
theorem Inv.unregisterEnd {w : World} (h : Inv w) {handle i : Nat}
    (hi : i ∈ w.reg.usedSlots) (hh : (w.reg.registry i).handle = handle) :
    Inv ⟨w.reg.unregisterEnd i, .unregistered handle :: w.log⟩ := by
  obtain ⟨hother, hused⟩ := w.reg.unregisterEnd_slots i
  generalize hs : w.reg.unregisterEnd i = s at hother hused ⊢
  have hmax : s.maxDrivers = w.reg.maxDrivers := by rw [← hs]; rfl
  have hsub : ∀ j ∈ s.usedSlots,
      j ∈ w.reg.usedSlots ∧ s.registry j = w.reg.registry j := by
    intro j hj
    rw [hused, Finset.mem_erase] at hj
    exact ⟨hj.2, hother j hj.1⟩
  have hhandles : ∀ a ∈ s.usedSlots, ∀ b ∈ s.usedSlots,
      (s.registry a).handle = (s.registry b).handle → a = b := by
    intro a ha b hb heq
    obtain ⟨ha, hea⟩ := hsub a ha
    obtain ⟨hb, heb⟩ := hsub b hb
    rw [hea, heb] at heq
    exact h.handles a ha b hb heq
  refine ⟨⟨?_, ?_, ?_, hhandles, ?_⟩, by rw [hmax]; exact h.bound,
    by rw [← hs]; exact h.next, ?_⟩
  · have hle : w.reg.usedSlots.card ≤ SDI_REGISTRY_CAPACITY := by
      refine Nat.le_trans (Finset.card_filter_le _ _) ?_
      rw [Finset.card_range]
      exact h.bound
    have hpos : 0 < w.reg.usedSlots.card := Finset.card_pos.mpr ⟨i, hi⟩
    show s.driverCount = s.usedSlots.card
    rw [hused, Finset.card_erase_of_mem hi, ← h.count, ← hs]
    have hc := h.count
    show (w.reg.driverCount + 2 ^ 32 - 1) % 2 ^ 32 = w.reg.driverCount - 1
    have hcap : SDI_REGISTRY_CAPACITY = 64 := rfl
    omega
  · intro handle' driver hlive
    obtain ⟨hlive, hne⟩ := List.mem_filter.mp hlive
    obtain ⟨j, hj, hd⟩ := h.found handle' driver hlive
    obtain ⟨hnz, hju, hjh⟩ := Registry.entryFromHandle_some hj
    have hji : j ≠ i := by
      intro e
      rw [e, hh] at hjh
      simp [hjh] at hne
    refine ⟨j, ?_, by rw [hother j hji]; exact hd⟩
    have hin : j ∈ s.usedSlots := by
      rw [hused]
      exact Finset.mem_erase.mpr ⟨hji, hju⟩
    refine Registry.entryFromHandle_of_mem hnz hin
      (by rw [hother j hji]; exact hjh) fun k hk hkh => ?_
    refine hhandles k hk j hin ?_
    rw [hkh, hother j hji, hjh]
  · intro a ha
    obtain ⟨ha, hea⟩ := hsub a ha
    rw [hea]
    exact h.nonzero a ha
  · intro a ha b hb heq
    obtain ⟨ha, hea⟩ := hsub a ha
    obtain ⟨hb, heb⟩ := hsub b hb
    refine h.names a ha b hb ?_
    unfold Registry.nameAt at heq ⊢
    rw [hea, heb] at heq
    exact heq
  · intro a ha
    obtain ⟨ha, hea⟩ := hsub a ha
    rw [hea]
    exact h.named a ha

-- ==== nested calls

/-- The slot is still free, the name still absent, and no entry carries
the handle that comes next. -/
def Registry.slotReady (s : Registry) (driver : DriverDesc) (i : Nat) : Bool :=
  !(s.registry i).used && (s.entryFromName driver.name).isNone
    && (List.range s.maxDrivers).all fun j =>
      !(s.registry j).used || (s.registry j).handle != s.nextHandle

/-- The slot still holds the handle. -/
def Registry.slotHolds (s : Registry) (handle i : Nat) : Bool :=
  (s.registry i).used && (s.registry i).handle == handle

mutual

/-- When the callback returns `SDI_OK` the call finds what it found
before the callback, here and in every nested call. -/
def undisturbed : Call → World → Bool
  | .register driver outHandle init ret, w =>
      match w.reg.registerBegin driver outHandle with
      | .error _ => true
      | .ok (driver, ops, i) =>
          let w' := if ops.init then execAll init w else w
          let st := if ops.init then ret else SDI_OK
          (!ops.init || undisturbedAll init w)
            && (st != SDI_OK || w'.reg.slotReady driver i)
  | .unregister handle fini ret, w =>
      match w.reg.unregisterBegin handle with
      | .error _ => true
      | .ok (i, hasFini) =>
          let w' := if hasFini then execAll fini w else w
          let st := if hasFini then ret else SDI_OK
          (!hasFini || undisturbedAll fini w)
            && (st != SDI_OK || w'.reg.slotHolds handle i)

/-- The same for calls one after the other. -/
def undisturbedAll : List Call → World → Bool
  | [], _ => true
  | c :: cs, w => undisturbed c w && undisturbedAll cs (exec c w).1

end

mutual

theorem exec_maxDrivers : ∀ (c : Call) (w : World),
    (exec c w).1.reg.maxDrivers = w.reg.maxDrivers
  | .register driver outHandle init ret, w => by
      unfold exec
      split
      case h_1 => rfl
      case h_2 d ops i _ =>
        have hw : (if ops.init then execAll init w else w).reg.maxDrivers
            = w.reg.maxDrivers := by
          split
          · exact execAll_maxDrivers init w
          · rfl
        simp only
        generalize (if ops.init then execAll init w else w) = w' at hw ⊢
        generalize (if ops.init then ret else SDI_OK) = st
        split <;> exact hw
  | .unregister handle fini ret, w => by
      unfold exec
      split
      case h_1 => rfl
      case h_2 i hasFini _ =>
        have hw : (if hasFini then execAll fini w else w).reg.maxDrivers
            = w.reg.maxDrivers := by
          split
          · exact execAll_maxDrivers fini w
          · rfl
        simp only
        generalize (if hasFini then execAll fini w else w) = w' at hw ⊢
        generalize (if hasFini then ret else SDI_OK) = st
        split <;> exact hw

theorem execAll_maxDrivers : ∀ (cs : List Call) (w : World),
    (execAll cs w).reg.maxDrivers = w.reg.maxDrivers
  | [], w => by simp [execAll]
  | c :: cs, w => by
      rw [execAll, execAll_maxDrivers cs, exec_maxDrivers c]

end

/-- The state a callback leaves, if there is one. -/
theorem inv_callback {b : Bool} {cs : List Call} {w : World} (h : Inv w)
    (hcs : b = true → Inv (execAll cs w)) : Inv (if b then execAll cs w else w)
      ∧ (if b then execAll cs w else w).reg.maxDrivers = w.reg.maxDrivers := by
  split
  case isTrue hb => exact ⟨hcs hb, execAll_maxDrivers cs w⟩
  case isFalse => exact ⟨h, rfl⟩

mutual

/-- An undisturbed call keeps the invariant. -/
theorem inv_exec : ∀ (c : Call) {w : World}, Inv w → undisturbed c w = true →
    Inv (exec c w).1
  | .register driver outHandle init ret, w, h, hu => by
      unfold exec
      unfold undisturbed at hu
      cases hb : w.reg.registerBegin driver outHandle with
      | error st => exact h
      | ok r =>
          obtain ⟨d, ops, i⟩ := r
          simp only [hb, Bool.and_eq_true, Bool.or_eq_true] at hu ⊢
          obtain ⟨hnest, hready⟩ := hu
          -- the state the callback leaves
          have hw := inv_callback (b := ops.init) h fun hc =>
            inv_execAll init h (by simpa [hc] using hnest)
          generalize (if ops.init then execAll init w else w) = w' at hw hready ⊢
          generalize (if ops.init then ret else SDI_OK) = st at hready ⊢
          split
          case isTrue => exact hw.1
          case isFalse hst =>
            obtain ⟨name, -, -, -, hname, -, -, -, -, -, -, -, hslot⟩ :=
              Registry.registerBegin_ok hb
            have hr : w'.reg.slotReady d i = true := by
              rcases hready with hne | hr
              · exact absurd (by simpa using hst) (by simpa using hne)
              · exact hr
            unfold Registry.slotReady at hr
            simp only [Bool.and_eq_true, Bool.not_eq_true', hname,
              Option.isNone_iff_eq_none, List.all_eq_true, List.mem_range] at hr
            obtain ⟨⟨hfree, hnew⟩, hfresh⟩ := hr
            refine hw.1.registerEnd
              (by rw [hw.2]; exact (Registry.freeSlot_some hslot).1) hfree hname
              hnew fun j hj => ?_
            obtain ⟨hlt, hjused⟩ := Registry.mem_usedSlots.mp hj
            simpa [hjused] using hfresh j hlt
  | .unregister handle fini ret, w, h, hu => by
      unfold exec
      unfold undisturbed at hu
      cases hb : w.reg.unregisterBegin handle with
      | error st => exact h
      | ok r =>
          obtain ⟨i, hasFini⟩ := r
          simp only [hb, Bool.and_eq_true, Bool.or_eq_true] at hu ⊢
          obtain ⟨hnest, hholds⟩ := hu
          have hw := inv_callback (b := hasFini) h fun hc =>
            inv_execAll fini h (by simpa [hc] using hnest)
          generalize (if hasFini then execAll fini w else w) = w' at hw hholds ⊢
          generalize (if hasFini then ret else SDI_OK) = st at hholds ⊢
          split
          case isTrue => exact hw.1
          case isFalse hst =>
            obtain ⟨-, hentry, -⟩ := Registry.unregisterBegin_ok hb
            obtain ⟨-, hi, -⟩ := Registry.entryFromHandle_some hentry
            have hr : w'.reg.slotHolds handle i = true := by
              rcases hholds with hne | hr
              · exact absurd (by simpa using hst) (by simpa using hne)
              · exact hr
            unfold Registry.slotHolds at hr
            simp only [Bool.and_eq_true, beq_iff_eq] at hr
            refine hw.1.unregisterEnd (Registry.mem_usedSlots.mpr ⟨?_, hr.1⟩) hr.2
            rw [hw.2]
            exact (Registry.mem_usedSlots.mp hi).1

theorem inv_execAll : ∀ (cs : List Call) {w : World}, Inv w →
    undisturbedAll cs w = true → Inv (execAll cs w)
  | [], w, h, _ => by
      unfold execAll
      exact h
  | c :: cs, w, h, hu => by
      unfold undisturbedAll at hu
      rw [Bool.and_eq_true] at hu
      unfold execAll
      exact inv_execAll cs (inv_exec c h hu.1) hu.2

end

/-- Between outermost calls the registry is consistent, when no callback
disturbs the call it runs in. -/
theorem calls_consistent (host : Option HostOps) (options : Option Nat)
    (calls : List Call) (h : undisturbedAll calls (boot host options) = true) :
    Consistent (execAll calls (boot host options)) :=
  (inv_execAll calls (inv_boot host options) h).toConsistent

/-- A host that `sdi_init` accepts. -/
def smallHost : HostOps :=
  { size := SIZEOF_HOST_OPS, version := 0x01000000, caps := SDI_CAP_REQUIRED_CORE
    maxDrivers := 2, log := true, alloc := true, free := true, nowNs := true
    call := true }

/-- A driver with an `init` and a `fini`. -/
def smallDriver (name : Name) : DriverDesc :=
  { size := SIZEOF_DRIVER_DESC, version := 0x01000000, name := some name
    abiMajor := 1, requiredCaps := 0
    ops := some { size := SIZEOF_DRIVER_OPS, version := 0x01000000, init := true
                  fini := true, probe := false, attach := false, start := true
                  stop := false, suspend := false, resume := false
                  detach := false, remove := false } }

/-- A registration whose `init` registers a second driver for a while. -/
def borrowCalls : List Call :=
  [.register (some (smallDriver [97])) true
    [.register (some (smallDriver [98])) true [] SDI_OK,
      .unregister 1 [] SDI_OK] SDI_OK]

theorem calls_consistent_borrow :
    undisturbedAll borrowCalls (boot (some smallHost) none) = true
      ∧ Consistent (execAll borrowCalls (boot (some smallHost) none)) :=
  have h : undisturbedAll borrowCalls (boot (some smallHost) none) = true := by
    decide +kernel
  ⟨h, calls_consistent _ _ _ h⟩

/-- An `init` that registers a second driver and keeps it: the second
driver took the slot the first one had found, and the first one fills it
again. Two registrations are counted and one slot is used. -/
theorem nested_register_lost :
    ¬ Consistent (execAll
        [.register (some (smallDriver [97])) true
          [.register (some (smallDriver [98])) true [] SDI_OK] SDI_OK]
        (boot (some smallHost) none)) := by
  intro h
  have hcount : (execAll
      [.register (some (smallDriver [97])) true
        [.register (some (smallDriver [98])) true [] SDI_OK] SDI_OK]
      (boot (some smallHost) none)).reg.driverCount = 2 := by decide +kernel
  have hused : (execAll
      [.register (some (smallDriver [97])) true
        [.register (some (smallDriver [98])) true [] SDI_OK] SDI_OK]
      (boot (some smallHost) none)).reg.usedSlots.card = 1 := by decide +kernel
  have := h.count
  rw [hcount, hused] at this
  cases this

end Alix.Sdi
