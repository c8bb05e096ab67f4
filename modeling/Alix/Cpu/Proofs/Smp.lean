/-
Every processor comes up, and the table they share stays good meanwhile.

An operation of a processor touches its own registers, its own slot of
`cpu_gdt` and its own idle thread; what it puts into the shared fields only
grows. So what a processor has done it can still rely on, whatever the others
do: that is the contract of `Parallel`, with `Trace` for what is known about a
processor that is on its way.

Of the shared table each store puts into its field what is there already, with
one exception: `idt_init` writes the gate of the system call twice.

Nothing but a wait holds a processor up (`exec_ready`), so there is a run in
which all come online (`run_ready`).
-/
import Mathlib.Data.List.Basic
import Alix.Cpu.Smp

namespace Alix.Smp

open Parallel

variable {r : MpResponse} {isrStubs : Nat → Nat} {b c : Nat} {op : Op} {x y : Shared}

-- ==== the gates

/-- What `idt_init` leaves in a gate. -/
def gate (isrStubs : Nat → Nat) (vector : Nat) : GateField → Nat
  | .baseLow => isrStubs vector % 2 ^ 16
  | .codeseg => 0x08
  | .ist => 0
  | .flags => if vector = 0x80 then 0xef else if vector < 32 then 0x8f else 0x8e
  | .baseMid => isrStubs vector / 2 ^ 16 % 2 ^ 16
  | .baseHigh => isrStubs vector / 2 ^ 32 % 2 ^ 32
  | .reserved => 0

/-- The gate of the system call between its two entries. -/
abbrev kernelOnly : Store := ⟨0x80, .flags, 0x8e⟩

/-- The store that opens it for user mode. -/
abbrev userGate : Store := ⟨0x80, .flags, 0xef⟩

theorem mem_idtSetDesc (isrStubs : Nat → Nat) {vector offset type dpl : Nat} {st : Store}
    (h : st ∈ idtSetDesc vector offset type dpl) :
    st.vector = vector ∧ (st.field = .flags → st.value = (1 <<< 7 ||| dpl <<< 5 ||| type) % 2 ^ 8)
      ∧ (offset = isrStubs vector → st.field ≠ .flags → st.value = gate isrStubs vector st.field) := by
  simp only [idtSetDesc, List.mem_cons, List.not_mem_nil, or_false] at h
  rcases h with rfl | rfl | rfl | rfl | rfl | rfl | rfl <;> simp +contextual [gate]

/-- Every store is right, but for the first one of the system call's flags. -/
theorem mem_idtInit {st : Store} (h : st ∈ idtInit isrStubs) :
    st.value = gate isrStubs st.vector st.field ∨ st = kernelOnly := by
  have hgate : ∀ {v type dpl}, st ∈ idtSetDesc v (isrStubs v) type dpl →
      (st.field = .flags → (1 <<< 7 ||| dpl <<< 5 ||| type) % 2 ^ 8 = gate isrStubs v .flags) →
      st.value = gate isrStubs st.vector st.field := by
    intro v type dpl hmem hflags
    obtain ⟨hv, hf, hrest⟩ := mem_idtSetDesc isrStubs hmem
    by_cases hfield : st.field = .flags
    · rw [hf hfield, hflags hfield, hv, hfield]
    · rw [hrest rfl hfield, hv]
  simp only [idtInit, List.mem_append, List.mem_flatMap, List.mem_range, List.mem_range'_1] at h
  obtain (⟨v, hv, h⟩ | ⟨v, hv, h⟩) | h := h
  · refine .inl (hgate h fun _ => ?_)
    simp [gate, IDT_TRAP, show v ≠ 0x80 by omega, hv]
  · by_cases hsys : v = 0x80 ∧ st.field = .flags
    · obtain ⟨rfl, hfield⟩ := hsys
      obtain ⟨hvec, hf, -⟩ := mem_idtSetDesc isrStubs h
      refine .inr ?_
      cases st
      simp only at hvec hfield hf
      rw [hvec, hfield, hf hfield]
      rfl
    · refine .inl (hgate h fun hfield => ?_)
      simp [gate, IDT_INTERRUPT, show v ≠ 0x80 from fun hv => hsys ⟨hv, hfield⟩,
        show ¬ v < 32 by omega]
  · exact .inl (hgate h fun _ => by simp [gate, IDT_TRAP])

/-- A field that a list of stores fills in the same way each time. -/
theorem foldl_store {v a : Nat} {f : GateField} {sts : List Store}
    (hall : ∀ st ∈ sts, st.vector = v → st.field = f → st.value = a) :
    ∀ {idt : Idt}, (∃ st ∈ sts, st.vector = v ∧ st.field = f) ∨ idt v f = a →
      sts.foldl (fun idt st => st.apply idt) idt v f = a := by
  induction sts with
  | nil =>
      intro idt h
      obtain ⟨st, hmem, -⟩ | h := h
      · cases hmem
      · exact h
  | cons st sts ih =>
      intro idt h
      rw [List.foldl_cons]
      apply ih fun st hmem => hall st (List.mem_cons_of_mem _ hmem)
      by_cases hhere : st.vector = v ∧ st.field = f
      · right
        rw [← hall st List.mem_cons_self hhere.1 hhere.2, ← hhere.1, ← hhere.2]
        simp [Store.apply]
      · obtain ⟨st', hmem, hst'⟩ | h := h
        · obtain rfl | hmem := List.mem_cons.mp hmem
          · exact absurd hst' hhere
          · exact .inl ⟨st', hmem, hst'⟩
        · right
          rw [← h]
          unfold Store.apply
          by_cases hv : v = st.vector
          · subst hv
            rw [Function.update_self, Function.update_of_ne fun hf => hhere ⟨rfl, hf.symm⟩]
          · rw [Function.update_of_ne hv]

theorem exists_mem_idtSetDesc (vector offset type dpl : Nat) (f : GateField) :
    ∃ st ∈ idtSetDesc vector offset type dpl, st.vector = vector ∧ st.field = f := by
  cases f <;> simp [idtSetDesc]

theorem bootIdt_eq {v : Nat} (hv : v < 256) : bootIdt isrStubs v = gate isrStubs v := by
  funext f
  by_cases hsys : v = 0x80
  · subst hsys
    unfold bootIdt idtInit
    rw [List.foldl_append]
    refine foldl_store (fun st hmem hvec hfield => ?_)
      (.inl (exists_mem_idtSetDesc 0x80 (isrStubs 0x80) IDT_TRAP 3 f))
    obtain ⟨-, hf, hrest⟩ := mem_idtSetDesc isrStubs hmem
    by_cases hflags : st.field = .flags
    · rw [hf hflags, ← hfield, hflags]
      rfl
    · rw [hrest rfl hflags, hfield]
  · refine foldl_store (fun st hmem hvec hfield => ?_) (.inl ?_)
    · obtain h | rfl := mem_idtInit hmem
      · rw [h, hvec, hfield]
      · exact absurd hvec.symm hsys
    · simp only [idtInit, List.mem_append, List.mem_flatMap, List.mem_range, List.mem_range'_1]
      by_cases hlt : v < 32
      · obtain ⟨st, hmem, hst⟩ := exists_mem_idtSetDesc v (isrStubs v) IDT_TRAP 0 f
        exact ⟨st, .inl (.inl ⟨v, hlt, hmem⟩), hst⟩
      · obtain ⟨st, hmem, hst⟩ := exists_mem_idtSetDesc v (isrStubs v) IDT_INTERRUPT 0 f
        exact ⟨st, .inl (.inr ⟨v, ⟨by omega, by omega⟩, hmem⟩), hst⟩

/-- The three parts of a base are those of the stub. -/
theorem idtDescBase_gate (v : Nat) : idtDescBase (gate isrStubs v) = isrStubs v % 2 ^ 64 := by
  show isrStubs v % 2 ^ 16 ||| (isrStubs v / 2 ^ 16 % 2 ^ 16) <<< 16
    ||| (isrStubs v / 2 ^ 32 % 2 ^ 32) <<< 32 = _
  generalize isrStubs v = n
  have hlow : n % 2 ^ 16 ||| (n / 2 ^ 16 % 2 ^ 16) <<< 16 = n % 2 ^ 32 := by
    rw [Nat.or_comm, ← Nat.shiftLeft_add_eq_or_of_lt (Nat.mod_lt _ (by decide)), Nat.shiftLeft_eq]
    omega
  rw [hlow, Nat.or_comm, ← Nat.shiftLeft_add_eq_or_of_lt (Nat.mod_lt _ (by decide)),
    Nat.shiftLeft_eq]
  omega

-- ==== single operations

/-- What an operation does when it need not wait. -/
def effect (c : Nat) (op : Op) (x : Shared) : Shared :=
  match op with
  | .vasSwitch => x.modRegs c fun g => { g with cr3 := .kernel }
  | .gdtInitCpu p =>
      let slot := gdtSlot (x.infos p).index
      { x with gdt := Function.update x.gdt slot gdtTemplate }.modRegs c
        fun g => { g with gdtr := some slot, cs := 0x08, ds := 0x10, fsBase := none }
  | .cpuSetCurrent p => x.modRegs c fun g => { g with fsBase := some p }
  | .idt st => { x with idt := st.apply x.idt }
  | .lidt => x.modRegs c fun g => { g with idtr := true }
  | .schedInit => { x with idleThread := Function.update x.idleThread c true }
  | .online p =>
      { x with infos := Function.update x.infos p { x.infos p with online := true } }
  | .goto p => { x with gotoAddress := Function.update x.gotoAddress p true }
  | .wait _ => x

/-- What an operation leaves in the registers of its processor. -/
def regsAfter : Op → Regs → Regs
  | .vasSwitch, g => { g with cr3 := .kernel }
  | .gdtInitCpu p, g => { g with gdtr := some p, cs := 0x08, ds := 0x10, fsBase := none }
  | .cpuSetCurrent p, g => { g with fsBase := some p }
  | .lidt, g => { g with idtr := true }
  | _, g => g

/-- The program of a processor. -/
def program (r : MpResponse) (isrStubs : Nat → Nat) (b c : Nat) : List Op :=
  if c = b then kmain r else if c < smpCpuCount r then smpApEntry isrStubs c else []

/-- Processor `b` is the one that the boot loader started. -/
def Bsp (r : MpResponse) (b : Nat) : Prop :=
  b < smpCpuCount r ∧ ∀ i < smpCpuCount r, (r.cpus i).lapicId = r.bspLapicId ↔ i = b

theorem Bsp.isBsp (h : Bsp r b) {i : Nat} (hi : i < smpCpuCount r) :
    (smpInfos r i).isBsp = decide (i = b) := by
  rw [smpInfos, if_pos hi]
  show ((r.cpus i).lapicId == r.bspLapicId) = _
  rw [Bool.eq_iff_iff, beq_iff_eq, decide_eq_true_eq]
  exact h.2 i hi

theorem Bsp.online (h : Bsp r b) {i : Nat} (hne : i ≠ b) : (smpInfos r i).online = false := by
  by_cases hi : i < smpCpuCount r
  · have := h.isBsp hi
    rw [smpInfos, if_pos hi] at this ⊢
    exact this.trans (decide_eq_false hne)
  · rw [smpInfos, if_neg hi]

/-- What processor `c` may do. -/
def Own (r : MpResponse) (isrStubs : Nat → Nat) (b c : Nat) : Op → Prop
  | .gdtInitCpu p => p = c ∧ c < smpCpuCount r
  | .cpuSetCurrent p => p = c
  | .online p => p = c ∧ c ≠ b
  | .goto p => p < smpCpuCount r ∧ p ≠ b
  | .idt st => st ∈ idtInit isrStubs
  | _ => True

theorem own_of_mem (hb : Bsp r b) (h : op ∈ program r isrStubs b c) : Own r isrStubs b c op := by
  unfold program at h
  split at h
  · rename_i hc
    simp only [kmain, List.mem_append, List.mem_map, List.mem_range, List.mem_singleton] at h
    obtain (⟨i, hi, rfl⟩ | rfl) | ⟨i, -, rfl⟩ := h
    · rw [hb.isBsp hi]
      by_cases hib : i = b
      · rw [if_pos (decide_eq_true hib)]
        exact hib.trans hc.symm
      · rw [if_neg (by simpa using hib)]
        exact ⟨hi, hib⟩
    · trivial
    · trivial
  · rename_i hne
    split at h
    · rename_i hc
      simp only [smpApEntry, List.mem_append, List.mem_cons, List.mem_map, List.not_mem_nil,
        or_false] at h
      obtain ((rfl | rfl | rfl) | ⟨st, hst, rfl⟩) | (rfl | rfl | rfl) := h
      · trivial
      · exact ⟨rfl, hc⟩
      · rfl
      · exact hst
      · trivial
      · trivial
      · exact ⟨rfl, hne⟩
    · cases h

/-- What holds of the shared state all along. -/
structure Inv (r : MpResponse) (isrStubs : Nat → Nat) (b : Nat) (x : Shared) : Prop where
  index : ∀ p < smpCpuCount r, (x.infos p).index = p
  extra : ∀ p < smpCpuCount r, x.extraArgument p = p
  goto : ∀ p, x.gotoAddress p = true → p < smpCpuCount r ∧ p ≠ b
  fs : ∀ p q, (x.regs p).fsBase = some q → q = p
  gdt : x.gdt 0 = gdtTemplate
  idt : ∀ v < 256, ∀ f, x.idt v f = gate isrStubs v f ∨ v = 0x80 ∧ f = .flags ∧ x.idt v f = 0x8e

/-- An operation that does something does its effect. -/
theorem exec_eq (hx : Inv r isrStubs b x) (h : exec c op x = some y) :
    y = effect c op x ∧ ∀ p, op = .wait p → (x.infos p).online = true := by
  cases op with
  | schedInit =>
      refine ⟨?_, fun p hp => by cases hp⟩
      unfold exec at h
      cases hfs : (x.regs c).fsBase with
      | none => simp [hfs] at h
      | some p =>
          obtain rfl := hx.fs c p hfs
          simp only [hfs] at h
          split at h
          · rename_i hidle
            rw [← Option.some.inj h, effect, ← hidle, Function.update_eq_self]
          · exact (Option.some.inj h).symm
  | wait p =>
      unfold exec at h
      simp only at h
      split at h
      · rename_i hon
        exact ⟨(Option.some.inj h).symm, fun q hq => by cases hq; exact hon⟩
      · cases h
  | vasSwitch | gdtInitCpu | cpuSetCurrent | idt | lidt | online | goto =>
      exact ⟨(Option.some.inj h).symm, fun p hp => by cases hp⟩

theorem gdtSlot_eq {p : Nat} (hp : p < smpCpuCount r) : gdtSlot p = p := by
  have hle : smpCpuCount r ≤ MAX_CPUS := by
    unfold smpCpuCount
    split <;> omega
  exact if_neg (by omega)

theorem effect_regs (hx : Inv r isrStubs b x) (hop : Own r isrStubs b c op) :
    (effect c op x).regs = Function.update x.regs c (regsAfter op (x.regs c)) := by
  cases op with
  | gdtInitCpu p =>
      obtain ⟨rfl, hp⟩ := hop
      have hslot : gdtSlot (x.infos p).index = p := by rw [hx.index p hp, gdtSlot_eq hp]
      simp only [effect, Shared.modRegs, regsAfter, hslot]
  | vasSwitch | cpuSetCurrent | lidt => rfl
  | idt | schedInit | online | goto | wait => exact (Function.update_eq_self c x.regs).symm

/-- Who is online is so for good, and nobody else gets it. -/
theorem effect_online (p : Nat) : ((effect c op x).infos p).online = true
    ↔ (x.infos p).online = true ∨ op = .online p := by
  cases op with
  | online q =>
      by_cases hpq : p = q
      · subst hpq
        simp [effect]
      · simp [effect, Function.update_of_ne hpq, show q ≠ p from fun h => hpq h.symm]
  | vasSwitch | gdtInitCpu | cpuSetCurrent | idt | lidt | schedInit | goto | wait =>
      simp [effect, Shared.modRegs]

/-- An operation of a processor's own program keeps it. -/
theorem Inv.effect (hx : Inv r isrStubs b x) (hop : Own r isrStubs b c op) :
    Inv r isrStubs b (effect c op x) where
  index := fun p hp => by
    have hold := hx.index p hp
    cases op with
    | online q =>
        show (Function.update x.infos q _ p).index = p
        by_cases hpq : p = q
        · subst hpq
          rw [Function.update_self]
          exact hold
        · rw [Function.update_of_ne hpq]
          exact hold
    | vasSwitch | gdtInitCpu | cpuSetCurrent | idt | lidt | schedInit | goto | wait => exact hold
  extra := fun p hp => by
    cases op <;> exact hx.extra p hp
  goto := fun p hp => by
    cases op with
    | goto q =>
        by_cases hpq : p = q
        · exact hpq ▸ hop
        · exact hx.goto p (by
            rw [← hp]
            exact (Function.update_of_ne hpq ..).symm)
    | vasSwitch | gdtInitCpu | cpuSetCurrent | idt | lidt | schedInit | online | wait =>
        exact hx.goto p hp
  fs := fun p q hq => by
    rw [effect_regs hx hop] at hq
    by_cases hpc : p = c
    · subst hpc
      rw [Function.update_self] at hq
      cases op with
      | gdtInitCpu => cases hq
      | cpuSetCurrent q' => exact (Option.some.inj hq).symm.trans hop
      | vasSwitch | idt | lidt | schedInit | online | goto | wait => exact hx.fs p q hq
    · rw [Function.update_of_ne hpc] at hq
      exact hx.fs p q hq
  gdt := by
    cases op with
    | gdtInitCpu q =>
        show Function.update x.gdt _ gdtTemplate 0 = gdtTemplate
        rw [Function.update_apply, hx.gdt, ite_self]
    | vasSwitch | cpuSetCurrent | idt | lidt | schedInit | online | goto | wait => exact hx.gdt
  idt := fun v hv f => by
    cases op with
    | idt st =>
        show st.apply x.idt v f = _ ∨ _ ∧ _ ∧ st.apply x.idt v f = _
        unfold Store.apply
        by_cases hvec : v = st.vector
        · subst hvec
          rw [Function.update_self]
          by_cases hf : f = st.field
          · subst hf
            rw [Function.update_self]
            obtain h | rfl := mem_idtInit hop
            · exact .inl h
            · exact .inr ⟨rfl, rfl, rfl⟩
          · rw [Function.update_of_ne hf]
            exact hx.idt _ hv f
        · rw [Function.update_of_ne hvec]
          exact hx.idt v hv f
    | vasSwitch | gdtInitCpu | cpuSetCurrent | lidt | schedInit | online | goto | wait =>
        exact hx.idt v hv f

-- ==== a processor

/-- What an operation of processor `c` leaves to rely on. -/
def Did (c : Nat) (x : Shared) : Op → Prop
  | .gdtInitCpu p => x.gdt p = gdtTemplate
  | .schedInit => x.idleThread c = true
  | .online p | .wait p => (x.infos p).online = true
  | _ => True

theorem Did.effect {c' : Nat} {op' : Op} (h : Did c x op) : Did c (effect c' op' x) op := by
  have hon : ∀ p, (x.infos p).online = true → ((Smp.effect c' op' x).infos p).online = true :=
    fun p hp => (effect_online p).mpr (.inl hp)
  cases op with
  | gdtInitCpu p =>
      cases op' with
      | gdtInitCpu q =>
          show Function.update x.gdt _ gdtTemplate p = gdtTemplate
          rw [Function.update_apply, show x.gdt p = gdtTemplate from h, ite_self]
      | vasSwitch | cpuSetCurrent | idt | lidt | schedInit | online | goto | wait => exact h
  | schedInit =>
      cases op' with
      | schedInit =>
          show Function.update x.idleThread c' true c = true
          rw [Function.update_apply, show x.idleThread c = true from h, ite_self]
      | vasSwitch | gdtInitCpu | cpuSetCurrent | idt | lidt | online | goto | wait => exact h
  | online p | wait p => exact hon p h
  | vasSwitch | cpuSetCurrent | idt | lidt | goto => trivial

theorem did_exec (hx : Inv r isrStubs b x) (hop : Own r isrStubs b c op)
    (hwait : ∀ p, op = .wait p → (x.infos p).online = true) : Did c (effect c op x) op := by
  cases op with
  | gdtInitCpu p =>
      obtain ⟨rfl, hp⟩ := hop
      show Function.update x.gdt (gdtSlot (x.infos p).index) gdtTemplate p = gdtTemplate
      rw [hx.index p hp, gdtSlot_eq hp, Function.update_self]
  | schedInit => exact Function.update_self ..
  | online p => exact (effect_online p).mpr (.inr rfl)
  | wait p => exact hwait p rfl
  | vasSwitch | cpuSetCurrent | idt | lidt | goto => trivial

/-- The registers at first. -/
def firstRegs (b c : Nat) : Regs := if c = b then bspRegs else loaderRegs

/-- A processor that waits for its address. -/
structure Idle (b c : Nat) (x : Shared) : Prop where
  regs : x.regs c = firstRegs b c
  online : c ≠ b → (x.infos c).online = false

/-- A processor that has done the front of its program. -/
structure Trace (b c : Nat) (done : List Op) (x : Shared) : Prop where
  regs : x.regs c = done.foldl (fun g op => regsAfter op g) (firstRegs b c)
  did : ∀ op ∈ done, Did c x op
  online : c ≠ b → (x.infos c).online = true → .online c ∈ done

/-- Another processor's operation. -/
theorem effect_other {c' : Nat} (hne : c ≠ c') (hx : Inv r isrStubs b x)
    (hop : Own r isrStubs b c' op) : (effect c' op x).regs c = x.regs c
      ∧ (((effect c' op x).infos c).online = true → (x.infos c).online = true) := by
  refine ⟨by rw [effect_regs hx hop, Function.update_of_ne hne], fun hon => ?_⟩
  obtain h | rfl := (effect_online c).mp hon
  · exact h
  · exact absurd hop.1 hne

/-- So the start-up meets the contract of `Parallel.lean`. -/
theorem contract (hb : Bsp r b) : Contract (smp isrStubs) (program r isrStubs b)
    (Inv r isrStubs b) (Idle b) (Trace b) where
  enter := fun {c x ops} hx hidle henter => by
    unfold smp enter at henter
    simp only at henter
    split at henter
    · rename_i hgoto
      obtain ⟨hc, hne⟩ := hx.goto c hgoto
      refine ⟨?_, hidle.regs, fun op hop => (by cases hop), fun hne hon => ?_⟩
      · rw [program, if_neg hne, if_pos hc, ← Option.some.inj henter, hx.extra c hc]
      · rw [hidle.online hne] at hon
        cases hon
    · cases henter
  inv := fun hmem hx hexec => by
    rw [(exec_eq hx hexec).1]
    exact hx.effect (own_of_mem hb hmem)
  own := fun {c done op x y} hmem hx htrace hexec => by
    obtain ⟨rfl, hwait⟩ := exec_eq hx hexec
    have hop := own_of_mem hb hmem
    refine ⟨?_, fun op' hop' => ?_, fun hne hon => ?_⟩
    · rw [effect_regs hx hop, Function.update_self, List.foldl_append, ← htrace.regs]
      rfl
    · obtain h | h := List.mem_append.mp hop'
      · exact (htrace.did op' h).effect
      · rw [List.mem_singleton.mp h]
        exact did_exec hx hop hwait
    · obtain h | rfl := (effect_online c).mp hon
      · exact List.mem_append_left _ (htrace.online hne h)
      · exact List.mem_append_right _ List.mem_cons_self
  other := fun {c c' done op x y} hne hmem hx htrace hexec => by
    obtain ⟨rfl, -⟩ := exec_eq hx hexec
    obtain ⟨hregs, hon⟩ := effect_other hne hx (own_of_mem hb hmem)
    exact ⟨hregs.trans htrace.regs, fun op' hop' => (htrace.did op' hop').effect,
      fun hb h => htrace.online hb (hon h)⟩
  idle := fun {c c' op x y} hne hmem hx hidle hexec => by
    obtain ⟨rfl, -⟩ := exec_eq hx hexec
    obtain ⟨hregs, hon⟩ := effect_other hne hx (own_of_mem hb hmem)
    refine ⟨hregs.trans hidle.regs, fun hb => ?_⟩
    rw [Bool.eq_false_iff]
    intro h
    exact Bool.eq_false_iff.mp (hidle.online hb) (hon h)

theorem start_idt : (start r isrStubs b).shared.idt = bootIdt isrStubs := by
  simp only [start]

theorem start_regs :
    (start r isrStubs b).shared.regs = Function.update (fun _ => loaderRegs) b bspRegs := rfl

theorem start_rest :
    (start r isrStubs b).rest = Function.update (fun _ => none) b (some (kmain r)) := rfl

theorem holds_start (hb : Bsp r b) :
    Holds (program r isrStubs b) (Inv r isrStubs b) (Idle b) (Trace b) (start r isrStubs b) where
  inv :=
    { index := fun p hp => by
        show (smpInfos r p).index = p
        rw [smpInfos, if_pos hp]
      extra := fun p hp => if_pos hp
      goto := fun p hp => by cases hp
      fs := fun p q hq => by
        rw [start_regs, Function.update_apply] at hq
        split at hq <;> cases hq
      gdt := by
        show Function.update (fun _ => []) 0 gdtTemplate 0 = gdtTemplate
        rw [Function.update_self]
      idt := fun v hv f => by
        left
        rw [start_idt, bootIdt_eq hv] }
  idle := fun c hc => by
    rw [start_rest] at hc
    obtain ⟨-, h⟩ | ⟨hne, -⟩ := update_eq hc
    · cases h
    · refine ⟨?_, fun _ => hb.online hne⟩
      rw [start_regs, Function.update_of_ne hne, firstRegs, if_neg hne]
  trace := fun c ops hc => by
    rw [start_rest] at hc
    obtain ⟨rfl, h⟩ | ⟨-, h⟩ := update_eq hc
    · refine ⟨[], ?_, ?_, fun op hop => (by cases hop), fun hne => absurd rfl hne⟩
      · rw [program, if_pos rfl, ← Option.some.inj h, List.nil_append]
      · rw [start_regs, Function.update_self, List.foldl_nil, firstRegs, if_pos rfl]
    · cases h

variable {s : State Nat Op Shared}

theorem holds_run (hb : Bsp r b) (hr : Runs (smp isrStubs) (start r isrStubs b) s) :
    Holds (program r isrStubs b) (Inv r isrStubs b) (Idle b) (Trace b) s :=
  (contract hb).runs (holds_start hb) hr

-- ==== the gate of the system call

theorem mem_after {α : Type} {front back done rest : List α} {k u : α}
    (h : front ++ back = done ++ k :: rest) (hk : k ∉ back) (hu : u ∈ back) : u ∈ rest := by
  obtain ⟨mid, -, hback⟩ | ⟨mid, -, hrest⟩ := List.append_eq_append_iff.mp h
  · exact absurd (hback ▸ List.mem_append_right _ List.mem_cons_self) hk
  · cases mid with
    | nil =>
        rw [List.nil_append] at hrest
        exact absurd (hrest ▸ List.mem_cons_self) hk
    | cons z mid =>
        obtain ⟨-, rfl⟩ := List.cons.inj hrest
        exact List.mem_append_right _ hu

/-- A processor that has closed the gate has yet to open it. -/
theorem userGate_after {done ops : List Op}
    (h : program r isrStubs b c = done ++ .idt kernelOnly :: ops) : .idt userGate ∈ ops := by
  unfold program at h
  split at h
  · have hmem : Op.idt kernelOnly ∈ kmain r := by
      rw [h]
      exact List.mem_append_right _ List.mem_cons_self
    simp only [kmain, List.mem_append, List.mem_map, List.mem_singleton] at hmem
    obtain (⟨i, -, hi⟩ | hi) | ⟨i, -, hi⟩ := hmem
    · split at hi <;> cases hi
    · cases hi
    · cases hi
  · split at h
    · unfold smpApEntry idtInit at h
      rw [List.map_append, ← List.append_assoc, List.append_assoc] at h
      refine mem_after h ?_ ?_
      · simp [idtSetDesc, IDT_TRAP]
      · simp [idtSetDesc, IDT_TRAP]
    · exact absurd h.symm (by simp)

/-- Some processor is in `idt_init`, in front of that store. -/
def Filling (s : State Nat Op Shared) : Prop :=
  ∃ c ops, s.rest c = some ops ∧ .idt userGate ∈ ops

/-- Only its two stores change the flags of that gate. -/
theorem effect_flags (hop : Own r isrStubs b c op) (hk : op ≠ .idt kernelOnly)
    (hu : op ≠ .idt userGate) : (effect c op x).idt 0x80 .flags = x.idt 0x80 .flags := by
  cases op with
  | idt st =>
      show st.apply x.idt 0x80 .flags = _
      unfold Store.apply
      by_cases hvec : 0x80 = st.vector
      · rw [← hvec, Function.update_self]
        by_cases hf : GateField.flags = st.field
        · obtain hval | rfl := mem_idtInit hop
          · refine absurd ?_ hu
            cases st
            simp only at hvec hf hval
            subst hvec hf hval
            rfl
          · exact absurd rfl hk
        · rw [Function.update_of_ne hf]
      · rw [Function.update_of_ne hvec]
  | vasSwitch | gdtInitCpu | cpuSetCurrent | lidt | schedInit | online | goto | wait => rfl

/-- Gate 0x80 is open, or it is being filled. -/
theorem flags_run (hb : Bsp r b) (hr : Runs (smp isrStubs) (start r isrStubs b) s) :
    s.shared.idt 0x80 .flags = 0xef ∨ Filling s := by
  refine hr.keeps (Q := fun s => s.shared.idt 0x80 .flags = 0xef ∨ Filling s) ?_
    fun {s s'} hr h hstep => ?_
  · left
    rw [start_idt, bootIdt_eq (by decide)]
    rfl
  have hholds := holds_run hb hr
  cases hstep with
  | @enter c ops hrest henter =>
      obtain h | ⟨c', ops', hrest', hmem⟩ := h
      · exact .inl h
      · refine .inr ⟨c', ops', (Function.update_of_ne ?_ ..).trans hrest', hmem⟩
        rintro rfl
        rw [hrest] at hrest'
        cases hrest'
  | @exec c op ops x hrest hexec =>
      obtain ⟨done, hprog, -⟩ := hholds.trace c _ hrest
      have hop : Own r isrStubs b c op := own_of_mem hb (by
        rw [hprog]
        exact List.mem_append_right _ List.mem_cons_self)
      obtain ⟨rfl, -⟩ := exec_eq hholds.inv hexec
      by_cases hk : op = .idt kernelOnly
      · subst hk
        exact .inr ⟨c, ops, Function.update_self .., userGate_after hprog⟩
      by_cases hu : op = .idt userGate
      · subst hu
        left
        show Store.apply userGate s.shared.idt 0x80 .flags = 0xef
        simp [Store.apply]
      obtain h | ⟨c', ops', hrest', hmem⟩ := h
      · exact .inl ((effect_flags hop hk hu).trans h)
      right
      by_cases hc : c' = c
      · subst hc
        rw [hrest] at hrest'
        cases Option.some.inj hrest'
        exact ⟨c', ops, Function.update_self ..,
          (List.mem_cons.mp hmem).resolve_left fun he => hu he.symm⟩
      · exact ⟨c', ops', (Function.update_of_ne hc ..).trans hrest', hmem⟩

/-- The fields of a gate but for its flags. -/
theorem field_run (hb : Bsp r b) (hr : Runs (smp isrStubs) (start r isrStubs b) s)
    {v : Nat} (hv : v < 256) {f : GateField} (hf : f ≠ .flags) :
    s.shared.idt v f = gate isrStubs v f :=
  ((holds_run hb hr).inv.idt v hv f).resolve_right fun h => hf h.2.1

theorem gate_cases (hb : Bsp r b) (hr : Runs (smp isrStubs) (start r isrStubs b) s)
    {v : Nat} (hv : v < 256) : s.shared.idt v = gate isrStubs v
      ∨ v = 0x80 ∧ s.shared.idt v = Function.update (gate isrStubs v) .flags 0x8e
        ∧ Filling s := by
  by_cases hflags : s.shared.idt v .flags = gate isrStubs v .flags
  · left
    funext f
    by_cases hf : f = .flags
    · rw [hf, hflags]
    · exact field_run hb hr hv hf
  · obtain ⟨rfl, -, h8e⟩ := ((holds_run hb hr).inv.idt v hv .flags).resolve_left hflags
    refine .inr ⟨rfl, ?_, (flags_run hb hr).resolve_left hflags⟩
    funext f
    by_cases hf : f = .flags
    · rw [hf, h8e, Function.update_self]
    · rw [Function.update_of_ne hf, field_run hb hr hv hf]

/-- While the processors fill in the table they use, every gate leads to its
stub, and is as it is to be; only the one of the system call can be closed to
user mode for a while, as long as some processor is on its way through
`idt_init`. -/
theorem gates_stable (hb : Bsp r b) (hr : Runs (smp isrStubs) (start r isrStubs b) s)
    {v : Nat} (hv : v < 256) :
    idtDescBase (s.shared.idt v) = isrStubs v % 2 ^ 64
      ∧ (s.shared.idt v = gate isrStubs v
        ∨ v = 0x80 ∧ s.shared.idt v = Function.update (gate isrStubs v) .flags 0x8e
          ∧ Filling s) := by
  refine ⟨?_, gate_cases hb hr hv⟩
  have hfield := fun {f} => field_run hb hr hv (f := f)
  rw [← idtDescBase_gate, idtDescBase, idtDescBase, hfield (by decide), hfield (by decide),
    hfield (by decide)]

-- ==== all online

/-- What a processor has loaded when it is ready. -/
def readyRegs (b c : Nat) : Regs :=
  ⟨.kernel, some (if c = b then 0 else c), 0x08, 0x10, some c, true⟩

theorem foldl_setCurrent : ∀ {ops : List Op} {g : Regs},
    (∀ op ∈ ops, op = .cpuSetCurrent b ∨ ∀ g, regsAfter op g = g) →
    .cpuSetCurrent b ∈ ops ∨ g.fsBase = some b →
    ops.foldl (fun g op => regsAfter op g) g = { g with fsBase := some b } := by
  intro ops
  induction ops with
  | nil =>
      intro g _ h
      rw [List.foldl_nil, ← h.resolve_left List.not_mem_nil]
  | cons op ops ih =>
      intro g hops h
      rw [List.foldl_cons]
      have hrest := fun g => ih (g := g) fun op' hop' => hops op' (List.mem_cons_of_mem _ hop')
      obtain rfl | hsame := hops op List.mem_cons_self
      · exact hrest _ (.inr rfl)
      · rw [hsame g]
        refine hrest g (h.imp_left fun hmem => (List.mem_cons.mp hmem).resolve_left ?_)
        rintro rfl
        have hfs := congrArg Regs.fsBase (hsame loaderRegs)
        cases hfs

theorem kmain_keeps (hb : Bsp r b) (hop : op ∈ kmain r) :
    op = .cpuSetCurrent b ∨ ∀ g, regsAfter op g = g := by
  have hown : Own r (fun v => v) b b op := own_of_mem hb (by rwa [program, if_pos rfl])
  simp only [kmain, List.mem_append, List.mem_map, List.mem_singleton] at hop
  obtain (⟨i, -, rfl⟩ | rfl) | ⟨i, -, rfl⟩ := hop
  · by_cases hbsp : (smpInfos r i).isBsp
    · rw [if_pos hbsp] at hown ⊢
      exact .inl (congrArg _ hown)
    · rw [if_neg hbsp]
      exact .inr fun _ => rfl
  · exact .inr fun _ => rfl
  · exact .inr fun _ => rfl

/-- The second loop of `smp_init`. -/
def release (r : MpResponse) : List Op :=
  (List.range (smpCpuCount r)).map
    fun i => if (smpInfos r i).isBsp then .cpuSetCurrent i else .goto i

theorem setCurrent_mem_release (hb : Bsp r b) : .cpuSetCurrent b ∈ release r :=
  List.mem_map.mpr ⟨b, List.mem_range.mpr hb.1, by rw [hb.isBsp hb.1, if_pos (decide_eq_true rfl)]⟩

theorem regs_release (hb : Bsp r b) (g : Regs) :
    (release r).foldl (fun g op => regsAfter op g) g = { g with fsBase := some b } :=
  foldl_setCurrent (fun _ hop => kmain_keeps hb
    (List.mem_append_left _ (List.mem_append_left _ hop))) (.inl (setCurrent_mem_release hb))

theorem regs_program (hb : Bsp r b) (hc : c < smpCpuCount r) :
    (program r isrStubs b c).foldl (fun g op => regsAfter op g) (firstRegs b c)
      = readyRegs b c := by
  unfold program firstRegs readyRegs
  by_cases hcb : c = b
  · subst hcb
    rw [if_pos rfl, if_pos rfl, if_pos rfl]
    exact foldl_setCurrent (fun op hop => kmain_keeps hb hop)
      (.inl (List.mem_append_left _ (List.mem_append_left _ (setCurrent_mem_release hb))))
  · rw [if_neg hcb, if_neg hcb, if_neg hcb, if_pos hc]
    unfold smpApEntry
    rw [List.foldl_append, List.foldl_append, List.foldl_map]
    rw [show (fun (g : Regs) st => regsAfter (.idt st) g) = fun g _ => g from rfl,
      List.foldl_fixed]
    rfl

/-- A processor that is online has nothing left to do. -/
theorem done_of_online {done ops : List Op} (hne : c ≠ b)
    (hprog : program r isrStubs b c = done ++ ops) (h : .online c ∈ done) : ops = [] := by
  obtain rfl | ⟨ops, z, rfl⟩ := ops.eq_nil_or_concat'
  · rfl
  exfalso
  rw [program, if_neg hne] at hprog
  split at hprog
  · unfold smpApEntry at hprog
    rw [← List.append_assoc done, show [Op.lidt, .schedInit, .online c]
      = [.lidt, .schedInit] ++ [.online c] from rfl, ← List.append_assoc] at hprog
    have hfront := (List.append_inj' hprog rfl).1
    have hmem := List.mem_append_left ops h
    rw [← hfront] at hmem
    simp at hmem
  · simp at hprog

/-- The processor that booted has waited for all. -/
theorem online_of_waited (hb : Bsp r b) (hr : Runs (smp isrStubs) (start r isrStubs b) s)
    (hdone : s.rest b = some []) (hc : c < smpCpuCount r) :
    (s.shared.infos c).online = true := by
  obtain ⟨done, hprog, htrace⟩ := (holds_run hb hr).trace b [] hdone
  refine htrace.did (.wait c) ?_
  rw [← List.append_nil done, ← hprog, program, if_pos rfl]
  exact List.mem_append_right _ (List.mem_map.mpr ⟨c, List.mem_range.mpr hc, rfl⟩)

/-- So all have come to the end of their programs. -/
theorem all_done (hb : Bsp r b) (hr : Runs (smp isrStubs) (start r isrStubs b) s)
    (hdone : s.rest b = some []) (hc : c < smpCpuCount r) :
    s.rest c = some [] ∧ Trace b c (program r isrStubs b c) s.shared := by
  have hholds := holds_run hb hr
  have honline := online_of_waited hb hr hdone hc
  have hend : ∀ ops, s.rest c = some ops → c = b ∨ ops = [] := fun ops hrest => by
    obtain ⟨done, hprog, htrace⟩ := hholds.trace c ops hrest
    by_cases hcb : c = b
    · exact .inl hcb
    · exact .inr (done_of_online hcb hprog (htrace.online hcb honline))
  have hrest : s.rest c = some [] := by
    cases hrest : s.rest c with
    | none =>
        by_cases hcb : c = b
        · rw [hcb, hdone] at hrest
          cases hrest
        · rw [(hholds.idle c hrest).online hcb] at honline
          cases honline
    | some ops =>
        obtain rfl | rfl := hend ops hrest
        · exact hrest.symm.trans hdone
        · rfl
  obtain ⟨done, hprog, htrace⟩ := hholds.trace c [] hrest
  rw [List.append_nil] at hprog
  exact ⟨hrest, hprog ▸ htrace⟩

/-- When the processor that booted has waited for all of them, every processor
runs on the address space of the kernel, with a descriptor table that is filled
in, with its own `struct cpu_info` and with an idle thread, and every gate is as
it is to be. -/
theorem smp_ready (hb : Bsp r b) (hr : Runs (smp isrStubs) (start r isrStubs b) s)
    (hdone : s.rest b = some []) :
    (∀ c < smpCpuCount r, s.shared.regs c = readyRegs b c
        ∧ s.shared.gdt (if c = b then 0 else c) = gdtTemplate
        ∧ s.shared.idleThread c = true ∧ (s.shared.infos c).online = true)
      ∧ ∀ v < 256, s.shared.idt v = gate isrStubs v := by
  have hholds := holds_run hb hr
  refine ⟨fun c hc => ?_, fun v hv => ?_⟩
  · obtain ⟨-, ht⟩ := all_done hb hr hdone hc
    refine ⟨ht.regs.trans (regs_program hb hc), ?_, ht.did .schedInit ?_,
      online_of_waited hb hr hdone hc⟩
    · by_cases hcb : c = b
      · rw [if_pos hcb]
        exact hholds.inv.gdt
      · rw [if_neg hcb]
        refine ht.did (.gdtInitCpu c) ?_
        rw [program, if_neg hcb, if_pos hc]
        simp [smpApEntry]
    · unfold program
      split
      · simp [kmain]
      · simp [smpApEntry]
  · obtain h | ⟨-, -, c, ops, hrest, hmem⟩ := gate_cases hb hr hv
    · exact h
    obtain ⟨done, hprog, -⟩ := hholds.trace c ops hrest
    by_cases hc : c < smpCpuCount r
    · rw [(all_done hb hr hdone hc).1] at hrest
      cases Option.some.inj hrest
      cases hmem
    · rw [program, if_neg fun hcb : c = b => hc (hcb ▸ hb.1), if_neg hc] at hprog
      rw [(List.append_eq_nil_iff.mp hprog.symm).2] at hmem
      cases hmem

-- ==== nobody hangs

/-- In front of `sched_init` a processor has a current CPU. -/
theorem current_of_schedInit (hb : Bsp r b) {done ops : List Op}
    (h : program r isrStubs b c = done ++ .schedInit :: ops) :
    (done.foldl (fun g op => regsAfter op g) (firstRegs b c)).fsBase = some c := by
  unfold program at h
  split at h
  · rename_i hcb
    subst hcb
    have hsplit : release r ++ .schedInit :: (List.range (smpCpuCount r)).map .wait
        = done ++ .schedInit :: ops := by
      rw [← h, kmain, List.append_assoc]
      rfl
    have hout : Op.schedInit ∉ release r := by
      intro hmem
      obtain ⟨i, -, hi⟩ := List.mem_map.mp hmem
      split at hi <;> cases hi
    obtain ⟨rfl, -, -⟩ := (List.append_cons_inj_of_notMem hout (by simp)).mp hsplit
    rw [regs_release hb]
  · rename_i hcb
    split at h
    · have hsplit : ([.vasSwitch, .gdtInitCpu c, .cpuSetCurrent c] ++ (idtInit isrStubs).map .idt
          ++ [.lidt]) ++ .schedInit :: [.online c] = done ++ .schedInit :: ops := by
        rw [← h, smpApEntry, List.append_assoc _ [Op.lidt]]
        rfl
      obtain ⟨rfl, -, -⟩ := (List.append_cons_inj_of_notMem (by simp) (by simp)).mp hsplit
      rw [List.foldl_append, List.foldl_append, List.foldl_map,
        show (fun (g : Regs) st => regsAfter (.idt st) g) = fun g _ => g from rfl,
        List.foldl_fixed]
      rfl
    · exact absurd h.symm (by simp)

/-- Only the wait for another processor can hold one up. -/
theorem exec_ready (hb : Bsp r b) (hr : Runs (smp isrStubs) (start r isrStubs b) s)
    {ops : List Op} (hrest : s.rest c = some (op :: ops))
    (hwait : ∀ p, op = .wait p → (s.shared.infos p).online = true) :
    exec c op s.shared = some (effect c op s.shared) := by
  obtain ⟨done, hprog, htrace⟩ := (holds_run hb hr).trace c _ hrest
  cases op with
  | schedInit =>
      have hfs : (s.shared.regs c).fsBase = some c := by
        rw [htrace.regs]
        exact current_of_schedInit hb hprog
      unfold exec effect
      simp only [hfs]
      split
      · rename_i hidle
        rw [← hidle, Function.update_eq_self]
      · rfl
  | wait p => exact if_pos (hwait p rfl)
  | vasSwitch | gdtInitCpu | cpuSetCurrent | idt | lidt | online | goto => rfl

/-- What a list of operations does. -/
def effects (c : Nat) (ops : List Op) (x : Shared) : Shared :=
  ops.foldl (fun x op => effect c op x) x

/-- So a processor can do the front of what it has left, if who it waits for
there is online. -/
theorem ahead (hb : Bsp r b) {front back : List Op}
    (hr : Runs (smp isrStubs) (start r isrStubs b) s) (hrest : s.rest c = some (front ++ back))
    (hwait : ∀ p, .wait p ∈ front → (s.shared.infos p).online = true) :
    Runs (smp isrStubs) (start r isrStubs b)
      ⟨effects c front s.shared, Function.update s.rest c (some back)⟩ := by
  induction front generalizing s with
  | nil =>
      rw [List.nil_append] at hrest
      rw [← hrest, Function.update_eq_self]
      exact hr
  | cons op front ih =>
      have hexec := exec_ready hb hr hrest fun p hp => hwait p (hp ▸ List.mem_cons_self)
      have hnext := ih (hr.step (.exec hrest hexec)) (Function.update_self ..) fun p hp =>
        (effect_online p).mpr (.inl (hwait p (List.mem_cons_of_mem _ hp)))
      simp only [Function.update_idem] at hnext
      exact hnext

/-- What one operation brings about and none takes back. -/
theorem effects_iff {Q : Shared → Prop} {o : Op} {ops : List Op}
    (h : ∀ op x, Q (effect c op x) ↔ Q x ∨ op = o) : Q (effects c ops x) ↔ Q x ∨ o ∈ ops := by
  induction ops generalizing x with
  | nil => simp [effects]
  | cons op ops ih =>
      show Q (effects c ops (effect c op x)) ↔ _
      rw [ih, h, List.mem_cons, or_assoc, eq_comm]

theorem effects_online {ops : List Op} (p : Nat) : ((effects c ops x).infos p).online = true
    ↔ (x.infos p).online = true ∨ .online p ∈ ops :=
  effects_iff (Q := fun x => (x.infos p).online = true) fun _ _ => effect_online p

theorem effects_goto {ops : List Op} (p : Nat) : (effects c ops x).gotoAddress p = true
    ↔ x.gotoAddress p = true ∨ .goto p ∈ ops := by
  refine effects_iff (Q := fun x => x.gotoAddress p = true) fun op x => ?_
  cases op with
  | goto q =>
      by_cases hpq : p = q
      · subst hpq
        simp [effect]
      · simp [effect, Function.update_of_ne hpq, show q ≠ p from fun h => hpq h.symm]
  | vasSwitch | gdtInitCpu | cpuSetCurrent | idt | lidt | schedInit | online | wait =>
      simp [effect, Shared.modRegs]

/-- A processor that has been let go can do the front of `smp_ap_entry`. -/
theorem enter_ahead (hb : Bsp r b) {front back : List Op} (hc : c < smpCpuCount r)
    (hr : Runs (smp isrStubs) (start r isrStubs b) s) (hrest : s.rest c = none)
    (hgoto : s.shared.gotoAddress c = true) (hprog : smpApEntry isrStubs c = front ++ back)
    (hnowait : ∀ p, .wait p ∉ front) :
    Runs (smp isrStubs) (start r isrStubs b)
      ⟨effects c front s.shared, Function.update s.rest c (some back)⟩ := by
  have henter : enter isrStubs c s.shared = some (front ++ back) := by
    rw [enter, if_pos hgoto, (holds_run hb hr).inv.extra c hc, hprog]
  have hnext := ahead hb (hr.step (.enter hrest henter)) (Function.update_self ..)
    fun p hp => absurd hp (hnowait p)
  simp only [Function.update_idem] at hnext
  exact hnext

theorem wait_notMem_smpApEntry (p : Nat) : .wait p ∉ smpApEntry isrStubs c := by
  simp [smpApEntry]

/-- The state behind the second loop of `smp_init`. -/
def released (r : MpResponse) (isrStubs : Nat → Nat) (b : Nat) : State Nat Op Shared :=
  ⟨effects b (release r ++ [.schedInit]) (start r isrStubs b).shared,
    Function.update (start r isrStubs b).rest b
      (some ((List.range (smpCpuCount r)).map .wait))⟩

theorem runs_released (hb : Bsp r b) :
    Runs (smp isrStubs) (start r isrStubs b) (released r isrStubs b) := by
  have hrest : (start r isrStubs b).rest b
      = some ((release r ++ [.schedInit]) ++ (List.range (smpCpuCount r)).map .wait) := by
    rw [start_rest, Function.update_self]
    rfl
  refine ahead hb .init hrest fun p hp => ?_
  obtain hp | hp := List.mem_append.mp hp
  · obtain ⟨i, -, hi⟩ := List.mem_map.mp hp
    split at hi <;> cases hi
  · simp at hp

theorem released_goto (hb : Bsp r b) (hc : c < smpCpuCount r) (hne : c ≠ b) :
    (released r isrStubs b).shared.gotoAddress c = true := by
  refine (effects_goto c).mpr (.inr (List.mem_append_left _ (List.mem_map.mpr
    ⟨c, List.mem_range.mpr hc, ?_⟩)))
  rw [hb.isBsp hc, if_neg (by simpa using hne)]

theorem released_rest (hne : c ≠ b) : (released r isrStubs b).rest c = none := by
  rw [released, start_rest, Function.update_idem]
  show Function.update (fun _ => none) b _ c = none
  rw [Function.update_of_ne hne]

/-- The processors that have been let go can come online one after the other. -/
theorem run_online (isrStubs : Nat → Nat) (hb : Bsp r b) {n : Nat} (hn : n ≤ smpCpuCount r) :
    ∃ s, Runs (smp isrStubs) (start r isrStubs b) s
      ∧ s.rest b = (released r isrStubs b).rest b
      ∧ (∀ p < smpCpuCount r, p ≠ b → s.shared.gotoAddress p = true)
      ∧ (∀ p, n ≤ p → p ≠ b → s.rest p = none)
      ∧ ∀ p, p < n ∨ p = b → (s.shared.infos p).online = true := by
  induction n with
  | zero =>
      refine ⟨_, runs_released hb, rfl, fun p hp hne => released_goto hb hp hne,
        fun p _ hne => released_rest hne, fun p hp => ?_⟩
      obtain rfl := hp.resolve_left (Nat.not_lt_zero p)
      refine (effects_online p).mpr (.inl ?_)
      have hbsp := hb.isBsp hb.1
      rw [smpInfos, if_pos hb.1] at hbsp
      show (smpInfos r p).online = true
      rw [smpInfos, if_pos hb.1]
      exact hbsp.trans (decide_eq_true rfl)
  | succ n ih =>
      obtain ⟨s, hr, hrest, hgoto, hidle, honline⟩ := ih (by omega)
      by_cases hnb : n = b
      · refine ⟨s, hr, hrest, hgoto, fun p hp hne => hidle p (by omega) hne, fun p hp => ?_⟩
        exact honline p (by omega)
      · have hnext := enter_ahead hb (by omega) hr (hidle n (Nat.le_refl n) hnb)
          (hgoto n (by omega) hnb) (List.append_nil _).symm wait_notMem_smpApEntry
        refine ⟨⟨effects n (smpApEntry isrStubs n) s.shared, Function.update s.rest n (some [])⟩,
          hnext, ?_, fun p hp hne => ?_, fun p hp hne => ?_, fun p hp => ?_⟩
        · exact (Function.update_of_ne (Ne.symm hnb) ..).trans hrest
        · rw [effects_goto]
          exact .inl (hgoto p hp hne)
        · exact (Function.update_of_ne (by omega) ..).trans (hidle p (by omega) hne)
        · rw [effects_online]
          by_cases hpn : p = n
          · subst hpn
            exact .inr (by simp [smpApEntry])
          · exact .inl (honline p (by omega))

/-- However many processors there are, a run brings them all up. -/
theorem run_ready (isrStubs : Nat → Nat) (hb : Bsp r b) :
    ∃ s, Runs (smp isrStubs) (start r isrStubs b) s ∧ s.rest b = some [] := by
  obtain ⟨s, hr, hrest, -, -, honline⟩ := run_online isrStubs hb (Nat.le_refl _)
  have hwaits : s.rest b = some ((List.range (smpCpuCount r)).map .wait ++ []) := by
    rw [hrest, List.append_nil]
    exact Function.update_self ..
  refine ⟨_, ahead hb hr hwaits fun p hp => ?_, Function.update_self ..⟩
  obtain ⟨i, hi, heq⟩ := List.mem_map.mp hp
  cases heq
  exact honline p (.inl (List.mem_range.mp hi))

theorem effects_closed (c : Nat) (front : List Op) (x : Shared) :
    (effects c (front ++ [.idt kernelOnly]) x).idt 0x80 .flags = 0x8e := by
  rw [effects, List.foldl_append]
  simp [effect, Store.apply]

/-- One processor can come online while another one has just closed the gate
of the system call. -/
theorem run_closed (isrStubs : Nat → Nat) (hb : Bsp r b) {d : Nat} (hc : c < smpCpuCount r) (hd : d < smpCpuCount r)
    (hcb : c ≠ b) (hdb : d ≠ b) (hdc : d ≠ c) :
    ∃ s, Runs (smp isrStubs) (start r isrStubs b) s ∧ s.shared.regs c = readyRegs b c
      ∧ (s.shared.infos c).online = true ∧ s.shared.idt 0x80 .flags = 0x8e := by
  have hmem : kernelOnly ∈ idtInit isrStubs := by
    simp only [idtInit, List.mem_append, List.mem_flatMap, List.mem_range'_1]
    refine .inl (.inr ⟨0x80, by decide, ?_⟩)
    simp [idtSetDesc, IDT_INTERRUPT]
  obtain ⟨sts, more, hsplit⟩ := List.append_of_mem hmem
  have hprog : smpApEntry isrStubs d = (([.vasSwitch, .gdtInitCpu d, .cpuSetCurrent d]
      ++ sts.map .idt) ++ [.idt kernelOnly]) ++ (more.map .idt ++ [.lidt, .schedInit, .online d]) := by
    rw [smpApEntry, hsplit]
    simp
  have h₁ := enter_ahead hb hc (runs_released hb) (released_rest hcb) (released_goto hb hc hcb)
    (List.append_nil (smpApEntry isrStubs c)).symm wait_notMem_smpApEntry
  have h₂ := enter_ahead hb hd h₁
    ((Function.update_of_ne hdc ..).trans (released_rest hdb))
    (by rw [effects_goto]; exact .inl (released_goto hb hd hdb)) hprog (by simp)
  refine ⟨_, h₂, ?_, ?_, effects_closed ..⟩
  · obtain ⟨done, hdone, htrace⟩ := (holds_run hb h₂).trace c []
      ((Function.update_of_ne (Ne.symm hdc) ..).trans (Function.update_self ..))
    rw [List.append_nil] at hdone
    rw [htrace.regs, ← hdone, regs_program hb hc]
  · rw [effects_online, effects_online]
    exact .inl (.inr (by simp [smpApEntry]))

-- ==== an example

/-- Three processors, of which the second one boots. -/
def threeCpus : MpResponse := ⟨3, fun i => ⟨i, i⟩, 1⟩

theorem bsp_threeCpus : Bsp threeCpus 1 := ⟨by decide, fun _ _ => Iff.rfl⟩

/-- Stubs of sixteen bytes each. -/
def stubs (v : Nat) : Nat := 0xffffffff80100000 + 16 * v

/-- The first processor is online and uses the table, and the third one has
filled it in as far as the gate of the system call. It is closed to user mode,
and leads to its stub. -/
theorem gates_stable_filling : ∃ s, Runs (smp stubs) (start threeCpus stubs 1) s
    ∧ (s.shared.regs 0).idtr = true ∧ (s.shared.infos 0).online = true ∧ Filling s
    ∧ s.shared.idt 0x80 = Function.update (gate stubs 0x80) .flags 0x8e
    ∧ idtDescBase (s.shared.idt 0x80) = 0xffffffff80100800 := by
  obtain ⟨s, hr, hregs, honline, hflags⟩ := run_closed stubs bsp_threeCpus (c := 0)
    (d := 2) (by decide) (by decide) (by decide) (by decide) (by decide)
  obtain ⟨hbase, hgate⟩ := gates_stable bsp_threeCpus hr (v := 0x80) (by decide)
  obtain hopen | ⟨-, hclosed, hfilling⟩ := hgate
  · rw [hopen] at hflags
    exact absurd hflags (by decide)
  · exact ⟨s, hr, by rw [hregs]; rfl, honline, hfilling, hclosed, hbase⟩

/-- All three come up; the two that were let go have run `smp_ap_entry` to its
end. -/
theorem smp_ready_three : ∃ s, Runs (smp stubs) (start threeCpus stubs 1) s
    ∧ (∀ c < 3, s.rest c = some [] ∧ s.shared.regs c = readyRegs 1 c
      ∧ s.shared.idleThread c = true ∧ (s.shared.infos c).online = true)
    ∧ ∀ v < 256, s.shared.idt v = gate stubs v := by
  obtain ⟨s, hr, hdone⟩ := run_ready stubs bsp_threeCpus
  obtain ⟨hcpus, hgates⟩ := smp_ready bsp_threeCpus hr hdone
  refine ⟨s, hr, fun c hc => ?_, hgates⟩
  obtain ⟨hregs, -, hidle, honline⟩ := hcpus c hc
  exact ⟨(all_done bsp_threeCpus hr hdone hc).1, hregs, hidle, honline⟩

end Alix.Smp
