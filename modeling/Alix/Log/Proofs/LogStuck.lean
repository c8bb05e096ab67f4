/-
When the log falls silent.

Interrupts are on while `klog_lock` is held, so a handler can come in
between and call the log on the same stack. It then spins above the frame
that would have to drop the lock, and so does everybody else, for ever:
nothing more is stored or sent (`Stuck.runs`, `lock_lost`). Whether the
lock is dropped while the frame that is inside is the topmost one is a
question to the scheduler, and not answered here.
-/
import Alix.Log.Proofs.LogSys

namespace Alix.Log.LogSys

variable {s s' : LogSys} {t u : Nat}

-- ==== stuck

/-- A frame is inside, and another one lies above it. -/
structure Stuck (s : LogSys) : Prop where
  lock : s.lock = true
  buried : ∃ t, ∃ f ∈ (s.frames t).tail, f.sending.isSome = true

/-- Who is inside has nobody inside below, and nobody on another stack. -/
theorem Sending.alone {own : Option (List UInt8)} (h : Sending s own) {g : Frame}
    {below : List Frame} (hf : s.frames u = g :: below) {rest : List UInt8}
    (hg : g.sending = some rest) (t : Nat) : ∀ f ∈ (s.frames t).tail, f.sending = none := by
  have hin : (s.frames u).filterMap Frame.sending = rest :: below.filterMap Frame.sending := by
    rw [hf, List.filterMap_cons_some hg]
  by_cases ht : t = u
  · subst ht
    rw [hf, List.tail_cons]
    exact List.filterMap_eq_nil_iff.mp (h.owned.of_cons hin).2
  · exact fun f hmem => List.filterMap_eq_nil_iff.mp (h.owned.others hin ht) f
      (List.mem_of_mem_tail hmem)

/-- So no frame that is inside is the topmost one. -/
theorem Stuck.top (h : Stuck s) (hinv : LockInv s) {g : Frame} {below : List Frame}
    (hf : s.frames u = g :: below) : g.sending = none := by
  obtain ⟨own, hown⟩ := hinv
  obtain ⟨t, f, hmem, hin⟩ := h.buried
  by_contra hne
  obtain ⟨rest, hg⟩ := Option.ne_none_iff_exists'.mp hne
  rw [hown.alone hf hg t f hmem] at hin
  cases hin

/-- What is put on top leaves it buried. -/
theorem Stuck.push (h : Stuck s) {fs : List Frame} (hlock : s'.lock = s.lock)
    (hframes : s'.frames = Function.update s.frames u fs)
    (hfs : ∀ f ∈ (s.frames u).tail, f ∈ fs.tail) : Stuck s' := by
  obtain ⟨t, f, hmem, hin⟩ := h.buried
  refine ⟨hlock.trans h.lock, t, f, ?_, hin⟩
  rw [hframes]
  by_cases ht : t = u
  · subst ht
    rw [Function.update_self]
    exact hfs f hmem
  · rwa [Function.update_of_ne ht]

/-- Nothing more is stored and nothing is sent. -/
theorem Stuck.moved (h : Stuck s) (hinv : LockInv s) (hm : Moved s s') :
    Stuck s' ∧ s'.wire = s.wire ∧ s'.written = s.written := by
  cases hm with
  | call t draft hon => exact ⟨h.push rfl rfl fun f hf => List.mem_of_mem_tail hf, rfl, rfl⟩
  | stay => exact ⟨h, rfl, rfl⟩
  | lock hf hfree =>
      rw [h.lock] at hfree
      cases hfree
  | store hf => exact absurd (h.top hinv hf) (by simp [Frame.sending])
  | putc hf => exact absurd (h.top hinv hf) (by simp [Frame.sending])
  | unlock hf => exact absurd (h.top hinv hf) (by simp [Frame.sending])
  | init hquiet =>
      obtain ⟨t, f, hmem, -⟩ := h.buried
      rw [hquiet t] at hmem
      cases hmem
  | vkpanic t report => exact ⟨h.push rfl rfl fun f hf => List.mem_of_mem_tail hf, rfl, rfl⟩
  | panicLock hf hfree =>
      refine ⟨h.push rfl rfl fun f hmem => ?_, rfl, rfl⟩
      rwa [hf] at hmem
  | report hf =>
      refine ⟨h.push rfl rfl fun f hmem => ?_, rfl, rfl⟩
      rw [hf] at hmem
      exact List.mem_cons_of_mem _ hmem

theorem Stuck.runs (h : Stuck s) (hinv : LockInv s) (hruns : Runs s s') :
    s'.lock = true ∧ s'.wire = s.wire ∧ s'.written = s.written := by
  have hall : LockInv s' ∧ Stuck s' ∧ s'.wire = s.wire ∧ s'.written = s.written := by
    refine hruns.keeps (P := fun x => LockInv x ∧ Stuck x ∧ x.wire = s.wire
      ∧ x.written = s.written) ?_ ⟨hinv, h, rfl, rfl⟩
    rintro x x' ⟨hx, hstuck, hwire, hwritten⟩ hm
    obtain ⟨hstuck', hwire', hwritten'⟩ := hstuck.moved hx hm
    exact ⟨hx.moved hm, hstuck', hwire'.trans hwire, hwritten'.trans hwritten⟩
  exact ⟨hall.2.1.lock, hall.2.2⟩

-- ==== for good

/-- A held lock whose frame is not the topmost one of its stack is held for
ever: whatever steps follow, nothing is stored or sent any more. -/
theorem lock_lost (slot : Nat → Record) (h : Runs (boot slot) s) (hl : s.lock = true)
    (htop : ¬ ∃ t f below, s.frames t = f :: below ∧ f.sending.isSome = true)
    (h' : Runs s s') : s'.lock = true ∧ s'.wire = s.wire ∧ s'.written = s.written := by
  have hinv := (runs_inv h).1
  have hstuck : Stuck s := by
    obtain ⟨own, hown⟩ := hinv
    cases own with
    | none => exact absurd (hown.lock.symm.trans hl) (by decide)
    | some rest =>
        obtain ⟨t, above, f, below, hf, hin, -⟩ := hown.owned.exists_inside
        have hsome : f.sending.isSome = true := by rw [hin]; rfl
        cases above with
        | nil => exact absurd ⟨t, f, below, hf, hsome⟩ htop
        | cons g above =>
            refine ⟨hl, t, f, ?_, hsome⟩
            rw [hf]
            exact List.mem_append_right _ List.mem_cons_self
  exact hstuck.runs hinv h'

/-- A message, interrupted by a handler that logs: neither is ever stored,
and no message of another context either. -/
theorem lock_lost_interrupted : ∃ s, Runs (boot fun _ => { hello with seq := 0 }) s
    ∧ s.issued.length = 2
    ∧ ∀ s', Runs s s' → s'.lock = true ∧ s'.wire = [] ∧ s'.written = [] := by
  let s₀ := boot fun _ => { hello with seq := 0 }
  let s₁ := s₀.enter 0 hello false []
  let s₂ := { s₁ with lock := true }.setFrames 0 [.store ⟨0, hello, false⟩]
  let s₃ := s₂.enter 0 hello false (s₂.frames 0)
  have hnone : ∀ f ∈ ([] : List Frame), f.panics = false := fun _ hf => nomatch hf
  have h₁ : Next s₀ s₁ := ⟨.call 0 hello, hnone, rfl⟩
  have h₂ : Next s₁ s₂ := ⟨.tryLock 0, trivial, rfl⟩
  have h₃ : Next s₂ s₃ := ⟨.call 0 hello, List.forall_mem_cons.mpr ⟨rfl, hnone⟩, rfl⟩
  have hruns : Runs s₀ s₃ := ((Relation.ReflTransGen.single h₁).tail h₂).tail h₃
  have htop : ¬ ∃ t f below, s₃.frames t = f :: below ∧ f.sending.isSome = true := by
    rintro ⟨t, f, below, hf, hin⟩
    cases t with
    | zero =>
        obtain ⟨rfl, -⟩ := List.cons.inj hf
        cases hin
    | succ t => cases hf
  exact ⟨s₃, hruns, rfl, fun s' h' => lock_lost _ hruns rfl htop h'⟩

end Alix.Log.LogSys
