/-
Every line on the wire is one call's, whole.

`Moved` says once what a step can do. Two invariants stand on it, and both
are about who is inside: `LockInv` of the section behind `klog_lock`, which
owns the characters that are still to send, and `CallInv` of each call, of
which one frame at most has still to store it.

The calls are stored one by one, each at a moment between its start and
its return, and the wire has their lines in that order
(`log_linearizable`): no line is lost, sent twice, or mixed with another,
whatever interrupts whom.
-/
import Alix.Log.LogSys
import Alix.Log.Proofs.Klog
import Alix.Lib.SpinLock

namespace Alix.Log

open Alix.Klib (chars)
open SpinLock (Owned)

-- ==== frames

namespace Frame

/-- The characters that a frame inside the section has to send, once it has
stored its record. -/
def sending : Frame → Option (List UInt8)
  | .store _ => some []
  | .emit _ rest => some rest
  | .spin _ | .panicSpin _ | .panic _ => none

/-- The call that a frame has still to store. -/
def pending : Frame → Option Call
  | .spin k | .store k => some k
  | .emit _ _ | .panicSpin _ | .panic _ => none

/-- The call that a frame is in. -/
def call : Frame → Option Call
  | .spin k | .store k | .emit k _ => some k
  | .panicSpin _ | .panic _ => none

theorem pending_spin (k : Call) (fs : List Frame) :
    (spin k :: fs).filterMap pending = k :: fs.filterMap pending := rfl

theorem pending_store (k : Call) (fs : List Frame) :
    (store k :: fs).filterMap pending = k :: fs.filterMap pending := rfl

theorem call_of_pending {f : Frame} {k : Call} (h : f.pending = some k) : f.call = some k := by
  cases f with
  | spin | store => exact h
  | emit | panicSpin | panic => cases h

/-- The frame that has still to store a certain call. -/
def waits (i : Nat) (f : Frame) : Option Call := f.pending.filter fun k : Call => k.id = i

end Frame

theorem filterMap_waits (i : Nat) (fs : List Frame) :
    fs.filterMap (Frame.waits i)
      = (fs.filterMap Frame.pending).filter fun k : Call => k.id = i :=
  (List.filter_filterMap ..).symm

namespace LogSys

variable {s s' s'' : LogSys} {t : Nat}

-- ==== a step

/-- What a step does. -/
inductive Moved (s : LogSys) : LogSys → Prop
  | call (t : Nat) (draft : Draft) (hon : ∀ f ∈ s.frames t, f.panics = false) :
      Moved s (s.enter t draft false (s.frames t))
  /-- an exchange that gets nothing -/
  | stay : Moved s s
  | lock {t : Nat} {k : Call} {below : List Frame} (hf : s.frames t = .spin k :: below)
      (hfree : s.lock = false) :
      Moved s ({ s with lock := true }.setFrames t (.store k :: below))
  | store {t : Nat} {k : Call} {below : List Frame} (hf : s.frames t = .store k :: below) :
      Moved s ({ s with
        klog := s.klog.store k.draft
        written := s.written ++ [k] }.setFrames t (.emit k (lineText k.draft) :: below))
  | putc {t : Nat} {k : Call} {c : UInt8} {rest : List UInt8} {below : List Frame}
      (hf : s.frames t = .emit k (c :: rest) :: below) :
      Moved s ({ s with wire := s.wire ++ [c] }.setFrames t (.emit k rest :: below))
  | unlock {t : Nat} {k : Call} {below : List Frame} (hf : s.frames t = .emit k [] :: below) :
      Moved s ({ s with lock := false }.setFrames t below)
  | init (hquiet : ∀ t, s.frames t = []) :
      Moved s { s with klog := s.klog.klogInit, mark := s.written.length }
  | vkpanic (t : Nat) (report : List Draft) :
      Moved s (s.setFrames t (.panicSpin report :: s.frames t))
  | panicLock {t : Nat} {report : List Draft} {below : List Frame}
      (hf : s.frames t = .panicSpin report :: below) (hfree : s.panicLock = false) :
      Moved s ({ s with panicLock := true, winner := some report }.setFrames t
        (.panic report :: below))
  | report {t : Nat} {draft : Draft} {rest : List Draft} {below : List Frame}
      (hf : s.frames t = .panic (draft :: rest) :: below) :
      Moved s (s.enter t draft true (.panic rest :: below))

/-- A step is one of the moves. -/
theorem moved_of_step {a : Act} (hmay : s.May a) (h : s.step a = some s') : Moved s s' := by
  cases a with
  | call t draft =>
      obtain rfl := Option.some.inj h
      exact .call t draft hmay
  | tryLock t =>
      simp only [step] at h
      split at h
      · rename_i k below hf
        split at h
        · obtain rfl := Option.some.inj h
          exact .stay
        · rename_i hfree
          obtain rfl := Option.some.inj h
          exact .lock hf (Bool.eq_false_iff.mpr hfree)
      · cases h
  | store t junk =>
      simp only [step] at h
      split at h
      · rename_i k below hf
        obtain rfl := Option.some.inj h
        rw [klogEmit_text]
        exact .store hf
      · cases h
  | putc t =>
      simp only [step] at h
      split at h
      · rename_i k c rest below hf
        obtain rfl := Option.some.inj h
        exact .putc hf
      · cases h
  | unlock t =>
      simp only [step] at h
      split at h
      · rename_i k below hf
        obtain rfl := Option.some.inj h
        exact .unlock hf
      · cases h
  | klogInit =>
      obtain rfl := Option.some.inj h
      exact .init hmay
  | vkpanic t report =>
      obtain rfl := Option.some.inj h
      exact .vkpanic t report
  | tryPanicLock t =>
      simp only [step] at h
      split at h
      · rename_i report below hf
        split at h
        · obtain rfl := Option.some.inj h
          exact .stay
        · rename_i hfree
          obtain rfl := Option.some.inj h
          exact .panicLock hf (Bool.eq_false_iff.mpr hfree)
      · cases h
  | report t =>
      simp only [step] at h
      split at h
      · rename_i draft rest below hf
        obtain rfl := Option.some.inj h
        exact .report hf
      · cases h

theorem Next.moved (h : Next s s') : Moved s s' :=
  let ⟨_, hmay, hstep⟩ := h
  moved_of_step hmay hstep

/-- What every step keeps, every run does. -/
theorem Runs.keeps {P : LogSys → Prop} (hP : ∀ {s s' : LogSys}, P s → Moved s s' → P s')
    (hs : P s) (h : Runs s s') : P s' := by
  induction h with
  | refl => exact hs
  | tail _ hnext ih => exact hP ih hnext.moved

-- ==== the lock

/-- The lock is held while a frame is inside, and what that frame has to
send is what the wire lacks. It is the end of the last line. -/
structure Sending (s : LogSys) (own : Option (List UInt8)) : Prop where
  owned : Owned Frame.sending s.frames own
  lock : s.lock = own.isSome
  wire : s.wire ++ own.getD [] = s.written.flatMap fun k => lineText k.draft
  line : own.getD [] = [] ∨ ∃ k, s.written.getLast? = some k ∧ own.getD [] <:+ lineText k.draft

def LockInv (s : LogSys) : Prop := ∃ own, Sending s own

/-- A step that is not about the section. -/
theorem Sending.keep {own : Option (List UInt8)} (h : Sending s own) {fs : List Frame}
    (hframes : s'.frames = Function.update s.frames t fs)
    (hfs : fs.filterMap Frame.sending = (s.frames t).filterMap Frame.sending)
    (hlock : s'.lock = s.lock) (hwire : s'.wire = s.wire)
    (hwritten : s'.written = s.written) : Sending s' own where
  owned := hframes ▸ h.owned.keep hfs
  lock := hlock.trans h.lock
  wire := by rw [hwire, hwritten, h.wire]
  line := by rw [hwritten]; exact h.line

/-- Every move keeps the lock with its owner. -/
theorem LockInv.moved (h : LockInv s) (hm : Moved s s') : LockInv s' := by
  obtain ⟨own, h⟩ := h
  cases hm with
  | call t draft hon => exact ⟨own, h.keep rfl rfl rfl rfl rfl⟩
  | stay => exact ⟨own, h⟩
  | lock hf hfree =>
      rename_i t k below
      obtain rfl : own = none := by
        cases own with
        | none => rfl
        | some rest => exact absurd (h.lock.symm.trans hfree) Bool.true_eq_false.mp
      have hout : below.filterMap Frame.sending = [] := by
        have := h.owned t
        rwa [hf] at this
      exact ⟨some [], h.owned.enter (congrArg (_ :: ·) hout), rfl, h.wire, .inl rfl⟩
  | store hf =>
      rename_i t k below
      have hin : (s.frames t).filterMap Frame.sending = [] :: below.filterMap Frame.sending := by
        rw [hf]
        rfl
      obtain ⟨rfl, hbelow⟩ := h.owned.of_cons hin
      refine ⟨some (lineText k.draft),
        h.owned.change hin (congrArg (_ :: ·) hbelow), h.lock, ?_,
        .inr ⟨k, List.getLast?_concat .., List.suffix_refl _⟩⟩
      have hw : s.wire = s.written.flatMap fun k => lineText k.draft :=
        (List.append_nil _).symm.trans h.wire
      show s.wire ++ lineText k.draft = _
      rw [hw]
      simp [setFrames]
  | putc hf =>
      rename_i t k c rest below
      have hin : (s.frames t).filterMap Frame.sending
          = (c :: rest) :: below.filterMap Frame.sending := by
        rw [hf]
        rfl
      obtain ⟨rfl, hbelow⟩ := h.owned.of_cons hin
      refine ⟨some rest, h.owned.change hin (congrArg (_ :: ·) hbelow),
        h.lock, ?_, ?_⟩
      · show s.wire ++ [c] ++ rest = _
        rw [List.append_assoc]
        exact h.wire
      · obtain hnil | ⟨k', hlast, hsuf⟩ := h.line
        · cases hnil
        · exact .inr ⟨k', hlast, (List.suffix_cons c rest).trans hsuf⟩
  | unlock hf =>
      rename_i t k below
      have hin : (s.frames t).filterMap Frame.sending = [] :: below.filterMap Frame.sending := by
        rw [hf]
        rfl
      obtain ⟨rfl, hbelow⟩ := h.owned.of_cons hin
      exact ⟨none, h.owned.leave hin hbelow, rfl, h.wire, .inl rfl⟩
  | init hquiet => exact ⟨own, h.owned, h.lock, h.wire, h.line⟩
  | vkpanic t report => exact ⟨own, h.keep rfl rfl rfl rfl rfl⟩
  | panicLock hf hfree =>
      exact ⟨own, h.keep rfl (by rw [hf]; rfl) rfl rfl rfl⟩
  | report hf => exact ⟨own, h.keep rfl (by rw [hf]; rfl) rfl rfl rfl⟩

theorem lockInv_boot (slot : Nat → Record) : LockInv (boot slot) :=
  ⟨none, fun _ => rfl, rfl, rfl, .inl rfl⟩

-- ==== the calls

/-- Of each call that has been made, one frame has still to store it, or it
has been stored. -/
structure CallInv (s : LogSys) : Prop where
  ids : ∀ (i : Nat) (k : Call), s.issued[i]? = some k → k.id = i
  pending : ∀ t, ∀ k ∈ (s.frames t).filterMap Frame.pending, k ∈ s.issued
  written : ∀ k ∈ s.written, k ∈ s.issued
  nodup : (s.written.map Call.id).Nodup
  token : ∀ i, ∃ own, Owned (Frame.waits i) s.frames own
    ∧ (own.isSome ↔ i < s.issued.length ∧ i ∉ s.written.map Call.id)

theorem CallInv.id_lt (h : CallInv s) {k : Call} (hk : k ∈ s.issued) : k.id < s.issued.length := by
  obtain ⟨i, hi, rfl⟩ := List.mem_iff_getElem.mp hk
  rw [h.ids i _ (List.getElem?_eq_getElem hi)]
  exact hi

theorem CallInv.eq_of_id (h : CallInv s) {k k' : Call} (hk : k ∈ s.issued) (hk' : k' ∈ s.issued)
    (hid : k.id = k'.id) : k = k' := by
  obtain ⟨i, hi⟩ := List.mem_iff_getElem?.mp hk
  obtain ⟨j, hj⟩ := List.mem_iff_getElem?.mp hk'
  obtain rfl : i = j := by rw [← h.ids i k hi, ← h.ids j k' hj, hid]
  exact Option.some.inj (hi.symm.trans hj)

/-- A step that makes no call and stores none. -/
theorem CallInv.keep (h : CallInv s) {fs : List Frame}
    (hframes : s'.frames = Function.update s.frames t fs)
    (hfs : fs.filterMap Frame.pending = (s.frames t).filterMap Frame.pending)
    (hissued : s'.issued = s.issued)
    (hwritten : s'.written = s.written) : CallInv s' where
  ids := by rw [hissued]; exact h.ids
  pending := by
    intro u k hk
    rw [hissued]
    rw [hframes] at hk
    by_cases hu : u = t
    · subst hu
      rw [Function.update_self, hfs] at hk
      exact h.pending u k hk
    · rw [Function.update_of_ne hu] at hk
      exact h.pending u k hk
  written := by rw [hwritten, hissued]; exact h.written
  nodup := by rw [hwritten]; exact h.nodup
  token := by
    intro i
    obtain ⟨own, howned, hiff⟩ := h.token i
    refine ⟨own, ?_, by rw [hwritten, hissued]; exact hiff⟩
    rw [hframes]
    exact howned.keep (by rw [filterMap_waits, filterMap_waits, hfs])

/-- A call. -/
theorem CallInv.enter (h : CallInv s) (t : Nat) (draft : Draft) (report : Bool)
    {below : List Frame}
    (hbelow : below.filterMap Frame.pending = (s.frames t).filterMap Frame.pending) :
    CallInv (s.enter t draft report below) where
  ids := by
    intro i k hk
    rcases Nat.lt_trichotomy i s.issued.length with hlt | heq | hgt
    · exact h.ids i k ((List.getElem?_append_left hlt).symm.trans hk)
    · subst heq
      rw [show (s.enter t draft report below).issued[s.issued.length]? = some _ from
        List.getElem?_concat_length ..] at hk
      exact (congrArg Call.id (Option.some.inj hk)).symm
    · have hnone : (s.enter t draft report below).issued[i]? = none :=
        List.getElem?_eq_none (by
          show (s.issued ++ [_]).length ≤ i
          rw [List.length_append, List.length_singleton]
          exact hgt)
      rw [hnone] at hk
      cases hk
  pending := by
    intro u k hk
    show k ∈ s.issued ++ [_]
    by_cases hu : u = t
    · subst hu
      rw [show (s.enter u draft report below).frames u = _ from Function.update_self ..,
        Frame.pending_spin, hbelow] at hk
      rcases List.mem_cons.mp hk with rfl | hk
      · exact List.mem_append_right _ List.mem_cons_self
      · exact List.mem_append_left _ (h.pending u k hk)
    · rw [show (s.enter t draft report below).frames u = s.frames u from
        Function.update_of_ne hu ..] at hk
      exact List.mem_append_left _ (h.pending u k hk)
  written := fun k hk => List.mem_append_left _ (h.written k hk)
  nodup := h.nodup
  token := by
    intro i
    obtain ⟨own, howned, hiff⟩ := h.token i
    have hlen : (s.enter t draft report below).issued.length = s.issued.length + 1 :=
      List.length_append.trans (congrArg _ List.length_singleton)
    rw [hlen, show (s.enter t draft report below).written = s.written from rfl]
    by_cases hi : i = s.issued.length
    · -- its own token, which nobody had
      subst hi
      obtain rfl : own = none := by
        cases own with
        | none => rfl
        | some k => exact absurd (hiff.mp rfl).1 (Nat.lt_irrefl _)
      have hout := howned t
      rw [filterMap_waits, ← hbelow, ← filterMap_waits] at hout
      refine ⟨some ⟨s.issued.length, draft, report⟩, howned.enter ?_, ?_⟩
      · rw [List.filterMap_cons_some (b := ⟨s.issued.length, draft, report⟩)
          (by simp [Frame.waits, Frame.pending]), hout]
      · refine iff_of_true rfl ⟨Nat.lt_succ_self _, fun hmem => ?_⟩
        obtain ⟨k, hk, hid⟩ := List.mem_map.mp hmem
        exact absurd (h.id_lt (h.written k hk)) (by omega)
    · refine ⟨own, howned.keep ?_, hiff.trans (and_congr_left fun _ => by omega)⟩
      rw [filterMap_waits, filterMap_waits, ← hbelow, Frame.pending_spin,
        List.filter_cons_of_neg (by simpa using Ne.symm hi)]

/-- The record is stored. -/
theorem CallInv.store (h : CallInv s) {k : Call} {below : List Frame}
    (hf : s.frames t = .store k :: below) {fs : List Frame}
    (hframes : s'.frames = Function.update s.frames t fs)
    (hfs : fs.filterMap Frame.pending = below.filterMap Frame.pending)
    (hissued : s'.issued = s.issued)
    (hwritten : s'.written = s.written ++ [k]) : CallInv s' := by
  have hpend : (s.frames t).filterMap Frame.pending = k :: below.filterMap Frame.pending := by
    rw [hf, Frame.pending_store]
  have hk : k ∈ s.issued := h.pending t k (by rw [hpend]; exact List.mem_cons_self)
  have hwait : (s.frames t).filterMap (Frame.waits k.id)
      = k :: below.filterMap (Frame.waits k.id) := by
    rw [hf, List.filterMap_cons_some (b := k) (by simp [Frame.waits, Frame.pending])]
  obtain ⟨own, howned, hiff⟩ := h.token k.id
  obtain ⟨rfl, hlast⟩ := howned.of_cons hwait
  have hnew : k.id ∉ s.written.map Call.id := (hiff.mp rfl).2
  exact
    { ids := by rw [hissued]; exact h.ids
      pending := by
        intro u k' hk'
        rw [hissued]
        rw [hframes] at hk'
        by_cases hu : u = t
        · subst hu
          rw [Function.update_self, hfs] at hk'
          exact h.pending u k' (by rw [hpend]; exact List.mem_cons_of_mem k hk')
        · rw [Function.update_of_ne hu] at hk'
          exact h.pending u k' hk'
      written := by
        intro k' hk'
        rw [hissued]
        rw [hwritten] at hk'
        rcases List.mem_append.mp hk' with hk' | hk'
        · exact h.written k' hk'
        · obtain rfl := List.mem_singleton.mp hk'
          exact hk
      nodup := by
        rw [hwritten, List.map_append]
        refine List.nodup_append.mpr ⟨h.nodup, List.nodup_singleton _, fun a ha b hb => ?_⟩
        obtain rfl := List.mem_singleton.mp hb
        exact fun heq => hnew (heq ▸ ha)
      token := by
        intro i
        rw [hissued, hwritten, hframes, List.map_append, List.map_singleton]
        by_cases hi : i = k.id
        · subst hi
          refine ⟨none, howned.leave hwait (by rw [filterMap_waits, hfs, ← filterMap_waits, hlast]),
            iff_of_false (by simp) fun hcon => hcon.2 ?_⟩
          exact List.mem_append_right _ List.mem_cons_self
        · obtain ⟨own', howned', hiff'⟩ := h.token i
          refine ⟨own', howned'.keep ?_, hiff'.trans (and_congr_right fun _ => ?_)⟩
          · rw [filterMap_waits, filterMap_waits, hfs, hpend,
              List.filter_cons_of_neg (by simpa using Ne.symm hi)]
          · rw [List.mem_append, List.mem_singleton, or_iff_left hi] }

theorem CallInv.moved (h : CallInv s) (hm : Moved s s') : CallInv s' := by
  cases hm with
  | call t draft hon => exact h.enter t draft false rfl
  | stay => exact h
  | lock hf hfree => exact h.keep rfl (by rw [hf]; rfl) rfl rfl
  | store hf => exact h.store hf rfl rfl rfl rfl
  | putc hf => exact h.keep rfl (by rw [hf]; rfl) rfl rfl
  | unlock hf => exact h.keep rfl (by rw [hf]; rfl) rfl rfl
  | init hquiet => exact ⟨h.ids, h.pending, h.written, h.nodup, h.token⟩
  | vkpanic t report => exact h.keep rfl rfl rfl rfl
  | panicLock hf hfree => exact h.keep rfl (by rw [hf]; rfl) rfl rfl
  | report hf => exact h.enter _ _ true (by rw [hf]; rfl)

theorem callInv_boot (slot : Nat → Record) : CallInv (boot slot) where
  ids := fun _ _ h => by cases h
  pending := fun _ _ h => by cases h
  written := fun _ h => by cases h
  nodup := List.nodup_nil
  token := fun _ => ⟨none, fun _ => rfl, iff_of_false (by simp) fun h => absurd h.1 (by simp [boot])⟩


-- ==== the order

/-- Nothing is taken back. -/
structure Grown (s s' : LogSys) : Prop where
  issued : s.issued <+: s'.issued
  written : s.written <+: s'.written
  wire : s.wire <+: s'.wire

theorem Grown.rfl : Grown s s := ⟨List.prefix_rfl, List.prefix_rfl, List.prefix_rfl⟩

theorem Grown.moved (h : Grown s s') (hm : Moved s' s'') : Grown s s'' := by
  have hstep : Grown s' s'' := by
    cases hm with
    | call => exact ⟨List.prefix_append .., List.prefix_rfl, List.prefix_rfl⟩
    | store => exact ⟨List.prefix_rfl, List.prefix_append .., List.prefix_rfl⟩
    | putc => exact ⟨List.prefix_rfl, List.prefix_rfl, List.prefix_append ..⟩
    | report => exact ⟨List.prefix_append .., List.prefix_rfl, List.prefix_rfl⟩
    | stay | lock | unlock | init | vkpanic | panicLock =>
        exact ⟨List.prefix_rfl, List.prefix_rfl, List.prefix_rfl⟩
  exact ⟨h.issued.trans hstep.issued, h.written.trans hstep.written, h.wire.trans hstep.wire⟩

/-- A call that has been made, and that no context is in any more. -/
structure Returned (s : LogSys) (k : Call) : Prop where
  issued : k ∈ s.issued
  out : ∀ t, ∀ f ∈ s.frames t, f.call ≠ some k

theorem CallInv.returned (h : CallInv s) {k : Call} (hr : s.Returned k) : k ∈ s.written := by
  obtain ⟨own, howned, hiff⟩ := h.token k.id
  cases own with
  | none =>
      have hmem : k.id ∈ s.written.map Call.id := by
        by_contra hout
        exact absurd (hiff.mpr ⟨h.id_lt hr.issued, hout⟩) (by decide)
      obtain ⟨k', hk', hid⟩ := List.mem_map.mp hmem
      rwa [← h.eq_of_id (h.written k' hk') hr.issued hid]
  | some k' =>
      -- a frame has still to store it, so it has not returned
      obtain ⟨t, above, f, below, hf, hwait, -⟩ := howned.exists_inside
      obtain ⟨hpend, hid⟩ := Option.filter_eq_some_iff.mp hwait
      have hmem : f ∈ s.frames t := by
        rw [hf]
        exact List.mem_append_right _ List.mem_cons_self
      have hissued := h.pending t k' (List.mem_filterMap.mpr ⟨f, hmem, hpend⟩)
      obtain rfl := h.eq_of_id hissued hr.issued (of_decide_eq_true hid)
      exact absurd (Frame.call_of_pending hpend) (hr.out t f hmem)

/-- The wire has the lines of the calls, one after the other, each once,
the last one perhaps not to its end; and what has returned is there. -/
structure Serial (s : LogSys) : Prop where
  wire : ∃ whole cur sent, s.written = whole ++ cur ∧ cur.length ≤ 1
    ∧ (s.lock = false → cur = [])
    ∧ s.wire = (whole.flatMap fun k => lineText k.draft) ++ sent
    ∧ sent <+: cur.flatMap fun k => lineText k.draft
  once : s.written.Nodup
  made : ∀ k ∈ s.written, k ∈ s.issued
  kept : ∀ k, s.Returned k → k ∈ s.written

theorem LockInv.wire (h : LockInv s) : ∃ whole cur sent, s.written = whole ++ cur
    ∧ cur.length ≤ 1 ∧ (s.lock = false → cur = [])
    ∧ s.wire = (whole.flatMap fun k => lineText k.draft) ++ sent
    ∧ sent <+: cur.flatMap fun k => lineText k.draft := by
  obtain ⟨own, h⟩ := h
  rcases h.line with hnil | ⟨k, hlast, hsuf⟩
  · have hw := h.wire
    rw [hnil, List.append_nil] at hw
    exact ⟨s.written, [], [], (List.append_nil _).symm, Nat.zero_le 1, fun _ => rfl,
      by rw [hw, List.append_nil], List.prefix_rfl⟩
  · obtain ⟨whole, hwritten⟩ := List.getLast?_eq_some_iff.mp hlast
    obtain ⟨sent, hline⟩ := hsuf
    have hw := h.wire
    rw [hwritten, List.flatMap_append, List.flatMap_singleton, ← hline, ← List.append_assoc] at hw
    have hsent := List.append_cancel_right hw
    by_cases hfree : s.lock = false
    · -- the lock is free, so the line is whole
      obtain rfl : own = none := by
        cases own with
        | none => rfl
        | some rest => exact absurd (h.lock.symm.trans hfree) Bool.true_eq_false.mp
      rw [Option.getD_none, List.append_nil] at hline
      exact ⟨s.written, [], [], (List.append_nil _).symm, Nat.zero_le 1, fun _ => rfl,
        by rw [hsent, hwritten, hline]; simp, List.prefix_rfl⟩
    · exact ⟨whole, [k], sent, hwritten, Nat.le_refl 1, fun h => absurd h hfree, hsent, by
        rw [List.flatMap_singleton, ← hline]
        exact List.prefix_append ..⟩

theorem runs_inv {slot : Nat → Record} (h : Runs (boot slot) s) : LockInv s ∧ CallInv s :=
  ⟨h.keeps LockInv.moved (lockInv_boot slot), h.keeps CallInv.moved (callInv_boot slot)⟩

/-- Whatever interrupts whom, the wire has each call's line once and whole,
one after the other, and a call that returned before another one was made
comes before it. -/
theorem log_linearizable (slot : Nat → Record) (h : Runs (boot slot) s) (h' : Runs s s') :
    s'.Serial ∧ s.wire <+: s'.wire
      ∧ ∀ j k, s.Returned j → k ∉ s.issued → k ∈ s'.written →
        ∃ front mid back, s'.written = front ++ j :: mid ++ k :: back := by
  obtain ⟨hlock, hcall⟩ := runs_inv (h.trans h')
  have hgrown : Grown s s' := h'.keeps Grown.moved Grown.rfl
  refine ⟨⟨hlock.wire, List.Nodup.of_map _ hcall.nodup, hcall.written,
    fun k => hcall.returned⟩, hgrown.wire, fun j k hj hk hk' => ?_⟩
  obtain ⟨new, hnew⟩ := hgrown.written
  obtain ⟨front, mid, hold⟩ := List.append_of_mem ((runs_inv h).2.returned hj)
  have hmem : k ∈ new := by
    rw [← hnew] at hk'
    exact (List.mem_append.mp hk').resolve_left fun hin => hk ((runs_inv h).2.written k hin)
  obtain ⟨mid', back, hback⟩ := List.append_of_mem hmem
  exact ⟨front, mid ++ mid', back, by rw [← hnew, hold, hback]; simp⟩

-- ==== a whole call

/-- The topmost frame sends what is left, and drops the lock. -/
theorem runs_emit {k : Call} {rest : List UInt8} {below : List Frame}
    (hf : s.frames t = .emit k rest :: below) :
    Runs s ({ s with wire := s.wire ++ rest, lock := false }.setFrames t below) := by
  induction rest generalizing s with
  | nil =>
      have hstep : s.step (.unlock t) = some ({ s with lock := false }.setFrames t below) := by
        simp only [step, hf]
      rw [List.append_nil]
      exact .single ⟨.unlock t, trivial, hstep⟩
  | cons c rest ih =>
      have hstep : s.step (.putc t)
          = some ({ s with wire := s.wire ++ [c] }.setFrames t (.emit k rest :: below)) := by
        simp only [step, hf]
      have hrest := ih (s := { s with wire := s.wire ++ [c] }.setFrames t (.emit k rest :: below))
        (Function.update_self ..)
      simp only [setFrames, Function.update_idem, List.append_assoc, List.singleton_append]
        at hrest
      exact .head ⟨.putc t, trivial, hstep⟩ hrest

/-- A call has been stored and its line sent. -/
def logged (s : LogSys) (k : Call) : LogSys :=
  { s with
    klog := s.klog.store k.draft
    written := s.written ++ [k]
    wire := s.wire ++ lineText k.draft
    lock := false }

/-- A call that finds the lock free and that nothing interrupts runs to its
end. -/
theorem runs_logged {k : Call} {below : List Frame} (hf : s.frames t = .spin k :: below)
    (hfree : s.lock = false) : Runs s ((s.logged k).setFrames t below) := by
  have hlock : Next s ({ s with lock := true }.setFrames t (.store k :: below)) :=
    ⟨.tryLock t, trivial, by simp only [step, hf, hfree]; rfl⟩
  have hstore : Next ({ s with lock := true }.setFrames t (.store k :: below))
      ({ s with lock := true, klog := s.klog.store k.draft, written := s.written ++ [k] }.setFrames
        t (.emit k (lineText k.draft) :: below)) := by
    refine ⟨.store t fun _ => 0, trivial, ?_⟩
    simp only [step, setFrames, Function.update_self, Function.update_idem, klogEmit_text]
  have hsend := runs_emit (s := { s with
      lock := true
      klog := s.klog.store k.draft
      written := s.written ++ [k] }.setFrames t (.emit k (lineText k.draft) :: below))
    (Function.update_self ..)
  simp only [setFrames, Function.update_idem] at hsend
  exact .head hlock (.head hstore hsend)

/-- A first message. -/
def hello : Draft := kvlogWriteImpl (fun _ => 0) 1500000 none none ⟨fun _ => 0, fun _ => []⟩

/-- A later one. -/
def tick : Draft := kvlogWriteImpl (fun _ => 0) 2500000 none none ⟨fun _ => 0, fun _ => []⟩

/-- A message that is about to take the lock is interrupted by a handler
that logs on the same stack and returns; then another context logs. The
third call stands behind the one that had returned. -/
theorem log_linearizable_interrupted : ∃ s s', Runs (boot fun _ => { hello with seq := 0 }) s
    ∧ Runs s s' ∧ s.frames 0 = [.spin ⟨0, hello, false⟩]
    ∧ s.wire = chars "[    2.500] kernel: \r\n"
    ∧ s'.wire = chars "[    2.500] kernel: \r\n[    1.500] kernel: \r\n[    2.500] kernel: \r\n"
    ∧ s'.written.map Call.id = [1, 0, 2] ∧ s'.Serial
    ∧ ∃ front mid back,
      s'.written = front ++ ⟨1, tick, false⟩ :: mid ++ ⟨2, tick, false⟩ :: back := by
  let s₀ := boot fun _ => { hello with seq := 0 }
  let s₁ := s₀.enter 0 hello false []
  let s₂ := s₁.enter 0 tick false (s₁.frames 0)
  let s₃ := (s₂.logged ⟨1, tick, false⟩).setFrames 0 [.spin ⟨0, hello, false⟩]
  let s₄ := s₃.enter 1 tick false []
  let s₅ := (s₄.logged ⟨0, hello, false⟩).setFrames 0 []
  let s₆ := (s₅.logged ⟨2, tick, false⟩).setFrames 1 []
  have hnone : ∀ f ∈ ([] : List Frame), f.panics = false := fun _ hf => nomatch hf
  have h₁ : Next s₀ s₁ := ⟨.call 0 hello, hnone, rfl⟩
  have h₂ : Next s₁ s₂ := ⟨.call 0 tick, List.forall_mem_cons.mpr ⟨rfl, hnone⟩, rfl⟩
  have h₃ : Runs s₂ s₃ := runs_logged rfl rfl
  have h₄ : Next s₃ s₄ := ⟨.call 1 tick, hnone, rfl⟩
  have h₅ : Runs s₄ s₅ := runs_logged rfl rfl
  have h₆ : Runs s₅ s₆ := runs_logged rfl rfl
  have hfront : Runs s₀ s₃ := .head h₁ (.head h₂ h₃)
  have hback : Runs s₃ s₆ := .head h₄ (h₅.trans h₆)
  obtain ⟨hserial, -, horder⟩ := log_linearizable _ hfront hback
  refine ⟨s₃, s₆, hfront, hback, rfl, by decide, by decide, rfl, hserial,
    horder _ _ ⟨List.mem_cons_of_mem _ List.mem_cons_self, fun t f hf => ?_⟩ ?_ ?_⟩
  · -- the handler is gone, and what it interrupted is another call
    cases t with
    | zero =>
        obtain rfl := List.mem_singleton.mp hf
        simp [Frame.call]
    | succ t => cases hf
  · simp [s₃, s₂, s₁, s₀, setFrames, enter, logged, boot]
  · simp [s₆, s₅, s₄, s₃, s₂, s₁, s₀, setFrames, enter, logged, boot]

end LogSys

end Alix.Log
