/-
What the ring holds, and whose panic is on the log.

The ring has the last records since `klog_init`, each with its number, in
the order in which they are on the wire (`RecordInv`).

Of the panics of a machine one gets `panic_lock` and never drops it. Each
call of its report is made when the one before has returned, because the
frame of the call lies right above the frame of `vkpanic` (`Seated`), so
the report is on the log in its order, and no other panic's line ever is
(`panic_report`).
-/
import Alix.Log.Proofs.LogSys

namespace Alix.Log

open Alix.Klib (chars)
open SpinLock (Owned)

/-- The records of calls, numbered from zero. -/
def records (ks : List Call) : List Record :=
  ks.mapIdx fun i k => { k.draft with seq := BitVec.ofNat 64 i }

namespace Frame

/-- What a panic has still to report. -/
def reporting : Frame → Option (List Draft)
  | .panic rest => some rest
  | .spin _ | .store _ | .emit _ _ | .panicSpin _ => none

/-- The call of a panic that a frame has still to store. -/
def reported (f : Frame) : Option Call := f.pending.filter Call.report

/-- The frames that have a call of a panic to store lie right above the
frame of the panic. -/
def Seated : List Frame → Prop
  | [] => True
  | f :: fs => (f.reported ≠ none → ∃ rest below, fs = .panic rest :: below) ∧ Seated fs

/-- A frame on top that is not one of a panic's calls. -/
theorem Seated.cons {f : Frame} {fs : List Frame} (h : Seated fs) (hf : f.reported = none) :
    Seated (f :: fs) :=
  ⟨fun hne => absurd hf hne, h⟩

theorem Seated.nobody {fs : List Frame} (h : Seated fs)
    (hnone : fs.filterMap Frame.reporting = []) : fs.filterMap Frame.reported = [] := by
  induction fs with
  | nil => rfl
  | cons f fs ih =>
      have hout : fs.filterMap Frame.reporting = [] :=
        List.filterMap_eq_nil_iff.mpr fun g hg =>
          List.filterMap_eq_nil_iff.mp hnone g (List.mem_cons_of_mem f hg)
      by_cases hf : f.reported = none
      · rw [List.filterMap_cons_none hf, ih h.2 hout]
      · obtain ⟨rest, below, rfl⟩ := h.1 hf
        cases hout

end Frame

namespace LogSys

open Alix.Log.Frame (Seated)

variable {s s' : LogSys} {t : Nat}

-- ==== the ring

structure RecordInv (s : LogSys) : Prop where
  mark : s.mark ≤ s.written.length
  shows : s.klog.ready = true →
    s.klog.ring.Shows KLOG_RING_SIZE (records (s.written.drop s.mark))
      ∧ s.klog.nextSeq = BitVec.ofNat 64 (s.written.length - s.mark)

theorem RecordInv.keep (h : RecordInv s) (hklog : s'.klog = s.klog) (hmark : s'.mark = s.mark)
    (hwritten : s'.written = s.written) : RecordInv s' where
  mark := by rw [hmark, hwritten]; exact h.mark
  shows := by rw [hklog, hmark, hwritten]; exact h.shows

theorem RecordInv.moved (h : RecordInv s) (hm : Moved s s') : RecordInv s' := by
  cases hm with
  | store hf =>
      rename_i t k below
      have hlen : (s.written ++ [k]).length = s.written.length + 1 :=
        List.length_append.trans (congrArg _ List.length_singleton)
      refine ⟨Nat.le_trans h.mark (hlen ▸ Nat.le_succ _), fun hready => ?_⟩
      by_cases hr : s.klog.ready = true
      · obtain ⟨hshows, hseq⟩ := h.shows hr
        have hstore : s.klog.store k.draft = s.klog.klogRingPush k.draft := if_pos hr
        have hrec : records ((s.written ++ [k]).drop s.mark)
            = records (s.written.drop s.mark) ++ [{ k.draft with
                seq := BitVec.ofNat 64 (s.written.length - s.mark) }] := by
          rw [List.drop_append_of_le_length h.mark, records, List.mapIdx_concat, List.length_drop]
          rfl
        show (s.klog.store k.draft).ring.Shows _ (records ((s.written ++ [k]).drop s.mark))
          ∧ (s.klog.store k.draft).nextSeq = BitVec.ofNat 64 ((s.written ++ [k]).length - s.mark)
        rw [hstore, hrec, hlen, Nat.succ_sub h.mark]
        simp only [Klog.klogRingPush, strlcpy_bytes, hseq]
        exact ⟨hshows.push _, (BitVec.ofNat_add ..).symm⟩
      · -- before `klog_init` nothing goes into the ring
        have hstore : s.klog.store k.draft = s.klog := if_neg hr
        exact absurd (hstore ▸ hready) hr
  | init hquiet =>
      refine ⟨Nat.le_refl _, fun _ => ?_⟩
      show (s.klog.ring.clear).Shows _ (records (s.written.drop s.written.length))
        ∧ (0 : BitVec 64) = BitVec.ofNat 64 (s.written.length - s.written.length)
      rw [List.drop_length, Nat.sub_self]
      exact ⟨RingBuffer.shows_clear .., rfl⟩
  | stay => exact h
  | call | lock | putc | unlock | vkpanic | panicLock | report => exact h.keep rfl rfl rfl

theorem recordInv_boot (slot : Nat → Record) : RecordInv (boot slot) where
  mark := Nat.le_refl 0
  shows := fun h => by cases h

/-- After `klog_init` the ring holds the last records that were stored,
from the oldest to the newest and numbered without a gap, in the order of
their lines on the wire. -/
theorem ring_recent (slot : Nat → Record) (h : Runs (boot slot) s) (hready : s.klog.ready = true) :
    s.klog.ring.recent KLOG_RING_SIZE
        = (records (s.written.drop s.mark)).drop (s.written.length - s.mark - KLOG_RING_SIZE)
      ∧ s.klog.ring.count = min (s.written.length - s.mark) KLOG_RING_SIZE
      ∧ s.klog.nextSeq = BitVec.ofNat 64 (s.written.length - s.mark) := by
  obtain ⟨hshows, hseq⟩ := (h.keeps RecordInv.moved (recordInv_boot slot)).shows hready
  have hlen : (records (s.written.drop s.mark)).length = s.written.length - s.mark := by
    rw [records, List.length_mapIdx, List.length_drop]
  rw [← hlen]
  exact ⟨hshows.recent, hshows.count, hlen ▸ hseq⟩

theorem store_ready (k : Klog) (rec : Draft) : (k.store rec).ready = k.ready := by
  rw [Klog.store]
  split <;> rfl

/-- Any number of calls that nothing interrupts. -/
theorem runs_calls (hfree : s.lock = false) (hquiet : s.frames 0 = []) (n : Nat) :
    ∃ s', Runs s s' ∧ s'.lock = false ∧ s'.frames 0 = [] ∧ s'.klog.ready = s.klog.ready
      ∧ s'.mark = s.mark ∧ s'.written.length = s.written.length + n := by
  induction n with
  | zero => exact ⟨s, .refl, hfree, hquiet, rfl, rfl, rfl⟩
  | succ n ih =>
      obtain ⟨x, hruns, hlock, hframes, hready, hmark, hlen⟩ := ih
      have hcall : Next x (x.enter 0 hello false []) :=
        ⟨.call 0 hello, by simp [May, hframes], by simp [step, hframes]⟩
      have hspin : (x.enter 0 hello false []).frames 0 = [.spin ⟨x.issued.length, hello, false⟩] := by
        simp [enter, setFrames]
      have hlog := runs_logged hspin hlock
      refine ⟨_, hruns.trans (.head hcall hlog), rfl, ?_, ?_, hmark, ?_⟩
      · simp [setFrames]
      · exact (store_ready ..).trans hready
      · exact List.length_append.trans (congrArg (· + 1) hlen)

/-- Six hundred messages go round the ring: the last 512 are left, and the
next has number 600. -/
theorem ring_recent_wrapped : ∃ s : LogSys, Runs (boot fun _ => { hello with seq := 0 }) s
    ∧ s.written.length = 600 ∧ s.klog.ring.recent KLOG_RING_SIZE = (records s.written).drop 88
    ∧ s.klog.ring.count = 512 ∧ s.klog.nextSeq = 600 := by
  let s₀ := boot fun _ => { hello with seq := 0 }
  let s₁ := { s₀ with klog := s₀.klog.klogInit, mark := 0 }
  have hinit : Next s₀ s₁ := ⟨.klogInit, fun _ => rfl, rfl⟩
  obtain ⟨s, hruns, -, -, hready, hmark, hlen⟩ := runs_calls (s := s₁) rfl rfl 600
  replace hmark : s.mark = 0 := hmark
  replace hlen : s.written.length = 600 := hlen.trans (Nat.zero_add _)
  obtain ⟨hrecent, hcount, hseq⟩ := ring_recent _ (.head hinit hruns) hready
  rw [hmark, hlen] at hcount hseq
  rw [hmark, hlen, List.drop_zero] at hrecent
  exact ⟨s, .head hinit hruns, hlen, hrecent, hcount, hseq⟩

-- ==== the panics

/-- The calls of panics, as their records. -/
def reports (ks : List Call) : List Draft := (ks.filter Call.report).map Call.draft

theorem reports_append (ks ks' : List Call) : reports (ks ++ ks') = reports ks ++ reports ks' := by
  rw [reports, List.filter_append, List.map_append]
  rfl

/-- One panic at most has the lock, and it has made its calls one after the
other. `own` is the rest of its report, and `wait` the call that it has
made and not stored. -/
structure Reporting (s : LogSys) (own : Option (List Draft)) (wait : Option Call) : Prop where
  owned : Owned Frame.reporting s.frames own
  lock : s.panicLock = own.isSome
  winner : s.winner = own.map fun rest => reports s.issued ++ rest
  fresh : own = none → reports s.issued = []
  waits : Owned Frame.reported s.frames wait
  stored : reports s.issued = reports s.written ++ wait.toList.map Call.draft
  seated : ∀ t, Seated (s.frames t)

def PanicInv (s : LogSys) : Prop := ∃ own wait, Reporting s own wait

/-- One context gets other frames. -/
theorem Seated.update {frames : Nat → List Frame} {fs : List Frame} (h : ∀ u, Seated (frames u))
    (hfs : Seated fs) (u : Nat) : Seated (Function.update frames t fs u) := by
  by_cases hu : u = t
  · subst hu
    rwa [Function.update_self]
  · rw [Function.update_of_ne hu]
    exact h u

/-- A step that is not about panics. -/
theorem Reporting.keep {own : Option (List Draft)} {wait : Option Call} (h : Reporting s own wait)
    {fs : List Frame} (hframes : s'.frames = Function.update s.frames t fs)
    (hown : fs.filterMap Frame.reporting = (s.frames t).filterMap Frame.reporting)
    (hwait : fs.filterMap Frame.reported = (s.frames t).filterMap Frame.reported)
    (hseat : Seated fs) (hlock : s'.panicLock = s.panicLock) (hwinner : s'.winner = s.winner)
    (hissued : reports s'.issued = reports s.issued)
    (hwritten : reports s'.written = reports s.written) : Reporting s' own wait where
  owned := hframes ▸ h.owned.keep hown
  lock := hlock.trans h.lock
  winner := by rw [hwinner, hissued, h.winner]
  fresh := by rw [hissued]; exact h.fresh
  waits := hframes ▸ h.waits.keep hwait
  stored := by rw [hissued, hwritten, h.stored]
  seated := by
    rw [hframes]
    exact Seated.update h.seated hseat

theorem Reporting.below {own : Option (List Draft)} {wait : Option Call} (h : Reporting s own wait)
    {f : Frame} {below : List Frame} (hf : s.frames t = f :: below) : Seated below := by
  have := h.seated t
  rw [hf] at this
  exact this.2

/-- When the panic makes its next call, the one before is stored. -/
theorem Reporting.idle {own : Option (List Draft)} {wait : Option Call} (h : Reporting s own wait)
    {rest : List Draft} {below : List Frame} (hf : s.frames t = .panic rest :: below) :
    own = some rest ∧ below.filterMap Frame.reporting = [] ∧ wait = none
      ∧ below.filterMap Frame.reported = [] := by
  have hin : (s.frames t).filterMap Frame.reporting = rest :: below.filterMap Frame.reporting := by
    rw [hf]
    rfl
  obtain ⟨hown, hout⟩ := h.owned.of_cons hin
  have hnobody := (h.below hf).nobody hout
  refine ⟨hown, hout, ?_, hnobody⟩
  cases wait with
  | none => rfl
  | some k =>
      obtain ⟨u, hu, -⟩ := h.waits
      by_cases hut : u = t
      · subst hut
        rw [hf, List.filterMap_cons_none rfl, hnobody] at hu
        cases hu
      · rw [(h.seated u).nobody (h.owned.others hin hut)] at hu
        cases hu

/-- No move lets a second panic report. -/
theorem PanicInv.moved (h : PanicInv s) (hm : Moved s s') : PanicInv s' := by
  obtain ⟨own, wait, h⟩ := h
  cases hm with
  | call t draft hon =>
      refine ⟨own, wait, h.keep rfl rfl rfl ((h.seated t).cons rfl) rfl rfl ?_ rfl⟩
      exact (reports_append ..).trans (List.append_nil _)
  | stay => exact ⟨own, wait, h⟩
  | lock hf hfree =>
      rename_i t k below
      have hseat := h.seated t
      rw [hf] at hseat
      exact ⟨own, wait, h.keep rfl (by rw [hf]; rfl) (by rw [hf]; rfl) hseat rfl rfl rfl rfl⟩
  | store hf =>
      rename_i t k below
      by_cases hk : k.report = true
      · have hrep : (Frame.store k).reported = some k := by simp [Frame.reported, Frame.pending, hk]
        have hin : (s.frames t).filterMap Frame.reported
            = k :: below.filterMap Frame.reported := by
          rw [hf, List.filterMap_cons_some hrep]
        obtain ⟨rfl, hout⟩ := h.waits.of_cons hin
        refine ⟨own, none, ⟨h.owned.keep (by rw [hf]; rfl), h.lock, h.winner, h.fresh,
          h.waits.leave hin hout, ?_, Seated.update h.seated ((h.below hf).cons rfl)⟩⟩
        have hone : reports [k] = [k.draft] := by simp [reports, hk]
        show reports s.issued = reports (s.written ++ [k]) ++ []
        rw [List.append_nil, reports_append, hone]
        exact h.stored
      · have hrep : (Frame.store k).reported = none := by simp [Frame.reported, Frame.pending, hk]
        refine ⟨own, wait, h.keep rfl (by rw [hf]; rfl) ?_ ((h.below hf).cons rfl) rfl rfl rfl ?_⟩
        · rw [hf, List.filterMap_cons_none hrep]
          rfl
        · have hnone : reports [k] = [] := by simp [reports, hk]
          exact (reports_append ..).trans (by rw [hnone, List.append_nil])
  | putc hf =>
      exact ⟨own, wait, h.keep rfl (by rw [hf]; rfl) (by rw [hf]; rfl) ((h.below hf).cons rfl)
        rfl rfl rfl rfl⟩
  | unlock hf =>
      exact ⟨own, wait, h.keep rfl (by rw [hf]; rfl) (by rw [hf]; rfl) (h.below hf)
        rfl rfl rfl rfl⟩
  | init hquiet =>
      exact ⟨own, wait, h.owned, h.lock, h.winner, h.fresh, h.waits, h.stored, h.seated⟩
  | vkpanic t report =>
      exact ⟨own, wait, h.keep rfl rfl rfl ((h.seated t).cons rfl) rfl rfl rfl rfl⟩
  | panicLock hf hfree =>
      rename_i t report below
      obtain rfl : own = none := by
        cases own with
        | none => rfl
        | some rest => exact absurd (h.lock.symm.trans hfree) Bool.true_eq_false.mp
      have hout : below.filterMap Frame.reporting = [] := by
        have := h.owned t
        rwa [hf] at this
      refine ⟨some report, wait, ⟨h.owned.enter (congrArg (_ :: ·) hout), rfl, ?_, fun hn => ?_,
        h.waits.keep (by rw [hf]; rfl), h.stored,
        Seated.update h.seated ((h.below hf).cons rfl)⟩⟩
      · show some report = some (reports s.issued ++ report)
        rw [h.fresh rfl, List.nil_append]
      · cases hn
  | report hf =>
      rename_i t draft rest below
      obtain ⟨rfl, hout, rfl, hnobody⟩ := h.idle hf
      have hin : (s.frames t).filterMap Frame.reporting
          = (draft :: rest) :: below.filterMap Frame.reporting := by
        rw [hf]
        rfl
      have hissued : reports (s.issued ++ [⟨s.issued.length, draft, true⟩])
          = reports s.issued ++ [draft] := reports_append ..
      refine ⟨some rest, some ⟨s.issued.length, draft, true⟩,
        ⟨h.owned.change hin (congrArg (_ :: ·) hout), h.lock, ?_, fun hn => ?_,
          h.waits.enter (congrArg (_ :: ·) hnobody), ?_,
          Seated.update h.seated ⟨fun _ => ⟨rest, below, rfl⟩, (h.below hf).cons rfl⟩⟩⟩
      · show s.winner = some (reports (s.issued ++ [_]) ++ rest)
        rw [hissued, h.winner, List.append_assoc]
        rfl
      · cases hn
      · show reports (s.issued ++ [_]) = reports s.written ++ [draft]
        rw [hissued, h.stored]
        exact congrArg (· ++ _) (List.append_nil _)

theorem panicInv_boot (slot : Nat → Record) : PanicInv (boot slot) :=
  ⟨none, none, fun _ => rfl, rfl, rfl, fun _ => rfl, fun _ => rfl, rfl, fun _ => trivial⟩

/-- However many contexts panic, what panics have put on the log is the
front of one report, in its order; and it is all of it when that panic has
come to its end. -/
theorem panic_report (slot : Nat → Record) (h : Runs (boot slot) s) :
    (s.winner = none ∧ reports s.written = [])
      ∨ ∃ report, s.winner = some report ∧ reports s.written <+: report
        ∧ ∀ t below, s.frames t = .panic [] :: below → reports s.written = report := by
  obtain ⟨own, wait, hinv⟩ := h.keeps PanicInv.moved (panicInv_boot slot)
  have hpre : reports s.written <+: reports s.issued := ⟨_, hinv.stored.symm⟩
  cases own with
  | none =>
      rw [hinv.fresh rfl] at hpre
      exact .inl ⟨hinv.winner, List.prefix_nil.mp hpre⟩
  | some rest =>
      refine .inr ⟨_, hinv.winner, hpre.trans (List.prefix_append ..), fun t below hf => ?_⟩
      obtain ⟨hown, -, rfl, -⟩ := hinv.idle hf
      obtain rfl := Option.some.inj hown
      simp [hinv.stored]

/-- Two contexts panic. One has the lock and has made the whole of its
report; the other one is still at the lock, and none of its lines is there. -/
theorem panic_report_two : ∃ s : LogSys, Runs (boot fun _ => { hello with seq := 0 }) s
    ∧ s.frames 0 = [.panic []] ∧ s.frames 1 = [.panicSpin [tick, tick]]
    ∧ s.wire = chars "[    1.500] kernel: \r\n[    2.500] kernel: \r\n"
    ∧ reports s.written = [hello, tick] := by
  let s₀ := boot fun _ => { hello with seq := 0 }
  let s₁ := s₀.setFrames 0 [.panicSpin [hello, tick]]
  let s₂ := s₁.setFrames 1 [.panicSpin [tick, tick]]
  let s₃ := { s₂ with panicLock := true, winner := some [hello, tick] }.setFrames 0
    [.panic [hello, tick]]
  let s₄ := s₃.enter 0 hello true [.panic [tick]]
  let s₅ := (s₄.logged ⟨0, hello, true⟩).setFrames 0 [.panic [tick]]
  let s₆ := s₅.enter 0 tick true [.panic []]
  let s₇ := (s₆.logged ⟨1, tick, true⟩).setFrames 0 [.panic []]
  have h₁ : Next s₀ s₁ := ⟨.vkpanic 0 [hello, tick], trivial, rfl⟩
  have h₂ : Next s₁ s₂ := ⟨.vkpanic 1 [tick, tick], trivial, rfl⟩
  have h₃ : Next s₂ s₃ := ⟨.tryPanicLock 0, trivial, rfl⟩
  have hspin : Next s₃ s₃ := ⟨.tryPanicLock 1, trivial, rfl⟩
  have h₄ : Next s₃ s₄ := ⟨.report 0, trivial, rfl⟩
  have h₅ : Runs s₄ s₅ := runs_logged rfl rfl
  have h₆ : Next s₅ s₆ := ⟨.report 0, trivial, rfl⟩
  have h₇ : Runs s₆ s₇ := runs_logged rfl rfl
  have hruns : Runs s₀ s₇ :=
    .head h₁ (.head h₂ (.head h₃ (.head hspin (.head h₄ (h₅.trans (.head h₆ h₇))))))
  refine ⟨s₇, hruns, rfl, rfl, by decide, ?_⟩
  rcases panic_report _ hruns with ⟨hnone, -⟩ | ⟨report, hwinner, -, hend⟩
  · cases hnone
  · obtain rfl : [hello, tick] = report := Option.some.inj hwinner
    exact hend 0 [] rfl

end LogSys

end Alix.Log
