/-
Ranges that are not whole pages, in `vas_range_mapped` and `vas_unmap`.

# What can go wrong

Both round the start down and the length up, each by itself, and add the
two. A range that starts late in a page and ends early in another touches
one page more than its rounded length has (`vas_user_access_ok` rounds the
end instead). That page is not looked at and not unmapped. The sum may
also come to `2^64`, which reads as 0, and a length near `2^64` rounds to
0.

# What holds

`vas_range_mapped` looks at the pages of the rounded range
(`VadsOk.rangeMapped`) and `vas_unmap` takes them out, with any ends
(`vasUnmap_rewrites`). The two agree with the bytes of the range exactly
when `RoundsWell` does (`vas_range_iff`).
-/
import Alix.Mm.Proofs.Unmap

namespace Alix

open Paging

-- ==== the loops

/-- `vas_range_mapped` finds the first hole. -/
theorem VadsOk.rangeMapped {l : List Vad} {pos stop : Nat} (h : VadsOk l) :
    Alix.rangeMapped stop l pos = true ↔ ∀ x, pos ≤ x → x < stop → Covers l x := by
  have hend : ∀ {l : List Vad} {pos : Nat}, stop ≤ pos →
      ∀ x, pos ≤ x → x < stop → Covers l x := by
    intro l pos hle x h1 h2
    omega
  induction l generalizing pos with
  | nil =>
      unfold Alix.rangeMapped
      rw [decide_eq_true_eq]
      refine ⟨fun hle => hend hle, fun hall => ?_⟩
      by_contra hlt
      obtain ⟨v, hv, -⟩ := hall pos (Nat.le_refl _) (by omega)
      cases hv
  | cons v l ih =>
      unfold Alix.rangeMapped
      split
      · rename_i hlt
        split
        · rename_i hle
          refine (ih h.tail).trans ?_
          refine ⟨fun hall x h1 h2 => covers_cons.mpr (Or.inr (hall x h1 h2)),
            fun hall x h1 h2 => (covers_cons.mp (hall x h1 h2)).resolve_left (by omega)⟩
        · rename_i hgt
          split
          · rename_i hhole
            refine ⟨fun e => (by cases e), fun hall => ?_⟩
            -- the first byte is in front of every descriptor that is left
            have := h.behind (Nat.le_refl _) (hall pos (Nat.le_refl _) hlt)
            omega
          · rename_i hin
            refine (ih h.tail).trans ?_
            constructor
            · intro hall x h1 h2
              by_cases hx : x < v.stop
              · exact covers_cons.mpr (Or.inl ⟨by omega, hx⟩)
              · exact covers_cons.mpr (Or.inr (hall x (by omega) h2))
            · exact fun hall x h1 h2 =>
                (covers_cons.mp (hall x (by omega) h2)).resolve_left (by omega)
      · rename_i hge
        rw [decide_eq_true_eq]
        exact ⟨fun hle => hend hle, fun _ => by omega⟩

/-- `vad_remove_range` takes the range out, wherever its ends are. -/
theorem covers_removeRange (start stop : Nat) (l : List Vad) (x : Nat) :
    Covers (removeRange start stop l) x ↔ Covers l x ∧ ¬ (start ≤ x ∧ x < stop) := by
  induction l with
  | nil =>
      unfold removeRange Covers
      simp
  | cons v l ih =>
      have happ : ∀ k : List Vad, Covers (k ++ removeRange start stop l) x
          ↔ Covers k x ∨ Covers (removeRange start stop l) x := by
        intro k
        unfold Covers
        simp only [List.mem_append, or_and_right, exists_or]
      have hone : ∀ w : Vad, Covers [w] x ↔ w.start ≤ x ∧ x < w.stop := by
        intro w
        unfold Covers
        simp only [List.mem_singleton, exists_eq_left]
      have hnil : ¬ Covers [] x := by
        intro hx
        obtain ⟨w, hw, -⟩ := hx
        cases hw
      unfold removeRange
      split
      · rename_i hout
        rw [covers_cons, covers_cons, ih]
        constructor
        · intro hx
          rcases hx with hx | ⟨hx, hnot⟩
          · exact ⟨Or.inl hx, by omega⟩
          · exact ⟨Or.inr hx, hnot⟩
        · exact fun hx => hx.1.imp_right fun h => ⟨h, hx.2⟩
      · rename_i hmeet
        have hpieces : Covers (piecesOf start stop v) x
            ↔ (v.start ≤ x ∧ x < v.stop) ∧ ¬ (start ≤ x ∧ x < stop) := by
          have hsplit : Covers (piecesOf start stop v) x
              ↔ (v.start < start ∧ v.start ≤ x ∧ x < start)
                ∨ (stop < v.stop ∧ stop ≤ x ∧ x < v.stop) := by
            unfold piecesOf
            by_cases hl : v.start < start
            · by_cases hr : v.stop > stop
              · rw [if_pos hl, if_pos hr, List.singleton_append, covers_cons, hone]
                simp only
                omega
              · rw [if_pos hl, if_neg hr, List.append_nil, hone]
                simp only
                omega
            · by_cases hr : v.stop > stop
              · rw [if_neg hl, if_pos hr, List.nil_append, hone]
                simp only
                omega
              · rw [if_neg hl, if_neg hr, List.append_nil]
                exact ⟨fun hx => (hnil hx).elim, fun hx => by omega⟩
          rw [hsplit]
          omega
        rw [happ, hpieces, ih, covers_cons, ← or_and_right]

section loops

variable {m m' : Mach} {r va : Nat} {vas : List Nat}

/-- A round of `uncommit_range` writes nothing but the entry. -/
theorem uncommitPage_rewrites (hv : Canonical va) (ha : va % PAGE_SIZE = 0)
    (hal : Alone m.mem r va) (hok : m.uncommitPage r va = .ok m') :
    Rewrites r (fun n => n = va / PAGE_SIZE) (fun _ => 0) m m' := by
  have hw := (rewrites_unmap hal hv ha).1
  have hmem : m'.mem = (pagingUnmapPage Pmm.pmmAllocPage m (some r) va).mem := by
    unfold Machine.uncommitPage at hok
    simp only at hok
    split at hok
    · cases hok
      rfl
    split at hok
    · cases hok
      rfl
    split at hok
    · cases hok
      rfl
    · unfold Machine.free at hok
      split at hok
      · cases hok
      · cases hok
        rfl
  obtain ⟨pmm, mem⟩ := m'
  cases hmem
  exact hw.pmm pmm

theorem uncommitPages_rewrites (hvas : LoopPages m r vas)
    (hok : vas.foldlM (Machine.uncommitPage r) m = .ok m') :
    Rewrites r (Pages vas) (fun _ => 0) m m' := by
  induction vas generalizing m with
  | nil =>
      cases hok
      exact Rewrites.empty fun n hn => pages_nil hn
  | cons va vas ih =>
      obtain ⟨hv, ha, hal⟩ := hvas va List.mem_cons_self
      rw [List.foldlM_cons] at hok
      cases h1 : m.uncommitPage r va with
      | error e =>
          rw [h1] at hok
          cases hok
      | ok m1 =>
          rw [h1] at hok
          have hw := uncommitPage_rewrites hv ha hal h1
          exact hw.cons (ih (hvas.rest hw) hok) fun _ => rfl

end loops

-- ==== the rounding

/-- A length near `2^64` rounds to 0. -/
theorem pageAlignUp_wrap {length : Nat} (h : 2 ^ 64 - PAGE_SIZE < length) (hlt : length < 2 ^ 64) :
    pageAlignUp length = 0 := by
  have hs : PAGE_SIZE = 4096 := rfl
  unfold pageAlignUp pageAlignDown
  rw [hs] at h ⊢
  omega

/-- Any other is rounded up, and the sum is at most `2^64`. -/
theorem rounded_bounds {start length : Nat} (hwrap : start + length < 2 ^ 64) (hpos : 0 < length)
    (hle : length ≤ 2 ^ 64 - PAGE_SIZE) :
    length ≤ pageAlignUp length ∧ pageAlignUp length < length + 4096
      ∧ pageAlignUp length % 4096 = 0 ∧ pageAlignDown start % 4096 = 0
      ∧ pageAlignDown start ≤ start ∧ start < pageAlignDown start + 4096
      ∧ pageAlignDown start + pageAlignUp length ≤ 2 ^ 64 := by
  have hs : PAGE_SIZE = 4096 := rfl
  unfold pageAlignUp pageAlignDown
  rw [hs] at hle ⊢
  omega

/-- No descriptor has the last page. -/
theorem VadsOk.covers_lt {l : List Vad} {x : Nat} (h : VadsOk l) (hx : Covers l x) :
    x < 2 ^ 64 - PAGE_SIZE := by
  have hs : PAGE_SIZE = 4096 := rfl
  obtain ⟨w, hw, -, hlt⟩ := hx
  obtain ⟨-, h1, -, h2⟩ := h.fits w hw
  rw [hs] at h2 ⊢
  omega

/-- The descriptors of a page are those of its first byte. -/
theorem VadsOk.covers_same {l : List Vad} (h : VadsOk l) {x y : Nat}
    (hxy : x / 4096 = y / 4096) : Covers l x ↔ Covers l y := by
  have hx := h.covers_page (x := x)
  have hy := h.covers_page (x := y)
  have hs : PAGE_SIZE = 4096 := rfl
  rw [hs] at hx hy
  rw [← hx, ← hy, hxy]

-- ==== the statement

namespace Vm

variable {s s' : Vm} {a start length stop lo hi : Nat} {v v' : Vas} {rc : Int} {x : Nat}

/-- Both calls treat the range as all the pages it touches. -/
structure TouchesAll (s s' : Vm) (a : Nat) (v v' : Vas) (start length : Nat) : Prop where
  mapped : s.vasRangeMapped a start length = true
    ↔ ∀ x, start ≤ x → x < start + length → Covers v.list x
  covered : ∀ x, start ≤ x → x < start + length → ¬ Covers v'.list x
  gone : ∀ x, start ≤ x → x < start + length → Canonical x → ¬ MappedAt s'.mach v.pml4 x

/-- The length rounds to a length, no page of the range is mapped without
a descriptor, and the rounded range misses no page of the range; or it
misses one, where nothing was and the answer is "no" anyway. If it ends at
`2^64`, it is empty, so there must be nothing in the range at all. -/
def RoundsWell (s : Vm) (v : Vas) (start length : Nat) : Prop :=
  (0 < length ∧ length ≤ 2 ^ 64 - PAGE_SIZE)
  ∧ (∀ x, start ≤ x → x < start + length → Canonical x → MappedAt s.mach v.pml4 x →
    Covers v.list x)
  ∧ (pageAlignDown start + pageAlignUp length = 2 ^ 64 →
    ∀ x, start ≤ x → x < start + length → ¬ Covers v.list x)
  ∧ (pageAlignDown start + pageAlignUp length < start + length →
    ¬ Covers v.list (pageAlignDown start + pageAlignUp length)
    ∧ ∃ x, pageAlignDown start ≤ x ∧ x < pageAlignDown start + pageAlignUp length
      ∧ ¬ Covers v.list x)

-- ==== the calls

/-- The end of the range, as the calls compute it. -/
def roundedEnd (start length : Nat) : Nat :=
  (pageAlignDown start + pageAlignUp length) % 2 ^ 64

variable (start) in
theorem vasRangeMapped_eq (hv : s.spaces a = some v) (hok : VadsOk v.list)
    (hpos : 0 < length) : s.vasRangeMapped a start length = true
      ↔ pageAlignDown start ≤ roundedEnd start length
        ∧ ∀ x, pageAlignDown start ≤ x → x < roundedEnd start length → Covers v.list x := by
  unfold vasRangeMapped
  simp only [hv, if_neg (Nat.ne_of_gt hpos)]
  split
  · rename_i hlt
    exact ⟨fun e => (by cases e), fun hall => absurd hall.1 (Nat.not_le_of_lt hlt)⟩
  · rename_i hge
    rw [hok.rangeMapped]
    exact ⟨fun hall => ⟨Nat.le_of_not_lt hge, hall⟩, fun hall => hall.2⟩

/-- `vas_unmap`, whatever the range: the entries and the descriptors of
the rounded range go, where there were both. -/
theorem vasUnmap_rewrites (hv : s.spaces a = some v) (ht : Tidy s.mach.mem v)
    (hpos : 0 < length) (hun : s.vasUnmap a start length = .ok (s', rc)) :
    ∃ v', s'.spaces a = some v'
      ∧ v'.list = removeRange (pageAlignDown start) (roundedEnd start length) v.list
      ∧ ∃ m', s'.mach.mem = m'.mem ∧ Rewrites v.pml4 (InRange v.list (pageAlignDown start)
        (roundedEnd start length)) (fun _ => 0) s.mach m' := by
  unfold vasUnmap at hun
  simp only [hv, if_neg (Nat.ne_of_gt hpos)] at hun
  obtain ⟨hloop, -, hpages⟩ := cutPages_spec (roundedEnd start length) ht.list
    ht.canonical ht.alone (pageAlignDown_mod start)
  rw [unmapVads_eq ht.list] at hun
  cases hfold : (cutPages (pageAlignDown start) (roundedEnd start length) v.list).foldlM
      (Machine.uncommitPage v.pml4) s.mach with
  | error e =>
      unfold roundedEnd at hfold
      rw [hfold] at hun
      cases hun
  | ok m' =>
      have hw := (uncommitPages_rewrites hloop hfold).congr hpages
      unfold roundedEnd at hfold hw ⊢
      rw [hfold] at hun
      simp only [lift] at hun
      cases hrem : vadRemoveRange (pageAlignDown start)
          ((pageAlignDown start + pageAlignUp length) % 2 ^ 64) v.list
          { s with mach := m' } with
      | error e =>
          rw [hrem] at hun
          cases hun
      | ok r =>
          obtain ⟨s1, list⟩ := r
          rw [hrem] at hun
          cases hun
          obtain ⟨rfl, hrun⟩ := vadRemoveRange_spec hrem
          exact ⟨_, setSpace_self _ _ _, rfl, m', hrun.mem, hw⟩

/-- What is mapped after `vas_unmap`. -/
theorem mappedAt_unmap (ht : Tidy s.mach.mem v) {m' : Mach}
    (hmem : s'.mach.mem = m'.mem)
    (hw : Rewrites v.pml4 (InRange v.list lo hi) (fun _ => 0) s.mach m')
    (hlo : lo % PAGE_SIZE = 0) (hhi : hi % PAGE_SIZE = 0) (hx : Canonical x) :
    MappedAt s'.mach v.pml4 x
      ↔ MappedAt s.mach v.pml4 x ∧ ¬ (Covers v.list x ∧ lo ≤ x ∧ x < hi) := by
  have hpage : InRange v.list lo hi (x / PAGE_SIZE) ↔ Covers v.list x ∧ lo ≤ x ∧ x < hi :=
    ht.list.inRange_page hlo hhi
  rw [mappedAt_iff, mappedAt_iff, hmem]
  by_cases hin : InRange v.list lo hi (x / PAGE_SIZE)
  · have hzero : leaf m'.mem v.pml4 x = 0 := hw.inside x hx hin
    rw [hzero]
    exact ⟨fun h => (by cases h), fun h => absurd (hpage.mp hin) h.2⟩
  · rw [hw.outside x hx hin]
    exact ⟨fun h => ⟨h, fun e => hin (hpage.mpr e)⟩, fun h => h.1⟩

theorem roundedEnd_mod (start length : Nat) : roundedEnd start length % PAGE_SIZE = 0 := by
  have h1 := pageAlignDown_mod start
  have h2 := pageAlignUp_mod length
  have hs : PAGE_SIZE = 4096 := rfl
  unfold roundedEnd
  rw [hs] at h1 h2 ⊢
  omega

-- ==== the result

/-- The answer of `vas_range_mapped`, and what `vas_unmap` leaves, for the range
from `lo` to `hi` that they go through. -/
structure Answers (s s' : Vm) (a : Nat) (v v' : Vas) (start length lo hi : Nat) : Prop where
  mapped : s.vasRangeMapped a start length = true
    ↔ lo ≤ hi ∧ ∀ x, lo ≤ x → x < hi → Covers v.list x
  cover : ∀ x, Covers v'.list x ↔ Covers v.list x ∧ ¬ (lo ≤ x ∧ x < hi)
  left : ∀ x, Canonical x → (MappedAt s'.mach v.pml4 x
    ↔ MappedAt s.mach v.pml4 x ∧ ¬ (Covers v.list x ∧ lo ≤ x ∧ x < hi))

theorem answers_rounded (hv : s.spaces a = some v) (ht : Tidy s.mach.mem v)
    (hpos : 0 < length) (hun : s.vasUnmap a start length = .ok (s', rc)) :
    ∃ v', s'.spaces a = some v' ∧ Answers s s' a v v' start length (pageAlignDown start)
      (roundedEnd start length) := by
  obtain ⟨v', hv', hlist, m', hmem, hw⟩ := vasUnmap_rewrites hv ht hpos hun
  refine ⟨v', hv', vasRangeMapped_eq start hv ht.list hpos, fun x => ?_, fun x hx => ?_⟩
  · rw [hlist]
    exact covers_removeRange _ _ _ x
  · exact mappedAt_unmap ht hmem hw (pageAlignDown_mod start) (roundedEnd_mod start length) hx

/-- The empty range is never mapped. -/
theorem not_touches_empty (hv : s.spaces a = some v) (h : TouchesAll s s' a v v' start 0) :
    False := by
  have hno : s.vasRangeMapped a start 0 = false := by
    unfold vasRangeMapped
    simp only [hv, if_true]
  have := h.mapped.mpr fun x h1 h2 => by omega
  rw [hno] at this
  cases this

/-- A rounded range that is empty is "mapped". -/
theorem Answers.not_touches (h : Answers s s' a v v' start length lo lo) (hok : VadsOk v.list)
    (hwrap : start + length < 2 ^ 64) (hlen : 2 ^ 64 - PAGE_SIZE < length) :
    ¬ TouchesAll s s' a v v' start length := by
  intro ht
  have hs : PAGE_SIZE = 4096 := rfl
  rw [hs] at hlen
  have hall := ht.mapped.mp (h.mapped.mpr ⟨Nat.le_refl lo, fun x h1 h2 => by omega⟩)
    (2 ^ 64 - PAGE_SIZE) (by rw [hs]; omega) (by rw [hs]; omega)
  exact Nat.lt_irrefl _ (hok.covers_lt hall)

/-- A rounded range that ends at `2^64` has the end 0, so nothing is done. -/
theorem Answers.at_end (h : Answers s s' a v v' start length lo 0) (hok : VadsOk v.list)
    (hlo : 0 < lo) (hpos : 0 < length) (hlast : 2 ^ 64 - PAGE_SIZE < start + length) :
    TouchesAll s s' a v v' start length
      ↔ (∀ x, start ≤ x → x < start + length → Canonical x → MappedAt s.mach v.pml4 x →
          Covers v.list x)
        ∧ ∀ x, start ≤ x → x < start + length → ¬ Covers v.list x := by
  have hmiss : ¬ ∀ x, start ≤ x → x < start + length → Covers v.list x := by
    intro hall
    have hs : PAGE_SIZE = 4096 := rfl
    have := hok.covers_lt (hall (start + length - 1) (by omega) (by omega))
    rw [hs] at this hlast
    omega
  constructor
  · intro ht
    refine ⟨fun x hx1 hx2 hc hm => ?_, fun x hx1 hx2 hx => ?_⟩
    · exact (ht.gone x hx1 hx2 hc ((h.left x hc).mpr ⟨hm, by omega⟩)).elim
    · exact ht.covered x hx1 hx2 ((h.cover x).mpr ⟨hx, by omega⟩)
  · intro ht
    refine ⟨?_, fun x hx1 hx2 hx => ?_, fun x hx1 hx2 hc hm => ?_⟩
    · exact ⟨fun e => absurd (h.mapped.mp e).1 (by omega), fun e => (hmiss e).elim⟩
    · exact ht.2 x hx1 hx2 ((h.cover x).mp hx).1
    · exact ht.2 x hx1 hx2 (ht.1 x hx1 hx2 hc ((h.left x hc).mp hm).1)

/-- Any other range starts in the first page of the rounded range, and it ends in
its last page or in the page behind that. -/
theorem Answers.inner (h : Answers s s' a v v' start length lo hi)
    (hok : VadsOk v.list) (hlo : lo % 4096 = 0) (hhi : hi % 4096 = 0) (hpos : 0 < length)
    (hfirst : lo ≤ start ∧ start < lo + 4096) (hlt : lo < hi) (hstart : start < hi)
    (hlast : hi < start + length + 4096) (hbehind : start + length ≤ hi + 4096) :
    TouchesAll s s' a v v' start length
      ↔ (∀ x, start ≤ x → x < start + length → Canonical x → MappedAt s.mach v.pml4 x →
          Covers v.list x)
        ∧ (hi < start + length →
          ¬ Covers v.list hi ∧ ∃ x, lo ≤ x ∧ x < hi ∧ ¬ Covers v.list x) := by
  have hrange : s.vasRangeMapped a start length = true
      ↔ ∀ x, lo ≤ x → x < hi → Covers v.list x := by
    rw [h.mapped]
    exact ⟨fun e => e.2, fun e => ⟨by omega, e⟩⟩
  constructor
  · intro ht
    refine ⟨fun x hx1 hx2 hc hm => ?_, fun hmiss => ?_⟩
    · by_contra hx
      exact ht.gone x hx1 hx2 hc ((h.left x hc).mpr ⟨hm, fun e => hx e.1⟩)
    · have hpage : ¬ Covers v.list hi := fun hx =>
        ht.covered hi (by omega) hmiss ((h.cover _).mpr ⟨hx, by omega⟩)
      refine ⟨hpage, ?_⟩
      by_contra hnone
      have hall : ∀ x, lo ≤ x → x < hi → Covers v.list x := by
        intro x hx1 hx2
        by_contra hx
        exact hnone ⟨x, hx1, hx2, hx⟩
      exact hpage (ht.mapped.mp (hrange.mpr hall) _ (by omega) hmiss)
  · intro ht
    obtain ⟨hin, hmiss⟩ := ht
    -- a byte of the range behind the rounded range is in the missed page
    have hbelow : ∀ x, start ≤ x → x < start + length → Covers v.list x → x < hi := by
      intro x hx1 hx2 hx
      by_contra hge
      exact (hmiss (by omega)).1 ((hok.covers_same (by omega)).mp hx)
    refine ⟨?_, fun x hx1 hx2 hx => ?_, fun x hx1 hx2 hc hm => ?_⟩
    · rw [hrange]
      constructor
      · intro hall x hx1 hx2
        by_cases hmissed : hi < start + length
        · obtain ⟨-, y, hy1, hy2, hy⟩ := hmiss hmissed
          exact (hy (hall y hy1 hy2)).elim
        · exact hall x (by omega) (by omega)
      · intro hall x hx1 hx2
        -- a page of the rounded range has a byte of the range
        rcases Nat.lt_or_ge x start with hx | hx
        · exact (hok.covers_same (by omega)).mp (hall start (by omega) (by omega))
        · have hmem := hall (min x (start + length - 1)) (by omega) (by omega)
          exact (hok.covers_same (by omega)).mp hmem
    · obtain ⟨hold, hnot⟩ := (h.cover x).mp hx
      exact hnot ⟨by omega, hbelow x hx1 hx2 hold⟩
    · obtain ⟨hold, hnot⟩ := (h.left x hc).mp hm
      have hx := hin x hx1 hx2 hc hold
      exact hnot ⟨hx, by omega, hbelow x hx1 hx2 hx⟩

/-- `vas_range_mapped` and `vas_unmap` treat a range as the pages it
touches exactly when `RoundsWell`. -/
theorem vas_range_iff (hv : s.spaces a = some v) (ht : Tidy s.mach.mem v) (start length : Nat)
    (hwrap : start + length < 2 ^ 64) (hun : s.vasUnmap a start length = .ok (s', rc)) :
    ∃ v', s'.spaces a = some v'
      ∧ (TouchesAll s s' a v v' start length ↔ RoundsWell s v start length) := by
  have hs : PAGE_SIZE = 4096 := rfl
  rcases Nat.eq_zero_or_pos length with rfl | hpos
  · have hsame : s' = s := by
      unfold vasUnmap at hun
      simp only [hv, if_true] at hun
      cases hun
      rfl
    exact ⟨v, by rw [hsame]; exact hv, fun h => (not_touches_empty hv h).elim,
      fun h => absurd h.1.1 (Nat.lt_irrefl 0)⟩
  obtain ⟨v', hv', hans⟩ := answers_rounded hv ht hpos hun
  refine ⟨v', hv', ?_⟩
  by_cases hle : length ≤ 2 ^ 64 - PAGE_SIZE
  case neg =>
    have hlen := Nat.lt_of_not_le hle
    have hup := pageAlignUp_wrap hlen (by omega)
    have hend : roundedEnd start length = pageAlignDown start := by
      have := pageAlignDown_le start
      unfold roundedEnd
      rw [hup, Nat.add_zero, Nat.mod_eq_of_lt (by omega)]
    rw [hend] at hans
    exact ⟨fun h => (hans.not_touches ht.list hwrap hlen h).elim, fun h => absurd h.1.2 hle⟩
  obtain ⟨h1, h2, h3, h4, h5, h6, h7⟩ := rounded_bounds hwrap hpos hle
  unfold RoundsWell
  unfold roundedEnd at hans
  generalize pageAlignDown start = lo at *
  generalize pageAlignUp length = len at *
  rw [hs] at hle
  rcases Nat.lt_or_eq_of_le h7 with hlt | heq
  · rw [Nat.mod_eq_of_lt hlt] at hans
    rw [hans.inner ht.list (by omega) (by omega) hpos (by omega) (by omega) (by omega)
      (by omega) (by omega)]
    exact ⟨fun h => ⟨⟨hpos, hle⟩, h.1, by omega, h.2⟩, fun h => ⟨h.2.1, h.2.2.2⟩⟩
  · have hend : (lo + len) % 2 ^ 64 = 0 := by omega
    rw [hend] at hans
    rw [hans.at_end ht.list (by omega) hpos (by rw [hs]; omega)]
    exact ⟨fun h => ⟨⟨hpos, hle⟩, h.1, fun _ => h.2, by omega⟩, fun h => ⟨h.2.1, h.2.2.1 heq⟩⟩

/-- The second half of the second of two pages. -/
theorem vas_range_half : ∃ (s s' : Vm) (v v' : Vas) (rc : Int), s.spaces 0 = some v
    ∧ s.vasUnmap 0 0x6800 0x800 = .ok (s', rc) ∧ s'.spaces 0 = some v'
    ∧ TouchesAll s s' 0 v v' 0x6800 0x800 := by
  have hplay : (play UserCall bootVm [(fair, .create none),
      (fair, .mapAnon 0 0x5000 0x2000 PAGE_WRITE)]).map (fun s =>
        ((s.spaces 0).map Vas.list, (s.vasUnmap 0 0x6800 0x800).isOk))
      = some (some [⟨0x5000, 0x7000, 0x5002⟩], true) := by
    decide +kernel
  obtain ⟨s, hrun, heq⟩ := Option.map_eq_some_iff.mp hplay
  obtain ⟨hsome, hok⟩ := Prod.mk.inj heq
  obtain ⟨v, hv, hlist⟩ := Option.map_eq_some_iff.mp hsome
  have ht := bootVm_ready.tidy (by decide) rfl (reachable_play .init hrun) hv
  cases hun : s.vasUnmap 0 0x6800 0x800 with
  | error e =>
      rw [hun] at hok
      cases hok
  | ok r =>
      obtain ⟨s', rc⟩ := r
      obtain ⟨v', hv', hiff⟩ := vas_range_iff hv ht 0x6800 0x800 (by decide) hun
      have hend : pageAlignDown 0x6800 + pageAlignUp 0x800 = 0x7000 := by decide
      refine ⟨s, s', v, v', rc, hv, hun, hv', hiff.mpr ⟨by decide, fun x h1 h2 _ _ => ?_,
        fun h => ?_, fun h => ?_⟩⟩
      · rw [hlist]
        exact ⟨_, List.mem_cons_self, show 0x5000 ≤ x by omega, show x < 0x7000 by omega⟩
      · rw [hend] at h
        cases h
      · rw [hend] at h
        omega

/-- The last half of a page and the first half of the next, which is in no
descriptor. -/
theorem vas_range_straddle : ∃ (s : Vm) (v : Vas), Reachable UserCall bootVm s
    ∧ s.spaces 0 = some v ∧ s.vasRangeMapped 0 0x6800 0x1000 = true
    ∧ ¬ (s.vasRangeMapped 0 0x6800 0x1000 = true
      ↔ ∀ x, 0x6800 ≤ x → x < 0x6800 + 0x1000 → Covers v.list x) := by
  obtain ⟨s, v, hreach, hv, hlist, -⟩ := reachable_twoPages
  have hmapped : s.vasRangeMapped 0 0x6800 0x1000 = true := by
    unfold vasRangeMapped
    rw [hv]
    simp only [hlist]
    decide
  refine ⟨s, v, hreach, hv, hmapped, fun hiff => ?_⟩
  obtain ⟨w, hw, -, hlt⟩ := hiff.mp hmapped 0x7000 (by decide) (by decide)
  rw [hlist] at hw
  rw [List.mem_singleton.mp hw] at hlt
  exact absurd hlt (by decide)

end Vm

end Alix
