/-
From the memory map to the free lists.

# What can go wrong

`max_pfn` is computed before the storage of the database is taken out of
an entry, and the ranges that are marked afterwards are rounded and
clamped. `pmm_init` then reads flags that `free_block` rewrites as it goes.

# What holds

The usable entries are aligned, so the rounding does nothing; the storage
is whole pages at the front of one entry, so what is left of that entry is
aligned too; and the entries are apart, so no other entry has a page of the
database. After `pfndb_init` the database is the one of the usable pages
but those it lies in (`pfndbInit_spec`), and `pmm_init` turns that into
free blocks (`pmmInit_db`).
-/
import Mathlib.Data.Set.Card
import Alix.Mm.Pfndb
import Alix.Mm.Proofs.PmmRun

namespace Alix

-- ==== the memory map

namespace MemmapEntry

def Usable (e : MemmapEntry) : Prop := e.type = LIMINE_MEMMAP_USABLE

/-- The address is in the entry. -/
def Has (e : MemmapEntry) (a : Nat) : Prop := e.base ≤ a ∧ a < e.base + e.length

instance (e : MemmapEntry) : Decidable e.Usable := inferInstanceAs (Decidable (_ = _))

instance (e : MemmapEntry) (a : Nat) : Decidable (e.Has a) :=
  inferInstanceAs (Decidable (_ ∧ _))

end MemmapEntry

namespace Pfndb

open Pmm (pfndb)

variable {memmap : List MemmapEntry} {p : Pfndb}

/-- What Limine says of the usable entries, whose ends are 64-bit addresses
too, and that one of them has room for the database. -/
structure WellFormed (memmap : List MemmapEntry) : Prop where
  aligned : ∀ e ∈ memmap, e.Usable →
    PAGE_SIZE ∣ e.base ∧ PAGE_SIZE ∣ e.length ∧ e.base + e.length < 2 ^ 64
  apart : memmap.Pairwise fun e f => e.Usable → f.Usable → ∀ a, e.Has a → ¬ f.Has a
  room : ∃ e ∈ memmap, e.Usable ∧ storageSize (calcMaxPfn memmap) ≤ e.length

/-- The page is one of a usable entry. -/
def UsablePage (memmap : List MemmapEntry) (q : Nat) : Prop :=
  ∃ e ∈ memmap, e.Usable ∧ e.Has (pfnPhys q)

/-- The page holds some of the database. -/
def Holds (p : Pfndb) (q : Nat) : Prop :=
  ∃ a, p.phys ≤ a ∧ a < p.phys + (p.maxPfn + 1) * PAGE_T_SIZE ∧ physPfn a = q

theorem maxRound_le (m : Nat) (e : MemmapEntry) : m ≤ maxRound m e := by
  unfold maxRound
  split
  · exact Nat.le_refl m
  · simp only
    split <;> omega

theorem le_maxFold (memmap : List MemmapEntry) (m : Nat) : m ≤ memmap.foldl maxRound m := by
  induction memmap generalizing m with
  | nil => exact Nat.le_refl m
  | cons e es ih => exact (maxRound_le m e).trans (ih (maxRound m e))

/-- Every usable entry ends at `max_pfn` or before. -/
theorem le_calcMaxPfn {e : MemmapEntry} (he : e ∈ memmap) (hu : e.Usable) :
    pageAlignUp ((e.base + e.length) % 2 ^ 64) / PAGE_SIZE ≤ calcMaxPfn memmap := by
  unfold calcMaxPfn
  generalize 0 = m
  induction memmap generalizing m with
  | nil => cases he
  | cons f es ih =>
      rcases List.mem_cons.mp he with rfl | he
      · refine Nat.le_trans ?_ (le_maxFold es (maxRound m e))
        unfold maxRound
        rw [if_neg (fun h => h hu)]
        simp only
        split <;> omega
      · exact ih he (maxRound m f)

theorem calcMaxPfn_lt (memmap : List MemmapEntry) : calcMaxPfn memmap < 2 ^ 52 := by
  have hs : PAGE_SIZE = 4096 := rfl
  have hfold : ∀ m, m < 2 ^ 52 → memmap.foldl maxRound m < 2 ^ 52 := by
    induction memmap with
    | nil => exact fun m hm => hm
    | cons e es ih =>
        intro m hm
        refine ih (maxRound m e) ?_
        unfold maxRound
        split
        · exact hm
        · have := pageAlignUp_lt ((e.base + e.length) % 2 ^ 64)
          simp only
          rw [hs]
          split <;> omega
  exact hfold 0 (by decide)

/-- The storage is whole pages and just large enough. -/
theorem storageSize_spec {maxPfn : Nat} (h : maxPfn < 2 ^ 52) :
    (maxPfn + 1) * PAGE_T_SIZE ≤ storageSize maxPfn
    ∧ storageSize maxPfn < (maxPfn + 1) * PAGE_T_SIZE + PAGE_SIZE
    ∧ PAGE_SIZE ∣ storageSize maxPfn := by
  have hs : PAGE_SIZE = 4096 := rfl
  have ht : PAGE_T_SIZE = 64 := rfl
  unfold storageSize
  rw [ht, Nat.mod_eq_of_lt (show maxPfn + 1 < 2 ^ 64 by omega),
    Nat.mod_eq_of_lt (show (maxPfn + 1) * 64 < 2 ^ 64 by omega)]
  exact pageAlignUp_spec (by rw [hs]; omega)

-- ==== the storage

/-- What is left of the entry that the storage is taken from. -/
def cut (size : Nat) (e : MemmapEntry) : MemmapEntry :=
  { e with base := (e.base + size) % 2 ^ 64, length := e.length - size }

theorem reserveLoop_spec {size : Nat} (h : ∃ e ∈ memmap, e.Usable ∧ size ≤ e.length) :
    ∃ pre e post, memmap = pre ++ e :: post ∧ e.Usable ∧ size ≤ e.length
      ∧ reserveLoop size memmap = some (e.base, pre ++ cut size e :: post) := by
  induction memmap with
  | nil =>
      obtain ⟨e, he, -⟩ := h
      cases he
  | cons f es ih =>
      unfold reserveLoop
      by_cases hf : f.type ≠ LIMINE_MEMMAP_USABLE ∨ f.length < size
      · rw [if_pos hf]
        have hrest : ∃ e ∈ es, e.Usable ∧ size ≤ e.length := by
          obtain ⟨e, he, hu, hsize⟩ := h
          rcases List.mem_cons.mp he with rfl | he
          · rcases hf with hf | hf
            · exact (hf hu).elim
            · omega
          · exact ⟨e, he, hu, hsize⟩
        obtain ⟨pre, e, post, rfl, hu, hsize, hr⟩ := ih hrest
        exact ⟨f :: pre, e, post, rfl, hu, hsize, by rw [hr]; rfl⟩
      · rw [if_neg hf]
        push Not at hf
        exact ⟨[], f, es, rfl, hf.1, hf.2, rfl⟩

-- ==== the loops

theorem store_memMap (p : Pfndb) (pfn : Nat) (page : Page) (q : Nat) :
    (p.store pfn page).memMap q = if q = pfn then page else p.memMap q := by
  show Function.update p.memMap pfn page q = _
  by_cases h : q = pfn
  · rw [if_pos h, h, Function.update_self]
  · rw [if_neg h, Function.update_of_ne h]

/-- A marked page. -/
def marked (newFlags : BitVec 64) (page : Page) : Page :=
  { page with flags := (page.flags &&& ~~~stateMask) ||| newFlags }

theorem markPage_memMap (newFlags : BitVec 64) (p : Pfndb) (pfn q : Nat) :
    (markPage newFlags p pfn).memMap q
      = if q = pfn then marked newFlags (p.memMap pfn) else p.memMap q :=
  store_memMap p pfn _ q

theorem markLoop (newFlags : BitVec 64) (start : Nat) (p : Pfndb) : ∀ n,
    (((List.range' start n).foldl (markPage newFlags) p).maxPfn = p.maxPfn
      ∧ ((List.range' start n).foldl (markPage newFlags) p).phys = p.phys)
    ∧ ∀ q, ((List.range' start n).foldl (markPage newFlags) p).memMap q
        = if start ≤ q ∧ q < start + n then marked newFlags (p.memMap q)
          else p.memMap q := by
  intro n
  induction n with
  | zero => exact ⟨⟨rfl, rfl⟩, fun q => by rw [if_neg (by omega)]; rfl⟩
  | succ n ih =>
      obtain ⟨⟨hmax, hphys⟩, hq⟩ := ih
      rw [List.range'_concat, List.foldl_append]
      simp only [List.foldl_cons, List.foldl_nil, Nat.one_mul]
      refine ⟨⟨hmax, hphys⟩, fun q => ?_⟩
      rw [markPage_memMap]
      by_cases he : q = start + n
      · rw [if_pos he, if_pos (by omega), hq, if_neg (by omega), he]
      · rw [if_neg he, hq]
        by_cases hin : start ≤ q ∧ q < start + n
        · rw [if_pos hin, if_pos (by omega)]
        · rw [if_neg hin, if_neg (by omega)]

/-- `pfndb_mark_range` marks the pages of its range that there are. -/
theorem pfndbMarkRange_spec (p : Pfndb) (base length : Nat) (newFlags : BitVec 64) :
    ((p.pfndbMarkRange base length newFlags).maxPfn = p.maxPfn
      ∧ (p.pfndbMarkRange base length newFlags).phys = p.phys)
    ∧ ∀ q ≤ p.maxPfn, (p.pfndbMarkRange base length newFlags).memMap q
        = if base / PAGE_SIZE ≤ q
            ∧ q < pageAlignUp ((base + length) % 2 ^ 64) / PAGE_SIZE then
          marked newFlags (p.memMap q)
        else p.memMap q := by
  unfold pfndbMarkRange
  simp only
  generalize pageAlignUp ((base + length) % 2 ^ 64) / PAGE_SIZE = stop
  generalize base / PAGE_SIZE = start
  split
  · exact ⟨⟨rfl, rfl⟩, fun q hq => by rw [if_neg (by omega)]⟩
  · rename_i hstart
    obtain ⟨hfix, hq⟩ := markLoop newFlags start p
      ((if stop > p.maxPfn + 1 then p.maxPfn + 1 else stop) - start)
    refine ⟨hfix, fun q hle => ?_⟩
    rw [hq]
    by_cases hin : start ≤ q ∧ q < stop
    · rw [if_pos hin, if_pos (by split <;> omega)]
    · rw [if_neg hin, if_neg (by split <;> omega)]

theorem initPage_memMap (p : Pfndb) (pfn q : Nat) :
    (initPage p pfn).memMap q
      = if q = pfn then pfndb p.maxPfn (fun _ => false) pfn else p.memMap q :=
  store_memMap p pfn _ q

theorem initLoop (p : Pfndb) : ∀ n,
    (((List.range n).foldl initPage p).maxPfn = p.maxPfn
      ∧ ((List.range n).foldl initPage p).phys = p.phys)
    ∧ ∀ q < n, ((List.range n).foldl initPage p).memMap q
        = pfndb p.maxPfn (fun _ => false) q := by
  intro n
  induction n with
  | zero => exact ⟨⟨rfl, rfl⟩, fun q hq => by omega⟩
  | succ n ih =>
      obtain ⟨⟨hmax, hphys⟩, hq⟩ := ih
      rw [List.range_succ, List.foldl_append]
      simp only [List.foldl_cons, List.foldl_nil]
      refine ⟨⟨hmax, hphys⟩, fun q hlt => ?_⟩
      rw [initPage_memMap]
      by_cases he : q = n
      · rw [if_pos he, hmax, he]
      · rw [if_neg he]
        exact hq q (by omega)

/-- The database shows the pages of `usable` as free ones and the others as
reserved. -/
def Shows (p : Pfndb) (usable : Nat → Bool) : Prop :=
  ∀ q ≤ p.maxPfn, p.memMap q = pfndb p.maxPfn usable q

theorem marked_pfndb (maxPfn : Nat) (usable : Nat → Bool) (q : Nat) :
    marked PAGE_FREE (pfndb maxPfn usable q) = pfndb maxPfn (fun _ => true) q := by
  have hflags : ∀ b : Bool, ((if b then PAGE_FREE else PAGE_RESERVED) &&& ~~~stateMask)
      ||| PAGE_FREE = PAGE_FREE := by
    decide
  unfold marked pfndb
  rw [hflags]
  rfl

/-- The pages that `pfndb_mark_range` marks for an entry. -/
def Marks (e : MemmapEntry) (q : Nat) : Prop :=
  e.Usable ∧ e.base / PAGE_SIZE ≤ q
    ∧ q < pageAlignUp ((e.base + e.length) % 2 ^ 64) / PAGE_SIZE

instance (e : MemmapEntry) (q : Nat) : Decidable (Marks e q) :=
  inferInstanceAs (Decidable (_ ∧ _ ∧ _))

theorem pfndb_congr {maxPfn q : Nat} {u v : Nat → Bool} (h : u q = v q) :
    pfndb maxPfn u q = pfndb maxPfn v q := by
  unfold pfndb
  rw [h]

theorem Shows.entry {usable : Nat → Bool} (h : Shows p usable) (e : MemmapEntry) :
    ((p.markEntry e).maxPfn = p.maxPfn ∧ (p.markEntry e).phys = p.phys)
    ∧ Shows (p.markEntry e) fun q => usable q || decide (Marks e q) := by
  unfold Pfndb.markEntry
  split
  · rename_i hu
    refine ⟨⟨rfl, rfl⟩, fun q hq => (h q hq).trans (pfndb_congr ?_)⟩
    rw [decide_eq_false fun hm => hu hm.1, Bool.or_false]
  · rename_i hu
    obtain ⟨⟨hmax, hphys⟩, hq⟩ := p.pfndbMarkRange_spec e.base e.length PAGE_FREE
    refine ⟨⟨hmax, hphys⟩, fun q hle => ?_⟩
    rw [hmax] at hle ⊢
    rw [hq q hle, h q hle]
    split
    · rename_i hin
      rw [marked_pfndb]
      refine pfndb_congr ?_
      rw [decide_eq_true (show Marks e q from ⟨not_not.mp hu, hin⟩), Bool.or_true]
    · rename_i hin
      refine pfndb_congr ?_
      rw [decide_eq_false fun hm : Marks e q => hin hm.2, Bool.or_false]

theorem Shows.entries {usable : Nat → Bool} (h : Shows p usable)
    (es : List MemmapEntry) :
    ((es.foldl markEntry p).maxPfn = p.maxPfn ∧ (es.foldl markEntry p).phys = p.phys)
    ∧ Shows (es.foldl markEntry p) fun q => usable q || decide (∃ e ∈ es, Marks e q) := by
  induction es generalizing p usable with
  | nil =>
      refine ⟨⟨rfl, rfl⟩, fun q hq => (h q hq).trans (pfndb_congr ?_)⟩
      simp
  | cons e es ih =>
      obtain ⟨⟨hmax, hphys⟩, hshow⟩ := h.entry e
      obtain ⟨⟨hmax', hphys'⟩, hshow'⟩ := ih hshow
      refine ⟨⟨hmax'.trans hmax, hphys'.trans hphys⟩, fun q hq => ?_⟩
      refine (hshow' q hq).trans (pfndb_congr ?_)
      simp [Bool.or_assoc]

/-- `pfndb_init`: where the storage is, and the database of the entries
that are left. -/
theorem pfndbInit_spec (mem : Nat → Page)
    (hroom : ∃ e ∈ memmap, e.Usable ∧ storageSize (calcMaxPfn memmap) ≤ e.length) :
    ∃ p pre e post, memmap = pre ++ e :: post ∧ e.Usable
      ∧ storageSize (calcMaxPfn memmap) ≤ e.length
      ∧ pfndbInit memmap mem
        = some (p, pre ++ cut (storageSize (calcMaxPfn memmap)) e :: post)
      ∧ p.maxPfn = calcMaxPfn memmap ∧ p.phys = e.base
      ∧ Shows p fun q => decide (∃ f ∈ pre
          ++ cut (storageSize (calcMaxPfn memmap)) e :: post, Marks f q) := by
  obtain ⟨pre, e, post, hmap, hu, hsize, hres⟩ := reserveLoop_spec hroom
  have hinit : Shows ((List.range (calcMaxPfn memmap + 1)).foldl initPage
      ⟨mem, calcMaxPfn memmap, e.base⟩) fun _ => false := by
    obtain ⟨⟨hmax, -⟩, hq⟩ := initLoop ⟨mem, calcMaxPfn memmap, e.base⟩
      (calcMaxPfn memmap + 1)
    intro q hle
    rw [hmax] at hle ⊢
    exact hq q (Nat.lt_succ_of_le hle)
  obtain ⟨⟨hmax, hphys⟩, hshow⟩ := hinit.entries
    (pre ++ cut (storageSize (calcMaxPfn memmap)) e :: post)
  obtain ⟨⟨hmax', hphys'⟩, -⟩ := initLoop ⟨mem, calcMaxPfn memmap, e.base⟩
    (calcMaxPfn memmap + 1)
  refine ⟨_, pre, e, post, hmap, hu, hsize, ?_, hmax.trans hmax', hphys.trans hphys', ?_⟩
  · unfold pfndbInit reservePfndbStorage
    simp only
    rw [hres]
  · simpa using hshow

-- ==== the pages that are left

/-- On an aligned entry the rounding does nothing. -/
theorem marks_iff {e : MemmapEntry} (hbase : PAGE_SIZE ∣ e.base)
    (hlength : PAGE_SIZE ∣ e.length) (hend : e.base + e.length < 2 ^ 64) (q : Nat) :
    Marks e q ↔ e.Usable ∧ e.Has (pfnPhys q) := by
  have hs : PAGE_SIZE = 4096 := rfl
  unfold Marks MemmapEntry.Has pfnPhys
  rw [Nat.mod_eq_of_lt hend, pageAlignUp_of_aligned
    (Nat.mod_eq_zero_of_dvd (Nat.dvd_add hbase hlength)) hend]
  rw [hs] at hbase hlength ⊢
  refine and_congr_right fun _ => ?_
  constructor
  · rintro ⟨h1, h2⟩
    omega
  · rintro ⟨h1, h2⟩
    omega

/-- The database lies in the pages of its storage, and in all of them. -/
theorem holds_iff (hmax : p.maxPfn < 2 ^ 52) (hphys : PAGE_SIZE ∣ p.phys) (q : Nat) :
    p.Holds q ↔ p.phys ≤ pfnPhys q ∧ pfnPhys q < p.phys + storageSize p.maxPfn := by
  have hs : PAGE_SIZE = 4096 := rfl
  have ht : PAGE_T_SIZE = 64 := rfl
  obtain ⟨h1, h2, h3⟩ := storageSize_spec hmax
  unfold Holds pfnPhys physPfn
  rw [ht] at h1 h2 ⊢
  rw [hs] at h2 h3 hphys ⊢
  constructor
  · rintro ⟨a, ha, hlt, rfl⟩
    omega
  · rintro ⟨hle, hlt⟩
    exact ⟨q * 4096, by omega, by omega, by omega⟩

/-- The pages of the entries that are left are the usable ones but those of
the database. -/
theorem left_iff {pre post : List MemmapEntry} {e : MemmapEntry}
    (h : WellFormed memmap) (hmap : memmap = pre ++ e :: post) (hu : e.Usable)
    (hsize : storageSize p.maxPfn ≤ e.length) (hmax : p.maxPfn < 2 ^ 52)
    (hphys : p.phys = e.base) (q : Nat) :
    (∃ f ∈ pre ++ cut (storageSize p.maxPfn) e :: post, Marks f q)
      ↔ UsablePage memmap q ∧ ¬ p.Holds q := by
  subst hmap
  obtain ⟨hbase, hlength, hend⟩ := h.aligned e (by simp) hu
  have hsized := (storageSize_spec hmax).2.2
  have hholds := p.holds_iff hmax (by rw [hphys]; exact hbase) q
  rw [hphys] at hholds
  -- the entry that was cut
  have hcut : Marks (cut (storageSize p.maxPfn) e) q
      ↔ e.Has (pfnPhys q) ∧ ¬ p.Holds q := by
    have hcb : (cut (storageSize p.maxPfn) e).base = e.base + storageSize p.maxPfn :=
      Nat.mod_eq_of_lt (by omega)
    have hcl : (cut (storageSize p.maxPfn) e).length = e.length - storageSize p.maxPfn := rfl
    rw [marks_iff (by rw [hcb]; exact Nat.dvd_add hbase hsized)
      (by rw [hcl]; exact Nat.dvd_sub hlength hsized) (by rw [hcb, hcl]; omega), hholds]
    unfold MemmapEntry.Has
    rw [hcb, hcl]
    constructor
    · rintro ⟨-, h1, h2⟩
      omega
    · rintro ⟨h1, h2⟩
      exact ⟨hu, by omega, by omega⟩
  -- another entry
  have hother : ∀ f ∈ pre ++ post, Marks f q
      ↔ (f.Usable ∧ f.Has (pfnPhys q)) ∧ ¬ p.Holds q := by
    intro f hf
    have hf' : f ∈ pre ++ e :: post := by
      rcases List.mem_append.mp hf with hf | hf <;> simp [hf]
    have hapart : f.Usable → f.Has (pfnPhys q) → ¬ e.Has (pfnPhys q) := by
      intro hfu hfh heh
      have hp := List.pairwise_append.mp h.apart
      rcases List.mem_append.mp hf with hf | hf
      · exact hp.2.2 f hf e List.mem_cons_self hfu hu _ hfh heh
      · exact (List.pairwise_cons.mp hp.2.1).1 f hf hu hfu _ heh hfh
    constructor
    · intro hm
      obtain ⟨h1, h2, h3⟩ := h.aligned f hf' hm.1
      have hm' := (marks_iff h1 h2 h3 q).mp hm
      refine ⟨hm', fun hh => hapart hm'.1 hm'.2 ?_⟩
      obtain ⟨hl, hr⟩ := hholds.mp hh
      exact ⟨hl, by omega⟩
    · rintro ⟨hm, -⟩
      obtain ⟨h1, h2, h3⟩ := h.aligned f hf' hm.1
      exact (marks_iff h1 h2 h3 q).mpr hm
  constructor
  · rintro ⟨f, hf, hm⟩
    rcases List.mem_append.mp hf with hf | hf
    · obtain ⟨hm, hno⟩ := (hother f (List.mem_append_left _ hf)).mp hm
      exact ⟨⟨f, List.mem_append_left _ hf, hm⟩, hno⟩
    rcases List.mem_cons.mp hf with rfl | hf
    · obtain ⟨hm, hno⟩ := hcut.mp hm
      exact ⟨⟨e, by simp, hu, hm⟩, hno⟩
    · obtain ⟨hm, hno⟩ := (hother f (List.mem_append_right _ hf)).mp hm
      exact ⟨⟨f, by simp [hf], hm⟩, hno⟩
  · rintro ⟨⟨f, hf, hm⟩, hno⟩
    rcases List.mem_append.mp hf with hf | hf
    · exact ⟨f, List.mem_append_left _ hf,
        (hother f (List.mem_append_left _ hf)).mpr ⟨hm, hno⟩⟩
    rcases List.mem_cons.mp hf with rfl | hf
    · exact ⟨_, by simp, hcut.mpr ⟨hm.2, hno⟩⟩
    · exact ⟨f, by simp [hf], (hother f (List.mem_append_right _ hf)).mpr ⟨hm, hno⟩⟩

/-- A usable page is in the database. -/
theorem UsablePage.le (h : WellFormed memmap) {q : Nat} (hq : UsablePage memmap q) :
    q ≤ calcMaxPfn memmap := by
  have hs : PAGE_SIZE = 4096 := rfl
  obtain ⟨e, he, hu, hhas⟩ := hq
  obtain ⟨h1, h2, h3⟩ := h.aligned e he hu
  have hle := le_calcMaxPfn he hu
  obtain ⟨-, -, hlt⟩ := (marks_iff h1 h2 h3 q).mpr ⟨hu, hhas⟩
  omega

end Pfndb

namespace Pmm

open Dyadic (Block)

variable {s s' : Pmm}

-- ==== the counters

/-- The two page counters are as they were. -/
def SameCounts (s s' : Pmm) : Prop :=
  s'.freePageCount = s.freePageCount ∧ s'.totalPageCount = s.totalPageCount

theorem SameCounts.trans {t : Pmm} (h : SameCounts s t) (h' : SameCounts t s') :
    SameCounts s s' :=
  ⟨h'.1.trans h.1, h'.2.trans h.2⟩

theorem sameCounts_setPrev? (s : Pmm) (o v : Option Nat) : SameCounts s (s.setPrev? o v) := by
  cases o <;> exact ⟨rfl, rfl⟩

theorem sameCounts_push (s : Pmm) (o p : Nat) : SameCounts s (s.freeListPush o p) :=
  sameCounts_setPrev? ((s.setPrev p none).setNext p (s.freeLists o).head)
    (s.freeLists o).head (some p)

theorem sameCounts_remove (s : Pmm) (o p : Nat) : SameCounts s (s.freeListRemove o p) := by
  have hd : SameCounts s (s.detachPrev o p) := by
    unfold detachPrev
    cases (s.pages p).prev <;> exact ⟨rfl, rfl⟩
  rw [freeListRemove_eq]
  exact hd.trans (sameCounts_setPrev? (s.detachPrev o p)
    ((s.detachPrev o p).pages p).next ((s.detachPrev o p).pages p).prev)

theorem sameCounts_coalesce (n : Nat) (s : Pmm) (p o : Nat) :
    SameCounts s (coalesce n s p o).1 := by
  induction n generalizing s p o with
  | zero => exact ⟨rfl, rfl⟩
  | succ n ih =>
      unfold coalesce
      simp only
      split
      · exact ⟨rfl, rfl⟩
      split
      · exact ⟨rfl, rfl⟩
      · exact (sameCounts_remove s o _).trans (ih _ _ _)

theorem sameCounts_freeBlock (s : Pmm) (p : Nat) : SameCounts s (s.freeBlock p) := by
  have hc := sameCounts_coalesce (PMM_MAX_ORDER - 1 - (s.pages p).order) s p (s.pages p).order
  rw [freeBlock_eq]
  generalize coalesce (PMM_MAX_ORDER - 1 - (s.pages p).order) s p (s.pages p).order = r at hc ⊢
  have hhead : SameCounts r.1 (r.1.modPage r.2.1 (freeHead r.2.2)) := ⟨rfl, rfl⟩
  exact (hc.trans hhead).trans (sameCounts_push _ r.2.2 r.2.1)

/-- `pmm_init` counts every page in both counters. -/
theorem pmmInit_total (maxPfn : Nat) (db : Nat → Page) :
    (pmmInit maxPfn db).totalPageCount = (pmmInit maxPfn db).freePageCount := by
  have hclaim : ∀ (l : List Nat) (s : Pmm), SameCounts s (l.foldl claimPage s) := by
    intro l
    induction l with
    | nil => exact fun s => ⟨rfl, rfl⟩
    | cons p l ih =>
        intro s
        have hp : SameCounts s (s.claimPage p) := by
          unfold claimPage
          split <;> exact ⟨rfl, rfl⟩
        exact hp.trans (ih _)
  have hrelease : ∀ (l : List Nat) (s : Pmm), s.totalPageCount = s.freePageCount →
      (l.foldl releasePage s).totalPageCount = (l.foldl releasePage s).freePageCount := by
    intro l
    induction l with
    | nil => exact fun s h => h
    | cons p l ih =>
        intro s h
        refine ih _ ?_
        unfold releasePage
        split
        · exact h
        · obtain ⟨hfree, htotal⟩ := sameCounts_freeBlock s p
          show (s.freeBlock p).totalPageCount + 1 = (s.freeBlock p).freePageCount + 1
          rw [hfree, htotal, h]
  unfold pmmInit
  simp only
  obtain ⟨hfree, htotal⟩ := hclaim (List.range (maxPfn + 1))
    ⟨db, maxPfn, fun _ => { head := none, count := 0 }, 0, 0⟩
  exact hrelease _ _ (htotal.trans hfree.symm)

end Pmm

namespace Pfndb

open Pmm (pfndb pmmInit FreeBlock)

variable {memmap : List MemmapEntry}

/-- What `pfndb_init` and `pmm_init` leave of a memory map. -/
structure Initialized (memmap rest : List MemmapEntry) (p : Pfndb) (s : Pmm) : Prop where
  /-- the free blocks cover the usable pages but those of the database -/
  free : ∀ q, (∃ b, FreeBlock s b ∧ q ∈ b) ↔ UsablePage memmap q ∧ ¬ p.Holds q
  freeCount : s.freePageCount = {q | UsablePage memmap q ∧ ¬ p.Holds q}.ncard
  totalCount : s.totalPageCount = {q | UsablePage memmap q ∧ ¬ p.Holds q}.ncard
  bound : s.maxPfn = p.maxPfn ∧ ∀ q, UsablePage memmap q → q ≤ p.maxPfn
  reserved : ∀ q ≤ p.maxPfn, ¬ (UsablePage memmap q ∧ ¬ p.Holds q) →
    (s.pages q).flags = PAGE_RESERVED
  /-- the database is in the storage, which was usable and is no more -/
  fits : (p.maxPfn + 1) * PAGE_T_SIZE ≤ storageSize p.maxPfn
  taken : ∀ a, p.phys ≤ a → a < p.phys + storageSize p.maxPfn →
    (∃ e ∈ memmap, e.Usable ∧ e.Has a) ∧ ∀ e ∈ rest, e.Usable → ¬ e.Has a

/-- The storage is taken out of one usable entry and left in none. -/
theorem storage_taken {pre post : List MemmapEntry} {e : MemmapEntry} {size : Nat}
    (h : WellFormed (pre ++ e :: post)) (hu : e.Usable) (hsize : size ≤ e.length) {a : Nat}
    (hle : e.base ≤ a) (hlt : a < e.base + size) :
    (∃ f ∈ pre ++ e :: post, f.Usable ∧ f.Has a)
      ∧ ∀ f ∈ pre ++ cut size e :: post, f.Usable → ¬ f.Has a := by
  have hhas : e.Has a := ⟨hle, by omega⟩
  refine ⟨⟨e, by simp, hu, hhas⟩, fun f hf hfu hfa => ?_⟩
  have hp := List.pairwise_append.mp h.apart
  rcases List.mem_append.mp hf with hf | hf
  · exact hp.2.2 f hf e List.mem_cons_self hfu hu a hfa hhas
  rcases List.mem_cons.mp hf with rfl | hf
  · have hend := (h.aligned e (by simp) hu).2.2
    have hbase : (cut size e).base = e.base + size := Nat.mod_eq_of_lt (by omega)
    have := hfa.1
    omega
  · exact (List.pairwise_cons.mp hp.2.1).1 f hf hu hfu a hhas hfa

/-- `pfndb_init` and then `pmm_init`, on every memory map that Limine may
give. -/
theorem pfndbInit_initialized (h : WellFormed memmap) (mem : Nat → Page) :
    ∃ p rest, pfndbInit memmap mem = some (p, rest)
      ∧ Initialized memmap rest p (pmmInit p.maxPfn p.memMap) := by
  obtain ⟨p, pre, e, post, hmap, hu, hsize, hinit, hmax, hphys, hshow⟩ :=
    pfndbInit_spec mem h.room
  refine ⟨p, _, hinit, ?_⟩
  have hlt := calcMaxPfn_lt memmap
  rw [← hmax] at hsize hlt hshow ⊢
  generalize hleft : (fun q => decide (∃ f ∈ pre ++ cut (storageSize p.maxPfn) e :: post,
    Marks f q)) = usable at hshow
  have hpage : ∀ q, usable q = true ↔ UsablePage memmap q ∧ ¬ p.Holds q := by
    intro q
    rw [← hleft, decide_eq_true_iff]
    exact left_iff h hmap hu hsize hlt hphys q
  have hin : ∀ q, (q < p.maxPfn + 1 ∧ usable q = true)
      ↔ UsablePage memmap q ∧ ¬ p.Holds q := by
    intro q
    rw [hpage]
    refine ⟨fun hq => hq.2, fun hq => ⟨?_, hq⟩⟩
    rw [hmax]
    exact Nat.lt_succ_of_le (hq.1.le h)
  obtain ⟨L, hcore, hbound, hcount, hpages, -⟩ :=
    Pmm.pmmInit_db fun q hq => hshow q (Nat.le_of_lt_succ hq)
  have hfree : ∀ q, (∃ b, FreeBlock (pmmInit p.maxPfn p.memMap) b ∧ q ∈ b)
      ↔ UsablePage memmap q ∧ ¬ p.Holds q := by
    intro q
    rw [hcore.free_iff q, hin q]
    refine and_iff_left fun hout => ?_
    obtain ⟨b, hb, -⟩ := hout
    cases hb
  have hcard : (pmmInit p.maxPfn p.memMap).freePageCount
      = {q | UsablePage memmap q ∧ ¬ p.Holds q}.ncard := by
    rw [hcount, hpages, Nat.count_eq_card_filter_range, ← Set.ncard_coe_finset]
    refine congrArg Set.ncard (Set.ext fun q => ?_)
    rw [Finset.mem_coe, Finset.mem_filter, Finset.mem_range]
    exact hin q
  refine ⟨hfree, hcard, (Pmm.pmmInit_total _ _).trans hcard, ⟨hbound, fun q hq => ?_⟩,
    fun q hq hno => ?_, (storageSize_spec hlt).1, fun a hle hlt => ?_⟩
  · rw [hmax]
    exact hq.le h
  · have hnot : ¬ Pmm.InFree L q := fun hf =>
      hno ((hin q).mp ((hcore.cover q).mp (Or.inl hf)))
    have hu' : usable q = false := by
      by_contra hc
      exact hno ((hpage q).mp (by simpa using hc))
    obtain ⟨-, -, hflags, -⟩ := Page.data_eq_iff.mp (hcore.kept q hnot id)
    rw [hflags, if_pos (Nat.lt_succ_of_le hq), hshow q hq]
    have hfl : (pfndb p.maxPfn usable q).flags = PAGE_RESERVED := by
      unfold pfndb
      rw [hu']
      rfl
    have hnf : (pfndb p.maxPfn usable q).free = false := by
      unfold Page.free
      rw [hfl]
      decide
    unfold Pmm.claimed
    rw [hnf]
    exact hfl
  · subst hmap
    rw [hphys] at hle hlt
    exact storage_taken h hu hsize hle hlt

/-- Two usable ranges and one that is not. -/
def smallMap : List MemmapEntry :=
  [⟨0x1000, 0x3000, 0⟩, ⟨0x5000, 0x1000, 1⟩, ⟨0x8000, 0x2000, 0⟩]

theorem wellFormed_smallMap : WellFormed smallMap where
  aligned := by decide
  apart := by
    unfold smallMap
    simp only [List.pairwise_cons, List.mem_cons, List.not_mem_nil, or_false, forall_eq_or_imp,
      forall_eq, MemmapEntry.Has]
    refine ⟨⟨fun _ hu => (by cases hu), fun _ _ a => by omega⟩, fun hu => (by cases hu), ?_⟩
    simp
  room := ⟨⟨0x1000, 0x3000, 0⟩, by simp [smallMap], rfl, by decide⟩

/-- The database takes the first page of the first range. -/
theorem pfndbInit_initialized_small :
    ∃ p rest, pfndbInit smallMap (pfndb 0 fun _ => true) = some (p, rest)
      ∧ p.phys = 0x1000 ∧ Initialized smallMap rest p (pmmInit p.maxPfn p.memMap) := by
  obtain ⟨p, rest, hinit, h⟩ :=
    pfndbInit_initialized wellFormed_smallMap (pfndb 0 fun _ => true)
  have hphys : (pfndbInit smallMap (pfndb 0 fun _ => true)).map (fun r => r.1.phys)
      = some 0x1000 := by
    decide +kernel
  rw [hinit, Option.map_some, Option.some.injEq] at hphys
  exact ⟨p, rest, hinit, hphys, h⟩

end Pfndb

end Alix
