/-
Ranges that wrap.

# What can go wrong

A length above `2^64 - 4096` rounds up to 0, and none of the calls looks
for that. `vas_range_mapped` then finds the empty range mapped, and
`vas_map_anon` and `vas_map_phys` insert an empty descriptor. Where the sum
of start and length passes `2^64`, `vas_range_mapped` and the placement of
new ranges refuse, but `vas_unmap` and `vas_protect` go on with an end
below the start: a descriptor that has both ends inside is in the way of
the inverted range, and `vas_unmap` replaces it by two that overlap.

# What holds

For each call the exact condition under which it refuses a range that
wraps and leaves everything as it was (`vas_wrap_iff`).
-/
import Alix.Mm.Proofs.Rounding

namespace Alix

open Paging

variable {l : List Vad} {base length start stop : Nat} {x : Vad}

-- ==== the free range

/-- A base that wraps with the length keeps wrapping further up, so
`vas_find_free` finds nothing. -/
theorem findFree_wrap (h : VadsOk l) (hbase : base < 2 ^ 64)
    (hlen : length ≤ 2 ^ 64 - PAGE_SIZE) (hwrap : 2 ^ 64 ≤ base + length)
    (hstop : stop = (base + length) % 2 ^ 64) :
    (findFree length l base stop).2 < (findFree length l base stop).1 := by
  have hs : PAGE_SIZE = 4096 := rfl
  rw [hs] at hlen
  induction l generalizing base stop with
  | nil =>
      unfold Alix.findFree
      show stop < base
      omega
  | cons v l ih =>
      have hv := h.fits v List.mem_cons_self
      unfold Alix.findFree
      split
      · show stop < base
        omega
      split
      · simp only [pageAlignUp_of_aligned hv.2.2.2 hv.2.1]
        exact ih h.tail hv.2.1 (by omega) rfl
      · exact ih h.tail hbase hwrap hstop

namespace Vm

variable {s s' : Vm} {a hint phys : Nat} {v : Vas} {flags newFlags : Word}

-- ==== the statement

/-- Rounding the length up, or adding it to the start, passes `2^64`. -/
def Wraps (start length : Nat) : Prop :=
  2 ^ 64 - PAGE_SIZE < length ∨ 2 ^ 64 ≤ start + pageAlignUp length

/-- The spaces and the words of memory are as they were. -/
def Untouched (s s' : Vm) : Prop := s'.spaces = s.spaces ∧ s'.mach.mem = s.mach.mem

/-- Where `vas_map_anon` and `vas_map_phys` start to look. -/
def mapStart (v : Vas) (hint : Nat) (flags : Word) : Nat :=
  if hasFlag flags VAD_FIXED then pageAlignDown hint
  else pageAlignUp (if hint ≠ 0 then hint else v.userStart)

/-- There is no place even for an empty range. -/
def NoPlace (v : Vas) (hint : Nat) (flags : Word) : Prop :=
  if hasFlag flags VAD_FIXED then
    VAS_USER_END < pageAlignDown hint
      ∨ ∃ x ∈ v.list, x.start < pageAlignDown hint ∧ pageAlignDown hint < x.stop
  else vasFindFree v.list (if hint ≠ 0 then hint else v.userStart) 0 = 0

-- ==== new ranges

/-- A sum that wraps is refused. -/
theorem placement_wrap (h : VadsOk v.list) (hhint : hint < 2 ^ 64)
    (hlen : length ≤ 2 ^ 64 - PAGE_SIZE) (hwrap : Wraps (mapStart v hint flags) length) :
    placement v hint (pageAlignUp length) flags = none := by
  have hs : PAGE_SIZE = 4096 := rfl
  have hsum := hwrap.resolve_left (Nat.not_lt_of_le hlen)
  have hup : pageAlignUp length ≤ 2 ^ 64 - PAGE_SIZE := by
    have h1 := pageAlignUp_mod length
    have h2 := pageAlignUp_lt length
    rw [hs] at h1 ⊢
    omega
  have hlt := pageAlignUp_lt length
  have hdown := pageAlignDown_le hint
  unfold mapStart at hsum
  unfold placement
  by_cases hfixed : hasFlag flags VAD_FIXED = true
  · rw [if_pos hfixed] at hsum ⊢
    simp only
    rw [if_pos]
    omega
  · rw [if_neg hfixed] at hsum ⊢
    simp only
    generalize (if hint ≠ 0 then hint else v.userStart) = start at hsum ⊢
    have hnone := findFree_wrap h (pageAlignUp_lt start) hup hsum rfl
    have hzero : vasFindFree v.list start (pageAlignUp length) = 0 := if_pos (Or.inr hnone)
    rw [if_pos hzero]

/-- An empty range goes anywhere but there. -/
theorem placement_zero (h : VadsOk v.list) (hhint : hint < 2 ^ 64) :
    placement v hint 0 flags = none ↔ NoPlace v hint flags := by
  unfold placement NoPlace
  by_cases hfixed : hasFlag flags VAD_FIXED = true
  · rw [if_pos hfixed, if_pos hfixed]
    have hdown := pageAlignDown_le hint
    have hsum : (pageAlignDown hint + 0) % 2 ^ 64 = pageAlignDown hint := by omega
    simp only [hsum, Nat.lt_irrefl, or_false]
    have hmeets : vasOverlaps v.list (pageAlignDown hint) (pageAlignDown hint) = true
        ↔ Meets v.list (pageAlignDown hint) (pageAlignDown hint) := h.overlaps
    split
    · rename_i hend
      exact ⟨fun _ => Or.inl hend, fun _ => rfl⟩
    · rename_i hend
      split
      · rename_i hover
        exact ⟨fun _ => Or.inr (hmeets.mp hover), fun _ => rfl⟩
      · rename_i hover
        exact ⟨fun e => (by cases e), fun e => (hover (hmeets.mpr (e.resolve_left hend))).elim⟩
  · rw [if_neg hfixed, if_neg hfixed]
    generalize (if hint ≠ 0 then hint else v.userStart) = start
    simp only
    split
    · rename_i hzero
      exact ⟨fun _ => hzero, fun _ => rfl⟩
    · rename_i hne
      exact ⟨fun e => (by cases e), fun e => (hne e).elim⟩

theorem setSpace_changed (hv : s.spaces a = some v) {w : Vas} (hne : w.list ≠ v.list) :
    ¬ Untouched s (s'.setSpace a (some w)) := by
  intro h
  have := congrFun h.1 a
  rw [setSpace_self, hv] at this
  exact hne (by rw [Option.some.inj this])

theorem HeapRun.untouched (h : HeapRun s s') : Untouched s s' := ⟨h.spaces.1, h.mem⟩

theorem pages_self (n : Nat) : pages n n = [] := pages_empty (Nat.le_refl n)

theorem setSpace_inserted (hv : s.spaces a = some v) {vad : Vad} {n : Nat} :
    ¬ Untouched s (s'.setSpace a (some ⟨v.pml4, vadInsert vad v.list, n⟩)) := by
  refine setSpace_changed hv fun he => ?_
  have := congrArg List.length he
  rw [length_vadInsert] at this
  omega

/-- An empty range does not wrap. -/
theorem Wraps.ne_zero (h : Wraps start length) (hstart : start < 2 ^ 64) : length ≠ 0 := by
  rintro rfl
  have hup : pageAlignUp 0 = 0 := by decide
  unfold Wraps at h
  rw [hup] at h
  exact h.elim (by decide) (by omega)

theorem mapStart_lt (hhint : hint < 2 ^ 64) : mapStart v hint flags < 2 ^ 64 := by
  have := pageAlignDown_le hint
  unfold mapStart
  split
  · omega
  · exact pageAlignUp_lt _

/-- A new range that wraps, from what the call does without a place, and with
a place for the empty range: out of memory, and with a descriptor. -/
theorem map_wrap {r : Except VmPanic (Vm × Nat)} (hok : VadsOk v.list)
    (hhint : hint < 2 ^ 64) (hlen : length < 2 ^ 64)
    (hwrap : Wraps (mapStart v hint flags) length)
    (hrefuse : placement v hint (pageAlignUp length) flags = none → r = .ok (s, 0))
    (hfull : ∀ base s1, pageAlignUp length = 0 → placement v hint 0 flags = some base →
      s.kzalloc = (s1, false) → r = .ok (s1, 0))
    (hinsert : ∀ base s1, pageAlignUp length = 0 → placement v hint 0 flags = some base →
      s.kzalloc = (s1, true) → ∀ s', r = .ok (s', 0) → ¬ Untouched s s') :
    (∃ s', r = .ok (s', 0) ∧ Untouched s s')
      ↔ length ≤ 2 ^ 64 - PAGE_SIZE ∨ NoPlace v hint flags ∨ s.kzalloc.2 = false := by
  have hstays : placement v hint (pageAlignUp length) flags = none →
      ∃ s', r = .ok (s', 0) ∧ Untouched s s' := fun h => ⟨s, hrefuse h, rfl, rfl⟩
  by_cases hle : length ≤ 2 ^ 64 - PAGE_SIZE
  · exact ⟨fun _ => Or.inl hle, fun _ => hstays (placement_wrap hok hhint hle hwrap)⟩
  have hup : pageAlignUp length = 0 := pageAlignUp_wrap (Nat.lt_of_not_le hle) hlen
  rw [hup] at hstays
  cases hplace : placement v hint 0 flags with
  | none =>
      exact ⟨fun _ => Or.inr (Or.inl ((placement_zero hok hhint).mp hplace)),
        fun _ => hstays hplace⟩
  | some base =>
      have hno : ¬ NoPlace v hint flags := fun h => by
        rw [(placement_zero hok hhint).mpr h] at hplace
        cases hplace
      cases hk : s.kzalloc with
      | mk s1 ok =>
      cases ok with
      | false =>
          exact ⟨fun _ => Or.inr (Or.inr rfl),
            fun _ => ⟨s1, hfull base s1 hup hplace hk, (heapRun_kzalloc hk).untouched⟩⟩
      | true =>
          refine ⟨fun ⟨s', hs', hsame⟩ => (hinsert base s1 hup hplace hk s' hs' hsame).elim,
            fun h => ?_⟩
          exact (h.resolve_left hle).elim (fun h => (hno h).elim) fun h => (by cases h)

/-- `vas_map_anon` of a range that wraps. -/
theorem vasMapAnon_wrap (hv : s.spaces a = some v) (hok : VadsOk v.list) (hhint : hint < 2 ^ 64)
    (hlen : length < 2 ^ 64) (hwrap : Wraps (mapStart v hint flags) length) :
    (∃ s', s.vasMapAnon a hint length flags = .ok (s', 0) ∧ Untouched s s')
      ↔ length ≤ 2 ^ 64 - PAGE_SIZE ∨ NoPlace v hint flags ∨ s.kzalloc.2 = false := by
  have hpos := hwrap.ne_zero (mapStart_lt hhint)
  refine map_wrap hok hhint hlen hwrap (fun hnone => ?_) (fun base s1 hup hplace hk => ?_)
    fun base s1 hup hplace hk s' hs' hsame => ?_
  · unfold vasMapAnon
    simp only [hv, if_neg hpos, hnone]
  · unfold vasMapAnon
    simp only [hv, if_neg hpos, hup, hplace, hk]
  · -- an empty descriptor is inserted
    have hbase := (hok.placement (by decide) hplace).2.1
    rw [Nat.add_zero] at hbase
    unfold vasMapAnon at hs'
    simp only [hv, if_neg hpos, hup, hplace, hk, Nat.add_zero, hbase, Machine.commitAnon,
      pages_self, Machine.commitPages, ne_eq, not_true_eq_false, if_false] at hs'
    obtain ⟨rfl, -⟩ := Prod.mk.inj (Except.ok.inj hs')
    exact setSpace_inserted hv hsame

/-- `vas_map_phys` of a range that wraps. -/
theorem vasMapPhys_wrap (hv : s.spaces a = some v) (hok : VadsOk v.list) (hhint : hint < 2 ^ 64)
    (hlen : length < 2 ^ 64) (hwrap : Wraps (mapStart v hint flags) length) :
    (∃ s', s.vasMapPhys a hint phys length flags = .ok (s', 0) ∧ Untouched s s')
      ↔ length ≤ 2 ^ 64 - PAGE_SIZE ∨ NoPlace v hint flags ∨ s.kzalloc.2 = false := by
  have hpos := hwrap.ne_zero (mapStart_lt hhint)
  refine map_wrap hok hhint hlen hwrap (fun hnone => ?_) (fun base s1 hup hplace hk => ?_)
    fun base s1 hup hplace hk s' hs' hsame => ?_
  · unfold vasMapPhys
    simp only [hv, if_neg hpos, hnone]
  · have hbase := (hok.placement (by decide) hplace).2.1
    rw [Nat.add_zero] at hbase
    unfold vasMapPhys
    simp only [hv, if_neg hpos, hup, hplace, pages_self, mapPhysPages, ne_eq,
      not_true_eq_false, if_false, hk, Nat.add_zero, hbase, Machine.uncommitRange]
    rfl
  · unfold vasMapPhys at hs'
    simp only [hv, if_neg hpos, hup, hplace, pages_self, mapPhysPages, ne_eq,
      not_true_eq_false, if_false, hk] at hs'
    obtain ⟨rfl, -⟩ := Prod.mk.inj (Except.ok.inj hs')
    exact setSpace_inserted hv hsame

-- ==== old ranges

/-- A range that wraps ends in front of its start. -/
theorem roundedEnd_wrap (hstart : start < 2 ^ 64) (hlen : length < 2 ^ 64)
    (hwrap : Wraps (pageAlignDown start) length) :
    roundedEnd start length ≤ pageAlignDown start
      ∧ (length ≤ 2 ^ 64 - PAGE_SIZE ↔ roundedEnd start length < pageAlignDown start) := by
  have hs : PAGE_SIZE = 4096 := rfl
  have hdown := pageAlignDown_le start
  have h1 := pageAlignUp_mod length
  have h2 := pageAlignUp_lt length
  unfold roundedEnd
  by_cases hle : length ≤ 2 ^ 64 - PAGE_SIZE
  · have := hwrap.resolve_left (Nat.not_lt_of_le hle)
    omega
  · rw [pageAlignUp_wrap (Nat.lt_of_not_le hle) hlen]
    omega

/-- `vas_range_mapped` of a range that wraps. -/
theorem vasRangeMapped_wrap (hv : s.spaces a = some v) (hok : VadsOk v.list)
    (hstart : start < 2 ^ 64) (hlen : length < 2 ^ 64)
    (hwrap : Wraps (pageAlignDown start) length) :
    s.vasRangeMapped a start length = false ↔ length ≤ 2 ^ 64 - PAGE_SIZE := by
  obtain ⟨hend, hiff⟩ := roundedEnd_wrap hstart hlen hwrap
  have hdown := pageAlignDown_le start
  have hpos := hwrap.ne_zero (by omega)
  rw [← Bool.not_eq_true, vasRangeMapped_eq start hv hok (Nat.pos_of_ne_zero hpos), hiff]
  constructor
  · intro h
    by_contra hge
    exact h ⟨by omega, fun x h1 h2 => by omega⟩
  · exact fun h he => absurd he.1 (by omega)

section inverted

variable {lo hi : Nat}

theorem cutPages_inverted (hle : hi ≤ lo) (l : List Vad) : cutPages lo hi l = [] := by
  refine List.flatMap_eq_nil_iff.mpr fun w _ => pages_empty ?_
  split <;> split <;> omega

/-- A descriptor with both ends inside becomes two. -/
theorem length_removeRange (hle : hi ≤ lo) (l : List Vad) :
    (removeRange lo hi l).length
      = l.length + l.countP fun x => x.start < hi ∧ lo < x.stop := by
  induction l with
  | nil => rfl
  | cons v l ih =>
      unfold removeRange
      rw [List.countP_cons]
      by_cases hout : v.stop ≤ lo ∨ v.start ≥ hi
      · have hno : ¬ (v.start < hi ∧ lo < v.stop) := by omega
        rw [if_pos hout, List.length_cons, List.length_cons, ih, if_neg (by simpa using hno)]
        omega
      · have hyes : v.start < hi ∧ lo < v.stop := by omega
        have hpieces : (piecesOf lo hi v).length = 2 := by
          unfold piecesOf
          rw [if_pos (by omega), if_pos (by omega)]
          rfl
        rw [if_neg hout, List.length_append, hpieces, List.length_cons, ih,
          if_pos (decide_eq_true hyes)]
        omega

/-- Where nothing meets the range, nothing is done. -/
theorem vadRemoveRange_apart {l : List Vad}
    (h : ∀ x ∈ l, ¬ (x.start < hi ∧ lo < x.stop)) (s : Vm) :
    vadRemoveRange lo hi l s = .ok (s, l) := by
  induction l with
  | nil => rfl
  | cons v l ih =>
      have hv := h v List.mem_cons_self
      unfold vadRemoveRange
      rw [if_pos (by omega), ih fun x hx => h x (List.mem_cons_of_mem _ hx)]

/-- The loop of `vas_protect`, without a page. -/
theorem protectVads_inverted {l : List Vad} (hok : VadsOk l) (hle : hi ≤ lo) (m : Mach)
    (r : Nat) (flags : Word) : Machine.protectVads r lo hi flags l m
      = (m, l.map (protectVad lo hi flags), 0) := by
  induction l with
  | nil => rfl
  | cons v l ih =>
      rw [List.map_cons]
      unfold Machine.protectVads
      split
      · rename_i hlt
        split
        · rename_i hskip
          have hsame : protectVad lo hi flags v = v := if_neg fun e => by omega
          rw [ih hok.tail, hsame]
        · rename_i hgt
          have hnone : pages (if v.start > lo then v.start else lo)
              (if v.stop < hi then v.stop else hi) = [] := by
            apply pages_empty
            split <;> split <;> omega
          have hnew : protectVad lo hi flags v
              = { v with flags := (v.flags &&& ~~~VAD_PROT_MASK) ||| flags } :=
            if_pos ⟨hlt, Nat.lt_of_not_le hgt⟩
          simp only [hnone, Machine.remapPages, ne_eq, not_true_eq_false, if_false,
            ih hok.tail, hnew]
      · rename_i hge
        rw [← List.map_cons, hok.protect_behind hge]

end inverted

/-- Flags that are there already. -/
theorem protectFlags_self {w : Word} : protectFlags (newFlags &&& VAD_PROT_MASK) w = w
    ↔ w &&& VAD_PROT_MASK = newFlags &&& VAD_PROT_MASK := by
  constructor
  · intro h
    have := protectFlags_prot newFlags w
    rw [h] at this
    exact this
  · intro h
    unfold protectFlags
    rw [← h]
    apply BitVec.eq_of_getLsbD_eq
    intro i hi
    rw [BitVec.getLsbD_or, BitVec.getLsbD_and, BitVec.getLsbD_and, BitVec.getLsbD_not,
      decide_eq_true hi]
    cases w.getLsbD i <;> cases VAD_PROT_MASK.getLsbD i <;> rfl

/-- `vas_unmap` of a range that wraps. -/
theorem vasUnmap_wrap (hv : s.spaces a = some v) (hok : VadsOk v.list)
    (hstart : start < 2 ^ 64) (hlen : length < 2 ^ 64)
    (hwrap : Wraps (pageAlignDown start) length) :
    (∃ s' rc, s.vasUnmap a start length = .ok (s', rc) ∧ Untouched s s')
      ↔ ∀ x ∈ v.list, ¬ (x.start < roundedEnd start length ∧ pageAlignDown start < x.stop) := by
  have hend := (roundedEnd_wrap hstart hlen hwrap).1
  have hdown := pageAlignDown_le start
  have hpos := hwrap.ne_zero (by omega)
  have hun : Machine.unmapVads v.pml4 (pageAlignDown start) (roundedEnd start length) v.list
      s.mach = .ok s.mach := by
    rw [unmapVads_eq hok, cutPages_inverted hend]
    rfl
  unfold roundedEnd at hun hend ⊢
  unfold vasUnmap
  simp only [hv, if_neg hpos, hun, lift]
  constructor
  · intro h
    obtain ⟨s', rc, hs', hsame⟩ := h
    cases hrem : vadRemoveRange (pageAlignDown start)
        ((pageAlignDown start + pageAlignUp length) % 2 ^ 64) v.list
        { s with mach := s.mach } with
    | error e =>
        rw [hrem] at hs'
        cases hs'
    | ok r =>
        obtain ⟨s1, list⟩ := r
        rw [hrem] at hs'
        simp only at hs'
        obtain ⟨rfl, -⟩ := Prod.mk.inj (Except.ok.inj hs')
        obtain ⟨rfl, -⟩ := vadRemoveRange_spec hrem
        by_contra hmeet
        refine setSpace_changed hv (fun he => hmeet fun x hx hin => ?_) hsame
        have hlength := congrArg List.length he
        rw [length_removeRange hend] at hlength
        have hzero := List.countP_eq_zero.mp (Nat.add_eq_left.mp hlength) x hx
        exact hzero (decide_eq_true hin)
  · intro h
    rw [vadRemoveRange_apart h]
    refine ⟨_, 0, rfl, ?_, rfl⟩
    show Function.update s.spaces a (some v) = s.spaces
    rw [← hv, Function.update_eq_self]

/-- `vas_protect` of a range that wraps. -/
theorem vasProtect_wrap (hv : s.spaces a = some v) (hok : VadsOk v.list)
    (hstart : start < 2 ^ 64) (hlen : length < 2 ^ 64)
    (hwrap : Wraps (pageAlignDown start) length) :
    Untouched s (s.vasProtect a start length newFlags).1
      ↔ ∀ x ∈ v.list, x.start < roundedEnd start length → pageAlignDown start < x.stop →
        x.flags &&& VAD_PROT_MASK = newFlags &&& VAD_PROT_MASK := by
  have hend := (roundedEnd_wrap hstart hlen hwrap).1
  have hdown := pageAlignDown_le start
  have hpos := hwrap.ne_zero (by omega)
  unfold roundedEnd at hend ⊢
  unfold vasProtect
  simp only [hv, if_neg hpos, protectVads_inverted hok hend]
  generalize (pageAlignDown start + pageAlignUp length) % 2 ^ 64 = hi at hend ⊢
  generalize pageAlignDown start = lo at hend ⊢
  have hsame : ∀ x, protectVad lo hi (newFlags &&& VAD_PROT_MASK) x = x
      ↔ (x.start < hi → lo < x.stop →
        x.flags &&& VAD_PROT_MASK = newFlags &&& VAD_PROT_MASK) := by
    intro x
    unfold protectVad
    split
    · rename_i hin
      refine ⟨fun e _ _ => protectFlags_self.mp (congrArg Vad.flags e), fun h => ?_⟩
      rw [protectFlags_self.mpr (h hin.1 hin.2)]
    · rename_i hout
      exact ⟨fun _ h1 h2 => (hout ⟨h1, h2⟩).elim, fun _ => rfl⟩
  constructor
  · intro h
    by_contra hne
    refine setSpace_changed hv (fun he => hne fun x hx => (hsame x).mp ?_) h
    exact List.map_inj_left.mp (he.trans (List.map_id _).symm) x hx
  · intro h
    have hmap : v.list.map (protectVad lo hi (newFlags &&& VAD_PROT_MASK)) = v.list :=
      (List.map_congr_left fun x hx => (hsame x).mpr (h x hx)).trans (List.map_id _)
    rw [hmap]
    refine ⟨?_, rfl⟩
    show Function.update s.spaces a (some v) = s.spaces
    rw [← hv, Function.update_eq_self]

-- ==== the result

/-- When each call refuses a range that wraps: `vas_map_anon` and
`vas_map_phys` return 0, `vas_range_mapped` says no, and nothing changes. -/
theorem vas_wrap_iff (hv : s.spaces a = some v) (hok : VadsOk v.list) (start hint length phys : Nat)
    (flags newFlags : Word) (hstart : start < 2 ^ 64) (hhint : hint < 2 ^ 64)
    (hlen : length < 2 ^ 64) :
    (Wraps (mapStart v hint flags) length →
      ((∃ s', s.vasMapAnon a hint length flags = .ok (s', 0) ∧ Untouched s s')
        ↔ length ≤ 2 ^ 64 - PAGE_SIZE ∨ NoPlace v hint flags ∨ s.kzalloc.2 = false)
      ∧ ((∃ s', s.vasMapPhys a hint phys length flags = .ok (s', 0) ∧ Untouched s s')
        ↔ length ≤ 2 ^ 64 - PAGE_SIZE ∨ NoPlace v hint flags ∨ s.kzalloc.2 = false))
    ∧ (Wraps (pageAlignDown start) length →
      (s.vasRangeMapped a start length = false ↔ length ≤ 2 ^ 64 - PAGE_SIZE)
      ∧ ((∃ s' rc, s.vasUnmap a start length = .ok (s', rc) ∧ Untouched s s')
        ↔ ∀ x ∈ v.list, ¬ (x.start < roundedEnd start length ∧ pageAlignDown start < x.stop))
      ∧ (Untouched s (s.vasProtect a start length newFlags).1
        ↔ ∀ x ∈ v.list, x.start < roundedEnd start length → pageAlignDown start < x.stop →
          x.flags &&& VAD_PROT_MASK = newFlags &&& VAD_PROT_MASK)) :=
  ⟨fun h => ⟨vasMapAnon_wrap hv hok hhint hlen h, vasMapPhys_wrap hv hok hhint hlen h⟩,
    fun h => ⟨vasRangeMapped_wrap hv hok hstart hlen h, vasUnmap_wrap hv hok hstart hlen h,
      vasProtect_wrap hv hok hstart hlen h⟩⟩

/-- The sum wraps, and no descriptor is in the way of the inverted range. -/
theorem vas_wrap_refused : ∃ (s : Vm) (v : Vas), s.spaces 0 = some v
    ∧ s.vasRangeMapped 0 0x7000 (2 ^ 64 - 0x2000) = false
    ∧ (∃ s' rc, s.vasUnmap 0 0x7000 (2 ^ 64 - 0x2000) = .ok (s', rc) ∧ Untouched s s')
    ∧ Untouched s (s.vasProtect 0 0x7000 (2 ^ 64 - 0x2000) 0).1 := by
  obtain ⟨s, v, -, hv, hlist, ht⟩ := reachable_twoPages
  have hwrap : Wraps (pageAlignDown 0x7000) (2 ^ 64 - 0x2000) := Or.inr (by decide)
  obtain ⟨h1, h2, h3⟩ := (vas_wrap_iff hv ht.list 0x7000 0 (2 ^ 64 - 0x2000) 0 0 0 (by decide)
    (by decide) (by decide)).2 hwrap
  have hnone : ∀ x ∈ v.list, ¬ (x.start < roundedEnd 0x7000 (2 ^ 64 - 0x2000)
      ∧ pageAlignDown 0x7000 < x.stop) := by
    rw [hlist]
    intro x hx
    rw [List.mem_singleton.mp hx]
    decide
  exact ⟨s, v, hv, h1.mpr (by decide), h2.mpr hnone,
    h3.mpr fun x hx hx1 hx2 => (hnone x hx ⟨hx1, hx2⟩).elim⟩

/-- The longest range is mapped, and to unmap it splits a descriptor. -/
theorem vas_wrap_longest : ∃ (s : Vm) (v : Vas), Reachable UserCall bootVm s
    ∧ s.spaces 0 = some v ∧ Wraps (pageAlignDown 0x6000) (2 ^ 64 - 1)
    ∧ s.vasRangeMapped 0 0x6000 (2 ^ 64 - 1) = true
    ∧ ¬ ∃ s' rc, s.vasUnmap 0 0x6000 (2 ^ 64 - 1) = .ok (s', rc) ∧ Untouched s s' := by
  obtain ⟨s, v, hreach, hv, hlist, ht⟩ := reachable_twoPages
  have hwrap : Wraps (pageAlignDown 0x6000) (2 ^ 64 - 1) := Or.inl (by decide)
  refine ⟨s, v, hreach, hv, hwrap, ?_, fun h => ?_⟩
  · rw [← Bool.not_eq_false, vasRangeMapped_wrap hv ht.list (by decide) (by decide) hwrap]
    decide
  · have hall := (vasUnmap_wrap hv ht.list (by decide) (by decide) hwrap).mp h
    rw [hlist] at hall
    exact hall _ List.mem_cons_self (by decide)

end Vm

end Alix
