/-
What the walk over the MADT registers.

# What goes wrong

An entry is checked against the end of the table by its own length byte,
and then read through the structure of its type, whatever that length is.
An entry that is shorter than its structure and comes last reaches past
the end.

# What holds

The entries of a table are a chain that the length bytes make (`Entries`).
The loop goes along it, so it ends, and folds the handling over the
entries (`madtLoop_fold`); each array has the entries of its type, in
order, until it is full (`fold_arrays`). So what is registered is known
from the table, and it lies inside if and only if no short entry that is
registered stands too close to the end (`madtInit_sound_iff`).
-/
import Alix.Acpi.Madt
import Mathlib.Data.List.Basic

namespace Alix.Madt

open Bytes (Memory load)

variable {m : Memory} {stop entry e : Nat} {es : List Nat} {s : Statics} {a : MadtArray}

-- ==== the statement

/-- The type byte and the length byte of an entry. -/
def typeOf (m : Memory) (e : Nat) : Nat := load m e 1
def lenOf (m : Memory) (e : Nat) : Nat := load m (e + 1) 1

/-- The entries from a place on: each ends where the next begins, and the
last is in front of the end or of something that is no entry. -/
inductive Entries (m : Memory) (stop : Nat) : Nat → List Nat → Prop
  | done {e : Nat} : ¬ (e + 2 ≤ stop ∧ 2 ≤ lenOf m e ∧ e + lenOf m e ≤ stop) →
      Entries m stop e []
  | cons {e : Nat} {es : List Nat} : e + 2 ≤ stop → 2 ≤ lenOf m e → e + lenOf m e ≤ stop →
      Entries m stop (e + lenOf m e) es → Entries m stop e (e :: es)

/-- The place behind a table. -/
def endOf (m : Memory) (madt : Nat) : Nat := madt + load m (madt + 4) 4

/-- The entries of a table. -/
def TableEntries (m : Memory) (madt : Nat) (es : List Nat) : Prop :=
  Entries m (endOf m madt) (madt + sizeofMadt) es

/-- What the call is to leave: of each type the entries in order, as many
as there is room for, and every structure inside the table. -/
structure Sound (m : Memory) (madt : Nat) (s : Statics) : Prop where
  inOrder : ∀ es, TableEntries m madt es → ∀ a,
    s.arrays a = (es.filter fun e => typeOf m e == a.type).take a.limit
  overridden : ∀ es, TableEntries m madt es →
    s.overrides = es.filter fun e => typeOf m e == MADT_LAPIC_OVERRIDE
  inside : ∀ a, ∀ e ∈ s.arrays a, madt ≤ e ∧ e + a.size ≤ endOf m madt
  inside_override : ∀ e ∈ s.overrides,
    madt ≤ e ∧ e + sizeofLapicOverride ≤ endOf m madt

/-- The call returns, with any fuel from some on. -/
def Returns (m : Memory) (madt : Nat) (s : Statics) : Prop :=
  ∃ n, ∀ fuel, n ≤ fuel → madtInit m fuel Statics.init (some madt) = some (.ok s)

/-- A short entry has room for its structure behind it: of the types that
are registered as long as their array has room, and of overrides always. -/
def ShortFit (m : Memory) (stop : Nat) (es : List Nat) : Prop :=
  ∀ pre e post, es = pre ++ e :: post →
    (∀ a : MadtArray, typeOf m e = a.type → lenOf m e < a.size →
      (pre.filter fun e => typeOf m e == a.type).length < a.limit → e + a.size ≤ stop)
    ∧ (typeOf m e = MADT_LAPIC_OVERRIDE → lenOf m e < sizeofLapicOverride →
      e + sizeofLapicOverride ≤ stop)

-- ==== the chain

/-- A place has its entries. -/
theorem exists_entries (m : Memory) (stop entry : Nat) : ∃ es, Entries m stop entry es := by
  induction hn : stop - entry using Nat.strong_induction_on generalizing entry with
  | _ n ih =>
      by_cases h : entry + 2 ≤ stop ∧ 2 ≤ lenOf m entry ∧ entry + lenOf m entry ≤ stop
      · obtain ⟨h1, h2, h3⟩ := h
        obtain ⟨es, hes⟩ := ih (stop - (entry + lenOf m entry)) (by omega) _ rfl
        exact ⟨_, Entries.cons h1 h2 h3 hes⟩
      · exact ⟨_, Entries.done h⟩

theorem Entries.unique {es' : List Nat} (h : Entries m stop entry es)
    (h' : Entries m stop entry es') : es = es' := by
  induction h generalizing es' with
  | done hno =>
      cases h' with
      | done _ => rfl
      | cons h1 h2 h3 _ => exact (hno ⟨h1, h2, h3⟩).elim
  | cons h1 h2 h3 _ ih =>
      cases h' with
      | done hno => exact (hno ⟨h1, h2, h3⟩).elim
      | cons _ _ _ hrest => rw [ih hrest]

/-- An entry lies inside the table by its own length. -/
theorem Entries.bounds (h : Entries m stop entry es) (he : e ∈ es) :
    entry ≤ e ∧ e + lenOf m e ≤ stop := by
  induction h with
  | done _ => simp at he
  | cons _ h2 h3 _ ih =>
      rcases List.mem_cons.mp he with rfl | he
      · exact ⟨Nat.le_refl _, h3⟩
      · have := ih he
        omega

-- ==== the walk

theorem madtLoop_fold (h : Entries m stop entry es) (s : Statics) :
    ∃ n, ∀ fuel, n ≤ fuel →
      madtLoop m stop fuel entry s = some (es.foldl (handleEntry m) s) := by
  induction h generalizing s with
  | @done e hno =>
      refine ⟨1, fun fuel hf => ?_⟩
      obtain ⟨fuel, rfl⟩ : ∃ k, fuel = k + 1 := ⟨fuel - 1, by omega⟩
      unfold madtLoop
      split
      · rfl
      · rename_i hle
        have hbad : load m (e + 1) 1 < 2 ∨ e + load m (e + 1) 1 > stop := by
          unfold lenOf at hno
          simp only [sizeofMadtHeader] at hle
          omega
        exact if_pos hbad
  | @cons e es h1 h2 h3 _ ih =>
      obtain ⟨n, hn⟩ := ih (handleEntry m s e)
      refine ⟨n + 1, fun fuel hf => ?_⟩
      obtain ⟨fuel, rfl⟩ : ∃ k, fuel = k + 1 := ⟨fuel - 1, by omega⟩
      have hgood : ¬ (load m (e + 1) 1 < 2 ∨ e + load m (e + 1) 1 > stop) := by
        unfold lenOf at h2 h3
        omega
      unfold madtLoop
      rw [if_neg (not_not.mpr h1)]
      exact (if_neg hgood).trans (hn fuel (by omega))

-- ==== the arrays

theorem MadtArray.type_inj {a b : MadtArray} (h : a.type = b.type) : a = b := by
  cases a <;> cases b <;> first | rfl | simp [MadtArray.type] at h

/-- The case of an array in the switch. -/
theorem handleEntry_struct (s : Statics) (h : typeOf m e = a.type) :
    handleEntry m s e = handleStruct s a e := by
  unfold typeOf at h
  unfold handleEntry
  rw [h]
  cases a <;> rfl

/-- The other cases. -/
theorem handleEntry_other (s : Statics) (h : ∀ a : MadtArray, typeOf m e ≠ a.type) :
    handleEntry m s e = if typeOf m e = MADT_LAPIC_OVERRIDE then
      { s with lapicBase := load m (e + 4) 8, overrides := s.overrides ++ [e] } else s := by
  have h1 : load m e 1 ≠ MADT_LAPIC := h .lapics
  have h2 : load m e 1 ≠ MADT_IOAPIC := h .ioapics
  have h3 : load m e 1 ≠ MADT_ISO := h .isos
  have h4 : load m e 1 ≠ MADT_LAPIC_NMI := h .nmis
  unfold handleEntry
  rw [if_neg h1, if_neg h2, if_neg h3, if_neg h4]
  rfl

theorem type_ne_override (a : MadtArray) : a.type ≠ MADT_LAPIC_OVERRIDE := by
  cases a <;> decide

/-- An entry goes into the array of its type. -/
theorem handleEntry_arrays (m : Memory) (s : Statics) (e : Nat) (a : MadtArray) :
    (handleEntry m s e).arrays a
      = if typeOf m e = a.type then boundedAppend (s.arrays a) a.limit e else s.arrays a := by
  by_cases hb : ∃ b : MadtArray, typeOf m e = b.type
  · obtain ⟨b, hb⟩ := hb
    rw [handleEntry_struct s hb]
    show Function.update s.arrays b (boundedAppend (s.arrays b) b.limit e) a = _
    by_cases hab : a = b
    · rw [hab, Function.update_self, if_pos hb]
    · have hne : typeOf m e ≠ a.type := fun h => hab (MadtArray.type_inj (h.symm.trans hb))
      rw [Function.update_of_ne hab, if_neg hne]
  · have hnone : ∀ b : MadtArray, typeOf m e ≠ b.type := fun b h => hb ⟨b, h⟩
    rw [handleEntry_other s hnone, if_neg (hnone a)]
    split <;> rfl

theorem handleEntry_overrides (m : Memory) (s : Statics) (e : Nat) :
    (handleEntry m s e).overrides
      = if typeOf m e = MADT_LAPIC_OVERRIDE then s.overrides ++ [e] else s.overrides := by
  by_cases hb : ∃ b : MadtArray, typeOf m e = b.type
  · obtain ⟨b, hb⟩ := hb
    rw [handleEntry_struct s hb, if_neg (hb ▸ type_ne_override b)]
    rfl
  · rw [handleEntry_other s fun b h => hb ⟨b, h⟩]
    split <;> rfl

/-- Appending as long as there is room. -/
theorem boundedAppend_take (L : List Nat) (n x : Nat) :
    boundedAppend (L.take n) n x = (L ++ [x]).take n := by
  unfold boundedAppend
  by_cases h : L.length < n
  · rw [List.take_of_length_le (Nat.le_of_lt h), if_pos h, List.take_of_length_le]
    rw [List.length_append, List.length_singleton]
    exact h
  · rw [if_neg (by rw [List.length_take]; omega), List.take_append_of_le_length (by omega)]

theorem fold_arrays (m : Memory) (es : List Nat) (s : Statics) (a : MadtArray) (L : List Nat)
    (h : s.arrays a = L.take a.limit) :
    (es.foldl (handleEntry m) s).arrays a
      = (L ++ es.filter fun e => typeOf m e == a.type).take a.limit := by
  induction es generalizing s L with
  | nil => simpa using h
  | cons e es ih =>
      rw [List.foldl_cons]
      by_cases he : typeOf m e = a.type
      · have hnext : (handleEntry m s e).arrays a = (L ++ [e]).take a.limit := by
          rw [handleEntry_arrays, if_pos he, h, boundedAppend_take]
        rw [ih _ _ hnext, List.filter_cons_of_pos (by simpa using he), List.append_assoc]
        rfl
      · have hnext : (handleEntry m s e).arrays a = L.take a.limit := by
          rw [handleEntry_arrays, if_neg he, h]
        rw [ih _ _ hnext, List.filter_cons_of_neg (by simpa using he)]

theorem fold_overrides (m : Memory) (es : List Nat) (s : Statics) :
    (es.foldl (handleEntry m) s).overrides
      = s.overrides ++ es.filter fun e => typeOf m e == MADT_LAPIC_OVERRIDE := by
  induction es generalizing s with
  | nil => simp
  | cons e es ih =>
      rw [List.foldl_cons, ih, handleEntry_overrides]
      by_cases he : typeOf m e = MADT_LAPIC_OVERRIDE
      · simp [he]
      · simp [he]

/-- What is among the first that a test picks. -/
theorem mem_take_filter {p : Nat → Bool} {n : Nat} :
    e ∈ (es.filter p).take n
      ↔ ∃ pre post, es = pre ++ e :: post ∧ p e = true ∧ (pre.filter p).length < n := by
  constructor
  · intro h
    induction es generalizing n with
    | nil => simp at h
    | cons x es ih =>
        by_cases hx : p x = true
        · rw [List.filter_cons_of_pos hx] at h
          cases n with
          | zero => simp at h
          | succ n =>
              rw [List.take_succ_cons] at h
              rcases List.mem_cons.mp h with rfl | h
              · exact ⟨[], es, rfl, hx, Nat.succ_pos n⟩
              · obtain ⟨pre, post, rfl, hp, hlt⟩ := ih h
                refine ⟨x :: pre, post, rfl, hp, ?_⟩
                rw [List.filter_cons_of_pos hx, List.length_cons]
                omega
        · rw [List.filter_cons_of_neg hx] at h
          obtain ⟨pre, post, rfl, hp, hlt⟩ := ih h
          exact ⟨x :: pre, post, rfl, hp, by rwa [List.filter_cons_of_neg hx]⟩
  · rintro ⟨pre, post, rfl, hp, hlt⟩
    rw [List.filter_append, List.filter_cons_of_pos hp, List.take_append]
    refine List.mem_append_right _ ?_
    obtain ⟨k, hk⟩ : ∃ k, n - (pre.filter p).length = k + 1 :=
      ⟨n - (pre.filter p).length - 1, by omega⟩
    rw [hk, List.take_succ_cons]
    exact List.mem_cons_self

-- ==== the results

/-- The call returns, with the entries of each type that there is room
for. -/
theorem madtInit_returns (m : Memory) (madt : Nat) (h : TableEntries m madt es) :
    ∃ s, Returns m madt s
      ∧ (∀ a, s.arrays a = (es.filter fun e => typeOf m e == a.type).take a.limit)
      ∧ s.overrides = es.filter fun e => typeOf m e == MADT_LAPIC_OVERRIDE := by
  let start : Statics :=
    { madt := some madt
      lapicBase := load m (madt + 36) 4
      arrays := fun _ => []
      overrides := []
      outb := if load m (madt + 40) 4 % 2 = 1 then [(0x21, 0xff), (0xa1, 0xff)] else [] }
  obtain ⟨n, hn⟩ := madtLoop_fold h start
  refine ⟨es.foldl (handleEntry m) start, ⟨n, fun fuel hf => ?_⟩, ?_, ?_⟩
  · have hcall : madtInit m fuel Statics.init (some madt)
        = (madtLoop m (endOf m madt) fuel (madt + sizeofMadt) start).map .ok := by
      unfold madtInit
      simp only [start, Statics.init, List.nil_append]
      split <;> rfl
    rw [hcall, hn fuel hf]
    rfl
  · intro a
    rw [fold_arrays m es start a [] (by simp [start]), List.nil_append]
  · rw [fold_overrides]
    rfl

theorem Returns.unique {s s' : Statics} {madt : Nat} (h : Returns m madt s)
    (h' : Returns m madt s') : s = s' := by
  obtain ⟨n, hn⟩ := h
  obtain ⟨n', hn'⟩ := h'
  have hs := hn (max n n') (Nat.le_max_left _ _)
  rw [hn' (max n n') (Nat.le_max_right _ _)] at hs
  simpa using hs.symm

/-- `madt_init` returns, has registered the entries of each type in order,
and every structure is inside the table, if and only if every short entry
that is registered has room for its structure in front of the end. -/
theorem madtInit_sound_iff (m : Memory) (madt : Nat) :
    (∃ s, Returns m madt s ∧ Sound m madt s)
      ↔ ∀ es, TableEntries m madt es → ShortFit m (endOf m madt) es := by
  obtain ⟨es, hes⟩ := exists_entries m (endOf m madt) (madt + sizeofMadt)
  obtain ⟨s, hret, harrays, hover⟩ := madtInit_returns m madt hes
  constructor
  · rintro ⟨s', hret', hsound⟩ es' hes'
    rw [hret'.unique hret] at hsound
    rw [hes'.unique hes]
    intro pre e post hsplit
    refine ⟨fun a htype _ hroom => ?_, fun htype _ => ?_⟩
    · refine (hsound.inside a e ?_).2
      rw [harrays a, mem_take_filter]
      exact ⟨pre, post, hsplit, by simpa using htype, hroom⟩
    · refine (hsound.inside_override e ?_).2
      rw [hover, hsplit]
      simp [htype]
  · intro hshort
    have hfit := hshort es hes
    refine ⟨s, hret, ?_, ?_, ?_, ?_⟩
    · intro es' hes' a
      rw [hes'.unique hes, harrays a]
    · intro es' hes'
      rw [hes'.unique hes, hover]
    · intro a e he
      rw [harrays a, mem_take_filter] at he
      obtain ⟨pre, post, hsplit, htype, hroom⟩ := he
      have hb := hes.bounds (e := e) (by rw [hsplit]; simp)
      refine ⟨by omega, ?_⟩
      by_cases hlen : lenOf m e < a.size
      · exact (hfit pre e post hsplit).1 a (by simpa using htype) hlen hroom
      · omega
    · intro e he
      rw [hover, List.mem_filter] at he
      have hb := hes.bounds he.1
      obtain ⟨pre, post, hsplit⟩ := List.append_of_mem he.1
      refine ⟨by omega, ?_⟩
      by_cases hlen : lenOf m e < sizeofLapicOverride
      · exact (hfit pre e post hsplit).2 (by simpa using he.2) hlen
      · omega

/-- A table of 46 bytes at 4096, whose only entry is a local APIC of two
bytes. -/
def shortTable : Memory := fun x => if x = 4100 then 46 else if x = 4141 then 2 else 0

/-- Its structure is registered, and ends six bytes behind the table. -/
theorem madtInit_short : ∃ s, Returns shortTable 4096 s ∧ s.arrays .lapics = [4140]
    ∧ endOf shortTable 4096 = 4142 ∧ ¬ Sound shortTable 4096 s := by
  have hend : endOf shortTable 4096 = 4142 := by decide
  have hentries : TableEntries shortTable 4096 [4140] := by
    unfold TableEntries
    rw [hend]
    exact Entries.cons (by decide) (by decide) (by decide) (Entries.done (by decide))
  obtain ⟨s, hret, harrays, -⟩ := madtInit_returns shortTable 4096 hentries
  have hlapics : s.arrays .lapics = [4140] := by
    rw [harrays]
    decide
  refine ⟨s, hret, hlapics, hend, fun hsound => ?_⟩
  have hinside := (hsound.inside .lapics 4140 (by simp [hlapics])).2
  rw [hend] at hinside
  exact absurd hinside (by decide)

end Alix.Madt
