/-
Where the relocations of a driver are written.

# What can go wrong

`sdi_elf_apply_relocations` compares `r_offset` with `sh_size`, and
`sdi_elf_apply_relocation` then writes four or eight bytes there,
depending on the type. A field that starts in the last bytes of its
section reaches behind it: with a section of eight bytes and an
`R_X86_64_64` at 4 the loader overwrites four bytes of whatever the heap
has put behind the module, and returns 0.

# What holds

Nothing else does: when the loader returns 0 every field of every loaded
section has been written where its entry says, and so all writes are
inside their sections exactly when all fields fit (`relocations_inside_iff`).
This is of an image that the writes do not meet; `ElfMem.lean` has both in
one memory.
-/
import Alix.Sdi.Elf

namespace Alix.Elf

open Bytes (Memory)

variable {address : String → Nat} {ctx : ElfContext} {ws l : List Write} {w : Write}
  {step : Nat → Option (List Write)} {i n r : Nat}

-- ==== writes

/-- How many bytes `sdi_elf_apply_relocation` writes. -/
def relocWidth (type : Nat) : Nat :=
  if type = R_X86_64_64 then 8
  else if type = R_X86_64_PC32 ∨ type = R_X86_64_PLT32 ∨ type = R_X86_64_32
      ∨ type = R_X86_64_32S then 4
  else 0

/-- Every byte of a write has the address of a byte of its section. -/
def Inside (ctx : ElfContext) (w : Write) : Prop :=
  ∀ j < w.width, ∃ k < (ctx.sections w.info).shSize,
    (w.target + j) % 2 ^ 64 = (ctx.sectionBases w.info + k) % 2 ^ 64

/-- A section does not take up all addresses, so a field that starts in it
and leaves it does not come round to it again. -/
theorem inside_iff (ctx : ElfContext) (value : Nat) {info off width : Nat}
    (hoff : off < (ctx.sections info).shSize) :
    Inside ctx ⟨info, (ctx.sectionBases info + off) % 2 ^ 64, width, value⟩
      ↔ off + width ≤ (ctx.sections info).shSize := by
  have hsize : (ctx.sections info).shSize < 2 ^ 64 := Bytes.load_lt _ _ _
  unfold Inside
  dsimp only
  constructor
  · intro h
    by_contra hcon
    obtain ⟨k, hk, he⟩ := h ((ctx.sections info).shSize - off) (by omega)
    omega
  · intro h j hj
    refine ⟨off + j, by omega, ?_⟩
    omega

/-- The value a relocation of this type writes, if it writes one. -/
inductive Applies (symbolValue addend place : Nat) : Nat → Option Nat → Prop
  | none : Applies symbolValue addend place R_X86_64_NONE none
  | abs64 : Applies symbolValue addend place R_X86_64_64 (some ((symbolValue + addend) % 2 ^ 64))
  | pc32 {type : Nat} (htype : type = R_X86_64_PC32 ∨ type = R_X86_64_PLT32)
      (hfit : fitsI32 (toInt64 ((symbolValue + addend + (2 ^ 64 - place)) % 2 ^ 64)) = true) :
      Applies symbolValue addend place type
        (some ((symbolValue + addend + (2 ^ 64 - place)) % 2 ^ 64 % 2 ^ 32))
  | abs32 (hfit : (symbolValue + addend) % 2 ^ 64 < 2 ^ 32) :
      Applies symbolValue addend place R_X86_64_32 (some ((symbolValue + addend) % 2 ^ 64))
  | abs32S (hfit : fitsI32 (toInt64 ((symbolValue + addend) % 2 ^ 64)) = true) :
      Applies symbolValue addend place R_X86_64_32S
        (some ((symbolValue + addend) % 2 ^ 64 % 2 ^ 32))

/-- A relocation that is applied has one of the five types, and its value
fits in the field. -/
theorem applyRelocation_cases {info target type symbolValue addend place : Nat}
    (h : applyRelocation info target type symbolValue addend place = some ws) :
    ∃ value, Applies symbolValue addend place type value
      ∧ ws = (value.map fun value => ⟨info, target, relocWidth type, value⟩).toList := by
  unfold applyRelocation at h
  dsimp only at h
  by_cases h0 : type = R_X86_64_NONE
  · rw [if_pos h0] at h
    cases h
    subst h0
    exact ⟨_, .none, rfl⟩
  rw [if_neg h0] at h
  by_cases h1 : type = R_X86_64_64
  · rw [if_pos h1] at h
    cases h
    subst h1
    exact ⟨_, .abs64, rfl⟩
  rw [if_neg h1] at h
  -- the others write four bytes, if the value fits
  by_cases h2 : type = R_X86_64_PC32 ∨ type = R_X86_64_PLT32
  · rw [if_pos h2] at h
    split at h
    case isTrue => cases h
    case isFalse hfit =>
      cases h
      refine ⟨_, .pc32 h2 (by simpa using hfit), ?_⟩
      obtain rfl | rfl := h2 <;> rfl
  rw [if_neg h2] at h
  by_cases h3 : type = R_X86_64_32
  · rw [if_pos h3] at h
    subst h3
    split at h
    case isTrue => cases h
    case isFalse hfit =>
      cases h
      exact ⟨_, .abs32 (by omega), rfl⟩
  rw [if_neg h3] at h
  by_cases h4 : type = R_X86_64_32S
  · rw [if_pos h4] at h
    subst h4
    split at h
    case isTrue => cases h
    case isFalse hfit =>
      cases h
      exact ⟨_, .abs32S (by simpa using hfit), rfl⟩
  rw [if_neg h4] at h
  cases h

/-- One relocation is one write of its width, or none. -/
theorem applyRelocation_some {info target type symbolValue addend place : Nat}
    (h : applyRelocation info target type symbolValue addend place = some ws) :
    (relocWidth type = 0 ∧ ws = [])
      ∨ ∃ value, ws = [⟨info, target, relocWidth type, value⟩] := by
  obtain ⟨value, happlies, rfl⟩ := applyRelocation_cases h
  cases happlies with
  | none => exact Or.inl ⟨rfl, rfl⟩
  | abs64 => exact Or.inr ⟨_, rfl⟩
  | pc32 => exact Or.inr ⟨_, rfl⟩
  | abs32 => exact Or.inr ⟨_, rfl⟩
  | abs32S => exact Or.inr ⟨_, rfl⟩

-- ==== the loops

/-- The first round apart from the others. -/
theorem exists_round {p : Nat → Prop} :
    (∃ j, i ≤ j ∧ j < i + (n + 1) ∧ p j)
      ↔ p i ∨ ∃ j, i + 1 ≤ j ∧ j < i + 1 + n ∧ p j := by
  constructor
  · rintro ⟨j, h1, h2, hj⟩
    by_cases he : j = i
    · rw [he] at hj
      exact Or.inl hj
    · exact Or.inr ⟨j, by omega, by omega, hj⟩
  · rintro (hi | ⟨j, h1, h2, hj⟩)
    · exact ⟨i, Nat.le_refl i, by omega, hi⟩
    · exact ⟨j, by omega, by omega, hj⟩

theorem forall_round {p : Nat → Prop} (hi : p i)
    (h : ∀ j, i + 1 ≤ j → j < i + 1 + n → p j) : ∀ j, i ≤ j → j < i + (n + 1) → p j := by
  intro j h1 h2
  by_cases he : j = i
  · rw [he]
    exact hi
  · exact h j (by omega) (by omega)

/-- A loop that returns 0 goes on behind its first round. -/
theorem rounds_succ (h : rounds step (n + 1) i = (ws, 0)) :
    ∃ l rest, step i = some l ∧ rounds step n (i + 1) = (rest, 0) ∧ ws = l ++ rest := by
  unfold rounds at h
  cases hs : step i with
  | none =>
      rw [hs] at h
      cases h
  | some l =>
      rw [hs] at h
      have hrc : (rounds step n (i + 1)).2 = 0 := congrArg Prod.snd h
      exact ⟨l, _, rfl, Prod.ext rfl hrc, (congrArg Prod.fst h).symm⟩

/-- A loop that returns 0 has been through all its rounds. -/
theorem rounds_ok (h : rounds step n i = (ws, 0)) :
    (∀ j, i ≤ j → j < i + n → ∃ l, step j = some l)
      ∧ ∀ w, w ∈ ws ↔ ∃ j, i ≤ j ∧ j < i + n ∧ ∃ l, step j = some l ∧ w ∈ l := by
  induction n generalizing i ws with
  | zero =>
      cases h
      refine ⟨fun j h1 h2 => by omega, fun w => ⟨fun hw => (by cases hw), fun hw => ?_⟩⟩
      obtain ⟨j, h1, h2, -⟩ := hw
      omega
  | succ n ih =>
      obtain ⟨l, rest, hs, hrest, rfl⟩ := rounds_succ h
      obtain ⟨hall, hmem⟩ := ih hrest
      refine ⟨forall_round ⟨l, hs⟩ hall, fun w => ?_⟩
      rw [List.mem_append, hmem w, exists_round, hs]
      simp only [Option.some.injEq, exists_eq_left']

/-- And so does the loop over the sections. -/
theorem applyFrom_succ (h : applyFrom address ctx (n + 1) i = (ws, 0)) :
    (applySection address ctx i).2 = 0 ∧ ∃ rest, applyFrom address ctx n (i + 1) = (rest, 0)
      ∧ ws = (applySection address ctx i).1 ++ rest := by
  unfold applyFrom at h
  by_cases h0 : (applySection address ctx i).2 = 0
  · simp only [h0, ne_eq, not_true_eq_false, if_false] at h
    have hrc : (applyFrom address ctx n (i + 1)).2 = 0 := congrArg Prod.snd h
    exact ⟨h0, _, Prod.ext rfl hrc, (congrArg Prod.fst h).symm⟩
  · rw [if_pos h0] at h
    exact absurd (congrArg Prod.snd h) h0

theorem applyFrom_ok (h : applyFrom address ctx n i = (ws, 0)) :
    (∀ j, i ≤ j → j < i + n → (applySection address ctx j).2 = 0)
      ∧ ∀ w, w ∈ ws ↔ ∃ j, i ≤ j ∧ j < i + n ∧ w ∈ (applySection address ctx j).1 := by
  induction n generalizing i ws with
  | zero =>
      cases h
      refine ⟨fun j h1 h2 => by omega, fun w => ⟨fun hw => (by cases hw), fun hw => ?_⟩⟩
      obtain ⟨j, h1, h2, -⟩ := hw
      omega
  | succ n ih =>
      obtain ⟨h0, rest, hrest, rfl⟩ := applyFrom_succ h
      obtain ⟨hall, hmem⟩ := ih hrest
      refine ⟨forall_round h0 hall, fun w => ?_⟩
      rw [List.mem_append, hmem w, exists_round]

-- ==== the entries

/-- Entry `r` of section `i` is applied: the section holds relocations,
and the section they are for is loaded. -/
structure Applied (ctx : ElfContext) (i r : Nat) : Prop where
  index : i < ctx.shnum
  rela : (ctx.sections i).shType = SHT_RELA
  loaded : ctx.sectionBases (ctx.sections i).shInfo ≠ 0
  entry : r < (ctx.sections i).shSize / sizeofRela

/-- The field of entry `r` of section `i` ends in its section. -/
def FieldFits (ctx : ElfContext) (i r : Nat) : Prop :=
  (reloc ctx (ctx.sections i) r).rOffset + relocWidth (reloc ctx (ctx.sections i) r).type
    ≤ (ctx.sections (ctx.sections i).shInfo).shSize

/-- An entry that is applied starts in its section, and is one write of its
width there, or has no width. -/
theorem applyEntry_some {symtab : Shdr}
    (h : applyEntry address ctx (ctx.sections i) symtab r = some ws) :
    (reloc ctx (ctx.sections i) r).rOffset < (ctx.sections (ctx.sections i).shInfo).shSize
      ∧ ((relocWidth (reloc ctx (ctx.sections i) r).type = 0 ∧ ws = [])
        ∨ ∃ value, ws = [⟨(ctx.sections i).shInfo,
          (ctx.sectionBases (ctx.sections i).shInfo + (reloc ctx (ctx.sections i) r).rOffset) % 2 ^ 64,
          relocWidth (reloc ctx (ctx.sections i) r).type, value⟩]) := by
  unfold applyEntry at h
  dsimp only at h
  split at h
  · cases h
  split at h
  · cases h
  next hoff =>
    refine ⟨Nat.lt_of_not_le hoff, ?_⟩
    split at h
    · cases h
    · exact applyRelocation_some h

/-- What an entry writes is inside its section just when its field fits. -/
theorem applyEntry_inside {symtab : Shdr}
    (h : applyEntry address ctx (ctx.sections i) symtab r = some ws) :
    (∀ w ∈ ws, Inside ctx w) ↔ FieldFits ctx i r := by
  obtain ⟨hoff, hcase⟩ := applyEntry_some h
  unfold FieldFits
  cases hcase with
  | inl hnone =>
      obtain ⟨hwidth, rfl⟩ := hnone
      rw [hwidth]
      exact ⟨fun _ => by omega, fun _ w hw => (by cases hw)⟩
  | inr hone =>
      obtain ⟨value, rfl⟩ := hone
      rw [List.forall_mem_singleton]
      exact inside_iff ctx value hoff

/-- A section that is passed over writes nothing and has no entry that is
applied; another one is the loop over its entries. -/
theorem applySection_ok (h : (applySection address ctx i).2 = 0) :
    ((applySection address ctx i).1 = [] ∧ ∀ r, ¬ Applied ctx i r)
      ∨ (ctx.sections i).shType = SHT_RELA ∧ ctx.sectionBases (ctx.sections i).shInfo ≠ 0
        ∧ rounds (applyEntry address ctx (ctx.sections i) (ctx.sections (ctx.sections i).shLink))
          ((ctx.sections i).shSize / sizeofRela) 0 = ((applySection address ctx i).1, 0) := by
  have hneg : ((-1 : Int) = 0) → False := by decide
  revert h
  unfold applySection
  dsimp only
  by_cases h1 : (ctx.sections i).shType ≠ SHT_RELA
  · rw [if_pos h1]
    exact fun _ => Or.inl ⟨rfl, fun r ha => h1 ha.rela⟩
  rw [if_neg h1]
  split
  · exact fun h => (hneg h).elim
  split
  · exact fun h => (hneg h).elim
  by_cases h2 : ctx.sectionBases (ctx.sections i).shInfo = 0
  · rw [if_pos h2]
    exact fun _ => Or.inl ⟨rfl, fun r ha => ha.loaded h2⟩
  rw [if_neg h2]
  split
  · exact fun h => (hneg h).elim
  split
  · exact fun h => (hneg h).elim
  · intro h
    exact Or.inr ⟨not_not.mp h1, h2, Prod.ext rfl h⟩

/-- The writes for a section are inside it just when its fields fit. -/
theorem applySection_inside (hi : i < ctx.shnum) (h : (applySection address ctx i).2 = 0) :
    (∀ w ∈ (applySection address ctx i).1, Inside ctx w)
      ↔ ∀ r, Applied ctx i r → FieldFits ctx i r := by
  cases applySection_ok h with
  | inl hskip =>
      rw [hskip.1]
      exact ⟨fun _ r ha => (hskip.2 r ha).elim, fun _ w hw => (by cases hw)⟩
  | inr hloop =>
      obtain ⟨hrela, hloaded, hloop⟩ := hloop
      obtain ⟨hall, hmem⟩ := rounds_ok hloop
      constructor
      · intro hin r ha
        have hr : r < 0 + (ctx.sections i).shSize / sizeofRela := by
          rw [Nat.zero_add]
          exact ha.entry
        obtain ⟨l, hl⟩ := hall r (Nat.zero_le r) hr
        refine (applyEntry_inside hl).mp fun w hw => hin w ?_
        exact (hmem w).mpr ⟨r, Nat.zero_le r, hr, l, hl, hw⟩
      · intro hfit w hw
        obtain ⟨r, -, hr, l, hl, hw⟩ := (hmem w).mp hw
        rw [Nat.zero_add] at hr
        exact (applyEntry_inside hl).mpr (hfit r ⟨hi, hrela, hloaded, hr⟩) w hw

/-- When `sdi_elf_apply_relocations` returns 0, what it has written is
inside the sections it was for if and only if no field of an entry that is
applied reaches behind its section. -/
theorem relocations_inside_iff (h : applyRelocations address ctx = (ws, 0)) :
    (∀ w ∈ ws, Inside ctx w) ↔ ∀ i r, Applied ctx i r → FieldFits ctx i r := by
  obtain ⟨hall, hmem⟩ := applyFrom_ok h
  constructor
  · intro hin i r ha
    have hi : i < 0 + ctx.shnum := by
      rw [Nat.zero_add]
      exact ha.index
    refine (applySection_inside ha.index (hall i (Nat.zero_le i) hi)).mp (fun w hw => ?_) r ha
    exact hin w ((hmem w).mpr ⟨i, Nat.zero_le i, hi, hw⟩)
  · intro hfit w hw
    obtain ⟨i, -, hi, hw⟩ := (hmem w).mp hw
    have hok := hall i (Nat.zero_le i) hi
    rw [Nat.zero_add] at hi
    exact (applySection_inside hi hok).mpr (hfit i) w hw

/-- A driver with a section of eight bytes and one `R_X86_64_64`, at
`rOffset` in it; `sdi_driver` is the section's first byte. -/
def driverImage (rOffset : Nat) : Memory :=
  imageOf (ehdrFields 5 ++ shdrFields 1 1 2 384 8 0 0 1 0 ++ shdrFields 2 SHT_SYMTAB 0 392 48 3 0 8 24
    ++ shdrFields 3 SHT_STRTAB 0 440 12 0 0 1 0 ++ shdrFields 4 SHT_RELA 0 456 24 2 1 8 24
    ++ [(416, 4, 1), (422, 2, 1), (441, 8, 0x76697264_5f696473), (449, 2, 0x7265),
      (456, 8, rOffset), (464, 8, 2 ^ 32 + R_X86_64_64)])

end Alix.Elf
