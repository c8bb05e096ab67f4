/-
What the relocations of a driver leave in its module.

# The entries

An entry that is applied has a symbol, an addend and a place. The symbol's
value is one of three things (`SymbolIs`), and `symbolValue_sound` is one
case for each; an undefined name is looked up by its bytes, and no two
exported names have the same ones. What the type makes of the three
numbers is said on words of 64 bits (`Holds`), with the field extended
back to 64 bits; the tests for the range are what makes the extension
give back the value (`signExtend_low`). The image is one that the writes do
not meet, as in `Relocs.lean`.

# The loops

A run that returns 0 has written, in order, what each entry writes. Fields
that do not overlap are then still there at the end (`load_relocated`),
and everything else is as it was.
-/
import Alix.Klib.Proofs.Scan
import Alix.Sdi.Proofs.Relocs

namespace Alix.Elf

open Bytes (Memory Byte load)

-- ==== statements

/-- The bytes at `a` are `name`, and a zero follows. -/
def IsString (m : Memory) (a : Nat) (name : List Byte) : Prop :=
  (∀ i (h : i < name.length), m (a + i) = name[i] ∧ name[i] ≠ 0) ∧ m (a + name.length) = 0

/-- `S`, the value of a symbol. -/
inductive SymbolIs (address : String → Nat) (ctx : ElfContext) (symtab : Shdr) (symbol : Sym) :
    Nat → Prop where
  | abs (h : symbol.stShndx = SHN_ABS) : SymbolIs address ctx symtab symbol symbol.stValue
  | undef {name : String} (h : symbol.stShndx = SHN_UNDEF) (hmem : name ∈ exportNames)
      (hname : IsString ctx.image ((ctx.sections symtab.shLink).shOffset + symbol.stName)
        (bytesOf name)) :
      SymbolIs address ctx symtab symbol (address name)
  | inSection (habs : symbol.stShndx ≠ SHN_ABS) (hundef : symbol.stShndx ≠ SHN_UNDEF) :
      SymbolIs address ctx symtab symbol
        ((ctx.sectionBases symbol.stShndx + symbol.stValue) % 2 ^ 64)

/-- What a field of a type says about the symbol `S`, the addend `A` and
the place `P`. -/
structure Holds (type field : Nat) (S A P : BitVec 64) : Prop where
  abs64 : type = R_X86_64_64 → BitVec.ofNat 64 field = S + A
  pc32 : type = R_X86_64_PC32 ∨ type = R_X86_64_PLT32 →
    (BitVec.ofNat 32 field).signExtend 64 = S + A - P
  abs32 : type = R_X86_64_32 → (BitVec.ofNat 32 field).setWidth 64 = S + A
  abs32S : type = R_X86_64_32S → (BitVec.ofNat 32 field).signExtend 64 = S + A

/-- Some field says it. -/
def Representable (type : Nat) (S A P : BitVec 64) : Prop :=
  ∃ field, field < 256 ^ relocWidth type ∧ Holds type field S A P

/-- Entry `r` of section `i`. -/
def entryAt (ctx : ElfContext) (i r : Nat) : Rela := reloc ctx (ctx.sections i) r

/-- Its symbol. -/
def entrySymbol (ctx : ElfContext) (i r : Nat) : Sym :=
  symAt ctx.image
    ((ctx.sections (ctx.sections i).shLink).shOffset + (entryAt ctx i r).sym * sizeofSym)

/-- `P`, the address of its field. -/
def entryPlace (ctx : ElfContext) (i r : Nat) : Nat :=
  (ctx.sectionBases (ctx.sections i).shInfo + (entryAt ctx i r).rOffset) % 2 ^ 64

/-- Its symbol has the value `S`. -/
def EntrySymbolIs (address : String → Nat) (ctx : ElfContext) (i r S : Nat) : Prop :=
  SymbolIs address ctx (ctx.sections (ctx.sections i).shLink) (entrySymbol ctx i r) S

/-- The bytes of its field. -/
def InField (ctx : ElfContext) (i r a : Nat) : Prop :=
  entryPlace ctx i r ≤ a ∧ a < entryPlace ctx i r + relocWidth (entryAt ctx i r).type

/-- The field is in its section, and not broken by the end of the address
space. -/
def FieldInside (ctx : ElfContext) (i r : Nat) : Prop :=
  FieldFits ctx i r ∧ entryPlace ctx i r + relocWidth (entryAt ctx i r).type ≤ 2 ^ 64

variable {address : String → Nat} {ctx : ElfContext} {ws l : List Write} {w : Write}
  {step : Nat → Option (List Write)} {i n r : Nat}

-- ==== symbols

theorem strlen_some {m : Memory} {fuel a k : Nat} (h : strlen m fuel a = some k) :
    (∀ j < k, m (a + j) ≠ 0) ∧ m (a + k) = 0 := by
  induction fuel generalizing a k with
  | zero => cases h
  | succ fuel ih =>
      unfold strlen at h
      split at h
      case isTrue hz =>
          cases h
          exact ⟨fun j hj => absurd hj (Nat.not_lt_zero j), hz⟩
      case isFalse hz =>
          obtain ⟨k', hk', rfl⟩ := Option.map_eq_some_iff.mp h
          obtain ⟨hall, hend⟩ := ih hk'
          refine ⟨fun j hj => ?_, by rw [← hend]; congr 1; omega⟩
          cases j with
          | zero => exact hz
          | succ j =>
              rw [show a + (j + 1) = a + 1 + j by omega]
              exact hall j (by omega)

theorem stringEqual_sound {m : Memory} {a : Nat} {name : List Byte}
    (h : stringEqual m a name = true) : IsString m a name := by
  unfold stringEqual at h
  split at h
  case h_1 => cases h
  case h_2 k hk =>
    obtain ⟨hall, hend⟩ := strlen_some hk
    simp only [Bool.and_eq_true, beq_iff_eq, List.all_eq_true, List.mem_range] at h
    obtain ⟨rfl, hbytes⟩ := h
    refine ⟨fun j hj => ?_, hend⟩
    have hb := hbytes j hj
    rw [List.getD_eq_getElem name 0 hj] at hb
    exact ⟨hb, by rw [← hb]; exact hall j hj⟩

/-- A string has one length, and so one list of bytes. -/
theorem IsString.unique {m : Memory} {a : Nat} {s t : List Byte} (hs : IsString m a s)
    (ht : IsString m a t) : s = t := by
  have hle : ∀ {u v : List Byte}, IsString m a u → IsString m a v → u.length ≤ v.length := by
    intro u v hu hv
    by_contra hlt
    obtain ⟨hb, hn⟩ := hu.1 v.length (by omega)
    rw [hv.2] at hb
    exact hn hb.symm
  apply List.ext_getElem (Nat.le_antisymm (hle hs ht) (hle ht hs))
  intro j h1 h2
  rw [← (hs.1 j h1).1, (ht.1 j h2).1]

theorem IsString.firstNul {m : Memory} {a : Nat} {name : List Byte} (h : IsString m a name) :
    Klib.FirstNul m a name.length where
  before i hi := by
    obtain ⟨hbyte, hne⟩ := h.1 i hi
    rw [hbyte]
    exact hne
  nul := h.2

theorem strlen_of_firstNul {m : Memory} {fuel a k : Nat} (h : Klib.FirstNul m a k)
    (hf : k < fuel) : strlen m fuel a = some k := by
  induction fuel generalizing a k with
  | zero => exact absurd hf (Nat.not_lt_zero k)
  | succ fuel ih =>
      unfold strlen
      by_cases hz : m a = 0
      · rw [if_pos hz]
        cases k with
        | zero => rfl
        | succ k => exact absurd hz (h.before 0 (Nat.succ_pos k))
      · obtain ⟨k', rfl, h'⟩ := h.pass hz
        rw [if_neg hz, ih h' (by omega)]
        rfl

/-- The comparison with a name of the source, as the loops of `string.c` do
it with the name in memory. -/
theorem stringEqual_loops {m : Memory} {a b k fuel : Nat} {name : List Byte} (ha : a ≠ 0)
    (hb : b ≠ 0) (hk : Klib.FirstNul m a k) (hname : IsString m b name) (h64 : k < 2 ^ 64)
    (hfa : k < fuel) (hfb : name.length < fuel) :
    Klib.stringEqual m fuel a b = some (stringEqual m a name) := by
  rw [Klib.stringEqual_spec ha hb hk hname.firstNul hfa hfb]
  unfold stringEqual
  rw [strlen_of_firstNul hk h64]
  congr 1
  rw [Bool.eq_iff_iff]
  simp only [Bool.and_eq_true, decide_eq_true_eq, beq_iff_eq, List.all_eq_true, List.mem_range,
    Klib.memcmp_eq_zero_iff]
  refine and_congr_right fun hlen => forall_congr' fun i => forall_congr' fun hi => ?_
  have hin : i < name.length := hlen ▸ hi
  rw [(hname.1 i hin).1, List.getD_eq_getElem name 0 hin]

theorem exportNames_distinct : (exportNames.map bytesOf).Nodup := by decide +kernel

/-- What `sdi_elf_symbol_value` stores is the value of the symbol. -/
theorem symbolValue_sound {symtab : Shdr} {symbol : Sym} {S : Nat}
    (h : symbolValue address ctx symtab symbol = some S) :
    SymbolIs address ctx symtab symbol S := by
  unfold symbolValue at h
  split at h
  case isTrue habs =>
    cases h
    exact .abs habs
  case isFalse habs =>
    split at h
    case isTrue hundef =>
      split at h
      case h_1 => cases h
      case h_2 a ha =>
        unfold symbolName at ha
        dsimp only at ha
        split_ifs at ha
        cases ha
        obtain ⟨name, hfind, rfl⟩ := Option.map_eq_some_iff.mp h
        apply SymbolIs.undef hundef (List.mem_of_find?_eq_some hfind)
        apply stringEqual_sound
        simpa using List.find?_some hfind
    case isFalse hundef =>
      split_ifs at h
      cases h
      exact .inSection habs hundef

/-- A symbol has one value. -/
theorem SymbolIs.unique {symtab : Shdr} {symbol : Sym} {S S' : Nat}
    (h : SymbolIs address ctx symtab symbol S) (h' : SymbolIs address ctx symtab symbol S') :
    S = S' := by
  cases h with
  | abs h =>
      cases h' with
      | abs => rfl
      | undef h' => rw [h] at h'; cases h'
      | inSection h' => exact absurd h h'
  | undef h hmem hname =>
      cases h' with
      | abs h' => rw [h] at h'; cases h'
      | undef _ hmem' hname' =>
          rw [List.inj_on_of_nodup_map exportNames_distinct hmem hmem' (hname.unique hname')]
      | inSection _ h' => exact absurd h h'
  | inSection habs hundef =>
      cases h' with
      | abs h' => exact absurd h' habs
      | undef h' => exact absurd h' hundef
      | inSection => rfl

-- ==== values

/-- A word in the range of 32 bits is what its low half extends to. -/
theorem signExtend_low {v : Nat} (h : fitsI32 (toInt64 v) = true) :
    (BitVec.ofNat 32 (v % 2 ^ 32)).signExtend 64 = BitVec.ofNat 64 v := by
  unfold fitsI32 toInt64 at h
  simp only [Bool.and_eq_true, decide_eq_true_eq, BitVec.toInt_ofNat'] at h
  have hlow : BitVec.ofNat 32 (v % 2 ^ 32) = BitVec.ofNat 32 v := by
    apply BitVec.eq_of_toNat_eq
    simp
  apply BitVec.eq_of_toInt_eq
  rw [hlow, BitVec.toInt_signExtend_of_le (by decide), BitVec.toInt_ofNat', BitVec.toInt_ofNat']
  have hdvd : (2 ^ 32 : Nat) ∣ 2 ^ 64 := by decide
  rw [← Int.bmod_bmod_of_dvd hdvd]
  apply Int.bmod_eq_of_le <;> omega

/-- The difference as the code computes it. -/
theorem ofNat_relative (S A : Nat) {P : Nat} (hP : P < 2 ^ 64) :
    BitVec.ofNat 64 ((S + A + (2 ^ 64 - P)) % 2 ^ 64)
      = BitVec.ofNat 64 S + BitVec.ofNat 64 A - BitVec.ofNat 64 P := by
  apply BitVec.eq_of_toNat_eq
  simp only [BitVec.toNat_ofNat, BitVec.toNat_add, BitVec.toNat_sub]
  omega

theorem ofNat_sum (S A : Nat) :
    BitVec.ofNat 64 ((S + A) % 2 ^ 64) = BitVec.ofNat 64 S + BitVec.ofNat 64 A := by
  apply BitVec.eq_of_toNat_eq
  simp

theorem holds_abs64 {v : Nat} {S A : BitVec 64} (P : BitVec 64)
    (h : BitVec.ofNat 64 v = S + A) : Holds R_X86_64_64 v S A P where
  abs64 _ := h
  pc32 e := absurd e (by decide)
  abs32 e := absurd e (by decide)
  abs32S e := absurd e (by decide)

theorem holds_pc32 {type v : Nat} {S A P : BitVec 64}
    (ht : type = R_X86_64_PC32 ∨ type = R_X86_64_PLT32)
    (h : (BitVec.ofNat 32 v).signExtend 64 = S + A - P) : Holds type v S A P where
  abs64 e := by subst e; exact absurd ht (by decide)
  pc32 _ := h
  abs32 e := by subst e; exact absurd ht (by decide)
  abs32S e := by subst e; exact absurd ht (by decide)

theorem holds_abs32 {v : Nat} {S A : BitVec 64} (P : BitVec 64)
    (h : (BitVec.ofNat 32 v).setWidth 64 = S + A) : Holds R_X86_64_32 v S A P where
  abs64 e := absurd e (by decide)
  pc32 e := absurd e (by decide)
  abs32 _ := h
  abs32S e := absurd e (by decide)

theorem holds_abs32S {v : Nat} {S A : BitVec 64} (P : BitVec 64)
    (h : (BitVec.ofNat 32 v).signExtend 64 = S + A) : Holds R_X86_64_32S v S A P where
  abs64 e := absurd e (by decide)
  pc32 e := absurd e (by decide)
  abs32 e := absurd e (by decide)
  abs32S _ := h

theorem holds_none (v : Nat) (S A P : BitVec 64) : Holds R_X86_64_NONE v S A P where
  abs64 e := absurd e (by decide)
  pc32 e := absurd e (by decide)
  abs32 e := absurd e (by decide)
  abs32S e := absurd e (by decide)

/-- One relocation writes nothing, or one field that holds what it has to
hold. -/
theorem applyRelocation_holds {info target type S A P : Nat} (hP : P < 2 ^ 64)
    (h : applyRelocation info target type S A P = some ws) :
    (ws = [] ∧ type = R_X86_64_NONE)
      ∨ ∃ value, ws = [⟨info, target, relocWidth type, value⟩] ∧ 0 < relocWidth type
        ∧ value < 256 ^ relocWidth type
        ∧ Holds type value (BitVec.ofNat 64 S) (BitVec.ofNat 64 A) (BitVec.ofNat 64 P) := by
  have hmod : ∀ x, x % 2 ^ 32 < 256 ^ 4 := fun x => Nat.mod_lt x (by decide)
  obtain ⟨value, happlies, rfl⟩ := applyRelocation_cases h
  cases happlies with
  | none => exact Or.inl ⟨rfl, rfl⟩
  | abs64 =>
      exact Or.inr ⟨_, rfl, by decide, Nat.mod_lt _ (by decide), holds_abs64 _ (ofNat_sum S A)⟩
  | pc32 htype hfit =>
      have hwidth : relocWidth type = 4 := by
        obtain rfl | rfl := htype <;> rfl
      rw [hwidth]
      refine Or.inr ⟨_, rfl, by decide, hmod _, holds_pc32 htype ?_⟩
      rw [← ofNat_relative S A hP]
      exact signExtend_low hfit
  | abs32 hfit =>
      refine Or.inr ⟨_, rfl, by decide, hfit, holds_abs32 _ ?_⟩
      rw [← ofNat_sum S A]
      apply BitVec.eq_of_toNat_eq
      simp only [BitVec.toNat_setWidth, BitVec.toNat_ofNat]
      omega
  | abs32S hfit =>
      refine Or.inr ⟨_, rfl, by decide, hmod _, holds_abs32S _ ?_⟩
      rw [← ofNat_sum S A]
      exact signExtend_low hfit

-- ==== the entries

/-- `value` in the field of entry `r` of section `i`. -/
def entryWrite (ctx : ElfContext) (i r value : Nat) : Write :=
  ⟨(ctx.sections i).shInfo, entryPlace ctx i r, relocWidth (entryAt ctx i r).type, value⟩

@[simp] theorem entryWrite_target (ctx : ElfContext) (i r value : Nat) :
    (entryWrite ctx i r value).target = entryPlace ctx i r := rfl

@[simp] theorem entryWrite_width (ctx : ElfContext) (i r value : Nat) :
    (entryWrite ctx i r value).width = relocWidth (entryAt ctx i r).type := by
  simp only [entryWrite]

@[simp] theorem entryWrite_value (ctx : ElfContext) (i r value : Nat) :
    (entryWrite ctx i r value).value = value := rfl

/-- `value` is what entry `r` of section `i` has to leave in its field. -/
def EntryHolds (address : String → Nat) (ctx : ElfContext) (i r value : Nat) : Prop :=
  ∃ S, EntrySymbolIs address ctx i r S ∧ Holds (entryAt ctx i r).type value (BitVec.ofNat 64 S)
    (BitVec.ofNat 64 (entryAt ctx i r).rAddend) (BitVec.ofNat 64 (entryPlace ctx i r))

/-- What entry `r` of section `i` writes, if it does not fail. -/
inductive Filled (address : String → Nat) (ctx : ElfContext) (i r : Nat) : List Write → Prop where
  | none (htype : (entryAt ctx i r).type = R_X86_64_NONE) (h : EntryHolds address ctx i r 0) :
      Filled address ctx i r []
  | one {value : Nat} (hpos : 0 < relocWidth (entryAt ctx i r).type)
      (hlt : value < 256 ^ relocWidth (entryAt ctx i r).type)
      (h : EntryHolds address ctx i r value) : Filled address ctx i r [entryWrite ctx i r value]

theorem applyEntry_filled
    (h : applyEntry address ctx (ctx.sections i) (ctx.sections (ctx.sections i).shLink) r = some l) :
    Filled address ctx i r l := by
  have hplace : entryPlace ctx i r < 2 ^ 64 := Nat.mod_lt _ (by decide)
  have hentry : reloc ctx (ctx.sections i) r = entryAt ctx i r := rfl
  unfold applyEntry at h
  rw [hentry] at h
  dsimp only at h
  split_ifs at h
  split at h
  case h_1 => cases h
  case h_2 S hS =>
    have hsym : EntrySymbolIs address ctx i r S := symbolValue_sound hS
    obtain ⟨rfl, htype⟩ | ⟨value, rfl, hpos, hlt, hholds⟩ := applyRelocation_holds hplace h
    · apply Filled.none htype
      refine ⟨S, hsym, ?_⟩
      rw [htype]
      apply holds_none
    · exact Filled.one hpos hlt ⟨S, hsym, hholds⟩

/-- What it leaves can be represented. -/
theorem Filled.representable (h : Filled address ctx i r l) {S : Nat}
    (hS : EntrySymbolIs address ctx i r S) :
    Representable (entryAt ctx i r).type (BitVec.ofNat 64 S)
      (BitVec.ofNat 64 (entryAt ctx i r).rAddend) (BitVec.ofNat 64 (entryPlace ctx i r)) := by
  cases h with
  | none htype h =>
      obtain ⟨S', hS', hholds⟩ := h
      rw [hS.unique hS']
      exact ⟨0, Nat.pow_pos (by decide), hholds⟩
  | one _ hlt h =>
      obtain ⟨S', hS', hholds⟩ := h
      rw [hS.unique hS']
      exact ⟨_, hlt, hholds⟩

-- ==== the loops

/-- What a loop that returns 0 has written, in order. -/
theorem rounds_flat (h : rounds step n i = (ws, 0)) :
    ws = (List.range' i n).flatMap fun j => (step j).getD [] := by
  induction n generalizing i ws with
  | zero =>
      cases h
      rfl
  | succ n ih =>
      obtain ⟨l, rest, hs, hrest, rfl⟩ := rounds_succ h
      rw [ih hrest, List.range'_succ, List.flatMap_cons, hs]
      rfl

theorem applyFrom_flat (h : applyFrom address ctx n i = (ws, 0)) :
    ws = (List.range' i n).flatMap fun j => (applySection address ctx j).1 := by
  induction n generalizing i ws with
  | zero =>
      cases h
      rfl
  | succ n ih =>
      obtain ⟨-, rest, hrest, rfl⟩ := applyFrom_succ h
      rw [ih hrest, List.range'_succ, List.flatMap_cons]

/-- Nothing but 0 and -1 is returned. -/
theorem rounds_rc (step : Nat → Option (List Write)) (n i : Nat) :
    (rounds step n i).2 = 0 ∨ (rounds step n i).2 = -1 := by
  induction n generalizing i with
  | zero => exact Or.inl rfl
  | succ n ih =>
      unfold rounds
      cases step i with
      | none => exact Or.inr rfl
      | some l => exact ih (i + 1)

theorem applySection_rc (address : String → Nat) (ctx : ElfContext) (i : Nat) :
    (applySection address ctx i).2 = 0 ∨ (applySection address ctx i).2 = -1 := by
  unfold applySection
  dsimp only
  split_ifs
  all_goals first | exact Or.inl rfl | exact Or.inr rfl | apply rounds_rc

theorem applyFrom_rc (address : String → Nat) (ctx : ElfContext) (n i : Nat) :
    (applyFrom address ctx n i).2 = 0 ∨ (applyFrom address ctx n i).2 = -1 := by
  induction n generalizing i with
  | zero => exact Or.inl rfl
  | succ n ih =>
      unfold applyFrom
      dsimp only
      split_ifs
      · exact applySection_rc address ctx i
      · exact ih (i + 1)

/-- What entry `r` of section `i` writes, if the loop gets to it. -/
def entryWrites (address : String → Nat) (ctx : ElfContext) (i r : Nat) : List Write :=
  (applyEntry address ctx (ctx.sections i) (ctx.sections (ctx.sections i).shLink) r).getD []

/-- The writes of a section are those of its entries, one after the other,
if the entries are applied. -/
theorem applySection_flat (hi : i < ctx.shnum) (h : (applySection address ctx i).2 = 0) :
    ((applySection address ctx i).1 = [] ∧ ∀ r, ¬ Applied ctx i r)
      ∨ (applySection address ctx i).1
          = (List.range' 0 ((ctx.sections i).shSize / sizeofRela)).flatMap (entryWrites address ctx i)
        ∧ ∀ r < (ctx.sections i).shSize / sizeofRela,
            Applied ctx i r ∧ Filled address ctx i r (entryWrites address ctx i r) := by
  cases applySection_ok h with
  | inl hskip => exact Or.inl hskip
  | inr hloop =>
      obtain ⟨hrela, hloaded, hloop⟩ := hloop
      refine Or.inr ⟨rounds_flat hloop, fun r hr => ⟨⟨hi, hrela, hloaded, hr⟩, ?_⟩⟩
      obtain ⟨l, hl⟩ := (rounds_ok hloop).1 r (Nat.zero_le r) (by omega)
      unfold entryWrites
      rw [hl]
      exact applyEntry_filled hl

/-- What a run that returns 0 writes: what the entries that are applied
write. -/
theorem mem_writes (h : applyRelocations address ctx = (ws, 0)) :
    w ∈ ws ↔ ∃ i r, Applied ctx i r ∧ w ∈ entryWrites address ctx i r := by
  obtain ⟨hall, hmem⟩ := applyFrom_ok h
  rw [hmem w]
  constructor
  · intro hw
    obtain ⟨i, -, hi, hw⟩ := hw
    have h0 := hall i (Nat.zero_le i) hi
    rw [Nat.zero_add] at hi
    cases applySection_flat hi h0 with
    | inl hskip =>
        rw [hskip.1] at hw
        cases hw
    | inr hflat =>
        rw [hflat.1, List.mem_flatMap] at hw
        obtain ⟨r, hr, hw⟩ := hw
        rw [List.mem_range'_1] at hr
        exact ⟨i, r, (hflat.2 r (by omega)).1, hw⟩
  · intro hw
    obtain ⟨i, r, ha, hw⟩ := hw
    have hi : i < 0 + ctx.shnum := by
      rw [Nat.zero_add]
      exact ha.index
    refine ⟨i, Nat.zero_le i, hi, ?_⟩
    cases applySection_flat ha.index (hall i (Nat.zero_le i) hi) with
    | inl hskip => exact absurd ha (hskip.2 r)
    | inr hflat =>
        have hr : r < 0 + (ctx.sections i).shSize / sizeofRela := by
          rw [Nat.zero_add]
          exact ha.entry
        rw [hflat.1, List.mem_flatMap]
        exact ⟨r, List.mem_range'_1.mpr ⟨Nat.zero_le r, hr⟩, hw⟩

theorem Applied.filled (ha : Applied ctx i r) (h : applyRelocations address ctx = (ws, 0)) :
    Filled address ctx i r (entryWrites address ctx i r) := by
  have hi : i < 0 + ctx.shnum := by
    rw [Nat.zero_add]
    exact ha.index
  cases applySection_flat ha.index ((applyFrom_ok h).1 i (Nat.zero_le i) hi) with
  | inl hskip => exact absurd ha (hskip.2 r)
  | inr hflat => exact (hflat.2 r ha.entry).2

-- ==== the fields

/-- No byte belongs to two writes. -/
def Apart (u w : Write) : Prop :=
  u.target + u.width ≤ w.target ∨ w.target + w.width ≤ u.target

/-- No byte belongs to the fields of two entries that are applied. -/
def FieldsApart (ctx : ElfContext) : Prop :=
  ∀ i r i' r' a, Applied ctx i r → Applied ctx i' r' → InField ctx i r a → InField ctx i' r' a →
    i = i' ∧ r = r'

/-- A write of an entry covers its field. -/
theorem Filled.mem (h : Filled address ctx i r l) (hw : w ∈ l) :
    ∃ value, l = [w] ∧ w = entryWrite ctx i r value ∧ 0 < relocWidth (entryAt ctx i r).type
      ∧ value < 256 ^ relocWidth (entryAt ctx i r).type ∧ EntryHolds address ctx i r value := by
  cases h with
  | none => cases hw
  | one hpos hlt h =>
      cases List.mem_singleton.mp hw
      exact ⟨_, rfl, rfl, hpos, hlt, h⟩

theorem Filled.pairwise (h : Filled address ctx i r l) : l.Pairwise Apart := by
  cases h with
  | none => exact List.Pairwise.nil
  | one => exact List.pairwise_singleton _ _

theorem Filled.apart {i' r' : Nat} {l' : List Write} {w' : Write} (hf : FieldsApart ctx)
    (ha : Applied ctx i r) (ha' : Applied ctx i' r') (hne : ¬ (i = i' ∧ r = r'))
    (h : Filled address ctx i r l) (h' : Filled address ctx i' r' l') (hw : w ∈ l) (hw' : w' ∈ l') :
    Apart w w' := by
  obtain ⟨value, -, rfl, hpos, -⟩ := h.mem hw
  obtain ⟨value', -, rfl, hpos', -⟩ := h'.mem hw'
  by_contra hover
  simp only [Apart, entryWrite_target, entryWrite_width] at hover
  -- the first byte of the later field
  have hboth := hf i r i' r' (max (entryPlace ctx i r) (entryPlace ctx i' r')) ha ha'
  unfold InField at hboth
  exact hne (hboth (by omega) (by omega))

/-- So the writes of a run do not meet. -/
theorem writes_apart (hf : FieldsApart ctx) (h : applyRelocations address ctx = (ws, 0)) :
    ws.Pairwise Apart := by
  have hall := (applyFrom_ok h).1
  have hrc : ∀ i ∈ List.range' 0 ctx.shnum, i < ctx.shnum ∧ (applySection address ctx i).2 = 0 := by
    intro i hi
    rw [List.mem_range'_1] at hi
    exact ⟨by omega, hall i hi.1 hi.2⟩
  rw [applyFrom_flat h, List.pairwise_flatMap]
  constructor
  · intro i hi
    obtain ⟨hlt, h0⟩ := hrc i hi
    cases applySection_flat hlt h0 with
    | inl hskip =>
        rw [hskip.1]
        exact List.Pairwise.nil
    | inr hflat =>
        rw [hflat.1, List.pairwise_flatMap]
        constructor
        · intro r hr
          rw [List.mem_range'_1] at hr
          exact (hflat.2 r (by omega)).2.pairwise
        · apply List.Pairwise.imp_of_mem _ List.pairwise_lt_range'
          intro r r' hr hr' hlt' w hw w' hw'
          rw [List.mem_range'_1] at hr hr'
          obtain ⟨ha, hfill⟩ := hflat.2 r (by omega)
          obtain ⟨ha', hfill'⟩ := hflat.2 r' (by omega)
          exact hfill.apart hf ha ha' (by omega) hfill' hw hw'
  · apply List.Pairwise.imp_of_mem _ List.pairwise_lt_range'
    intro i i' hi hi' hlt w hw w' hw'
    obtain ⟨hn, h0⟩ := hrc i hi
    obtain ⟨hn', h0'⟩ := hrc i' hi'
    cases applySection_flat hn h0 with
    | inl hskip =>
        rw [hskip.1] at hw
        cases hw
    | inr hflat =>
        cases applySection_flat hn' h0' with
        | inl hskip =>
            rw [hskip.1] at hw'
            cases hw'
        | inr hflat' =>
            rw [hflat.1, List.mem_flatMap] at hw
            rw [hflat'.1, List.mem_flatMap] at hw'
            obtain ⟨r, hr, hw⟩ := hw
            obtain ⟨r', hr', hw'⟩ := hw'
            rw [List.mem_range'_1] at hr hr'
            obtain ⟨ha, hfill⟩ := hflat.2 r (by omega)
            obtain ⟨ha', hfill'⟩ := hflat'.2 r' (by omega)
            exact hfill.apart hf ha ha' (by omega) hfill' hw hw'

theorem relocated_cons (m : Memory) (w : Write) (ws : List Write) :
    relocated m (w :: ws) = relocated (Bytes.store m w.target w.width w.value) ws := rfl

/-- A byte that nothing is written to. -/
theorem relocated_outside {m : Memory} {a : Nat}
    (h : ∀ w ∈ ws, ¬ (w.target ≤ a ∧ a < w.target + w.width)) : relocated m ws a = m a := by
  induction ws generalizing m with
  | nil => rfl
  | cons w ws ih =>
      rw [relocated_cons, ih fun u hu => h u (List.mem_cons_of_mem w hu)]
      exact Bytes.store_outside (h w List.mem_cons_self)

/-- What is written is still there at the end. -/
theorem load_relocated {m : Memory} (h : ws.Pairwise Apart) (hw : w ∈ ws) :
    load (relocated m ws) w.target w.width = w.value % 256 ^ w.width := by
  induction ws generalizing m with
  | nil => cases hw
  | cons u ws ih =>
      obtain ⟨hu, hrest⟩ := List.pairwise_cons.mp h
      rw [relocated_cons]
      cases List.mem_cons.mp hw with
      | inr hin => exact ih hrest hin
      | inl he =>
          subst he
          rw [← Bytes.load_store_self m w.target w.width w.value]
          apply Bytes.load_congr
          intro x h1 h2
          apply relocated_outside
          intro v hv hx
          have := hu v hv
          unfold Apart at this
          omega

-- ==== the results

/-- Each field holds what it has to. -/
theorem field_holds (h : applyRelocations address ctx = (ws, 0)) (hapart : FieldsApart ctx)
    (m : Memory) (ha : Applied ctx i r) :
    EntryHolds address ctx i r
      (load (relocated m ws) (entryPlace ctx i r) (relocWidth (entryAt ctx i r).type)) := by
  have hf := ha.filled h
  have hin : ∀ w ∈ entryWrites address ctx i r, w ∈ ws := fun w hw =>
    (mem_writes h).mpr ⟨i, r, ha, hw⟩
  revert hf hin
  generalize entryWrites address ctx i r = l
  intro hf hin
  cases hf with
  | none htype hh =>
      have hwidth : relocWidth (entryAt ctx i r).type = 0 := by rw [htype]; rfl
      rw [hwidth]
      exact hh
  | one hpos hlt hh =>
      have hload := load_relocated (m := m) (writes_apart hapart h) (hin _ List.mem_cons_self)
      simp only [entryWrite_target, entryWrite_width, entryWrite_value] at hload
      rw [hload, Nat.mod_eq_of_lt hlt]
      exact hh

/-- Nothing else is changed. -/
theorem others_unchanged (h : applyRelocations address ctx = (ws, 0)) (m : Memory) {a : Nat}
    (ha : ∀ i r, Applied ctx i r → ¬ InField ctx i r a) : relocated m ws a = m a := by
  apply relocated_outside
  intro w hw hx
  obtain ⟨i, r, happ, hw⟩ := (mem_writes h).mp hw
  obtain ⟨value, -, rfl, -⟩ := (happ.filled h).mem hw
  simp only [entryWrite_target, entryWrite_width] at hx
  exact ha i r happ hx

/-- A value with no place in its field is a failure. -/
theorem unrepresentable_fails {S : Nat} (ha : Applied ctx i r)
    (hS : EntrySymbolIs address ctx i r S)
    (hrep : ¬ Representable (entryAt ctx i r).type (BitVec.ofNat 64 S)
      (BitVec.ofNat 64 (entryAt ctx i r).rAddend) (BitVec.ofNat 64 (entryPlace ctx i r))) :
    (applyRelocations address ctx).2 = -1 := by
  cases applyFrom_rc address ctx ctx.shnum 0 with
  | inl h0 =>
      have hret : applyRelocations address ctx = ((applyRelocations address ctx).1, 0) :=
        Prod.ext rfl h0
      exact absurd ((ha.filled hret).representable hS) hrep
  | inr h1 => exact h1

/-- When `sdi_elf_apply_relocations` returns 0, and the fields are inside
their sections and apart, every field holds what it has to and nothing
else is changed; and it returns -1 when a value has no place in its
field. -/
theorem relocations_exact (address : String → Nat) (ctx : ElfContext) (m : Memory) :
    ((applyRelocations address ctx).2 = 0 → (∀ i r, Applied ctx i r → FieldInside ctx i r) →
      FieldsApart ctx →
      (∀ i r, Applied ctx i r → EntryHolds address ctx i r
        (load (relocated m (applyRelocations address ctx).1) (entryPlace ctx i r)
          (relocWidth (entryAt ctx i r).type)))
      ∧ ∀ a, (∀ i r, Applied ctx i r → ¬ InField ctx i r a) →
        relocated m (applyRelocations address ctx).1 a = m a)
    ∧ ∀ i r S, Applied ctx i r → EntrySymbolIs address ctx i r S →
      ¬ Representable (entryAt ctx i r).type (BitVec.ofNat 64 S)
        (BitVec.ofNat 64 (entryAt ctx i r).rAddend) (BitVec.ofNat 64 (entryPlace ctx i r)) →
      (applyRelocations address ctx).2 = -1 := by
  constructor
  · intro h0 _ hapart
    have hret : applyRelocations address ctx = ((applyRelocations address ctx).1, 0) :=
      Prod.ext rfl h0
    exact ⟨fun i r ha => field_holds hret hapart m ha, fun a ha => others_unchanged hret m ha⟩
  · intro i r S ha hS hrep
    exact unrepresentable_fails ha hS hrep

end Alix.Elf
