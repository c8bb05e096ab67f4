/-
Relocating a driver in the memory its image is in.

# What can go wrong

Nothing keeps a field out of the image. Sections without bytes in the file
may be as large as they like, and where their sum wraps
(`prepareSections_overlap`) the next one lies in front of the module, on
top of whatever the heap has there: the image itself. Then one entry can
change the next (`fields_overwritten`).

# What holds

Where no field of an entry that is applied meets the image or
`section_bases` (`Clear`), relocating does what it does of an image apart
from the memory (`relocations_alike`), and the results about that carry
over. The image counts up to its first zero byte from its last byte on:
there the last name ends. An image in a block of the heap is left alone by
the whole loader if the sections fit their block and the fields their
sections (`undisturbed_of_fits`): then it has a block of its own.

The induction is over the rounds. A round looks at the image and the
table only, so it is the same where the memory shows the same there
(`Alike`), and what it writes leaves them (`Alike.relocated`).
-/
import Alix.Sdi.ElfMem
import Alix.Sdi.Proofs.ElfNames
import Alix.Sdi.Proofs.Sections

namespace Alix.Elf

open Bytes (Memory Byte load)
open Traced

variable {address : String → Nat} {ctx ctx' : ElfContext} {symtab relsec : Shdr} {symbol : Sym}
  {e i n r a : Nat} {p : Place} {m : Memory} {ws l : List Write} {w : Write}

-- ==== two images

/-- The second context shows what the first one does, up to `e`, where a
name that starts in the image has come to its end. -/
structure Alike (e : Nat) (ctx ctx' : ElfContext) : Prop where
  ends : ctx.imageSize ≤ e + 1
  zero : ctx.image e = 0
  header : sizeofEhdr ≤ ctx.imageSize
  headers : ctx.shoff + ctx.shnum * sizeofShdr ≤ ctx.imageSize
  image : ∀ o ≤ e, ctx'.image o = ctx.image o
  imageSize : ctx'.imageSize = ctx.imageSize
  shoff : ctx'.shoff = ctx.shoff
  bases : ∀ j < ctx.shnum, ctx'.sectionBases j = ctx.sectionBases j

namespace Alike

theorem load (h : Alike e ctx ctx') (hn : a + n ≤ ctx.imageSize) :
    load ctx'.image a n = load ctx.image a n := by
  have := h.ends
  exact Bytes.load_congr fun x _ hx => h.image x (by omega)

theorem shnum (h : Alike e ctx ctx') : ctx'.shnum = ctx.shnum := by
  have hhead : 64 ≤ ctx.imageSize := h.header
  exact h.load (a := 60) (n := 2) (by omega)

theorem sections (h : Alike e ctx ctx') (hi : i < ctx.shnum) :
    ctx'.sections i = ctx.sections i := by
  have hin : ctx.shoff + i * sizeofShdr + sizeofShdr ≤ ctx.imageSize := by
    have hmul : (i + 1) * sizeofShdr ≤ ctx.shnum * sizeofShdr := Nat.mul_le_mul_right _ hi
    have := h.headers
    rw [Nat.succ_mul] at hmul
    omega
  have hfield : ∀ o k, o + k ≤ sizeofShdr →
      Bytes.load ctx'.image (ctx.shoff + i * sizeofShdr + o) k
        = Bytes.load ctx.image (ctx.shoff + i * sizeofShdr + o) k :=
    fun o k hk => h.load (by omega)
  unfold ElfContext.sections shdrAt
  rw [h.shoff, hfield 4 4 (by decide), hfield 8 8 (by decide), hfield 24 8 (by decide),
    hfield 32 8 (by decide), hfield 40 4 (by decide), hfield 44 4 (by decide),
    hfield 48 8 (by decide), hfield 56 8 (by decide)]

theorem readShdr (h : Alike e ctx ctx') (hi : i < ctx.shnum) :
    readShdr ctx' i = readShdr ctx i := by
  unfold Elf.readShdr
  rw [h.shoff, h.sections hi]

theorem readSym (h : Alike e ctx ctx') (ha : a + sizeofSym ≤ ctx.imageSize) :
    readSym ctx' a = readSym ctx a := by
  have hfield : ∀ o k, o + k ≤ sizeofSym →
      Bytes.load ctx'.image (a + o) k = Bytes.load ctx.image (a + o) k :=
    fun o k hk => h.load (by omega)
  unfold Elf.readSym symAt
  rw [hfield 6 2 (by decide), hfield 8 8 (by decide)]
  have h0 := hfield 0 4 (by decide)
  rw [Nat.add_zero] at h0
  rw [h0]

theorem readRela (h : Alike e ctx ctx') (ha : a + sizeofRela ≤ ctx.imageSize) :
    readRela ctx' a = readRela ctx a := by
  have hfield : ∀ o k, o + k ≤ sizeofRela →
      Bytes.load ctx'.image (a + o) k = Bytes.load ctx.image (a + o) k :=
    fun o k hk => h.load (by omega)
  unfold Elf.readRela relaAt
  rw [hfield 8 8 (by decide), hfield 16 8 (by decide)]
  have h0 := hfield 0 8 (by decide)
  rw [Nat.add_zero] at h0
  rw [h0]

-- ---- names

/-- A name that starts in the image starts before its zero. -/
theorem name_le (h : Alike e ctx ctx') (ha : symbolName ctx symtab symbol = some a) : a ≤ e := by
  have := h.ends
  unfold symbolName at ha
  dsimp only at ha
  split_ifs at ha with hlink hbad
  cases ha
  rw [not_or, not_or, Bool.not_eq_true, Bool.not_eq_false'] at hbad
  have := rangeOk_le hbad.2.2
  omega

theorem symbolName (h : Alike e ctx ctx') (symtab : Shdr) (symbol : Sym) :
    symbolName ctx' symtab symbol = symbolName ctx symtab symbol := by
  unfold Elf.symbolName
  rw [h.shnum, h.imageSize]
  by_cases hlink : symtab.shLink ≥ ctx.shnum
  · rw [if_pos hlink, if_pos hlink]
  · rw [if_neg hlink, if_neg hlink, h.sections (Nat.lt_of_not_le hlink)]

/-- Before the zero nothing behind it is compared. -/
theorem strlen_eq {m m' : Memory} (hsame : ∀ o ≤ e, m' o = m o) (hz : m e = 0) (fuel : Nat)
    (ha : a ≤ e) : strlen m' fuel a = strlen m fuel a
      ∧ ∀ k, strlen m fuel a = some k → a + k ≤ e := by
  induction fuel generalizing a with
  | zero => exact ⟨rfl, fun k hk => (by cases hk)⟩
  | succ fuel ih =>
      unfold strlen
      rw [hsame a ha]
      by_cases h0 : m a = 0
      · rw [if_pos h0, if_pos h0]
        refine ⟨rfl, fun k hk => ?_⟩
        cases hk
        exact ha
      · rw [if_neg h0, if_neg h0]
        have hlt : a + 1 ≤ e := by
          by_contra hge
          exact h0 (by rwa [show a = e by omega])
        obtain ⟨heq, hle⟩ := ih hlt
        refine ⟨by rw [heq], fun k hk => ?_⟩
        obtain ⟨k', hk', rfl⟩ := Option.map_eq_some_iff.mp hk
        have := hle k' hk'
        omega

theorem stringEqual (h : Alike e ctx ctx') (ha : a ≤ e) (name : List Byte) :
    stringEqual ctx'.image a name = stringEqual ctx.image a name := by
  obtain ⟨heq, hle⟩ := strlen_eq h.image h.zero (2 ^ 64) ha
  unfold Elf.stringEqual
  rw [heq]
  cases hk : strlen ctx.image (2 ^ 64) a with
  | none => rfl
  | some k =>
      have := hle k hk
      have hall : ((List.range k).all fun j => ctx'.image (a + j) == name.getD j 0)
          = (List.range k).all fun j => ctx.image (a + j) == name.getD j 0 := by
        rw [Bool.eq_iff_iff, List.all_eq_true, List.all_eq_true]
        refine forall_congr' fun j => forall_congr' fun hj => ?_
        rw [List.mem_range] at hj
        rw [h.image (a + j) (by omega)]
      dsimp only
      rw [hall]

theorem resolveExport (h : Alike e ctx ctx') (ha : a ≤ e) :
    resolveExport address ctx'.image a = resolveExport address ctx.image a := by
  have hnames : (fun name => Elf.stringEqual ctx'.image a (bytesOf name))
      = fun name => Elf.stringEqual ctx.image a (bytesOf name) :=
    funext fun name => h.stringEqual ha (bytesOf name)
  unfold Elf.resolveExport
  rw [hnames]

theorem readSymbolName (h : Alike e ctx ctx') (symtab : Shdr) (symbol : Sym) :
    readSymbolName ctx' symtab symbol = readSymbolName ctx symtab symbol := by
  unfold Elf.readSymbolName
  rw [h.shnum, h.symbolName symtab symbol]
  by_cases hlink : symtab.shLink ≥ ctx.shnum
  · rw [if_pos hlink, if_pos hlink]
  · rw [if_neg hlink, if_neg hlink, h.readShdr (Nat.lt_of_not_le hlink)]

/-- What is done with a name. -/
theorem readName {α : Type} (h : Alike e ctx ctx') {f g : Option Nat → Traced Read α}
    (hnone : f none = g none) (hsome : ∀ a ≤ e, f (some a) = g (some a)) :
    (Elf.readSymbolName ctx' symtab symbol >>= f)
      = (Elf.readSymbolName ctx symtab symbol >>= g) := by
  rw [h.readSymbolName symtab symbol]
  have hv := readSymbolName_value ctx symtab symbol
  show Traced.mk _ _ = Traced.mk _ _
  rw [hv]
  cases ha : Elf.symbolName ctx symtab symbol with
  | none => rw [hnone]
  | some a => rw [hsome a (h.name_le ha)]

theorem readSymbolValue (h : Alike e ctx ctx') (symtab : Shdr) (symbol : Sym) :
    readSymbolValue address ctx' symtab symbol = readSymbolValue address ctx symtab symbol := by
  unfold Elf.readSymbolValue
  rw [h.shnum]
  by_cases habs : symbol.stShndx = SHN_ABS
  · rw [if_pos habs, if_pos habs]
  rw [if_neg habs, if_neg habs]
  by_cases hundef : symbol.stShndx = SHN_UNDEF
  · rw [if_pos hundef, if_pos hundef]
    refine h.readName rfl fun a ha => ?_
    dsimp only
    rw [h.resolveExport ha]
  rw [if_neg hundef, if_neg hundef]
  by_cases hnum : symbol.stShndx ≥ ctx.shnum
  · rw [if_pos (Or.inl hnum), if_pos (Or.inl hnum)]
    exact h.readName rfl fun _ _ => rfl
  · rw [h.bases _ (Nat.lt_of_not_le hnum)]
    by_cases hzero : ctx.sectionBases symbol.stShndx = 0
    · rw [if_pos (Or.inr hzero), if_pos (Or.inr hzero)]
      exact h.readName rfl fun _ _ => rfl
    · rw [if_neg (by tauto), if_neg (by tauto)]

-- ---- entries

/-- The tables of a round lie in the image. -/
theorem readEntry (h : Alike e ctx ctx')
    (hrange : rangeOk ctx.imageSize relsec.shOffset relsec.shSize = true)
    (hinfo : relsec.shInfo < ctx.shnum) (hok : symtabOk ctx symtab = true)
    (hr : r < relsec.shSize / sizeofRela) :
    readEntry address ctx' relsec symtab r = readEntry address ctx relsec symtab r := by
  unfold symtabOk at hok
  rw [Bool.and_eq_true] at hok
  unfold Elf.readEntry
  rw [h.readRela (element_le (rangeOk_le hrange) hr rfl)]
  refine congrArg (Elf.readRela ctx (relsec.shOffset + r * sizeofRela) >>= ·) (funext fun reloc => ?_)
  by_cases hindex : reloc.sym ≥ symtab.shSize / sizeofSym
  · rw [if_pos hindex, if_pos hindex]
  rw [if_neg hindex, if_neg hindex, h.readShdr hinfo, h.bases _ hinfo,
    h.readSym (element_le (rangeOk_le hok.2) (Nat.lt_of_not_le hindex) rfl)]
  refine congrArg (Elf.readShdr ctx relsec.shInfo >>= ·) (funext fun dest => ?_)
  by_cases hoffset : reloc.rOffset ≥ dest.shSize
  · rw [if_pos hoffset, if_pos hoffset]
  rw [if_neg hoffset, if_neg hoffset]
  refine congrArg (Elf.readSym ctx _ >>= ·) (funext fun symbol => ?_)
  rw [h.readSymbolValue symtab symbol]

theorem readCandidate (h : Alike e ctx ctx') (hok : symtabOk ctx symtab = true)
    (name : List Byte) (hn : n < symtab.shSize / sizeofSym) :
    readCandidate ctx' symtab name n = readCandidate ctx symtab name n := by
  unfold symtabOk at hok
  rw [Bool.and_eq_true] at hok
  unfold Elf.readCandidate
  rw [h.readSym (element_le (rangeOk_le hok.2) hn rfl)]
  refine congrArg (Elf.readSym ctx _ >>= ·) (funext fun symbol => ?_)
  refine h.readName rfl fun a ha => ?_
  dsimp only
  rw [h.stringEqual ha name]

/-- A search is the same if its rounds are. -/
theorem scan_congr {ρ : Type} {f g : Nat → Traced Read (Option ρ)}
    (h : ∀ j, i ≤ j → j < i + n → f j = g j) : scan f n i = scan g n i := by
  induction n generalizing i with
  | zero => rfl
  | succ n ih =>
      unfold scan
      rw [h i (Nat.le_refl i) (by omega), ih fun j h1 h2 => h j (by omega) (by omega)]

theorem readSymtab (h : Alike e ctx ctx') (hi : i < ctx.shnum) (name : List Byte) :
    readSymtab address ctx' name i = readSymtab address ctx name i := by
  unfold Elf.readSymtab
  rw [h.readShdr hi]
  refine congrArg (Elf.readShdr ctx i >>= ·) (funext fun symtab => ?_)
  have hok : symtabOk ctx' symtab = symtabOk ctx symtab := by
    unfold symtabOk
    rw [h.imageSize]
  rw [hok]
  by_cases htype : symtab.shType ≠ SHT_SYMTAB
  · rw [if_pos htype, if_pos htype]
  rw [if_neg htype, if_neg htype]
  by_cases hbad : (!symtabOk ctx symtab) = true
  · rw [if_pos hbad, if_pos hbad]
  rw [if_neg hbad, if_neg hbad]
  rw [Bool.not_eq_true, Bool.not_eq_false'] at hbad
  rw [scan_congr fun s _ hs => h.readCandidate hbad name (by omega)]
  refine congrArg (scan _ _ _ >>= ·) (funext fun found => ?_)
  cases found with
  | none => rfl
  | some symbol =>
      dsimp only
      rw [h.readSymbolValue symtab symbol]

/-- `sdi_elf_find_loaded_symbol`. -/
theorem readLoadedSymbol (h : Alike e ctx ctx') (name : String) :
    readLoadedSymbol address ctx' name = readLoadedSymbol address ctx name := by
  unfold Elf.readLoadedSymbol
  rw [h.shnum, scan_congr fun i _ hi => h.readSymtab (by omega) (bytesOf name)]

end Alike

-- ==== the writes

/-- Not a byte of the image or of `section_bases`. -/
def Misses (p : Place) (e n : Nat) (w : Write) : Prop :=
  ∀ a, w.target ≤ a → a < w.target + w.width →
    ¬ (p.image ≤ a ∧ a ≤ p.image + e)
      ∧ ¬ (p.sectionBases ≤ a ∧ a < p.sectionBases + n * 8)

/-- What misses them does not show. -/
theorem Alike.relocated (h : Alike e ctx (p.see m)) (hw : ∀ w ∈ ws, Misses p e ctx.shnum w) :
    Alike e ctx (p.see (relocated m ws)) := by
  refine { h with image := fun o ho => ?_, bases := fun j hj => ?_ }
  · rw [← h.image o ho]
    refine relocated_outside fun w hin hx => ?_
    exact (hw w hin (p.image + o) hx.1 hx.2).1 ⟨Nat.le_add_right _ _, by omega⟩
  · rw [← h.bases j hj]
    refine Bytes.load_congr fun x h1 h2 => relocated_outside fun w hin hx => ?_
    have hmul : (j + 1) * 8 ≤ ctx.shnum * 8 := Nat.mul_le_mul_right 8 hj
    exact (hw w hin x hx.1 hx.2).2 ⟨by omega, by omega⟩

/-- A round that ends the loop returns -1. -/
def stopping (f : Nat → Traced Read (Option (List Write))) (j : Nat) :
    Traced Read (Option Int) := do
  let writes ← f j
  return if writes.isNone then some (-1) else none

/-- The inner loop, if its rounds are those of `f`. -/
theorem roundsIn_alike {f : Nat → Traced Read (Option (List Write))}
    {step : Memory → Nat → Traced Read (Option (List Write))}
    (hstep : ∀ m j, Alike e ctx (p.see m) → i ≤ j → j < i + n → step m j = f j)
    (hmiss : ∀ j l, i ≤ j → j < i + n → (f j).value = some l →
      ∀ w ∈ l, Misses p e ctx.shnum w)
    (h : Alike e ctx (p.see m)) :
    (roundsIn step n i m).value = rounds (fun j => (f j).value) n i
      ∧ (roundsIn step n i m).trace = (scan (stopping f) n i).trace
      ∧ ∀ w ∈ (rounds (fun j => (f j).value) n i).1, Misses p e ctx.shnum w := by
  induction n generalizing i m with
  | zero => exact ⟨rfl, rfl, fun w hw => (by cases hw)⟩
  | succ n ih =>
      have hi := hstep m i h (Nat.le_refl i) (by omega)
      have hstop : (stopping f i).trace = (f i).trace := List.append_nil _
      unfold roundsIn rounds
      rw [value_bind, trace_bind, hi]
      cases hf : (f i).value with
      | none =>
          have hs : (stopping f i).value = some (-1) := by
            unfold stopping
            rw [value_bind, hf]
            rfl
          rw [(scan_some hs).2, hstop]
          exact ⟨rfl, List.append_nil _, fun w hw => (by cases hw)⟩
      | some l =>
          have hs : (stopping f i).value = none := by
            unfold stopping
            rw [value_bind, hf]
            rfl
          have hl := hmiss i l (Nat.le_refl i) (by omega) hf
          obtain ⟨hv, ht, hw⟩ := ih (i := i + 1)
            (fun m j hm h1 h2 => hstep m j hm (by omega) (by omega))
            (fun j l h1 h2 => hmiss j l (by omega) (by omega)) (h.relocated hl)
          dsimp only
          rw [value_bind, trace_bind, hv, ht, (scan_none hs).2, hstop]
          refine ⟨rfl, by rw [trace_pure, List.append_nil], fun w hin => ?_⟩
          exact (List.mem_append.mp hin).elim (hl w) (hw w)

-- ==== the fields

/-- No field of an entry that is applied has a byte of the image, up to the
zero at `e`, or of `section_bases`. -/
structure Clear (p : Place) (e : Nat) (ctx : ElfContext) : Prop where
  ends : ctx.imageSize ≤ e + 1
  zero : ctx.image e = 0
  space : p.image + e < 2 ^ 64 ∧ p.sectionBases + ctx.shnum * 8 ≤ 2 ^ 64
  image : ∀ i r a, Applied ctx i r → InField ctx i r a →
    ¬ (p.image ≤ a % 2 ^ 64 ∧ a % 2 ^ 64 ≤ p.image + e)
  bases : ∀ i r a, Applied ctx i r → InField ctx i r a →
    ¬ (p.sectionBases ≤ a % 2 ^ 64 ∧ a % 2 ^ 64 < p.sectionBases + ctx.shnum * 8)

/-- All fields are in a range, and the range is elsewhere. -/
theorem clear_of_range {x y : Nat} (hends : ctx.imageSize ≤ e + 1) (hzero : ctx.image e = 0)
    (hspace : p.image + e < 2 ^ 64 ∧ p.sectionBases + ctx.shnum * 8 ≤ 2 ^ 64)
    (hfield : ∀ i r a, Applied ctx i r → InField ctx i r a → x ≤ a ∧ a < y)
    (hy : y ≤ 2 ^ 64) (himage : p.image + e < x ∨ y ≤ p.image)
    (hbases : p.sectionBases + ctx.shnum * 8 ≤ x ∨ y ≤ p.sectionBases) : Clear p e ctx := by
  refine ⟨hends, hzero, hspace, fun i r a ha hin => ?_, fun i r a ha hin => ?_⟩
  · have := hfield i r a ha hin
    omega
  · have := hfield i r a ha hin
    omega

/-- What an entry writes is its field. -/
theorem Clear.misses (hc : Clear p e ctx) (ha : Applied ctx i r) {symtab : Shdr}
    (h : applyEntry address ctx (ctx.sections i) symtab r = some l) :
    ∀ w ∈ l, Misses p e ctx.shnum w := by
  intro w hw
  obtain ⟨-, ⟨-, rfl⟩ | ⟨value, rfl⟩⟩ := applyEntry_some h
  · cases hw
  · cases List.mem_singleton.mp hw
    intro a h1 h2
    have hfield : InField ctx i r a := by
      unfold InField entryPlace entryAt
      dsimp only at h1 h2
      exact ⟨h1, h2⟩
    have hmod : a < 2 ^ 64 → a % 2 ^ 64 = a := Nat.mod_eq_of_lt
    obtain ⟨himage, hbases⟩ := hc.space
    refine ⟨fun hin => hc.image i r a ha hfield ?_, fun hin => hc.bases i r a ha hfield ?_⟩
    · rw [hmod (Nat.lt_of_le_of_lt hin.2 himage)]
      exact hin
    · rw [hmod (Nat.lt_of_lt_of_le hin.2 hbases)]
      exact hin

variable (address) in
/-- One round of the outer loop. -/
theorem applySection_alike (h : Alike e ctx (p.see m)) (hc : Clear p e ctx) (hi : i < ctx.shnum) :
    (p.applySection address m i).value = applySection address ctx i
      ∧ (p.applySection address m i).trace = (readSection address ctx i).trace
      ∧ ∀ w ∈ (applySection address ctx i).1, Misses p e ctx.shnum w := by
  have hnone : ∀ rc : Int, ∀ w ∈ (([], rc) : List Write × Int).1, Misses p e ctx.shnum w :=
    fun rc w hw => (by cases hw)
  unfold Place.applySection applySection readSection
  dsimp only
  rw [h.readShdr hi, h.shnum, value_bind, trace_bind, trace_bind, readShdr_value]
  by_cases h1 : (ctx.sections i).shType ≠ SHT_RELA
  · simp only [if_pos h1]
    exact ⟨rfl, rfl, hnone 0⟩
  simp only [if_neg h1]
  by_cases h2 : (ctx.sections i).shLink ≥ ctx.shnum ∨ (ctx.sections i).shInfo ≥ ctx.shnum
  · simp only [if_pos h2]
    exact ⟨rfl, rfl, hnone (-1)⟩
  simp only [if_neg h2]
  rw [not_or, not_le, not_le] at h2
  by_cases h3 : (ctx.sections i).shEntsize ≠ sizeofRela ∨ (ctx.sections i).shSize % sizeofRela ≠ 0
  · simp only [if_pos h3]
    exact ⟨rfl, rfl, hnone (-1)⟩
  simp only [if_neg h3, h.bases _ h2.2]
  by_cases h4 : ctx.sectionBases (ctx.sections i).shInfo = 0
  · simp only [if_pos h4]
    exact ⟨rfl, rfl, hnone 0⟩
  simp only [if_neg h4, h.imageSize]
  by_cases h5 : (!rangeOk ctx.imageSize (ctx.sections i).shOffset (ctx.sections i).shSize) = true
  · simp only [if_pos h5]
    exact ⟨rfl, rfl, hnone (-1)⟩
  simp only [if_neg h5]
  rw [Bool.not_eq_true, Bool.not_eq_false'] at h5
  have hok : symtabOk (p.see m) (ctx.sections (ctx.sections i).shLink)
      = symtabOk ctx (ctx.sections (ctx.sections i).shLink) := by
    unfold symtabOk
    rw [h.imageSize]
  rw [h.readShdr h2.1, value_bind, trace_bind, trace_bind, readShdr_value, hok]
  by_cases h6 : (ctx.sections (ctx.sections i).shLink).shType ≠ SHT_SYMTAB
      ∨ (!symtabOk ctx (ctx.sections (ctx.sections i).shLink)) = true
  · simp only [if_pos h6]
    exact ⟨rfl, rfl, hnone (-1)⟩
  simp only [if_neg h6]
  rw [not_or, not_not, Bool.not_eq_true, Bool.not_eq_false'] at h6
  have happlied : ∀ r < (ctx.sections i).shSize / sizeofRela, Applied ctx i r := fun r hr =>
    ⟨hi, not_not.mp h1, h4, hr⟩
  have hvalue : (fun j => (readEntry address ctx (ctx.sections i)
      (ctx.sections (ctx.sections i).shLink) j).value)
      = applyEntry address ctx (ctx.sections i) (ctx.sections (ctx.sections i).shLink) :=
    funext fun j => readEntry_value ctx _ _ j
  have hstep : ∀ m' j, Alike e ctx (p.see m') → 0 ≤ j →
      j < 0 + (ctx.sections i).shSize / sizeofRela →
      p.applyEntry address i (ctx.sections i).shLink (ctx.sections i).shOffset
          (ctx.sections (ctx.sections i).shLink).shOffset m' j
        = readEntry address ctx (ctx.sections i) (ctx.sections (ctx.sections i).shLink) j := by
    intro m' j hm _ hj
    rw [Nat.zero_add] at hj
    unfold Place.applyEntry
    dsimp only
    rw [hm.sections hi, hm.sections h2.1]
    exact hm.readEntry h5 h2.2 h6.2 hj
  obtain ⟨hv, ht, hw⟩ := roundsIn_alike hstep (fun j l _ hj hl => by
    rw [Nat.zero_add] at hj
    rw [readEntry_value] at hl
    exact hc.misses (happlied j hj) hl) h
  rw [hvalue] at hv hw
  exact ⟨hv, by rw [ht, trace_bind, trace_pure, List.append_nil]; rfl, hw⟩

variable (address) in
/-- The outer loop. -/
theorem applyFrom_alike (h : Alike e ctx (p.see m)) (hc : Clear p e ctx)
    (hn : ctx.shnum ≤ i + n) :
    (p.applyFrom address n i m).value = applyFrom address ctx (ctx.shnum - i) i
      ∧ (p.applyFrom address n i m).trace
        = (scan (sectionRound address ctx) (ctx.shnum - i) i).trace
      ∧ ∀ w ∈ (applyFrom address ctx (ctx.shnum - i) i).1, Misses p e ctx.shnum w := by
  induction n generalizing i m with
  | zero =>
      rw [Nat.add_zero] at hn
      rw [Nat.sub_eq_zero_of_le hn]
      exact ⟨rfl, rfl, fun w hw => (by cases hw)⟩
  | succ n ih =>
      unfold Place.applyFrom
      rw [h.shnum]
      by_cases hend : i ≥ ctx.shnum
      · rw [if_pos hend, Nat.sub_eq_zero_of_le hend]
        exact ⟨rfl, rfl, fun w hw => (by cases hw)⟩
      rw [if_neg hend]
      obtain ⟨hv, ht, hw⟩ := applySection_alike address h hc (Nat.lt_of_not_le hend)
      have hcount : ctx.shnum - i = ctx.shnum - (i + 1) + 1 := by omega
      rw [value_bind, trace_bind, hv, ht, hcount]
      have hround : (sectionRound address ctx i).trace = (readSection address ctx i).trace :=
        List.append_nil _
      unfold applyFrom
      dsimp only
      by_cases hrc : (applySection address ctx i).2 ≠ 0
      · have hs : (sectionRound address ctx i).value = some (applySection address ctx i).2 := by
          unfold sectionRound
          rw [value_bind, readSection_value, value_pure, if_pos hrc]
        simp only [if_pos hrc]
        rw [(scan_some hs).2, hround]
        exact ⟨rfl, List.append_nil _, hw⟩
      · have hs : (sectionRound address ctx i).value = none := by
          unfold sectionRound
          rw [value_bind, readSection_value, value_pure, if_neg hrc]
        obtain ⟨hv', ht', hw'⟩ := ih (i := i + 1) (h.relocated hw) (by omega)
        simp only [if_neg hrc]
        rw [value_bind, trace_bind, hv', ht', (scan_none hs).2, hround]
        refine ⟨rfl, by rw [trace_pure, List.append_nil], fun w hin => ?_⟩
        exact (List.mem_append.mp hin).elim (hw w) (hw' w)

variable (address) in
/-- `sdi_elf_apply_relocations` in a memory in which no field meets what it
looks at. -/
theorem relocations_alike (h : Alike e ctx (p.see m)) (hc : Clear p e ctx) :
    (p.applyRelocations address m).value = applyRelocations address ctx
      ∧ (p.applyRelocations address m).trace = (readRelocations address ctx).trace
      ∧ Alike e ctx (p.see (relocated m (applyRelocations address ctx).1)) := by
  have hnum : ctx.shnum < 256 ^ 2 := Bytes.load_lt _ _ _
  obtain ⟨hv, ht, hw⟩ := applyFrom_alike address (i := 0) (n := 2 ^ 16) h hc (by omega)
  rw [Nat.sub_zero] at hv ht hw
  refine ⟨hv, ?_, h.relocated hw⟩
  unfold readRelocations Place.applyRelocations
  rw [ht, trace_bind, trace_pure, List.append_nil]

-- ==== the results

/-- The image has been accepted, and `sections` set. -/
structure Place.Accepted (p : Place) (m : Memory) : Prop where
  valid : validateHeader (p.see m).image p.imageSize = true
  shoff : p.shoff = (ehdr (p.see m).image).eShoff

theorem Place.Accepted.alike (h : p.Accepted m) (hc : Clear p e (p.see m)) :
    Alike e (p.see m) (p.see m) := by
  obtain ⟨hheader, hheaders⟩ := validateHeader_le h.valid
  refine ⟨hc.ends, hc.zero, hheader, ?_, fun _ _ => rfl, rfl, rfl, fun _ _ => rfl⟩
  have hshoff : (p.see m).shoff = (ehdr (p.see m).image).eShoff := h.shoff
  rw [hshoff]
  exact hheaders

/-- When `sdi_elf_apply_relocations` returns 0, and no field meets the
image or `section_bases`, what it has written is inside the sections it
was for if and only if no field of an entry that is applied reaches behind
its section. -/
theorem Place.applied_inside_iff (hacc : p.Accepted m) (hc : Clear p e (p.see m))
    (h : (p.applyRelocations address m).value = (ws, 0)) :
    (∀ w ∈ ws, Inside (p.see m) w) ↔ ∀ i r, Applied (p.see m) i r → FieldFits (p.see m) i r := by
  obtain ⟨hv, -, -⟩ := relocations_alike address (hacc.alike hc) hc
  rw [hv] at h
  exact relocations_inside_iff h

/-- Where no field meets the image or `section_bases`: when
`sdi_elf_apply_relocations` returns 0, and the fields are inside their
sections and apart, every field holds what it has to and nothing else is
changed; and it returns -1 when a value has no place in its field. -/
theorem Place.fields_exact (address : String → Nat) (hacc : p.Accepted m)
    (hc : Clear p e (p.see m)) :
    ((p.applyRelocations address m).value.2 = 0 →
      (∀ i r, Applied (p.see m) i r → FieldInside (p.see m) i r) → FieldsApart (p.see m) →
      (∀ i r, Applied (p.see m) i r → EntryHolds address (p.see m) i r
        (load (relocated m (p.applyRelocations address m).value.1) (entryPlace (p.see m) i r)
          (relocWidth (entryAt (p.see m) i r).type)))
      ∧ ∀ a, (∀ i r, Applied (p.see m) i r → ¬ InField (p.see m) i r a) →
        relocated m (p.applyRelocations address m).value.1 a = m a)
    ∧ ∀ i r S, Applied (p.see m) i r → EntrySymbolIs address (p.see m) i r S →
      ¬ Representable (entryAt (p.see m) i r).type (BitVec.ofNat 64 S)
        (BitVec.ofNat 64 (entryAt (p.see m) i r).rAddend)
        (BitVec.ofNat 64 (entryPlace (p.see m) i r)) →
      (p.applyRelocations address m).value.2 = -1 := by
  obtain ⟨hv, -, -⟩ := relocations_alike address (hacc.alike hc) hc
  rw [hv]
  exact relocations_exact address (p.see m) m

-- ---- on a machine

/-- What `sdi_elf_prepare_sections` makes of an image in a block of a heap
that has just been set up: the pointers, and `section_bases`. -/
def prepared (image : Memory) (imageSize : Nat) : Option (Place × List Nat) :=
  match Kheap.rootedHeap.kmalloc imageSize with
  | .error _ => none
  | .ok (s, block) =>
      match s.prepareSections (some 16) (.start image imageSize) with
      | .error _ => none
      | .ok (_, ctx, rc) =>
          if rc ≠ 0 then none
          else
            some (⟨block, imageSize, ctx.shoff, s.basesAt (.start image imageSize)⟩,
              (List.range ctx.shnum).map ctx.sectionBases)

/-- A memory with the image and `section_bases`; the rest does not matter. -/
def holding (p : Place) (image : Memory) (bases : List Nat) : Memory :=
  Bytes.storeAll (Bytes.copy (fun _ => 0) p.image image 0 p.imageSize) p.sectionBases 8 8
    (fun i => bases.getD i 0) bases.length

/-- The place and the table of the images of 480 bytes here. -/
def driverPlace : Place := ⟨0xffff800000001030, 480, 64, 0xffff800000002030⟩

def driverBases : List Nat := [0, 0xffff800000003028, 0, 0, 0]

/-- The memory before the driver with one entry is relocated, with its field
at `rOffset`. -/
def driverMem (rOffset : Nat) : Memory := holding driverPlace (driverImage rOffset) driverBases

/-- Its context. -/
abbrev driverCtx (rOffset : Nat) : ElfContext := driverPlace.see (driverMem rOffset)

theorem driver_accepted : driverPlace.Accepted (driverMem 0) :=
  ⟨by decide +kernel, by decide +kernel⟩

theorem driver_applied : Applied (driverCtx 0) i r ↔ i = 4 ∧ r = 0 := by
  have honly : ∀ i < (driverCtx 0).shnum, ((driverCtx 0).sections i).shType = SHT_RELA → i = 4 := by
    decide +kernel
  have hcount : ((driverCtx 0).sections 4).shSize / sizeofRela = 1 := by decide +kernel
  constructor
  · intro ha
    obtain rfl := honly i ha.index ha.rela
    have hr := ha.entry
    rw [hcount] at hr
    exact ⟨rfl, by omega⟩
  · rintro ⟨rfl, rfl⟩
    exact ⟨by decide +kernel, by decide +kernel, by decide +kernel, by decide +kernel⟩

theorem driver_inside (ha : Applied (driverCtx 0) i r) : FieldInside (driverCtx 0) i r := by
  obtain ⟨rfl, rfl⟩ := driver_applied.mp ha
  unfold FieldInside FieldFits
  decide +kernel

/-- The field is behind the image and the table. -/
theorem driver_clear : Clear driverPlace 479 (driverCtx 0) := by
  have hplace : entryPlace (driverCtx 0) 4 0 = 0xffff800000003028 := by decide +kernel
  have hwidth : relocWidth (entryAt (driverCtx 0) 4 0).type = 8 := by decide +kernel
  have hnum : (driverCtx 0).shnum = 5 := by decide +kernel
  have hfield : ∀ i r a, Applied (driverCtx 0) i r → InField (driverCtx 0) i r a →
      0xffff800000003028 ≤ a ∧ a < 0xffff800000003030 := by
    intro i r a ha hin
    obtain ⟨rfl, rfl⟩ := driver_applied.mp ha
    unfold InField at hin
    rw [hplace, hwidth] at hin
    exact hin
  refine clear_of_range (by decide) (by decide +kernel) ?_ hfield (by decide)
    (Or.inl (by decide)) (Or.inl ?_)
  · rw [hnum]
    decide
  · rw [hnum]
    decide

/-- At 0 the field fits. -/
theorem applied_inside_loaded : prepared (driverImage 0) 480 = some (driverPlace, driverBases)
    ∧ ∃ ws, (driverPlace.applyRelocations (fun _ => 0) (driverMem 0)).value = (ws, 0)
      ∧ ws.length = 1 ∧ ∀ w ∈ ws, Inside (driverCtx 0) w := by
  have hret : (driverPlace.applyRelocations (fun _ => 0) (driverMem 0)).value
      = ((driverPlace.applyRelocations (fun _ => 0) (driverMem 0)).value.1, 0) :=
    Prod.ext rfl (by decide +kernel)
  refine ⟨by decide +kernel, _, hret, by decide +kernel, ?_⟩
  exact (Place.applied_inside_iff driver_accepted driver_clear hret).mpr fun i r ha =>
    (driver_inside ha).1

/-- At 4 it does not, and 0 is returned all the same. -/
theorem relocations_straddle : prepared (driverImage 4) 480 = some (driverPlace, driverBases)
    ∧ driverPlace.Accepted (driverMem 4)
    ∧ ∃ ws, (driverPlace.applyRelocations (fun _ => 0) (driverMem 4)).value = (ws, 0)
      ∧ ¬ ∀ w ∈ ws, Inside (driverCtx 4) w := by
  have hret : (driverPlace.applyRelocations (fun _ => 0) (driverMem 4)).value
      = ([⟨1, 0xffff80000000302c, 8, 0xffff800000003028⟩], 0) := by decide +kernel
  have hbase : (driverCtx 4).sectionBases 1 = 0xffff800000003028 := by decide +kernel
  have hsize : ((driverCtx 4).sections 1).shSize = 8 := by decide +kernel
  refine ⟨by decide +kernel, ⟨by decide +kernel, by decide +kernel⟩, _, hret, fun hall => ?_⟩
  -- the byte behind the section
  obtain ⟨k, hk, he⟩ := hall _ List.mem_cons_self 4 (by decide)
  dsimp only at hk he
  rw [hsize] at hk
  rw [hbase] at he
  omega

/-- The field of the driver's entry holds the sum. -/
theorem fields_exact_loaded : prepared (driverImage 0) 480 = some (driverPlace, driverBases)
    ∧ EntryHolds (fun _ => 0) (driverCtx 0) 4 0
      (load (relocated (driverMem 0)
          (driverPlace.applyRelocations (fun _ => 0) (driverMem 0)).value.1)
        (entryPlace (driverCtx 0) 4 0) (relocWidth (entryAt (driverCtx 0) 4 0).type)) := by
  refine ⟨by decide +kernel, ((Place.fields_exact (fun _ => 0) driver_accepted driver_clear).1
    (by decide +kernel) (fun i r ha => driver_inside ha) fun i r i' r' a ha ha' _ _ => ?_).1 4 0
      (driver_applied.mpr ⟨rfl, rfl⟩)⟩
  obtain ⟨rfl, rfl⟩ := driver_applied.mp ha
  obtain ⟨rfl, rfl⟩ := driver_applied.mp ha'
  exact ⟨rfl, rfl⟩

/-- Section 2 has no bytes in the file, starts `0x4000` bytes in front of
the module and ends before it; the image is there. Its first entry is at
the addend of the second, and writes 7 there; that addend is 9. -/
def selfImage : Memory :=
  imageOf (ehdrFields 6 ++ shdrFields 1 SHT_NOBITS 2 0 (2 ^ 64 - 0x4000) 0 0 1 0
    ++ shdrFields 2 SHT_NOBITS 2 0 0x3fff 0 0 1 0 ++ shdrFields 3 SHT_NOBITS 2 0 8 0 0 8 0
    ++ shdrFields 4 SHT_SYMTAB 0 448 24 0 0 8 24 ++ shdrFields 5 SHT_RELA 0 472 48 4 2 8 24
    ++ [(454, 2, SHN_ABS), (472, 8, 0x2200), (480, 8, R_X86_64_64), (488, 8, 7),
      (504, 8, R_X86_64_64), (512, 8, 9)])

def selfPlace : Place := ⟨0xffff800000001030, 520, 64, 0xffff800000002030⟩

def selfBases : List Nat := [0, 0xffff800000003030, 0xffff7ffffffff030, 0xffff800000003030, 0, 0]

def selfMem : Memory := holding selfPlace selfImage selfBases

abbrev selfCtx : ElfContext := selfPlace.see selfMem

/-- All fields are inside their sections and apart, 0 is returned, and the
second field holds 7. -/
theorem fields_overwritten : prepared selfImage 520 = some (selfPlace, selfBases)
    ∧ selfPlace.Accepted selfMem
    ∧ (selfPlace.applyRelocations (fun _ => 0) selfMem).value.2 = 0
    ∧ (∀ i r, Applied selfCtx i r → FieldInside selfCtx i r) ∧ FieldsApart selfCtx
    ∧ ¬ ∀ i r, Applied selfCtx i r → EntryHolds (fun _ => 0) selfCtx i r
      (load (relocated selfMem (selfPlace.applyRelocations (fun _ => 0) selfMem).value.1)
        (entryPlace selfCtx i r) (relocWidth (entryAt selfCtx i r).type)) := by
  have honly : ∀ i < selfCtx.shnum, (selfCtx.sections i).shType = SHT_RELA → i = 5 := by
    decide +kernel
  have hcount : (selfCtx.sections 5).shSize / sizeofRela = 2 := by decide +kernel
  have htwo : ∀ i r, Applied selfCtx i r → i = 5 ∧ (r = 0 ∨ r = 1) := by
    intro i r ha
    obtain rfl := honly i ha.index ha.rela
    have hr := ha.entry
    rw [hcount] at hr
    exact ⟨rfl, by omega⟩
  have hplace : entryPlace selfCtx 5 0 = 0xffff800000001230 := by decide +kernel
  have hplace' : entryPlace selfCtx 5 1 = 0xffff7ffffffff030 := by decide +kernel
  have hwidth : relocWidth (entryAt selfCtx 5 0).type = 8 := by decide +kernel
  have hwidth' : relocWidth (entryAt selfCtx 5 1).type = 8 := by decide +kernel
  refine ⟨by decide +kernel, ⟨by decide +kernel, by decide +kernel⟩, by decide +kernel,
    fun i r ha => ?_, fun i r i' r' a ha ha' hin hin' => ?_, fun hall => ?_⟩
  · unfold FieldInside FieldFits
    obtain ⟨rfl, rfl | rfl⟩ := htwo i r ha
    · decide +kernel
    · decide +kernel
  · unfold InField at hin hin'
    obtain ⟨rfl, rfl | rfl⟩ := htwo i r ha
    · obtain ⟨rfl, rfl | rfl⟩ := htwo i' r' ha'
      · exact ⟨rfl, rfl⟩
      · rw [hplace, hwidth] at hin
        rw [hplace', hwidth'] at hin'
        omega
    · obtain ⟨rfl, rfl | rfl⟩ := htwo i' r' ha'
      · rw [hplace', hwidth'] at hin
        rw [hplace, hwidth] at hin'
        omega
      · exact ⟨rfl, rfl⟩
  · have happ : Applied selfCtx 5 1 :=
      ⟨by decide +kernel, by decide +kernel, by decide +kernel, by decide +kernel⟩
    obtain ⟨S, hS, hholds⟩ := hall 5 1 happ
    have hndx : (entrySymbol selfCtx 5 1).stShndx = SHN_ABS := by decide +kernel
    have hval : (entrySymbol selfCtx 5 1).stValue = 0 := by decide +kernel
    have hadd : (entryAt selfCtx 5 1).rAddend = 9 := by decide +kernel
    have hload : load (relocated selfMem
        (selfPlace.applyRelocations (fun _ => 0) selfMem).value.1) 0xffff7ffffffff030 8 = 7 := by
      decide +kernel
    have hsum := hholds.abs64 (by decide +kernel)
    rw [hplace', hwidth', hload, SymbolIs.unique hS (.abs hndx), hval, hadd] at hsum
    exact absurd hsum (by decide)

-- ==== the loader

section loader

variable {s t : Kheap} {pml4 : Option Nat} {image imageSize : Nat}

/-- A base is the address of a section that is loaded, or 0. -/
theorem Placing.bases {d : ElfContext} (h : Placing d m n (t, ctx)) (hd : ∀ j, d.sectionBases j = 0)
    (j : Nat) : ctx.sectionBases j = 0
      ∨ j < n ∧ (d.sections j).alloc = true ∧ ctx.sectionBases j = baseOf d j := by
  by_cases hj : j < n ∧ (d.sections j).alloc = true
  · exact Or.inr ⟨hj.1, hj.2, h.base j hj.1 hj.2⟩
  · exact Or.inl ((h.others j hj).trans (hd j))

/-- What the loader writes leaves the image alone, up to the zero at `e`:
the memory of the image is as before when the sections are prepared, none
has been copied over it on the way, and neither `section_bases` nor a field
of an entry that is applied is in it. -/
structure Undisturbed (s t : Kheap) (ctx : ElfContext) (image imageSize e : Nat) : Prop where
  kept : ∀ o ≤ e, t.mem (image + o) = s.mem (image + o)
  copies : ∀ i < ctx.shnum, Copied ctx i → ∀ a, InSection ctx i a →
    ¬ (image ≤ a % 2 ^ 64 ∧ a % 2 ^ 64 ≤ image + e)
  table : image + e < s.basesAt (s.imageAt image imageSize)
    ∨ s.basesAt (s.imageAt image imageSize) + ctx.shnum * 8 ≤ image
  clear : Clear (s.placeAt image imageSize ctx) e ctx

/-- A field that fits is in the block of the module. -/
theorem Prepared.field {c : ElfContext} {x y : Nat} (hp : Prepared s t c ctx)
    (hsame : ctx.sections = c.sections) (hlow : x ≤ ctx.moduleBase)
    (hhigh : ctx.moduleBase + ctx.moduleSize ≤ y) (hy : y ≤ 2 ^ 64)
    (hbases : ∀ j, ctx.sectionBases j = 0 ∨ j < c.shnum ∧ (c.sections j).alloc = true)
    (ha : Applied ctx i r) (hfits : FieldFits ctx i r) (hin : InField ctx i r a) :
    x ≤ a ∧ a < y := by
  obtain ⟨hj, halloc⟩ := (hbases _).resolve_left ha.loaded
  obtain ⟨h1, h2⟩ := hp.inside _ hj halloc
  rw [← hsame] at h2
  unfold FieldFits at hfits
  obtain ⟨h3, h4⟩ := hin
  unfold entryPlace entryAt at h3 h4
  omega

section blocks

variable {maxPfn k p₁ p₂ block : Nat} {usable : Nat → Bool} {live : List (Nat × Nat)}
  {others : List Dyadic.Block} {c : ElfContext} {l : SectionLayout} {u : Kheap}

/-- The image's block, the table, and the module's block are apart. -/
theorem Settled.apart (h : Settled maxPfn usable s live others c u p₁ p₂ block l)
    (hx : (image, k) ∈ live) :
    (image + k ≤ p₁ ∨ p₁ + 8 * c.shnum ≤ image)
      ∧ (image + k ≤ block ∨ block + moduleBytes l ≤ image)
      ∧ (p₁ + 8 * c.shnum ≤ block ∨ block + moduleBytes l ≤ p₁) := by
  obtain ⟨⟨G, ref, hinv⟩, -⟩ := h.calls.run.kept
  have hx₂ : (image, k) ∈ (p₂, 8 * c.shnum) :: (p₁, 8 * c.shnum) :: live :=
    List.mem_cons_of_mem _ (List.mem_cons_of_mem _ hx)
  have hp₁ : (p₁, 8 * c.shnum) ∈ (p₂, 8 * c.shnum) :: (p₁, 8 * c.shnum) :: live :=
    List.mem_cons_of_mem _ List.mem_cons_self
  have halone := hinv.alone
  simp only [List.map_cons, List.nodup_cons] at halone
  obtain ⟨-, -, hne, -⟩ := halone
  have hfst : image ∈ live.map Prod.fst := List.mem_map.mpr ⟨_, hx, rfl⟩
  refine ⟨?_, ?_, ?_⟩
  · exact hinv.live_apart (List.mem_cons_of_mem _ hx₂) (List.mem_cons_of_mem _ hp₁)
      fun he => hne (he ▸ hfst)
  · exact hinv.live_apart (List.mem_cons_of_mem _ hx₂) List.mem_cons_self (hinv.newest_ne hx₂)
  · exact hinv.live_apart (List.mem_cons_of_mem _ hp₁) List.mem_cons_self (hinv.newest_ne hp₁)

/-- They end before the end of the address space. -/
theorem Settled.ends (h : Settled maxPfn usable s live others c u p₁ p₂ block l)
    (htop : Kheap.pageAt s.hhdm (maxPfn + 1) < 2 ^ 64) (hx : (image, k) ∈ live) (hk : k ≠ 0)
    (hnum : c.shnum ≠ 0) : image + k < 2 ^ 64 ∧ p₁ + 8 * c.shnum < 2 ^ 64 := by
  have hx₂ := h.calls.stay _ hx
  have himage := live_end h.calls.run hx₂ hk
  have htable := live_end h.calls.run (x := p₁) (n := 8 * c.shnum)
    (List.mem_cons_of_mem _ (List.mem_cons_of_mem _ List.mem_cons_self)) (by omega)
  rw [h.calls.hhdm] at himage htable
  exact ⟨by omega, by omega⟩

/-- The image is in a block of the heap, up to its zero, the sections fit
theirs, and the fields fit their sections: then the loader leaves the image
alone. -/
theorem undisturbed_of_fits (hrun : Kheap.Run maxPfn usable s live others)
    (hmax : maxPfn < 2 ^ 40) (htop : Kheap.pageAt s.hhdm (maxPfn + 1) < 2 ^ 64)
    (hk : ∀ k, pml4 = some k → ∃ level, Kheap.KernelTables maxPfn usable s others k level)
    (hret : s.prepareSections pml4 (s.imageAt image imageSize) = .ok (t, ctx, 0))
    (hmodule : ModuleFits (s.imageAt image imageSize)) (himage : (image, k) ∈ live)
    (hends : imageSize ≤ e + 1) (hzero : s.mem (image + e) = 0) (he : e < k)
    (hfields : ∀ i r, Applied ctx i r → FieldFits ctx i r) :
    Undisturbed s t ctx image imageSize e := by
  have hp := (prepareSections_iff hrun hmax htop hk hret).mpr hmodule
  obtain ⟨s₁, s₂, u, p₁, p₂, block, l, h⟩ := prepareSections_zero hret
  have hset := h.settled hrun htop hmodule
  obtain ⟨m, hplaced, -, hbytes⟩ := h.cleared hset.calls.run hmax (fun k hpml => by
    obtain ⟨level, hk⟩ := hk k hpml
    exact ⟨level, hset.calls.kernel k level hk⟩) hset.seated
  have hsame : ctx = _ := hplaced.same
  have hnum : ctx.shnum = (s.imageAt image imageSize).shnum := by
    rw [hsame]
    rfl
  have hbases := hplaced.bases fun _ => rfl
  obtain ⟨i₀, hi₀, -⟩ := hset.exact.first h.total
  obtain ⟨hapart₁, hapart, hapart₂⟩ := hset.apart himage
  obtain ⟨hend, hend₁⟩ := hset.ends htop himage (by omega) (by omega)
  have htable : s.basesAt (s.imageAt image imageSize) = p₁ := by
    unfold Kheap.basesAt
    rw [h.bases]
  obtain ⟨u', block', n', hblock, -, hlow, hhigh⟩ := hp.block
  obtain ⟨-, rfl, rfl⟩ := h.block_unique hblock
  -- a section that is copied is in the module's block
  have hcopied : ∀ i < (s.imageAt image imageSize).shnum, Copied ctx i → ∀ a, InSection ctx i a →
      block' ≤ a ∧ a < block' + moduleBytes l := by
    intro i hi hc a hin
    have halloc : ((s.imageAt image imageSize).sections i).alloc = true := by
      have := hc.1
      rw [hsame] at this
      exact this
    have hbase : ctx.sectionBases i = baseOf ctx i := by
      rw [hplaced.base i hi halloc, hsame]
      rfl
    obtain ⟨h1, h2⟩ := hp.inside i hi halloc
    have hsize : (ctx.sections i).shSize = ((s.imageAt image imageSize).sections i).shSize := by
      rw [hsame]
      rfl
    unfold InSection at hin
    omega
  have htop' := hset.seated.top
  refine ⟨fun o ho => ?_, fun i hi hc a ha => ?_, ?_, ?_⟩
  · have hout : t.mem (image + o) = m (image + o) := by
      refine hplaced.outside _ fun i hi hc hin => ?_
      have hin' := hcopied i hi (by rw [hsame]; exact hc) (image + o) (by rw [hsame]; exact hin)
      omega
    have hmem := List.mem_cons_of_mem (p₂, 8 * (s.imageAt image imageSize).shnum)
      (List.mem_cons_of_mem (p₁, 8 * (s.imageAt image imageSize).shnum) himage)
    rw [hout, hbytes image k hmem _ (by omega) (by omega)]
    exact hset.calls.bytes image k himage _ (by omega) (by omega)
  · rw [hsame] at hi
    have := hcopied i hi hc a ha
    omega
  · rw [htable, hnum]
    omega
  · have hplace : (s.placeAt image imageSize ctx).sectionBases = p₁ := htable
    refine clear_of_range (x := block') (y := block' + moduleBytes l) ?_ ?_ ?_ ?_ ?_ ?_ ?_
    · rw [hsame]
      exact hends
    · rw [hsame]
      exact hzero
    · rw [hplace, hnum]
      exact ⟨show image + e < 2 ^ 64 by omega, by omega⟩
    · intro i r a ha hin
      refine hp.field (by rw [hsame]; rfl) hlow hhigh (by omega) (fun j => ?_) ha
        (hfields i r ha) hin
      exact (hbases j).imp_right fun hj => ⟨hj.1, hj.2.1⟩
    · omega
    · show image + e < block' ∨ block' + moduleBytes l ≤ image
      omega
    · rw [hplace, hnum]
      omega

/-- A block is allocated and the image copied there. -/
theorem kmalloc_copy_calls {n : Nat} (img : Memory) (hrun : Kheap.Run maxPfn usable s live others)
    (hn : n < 2 ^ 64 - 24) (hk : s.kmalloc n = .ok (u, block)) (hb : block ≠ 0)
    (hsize : imageSize ≤ n) :
    Calls maxPfn usable s live others
      { u with mem := Bytes.copy u.mem block img 0 imageSize } ((block, n) :: live) := by
  have hcall : s.heapCall (.kmalloc n) = .ok (u, block) := hk
  have hrun' := hrun.call (k := .kmalloc n) hn hcall
  have hafter : Kheap.HeapCall.after live block (.kmalloc n) = (block, n) :: live := if_neg hb
  rw [hafter] at hrun'
  have hin : ∀ a, Bytes.copy u.mem block img 0 imageSize a ≠ u.mem a →
      block ≤ a ∧ a < block + n := by
    intro a ha
    by_contra hout
    exact ha (Bytes.copy_outside (by omega))
  obtain ⟨⟨G, ref, hinv⟩, -⟩ := hrun.kept
  obtain ⟨⟨G', ref', hinv'⟩, -⟩ := hrun'.kept
  have hspares : Kheap.Spares maxPfn usable u live others
      { u with mem := Bytes.copy u.mem block img 0 imageSize } := by
    refine ⟨rfl, fun a ha => ?_⟩
    by_contra hne
    exact hinv'.spared_new ha (hin a hne)
  exact calls_of_spares (hrun'.write List.mem_cons_self hin)
    ((hinv.kmalloc_spares hk).trans hspares) fun _ => List.mem_cons_of_mem _

end blocks

/-- A heap that has just been set up, and an image in a block of `n` bytes. -/
def heapWith (image : Memory) (imageSize n : Nat) : Kheap :=
  match Kheap.rootedHeap.kmalloc n with
  | .error _ => Kheap.rootedHeap
  | .ok (s, block) => { s with mem := Bytes.copy s.mem block image 0 imageSize }

/-- The block, of up to 512 bytes. -/
abbrev imageBlock : Nat := 0xffff800000001030

/-- What is to be seen of the image, for the loader to leave it alone. -/
structure FitsBlock (img : Memory) (imageSize n e : Nat) : Prop where
  block : (Kheap.rootedHeap.kmalloc n).toOption.map Prod.snd = some imageBlock
  sizes : imageSize ≤ n ∧ n < 2 ^ 64 - 24 ∧ imageSize ≤ e + 1 ∧ e < n
  zero : (heapWith img imageSize n).mem (imageBlock + e) = 0
  valid : validateHeader ((heapWith img imageSize n).imageAt imageBlock imageSize).image imageSize
    = true
  module : ModuleFits ((heapWith img imageSize n).imageAt imageBlock imageSize)
  fields : ∀ i < ((heapWith img imageSize n).imageAt imageBlock imageSize).shnum,
    (((heapWith img imageSize n).imageAt imageBlock imageSize).sections i).shType = SHT_RELA →
    ∀ r < (((heapWith img imageSize n).imageAt imageBlock imageSize).sections i).shSize / sizeofRela,
      FieldFits ((heapWith img imageSize n).imageAt imageBlock imageSize) i r

theorem FitsBlock.undisturbed {img : Memory} (h : FitsBlock img imageSize n e) (t : Kheap)
    (ctx : ElfContext) (hret : (heapWith img imageSize n).prepareSections (some 16)
      ((heapWith img imageSize n).imageAt imageBlock imageSize) = .ok (t, ctx, 0)) :
    Undisturbed (heapWith img imageSize n) t ctx imageBlock imageSize e := by
  obtain ⟨hsize, hn, hends, he⟩ := h.sizes
  have hblock := h.block
  cases hk : Kheap.rootedHeap.kmalloc n with
  | error x =>
      rw [hk] at hblock
      cases hblock
  | ok q =>
  obtain ⟨u, block⟩ := q
  rw [hk] at hblock
  obtain rfl : block = imageBlock := Option.some.inj hblock
  have hheap : heapWith img imageSize n
      = { u with mem := Bytes.copy u.mem imageBlock img 0 imageSize } := by
    unfold heapWith
    rw [hk]
  have hcalls := kmalloc_copy_calls img Kheap.run_rootedHeap hn hk (by decide) hsize
  rw [← hheap] at hcalls
  have htop : Kheap.pageAt Kheap.rootedHeap.hhdm (16 + 1) < 2 ^ 64 := by decide +kernel
  obtain ⟨-, hheaders⟩ := validateHeader_le h.valid
  obtain ⟨himage, -, hshoff, -⟩ :=
    @prepareSections_framed (Kheap.imageAt _ _ _) _ t ctx (some 16) hheaders hret
  have hsections : ctx.sections
      = ((heapWith img imageSize n).imageAt imageBlock imageSize).sections := by
    unfold ElfContext.sections
    rw [himage, hshoff]
  refine undisturbed_of_fits hcalls.run (by omega) (by rw [hcalls.hhdm]; exact htop) (fun k hk => ?_)
    hret h.module List.mem_cons_self hends h.zero he fun i r ha => ?_
  · cases hk
    exact ⟨_, hcalls.kernel _ _ Kheap.kernelTables_rootedHeap⟩
  · have hindex := ha.index
    have hrela := ha.rela
    have hentry := ha.entry
    unfold ElfContext.shnum at hindex
    rw [himage] at hindex
    rw [hsections] at hrela hentry
    have hfits := h.fields i hindex hrela r hentry
    unfold FieldFits reloc at hfits ⊢
    rw [hsections, himage]
    exact hfits

end loader

end Alix.Elf
