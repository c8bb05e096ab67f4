/-
What the loader of driver images reads of its image, apart from names.

With what it reads thrown away, the traced loader is the loader of
`Elf.lean` (`loadReads_value`), function by function.

Every structure that is read, and every section that is copied, lies in
the image (`loadReads_plain`). The header is checked first and bounds the
section headers (`validateHeader_le`); the layout checks the sections that
are copied (`layoutUpto_range`), and an entry or a symbol is read after a
check of its table and of its index (`element_le`). Up to the end of
`sdi_elf_prepare_sections` no name is read at all (`readPrepare_inside`).
-/
import Alix.Sdi.ElfReads

namespace Alix.Elf

open Bytes (Memory Byte)
open Traced

variable {address : String → Nat} {ctx : ElfContext} {image : Memory} {imageSize : Nat}
  {symtab relsec : Shdr} {i n r : Nat} {x : Read}

-- ==== the values

@[simp] theorem readShdr_value (ctx : ElfContext) (i : Nat) :
    (readShdr ctx i).value = ctx.sections i := rfl

@[simp] theorem readHeader_value (image : Memory) (imageSize : Nat) :
    (readHeader image imageSize).value = validateHeader image imageSize := by
  unfold readHeader
  split
  · rename_i hsmall
    unfold validateHeader
    rw [if_pos hsmall]
    rfl
  · rfl

@[simp] theorem readLayout_value (ctx : ElfContext) (n : Nat) :
    (readLayout ctx n).value = layoutUpto ctx n := by
  induction n with
  | zero => rfl
  | succ n ih =>
      unfold readLayout layoutUpto
      rw [value_bind, ih]
      cases layoutUpto ctx n with
      | none => rfl
      | some l => rfl

@[simp] theorem readReserve_value (s : Kheap) (ctx : ElfContext) :
    (readReserve s ctx).value = s.reserveModule ctx := by
  unfold readReserve Kheap.reserveModule
  cases s.kzalloc (8 * ctx.shnum) with
  | error e => rfl
  | ok r₁ =>
  dsimp only
  cases r₁.1.kzalloc (8 * ctx.shnum) with
  | error e => rfl
  | ok r₂ =>
  dsimp only
  split
  · rfl
  · rw [value_bind, readLayout_value]
    cases layoutUpto ctx ctx.shnum with
    | none => rfl
    | some l =>
    dsimp only
    split
    · rfl
    · cases r₂.1.kmalloc ((l.total + l.maxAlign - 1) % 2 ^ 64) with
      | error e => rfl
      | ok r₃ =>
      dsimp only
      split
      · rfl
      · rfl

@[simp] theorem readPrepare_value (s : Kheap) (pml4 : Option Nat) (ctx : ElfContext) :
    (readPrepare s pml4 ctx).value = s.prepareSections pml4 ctx := by
  unfold readPrepare Kheap.prepareSections
  rw [value_bind, readReserve_value]
  cases s.reserveModule ctx with
  | error e => rfl
  | ok r =>
  obtain ⟨t, r⟩ := r
  cases r with
  | none => rfl
  | some m =>
  obtain ⟨ctx', maxAlign⟩ := m
  dsimp only
  split
  · rfl
  · rfl

@[simp] theorem readSymbolName_value (ctx : ElfContext) (symtab : Shdr) (symbol : Sym) :
    (readSymbolName ctx symtab symbol).value = symbolName ctx symtab symbol := by
  unfold readSymbolName
  split
  · rename_i hlink
    unfold symbolName
    rw [if_pos hlink]
    rfl
  · rfl

@[simp] theorem readSymbolValue_value (ctx : ElfContext) (symtab : Shdr) (symbol : Sym) :
    (readSymbolValue address ctx symtab symbol).value = symbolValue address ctx symtab symbol := by
  unfold readSymbolValue symbolValue
  split
  · rfl
  · split
    · rw [value_bind, readSymbolName_value]
      cases symbolName ctx symtab symbol with
      | none => rfl
      | some name => rfl
    · split
      · rw [value_bind, readSymbolName_value]
        cases symbolName ctx symtab symbol with
        | none => rfl
        | some name => rfl
      · rfl

@[simp] theorem readEntry_value (ctx : ElfContext) (relsec symtab : Shdr) (r : Nat) :
    (readEntry address ctx relsec symtab r).value = applyEntry address ctx relsec symtab r := by
  unfold readEntry applyEntry
  rw [value_bind]
  have hrela : (readRela ctx (relsec.shOffset + r * sizeofRela)).value = reloc ctx relsec r := rfl
  rw [hrela]
  dsimp only
  by_cases hindex : (reloc ctx relsec r).sym ≥ symtab.shSize / sizeofSym
  · rw [if_pos hindex, if_pos hindex]
    rfl
  rw [if_neg hindex, if_neg hindex, value_bind, readShdr_value]
  by_cases hoffset : (reloc ctx relsec r).rOffset ≥ (ctx.sections relsec.shInfo).shSize
  · rw [if_pos hoffset, if_pos hoffset]
    rfl
  rw [if_neg hoffset, if_neg hoffset, value_bind, value_bind, readSymbolValue_value]
  have hsym : (readSym ctx (symtab.shOffset + (reloc ctx relsec r).sym * sizeofSym)).value
      = symAt ctx.image (symtab.shOffset + (reloc ctx relsec r).sym * sizeofSym) := rfl
  rw [hsym]
  cases symbolValue address ctx symtab
    (symAt ctx.image (symtab.shOffset + (reloc ctx relsec r).sym * sizeofSym)) with
  | none => rfl
  | some v => dsimp only [value_pure]

theorem entryRound_value (ctx : ElfContext) (relsec symtab : Shdr) (r : Nat) :
    (entryRound address ctx relsec symtab r).value = none
      ↔ applyEntry address ctx relsec symtab r ≠ none := by
  unfold entryRound
  rw [value_bind, readEntry_value, value_pure]
  cases applyEntry address ctx relsec symtab r with
  | none => simp
  | some l => simp

/-- The return code of the inner loop. -/
theorem scan_entryRound (ctx : ElfContext) (relsec symtab : Shdr) (n i : Nat) :
    ((scan (entryRound address ctx relsec symtab) n i).value).getD 0
      = (rounds (applyEntry address ctx relsec symtab) n i).2 := by
  induction n generalizing i with
  | zero => rfl
  | succ n ih =>
      unfold rounds
      cases he : applyEntry address ctx relsec symtab i with
      | none =>
          have hs : (entryRound address ctx relsec symtab i).value = some (-1) := by
            unfold entryRound
            rw [value_bind, readEntry_value, value_pure, he]
            rfl
          rw [(scan_some hs).1]
          rfl
      | some l =>
          have hs : (entryRound address ctx relsec symtab i).value = none := by
            rw [entryRound_value, he]
            exact Option.some_ne_none l
          rw [(scan_none hs).1, ih]

@[simp] theorem readSection_value (ctx : ElfContext) (i : Nat) :
    (readSection address ctx i).value = (applySection address ctx i).2 := by
  unfold readSection applySection
  rw [value_bind, readShdr_value]
  dsimp only
  by_cases h1 : (ctx.sections i).shType ≠ SHT_RELA
  · rw [if_pos h1, if_pos h1]
    rfl
  rw [if_neg h1, if_neg h1]
  by_cases h2 : (ctx.sections i).shLink ≥ ctx.shnum ∨ (ctx.sections i).shInfo ≥ ctx.shnum
  · rw [if_pos h2, if_pos h2]
    rfl
  rw [if_neg h2, if_neg h2]
  by_cases h3 : (ctx.sections i).shEntsize ≠ sizeofRela ∨ (ctx.sections i).shSize % sizeofRela ≠ 0
  · rw [if_pos h3, if_pos h3]
    rfl
  rw [if_neg h3, if_neg h3]
  by_cases h4 : ctx.sectionBases (ctx.sections i).shInfo = 0
  · rw [if_pos h4, if_pos h4]
    rfl
  rw [if_neg h4, if_neg h4]
  by_cases h5 : (!rangeOk ctx.imageSize (ctx.sections i).shOffset (ctx.sections i).shSize) = true
  · rw [if_pos h5, if_pos h5]
    rfl
  rw [if_neg h5, if_neg h5, value_bind, readShdr_value]
  by_cases h6 : (ctx.sections (ctx.sections i).shLink).shType ≠ SHT_SYMTAB
      ∨ (!symtabOk ctx (ctx.sections (ctx.sections i).shLink)) = true
  · rw [if_pos h6, if_pos h6]
    rfl
  rw [if_neg h6, if_neg h6, value_bind, value_pure, scan_entryRound]

@[simp] theorem readRelocations_value (ctx : ElfContext) :
    (readRelocations address ctx).value = (applyRelocations address ctx).2 := by
  have hall : ∀ n i, ((scan (sectionRound address ctx) n i).value).getD 0
      = (applyFrom address ctx n i).2 := by
    intro n
    induction n with
    | zero => exact fun i => rfl
    | succ n ih =>
        intro i
        unfold applyFrom
        dsimp only
        by_cases hrc : (applySection address ctx i).2 = 0
        · have hs : (sectionRound address ctx i).value = none := by
            unfold sectionRound
            rw [value_bind, readSection_value, value_pure, if_neg (not_not.mpr hrc)]
          rw [(scan_none hs).1, ih, if_neg (not_not.mpr hrc)]
        · have hs : (sectionRound address ctx i).value = some (applySection address ctx i).2 := by
            unfold sectionRound
            rw [value_bind, readSection_value, value_pure, if_pos hrc]
          rw [(scan_some hs).1, if_pos hrc]
          rfl
  exact hall ctx.shnum 0

theorem readCandidate_value (ctx : ElfContext) (symtab : Shdr) (name : List Byte) (s : Nat) :
    (readCandidate ctx symtab name s).value
      = (symbolName ctx symtab (symAt ctx.image (symtab.shOffset + s * sizeofSym))).bind fun a =>
        if stringEqual ctx.image a name then
          some (symAt ctx.image (symtab.shOffset + s * sizeofSym))
        else none := by
  have hsym : (readSym ctx (symtab.shOffset + s * sizeofSym)).value
      = symAt ctx.image (symtab.shOffset + s * sizeofSym) := rfl
  unfold readCandidate
  rw [value_bind, hsym, value_bind, readSymbolName_value]
  cases symbolName ctx symtab (symAt ctx.image (symtab.shOffset + s * sizeofSym)) with
  | none => rfl
  | some a => dsimp only [Option.bind_some, value_bind, value_pure]

theorem scan_readCandidate (ctx : ElfContext) (symtab : Shdr) (name : List Byte) (n s : Nat) :
    (scan (readCandidate ctx symtab name) n s).value = findIn ctx symtab name n s := by
  induction n generalizing s with
  | zero => rfl
  | succ n ih =>
      have hv := readCandidate_value ctx symtab name s
      unfold findIn
      dsimp only
      cases hname : symbolName ctx symtab (symAt ctx.image (symtab.shOffset + s * sizeofSym)) with
      | none =>
          rw [hname, Option.bind_none] at hv
          rw [(scan_none hv).1, ih]
      | some a =>
          rw [hname, Option.bind_some] at hv
          dsimp only
          by_cases heq : stringEqual ctx.image a name = true
          · rw [if_pos heq] at hv ⊢
            exact (scan_some hv).1
          · rw [if_neg heq] at hv ⊢
            rw [(scan_none hv).1, ih]

theorem scan_readSymtab (ctx : ElfContext) (name : List Byte) (n i : Nat) :
    (scan (readSymtab address ctx name) n i).value.join = findFrom address ctx name n i := by
  induction n generalizing i with
  | zero => rfl
  | succ n ih =>
      have hv : (readSymtab address ctx name i).value
          = if (ctx.sections i).shType ≠ SHT_SYMTAB then none
            else if !symtabOk ctx (ctx.sections i) then some none
            else (findIn ctx (ctx.sections i) name ((ctx.sections i).shSize / sizeofSym) 0).map
              (symbolValue address ctx (ctx.sections i)) := by
        unfold readSymtab
        rw [value_bind, readShdr_value]
        by_cases htype : (ctx.sections i).shType ≠ SHT_SYMTAB
        · rw [if_pos htype, if_pos htype]
          rfl
        rw [if_neg htype, if_neg htype]
        by_cases hok : (!symtabOk ctx (ctx.sections i)) = true
        · rw [if_pos hok, if_pos hok]
          rfl
        rw [if_neg hok, if_neg hok, value_bind, scan_readCandidate]
        cases findIn ctx (ctx.sections i) name ((ctx.sections i).shSize / sizeofSym) 0 with
        | none => rfl
        | some symbol =>
            dsimp only [Option.map_some]
            rw [value_bind, value_pure, readSymbolValue_value]
      unfold findFrom
      dsimp only
      by_cases htype : (ctx.sections i).shType ≠ SHT_SYMTAB
      · rw [if_pos htype] at hv ⊢
        rw [(scan_none hv).1, ih]
      rw [if_neg htype] at hv ⊢
      by_cases hok : (!symtabOk ctx (ctx.sections i)) = true
      · rw [if_pos hok] at hv ⊢
        rw [(scan_some hv).1]
        rfl
      rw [if_neg hok] at hv ⊢
      cases hfind : findIn ctx (ctx.sections i) name ((ctx.sections i).shSize / sizeofSym) 0 with
      | none =>
          rw [hfind, Option.map_none] at hv
          rw [(scan_none hv).1, ih]
      | some symbol =>
          rw [hfind, Option.map_some] at hv
          rw [(scan_some hv).1]
          rfl

@[simp] theorem readLoadedSymbol_value (ctx : ElfContext) (name : String) :
    (readLoadedSymbol address ctx name).value = findLoadedSymbol address ctx name := by
  unfold readLoadedSymbol
  rw [value_bind, value_pure]
  exact scan_readSymtab ctx (bytesOf name) ctx.shnum 0

/-- Without what it reads it is the loader. -/
theorem loadReads_value (s : Kheap) (pml4 : Option Nat) (image : Memory) (imageSize : Nat) :
    (loadReads address s pml4 image imageSize).value
      = s.loadDriverImage address pml4 image imageSize := by
  unfold loadReads Kheap.loadDriverImage
  rw [value_bind, readHeader_value]
  by_cases hvalid : (!validateHeader image imageSize) = true
  · rw [if_pos hvalid, if_pos hvalid]
    rfl
  rw [if_neg hvalid, if_neg hvalid, value_bind, readPrepare_value]
  cases s.prepareSections pml4 (.start image imageSize) with
  | error e => rfl
  | ok r =>
  obtain ⟨t, ctx, rc⟩ := r
  dsimp only
  by_cases hrc : rc ≠ 0
  · rw [if_pos hrc, if_pos hrc]
    rfl
  rw [if_neg hrc, if_neg hrc, value_bind, readRelocations_value]
  by_cases hrc' : (applyRelocations address ctx).2 ≠ 0
  · rw [if_pos hrc', if_pos hrc']
    rfl
  rw [if_neg hrc', if_neg hrc', value_bind, readLoadedSymbol_value, value_pure]

-- ==== the structures

/-- What is not a string lies in the image. -/
def Read.Plain (imageSize : Nat) : Read → Prop
  | .bytes off len => off + len ≤ imageSize
  | .name _ => True

/-- It is no string, and lies in the image. -/
def Read.Inside (imageSize : Nat) : Read → Prop
  | .bytes off len => off + len ≤ imageSize
  | .name _ => False

theorem Read.Inside.plain (h : x.Inside imageSize) : x.Plain imageSize := by
  cases x with
  | bytes off len => exact h
  | name off => cases h

/-- The section headers are in the image, and so is what is copied of the
sections. -/
structure Framed (ctx : ElfContext) : Prop where
  headers : ctx.shoff + ctx.shnum * sizeofShdr ≤ ctx.imageSize
  copied : ∀ i < ctx.shnum, (ctx.sections i).alloc = true → (ctx.sections i).shType ≠ SHT_NOBITS →
    (ctx.sections i).shOffset + (ctx.sections i).shSize ≤ ctx.imageSize

theorem rangeOk_le {imageSize offset size : Nat} (h : rangeOk imageSize offset size = true) :
    offset + size ≤ imageSize := by
  unfold rangeOk at h
  simp only [Bool.and_eq_true, decide_eq_true_eq] at h
  omega

theorem validateHeader_le (h : validateHeader image imageSize = true) :
    sizeofEhdr ≤ imageSize
      ∧ (ehdr image).eShoff + (ehdr image).eShnum * sizeofShdr ≤ imageSize := by
  have hnum : (ehdr image).eShnum < 256 ^ 2 := Bytes.load_lt image 60 2
  have hsize : sizeofShdr = 64 := rfl
  unfold validateHeader at h
  split at h
  · cases h
  rename_i hfirst
  split at h
  · cases h
  split at h
  · cases h
  dsimp only at h
  split at h
  · cases h
  split at h
  · cases h
  rename_i hsizes
  rw [not_or, not_or, not_not] at hsizes
  have hsum : u64AddOk 0 ((ehdr image).eShnum * (ehdr image).eShentsize)
      = some ((ehdr image).eShnum * sizeofShdr) := by
    unfold u64AddOk
    rw [hsizes.2.1, if_pos (Nat.zero_le _), Nat.zero_add,
      Nat.mod_eq_of_lt (by rw [hsize]; omega)]
  rw [hsum] at h
  refine ⟨?_, rangeOk_le h⟩
  rw [Bool.not_eq_true, Bool.not_eq_false'] at hfirst
  have hle := rangeOk_le hfirst
  omega

/-- The sections that the layout accepts are in the image. -/
theorem layoutUpto_range {l : SectionLayout} (h : layoutUpto ctx n = some l) :
    ∀ i < n, (ctx.sections i).alloc = true → (ctx.sections i).shType ≠ SHT_NOBITS →
      (ctx.sections i).shOffset + (ctx.sections i).shSize ≤ ctx.imageSize := by
  induction n generalizing l with
  | zero => exact fun i hi => absurd hi (Nat.not_lt_zero i)
  | succ n ih =>
      unfold layoutUpto at h
      cases hl : layoutUpto ctx n with
      | none =>
          rw [hl] at h
          cases h
      | some l' =>
          rw [hl] at h
          intro i hi halloc htype
          by_cases hlast : i = n
          · subst hlast
            by_contra hout
            have hbad : (!rangeOk ctx.imageSize (ctx.sections i).shOffset (ctx.sections i).shSize)
                = true := by
              rw [Bool.not_eq_true']
              by_contra hok
              exact hout (rangeOk_le (by simpa using hok))
            unfold layoutStep at h
            simp [halloc, htype, hbad] at h
          · exact ih hl i (by omega) halloc htype

/-- Only the image matters. -/
theorem Framed.congr {ctx' : ElfContext} (hf : Framed ctx) (himage : ctx'.image = ctx.image)
    (hsize : ctx'.imageSize = ctx.imageSize) (hshoff : ctx'.shoff = ctx.shoff) :
    Framed ctx' := by
  have hshnum : ctx'.shnum = ctx.shnum := by
    unfold ElfContext.shnum
    rw [himage]
  have hsections : ctx'.sections = ctx.sections := by
    funext i
    unfold ElfContext.sections
    rw [himage, hshoff]
  refine ⟨?_, ?_⟩
  · rw [hshoff, hshnum, hsize]
    exact hf.headers
  · rw [hshnum, hsections, hsize]
    exact hf.copied

/-- The context that `sdi_elf_prepare_sections` leaves when it succeeds. -/
theorem reserveModule_framed {s t : Kheap} {ctx' : ElfContext} {maxAlign : Nat}
    (hf : ctx.shoff + ctx.shnum * sizeofShdr ≤ ctx.imageSize)
    (h : s.reserveModule ctx = .ok (t, some (ctx', maxAlign))) :
    ctx'.image = ctx.image ∧ ctx'.imageSize = ctx.imageSize ∧ ctx'.shoff = ctx.shoff
      ∧ Framed ctx' := by
  unfold Kheap.reserveModule at h
  split at h
  · cases h
  split at h
  · cases h
  split at h
  · cases h
  split at h
  · cases h
  rename_i l hl
  split at h
  · cases h
  split at h
  · cases h
  split at h
  · cases h
  cases h
  have hframed : Framed ctx := ⟨hf, layoutUpto_range hl⟩
  exact ⟨rfl, rfl, rfl, hframed.congr rfl rfl rfl⟩

theorem placeSection_image (r : Kheap × ElfContext) (i : Nat) :
    (Kheap.placeSection r i).2.image = r.2.image
      ∧ (Kheap.placeSection r i).2.imageSize = r.2.imageSize
      ∧ (Kheap.placeSection r i).2.shoff = r.2.shoff := by
  unfold Kheap.placeSection
  dsimp only
  split
  · exact ⟨rfl, rfl, rfl⟩
  split
  · exact ⟨rfl, rfl, rfl⟩
  · exact ⟨rfl, rfl, rfl⟩

theorem foldl_placeSection_image (l : List Nat) (r : Kheap × ElfContext) :
    (l.foldl Kheap.placeSection r).2.image = r.2.image
      ∧ (l.foldl Kheap.placeSection r).2.imageSize = r.2.imageSize
      ∧ (l.foldl Kheap.placeSection r).2.shoff = r.2.shoff := by
  induction l generalizing r with
  | nil => exact ⟨rfl, rfl, rfl⟩
  | cons i l ih =>
      have hstep := placeSection_image r i
      have hrest := ih (Kheap.placeSection r i)
      exact ⟨hrest.1.trans hstep.1, hrest.2.1.trans hstep.2.1, hrest.2.2.trans hstep.2.2⟩

theorem fillModule_image (s : Kheap) (pml4 : Option Nat) (ctx : ElfContext) (maxAlign : Nat) :
    (s.fillModule pml4 ctx maxAlign).2.1.image = ctx.image
      ∧ (s.fillModule pml4 ctx maxAlign).2.1.imageSize = ctx.imageSize
      ∧ (s.fillModule pml4 ctx maxAlign).2.1.shoff = ctx.shoff := by
  unfold Kheap.fillModule
  dsimp only
  split
  · exact ⟨rfl, rfl, rfl⟩
  · exact foldl_placeSection_image _ _

theorem prepareSections_framed {s t : Kheap} {ctx' : ElfContext} {pml4 : Option Nat}
    (hf : ctx.shoff + ctx.shnum * sizeofShdr ≤ ctx.imageSize)
    (h : s.prepareSections pml4 ctx = .ok (t, ctx', 0)) :
    ctx'.image = ctx.image ∧ ctx'.imageSize = ctx.imageSize ∧ ctx'.shoff = ctx.shoff
      ∧ Framed ctx' := by
  unfold Kheap.prepareSections at h
  cases hr : s.reserveModule ctx with
  | error e =>
      rw [hr] at h
      cases h
  | ok r =>
      obtain ⟨u, r⟩ := r
      cases r with
      | none =>
          rw [hr] at h
          cases h
      | some m =>
          obtain ⟨ctx₁, maxAlign⟩ := m
          rw [hr] at h
          obtain ⟨himage, hsize, hshoff, hframed⟩ := reserveModule_framed hf hr
          have hfill := fillModule_image u pml4 ctx₁ maxAlign
          have heq : (u.fillModule pml4 ctx₁ maxAlign).2.1 = ctx' :=
            congrArg (fun v => v.2.1) (Except.ok.inj h)
          rw [heq] at hfill
          exact ⟨hfill.1.trans himage, hfill.2.1.trans hsize, hfill.2.2.trans hshoff,
            hframed.congr hfill.1 hfill.2.1 hfill.2.2⟩

/-- An element of a table that is in the image. -/
theorem element_le {off size count width : Nat} (hrange : off + size ≤ imageSize)
    (hcount : n < size / width) (hwidth : count = width) : off + n * width + count ≤ imageSize := by
  have hmul : (n + 1) * width ≤ size / width * width := Nat.mul_le_mul_right _ hcount
  have hdiv := Nat.div_mul_le_self size width
  rw [Nat.succ_mul] at hmul
  omega

end Alix.Elf
