/-
What `initrd_unpack` takes for an archive.

# Reading past the module

Every range the loop reads is checked against the end of the module but
one: the name is checked as a field of `c_namesize` bytes and read as a
string. So all reads stay in the module if and only if each name that is
read has a terminator before the end of the module (`unpack_reads_iff`).

# Running out of archive

The loop is left by the trailer, and as well when fewer bytes are left
than a header has; both return 0. An archive is a chain of well-formed
entries up to a trailer (`Closed`). `unpack_detects_iff` says when a return
of 0 shows one: if the loop never runs out of header bytes, and if the
names it read on the way to the trailer end in their fields.

Both are about the rounds the loop comes to (`Reached`), and those follow
the headers alone (`Reached.closed`).
-/
import Alix.Fs.InitrdReads
import Alix.Fs.Proofs.Contents
import Alix.Fs.Proofs.Initrd

namespace Alix.Initrd

open Traced Tmpfs

variable {heap : Heap} {s t : Tmpfs} {mem : List UInt8} {length cursor : Nat}

-- ==== the same computation

theorem value_readName (mem : List UInt8) (off : Nat) :
    (readName mem off).value = cstr mem off := rfl

theorem value_readHeader (mem : List UInt8) (cursor : Nat) :
    (readHeader mem cursor).value = header mem cursor := by
  unfold readHeader header
  rw [value_bind]
  show Traced.value (if slice mem cursor 6 ≠ magic then _ else _) = _
  by_cases htext : slice mem cursor 6 = magic
  · rw [if_neg (not_not.mpr htext), if_neg (not_not.mpr htext)]
    simp only [readHex, value_bind]
    cases initrdParseHex (slice mem (cursor + 14) 8) with
    | none => rfl
    | some mode =>
        cases initrdParseHex (slice mem (cursor + 94) 8) with
        | none => rfl
        | some nameSize =>
            by_cases hzero : nameSize = 0
            · simp only [hzero]
              cases initrdParseHex (slice mem (cursor + 54) 8) <;> rfl
            · simp only [hzero, if_false, value_bind]
              cases initrdParseHex (slice mem (cursor + 54) 8) with
              | none => rfl
              | some fileSize => simp only [hzero, if_false, value_pure]
  · rw [if_pos htext, if_pos htext]
    rfl

/-- Fuel in front of a round. -/
theorem unpackLoop_round (fuel : Nat) (s : Tmpfs) (cursor : Nat) :
    unpackLoop heap mem length (fuel + 1) s cursor
      = match (readRound heap mem length (s, cursor)).value with
        | .stop r => r
        | .next (s, cursor) => unpackLoop heap mem length fuel s cursor := by
  rw [unpackLoop, readRound]
  dsimp only
  by_cases hend : length < cursor + HEADER
  · rw [if_pos hend, if_pos hend]
    rfl
  rw [if_neg hend, if_neg hend, value_bind, value_readHeader]
  cases header mem cursor with
  | none => rfl
  | some fields =>
      obtain ⟨mode, nameSize, fileSize⟩ := fields
      dsimp only
      by_cases hname : length < cursor + HEADER + nameSize
      · rw [if_pos hname, if_pos hname]
        rfl
      rw [if_neg hname, if_neg hname]
      by_cases hdata : length
          < cursor + initrdAlign4 (HEADER + nameSize) + fileSize
      · rw [if_pos hdata, if_pos hdata]
        rfl
      rw [if_neg hdata, if_neg hdata, value_bind, value_readName]
      by_cases htrailer : cstr mem (cursor + HEADER) = trailer
      · rw [if_pos htrailer, if_pos htrailer]
        rfl
      rw [if_neg htrailer, if_neg htrailer]
      generalize initrdNormalizePath (cstr mem (cursor + HEADER)) = path
      by_cases hpath : path = []
      · rw [if_pos hpath, if_pos hpath]
        rfl
      rw [if_neg hpath, if_neg hpath]
      cases nodeType mode with
      | none => rfl
      | some type =>
          cases type with
          | dir =>
              dsimp only
              split
              · rfl
              · rfl
          | reg =>
              rw [value_bind]
              dsimp only [readBytes]
              cases initrdUnpackFile heap s path mode (slice mem
                (cursor + initrdAlign4 (HEADER + nameSize)) fileSize) fileSize with
              | none => rfl
              | some r =>
                  dsimp only
                  split
                  · rfl
                  · rfl

theorem value_run (fuel : Nat) (s : Tmpfs) (cursor : Nat) :
    (run (readRound heap mem length) fuel (s, cursor)).value.join
      = unpackLoop heap mem length fuel s cursor := by
  induction fuel generalizing s cursor with
  | zero => rfl
  | succ fuel ih =>
      rw [unpackLoop_round, run_succ, value_bind]
      cases (readRound heap mem length (s, cursor)).value with
      | stop r => rfl
      | next u => exact ih u.1 u.2

/-- Without the ranges it is `initrd_unpack`. -/
theorem unpackReads_value (heap : Heap) (s : Tmpfs) (mem : List UInt8)
    (length : Nat) :
    (unpackReads heap s mem length).value = initrdUnpack heap s mem length := by
  unfold unpackReads initrdUnpack
  by_cases hzero : length = 0
  · rw [if_pos hzero, if_pos hzero]
    rfl
  · rw [if_neg hzero, if_neg hzero]
    exact value_run (length + 1) s 0

-- ==== what a round does

/-- A header, and the name field behind it, in the module. -/
structure Named (mem : List UInt8) (length cursor : Nat) (mode : Mode)
    (nameSize fileSize : Nat) : Prop where
  header : header mem cursor = some (mode, nameSize, fileSize)
  name : cursor + HEADER + nameSize ≤ length

/-- An entry in the module. -/
structure Fits (mem : List UInt8) (length cursor : Nat) (mode : Mode)
    (nameSize fileSize : Nat) : Prop
    extends Named mem length cursor mode nameSize fileSize where
  data : cursor + initrdAlign4 (HEADER + nameSize) + fileSize ≤ length

/-- Where the entry behind one is. -/
def nextEntry (cursor nameSize fileSize : Nat) : Nat :=
  cursor + initrdAlign4 (HEADER + nameSize) + initrdAlign4 fileSize

/-- The name of an entry as it is read. -/
def nameSpan (mem : List UInt8) (cursor : Nat) : Span :=
  ⟨cursor + HEADER, (cstr mem (cursor + HEADER)).length + 1⟩

/-- What a round can do: its reads, and how it ends. -/
inductive Round (mem : List UInt8) (length : Nat) (s : Tmpfs) (cursor : Nat) :
    List Span → Turn (Tmpfs × Nat) (Option (Tmpfs × Int)) → Prop
  | out (hend : length < cursor + HEADER) :
      Round mem length s cursor [] (.stop (some (s, 0)))
  | bad (hhead : cursor + HEADER ≤ length)
      (hbad : ∀ mode n f, ¬ Named mem length cursor mode n f) :
      Round mem length s cursor (readHeader mem cursor).trace
        (.stop (some (s, -1)))
  | cut (mode : Mode) (n f : Nat) (hnamed : Named mem length cursor mode n f)
      (hcut : length < cursor + initrdAlign4 (HEADER + n) + f) :
      Round mem length s cursor
        ((readHeader mem cursor).trace ++ [nameSpan mem cursor])
        (.stop (some (s, -1)))
  | last (mode : Mode) (n f : Nat) (hfits : Fits mem length cursor mode n f)
      (hname : cstr mem (cursor + HEADER) = trailer) :
      Round mem length s cursor
        ((readHeader mem cursor).trace ++ [nameSpan mem cursor])
        (.stop (some (s, 0)))
  | entry (mode : Mode) (n f : Nat) (hfits : Fits mem length cursor mode n f)
      (hname : cstr mem (cursor + HEADER) ≠ trailer) (data : List Span)
      (hdata : ∀ r ∈ data, r.Within length)
      (turn : Turn (Tmpfs × Nat) (Option (Tmpfs × Int)))
      (hturn : (∃ t, turn = .next (t, nextEntry cursor n f))
        ∨ ∃ t, turn = .stop (some (t, -1))) :
      Round mem length s cursor
        ((readHeader mem cursor).trace ++ nameSpan mem cursor :: data) turn

/-- The size of a file fits in its header field, and so in a tmpfs. -/
theorem unpackFile_ends (heap : Heap) (s : Tmpfs) (path : CStr) (mode : Mode)
    (data : List UInt8) {size : Nat} (hsize : size < 2 ^ 32) :
    ∃ r, initrdUnpackFile heap s path mode data size = some r := by
  have hresize : ∀ (s : Tmpfs) (n : Nat) (ok : Bool),
      ∃ r, s.tmpfsResizeNode n size ok = some r := by
    intro s n ok
    unfold tmpfsResizeNode
    dsimp only
    split
    · exact ⟨_, rfl⟩
    · have hstart : 1 ≤ if (s.file n).capacity ≠ 0 then (s.file n).capacity else 64 := by
        split
        · omega
        · omega
      obtain ⟨c, hc⟩ := Option.isSome_iff_exists.mp
        (growLoop_isSome 65 (show size ≤ 2 ^ 63 by omega)
          (Nat.le_trans (by decide) (Nat.mul_le_mul_right (2 ^ 65) hstart)))
      rw [hc]
      dsimp only
      split
      · exact ⟨_, rfl⟩
      · exact ⟨_, rfl⟩
  have hwrite : ∀ (s : Tmpfs) (n : Nat) (ok : Bool),
      ∃ r, s.tmpfsWrite (some n) (some data) size 0 (O_WRONLY ||| O_TRUNC) ok = some r := by
    intro s n ok
    have hoff : s.writeOffset n 0 (O_WRONLY ||| O_TRUNC) = 0 := if_neg (by decide)
    obtain ⟨⟨t, rc⟩, hr⟩ := hresize s n ok
    unfold tmpfsWrite
    simp only [hoff, Nat.zero_add, Nat.mod_eq_of_lt (show size < 2 ^ 64 by omega), hr]
    split
    · exact ⟨_, rfl⟩
    split
    · exact ⟨_, rfl⟩
    split
    · exact ⟨_, rfl⟩
    · exact ⟨_, rfl⟩
  unfold initrdUnpackFile
  dsimp only
  split
  · exact ⟨_, rfl⟩
  split
  · exact ⟨_, rfl⟩
  split
  · exact ⟨_, rfl⟩
  · rename_i t node _ _
    obtain ⟨r, hr⟩ := hwrite t node (heap.bytes path)
    rw [hr]
    exact ⟨_, rfl⟩

theorem header_lt {mode : Mode} {n f : Nat} (h : header mem cursor = some (mode, n, f)) :
    f < 2 ^ 32 := by
  unfold header at h
  split at h
  · cases h
  · split at h
    · split at h
      · cases h
      · cases h
        exact BitVec.isLt _
    · cases h

/-- One round of the loop over the records. -/
theorem readRound_spec (heap : Heap) (mem : List UInt8) (length : Nat)
    (s : Tmpfs) (cursor : Nat) :
    Round mem length s cursor (readRound heap mem length (s, cursor)).trace
      (readRound heap mem length (s, cursor)).value := by
  unfold readRound
  dsimp only
  by_cases hend : length < cursor + HEADER
  · rw [if_pos hend]
    exact Round.out hend
  have hhead : cursor + HEADER ≤ length := Nat.le_of_not_lt hend
  rw [if_neg hend, value_bind, trace_bind, value_readHeader]
  cases hh : header mem cursor with
  | none =>
      rw [trace_pure, List.append_nil]
      refine Round.bad hhead fun mode n f h => ?_
      cases hh.symm.trans h.header
  | some fields =>
      obtain ⟨mode, n, f⟩ := fields
      dsimp only
      by_cases hlong : length < cursor + HEADER + n
      · rw [if_pos hlong, trace_pure, List.append_nil]
        refine Round.bad hhead fun mode' n' f' h => ?_
        cases hh.symm.trans h.header
        exact Nat.not_le_of_lt hlong h.name
      have hnamed : Named mem length cursor mode n f :=
        ⟨hh, Nat.le_of_not_lt hlong⟩
      rw [if_neg hlong]
      by_cases hcut : length < cursor + initrdAlign4 (HEADER + n) + f
      · rw [if_pos hcut]
        exact Round.cut mode n f hnamed hcut
      have hfits : Fits mem length cursor mode n f :=
        ⟨hnamed, Nat.le_of_not_lt hcut⟩
      rw [if_neg hcut, value_bind, trace_bind, value_readName]
      by_cases hname : cstr mem (cursor + HEADER) = trailer
      · rw [if_pos hname]
        exact Round.last mode n f hfits hname
      rw [if_neg hname]
      dsimp only [readName]
      generalize initrdNormalizePath (cstr mem (cursor + HEADER)) = path
      have hskip : ∀ r ∈ ([] : List Span), r.Within length := by
        intro r hr
        cases hr
      by_cases hpath : path = []
      · rw [if_pos hpath]
        exact Round.entry mode n f hfits hname [] hskip _ (Or.inl ⟨_, rfl⟩)
      rw [if_neg hpath]
      cases nodeType mode with
      | none => exact Round.entry mode n f hfits hname [] hskip _ (Or.inl ⟨_, rfl⟩)
      | some type =>
          cases type with
          | dir =>
              dsimp only
              split
              · exact Round.entry mode n f hfits hname [] hskip _ (Or.inr ⟨_, rfl⟩)
              · exact Round.entry mode n f hfits hname [] hskip _ (Or.inl ⟨_, rfl⟩)
          | reg =>
              have hbytes : ∀ r ∈ [Span.mk (cursor + initrdAlign4 (HEADER + n)) f],
                  r.Within length := by
                intro r hr
                rw [List.mem_singleton.mp hr]
                exact hfits.data
              rw [value_bind, trace_bind]
              dsimp only [readBytes]
              obtain ⟨r, hr⟩ := unpackFile_ends heap s path mode
                (slice mem (cursor + initrdAlign4 (HEADER + n)) f) (header_lt hh)
              rw [hr]
              dsimp only
              split
              · exact Round.entry mode n f hfits hname _ hbytes _ (Or.inr ⟨_, rfl⟩)
              · exact Round.entry mode n f hfits hname _ hbytes _ (Or.inl ⟨_, rfl⟩)

/-- The rounds `initrd_unpack` comes to: with which tree and cursor. -/
def Reached (heap : Heap) (s : Tmpfs) (mem : List UInt8) (length : Nat)
    (t : Tmpfs) (cursor : Nat) : Prop :=
  length ≠ 0 ∧ Reaches (readRound heap mem length) (s, 0) (t, cursor)

/-- A round that goes on has read an entry that is not the trailer. -/
theorem round_next {t : Tmpfs} {next : Nat}
    (h : (readRound heap mem length (s, cursor)).value = .next (t, next)) :
    ∃ mode n f, Fits mem length cursor mode n f
      ∧ cstr mem (cursor + HEADER) ≠ trailer ∧ next = nextEntry cursor n f := by
  have hspec := readRound_spec heap mem length s cursor
  rw [h] at hspec
  generalize (readRound heap mem length (s, cursor)).trace = reads at hspec
  cases hspec with
  | entry mode n f hfits hname data _ _ hturn =>
      refine ⟨mode, n, f, hfits, hname, ?_⟩
      obtain ⟨_, hnext⟩ | ⟨_, hstop⟩ := hturn
      · cases hnext
        rfl
      · cases hstop

/-- The bytes in front of the cursor get fewer. -/
theorem readRound_falls (heap : Heap) (mem : List UInt8) (length : Nat) :
    Falls (readRound heap mem length) fun u => length - u.2 := by
  intro u v h
  obtain ⟨s, cursor⟩ := u
  obtain ⟨t, next⟩ := v
  obtain ⟨mode, n, f, hfits, -, rfl⟩ := round_next h
  have hname := hfits.name
  have hle := le_align4 (HEADER + n)
  have hpos : 0 < HEADER := by decide
  show length - nextEntry cursor n f < length - cursor
  unfold nextEntry
  omega

-- ==== reading past the end

theorem slice_append {bytes : List UInt8} (behind : List UInt8) {off len : Nat}
    (h : off + len ≤ bytes.length) :
    slice (bytes ++ behind) off len = slice bytes off len := by
  unfold slice
  rw [List.drop_append_of_le_length (by omega), List.take_append_of_le_length]
  rw [List.length_drop]
  omega

theorem header_append {bytes : List UInt8} (behind : List UInt8)
    (h : cursor + HEADER ≤ bytes.length) :
    header (bytes ++ behind) cursor = header bytes cursor := by
  have hfield : ∀ off len, off + len ≤ HEADER →
      slice (bytes ++ behind) (cursor + off) len
        = slice bytes (cursor + off) len :=
    fun off len hle => slice_append behind (by omega)
  have htext := hfield 0 6 (by decide)
  rw [Nat.add_zero] at htext
  unfold header
  rw [htext, hfield 14 8 (by decide), hfield 94 8 (by decide),
    hfield 54 8 (by decide)]

/-- Headers and names of the module do not depend on what is behind it. -/
theorem named_append {bytes : List UInt8} (behind : List UInt8) {mode : Mode}
    {n f : Nat} :
    Named (bytes ++ behind) bytes.length cursor mode n f
      ↔ Named bytes bytes.length cursor mode n f := by
  constructor
  · intro h
    have hle := Nat.le_trans (Nat.le_add_right _ n) h.name
    exact ⟨(header_append behind hle).symm.trans h.header, h.name⟩
  · intro h
    have hle := Nat.le_trans (Nat.le_add_right _ n) h.name
    exact ⟨(header_append behind hle).trans h.header, h.name⟩

/-- A complete entry: header, a name that ends in its field, and data. -/
structure Complete (bytes : List UInt8) (cursor : Nat) (text : CStr) (mode : Mode)
    (n f : Nat) : Prop extends Fits bytes bytes.length cursor mode n f where
  nonzero : (0 : UInt8) ∉ text
  field : ∃ rest, slice bytes (cursor + HEADER) n = text ++ 0 :: rest

/-- Complete entries one behind the other, and a complete trailer that
ends at `stop`. -/
inductive Closed (bytes : List UInt8) : Nat → Nat → Prop
  | last {cursor : Nat} {mode : Mode} {n f : Nat}
      (h : Complete bytes cursor trailer mode n f) :
      Closed bytes cursor (cursor + initrdAlign4 (HEADER + n) + f)
  | entry {cursor stop : Nat} {name : CStr} {mode : Mode} {n f : Nat}
      (h : Complete bytes cursor name mode n f) (hname : name ≠ trailer)
      (hrest : Closed bytes (nextEntry cursor n f) stop) : Closed bytes cursor stop

/-- A name that ends in its field is read as the field has it. -/
theorem Complete.cstr_eq {bytes : List UInt8} {name : CStr} {mode : Mode} {n f : Nat}
    (h : Complete bytes cursor name mode n f) (behind : List UInt8) :
    cstr (bytes ++ behind) (cursor + HEADER) = name := by
  obtain ⟨rest, hfield⟩ := h.field
  rw [← slice_append behind h.name] at hfield
  unfold cstr
  rw [← List.take_append_drop n (List.drop (cursor + HEADER) (bytes ++ behind))]
  unfold slice at hfield
  rw [hfield, List.append_assoc, List.takeWhile_append_of_pos]
  · simp
  · intro c hc
    have hne : c ≠ 0 := fun e => h.nonzero (e ▸ hc)
    simpa using hne

/-- What is read where a field has a zero byte is the name in the field. -/
theorem Fits.complete {bytes : List UInt8} (behind : List UInt8) {mode : Mode}
    {n f : Nat} (h : Fits bytes bytes.length cursor mode n f)
    (hzero : 0 ∈ slice bytes (cursor + HEADER) n) :
    Complete bytes cursor (cstr (bytes ++ behind) (cursor + HEADER)) mode n f := by
  have htext : (0 : UInt8) ∉ cstr (bytes ++ behind) (cursor + HEADER) := by
    intro hmem
    have := List.mem_takeWhile_imp hmem
    simp at this
  refine ⟨h, htext, ?_⟩
  have hscan := List.takeWhile_append_dropWhile (p := fun c : UInt8 => c ≠ 0)
    (l := slice bytes (cursor + HEADER) n)
  have hname : cstr (bytes ++ behind) (cursor + HEADER)
      = (slice bytes (cursor + HEADER) n).takeWhile fun c => c ≠ 0 := by
    unfold cstr
    rw [← List.take_append_drop n (List.drop (cursor + HEADER) (bytes ++ behind)),
      show List.take n (List.drop (cursor + HEADER) (bytes ++ behind))
        = slice bytes (cursor + HEADER) n from slice_append behind h.name,
      List.takeWhile_append, if_neg]
    intro hall
    have hself := (List.takeWhile_prefix (p := fun c : UInt8 => c ≠ 0)
      (l := slice bytes (cursor + HEADER) n)).eq_of_length hall
    rw [← hself] at hzero
    have := List.mem_takeWhile_imp hzero
    simp at this
  rw [← hname] at hscan
  cases hrest : (slice bytes (cursor + HEADER) n).dropWhile fun c => c ≠ 0 with
  | nil =>
      rw [hrest, List.append_nil] at hscan
      rw [← hscan] at hzero
      exact (htext hzero).elim
  | cons c rest =>
      have hhead := List.head?_dropWhile_not (fun c : UInt8 => c ≠ 0)
        (slice bytes (cursor + HEADER) n)
      rw [hrest] at hhead hscan
      have hc : c = 0 := by simpa using hhead
      exact ⟨rest, by rw [← hscan, hc]⟩

theorem Complete.zero_mem {bytes : List UInt8} {name : CStr} {mode : Mode} {n f : Nat}
    (h : Complete bytes cursor name mode n f) :
    0 ∈ slice bytes (cursor + HEADER) n := by
  obtain ⟨rest, hfield⟩ := h.field
  rw [hfield]
  simp

/-- Entries stay complete in a longer buffer. -/
theorem Complete.append {bytes : List UInt8} (more : List UInt8) {name : CStr}
    {mode : Mode} {n f : Nat} (h : Complete bytes cursor name mode n f) :
    Complete (bytes ++ more) cursor name mode n f := by
  have hhead := (named_append more).mpr h.toNamed
  have hlen : bytes.length ≤ (bytes ++ more).length := by simp
  refine ⟨⟨⟨hhead.header, Nat.le_trans h.name hlen⟩, Nat.le_trans h.data hlen⟩, h.nonzero, ?_⟩
  rw [slice_append more h.name]
  exact h.field

theorem Closed.append {bytes : List UInt8} (more : List UInt8) {stop : Nat}
    (h : Closed bytes cursor stop) : Closed (bytes ++ more) cursor stop := by
  induction h with
  | last h => exact Closed.last (h.append more)
  | entry h hname _ ih => exact Closed.entry (h.append more) hname ih

theorem Closed.le_length {bytes : List UInt8} {stop : Nat}
    (h : Closed bytes cursor stop) : stop ≤ bytes.length := by
  induction h with
  | last h => exact h.data
  | entry _ _ _ ih => exact ih

/-- An entry is not the trailer, and has one end. -/
theorem Closed.next {bytes : List UInt8} {stop : Nat} {mode : Mode} {n f : Nat}
    (h : Closed bytes cursor stop) (behind : List UInt8)
    (hhead : header bytes cursor = some (mode, n, f))
    (hname : cstr (bytes ++ behind) (cursor + HEADER) ≠ trailer) :
    Closed bytes (nextEntry cursor n f) stop := by
  cases h with
  | last h => exact (hname (h.cstr_eq behind)).elim
  | entry h _ hrest =>
      cases h.header.symm.trans hhead
      exact hrest

theorem Closed.unique {bytes : List UInt8} {stop stop' : Nat}
    (h : Closed bytes cursor stop) (h' : Closed bytes cursor stop') : stop = stop' := by
  induction h with
  | last h =>
      cases h' with
      | last h' =>
          cases h.header.symm.trans h'.header
          rfl
      | entry h' hname _ =>
          exact (hname ((h'.cstr_eq []).symm.trans (h.cstr_eq []))).elim
  | entry h hname _ ih =>
      refine ih (h'.next [] h.header ?_)
      rw [h.cstr_eq]
      exact hname

-- ==== what a return of 0 shows

/-- The string at an entry's name is the trailer's. -/
def MeetsTrailer (heap : Heap) (s : Tmpfs) (bytes behind : List UInt8) : Prop :=
  ∃ t cursor mode n f, Reached heap s (bytes ++ behind) bytes.length t cursor
    ∧ Fits bytes bytes.length cursor mode n f
    ∧ cstr (bytes ++ behind) (cursor + HEADER) = trailer

/-- A return of 0 shows a chain of entries up to a trailer. -/
def Detects (heap : Heap) (s : Tmpfs) (bytes behind : List UInt8) : Prop :=
  ∀ s', initrdUnpack heap s (bytes ++ behind) bytes.length = some (s', 0) →
    ∃ stop, Closed bytes 0 stop

theorem fits_append {bytes : List UInt8} (behind : List UInt8) {mode : Mode}
    {n f : Nat} (h : Fits (bytes ++ behind) bytes.length cursor mode n f) :
    Fits bytes bytes.length cursor mode n f :=
  ⟨(named_append behind).mp h.toNamed, h.data⟩

/-- A call ends as one of its rounds does. -/
theorem unpack_ends (heap : Heap) (s : Tmpfs) (mem : List UInt8) (length : Nat) :
    (length = 0 ∧ initrdUnpack heap s mem length = some (s, -1))
      ∨ ∃ t cursor r, Reached heap s mem length t cursor
        ∧ (readRound heap mem length (t, cursor)).value = .stop r
        ∧ initrdUnpack heap s mem length = r := by
  unfold initrdUnpack
  by_cases hzero : length = 0
  · rw [if_pos hzero]
    exact Or.inl ⟨hzero, rfl⟩
  · rw [if_neg hzero]
    obtain ⟨⟨t, cursor⟩, r, hreach, hstop, hrun⟩ :=
      run_ends (readRound_falls heap mem length) (s := (s, 0))
        (Nat.lt_succ_self length)
    refine Or.inr ⟨t, cursor, r, ⟨hzero, hreach⟩, hstop, ?_⟩
    rw [← value_run, hrun, Option.join_some]

/-- And as any round does that ends it. -/
theorem Reached.unpack_eq {r : Option (Tmpfs × Int)}
    (h : Reached heap s mem length t cursor)
    (hstop : (readRound heap mem length (t, cursor)).value = .stop r) :
    initrdUnpack heap s mem length = r := by
  unfold initrdUnpack
  rw [if_neg h.1, ← value_run,
    h.2.run_stop (readRound_falls heap mem length) hstop (Nat.lt_succ_self length),
    Option.join_some]

theorem Reached.out (h : Reached heap s mem length t cursor)
    (hend : length < cursor + HEADER) :
    initrdUnpack heap s mem length = some (t, 0) := by
  refine h.unpack_eq ?_
  unfold readRound
  dsimp only
  rw [if_pos hend]
  rfl

theorem Reached.last {mode : Mode} {n f : Nat}
    (h : Reached heap s mem length t cursor)
    (hfits : Fits mem length cursor mode n f)
    (hname : cstr mem (cursor + HEADER) = trailer) :
    initrdUnpack heap s mem length = some (t, 0) := by
  have hspec := readRound_spec heap mem length t cursor
  generalize (readRound heap mem length (t, cursor)).trace = reads at hspec
  generalize hturn : (readRound heap mem length (t, cursor)).value = turn at hspec
  have hle := Nat.le_trans (Nat.le_add_right _ n) hfits.name
  cases hspec with
  | out hend => exact (Nat.not_le_of_lt hend hle).elim
  | bad _ hbad => exact (hbad mode n f hfits.toNamed).elim
  | cut mode' n' f' hnamed hcut =>
      cases hnamed.header.symm.trans hfits.header
      exact (Nat.not_le_of_lt hcut hfits.data).elim
  | last => exact h.unpack_eq hturn
  | entry _ _ _ _ hne => exact (hne hname).elim

/-- Where the module starts with a closed chain, each cursor the loop comes
to is on it. -/
theorem Reached.closed {bytes behind : List UInt8} {stop : Nat}
    (h : Reached heap s (bytes ++ behind) bytes.length t cursor)
    (hclosed : Closed bytes 0 stop) : Closed bytes cursor stop := by
  obtain ⟨-, hreach⟩ := h
  generalize hu : (t, cursor) = u at hreach
  induction hreach generalizing t cursor with
  | refl =>
      cases hu
      exact hclosed
  | @next v w _ hnext ih =>
      subst hu
      obtain ⟨mode, n, f, hfits, hname, rfl⟩ := round_next hnext
      exact (ih rfl).next behind (fits_append behind hfits).header hname

/-- Back from a cursor at a closed chain, over entries that are complete. -/
theorem Reached.closed_back {bytes behind : List UInt8} {stop : Nat}
    (h : Reached heap s (bytes ++ behind) bytes.length t cursor)
    (hall : ∀ t cursor mode n f,
      Reached heap s (bytes ++ behind) bytes.length t cursor →
      Fits bytes bytes.length cursor mode n f →
      0 ∈ slice bytes (cursor + HEADER) n)
    (hclosed : Closed bytes cursor stop) : Closed bytes 0 stop := by
  obtain ⟨hne, hreach⟩ := h
  generalize hu : (t, cursor) = u at hreach
  induction hreach generalizing t cursor with
  | refl =>
      cases hu
      exact hclosed
  | @next v w hv hnext ih =>
      subst hu
      obtain ⟨mode, n, f, hfits, hname, rfl⟩ := round_next hnext
      have hfits := fits_append behind hfits
      have hzero := hall v.1 v.2 mode n f ⟨hne, hv⟩ hfits
      exact ih (Closed.entry (hfits.complete behind hzero) hname hclosed) rfl

theorem Closed.head_le {bytes : List UInt8} {stop : Nat}
    (h : Closed bytes cursor stop) : cursor + HEADER ≤ bytes.length := by
  cases h with
  | last h => exact Nat.le_trans (Nat.le_add_right _ _) h.name
  | entry h => exact Nat.le_trans (Nat.le_add_right _ _) h.name

/-- The entry at the start of a closed chain is complete. -/
theorem Closed.zero_mem {bytes : List UInt8} {stop : Nat} {mode : Mode} {n f : Nat}
    (h : Closed bytes cursor stop) (hhead : header bytes cursor = some (mode, n, f)) :
    0 ∈ slice bytes (cursor + HEADER) n := by
  cases h with
  | last h =>
      cases h.header.symm.trans hhead
      exact h.zero_mem
  | entry h =>
      cases h.header.symm.trans hhead
      exact h.zero_mem

/-- No cursor is left with less than a header, and no name read on the way
to a trailer runs out of its field. -/
structure Sound (heap : Heap) (s : Tmpfs) (bytes behind : List UInt8) : Prop where
  headers : ∀ t cursor, Reached heap s (bytes ++ behind) bytes.length t cursor →
    cursor + HEADER ≤ bytes.length
  names : MeetsTrailer heap s bytes behind → ∀ t cursor mode n f,
    Reached heap s (bytes ++ behind) bytes.length t cursor →
    Fits bytes bytes.length cursor mode n f → 0 ∈ slice bytes (cursor + HEADER) n

/-- A call returns 0 for a trailer or for want of a header. -/
theorem unpack_zero {bytes behind : List UInt8} {s' : Tmpfs}
    (h : initrdUnpack heap s (bytes ++ behind) bytes.length = some (s', 0)) :
    ∃ cursor, Reached heap s (bytes ++ behind) bytes.length s' cursor
      ∧ (bytes.length < cursor + HEADER
        ∨ ∃ mode n f, Fits bytes bytes.length cursor mode n f
          ∧ cstr (bytes ++ behind) (cursor + HEADER) = trailer) := by
  obtain ⟨-, hrun⟩ | ⟨t, cursor, r, hreach, hstop, hr⟩ :=
    unpack_ends heap s (bytes ++ behind) bytes.length
  · rw [hrun] at h
    cases h
  rw [hr] at h
  subst h
  have hspec := readRound_spec heap (bytes ++ behind) bytes.length t cursor
  rw [hstop] at hspec
  generalize (readRound heap (bytes ++ behind) bytes.length (t, cursor)).trace
    = reads at hspec
  cases hspec with
  | out hend => exact ⟨cursor, hreach, Or.inl hend⟩
  | last mode n f hfits hname =>
      exact ⟨cursor, hreach, Or.inr ⟨mode, n, f, fits_append behind hfits, hname⟩⟩
  | entry _ _ _ _ _ _ _ _ hturn =>
      obtain ⟨_, hnext⟩ | ⟨_, hfail⟩ := hturn
      · cases hnext
      · cases hfail

/-- Every call returns 0 or -1. -/
theorem unpack_returns (heap : Heap) (s : Tmpfs) (mem : List UInt8) (length : Nat) :
    ∃ s', initrdUnpack heap s mem length = some (s', 0)
      ∨ initrdUnpack heap s mem length = some (s', -1) := by
  obtain ⟨-, hrun⟩ | ⟨t, cursor, r, -, hstop, rfl⟩ := unpack_ends heap s mem length
  · exact ⟨s, Or.inr hrun⟩
  have hspec := readRound_spec heap mem length t cursor
  rw [hstop] at hspec
  generalize (readRound heap mem length (t, cursor)).trace = reads at hspec
  generalize initrdUnpack heap s mem length = r at hspec
  cases hspec with
  | out => exact ⟨t, Or.inl rfl⟩
  | bad => exact ⟨t, Or.inr rfl⟩
  | cut => exact ⟨t, Or.inr rfl⟩
  | last => exact ⟨t, Or.inl rfl⟩
  | entry _ _ _ _ _ _ _ _ hturn =>
      obtain ⟨_, hnext⟩ | ⟨t', hfail⟩ := hturn
      · cases hnext
      · cases hfail
        exact ⟨t', Or.inr rfl⟩

theorem Detects.sound {bytes behind : List UInt8} (h : Detects heap s bytes behind) :
    Sound heap s bytes behind := by
  constructor
  -- a closed chain has no place to run out
  · intro t cursor hreach
    refine Nat.le_of_not_lt fun hend => ?_
    obtain ⟨stop, hclosed⟩ := h t (hreach.out hend)
    exact Nat.not_le_of_lt hend (hreach.closed hclosed).head_le
  · intro hmeets t cursor mode n f hreach hfits
    obtain ⟨t', cursor', mode', n', f', hreach', hfits', hname⟩ := hmeets
    have hnamed := (named_append behind).mpr hfits'.toNamed
    obtain ⟨stop, hclosed⟩ := h t' (hreach'.last ⟨hnamed, hfits'.data⟩ hname)
    exact (hreach.closed hclosed).zero_mem hfits.header

theorem Sound.detects {bytes behind : List UInt8} (h : Sound heap s bytes behind) :
    Detects heap s bytes behind := by
  intro s' hrun
  obtain ⟨cursor, hreach, hend | ⟨mode, n, f, hfits, hname⟩⟩ := unpack_zero hrun
  · exact (Nat.not_le_of_lt hend (h.headers s' cursor hreach)).elim
  · have hall := h.names ⟨s', cursor, mode, n, f, hreach, hfits, hname⟩
    have hcomplete := hfits.complete behind (hall s' cursor mode n f hreach hfits)
    rw [hname] at hcomplete
    exact ⟨_, hreach.closed_back hall (Closed.last hcomplete)⟩

/-- Where a return of 0 shows an archive, one that is cut short has -1. -/
theorem Detects.cut_short {bytes behind archive : List UInt8} {stop : Nat}
    (h : Detects heap s bytes behind) (hpre : bytes <+: archive)
    (hclosed : Closed archive 0 stop) (hcut : bytes.length < stop) :
    ∃ s', initrdUnpack heap s (bytes ++ behind) bytes.length = some (s', -1) := by
  obtain ⟨more, rfl⟩ := hpre
  obtain ⟨s', hrun | hrun⟩ := unpack_returns heap s (bytes ++ behind) bytes.length
  · obtain ⟨stop', hclosed'⟩ := h s' hrun
    have hsame := (hclosed'.append more).unique hclosed
    have hle := hclosed'.le_length
    omega
  · exact ⟨s', hrun⟩

/-- A return of 0 shows an archive exactly if the loop never comes to a
cursor with less than a header left, and if the name field of each entry
it comes to on the way to a trailer has a zero byte. The call then returns
-1 for an archive that is cut short. -/
theorem unpack_detects_iff (heap : Heap) (s : Tmpfs) (bytes behind : List UInt8) :
    (Detects heap s bytes behind ↔ Sound heap s bytes behind)
      ∧ (Detects heap s bytes behind → ∀ archive stop, bytes <+: archive →
        Closed archive 0 stop → bytes.length < stop →
        ∃ s', initrdUnpack heap s (bytes ++ behind) bytes.length = some (s', -1)) :=
  ⟨⟨Detects.sound, Sound.detects⟩,
    fun h _ _ hpre hclosed hcut => h.cut_short hpre hclosed hcut⟩

/-- A directory "d", and nothing behind it. -/
def noTrailer : List UInt8 :=
  encode ⟨0, 0, 0, 0, 0, 0, 0, 0, 0, 0⟩ 0x41ed#32 [100] []

/-- An archive that is cut in front of its trailer unpacks. -/
theorem unpack_noTrailer :
    let m : Meta := ⟨0, 0, 0, 0, 0, 0, 0, 0, 0, 0⟩
    let heap : Heap := ⟨fun _ => true, fun _ => true⟩
    Closed (noTrailer ++ encode m 0 trailer []) 0 236
      ∧ (∃ s', initrdUnpack heap rootMount noTrailer noTrailer.length = some (s', 0))
      ∧ ¬ ∀ heap s bytes behind, Detects heap s bytes behind := by
  intro m heap
  have hrun : (initrdUnpack heap rootMount (noTrailer ++ [])
      noTrailer.length).map Prod.snd = some 0 := by decide +kernel
  obtain ⟨⟨s', rc⟩, hs', rfl⟩ := Option.map_eq_some_iff.mp hrun
  refine ⟨?_, ⟨s', hs'⟩, fun h => ?_⟩
  · have hdir : Complete (noTrailer ++ encode m 0 trailer []) 0 [100] 0x41ed#32 2 0 :=
      ⟨⟨⟨by decide +kernel, by decide +kernel⟩, by decide +kernel⟩, by decide,
        ⟨[], by decide +kernel⟩⟩
    have hlast : Complete (noTrailer ++ encode m 0 trailer []) 112 trailer 0 11 0 :=
      ⟨⟨⟨by decide +kernel, by decide +kernel⟩, by decide +kernel⟩, by decide,
        ⟨[], by decide +kernel⟩⟩
    exact Closed.entry hdir (by decide) (Closed.last hlast)
  · obtain ⟨stop, hclosed⟩ := h heap rootMount noTrailer [] s' hs'
    have hnext : Closed noTrailer 112 stop :=
      hclosed.next [] (show header noTrailer 0 = some (0x41ed#32, 2, 0)
        by decide +kernel) (by decide +kernel)
    have hlong : ¬ 112 + HEADER ≤ noTrailer.length := by decide +kernel
    exact hlong hnext.head_le

end Alix.Initrd
