/-
The line of a record.

The parts of a line are short enough for the array, whatever the record,
so nothing is cut off (`lineText_length`), and what goes to the UART is the
text of the line as `lineText` writes it out, whatever stood in the array
before (`klogEmit_line`). A text that is put into a buffer piece by piece
is in it as a whole (`Filled`), and is read back up to the NUL.
-/
import Alix.Log.Klog
import Alix.Klib.Proofs.Directive
import Mathlib.Data.List.GetD

namespace Alix.Log

open Alix.Klib

-- ==== the statement

/-- The text with a CR in front of each LF that has none. -/
def crlf : Bool → List UInt8 → List UInt8
  | _, [] => []
  | prevWasCr, c :: s =>
      (if c = chr '\n' ∧ prevWasCr = false then [chr '\r'] else []) ++ c :: crlf (c = chr '\r') s

/-- A number with a minimal width. -/
def padded (pad : UInt8) (width n : Nat) : List UInt8 :=
  List.replicate (width - (decimal.write n).length) pad ++ decimal.write n

/-- What stands in front of the message: the seconds and the milliseconds
since the start, and who sends it. -/
def headText (rec : Draft) : List UInt8 :=
  chars "[" ++ padded (chr ' ') 5 (rec.timeUs.toNat / 1000000) ++ chars "."
    ++ padded (chr '0') 3 (rec.timeUs.toNat / 1000 % 1000) ++ chars "] " ++ rec.ns.bytes
    ++ chars ": "

/-- The line of a record. -/
def lineText (rec : Draft) : List UInt8 :=
  headText rec ++ crlf false rec.msg.bytes ++ chars "\r\n"

-- ==== strings

theorem cstr_eq_self {l : List UInt8} (h : 0 ∉ l) : cstr l = l :=
  List.takeWhile_eq_self_iff.mpr fun c hc => by
    simpa using fun h0 : c = 0 => h (h0 ▸ hc)

/-- A string is copied as it is into an array of its own size. -/
@[simp] theorem strlcpy_bytes {size : Nat} (h : 0 < size) (s : CString size) :
    strlcpy size h s.bytes = s := by
  obtain ⟨bytes, fits, nul⟩ := s
  simp only [strlcpy, CString.mk.injEq, cstr_eq_self nul]
  exact List.take_of_length_le (show bytes.length ≤ size - 1 by omega)

/-- A text without NUL that stands in front is read, and then what is behind
it. -/
theorem read_append {size : Nat} (hsize : 0 < size) {mem : Nat → UInt8} {l : List UInt8}
    (hlen : l.length < size) (hnul : 0 ∉ l) (htext : ∀ i, i < l.length → mem i = l.getD i 0) :
    (CString.read size hsize mem).bytes
      = l ++ cstr ((List.range (size - 1 - l.length)).map fun i => mem (l.length + i)) := by
  have hfront : (List.range l.length).map mem = l :=
    List.ext_getElem (by simp) fun i hi hi' => by
      rw [List.getElem_map, List.getElem_range, htext i hi', ← List.getElem_eq_getD]
  have hsplit : (List.range (size - 1)).map mem
      = l ++ (List.range (size - 1 - l.length)).map fun i => mem (l.length + i) := by
    conv_lhs => rw [show size - 1 = l.length + (size - 1 - l.length) by omega,
      List.range_add, List.map_append, hfront, List.map_map]
    rfl
  show cstr _ = _
  rw [hsplit]
  exact List.takeWhile_append_of_pos fun c hc => by
    simpa using fun h0 : c = 0 => hnul (h0 ▸ hc)

/-- The text that stands in front of a NUL is read. -/
theorem read_text {size : Nat} (hsize : 0 < size) {mem : Nat → UInt8} {l : List UInt8}
    (hlen : l.length < size) (hnul : 0 ∉ l) (htext : ∀ i, i < l.length → mem i = l.getD i 0)
    (hend : mem l.length = 0) : (CString.read size hsize mem).bytes = l := by
  rw [read_append hsize hlen hnul htext]
  cases size - 1 - l.length with
  | zero => exact List.append_nil l
  | succ n =>
      rw [List.range_succ_eq_map, List.map_cons, Nat.add_zero, hend]
      exact List.append_nil l

-- ==== a buffer

/-- A buffer with a text in it. -/
structure Filled (size : Nat) (b : Buf) (l : List UInt8) : Prop where
  bufsz : b.bufsz = size
  pos : b.pos = l.length
  mem : ∀ i, i < l.length → i + 1 < size → b.mem i = l.getD i 0

variable {size : Nat} {b : Buf} {l l' : List UInt8}

theorem Filled.puts (h : Filled size b l) (hlen : l.length + l'.length < 2 ^ 64) :
    Filled size (puts b l') (l ++ l') where
  bufsz := (Buf.puts_bufsz b l').trans h.bufsz
  pos := by
    rw [Buf.puts_pos b l' (by rw [h.pos]; omega), h.pos, List.length_append,
      Nat.mod_eq_of_lt hlen]
  mem := by
    intro i hi hroom
    rw [Buf.puts_mem b l' (by rw [h.pos]; exact hlen), h.pos, h.bufsz]
    rw [List.length_append] at hi
    split
    · rename_i hin
      rw [List.getD_append_right _ _ _ _ hin.1]
    · rename_i hout
      have hlt : i < l.length := by omega
      rw [List.getD_append _ _ _ _ hlt, h.mem i hlt hroom]

theorem filled_nil (mem : Nat → UInt8) (size : Nat) : Filled size ⟨mem, size, 0⟩ [] where
  bufsz := rfl
  pos := rfl
  mem := fun _ hi => absurd hi (Nat.not_lt_zero _)

/-- What is read of a buffer with a NUL behind its text. -/
theorem Filled.read (h : Filled size b l) (hsize : 0 < size) (hlen : l.length < size)
    (hnul : 0 ∉ l) :
    (CString.read size hsize (Function.update b.mem l.length 0)).bytes = l :=
  read_text hsize hlen hnul
    (fun i hi => by rw [Function.update_of_ne (Nat.ne_of_lt hi), h.mem i hi (by omega)])
    (Function.update_self ..)

/-- The NUL of the formatter is behind the text. -/
theorem Filled.terminate (h : Filled size b l) :
    Filled size { b with mem := Function.update b.mem l.length 0 } l where
  bufsz := h.bufsz
  pos := h.pos
  mem := fun i hi hroom => by
    show Function.update b.mem l.length 0 i = _
    rw [Function.update_of_ne (Nat.ne_of_lt hi), h.mem i hi hroom]

/-- What the formatter leaves, where there is room for the text. -/
theorem kvsnprintf_filled (a : Args) (junk : Nat → UInt8) {fmt : Option (List UInt8)}
    (hsize : size ≤ 2 ^ 64) (hlen : (textOf a fmt).length < size) :
    Filled size ⟨(kvsnprintf a junk size fmt).1, size, (textOf a fmt).length⟩ (textOf a fmt)
      ∧ (kvsnprintf a junk size fmt).1 (textOf a fmt).length = 0 := by
  have hfill : Filled size (puts ⟨junk, size, 0⟩ (textOf a fmt)) ([] ++ textOf a fmt) :=
    (filled_nil junk size).puts (by rw [List.length_nil]; omega)
  rw [List.nil_append] at hfill
  have hmem : (kvsnprintf a junk size fmt).1
      = Function.update (puts (⟨junk, size, 0⟩ : Buf) (textOf a fmt)).mem
          (textOf a fmt).length 0 := by
    rw [kvsnprintf_eq _ _ (by omega)]
    show Function.update _ (min _ _) 0 = _
    rw [hfill.pos, Nat.min_eq_left (show (textOf a fmt).length ≤ size - 1 by omega)]
  rw [hmem]
  exact ⟨⟨rfl, rfl, hfill.terminate.mem⟩, Function.update_self ..⟩

/-- A text for which there is room is the message, as it is. -/
theorem kvlogWriteImpl_msg (junk : Nat → UInt8) (now : BitVec 64) (ns : Option (List UInt8))
    {fmt : Option (List UInt8)} {ap : Args} (hlen : (textOf ap fmt).length < KLOG_MSG_MAX)
    (hnul : 0 ∉ textOf ap fmt) : (kvlogWriteImpl junk now ns fmt ap).msg.bytes = textOf ap fmt := by
  obtain ⟨hfill, hend⟩ := kvsnprintf_filled ap junk (by decide) hlen
  refine read_text (by decide) hlen hnul (fun i hi => hfill.mem i hi ?_) hend
  exact Nat.lt_of_le_of_lt (Nat.succ_le_of_lt hi) hlen

/-- The front of a text is the front of the message, as far as there is
room, also where what is behind it is cut off. -/
theorem kvlogWriteImpl_front (junk : Nat → UInt8) (now : BitVec 64) (ns : Option (List UInt8))
    {fmt : Option (List UInt8)} {ap : Args} {front : List UInt8}
    (hfront : front <+: textOf ap fmt) (hlen : front.length < KLOG_MSG_MAX) (hnul : 0 ∉ front)
    (hbig : (textOf ap fmt).length < 2 ^ 64) :
    front <+: (kvlogWriteImpl junk now ns fmt ap).msg.bytes := by
  obtain ⟨rest, htext⟩ := hfront
  have hfill : Filled KLOG_MSG_MAX (puts ⟨junk, KLOG_MSG_MAX, 0⟩ (textOf ap fmt))
      ([] ++ textOf ap fmt) :=
    (filled_nil junk KLOG_MSG_MAX).puts (by rw [List.length_nil]; omega)
  rw [List.nil_append] at hfill
  have hmem : ∀ i, i < front.length →
      (kvsnprintf ap junk KLOG_MSG_MAX fmt).1 i = front.getD i 0 := by
    intro i hi
    have hin : i < (textOf ap fmt).length := by
      rw [← htext, List.length_append]
      exact Nat.lt_add_right _ hi
    rw [kvsnprintf_eq _ _ (by decide)]
    show Function.update _ (min _ _) 0 i = _
    -- the NUL is behind the text or at the end of the buffer
    rw [hfill.pos, Function.update_of_ne (by omega), hfill.mem i hin (by omega), ← htext,
      List.getD_append _ _ _ _ hi]
  exact ⟨_, (read_append (by decide) hlen hnul hmem).symm⟩

-- ==== the head

theorem crlfLoop_eq {σ : Type} [Out σ] (out : σ) (prevWasCr : Bool) (s : List UInt8) :
    crlfLoop out prevWasCr s = puts out (crlf prevWasCr s) := by
  induction s generalizing out prevWasCr with
  | nil => rfl
  | cons c s ih =>
      rw [crlfLoop, ih, crlf]
      split
      · rfl
      · rfl

/-- `%llu` with a width. -/
def llu (flags : Flags) (width : BitVec 64) : Directive :=
  { flags, width, precision := .none, modifier := .ll, conv := .u }

theorem llu_text (a : Args) (width : BitVec 64) (ap : Nat) {flags : Flags}
    (hflags : flags.leftAlign = false) :
    (llu flags width).text a ap
      = padded (if flags.zeroPad then chr '0' else chr ' ') width.toNat (a.slot ap).toNat := by
  have hds : digitsText (a.slot ap).toNat 10 false = decimal.write (a.slot ap).toNat :=
    digitsText_eq false (a.slot ap).isLt (by decide) (by decide)
  show putuText (a.slot ap).toNat 10 false width.toNat flags.zeroPad flags.leftAlign = _
  simp only [putuText, hds, Alphabet.write_ne_nil, hflags, if_false, padded, Bool.false_eq_true]

/-- `%s`. -/
def plainStr : Directive :=
  { flags := .none, width := 0, precision := .none, modifier := .none, conv := .s }

theorem plainStr_text (a : Args) (ap : Nat) (h : a.slot ap ≠ 0) :
    plainStr.text a ap = a.str (a.slot ap) := by
  have hs : a.string ap = some (a.str (a.slot ap)) := if_neg h
  show strText a (plainStr.spec a ap) ap = _
  simp [strText, padText, strLen, plainStr, Directive.spec, Precision.value, hs, bufStrlen,
    Flags.leftAlign]

/-- The characters of a format that are no conversion. -/
theorem run_plain (a : Args) {σ : Type} [Out σ] (l : List UInt8) (h : chr '%' ∉ l)
    (fmt : List UInt8) (out : σ) (ap : Nat) :
    run a (l ++ fmt) out ap = run a fmt (puts out l) ap := by
  induction l generalizing out with
  | nil => rfl
  | cons c l ih =>
      rw [List.cons_append, run_char a fun hc => h (by simp [hc]),
        ih fun hmem => h (List.mem_cons_of_mem c hmem), puts_cons]

theorem textOf_head (rec : Draft) :
    textOf (lineArgs rec) (some (chars "[%5llu.%03llu] %s: ")) = headText rec := by
  have hfmt : chars "[%5llu.%03llu] %s: "
      = chars "[" ++ ((llu .none 5).chars ++ (chars "." ++ ((llu .zero 3).chars
        ++ (chars "] " ++ (plainStr.chars ++ (chars ": " ++ [])))))) := by decide
  show (run (lineArgs rec) (chars "[%5llu.%03llu] %s: ") ([] : List UInt8) 0).1 = _
  rw [hfmt, run_plain _ _ (by decide), run_directive, run_plain _ _ (by decide), run_directive,
    run_plain _ _ (by decide), run_directive, run_plain _ _ (by decide), run_nil]
  simp only [puts_list, List.nil_append, llu_text _ _ _ (rfl : Flags.none.leftAlign = false),
    llu_text _ _ _ (rfl : Flags.zero.leftAlign = false)]
  have hns : (lineArgs rec).slot 2 ≠ 0 := show (1 : BitVec 64) ≠ 0 by decide
  exact congrArg (fun s => _ ++ s ++ _) (plainStr_text _ _ hns)

-- ==== the length

theorem mem_decimal {n : Nat} {c : UInt8} (h : c ∈ decimal.write n) : chr '0' ≤ c ∧ c ≤ chr '9' := by
  obtain ⟨d, hd, rfl⟩ := Alphabet.mem_write h
  exact (decimal_value (decimal.value_digit d hd)).1

theorem decimal_length {n k : Nat} (hk : 0 < k) (h : n < 10 ^ k) :
    (decimal.write n).length ≤ k := by
  unfold Alphabet.write
  split
  · exact hk
  · rw [List.length_reverse, List.length_map]
    exact (Nat.digits_length_le_iff (by decide) n).mpr h

theorem padded_length {pad : UInt8} {width n k : Nat} (hw : width ≤ k) (hk : 0 < k)
    (h : n < 10 ^ k) : (padded pad width n).length ≤ k := by
  have hle := decimal_length hk h
  rw [padded, List.length_append, List.length_replicate]
  omega

theorem crlf_length (prevWasCr : Bool) (s : List UInt8) :
    (crlf prevWasCr s).length ≤ 2 * s.length := by
  induction s generalizing prevWasCr with
  | nil => exact Nat.le_refl 0
  | cons c s ih =>
      have hrest := ih (decide (c = chr '\r'))
      rw [crlf, List.length_append, List.length_cons, List.length_cons]
      split
      · rw [List.length_singleton]
        omega
      · rw [List.length_nil]
        omega

theorem headText_length (rec : Draft) : (headText rec).length ≤ 54 := by
  have hsec : rec.timeUs.toNat / 1000000 < 10 ^ 14 := by
    have := rec.timeUs.isLt
    omega
  have h5 : (padded (chr ' ') 5 (rec.timeUs.toNat / 1000000)).length ≤ 14 :=
    padded_length (by decide) (by decide) hsec
  have h3 : (padded (chr '0') 3 (rec.timeUs.toNat / 1000 % 1000)).length ≤ 3 :=
    padded_length (by decide) (by decide) (Nat.mod_lt _ (by decide))
  have hns : rec.ns.bytes.length < 32 := rec.ns.fits
  simp only [headText, List.length_append, show (chars "[").length = 1 from rfl,
    show (chars ".").length = 1 from rfl, show (chars "] ").length = 2 from rfl,
    show (chars ": ").length = 2 from rfl]
  omega

/-- There is room for every line. -/
theorem lineText_length (rec : Draft) : (lineText rec).length ≤ 438 := by
  have hhead := headText_length rec
  have hbody := crlf_length false rec.msg.bytes
  have hmsg : rec.msg.bytes.length < 192 := rec.msg.fits
  rw [lineText, List.length_append, List.length_append, show (chars "\r\n").length = 2 from rfl]
  omega

-- ==== no NUL

theorem zero_notMem_padded {pad : UInt8} (hpad : pad ≠ 0) (width n : Nat) :
    0 ∉ padded pad width n := by
  intro h
  rcases List.mem_append.mp h with h | h
  · exact hpad (List.eq_of_mem_replicate h).symm
  · exact absurd (mem_decimal h).1 (by decide)

theorem zero_notMem_crlf {s : List UInt8} (h : 0 ∉ s) (prevWasCr : Bool) :
    0 ∉ crlf prevWasCr s := by
  induction s generalizing prevWasCr with
  | nil => exact h
  | cons c s ih =>
      rw [List.mem_cons, not_or] at h
      rw [crlf, List.mem_append, List.mem_cons, not_or, not_or]
      refine ⟨?_, h.1, ih h.2 _⟩
      split
      · decide
      · exact List.not_mem_nil

theorem zero_notMem_head (rec : Draft) : 0 ∉ headText rec := by
  simp only [headText, List.mem_append, not_or]
  exact ⟨⟨⟨⟨⟨⟨by decide, zero_notMem_padded (by decide) _ _⟩, by decide⟩,
    zero_notMem_padded (by decide) _ _⟩, by decide⟩, rec.ns.nul⟩, by decide⟩

theorem zero_notMem_line (rec : Draft) : 0 ∉ lineText rec := by
  simp only [lineText, List.mem_append, not_or]
  exact ⟨⟨zero_notMem_head rec, zero_notMem_crlf rec.msg.nul false⟩, by decide⟩

-- ==== the line

theorem klogEmit_text (junk : Nat → UInt8) (rec : Draft) :
    (klogEmit junk rec).bytes = lineText rec := by
  have hhead := headText_length rec
  have hline := lineText_length rec
  -- the formatter puts the head and the NUL behind it
  have htext := textOf_head rec
  have hshort : (textOf (lineArgs rec) (some (chars "[%5llu.%03llu] %s: "))).length < LINE_SIZE := by
    rw [htext]
    exact Nat.lt_of_le_of_lt hhead (by decide)
  obtain ⟨hbuf, hend⟩ := kvsnprintf_filled (lineArgs rec) junk (by decide) hshort
  rw [htext] at hbuf hend hshort
  have hpos := read_text (by decide) hshort (zero_notMem_head rec)
    (fun i hi => hbuf.mem i hi (Nat.lt_of_le_of_lt (Nat.succ_le_of_lt hi) hshort)) hend
  simp only [klogEmit, hpos, klogBufPutsCrlf, Option.getD_some, crlfLoop_eq]
  rw [← puts_append]
  -- the rest goes in behind it
  have hrest : lineText rec
      = headText rec ++ (crlf false rec.msg.bytes ++ crlf false (chars "\r\n")) := by
    rw [lineText, List.append_assoc]
    rfl
  have hsize : (headText rec).length
      + (crlf false rec.msg.bytes ++ crlf false (chars "\r\n")).length < 2 ^ 64 := by
    rw [← List.length_append, ← hrest]
    omega
  have hall := hbuf.puts hsize
  rw [← hrest] at hall
  have hroom : (lineText rec).length < LINE_SIZE := by
    show (lineText rec).length < 512
    omega
  rw [hall.pos, if_neg (Nat.not_le.mpr hroom)]
  exact hall.read (by decide) hroom (zero_notMem_line rec)

-- ==== CR and LF

/-- Each LF has a CR in front of it. `prevWasCr` says what is in front of
the text. -/
def CrLf : Bool → List UInt8 → Prop
  | _, [] => True
  | prevWasCr, c :: s => (c = chr '\n' → prevWasCr = true) ∧ CrLf (c = chr '\r') s

/-- Whether a CR is in front of what follows a text. -/
def endsCr (prevWasCr : Bool) (l : List UInt8) : Bool :=
  l.foldl (fun _ c => decide (c = chr '\r')) prevWasCr

theorem crLf_append (prevWasCr : Bool) (l l' : List UInt8) :
    CrLf prevWasCr (l ++ l') ↔ CrLf prevWasCr l ∧ CrLf (endsCr prevWasCr l) l' := by
  induction l generalizing prevWasCr with
  | nil => exact (true_and _).symm.to_iff
  | cons c l ih =>
      rw [List.cons_append, CrLf, CrLf, ih, and_assoc]
      rfl

theorem crLf_of_notMem {l : List UInt8} (h : chr '\n' ∉ l) (prevWasCr : Bool) :
    CrLf prevWasCr l := by
  induction l generalizing prevWasCr with
  | nil => trivial
  | cons c l ih =>
      rw [List.mem_cons, not_or] at h
      exact ⟨fun hc => absurd hc.symm h.1, ih h.2 _⟩

theorem crLf_crlf (prevWasCr : Bool) (s : List UInt8) : CrLf prevWasCr (crlf prevWasCr s) := by
  induction s generalizing prevWasCr with
  | nil => trivial
  | cons c s ih =>
      rw [crlf]
      split
      · rename_i h
        exact ⟨fun hr => absurd hr (by decide), fun _ => rfl, ih _⟩
      · rename_i h
        refine ⟨fun hc => ?_, ih _⟩
        cases prevWasCr with
        | true => rfl
        | false => exact absurd ⟨hc, rfl⟩ h

theorem newline_notMem_padded {pad : UInt8} (hpad : pad ≠ chr '\n') (width n : Nat) :
    chr '\n' ∉ padded pad width n := by
  intro h
  rcases List.mem_append.mp h with h | h
  · exact hpad (List.eq_of_mem_replicate h).symm
  · exact absurd (mem_decimal h).1 (by decide)

/-- The line has a CR in front of each LF, if the name of the sender has. -/
theorem crLf_lineText (rec : Draft) : CrLf false (lineText rec) ↔ CrLf false rec.ns.bytes := by
  have hfront : chr '\n' ∉ chars "[" ++ padded (chr ' ') 5 (rec.timeUs.toNat / 1000000)
      ++ chars "." ++ padded (chr '0') 3 (rec.timeUs.toNat / 1000 % 1000) := by
    simp only [List.mem_append, not_or]
    exact ⟨⟨⟨by decide, newline_notMem_padded (by decide) _ _⟩, by decide⟩,
      newline_notMem_padded (by decide) _ _⟩
  have hend : ∀ prev l, endsCr prev (l ++ chars "] ") = false := fun prev l => by
    rw [endsCr, List.foldl_append]
    rfl
  have hcolon : ∀ prev l, endsCr prev (l ++ chars ": ") = false := fun prev l => by
    rw [endsCr, List.foldl_append]
    rfl
  rw [lineText, headText, crLf_append, crLf_append, crLf_append, crLf_append, hcolon, crLf_append,
    hend]
  have hspace : ∀ prev, CrLf prev (chars "] ") := crLf_of_notMem (by decide)
  have hsep : ∀ prev, CrLf prev (chars ": ") := crLf_of_notMem (by decide)
  have hlast : ∀ prev, CrLf prev (chars "\r\n") := fun prev =>
    ⟨fun h => absurd h (by decide), fun _ => rfl, trivial⟩
  exact ⟨fun h => h.1.1.1.2, fun h => ⟨⟨⟨⟨⟨crLf_of_notMem hfront _, hspace _⟩, h⟩, hsep _⟩,
    crLf_crlf false _⟩, hlast _⟩⟩

-- ==== what is sent

/-- What the UART gets of a record is the line, whole, whatever stood in
the array: the time, the sender and the message with a CR in front of each
LF that has none. In the line every LF has its CR if and only if the
sender's name is so. -/
theorem klogEmit_line (junk : Nat → UInt8) (rec : Draft) :
    (klogEmit junk rec).bytes = lineText rec ∧ (lineText rec).length ≤ 438
      ∧ 0 ∉ lineText rec ∧ (CrLf false (lineText rec) ↔ CrLf false rec.ns.bytes) :=
  ⟨klogEmit_text junk rec, lineText_length rec, zero_notMem_line rec, crLf_lineText rec⟩

end Alix.Log
