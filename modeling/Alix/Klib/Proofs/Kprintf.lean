/-
What the formatter prints, and what of it a buffer gets.

# Texts

Each helper puts a text that does not depend on where it goes
(`bufPutuBase_eq`, `bufPuti_eq`, `convert_eq`), so the loop does too
(`formatLoop_eq`): a buffer gets the text that a list gets.

# A buffer

While the position does not wrap, the characters land where they are
counted, in front of the last place (`Buf.puts_mem`). That is the law of
truncation, and it holds up to texts of 2^64 characters and not beyond:
the position that comes round to the last number stores out of bounds,
because one more is zero (`truncates_iff`).
-/
import Alix.Klib.Kprintf
import Mathlib.Data.List.Basic

namespace Alix.Klib

variable {σ : Type} [Out σ] {out : σ}

-- ==== the statement

/-- The text that a buffer without end gets. -/
def textOf (a : Args) (fmt : Option (List UInt8)) : List UInt8 :=
  (formatLoop a (fmt.getD []).length (fmt.getD []) ([] : List UInt8) 0).1

/-- A buffer gets as much of the text as it has room for, and a NUL, and
nothing is stored outside of it. -/
structure Truncates (a : Args) (fmt : Option (List UInt8)) (bufsz : Nat) : Prop where
  inside : ∀ mem i, bufsz ≤ i → (kvsnprintf a mem bufsz fmt).1 i = mem i
  text : ∀ mem i, i < min (textOf a fmt).length (bufsz - 1) →
    (kvsnprintf a mem bufsz fmt).1 i = (textOf a fmt).getD i 0
  nul : ∀ mem, (kvsnprintf a mem bufsz fmt).1 (min (textOf a fmt).length (bufsz - 1)) = 0

-- ==== the texts

/-- The characters of a text, one after the other. -/
def puts (out : σ) (text : List UInt8) : σ := text.foldl Out.putc out

@[simp] theorem puts_nil : puts out [] = out := rfl

@[simp] theorem puts_cons (c : UInt8) (l : List UInt8) :
    puts out (c :: l) = puts (Out.putc out c) l := rfl

theorem puts_append (l l' : List UInt8) : puts out (l ++ l') = puts (puts out l) l' :=
  List.foldl_append

/-- A list gets the text as it is. -/
@[simp] theorem puts_list (t l : List UInt8) : puts t l = t ++ l := by
  induction l generalizing t with
  | nil => simp
  | cons c l ih =>
      rw [puts_cons, ih]
      simp [Out.putc]

theorem bufPutRepeat_eq (out : σ) (c : UInt8) (count : Nat) :
    bufPutRepeat out c count = puts out (List.replicate count c) := by
  induction count generalizing out with
  | zero => rfl
  | succ count ih => simp [bufPutRepeat, ih, List.replicate_succ]

theorem bufPutWidth_eq (out : σ) (width len : Nat) (pad : UInt8) :
    bufPutWidth out width len pad = puts out (List.replicate (width - len) pad) := by
  unfold bufPutWidth
  split
  · exact bufPutRepeat_eq out pad _
  · rename_i h
    rw [Nat.sub_eq_zero_of_le (Nat.le_of_not_lt h)]
    rfl

theorem putTmp_eq (out : σ) (tmp : List UInt8) {n : Nat} (h : n ≤ tmp.length) :
    putTmp out tmp n = puts out (tmp.take n).reverse := by
  induction n generalizing out with
  | zero => rfl
  | succ n ih =>
      have hget : tmp.getD n 0 = tmp[n] := (List.getElem_eq_getD 0).symm
      rw [putTmp, ih _ (by omega), hget, List.take_succ_eq_append_getElem h, List.reverse_append]
      rfl

/-- The digits of a number, the most significant first. -/
def digitsText (val base : Nat) (upper : Bool) : List UInt8 :=
  (bufU64ToTmp TMP_SIZE val base upper).reverse

/-- The text of `buf_putu_base`. -/
def putuText (val base : Nat) (upper : Bool) (width : Nat) (zeroPad leftAlign : Bool) :
    List UInt8 :=
  let ds := digitsText val base upper
  let room := width - ds.length
  if ds = [] then []
  else if leftAlign then ds ++ List.replicate room (chr ' ')
  else List.replicate room (if zeroPad then chr '0' else chr ' ') ++ ds

theorem bufPutuBase_eq (out : σ) (val base : Nat) (upper : Bool) (width : Nat)
    (zeroPad leftAlign : Bool) :
    bufPutuBase out val base upper width zeroPad leftAlign
      = puts out (putuText val base upper width zeroPad leftAlign) := by
  simp only [bufPutuBase, putuText, digitsText, bufPutWidth_eq, putTmp_eq _ _ (Nat.le_refl _),
    List.take_length, List.reverse_eq_nil_iff, List.length_eq_zero_iff, List.length_reverse]
  split
  · rfl
  · cases leftAlign <;> simp [puts_append]

/-- The text of `buf_puti`. -/
def putiText (val : BitVec 64) (width : Nat) (zeroPad leftAlign : Bool) : List UInt8 :=
  let sign := if val.slt 0 then [chr '-'] else []
  let ds := digitsText (if val.slt 0 then -(val + 1) + 1 else val).toNat 10 false
  let room := width - (sign.length + ds.length)
  if ds = [] then []
  else if leftAlign then sign ++ ds ++ List.replicate room (chr ' ')
  else if zeroPad then sign ++ List.replicate room (chr '0') ++ ds
  else List.replicate room (chr ' ') ++ sign ++ ds

theorem bufPuti_eq (out : σ) (val : BitVec 64) (width : Nat) (zeroPad leftAlign : Bool) :
    bufPuti out val width zeroPad leftAlign
      = puts out (putiText val width zeroPad leftAlign) := by
  have hpad : ∀ (out : σ) (c : UInt8) (len : Nat),
      (if width > len then bufPutRepeat out c (width - len) else out)
        = puts out (List.replicate (width - len) c) := fun out c len => bufPutWidth_eq out width len c
  simp only [bufPuti, putiText, digitsText, hpad, putTmp_eq _ _ (Nat.le_refl _),
    List.take_length, List.reverse_eq_nil_iff, List.length_eq_zero_iff, List.length_reverse]
  generalize bufU64ToTmp TMP_SIZE (if val.slt 0 then -(val + 1) + 1 else val).toNat 10 false = tmp
  generalize val.slt 0 = negative
  by_cases htmp : tmp = []
  · simp [htmp]
  · cases leftAlign <;> cases zeroPad <;> cases negative <;>
      simp [htmp, puts_append, Nat.add_comm 1]

-- ==== the conversions

/-- What `padFor` puts. -/
def padText (spec : Spec) (len : Nat) (left : Bool) : List UInt8 :=
  if spec.leftAlign = left then List.replicate (spec.width - len) (chr ' ') else []

theorem padFor_eq (out : σ) (spec : Spec) (len : Nat) (left : Bool) :
    padFor out spec len left = puts out (padText spec len left) := by
  unfold padFor padText
  split
  · exact bufPutWidth_eq ..
  · rfl

/-- The length that `%s` counts on. -/
def strLen (spec : Spec) (s : Option (List UInt8)) : Nat :=
  match spec.precision with
  | some precision => if precision < bufStrlen s then precision else bufStrlen s
  | none => bufStrlen s

def strText (a : Args) (spec : Spec) (ap : Nat) : List UInt8 :=
  let len := strLen spec (a.string ap)
  let body :=
    match a.string ap with
    | none => chars "(null)"
    | some s => s.take len
  padText spec len false ++ body ++ padText spec len true

def charText (a : Args) (spec : Spec) (ap : Nat) : List UInt8 :=
  padText spec 1 false ++ [UInt8.ofBitVec ((a.int ap).setWidth 8)] ++ padText spec 1 true

def ptrText (a : Args) (spec : Spec) (ap : Nat) : List UInt8 :=
  padText spec 2 false
    ++ (chars "0x" ++ putuText (a.slot ap).toNat 16 false 0 false spec.leftAlign)
    ++ padText spec 2 true

/-- The number of `case 'd'` and `case 'i'`. -/
def intArg (a : Args) (spec : Spec) (ap : Nat) : BitVec 64 :=
  if spec.longLong then a.slot ap
  else if spec.sizeType then a.slot ap
  else (a.int ap).signExtend 64

/-- The number of the unsigned conversions. -/
def uintArg (a : Args) (spec : Spec) (ap : Nat) : BitVec 64 :=
  if spec.longLong then a.slot ap
  else if spec.sizeType then a.slot ap
  else (a.int ap).setWidth 64

def intText (a : Args) (spec : Spec) (ap : Nat) : List UInt8 :=
  putiText (intArg a spec ap) spec.width spec.zeroPad spec.leftAlign

def uintText (a : Args) (spec : Spec) (ap base : Nat) (upper : Bool) : List UInt8 :=
  putuText (uintArg a spec ap).toNat base upper spec.width spec.zeroPad spec.leftAlign

theorem convertStr_eq (a : Args) (spec : Spec) (out : σ) (ap : Nat) :
    convertStr a spec out ap = puts out (strText a spec ap) := by
  simp only [convertStr, strText, padFor_eq, puts_append]
  cases a.string ap <;> rfl

theorem convertChar_eq (a : Args) (spec : Spec) (out : σ) (ap : Nat) :
    convertChar a spec out ap = puts out (charText a spec ap) := by
  simp [convertChar, charText, padFor_eq, puts_append]

theorem convertPtr_eq (a : Args) (spec : Spec) (out : σ) (ap : Nat) :
    convertPtr a spec out ap = puts out (ptrText a spec ap) := by
  simp only [convertPtr, ptrText, padFor_eq, puts_append, bufPutuBase_eq]
  rfl

theorem convertInt_eq (a : Args) (spec : Spec) (out : σ) (ap : Nat) :
    convertInt a spec out ap = puts out (intText a spec ap) :=
  bufPuti_eq ..

theorem convertUint_eq (a : Args) (spec : Spec) (out : σ) (ap base : Nat) (upper : Bool) :
    convertUint a spec out ap base upper = puts out (uintText a spec ap base upper) :=
  bufPutuBase_eq ..

/-- A conversion puts its text, whatever is there, and takes its arguments. -/
theorem convert_eq (a : Args) (spec : Spec) (c : Option UInt8) (out : σ) (ap : Nat) :
    convert a spec c out ap
      = (puts out (convert a spec c ([] : List UInt8) ap).1,
        (convert a spec c ([] : List UInt8) ap).2) := by
  simp only [convert, convertStr_eq, convertChar_eq, convertPtr_eq, convertInt_eq,
    convertUint_eq, puts_list, List.nil_append]
  repeat' split
  all_goals rfl

/-- The loop puts one text and takes the same arguments, whatever is there. -/
theorem formatLoop_eq (a : Args) (fuel : Nat) {σ : Type} [Out σ] (fmt : List UInt8) (out : σ)
    (ap : Nat) :
    formatLoop a fuel fmt out ap
      = (puts out (formatLoop a fuel fmt ([] : List UInt8) ap).1,
        (formatLoop a fuel fmt ([] : List UInt8) ap).2) := by
  induction fuel generalizing σ fmt ap with
  | zero => rfl
  | succ fuel ih =>
      cases fmt with
      | nil => rfl
      | cons c fmt =>
          simp only [formatLoop]
          split
          · rw [ih, ih fmt (Out.putc ([] : List UInt8) c), puts_list]
            exact Prod.ext (puts_append [c] _).symm rfl
          · split
            · rw [ih, ih _ (Out.putc ([] : List UInt8) (chr '%')), puts_list]
              exact Prod.ext (puts_append [chr '%'] _).symm rfl
            · rw [ih, convert_eq a _ _ out, ih _ (convert a _ _ ([] : List UInt8) _).1, puts_list]
              exact Prod.ext (puts_append _ _).symm rfl

-- ==== a buffer

variable {b : Buf} {l : List UInt8}

theorem Buf.puts_bufsz (b : Buf) (l : List UInt8) : (puts b l).bufsz = b.bufsz := by
  induction l generalizing b with
  | nil => rfl
  | cons c l ih => exact ih (Out.putc b c)

theorem Buf.puts_pos (b : Buf) (l : List UInt8) (h : b.pos < 2 ^ 64) :
    (puts b l).pos = (b.pos + l.length) % 2 ^ 64 := by
  induction l generalizing b with
  | nil => exact (Nat.mod_eq_of_lt h).symm
  | cons c l ih =>
      rw [puts_cons, ih _ (Nat.mod_lt _ (by decide))]
      simp only [Out.putc, Buf.putc, List.length_cons]
      omega

theorem Buf.puts_pos_zero (mem : Nat → UInt8) (bufsz : Nat) (l : List UInt8) :
    (puts (⟨mem, bufsz, 0⟩ : Buf) l).pos = l.length % 2 ^ 64 := by
  rw [Buf.puts_pos _ _ (show 0 < 2 ^ 64 by decide)]
  simp

/-- While the position does not wrap, each character lands where it is
counted, if that is in front of the last place. -/
theorem Buf.puts_mem (b : Buf) (l : List UInt8) (h : b.pos + l.length < 2 ^ 64) (i : Nat) :
    (puts b l).mem i
      = if b.pos ≤ i ∧ i < b.pos + l.length ∧ i + 1 < b.bufsz then l.getD (i - b.pos) 0
        else b.mem i := by
  induction l generalizing b with
  | nil =>
      rw [if_neg (by simp only [List.length_nil]; omega)]
      rfl
  | cons c l ih =>
      rw [List.length_cons] at h
      have hpos : (b.pos + 1) % 2 ^ 64 = b.pos + 1 := Nat.mod_eq_of_lt (by omega)
      rw [puts_cons, ih (Out.putc b c) (by simp only [Out.putc, Buf.putc, hpos]; omega)]
      simp only [Out.putc, Buf.putc, hpos, List.length_cons]
      by_cases hi : i = b.pos
      · subst hi
        rw [if_neg (by omega)]
        by_cases hroom : b.pos + 1 < b.bufsz
        · rw [if_pos hroom, if_pos (by omega), Function.update_self, Nat.sub_self]
          rfl
        · rw [if_neg hroom, if_neg (by omega)]
      · have hmem : (if b.pos + 1 < b.bufsz then Function.update b.mem b.pos c else b.mem) i
            = b.mem i := by
          split
          · exact Function.update_of_ne hi _ _
          · rfl
        rw [hmem]
        by_cases hin : b.pos ≤ i ∧ i < b.pos + (l.length + 1) ∧ i + 1 < b.bufsz
        · rw [if_pos hin, if_pos (by omega), show i - b.pos = i - (b.pos + 1) + 1 by omega]
          rfl
        · rw [if_neg hin, if_neg (by omega)]

/-- Buffers that differ in one place of the memory stay so. -/
theorem Buf.puts_update (b : Buf) (k : Nat) (x : UInt8) (l : List UInt8) :
    ∃ y, puts { b with mem := Function.update b.mem k x } l
      = { puts b l with mem := Function.update (puts b l).mem k y } := by
  induction l generalizing b x with
  | nil => exact ⟨x, rfl⟩
  | cons c l ih =>
      have hstep : ∃ y, Out.putc { b with mem := Function.update b.mem k x } c
          = { Out.putc b c with mem := Function.update (Out.putc b c).mem k y } := by
        simp only [Out.putc, Buf.putc]
        split
        · by_cases hk : b.pos = k
          · exact ⟨c, by simp [hk]⟩
          · exact ⟨x, by rw [Function.update_comm (Ne.symm hk)]⟩
        · exact ⟨x, rfl⟩
      obtain ⟨y, hy⟩ := hstep
      rw [puts_cons, hy]
      exact ih (Out.putc b c) y

-- ==== truncation

/-- The formatter puts the text and ends it. -/
theorem kvsnprintf_eq (a : Args) (mem : Nat → UInt8) {bufsz : Nat} (hpos : 0 < bufsz)
    (fmt : Option (List UInt8)) :
    kvsnprintf a mem bufsz fmt
      = let buf := puts (⟨mem, bufsz, 0⟩ : Buf) (textOf a fmt)
        (Function.update buf.mem (min buf.pos (bufsz - 1)) 0, (BitVec.ofNat 32 buf.pos).toInt) := by
  rw [kvsnprintf, if_neg (by omega)]
  simp only [formatLoop_eq a _ _ (⟨mem, bufsz, 0⟩ : Buf)]
  refine Prod.ext ?_ rfl
  simp only [textOf]
  split
  · rw [Nat.min_eq_right (by omega)]
  · rw [Nat.min_eq_left (by omega)]

/-- What is written does not depend on what was in the last place of the
address space, once the position has come there. -/
theorem puts_wrapped (mem : Nat → UInt8) {bufsz : Nat} (hpos : 0 < bufsz) {text : List UInt8}
    (hlong : 2 ^ 64 ≤ text.length) (x : UInt8) :
    puts (⟨Function.update mem (2 ^ 64 - 1) x, bufsz, 0⟩ : Buf) text
      = puts (⟨mem, bufsz, 0⟩ : Buf) text := by
  obtain ⟨pre, c, post, rfl, hpre⟩ : ∃ pre c post, text = pre ++ c :: post
      ∧ pre.length = 2 ^ 64 - 1 :=
    ⟨text.take (2 ^ 64 - 1), text[2 ^ 64 - 1], text.drop (2 ^ 64 - 1 + 1), by
      rw [← List.drop_eq_getElem_cons, List.take_append_drop], by
      rw [List.length_take]; omega⟩
  obtain ⟨y, hy⟩ := Buf.puts_update ⟨mem, bufsz, 0⟩ (2 ^ 64 - 1) x pre
  -- the position is the last number here, and one more is zero
  have hlast : (puts (⟨mem, bufsz, 0⟩ : Buf) pre).pos = 2 ^ 64 - 1 := by
    rw [Buf.puts_pos_zero, hpre, Nat.mod_eq_of_lt (by omega)]
  have hsize : (puts (⟨mem, bufsz, 0⟩ : Buf) pre).bufsz = bufsz := Buf.puts_bufsz _ _
  rw [puts_append, puts_append, puts_cons, puts_cons, hy]
  congr 1
  simp only [Out.putc, Buf.putc, hlast, hsize]
  rw [if_pos (by omega), if_pos (by omega), Function.update_idem]

/-- A buffer gets the front of the text and the NUL, and nothing outside of
it is touched, if and only if the text is shorter than 2^64; what is
returned is its length, below 2^31. -/
theorem truncates_iff (a : Args) (fmt : Option (List UInt8)) (bufsz : Nat) (hpos : 0 < bufsz)
    (hsize : bufsz < 2 ^ 64) :
    (Truncates a fmt bufsz ↔ (textOf a fmt).length < 2 ^ 64)
      ∧ ((textOf a fmt).length < 2 ^ 31 →
        ∀ mem, (kvsnprintf a mem bufsz fmt).2 = (textOf a fmt).length) := by
  constructor
  · constructor
    · intro h
      by_contra hlong
      have hsame : ∀ x, (kvsnprintf a (Function.update (fun _ => 0) (2 ^ 64 - 1) x) bufsz fmt).1
          = (kvsnprintf a (fun _ => 0) bufsz fmt).1 := by
        intro x
        rw [kvsnprintf_eq a _ hpos, kvsnprintf_eq a _ hpos, puts_wrapped _ hpos (by omega)]
      have h1 := h.inside (Function.update (fun _ => 0) (2 ^ 64 - 1) 1) (2 ^ 64 - 1) (by omega)
      have h0 := h.inside (fun _ => 0) (2 ^ 64 - 1) (by omega)
      rw [hsame, h0, Function.update_self] at h1
      exact absurd h1 (by decide)
    · intro hshort
      have hrun : ∀ mem i, (kvsnprintf a mem bufsz fmt).1 i
          = if i = min (textOf a fmt).length (bufsz - 1) then 0
            else if i < (textOf a fmt).length ∧ i + 1 < bufsz then (textOf a fmt).getD i 0
            else mem i := by
        intro mem i
        rw [kvsnprintf_eq a mem hpos]
        simp only [Buf.puts_pos_zero, Nat.mod_eq_of_lt hshort, Function.update_apply]
        rw [Buf.puts_mem _ _ (by simpa using hshort)]
        simp
      constructor
      · intro mem i hi
        rw [hrun, if_neg (by omega), if_neg (by omega)]
      · intro mem i hi
        rw [hrun, if_neg (by omega), if_pos (by omega)]
      · intro mem
        rw [hrun, if_pos rfl]
  · intro hshort mem
    rw [kvsnprintf_eq a mem hpos]
    simp only [Buf.puts_pos_zero]
    have hnat : (BitVec.ofNat 32 (textOf a fmt).length).toNat = (textOf a fmt).length := by
      rw [BitVec.toNat_ofNat, Nat.mod_eq_of_lt (by omega)]
    rw [Nat.mod_eq_of_lt (by omega), BitVec.toInt_eq_toNat_of_lt (by omega), hnat]

/-- An argument list of one number. -/
def oneArg (n : BitVec 64) : Args := ⟨fun _ => n, fun _ => []⟩

theorem truncates_iff_hello : Truncates (oneArg 3) (some (chars "hello %d")) 5
    ∧ ∀ mem, (kvsnprintf (oneArg 3) mem 5 (some (chars "hello %d"))).2
      = (textOf (oneArg 3) (some (chars "hello %d"))).length := by
  obtain ⟨hiff, hret⟩ :=
    truncates_iff (oneArg 3) (some (chars "hello %d")) 5 (by decide) (by decide)
  exact ⟨hiff.mpr (by decide), hret (by decide)⟩

end Alix.Klib
