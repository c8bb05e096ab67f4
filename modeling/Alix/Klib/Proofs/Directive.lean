/-
Conversions as they are written in a format, and what the loop makes of
them.

A `Directive` is a conversion with its flags, width, precision and length
modifier. Its characters are parsed back to the variables of the source
(`parseSpec_chars`), whatever follows, so in a format it puts its own text
and takes its own arguments (`formatLoop_directive`). The numbers in it
are numerals of `decimal`.
-/
import Alix.Klib.Proofs.Kprintf
import Alix.Lib.Numeral

namespace Alix.Klib

variable {σ : Type} [Out σ]

-- ==== the digits

/-- The digit of a character, with letters of one case behind 9. -/
def digitValue (upper : Bool) (c : UInt8) : Option Nat :=
  let ten := if upper then chr 'A' else chr 'a'
  if chr '0' ≤ c ∧ c ≤ chr '9' then some (c.toNat - (chr '0').toNat)
  else if ten ≤ c ∧ c < ten + 6 then some (c.toNat - ten.toNat + 10)
  else none

/-- The digits of `buf_u64_to_tmp`, in a base. -/
def alphabet (upper : Bool) (base : Nat) (h : 2 ≤ base ∧ base ≤ 16) : Alphabet UInt8 where
  base := base
  two_le := h.1
  digit := fun d => (digitTable upper).getD d 0
  value := fun c => (digitValue upper c).filter (· < base)
  value_digit := by
    have htable : ∀ upper : Bool, ∀ d < 16,
        digitValue upper ((digitTable upper).getD d 0) = some d := by decide
    intro d hd
    rw [htable upper d (by omega), Option.filter_some, if_pos (decide_eq_true hd)]

/-- The numerals of widths and precisions. -/
def decimal : Alphabet UInt8 := alphabet false 10 (by decide)

/-- The loop stores all digits if there is room for them. -/
theorem u64Loop_eq (table : List UInt8) {base : Nat} (hbase : 2 ≤ base) {room val : Nat}
    (h : val < base ^ room) :
    u64Loop table base room val = (base.digits val).map fun d => table.getD d 0 := by
  induction room generalizing val with
  | zero =>
      obtain rfl : val = 0 := by simpa using h
      simp [u64Loop]
  | succ room ih =>
      rw [u64Loop]
      split
      · rename_i hval
        simp [hval]
      · rename_i hval
        rw [ih (Nat.div_lt_of_lt_mul (by rwa [pow_succ'] at h)),
          Nat.digits_def' hbase (Nat.pos_of_ne_zero hval), List.map_cons]

/-- What is printed of a number is its numeral. -/
theorem digitsText_eq {val base : Nat} (upper : Bool) (hval : val < 2 ^ 64) (hbase : 4 ≤ base)
    (hle : base ≤ 16) :
    digitsText val base upper = (alphabet upper base ⟨by omega, hle⟩).write val := by
  have hroom : val < base ^ 32 :=
    calc val < 2 ^ 64 := hval
      _ = 4 ^ 32 := by norm_num
      _ ≤ base ^ 32 := Nat.pow_le_pow_left hbase 32
  have hzero : chr '0' = (digitTable upper).getD 0 0 := by cases upper <;> rfl
  have hguard : ¬ (base < 2 ∨ base > 16 ∨ TMP_SIZE = 0) := by
    simp only [TMP_SIZE]
    omega
  rw [digitsText, bufU64ToTmp, if_neg hguard, Alphabet.write]
  split
  · rw [hzero]
    rfl
  · rw [u64Loop_eq _ (by omega) hroom]
    rfl

theorem decimal_value {c : UInt8} {d : Nat} (h : decimal.value c = some d) :
    (chr '0' ≤ c ∧ c ≤ chr '9') ∧ c.toNat - (chr '0').toNat = d := by
  obtain ⟨hvalue, hlt⟩ := Option.filter_eq_some_iff.mp h
  have hten : d < 10 := of_decide_eq_true hlt
  simp only [digitValue, Bool.false_eq_true, if_false] at hvalue
  split at hvalue
  · rename_i hdigit
    exact ⟨hdigit, Option.some.inj hvalue⟩
  · split at hvalue
    · have := Option.some.inj hvalue
      omega
    · cases hvalue

/-- The loop over digits reads a numeral that fits. -/
theorem numLoop_read {l rest : List UInt8} {n v : Nat} (h : decimal.readFrom n l = some v)
    (hv : v < 2 ^ 64) (hrest : ∀ c ∈ rest.head?, ¬ (chr '0' ≤ c ∧ c ≤ chr '9')) :
    numLoop (l ++ rest) n = (rest, v) := by
  induction l generalizing n with
  | nil =>
      obtain rfl := Option.some.inj h
      cases rest with
      | nil => rfl
      | cons c rest => exact if_neg (hrest c rfl)
  | cons c l ih =>
      obtain ⟨d, hd, hl⟩ := Option.bind_eq_some_iff.mp h
      obtain ⟨hdigit, hval⟩ := decimal_value hd
      have hfit : n * 10 + d < 2 ^ 64 :=
        Nat.lt_of_le_of_lt (Alphabet.le_of_readFrom hl) hv
      rw [List.cons_append, numLoop, if_pos hdigit, hval, Nat.mod_eq_of_lt hfit]
      exact ih hl

-- ==== the fuel

theorem flagLoop_suffix (fmt : List UInt8) (zeroPad leftAlign : Bool) :
    (flagLoop fmt zeroPad leftAlign).1 <:+ fmt := by
  induction fmt generalizing zeroPad leftAlign with
  | nil => exact List.suffix_refl _
  | cons c fmt ih =>
      rw [flagLoop]
      split
      · exact (ih _ _).trans (List.suffix_cons c fmt)
      · split
        · exact (ih _ _).trans (List.suffix_cons c fmt)
        · exact List.suffix_refl _

theorem numLoop_suffix (fmt : List UInt8) (n : Nat) : (numLoop fmt n).1 <:+ fmt := by
  induction fmt generalizing n with
  | nil => exact List.suffix_refl _
  | cons c fmt ih =>
      rw [numLoop]
      split
      · exact (ih _).trans (List.suffix_cons c fmt)
      · exact List.suffix_refl _

theorem parsePrecision_suffix (a : Args) (fmt : List UInt8) (ap : Nat) :
    (parsePrecision a fmt ap).1 <:+ fmt := by
  simp only [parsePrecision]
  split
  · split
    · exact (List.tail_suffix _).trans (List.tail_suffix fmt)
    · exact (numLoop_suffix _ 0).trans (List.tail_suffix fmt)
  · exact List.suffix_refl _

theorem parseModifier_suffix (fmt : List UInt8) : (parseModifier fmt).1 <:+ fmt := by
  rw [parseModifier]
  split
  · exact (List.tail_suffix _).trans (List.tail_suffix fmt)
  · split
    · exact List.tail_suffix fmt
    · exact List.suffix_refl _

/-- Parsing only goes forward. -/
theorem parseSpec_suffix (a : Args) (fmt : List UInt8) (ap : Nat) :
    (parseSpec a fmt ap).1 <:+ fmt :=
  (((parseModifier_suffix _).trans (parsePrecision_suffix a _ ap)).trans
    (numLoop_suffix _ 0)).trans (flagLoop_suffix fmt false false)

/-- A round for every character is enough. -/
theorem formatLoop_fuel (a : Args) {fuel : Nat} {fmt : List UInt8} (h : fmt.length ≤ fuel)
    (out : σ) (ap : Nat) :
    formatLoop a fuel fmt out ap = formatLoop a fmt.length fmt out ap := by
  induction hn : fmt.length using Nat.strong_induction_on generalizing fuel fmt out ap with
  | _ n ih =>
      cases fmt with
      | nil =>
          subst hn
          cases fuel <;> rfl
      | cons c fmt =>
          rw [List.length_cons] at hn h
          obtain ⟨fuel, rfl⟩ : ∃ k, fuel = k + 1 := ⟨fuel - 1, by omega⟩
          subst hn
          -- both sides go on with a shorter format
          have hrest : ∀ {fmt' : List UInt8}, fmt'.length ≤ fmt.length → ∀ (out : σ) ap,
              formatLoop a fuel fmt' out ap = formatLoop a fmt.length fmt' out ap := by
            intro fmt' hle out ap
            rw [ih fmt'.length (by omega) (by omega) out ap rfl,
              ih fmt'.length (by omega) hle out ap rfl]
          have htail : fmt.tail.length ≤ fmt.length := (List.tail_suffix fmt).length_le
          have hspec : (parseSpec a fmt ap).1.tail.length ≤ fmt.length :=
            ((List.tail_suffix _).trans (parseSpec_suffix a fmt ap)).length_le
          simp only [formatLoop, hrest (Nat.le_refl _), hrest htail, hrest hspec]

-- ==== a format

/-- The loop with as much fuel as the format needs. -/
def run (a : Args) (fmt : List UInt8) (out : σ) (ap : Nat) : σ × Nat :=
  formatLoop a fmt.length fmt out ap

@[simp] theorem run_nil (a : Args) (out : σ) (ap : Nat) : run a [] out ap = (out, ap) := rfl

theorem run_char (a : Args) {c : UInt8} (hc : c ≠ chr '%') (fmt : List UInt8) (out : σ)
    (ap : Nat) : run a (c :: fmt) out ap = run a fmt (Out.putc out c) ap :=
  if_pos hc

theorem run_percent (a : Args) (fmt : List UInt8) (out : σ) (ap : Nat) :
    run a (chr '%' :: chr '%' :: fmt) out ap = run a fmt (Out.putc out (chr '%')) ap :=
  formatLoop_fuel a (Nat.le_succ _) _ ap

/-- A conversion, parsed and done. -/
theorem run_convert (a : Args) {fmt : List UInt8} (hc : fmt.head? ≠ some (chr '%')) (out : σ)
    (ap : Nat) :
    run a (chr '%' :: fmt) out ap
      = run a (parseSpec a fmt ap).1.tail
          (convert a (parseSpec a fmt ap).2.2 (parseSpec a fmt ap).1.head? out
            (parseSpec a fmt ap).2.1).1
          (convert a (parseSpec a fmt ap).2.2 (parseSpec a fmt ap).1.head? out
            (parseSpec a fmt ap).2.1).2 := by
  have hle : (parseSpec a fmt ap).1.tail.length ≤ fmt.length :=
    ((List.tail_suffix _).trans (parseSpec_suffix a fmt ap)).length_le
  rw [run, run, ← formatLoop_fuel a hle, List.length_cons, formatLoop]
  rw [if_neg (not_not.mpr rfl), if_neg hc]

/-- The text of a format and the arguments it takes do not depend on what
is there. -/
theorem run_eq (a : Args) (fmt : List UInt8) (out : σ) (ap : Nat) :
    run a fmt out ap
      = (puts out (run a fmt ([] : List UInt8) ap).1, (run a fmt ([] : List UInt8) ap).2) :=
  formatLoop_eq a _ fmt out ap

-- ==== a directive

/-- The flags, each at most once. -/
inductive Flags where
  | none
  | zero
  | minus
  | zeroMinus
  | minusZero
deriving DecidableEq, Repr

namespace Flags

def chars : Flags → List UInt8
  | none => []
  | zero => [chr '0']
  | minus => [chr '-']
  | zeroMinus => [chr '0', chr '-']
  | minusZero => [chr '-', chr '0']

def leftAlign : Flags → Bool
  | none | zero => false
  | minus | zeroMinus | minusZero => true

def zeroPad : Flags → Bool
  | zero => true
  | none | minus | zeroMinus | minusZero => false

/-- What the loop over the flags leaves: behind a minus a zero is part of
the width. -/
def rest : Flags → List UInt8
  | minusZero => [chr '0']
  | none | zero | minus | zeroMinus => []

end Flags

/-- The characters of a width. -/
def widthChars (width : BitVec 64) : List UInt8 :=
  if width = 0 then [] else decimal.write width.toNat

/-- A precision. -/
inductive Precision where
  | none
  | digits (q : BitVec 64)
  | star
deriving DecidableEq, Repr

namespace Precision

def chars : Precision → List UInt8
  | none => []
  | digits q => chr '.' :: decimal.write q.toNat
  | star => [chr '.', chr '*']

/-- The arguments it takes. -/
def args : Precision → Nat
  | none | digits _ => 0
  | star => 1

/-- Its value; a negative argument counts as zero. -/
def value (a : Args) (ap : Nat) : Precision → Option Nat
  | none => Option.none
  | digits q => some q.toNat
  | star => some (a.int ap).toInt.toNat

end Precision

/-- The length modifiers that the source knows. -/
inductive Modifier where
  | none
  | ll
  | z
deriving DecidableEq, Repr

namespace Modifier

def chars : Modifier → List UInt8
  | none => []
  | ll => [chr 'l', chr 'l']
  | z => [chr 'z']

end Modifier

/-- The conversions. -/
inductive Conv where
  | d
  | i
  | u
  | x
  | X
  | o
  | p
  | c
  | s
deriving DecidableEq, Repr

namespace Conv

def char : Conv → UInt8
  | d => chr 'd'
  | i => chr 'i'
  | u => chr 'u'
  | x => chr 'x'
  | X => chr 'X'
  | o => chr 'o'
  | p => chr 'p'
  | c => chr 'c'
  | s => chr 's'

end Conv

/-- The text of a conversion. -/
def convText (a : Args) (spec : Spec) : Conv → Nat → List UInt8
  | .d, ap | .i, ap => intText a spec ap
  | .u, ap => uintText a spec ap 10 false
  | .x, ap => uintText a spec ap 16 false
  | .X, ap => uintText a spec ap 16 true
  | .o, ap => uintText a spec ap 8 false
  | .p, ap => ptrText a spec ap
  | .c, ap => charText a spec ap
  | .s, ap => strText a spec ap

/-- A conversion as it is written. -/
structure Directive where
  flags : Flags
  width : BitVec 64
  precision : Precision
  modifier : Modifier
  conv : Conv
deriving DecidableEq, Repr

namespace Directive

variable (d : Directive)

/-- The characters in front of the length modifier, the `%` apart. -/
def front : List UInt8 := d.flags.chars ++ widthChars d.width ++ d.precision.chars

/-- The characters. -/
def chars : List UInt8 := chr '%' :: (d.front ++ d.modifier.chars ++ [d.conv.char])

/-- The arguments it takes. -/
def args : Nat := d.precision.args + 1

/-- The variables of the source at its `switch`. -/
def spec (a : Args) (ap : Nat) : Spec where
  longLong := d.modifier = .ll
  sizeType := d.modifier = .z
  zeroPad := d.flags.zeroPad
  leftAlign := d.flags.leftAlign
  width := d.width.toNat
  precision := d.precision.value a ap

/-- Its text, with the arguments from `ap` on. -/
def text (a : Args) (ap : Nat) : List UInt8 :=
  convText a (d.spec a ap) d.conv (ap + d.precision.args)

end Directive

-- ==== parsing

/-- What begins with a letter, so that no flag, digit or precision does. -/
def Lettered (l : List UInt8) : Prop := ∃ c, l.head? = some c ∧ chr 'X' ≤ c

theorem Lettered.head_ne {l : List UInt8} (h : Lettered l) {c : UInt8} (hc : c < chr 'X') :
    l.head? ≠ some c := by
  obtain ⟨c', hhead, hle⟩ := h
  rw [hhead]
  intro heq
  obtain rfl := Option.some.inj heq
  exact absurd hc (UInt8.not_lt.mpr hle)

theorem Lettered.no_digit {l : List UInt8} (h : Lettered l) :
    ∀ c ∈ l.head?, ¬ (chr '0' ≤ c ∧ c ≤ chr '9') := by
  obtain ⟨c', hhead, hle⟩ := h
  rw [hhead]
  rintro c hc ⟨-, hnine⟩
  obtain rfl := Option.some.inj hc
  exact absurd (UInt8.le_trans hle hnine) (by decide)

theorem flagLoop_stop {fmt : List UInt8} {zeroPad leftAlign : Bool}
    (hminus : fmt.head? ≠ some (chr '-')) (hzero : leftAlign = true ∨ fmt.head? ≠ some (chr '0')) :
    flagLoop fmt zeroPad leftAlign = (fmt, zeroPad, leftAlign) := by
  cases fmt with
  | nil => rfl
  | cons c fmt =>
      have hm : c ≠ chr '-' := fun h => hminus (congrArg some h)
      have hz : ¬ (c = chr '0' ∧ leftAlign = false) := by
        rintro ⟨hc, hl⟩
        rcases hzero with h | h
        · rw [hl] at h
          cases h
        · exact h (congrArg some hc)
      rw [flagLoop, if_neg hm, if_neg hz]

theorem flagLoop_chars (f : Flags) {fmt : List UInt8} (hminus : fmt.head? ≠ some (chr '-'))
    (hzero : fmt.head? ≠ some (chr '0')) :
    flagLoop (f.chars ++ fmt) false false = (f.rest ++ fmt, f.zeroPad, f.leftAlign) := by
  cases f with
  | none => exact flagLoop_stop hminus (.inr hzero)
  | zero => exact flagLoop_stop hminus (.inr hzero)
  | minus => exact flagLoop_stop hminus (.inl rfl)
  | zeroMinus => exact flagLoop_stop hminus (.inl rfl)
  | minusZero =>
      have hne : (chr '0' :: fmt).head? ≠ some (chr '-') := by
        rw [List.head?_cons]
        decide
      exact flagLoop_stop hne (.inl rfl)

theorem head_decimal {n : Nat} (hn : n ≠ 0) :
    ∃ c, (decimal.write n).head? = some c ∧ c ≠ chr '0' ∧ chr '0' ≤ c ∧ c ≤ chr '9' := by
  obtain ⟨c, l, hl⟩ := List.exists_cons_of_ne_nil (decimal.write_ne_nil (n := n))
  have hhead : (decimal.write n).head? = some c := by rw [hl, List.head?_cons]
  obtain ⟨d, hd, rfl⟩ := Alphabet.mem_write (A := decimal) (n := n) (c := c) (by simp [hl])
  refine ⟨_, hhead, fun h => Alphabet.head_write hn (hhead.trans (congrArg some h)), ?_⟩
  exact (decimal_value (decimal.value_digit d hd)).1

theorem numLoop_width (f : Flags) (width : BitVec 64) {fmt : List UInt8}
    (hfmt : ∀ c ∈ fmt.head?, ¬ (chr '0' ≤ c ∧ c ≤ chr '9')) :
    numLoop (f.rest ++ (widthChars width ++ fmt)) 0 = (fmt, width.toNat) := by
  have hread : decimal.read (widthChars width) = some width.toNat := by
    unfold widthChars
    split
    · rename_i h
      simp [h, Alphabet.read, Alphabet.readFrom]
    · exact Alphabet.read_write _
  have hrest : decimal.read (f.rest ++ widthChars width) = some width.toNat := by
    cases f with
    | minusZero => exact (Alphabet.read_zeros 1 _).trans hread
    | none | zero | minus | zeroMinus => exact hread
  rw [← List.append_assoc]
  exact numLoop_read hrest width.isLt hfmt

theorem parsePrecision_chars (a : Args) (p : Precision) {fmt : List UInt8} (hfmt : Lettered fmt)
    (ap : Nat) :
    parsePrecision a (p.chars ++ fmt) ap = (fmt, ap + p.args, p.value a ap) := by
  cases p with
  | none => exact if_neg (hfmt.head_ne (by decide))
  | digits q =>
      have hdot : ((Precision.digits q).chars ++ fmt).head? = some (chr '.') := rfl
      have hstar : ((Precision.digits q).chars ++ fmt).tail.head? ≠ some (chr '*') := by
        show (decimal.write q.toNat ++ fmt).head? ≠ some (chr '*')
        obtain ⟨c, l, hl⟩ := List.exists_cons_of_ne_nil (decimal.write_ne_nil (n := q.toNat))
        obtain ⟨d, hd, rfl⟩ := Alphabet.mem_write (A := decimal) (n := q.toNat) (c := c)
          (by simp [hl])
        have hdigit := (decimal_value (decimal.value_digit d hd)).1.1
        rw [hl, List.cons_append, List.head?_cons]
        intro h
        rw [Option.some.inj h] at hdigit
        exact absurd hdigit (by decide)
      have hnum : numLoop ((Precision.digits q).chars ++ fmt).tail 0 = (fmt, q.toNat) :=
        numLoop_read (decimal.read_write q.toNat) q.isLt hfmt.no_digit
      simp only [parsePrecision, hdot, hstar, hnum, if_true, if_false]
      rfl
  | star =>
      have hneg : ∀ p : Int, (if p < 0 then 0 else p.toNat) = p.toNat := by
        intro p
        split
        · omega
        · rfl
      simp [parsePrecision, Precision.chars, Precision.args, Precision.value, hneg]

/-- `parseModifier`, in front of a conversion. -/
theorem parseModifier_chars (m : Modifier) (conv : Conv) (fmt : List UInt8) :
    parseModifier (m.chars ++ conv.char :: fmt)
      = (conv.char :: fmt, decide (m = .ll), decide (m = .z)) := by
  cases m with
  | none =>
      have hl : (conv.char :: fmt).head? ≠ some (chr 'l') := by
        rw [List.head?_cons]
        cases conv <;> decide
      have hz : (conv.char :: fmt).head? ≠ some (chr 'z') := by
        rw [List.head?_cons]
        cases conv <;> decide
      exact (if_neg fun h => hl h.1).trans (if_neg hz)
  | ll => rfl
  | z => rfl

theorem parseModifier_j (fmt : List UInt8) :
    parseModifier (chr 'j' :: fmt) = (chr 'j' :: fmt, false, false) := rfl

/-- Behind the width comes a point or a letter. -/
theorem precision_next (p : Precision) {fmt : List UInt8} (hfmt : Lettered fmt) :
    (p.chars ++ fmt).head? = some (chr '.') ∨ Lettered (p.chars ++ fmt) := by
  cases p with
  | none => exact .inr hfmt
  | digits q => exact .inl rfl
  | star => exact .inl rfl

theorem precision_no_digit (p : Precision) {fmt : List UInt8} (hfmt : Lettered fmt) :
    ∀ c ∈ (p.chars ++ fmt).head?, ¬ (chr '0' ≤ c ∧ c ≤ chr '9') := by
  rcases precision_next p hfmt with h | h
  · rw [h]
    intro c hc
    obtain rfl := Option.some.inj hc
    decide
  · exact h.no_digit

/-- Behind the flags comes no zero, and no other sign than a digit, a point
or a letter. -/
theorem width_next (width : BitVec 64) (p : Precision) {fmt : List UInt8} (hfmt : Lettered fmt)
    {c : UInt8} (hpoint : c ≠ chr '.') (hlt : c < chr 'X')
    (hc : c = chr '0' ∨ ¬ (chr '0' ≤ c ∧ c ≤ chr '9')) :
    (widthChars width ++ (p.chars ++ fmt)).head? ≠ some c := by
  unfold widthChars
  split
  · rcases precision_next p hfmt with h | h
    · rw [List.nil_append, h]
      exact fun heq => hpoint (Option.some.inj heq).symm
    · exact h.head_ne hlt
  · rename_i hzero
    obtain ⟨c', hhead, hne, hin⟩ := head_decimal (n := width.toNat)
      (fun h => hzero (BitVec.eq_of_toNat_eq h))
    rw [List.head?_append, hhead, Option.some_or]
    intro heq
    obtain rfl := Option.some.inj heq
    exact hc.elim hne fun hout => hout hin

/-- Up to the length modifier a directive is parsed to its own values. -/
theorem parseSpec_front (a : Args) (d : Directive) {fmt : List UInt8} (hfmt : Lettered fmt)
    (ap : Nat) :
    parseSpec a (d.front ++ fmt) ap
      = ((parseModifier fmt).1, ap + d.precision.args,
        { longLong := (parseModifier fmt).2.1
          sizeType := (parseModifier fmt).2.2
          zeroPad := d.flags.zeroPad
          leftAlign := d.flags.leftAlign
          width := d.width.toNat
          precision := d.precision.value a ap }) := by
  have hflags := flagLoop_chars d.flags
    (width_next d.width d.precision hfmt (c := chr '-') (by decide) (by decide) (by decide))
    (width_next d.width d.precision hfmt (c := chr '0') (by decide) (by decide) (by decide))
  simp only [parseSpec, Directive.front, List.append_assoc, hflags,
    numLoop_width _ _ (precision_no_digit d.precision hfmt), parsePrecision_chars a d.precision hfmt]

theorem front_ne_percent (d : Directive) {fmt : List UInt8} (hfmt : Lettered fmt) :
    (d.front ++ fmt).head? ≠ some (chr '%') := by
  rw [Directive.front, List.append_assoc, List.append_assoc]
  cases d.flags with
  | none =>
      exact width_next d.width d.precision hfmt (by decide) (by decide) (by decide)
  | zero | minus | zeroMinus | minusZero =>
      rw [Flags.chars, List.cons_append, List.head?_cons]
      decide

theorem lettered_char (m : Modifier) (conv : Conv) (fmt : List UInt8) :
    Lettered (m.chars ++ conv.char :: fmt) := by
  cases m with
  | none =>
      refine ⟨conv.char, rfl, ?_⟩
      cases conv <;> decide
  | ll => exact ⟨chr 'l', rfl, by decide⟩
  | z => exact ⟨chr 'z', rfl, by decide⟩

/-- A directive is parsed to its own values, whatever follows. -/
theorem parseSpec_chars (a : Args) (d : Directive) (rest : List UInt8) (ap : Nat) :
    parseSpec a (d.front ++ (d.modifier.chars ++ d.conv.char :: rest)) ap
      = (d.conv.char :: rest, ap + d.precision.args, d.spec a ap) := by
  rw [parseSpec_front a d (lettered_char d.modifier d.conv rest), parseModifier_chars]
  rfl

-- ==== the output

theorem convert_conv (a : Args) (spec : Spec) (conv : Conv) (out : σ) (ap : Nat) :
    convert a spec (some conv.char) out ap = (puts out (convText a spec conv ap), ap + 1) := by
  cases conv with
  | d => exact Prod.ext (convertInt_eq a spec out ap) rfl
  | i => exact Prod.ext (convertInt_eq a spec out ap) rfl
  | u => exact Prod.ext (convertUint_eq a spec out ap 10 false) rfl
  | x => exact Prod.ext (convertUint_eq a spec out ap 16 false) rfl
  | X => exact Prod.ext (convertUint_eq a spec out ap 16 true) rfl
  | o => exact Prod.ext (convertUint_eq a spec out ap 8 false) rfl
  | p => exact Prod.ext (convertPtr_eq a spec out ap) rfl
  | c => exact Prod.ext (convertChar_eq a spec out ap) rfl
  | s => exact Prod.ext (convertStr_eq a spec out ap) rfl

/-- In a format a directive puts its text and takes its arguments. -/
theorem run_directive (a : Args) (d : Directive) (rest : List UInt8) (out : σ) (ap : Nat) :
    run a (d.chars ++ rest) out ap = run a rest (puts out (d.text a ap)) (ap + d.args) := by
  have hchars : d.chars ++ rest
      = chr '%' :: (d.front ++ (d.modifier.chars ++ d.conv.char :: rest)) := by
    simp [Directive.chars]
  rw [hchars, run_convert a (front_ne_percent d (lettered_char d.modifier d.conv rest)),
    parseSpec_chars]
  simp only [List.head?_cons, List.tail_cons, convert_conv]
  rfl

/-- Alone it is what is printed. -/
theorem textOf_directive (a : Args) (d : Directive) : textOf a (some d.chars) = d.text a 0 := by
  have h := run_directive a d [] ([] : List UInt8) 0
  rw [List.append_nil, run_nil, puts_list, List.nil_append] at h
  exact congrArg Prod.fst h

end Alix.Klib
