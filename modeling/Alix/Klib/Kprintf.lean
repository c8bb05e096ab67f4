/-
The formatter, `kvsnprintf` of `lib/kprintf.c`, with its helpers.

`buf`, `bufsz` and `pos` of the source are one value, `out`, and what is
done to it is `putc`. For a `Buf` that is `buf_putc`. For a list it puts
the character behind the others, so the list is the text that a buffer
without end would get. Every helper is written once for both (`Out`).

A string is the list of its bytes in front of the NUL, and where the format
is at its end the list is empty. Each argument has a slot of 64 bits, of
which an `int` has the low half, and `ap` is the number of the next slot.
No string lies in the buffer. Counters are `size_t`: numbers below 2^64,
and where one could wrap, it does.
-/
import Mathlib.Data.BitVec
import Mathlib.Logic.Function.Basic

namespace Alix.Klib

/-- A character of the source. -/
def chr (c : Char) : UInt8 := c.toUInt8

/-- A string literal. -/
def chars (s : String) : List UInt8 := s.toList.map chr

-- ==== the output

/-- Where the characters go. -/
class Out (σ : Type) where
  putc : σ → UInt8 → σ

/-- `buf` with its size, and the position. -/
structure Buf where
  mem : Nat → UInt8
  bufsz : Nat
  pos : Nat

/-- `buf_putc`. -/
def Buf.putc (b : Buf) (c : UInt8) : Buf :=
  { b with
    mem := if (b.pos + 1) % 2 ^ 64 < b.bufsz then Function.update b.mem b.pos c else b.mem
    pos := (b.pos + 1) % 2 ^ 64 }

instance : Out Buf := ⟨Buf.putc⟩

instance : Out (List UInt8) := ⟨fun text c => text ++ [c]⟩

variable {σ : Type} [Out σ]

/-- `buf_put_repeat`. -/
def bufPutRepeat (out : σ) (c : UInt8) : Nat → σ
  | 0 => out
  | count + 1 => bufPutRepeat (Out.putc out c) c count

/-- `buf_puts`; NULL is `none`. -/
def bufPuts (out : σ) (s : Option (List UInt8)) : σ :=
  (s.getD (chars "(null)")).foldl Out.putc out

/-- `buf_strlen`. -/
def bufStrlen : Option (List UInt8) → Nat
  | none => 6
  | some s => s.length

/-- `buf_put_width`. -/
def bufPutWidth (out : σ) (width len : Nat) (pad : UInt8) : σ :=
  if width > len then bufPutRepeat out pad (width - len) else out

-- ==== numbers

/-- `digits` of `buf_u64_to_tmp`. -/
def digitTable (upper : Bool) : List UInt8 :=
  if upper then chars "0123456789ABCDEF" else chars "0123456789abcdef"

/-- The loop of `buf_u64_to_tmp`: what it stores, while there is room. -/
def u64Loop (digits : List UInt8) (base : Nat) : Nat → Nat → List UInt8
  | 0, _ => []
  | room + 1, val =>
      if val = 0 then [] else digits.getD (val % base) 0 :: u64Loop digits base room (val / base)

/-- `buf_u64_to_tmp`: `tmp` as far as it is filled. -/
def bufU64ToTmp (tmpsz val base : Nat) (upper : Bool) : List UInt8 :=
  if base < 2 ∨ base > 16 ∨ tmpsz = 0 then []
  else if val = 0 then [chr '0']
  else u64Loop (digitTable upper) base tmpsz val

/-- `sizeof(tmp)`. -/
abbrev TMP_SIZE : Nat := 32

/-- The loop that prints `tmp` from its end. -/
def putTmp (out : σ) (tmp : List UInt8) : Nat → σ
  | 0 => out
  | n + 1 => putTmp (Out.putc out (tmp.getD n 0)) tmp n

/-- `buf_putu_base`. -/
def bufPutuBase (out : σ) (val base : Nat) (upper : Bool) (width : Nat)
    (zeroPad leftAlign : Bool) : σ :=
  let tmp := bufU64ToTmp TMP_SIZE val base upper
  let len := tmp.length
  let pad := if zeroPad then chr '0' else chr ' '
  if len = 0 then out
  else
    let out := if !leftAlign then bufPutWidth out width len pad else out
    let out := putTmp out tmp len
    if leftAlign then bufPutWidth out width len (chr ' ') else out

/-- `buf_puti`. -/
def bufPuti (out : σ) (val : BitVec 64) (width : Nat) (zeroPad leftAlign : Bool) : σ :=
  let negative := val.slt 0
  let uval := if negative then -(val + 1) + 1 else val
  let tmp := bufU64ToTmp TMP_SIZE uval.toNat 10 false
  let digits := tmp.length
  if digits = 0 then out
  else
    let len := digits + if negative then 1 else 0
    if leftAlign then
      let out := if negative then Out.putc out (chr '-') else out
      let out := putTmp out tmp digits
      if width > len then bufPutRepeat out (chr ' ') (width - len) else out
    else
      let out :=
        if zeroPad then
          if negative then
            let out := Out.putc out (chr '-')
            if width > len then bufPutRepeat out (chr '0') (width - len) else out
          else if width > digits then bufPutRepeat out (chr '0') (width - digits)
          else out
        else
          let out := if width > len then bufPutRepeat out (chr ' ') (width - len) else out
          if negative then Out.putc out (chr '-') else out
      putTmp out tmp digits

-- ==== the arguments

/-- The slots of the arguments, and the strings at the pointers. -/
structure Args where
  slot : Nat → BitVec 64
  str : BitVec 64 → List UInt8

namespace Args

/-- An argument of type `int` or `unsigned int`. -/
def int (a : Args) (ap : Nat) : BitVec 32 := (a.slot ap).setWidth 32

/-- An argument of type `const char *`. -/
def string (a : Args) (ap : Nat) : Option (List UInt8) :=
  if a.slot ap = 0 then none else some (a.str (a.slot ap))

end Args

-- ==== a conversion

/-- What stands between the `%` and the conversion. `precision` is `none`
where `has_precision` is false. -/
structure Spec where
  longLong : Bool
  sizeType : Bool
  zeroPad : Bool
  leftAlign : Bool
  width : Nat
  precision : Option Nat
deriving DecidableEq, Repr

/-- The loop over the flags, which gives `zero_pad` and `left_align`. The
width is still zero in it. -/
def flagLoop : List UInt8 → Bool → Bool → List UInt8 × Bool × Bool
  | [], zeroPad, leftAlign => ([], zeroPad, leftAlign)
  | c :: fmt, zeroPad, leftAlign =>
      if c = chr '-' then flagLoop fmt false true
      else if c = chr '0' ∧ leftAlign = false then flagLoop fmt true leftAlign
      else (c :: fmt, zeroPad, leftAlign)

/-- The loops over the digits of `width` and of `precision`. -/
def numLoop : List UInt8 → Nat → List UInt8 × Nat
  | [], n => ([], n)
  | c :: fmt, n =>
      if chr '0' ≤ c ∧ c ≤ chr '9' then
        numLoop fmt ((n * 10 + (c.toNat - (chr '0').toNat)) % 2 ^ 64)
      else (c :: fmt, n)

/-- The precision. -/
def parsePrecision (a : Args) (fmt : List UInt8) (ap : Nat) : List UInt8 × Nat × Option Nat :=
  if fmt.head? = some (chr '.') then
    let fmt := fmt.tail
    if fmt.head? = some (chr '*') then
      let p := (a.int ap).toInt
      (fmt.tail, ap + 1, some (if p < 0 then 0 else p.toNat))
    else
      let (fmt, precision) := numLoop fmt 0
      (fmt, ap, some precision)
  else (fmt, ap, none)

/-- The length modifier, as `long_long` and `size_type`. -/
def parseModifier (fmt : List UInt8) : List UInt8 × Bool × Bool :=
  if fmt.head? = some (chr 'l') ∧ fmt.tail.head? = some (chr 'l') then
    (fmt.tail.tail, true, false)
  else if fmt.head? = some (chr 'z') then (fmt.tail, false, true)
  else (fmt, false, false)

/-- From behind the `%` to the `switch`. -/
def parseSpec (a : Args) (fmt : List UInt8) (ap : Nat) : List UInt8 × Nat × Spec :=
  let (fmt, zeroPad, leftAlign) := flagLoop fmt false false
  let (fmt, width) := numLoop fmt 0
  let (fmt, ap, precision) := parsePrecision a fmt ap
  let (fmt, longLong, sizeType) := parseModifier fmt
  (fmt, ap, { longLong, sizeType, zeroPad, leftAlign, width, precision })

/-- The padding of `%s`, `%c` and `%p`, in front or behind. -/
def padFor (out : σ) (spec : Spec) (len : Nat) (left : Bool) : σ :=
  if spec.leftAlign = left then bufPutWidth out spec.width len (chr ' ') else out

/-- `case 's'`. -/
def convertStr (a : Args) (spec : Spec) (out : σ) (ap : Nat) : σ :=
  let s := a.string ap
  let len := bufStrlen s
  let len :=
    match spec.precision with
    | some precision => if precision < len then precision else len
    | none => len
  let out := padFor out spec len false
  let out :=
    match s with
    | none => bufPuts out (some (chars "(null)"))
    | some s => (s.take len).foldl Out.putc out
  padFor out spec len true

/-- `case 'c'`. -/
def convertChar (a : Args) (spec : Spec) (out : σ) (ap : Nat) : σ :=
  let ch := UInt8.ofBitVec ((a.int ap).setWidth 8)
  let out := padFor out spec 1 false
  let out := Out.putc out ch
  padFor out spec 1 true

/-- `case 'p'`. -/
def convertPtr (a : Args) (spec : Spec) (out : σ) (ap : Nat) : σ :=
  let ptr := a.slot ap
  let out := padFor out spec 2 false
  let out := bufPuts out (some (chars "0x"))
  let out := bufPutuBase out ptr.toNat 16 false 0 false spec.leftAlign
  padFor out spec 2 true

/-- `case 'd'` and `case 'i'`. -/
def convertInt (a : Args) (spec : Spec) (out : σ) (ap : Nat) : σ :=
  let val :=
    if spec.longLong then a.slot ap
    else if spec.sizeType then a.slot ap
    else (a.int ap).signExtend 64
  bufPuti out val spec.width spec.zeroPad spec.leftAlign

/-- `case 'u'`, `'x'`, `'X'` and `'o'`. -/
def convertUint (a : Args) (spec : Spec) (out : σ) (ap base : Nat) (upper : Bool) : σ :=
  let val :=
    if spec.longLong then a.slot ap
    else if spec.sizeType then a.slot ap
    else (a.int ap).setWidth 64
  bufPutuBase out val.toNat base upper spec.width spec.zeroPad spec.leftAlign

/-- The `switch`; `c` is `none` at the end of the format. -/
def convert (a : Args) (spec : Spec) (c : Option UInt8) (out : σ) (ap : Nat) : σ × Nat :=
  if c = some (chr 's') then (convertStr a spec out ap, ap + 1)
  else if c = some (chr 'c') then (convertChar a spec out ap, ap + 1)
  else if c = some (chr 'd') ∨ c = some (chr 'i') then (convertInt a spec out ap, ap + 1)
  else if c = some (chr 'u') then (convertUint a spec out ap 10 false, ap + 1)
  else if c = some (chr 'x') then (convertUint a spec out ap 16 false, ap + 1)
  else if c = some (chr 'X') then (convertUint a spec out ap 16 true, ap + 1)
  else if c = some (chr 'p') then (convertPtr a spec out ap, ap + 1)
  else if c = some (chr 'o') then (convertUint a spec out ap 8 false, ap + 1)
  else
    let out := Out.putc out (chr '%')
    match c with
    | some c => (Out.putc out c, ap)
    | none => (out, ap)

-- ==== the loop

/-- The loop over the format. Each round takes at least one character. -/
def formatLoop (a : Args) : Nat → List UInt8 → σ → Nat → σ × Nat
  | 0, _, out, ap => (out, ap)
  | _ + 1, [], out, ap => (out, ap)
  | fuel + 1, c :: fmt, out, ap =>
      if c ≠ chr '%' then formatLoop a fuel fmt (Out.putc out c) ap
      else if fmt.head? = some (chr '%') then
        formatLoop a fuel fmt.tail (Out.putc out (chr '%')) ap
      else
        let (fmt, ap, spec) := parseSpec a fmt ap
        let (out, ap) := convert a spec fmt.head? out ap
        formatLoop a fuel fmt.tail out ap

/-- `kvsnprintf`: the memory at `buf`, and what is returned. -/
def kvsnprintf (a : Args) (mem : Nat → UInt8) (bufsz : Nat) (fmt : Option (List UInt8)) :
    (Nat → UInt8) × Int :=
  if bufsz = 0 then (mem, 0)
  else
    let fmt := fmt.getD []
    let buf := (formatLoop a fmt.length fmt (⟨mem, bufsz, 0⟩ : Buf) 0).1
    let mem :=
      if buf.pos ≥ bufsz then Function.update buf.mem (bufsz - 1) 0
      else Function.update buf.mem buf.pos 0
    (mem, (BitVec.ofNat 32 buf.pos).toInt)

end Alix.Klib
