/-
Numbers as they are printed: `%lld`, `%llu`, `%llx`, `%llX` and `%llo` with
a width and the flags.

The digits are the numeral of the number (`digitsText_eq`), of a negative
one that of its negation, which is no overflow for the least one either
(`uval_natAbs`). Around it are spaces in front or behind, or zeros between
the sign and the digits (`printed_number`), so without the spaces the text
is read back to the value.
-/
import Alix.Klib.Proofs.Directive

namespace Alix.Klib

-- ==== the statement

/-- The conversions of numbers. -/
inductive NumConv where
  | d
  | u
  | x
  | X
  | o
deriving DecidableEq, Repr

namespace NumConv

def conv : NumConv → Conv
  | d => .d
  | u => .u
  | x => .x
  | X => .X
  | o => .o

def base : NumConv → Nat
  | d | u => 10
  | x | X => 16
  | o => 8

def upper : NumConv → Bool
  | X => true
  | d | u | x | o => false

theorem base_bounds (k : NumConv) : 4 ≤ k.base ∧ k.base ≤ 16 := by
  cases k <;> decide

/-- The digits. -/
def alphabet (k : NumConv) : Alphabet UInt8 :=
  Klib.alphabet k.upper k.base ⟨by have := k.base_bounds; omega, k.base_bounds.2⟩

/-- The number that is passed; only `d` is signed. -/
def value (v : BitVec 64) : NumConv → Int
  | d => v.toInt
  | u | x | X | o => v.toNat

/-- A number read, with or without a minus in front. -/
def parse (k : NumConv) : List UInt8 → Option Int
  | [] => none
  | c :: l =>
      if c = chr '-' then (k.alphabet.read l).map fun n => -(n : Int)
      else (k.alphabet.read (c :: l)).map fun n => (n : Int)

/-- The conversion with `ll`. -/
def directive (k : NumConv) (flags : Flags) (width : BitVec 64) : Directive :=
  { flags, width, precision := .none, modifier := .ll, conv := k.conv }

end NumConv

/-- The text without spaces in front and behind. -/
def unpad (l : List UInt8) : List UInt8 :=
  ((l.dropWhile (· == chr ' ')).reverse.dropWhile (· == chr ' ')).reverse

/-- A number as it is printed. -/
structure Number (k : NumConv) (v : BitVec 64) (flags : Flags) (text : List UInt8) : Prop where
  /-- spaces, the sign, zeros, the digits, and spaces -/
  shape : ∃ front zeros ds back,
    text = List.replicate front (chr ' ') ++ (if k.value v < 0 then [chr '-'] else [])
        ++ List.replicate zeros (chr '0') ++ ds ++ List.replicate back (chr ' ')
      ∧ k.alphabet.read ds = some (k.value v).natAbs
      ∧ (ds = [chr '0'] ∨ ds ≠ [] ∧ ds.head? ≠ some (chr '0'))
      ∧ (front ≠ 0 → flags = .none) ∧ (zeros ≠ 0 → flags = .zero)
      ∧ (back ≠ 0 → flags.leftAlign = true)
  parse : k.parse (unpad text) = some (k.value v)

-- ==== the digits

variable {k : NumConv}

theorem alphabet_digit (upper : Bool) {base : Nat} (h : 2 ≤ base ∧ base ≤ 16) {d : Nat}
    (hd : d < base) :
    (alphabet upper base h).digit d ≠ chr ' ' ∧ (alphabet upper base h).digit d ≠ chr '-' := by
  have htable : ∀ upper : Bool, ∀ d < 16, (digitTable upper).getD d 0 ≠ chr ' '
      ∧ (digitTable upper).getD d 0 ≠ chr '-' := by decide
  exact htable upper d (by omega)

/-- A digit is neither a space nor a minus. -/
theorem NumConv.mem_write {n : Nat} {c : UInt8} (h : c ∈ k.alphabet.write n) :
    c ≠ chr ' ' ∧ c ≠ chr '-' := by
  obtain ⟨d, hd, rfl⟩ := Alphabet.mem_write h
  exact alphabet_digit k.upper _ hd

theorem NumConv.digit_zero (k : NumConv) : k.alphabet.digit 0 = chr '0' := by
  cases k <;> rfl

/-- The numeral has no zero in front. -/
theorem NumConv.write_canonical (k : NumConv) (n : Nat) :
    k.alphabet.write n = [chr '0']
      ∨ k.alphabet.write n ≠ [] ∧ (k.alphabet.write n).head? ≠ some (chr '0') := by
  by_cases hn : n = 0
  · left
    rw [Alphabet.write, if_pos hn, k.digit_zero]
  · right
    rw [← k.digit_zero]
    exact ⟨Alphabet.write_ne_nil n, Alphabet.head_write hn⟩

/-- What `buf_puti` prints of a negative number is its negation. -/
theorem uval_natAbs (v : BitVec 64) :
    (if v.slt 0 then -(v + 1) + 1 else v).toNat = v.toInt.natAbs := by
  have hzero : (0 : BitVec 64).toInt = 0 := rfl
  have hslt : v.slt 0 = true ↔ v.toInt < 0 := by rw [BitVec.slt_iff_toInt_lt, hzero]
  have hlt := v.isLt
  have hint := BitVec.toInt_eq_toNat_cond v
  by_cases h : v.toInt < 0
  · rw [if_pos (hslt.mpr h)]
    have hneg : (-(v + 1) + 1).toNat = 2 ^ 64 - v.toNat := by
      rw [BitVec.toNat_add, BitVec.toNat_neg, BitVec.toNat_add]
      have hone : (1 : BitVec 64).toNat = 1 := rfl
      rw [hone]
      split at hint <;> omega
    rw [hneg]
    split at hint <;> omega
  · rw [if_neg fun h' => h (hslt.mp h')]
    split at hint <;> omega

-- ==== the padding

theorem dropWhile_spaces (n : Nat) {l : List UInt8} (h : l.head? ≠ some (chr ' ')) :
    (List.replicate n (chr ' ') ++ l).dropWhile (· == chr ' ') = l := by
  induction n with
  | zero =>
      cases l with
      | nil => rfl
      | cons c l => exact List.dropWhile_cons_of_neg (by simpa using h)
  | succ n ih => simpa [List.replicate_succ] using ih

/-- Spaces around a text without spaces. -/
theorem unpad_spaces (front back : Nat) {l : List UInt8} (hl : ∀ c ∈ l, c ≠ chr ' ')
    (hne : l ≠ []) :
    unpad (List.replicate front (chr ' ') ++ l ++ List.replicate back (chr ' ')) = l := by
  have hhead : ∀ {l : List UInt8}, (∀ c ∈ l, c ≠ chr ' ') → l.head? ≠ some (chr ' ') :=
    fun hl h => hl _ (List.mem_of_head? h) rfl
  have hfront : (l ++ List.replicate back (chr ' ')).head? ≠ some (chr ' ') := by
    rw [List.head?_append_of_ne_nil _ hne]
    exact hhead hl
  have hback : l.reverse.head? ≠ some (chr ' ') :=
    hhead fun c hc => hl c (List.mem_reverse.mp hc)
  rw [unpad, List.append_assoc, dropWhile_spaces front hfront, List.reverse_append,
    List.reverse_replicate, dropWhile_spaces back hback, List.reverse_reverse]

-- ==== the texts

/-- A numeral with zeros in front is read, and a minus negates it. -/
theorem parse_numeral (k : NumConv) (val : Int) (zeros : Nat) :
    k.parse ((if val < 0 then [chr '-'] else []) ++ List.replicate zeros (chr '0')
      ++ k.alphabet.write val.natAbs) = some val := by
  have hread : k.alphabet.read (List.replicate zeros (chr '0') ++ k.alphabet.write val.natAbs)
      = some val.natAbs := by
    rw [← k.digit_zero, Alphabet.read_zeros, Alphabet.read_write]
  by_cases hneg : val < 0
  · rw [if_pos hneg, List.append_assoc, List.singleton_append, NumConv.parse, if_pos rfl, hread]
    exact congrArg some (show -(val.natAbs : Int) = val by omega)
  · rw [if_neg hneg, List.nil_append]
    obtain ⟨c, l, hcons⟩ : ∃ c l,
        List.replicate zeros (chr '0') ++ k.alphabet.write val.natAbs = c :: l :=
      List.exists_cons_of_ne_nil (by simp [Alphabet.write_ne_nil])
    have hc : c ≠ chr '-' := by
      have hmem : c ∈ List.replicate zeros (chr '0') ++ k.alphabet.write val.natAbs := by
        simp [hcons]
      rcases List.mem_append.mp hmem with hzero | hdigit
      · rw [List.eq_of_mem_replicate hzero]
        decide
      · exact (NumConv.mem_write hdigit).2
    rw [hcons] at hread ⊢
    rw [NumConv.parse, if_neg hc, hread]
    exact congrArg some (show (val.natAbs : Int) = val by omega)

/-- A number in the shape is read back. -/
theorem number_of_shape (v : BitVec 64) (flags : Flags) (front zeros back : Nat)
    (hfront : front ≠ 0 → flags = .none) (hzeros : zeros ≠ 0 → flags = .zero)
    (hback : back ≠ 0 → flags.leftAlign = true) :
    Number k v flags (List.replicate front (chr ' ')
      ++ (if k.value v < 0 then [chr '-'] else []) ++ List.replicate zeros (chr '0')
      ++ k.alphabet.write (k.value v).natAbs ++ List.replicate back (chr ' ')) := by
  constructor
  · exact ⟨front, zeros, _, back, rfl, Alphabet.read_write _, k.write_canonical _, hfront,
      hzeros, hback⟩
  · have hchars : ∀ c ∈ (if k.value v < 0 then [chr '-'] else []) ++ List.replicate zeros (chr '0')
        ++ k.alphabet.write (k.value v).natAbs, c ≠ chr ' ' := by
      intro c hc
      rcases List.mem_append.mp hc with hc | hdigit
      · rcases List.mem_append.mp hc with hsign | hzero
        · split at hsign
          · rw [List.mem_singleton.mp hsign]
            decide
          · cases hsign
        · rw [List.eq_of_mem_replicate hzero]
          decide
      · exact (NumConv.mem_write hdigit).1
    have hunpad := unpad_spaces front back hchars (by simp [Alphabet.write_ne_nil])
    simp only [List.append_assoc] at hunpad ⊢
    rw [hunpad, ← List.append_assoc]
    exact parse_numeral k (k.value v) zeros

/-- The padding of the flags. -/
theorem number_padded (v : BitVec 64) (flags : Flags) (room : Nat) {text : List UInt8}
    (htext : text =
      if flags.leftAlign then (if k.value v < 0 then [chr '-'] else [])
        ++ k.alphabet.write (k.value v).natAbs ++ List.replicate room (chr ' ')
      else if flags.zeroPad then (if k.value v < 0 then [chr '-'] else [])
        ++ List.replicate room (chr '0') ++ k.alphabet.write (k.value v).natAbs
      else List.replicate room (chr ' ') ++ (if k.value v < 0 then [chr '-'] else [])
        ++ k.alphabet.write (k.value v).natAbs) :
    Number k v flags text := by
  have hpad : flags.leftAlign = true ∨ flags = .zero ∨ flags = .none := by
    cases flags <;> decide
  rcases hpad with hleft | rfl | rfl
  · rw [htext, if_pos hleft]
    simpa using number_of_shape (k := k) v flags 0 0 room (by simp) (by simp)
      (fun _ => hleft)
  · rw [htext]
    simpa [Flags.leftAlign, Flags.zeroPad] using
      number_of_shape (k := k) v .zero 0 room 0 (by simp) (fun _ => rfl) (by simp)
  · rw [htext]
    simpa [Flags.leftAlign, Flags.zeroPad] using
      number_of_shape (k := k) v .none room 0 0 (fun _ => rfl) (by simp) (by simp)

/-- The text of `buf_puti` with the digits written out. -/
theorem putiText_eq (v : BitVec 64) (width : Nat) (zeroPad leftAlign : Bool) :
    ∃ room, putiText v width zeroPad leftAlign
      = if leftAlign then (if v.toInt < 0 then [chr '-'] else [])
          ++ NumConv.d.alphabet.write v.toInt.natAbs ++ List.replicate room (chr ' ')
        else if zeroPad then (if v.toInt < 0 then [chr '-'] else [])
          ++ List.replicate room (chr '0') ++ NumConv.d.alphabet.write v.toInt.natAbs
        else List.replicate room (chr ' ') ++ (if v.toInt < 0 then [chr '-'] else [])
          ++ NumConv.d.alphabet.write v.toInt.natAbs := by
  have hslt : v.slt 0 = true ↔ v.toInt < 0 := BitVec.slt_iff_toInt_lt
  have hlt : v.toInt.natAbs < 2 ^ 64 := uval_natAbs v ▸ BitVec.isLt _
  have hds : digitsText v.toInt.natAbs 10 false = NumConv.d.alphabet.write v.toInt.natAbs :=
    digitsText_eq false hlt (by decide) (by decide)
  simp only [putiText, uval_natAbs, hds, Alphabet.write_ne_nil, if_false]
  simp only [hslt]
  exact ⟨_, rfl⟩

theorem putuText_eq (k : NumConv) (v : BitVec 64) (width : Nat) (zeroPad leftAlign : Bool) :
    ∃ room, putuText v.toNat k.base k.upper width zeroPad leftAlign
      = if leftAlign then k.alphabet.write v.toNat ++ List.replicate room (chr ' ')
        else if zeroPad then List.replicate room (chr '0') ++ k.alphabet.write v.toNat
        else List.replicate room (chr ' ') ++ k.alphabet.write v.toNat := by
  have hds : digitsText v.toNat k.base k.upper = k.alphabet.write v.toNat :=
    digitsText_eq k.upper v.isLt k.base_bounds.1 k.base_bounds.2
  simp only [putuText, hds, Alphabet.write_ne_nil, if_false]
  refine ⟨width - (k.alphabet.write v.toNat).length, ?_⟩
  cases zeroPad <;> rfl

/-- Every number is printed as one. -/
theorem printed_number (a : Args) (k : NumConv) (flags : Flags) (width : BitVec 64) :
    Number k (a.slot 0) flags (textOf a (some (k.directive flags width).chars)) := by
  have hunsigned : k ≠ .d → Number k (a.slot 0) flags
      (putuText (a.slot 0).toNat k.base k.upper width.toNat flags.zeroPad flags.leftAlign) := by
    intro hk
    obtain ⟨room, heq⟩ :=
      putuText_eq k (a.slot 0) width.toNat flags.zeroPad flags.leftAlign
    have hval : k.value (a.slot 0) = (a.slot 0).toNat := by
      cases k with
      | d => exact absurd rfl hk
      | u | x | X | o => rfl
    have hpos : ¬ ((a.slot 0).toNat : Int) < 0 := by omega
    refine number_padded _ _ room (heq.trans ?_)
    simp only [hval, if_neg hpos, List.nil_append, List.append_nil, Int.natAbs_natCast]
  rw [textOf_directive]
  cases k with
  | d =>
      obtain ⟨room, heq⟩ := putiText_eq (a.slot 0) width.toNat flags.zeroPad flags.leftAlign
      exact number_padded _ _ room heq
  | u => exact hunsigned (by decide)
  | x => exact hunsigned (by decide)
  | X => exact hunsigned (by decide)
  | o => exact hunsigned (by decide)

end Alix.Klib
