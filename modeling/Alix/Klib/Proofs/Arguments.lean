/-
Each conversion prints its own argument.

A format is cut into pieces: characters, `%%` and conversions, those with
the modifier `j` among them. What a piece should print is what it prints
alone, from its own arguments on (`Piece.text`, `expected`).

# Where it fails

`j` is no modifier here. `%ju` prints `%ju` and takes nothing, so the
number is left for the next conversion (`run_pieces`). Without a `j` every
conversion has its own arguments (`printed_iff`).
-/
import Alix.Klib.Proofs.Directive

namespace Alix.Klib

variable {σ : Type} [Out σ]

-- ==== the pieces

/-- A piece of a format. -/
inductive Piece where
  | char (c : UInt8) (h : c ≠ chr '%' ∧ c ≠ 0)
  | percent
  | conv (d : Directive)
  /-- A conversion with `j` for its modifier. -/
  | jconv (d : Directive)

/-- The arguments from one on. -/
def Args.drop (a : Args) (n : Nat) : Args := { a with slot := fun k => a.slot (n + k) }

namespace Piece

def chars : Piece → List UInt8
  | char c _ => [c]
  | percent => [chr '%', chr '%']
  | conv d => d.chars
  | jconv d => chr '%' :: (d.front ++ [chr 'j', d.conv.char])

/-- The arguments that are passed for it. -/
def args : Piece → Nat
  | char _ _ | percent => 0
  | conv d | jconv d => d.args

/-- What is to be printed for it: what the formatter prints for it alone,
with the arguments from `ap` on. An `intmax_t` has 64 bits, as `ll`. -/
def text (a : Args) (ap : Nat) : Piece → List UInt8
  | char c _ => [c]
  | percent => [chr '%']
  | conv d => textOf (a.drop ap) (some d.chars)
  | jconv d => textOf (a.drop ap) (some { d with modifier := .ll }.chars)

/-- Whether it has the modifier `j`. -/
def hasJ : Piece → Bool
  | jconv _ => true
  | char _ _ | percent | conv _ => false

end Piece

/-- What is to be printed for a format and how many arguments are to be
taken: the pieces one after the other, each with the arguments behind
those of the pieces in front. -/
def expected (a : Args) : Nat → List Piece → List UInt8 × Nat
  | ap, [] => ([], ap)
  | ap, p :: ps =>
      (p.text a ap ++ (expected a (ap + p.args) ps).1, (expected a (ap + p.args) ps).2)

/-- The format of the pieces. -/
def format (ps : List Piece) : List UInt8 := ps.flatMap Piece.chars

-- ==== the loop

/-- What the source takes for a piece. -/
def Piece.taken : Piece → Nat
  | .char _ _ | .percent => 0
  | .conv d => d.args
  | .jconv d => d.precision.args

/-- What the source prints for a piece. -/
def Piece.printed (a : Args) (ap : Nat) : Piece → List UInt8
  | .char c _ => [c]
  | .percent => [chr '%']
  | .conv d => d.text a ap
  | .jconv d => [chr '%', chr 'j', d.conv.char]

theorem char_ne_percent (conv : Conv) : conv.char ≠ chr '%' := by
  cases conv <;> decide

/-- `j` ends the conversion, and what stands behind it is a character. -/
theorem run_jconv (a : Args) (d : Directive) (rest : List UInt8) (out : σ) (ap : Nat) :
    run a ((Piece.jconv d).chars ++ rest) out ap
      = run a rest (puts out [chr '%', chr 'j', d.conv.char]) (ap + d.precision.args) := by
  have hj : Lettered (chr 'j' :: d.conv.char :: rest) := ⟨chr 'j', rfl, by decide⟩
  have hchars : (Piece.jconv d).chars ++ rest
      = chr '%' :: (d.front ++ (chr 'j' :: d.conv.char :: rest)) := by
    simp [Piece.chars]
  rw [hchars, run_convert a (front_ne_percent d hj), parseSpec_front a d hj, parseModifier_j]
  simp only [List.head?_cons, List.tail_cons]
  exact run_char a (char_ne_percent d.conv) rest _ _

/-- A round of the loop, or two of them. -/
theorem run_piece (a : Args) (p : Piece) (rest : List UInt8) (out : σ) (ap : Nat) :
    run a (p.chars ++ rest) out ap = run a rest (puts out (p.printed a ap)) (ap + p.taken) := by
  cases p with
  | char c h => exact run_char a h.1 rest out ap
  | percent => exact run_percent a rest out ap
  | conv d => exact run_directive a d rest out ap
  | jconv d => exact run_jconv a d rest out ap

/-- The text of a directive is read off its own arguments. -/
theorem text_drop (a : Args) (d : Directive) (ap : Nat) : d.text a ap = d.text (a.drop ap) 0 := by
  have hspec : d.spec a ap = d.spec (a.drop ap) 0 := by
    unfold Directive.spec
    cases d.precision <;> rfl
  unfold Directive.text
  rw [hspec, Nat.zero_add]
  cases d.conv <;> rfl

theorem printed_eq_text (a : Args) (ap : Nat) {p : Piece} (h : p.hasJ = false) :
    p.printed a ap = p.text a ap := by
  cases p with
  | char c hc => rfl
  | percent => rfl
  | conv d => exact (text_drop a d ap).trans (textOf_directive (a.drop ap) d).symm
  | jconv d => cases h

-- ==== a format

theorem run_format_cons (a : Args) (p : Piece) (ps : List Piece) (ap : Nat) :
    run a (format (p :: ps)) ([] : List UInt8) ap
      = (p.printed a ap ++ (run a (format ps) ([] : List UInt8) (ap + p.taken)).1,
        (run a (format ps) ([] : List UInt8) (ap + p.taken)).2) := by
  rw [format, List.flatMap_cons, run_piece, run_eq, puts_list, puts_list, List.nil_append]
  rfl

theorem run_format_snd (a : Args) (ps : List Piece) (ap : Nat) :
    (run a (format ps) ([] : List UInt8) ap).2 = ap + (ps.map Piece.taken).sum := by
  induction ps generalizing ap with
  | nil => rfl
  | cons p ps ih =>
      rw [run_format_cons, List.map_cons, List.sum_cons, ← Nat.add_assoc]
      exact ih _

theorem expected_snd (a : Args) (ps : List Piece) (ap : Nat) :
    (expected a ap ps).2 = ap + (ps.map Piece.args).sum := by
  induction ps generalizing ap with
  | nil => rfl
  | cons p ps ih =>
      rw [List.map_cons, List.sum_cons, ← Nat.add_assoc]
      exact ih _

/-- Every `j` leaves an argument behind. -/
theorem sum_args (ps : List Piece) :
    (ps.map Piece.args).sum = (ps.map Piece.taken).sum + ps.countP Piece.hasJ := by
  induction ps with
  | nil => rfl
  | cons p ps ih =>
      rw [List.map_cons, List.map_cons, List.sum_cons, List.sum_cons, ih, List.countP_cons]
      cases p with
      | char c h => simp [Piece.args, Piece.taken, Piece.hasJ]
      | percent => simp [Piece.args, Piece.taken, Piece.hasJ]
      | conv d =>
          simp [Piece.args, Piece.taken, Piece.hasJ]
          omega
      | jconv d =>
          simp [Piece.args, Piece.taken, Piece.hasJ, Directive.args]
          omega

/-- Each piece of a format is printed from its own arguments, and all
arguments are taken, if and only if no conversion has the modifier `j`. -/
theorem printed_iff (a : Args) (ps : List Piece) :
    run a (format ps) ([] : List UInt8) 0 = expected a 0 ps ↔ ∀ p ∈ ps, p.hasJ = false := by
  constructor
  · intro h
    have hsum : 0 + (ps.map Piece.taken).sum = 0 + (ps.map Piece.args).sum := by
      rw [← run_format_snd a ps 0, h, expected_snd]
    rw [sum_args] at hsum
    have hzero : ps.countP Piece.hasJ = 0 := by omega
    intro p hp
    exact eq_false_of_ne_true (List.countP_eq_zero.mp hzero p hp)
  · intro h
    generalize 0 = ap
    induction ps generalizing ap with
    | nil => rfl
    | cons p ps ih =>
        have hp := h p List.mem_cons_self
        have htaken : p.taken = p.args := by
          cases p with
          | char c hc => rfl
          | percent => rfl
          | conv d => rfl
          | jconv d => cases hp
        rw [run_format_cons, htaken, printed_eq_text a ap hp,
          ih (fun q hq => h q (List.mem_cons_of_mem p hq))]
        rfl

/-- The arguments 1, 2 and so on. -/
def countArgs : Args := ⟨fun n => BitVec.ofNat 64 (n + 1), fun _ => []⟩

/-- The pieces of `%ju %zu`. -/
def offsetSize : List Piece :=
  [.jconv ⟨.none, 0, .none, .none, .u⟩, .char (chr ' ') (by decide),
    .conv ⟨.none, 0, .none, .z, .u⟩]

/-- `%ju` is printed as it stands, and the size gets its argument. -/
theorem printed_j_fails : format offsetSize = chars "%ju %zu"
    ∧ run countArgs (format offsetSize) ([] : List UInt8) 0 = (chars "%ju 1", 1)
    ∧ expected countArgs 0 offsetSize = (chars "1 2", 2)
    ∧ run countArgs (format offsetSize) ([] : List UInt8) 0 ≠ expected countArgs 0 offsetSize := by
  decide

end Alix.Klib
