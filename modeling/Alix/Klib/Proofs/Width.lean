/-
The width of a conversion: what is printed is as long as the width, or as
what is printed without a width if that is longer, and `%s` with a
precision is at most so long.

# Where it fails

`%p` pads for the two characters of `0x` only, and the digits come on top.
`%s` with NULL counts on the precision and prints all of `(null)`.
Everywhere else the padding is counted from what is printed
(`widthLaw_iff`).
-/
import Alix.Klib.Proofs.Directive

namespace Alix.Klib

-- ==== the statement

/-- The same conversion without a width. -/
def Directive.natural (d : Directive) : Directive := { d with width := 0 }

/-- The law for one conversion. -/
structure WidthLaw (a : Args) (d : Directive) : Prop where
  length : (textOf a (some d.chars)).length
    = max d.width.toNat (textOf a (some d.natural.chars)).length
  precision : ∀ q, d.conv = .s → d.precision.value a 0 = some q →
    (textOf a (some d.natural.chars)).length ≤ q

-- ==== the lengths

theorem digitsText_ne_nil {val base : Nat} (upper : Bool) (hval : val < 2 ^ 64) (hbase : 4 ≤ base)
    (hle : base ≤ 16) : digitsText val base upper ≠ [] := by
  rw [digitsText_eq upper hval hbase hle]
  exact Alphabet.write_ne_nil val

theorem putuText_length {val base : Nat} (upper : Bool) (hval : val < 2 ^ 64) (hbase : 4 ≤ base)
    (hle : base ≤ 16) (width : Nat) (zeroPad leftAlign : Bool) :
    (putuText val base upper width zeroPad leftAlign).length
      = max width (digitsText val base upper).length := by
  simp only [putuText, if_neg (digitsText_ne_nil upper hval hbase hle)]
  cases leftAlign
  · simp
    omega
  · simp
    omega

theorem putiText_length (val : BitVec 64) (width : Nat) (zeroPad leftAlign : Bool) :
    ∃ n, (putiText val width zeroPad leftAlign).length = max width n
      ∧ (putiText val 0 zeroPad leftAlign).length = n := by
  have hne := digitsText_ne_nil false (if val.slt 0 then -(val + 1) + 1 else val).isLt
    (show 4 ≤ 10 by decide) (by decide)
  simp only [putiText, if_neg hne]
  generalize digitsText _ 10 false = ds
  cases leftAlign <;> cases zeroPad <;> cases val.slt 0 <;> simp <;> omega

/-- Numbers and characters are padded from what is printed. -/
theorem convText_length (a : Args) (spec : Spec) {conv : Conv} (hp : conv ≠ .p) (hs : conv ≠ .s)
    (ap : Nat) :
    (convText a spec conv ap).length
      = max spec.width (convText a { spec with width := 0 } conv ap).length := by
  have hint : ∀ ap, (intText a spec ap).length
      = max spec.width (intText a { spec with width := 0 } ap).length := by
    intro ap
    obtain ⟨n, hw, h0⟩ := putiText_length (intArg a spec ap) spec.width spec.zeroPad spec.leftAlign
    exact hw.trans (congrArg _ h0.symm)
  have huint : ∀ base upper, 4 ≤ base → base ≤ 16 → (uintText a spec ap base upper).length
      = max spec.width (uintText a { spec with width := 0 } ap base upper).length := by
    intro base upper hbase hle
    have hlen := putuText_length upper (uintArg a spec ap).isLt hbase hle
    exact (hlen spec.width spec.zeroPad spec.leftAlign).trans (congrArg _
      ((hlen 0 spec.zeroPad spec.leftAlign).trans (Nat.zero_max _)).symm)
  cases conv with
  | d => exact hint ap
  | i => exact hint ap
  | u => exact huint 10 false (by decide) (by decide)
  | x => exact huint 16 false (by decide) (by decide)
  | X => exact huint 16 true (by decide) (by decide)
  | o => exact huint 8 false (by decide) (by decide)
  | c =>
      cases hl : spec.leftAlign <;> simp [convText, charText, padText, hl] <;> omega
  | p => exact absurd rfl hp
  | s => exact absurd rfl hs

/-- `%p` is too long by the digits, as soon as it is padded. -/
theorem ptrText_length (a : Args) (spec : Spec) (ap : Nat) : ∃ n, 0 < n
    ∧ (ptrText a spec ap).length = (spec.width - 2) + (2 + n)
    ∧ (ptrText a { spec with width := 0 } ap).length = 2 + n := by
  have hlen := putuText_length false (a.slot ap).isLt (show 4 ≤ 16 by decide) (Nat.le_refl 16) 0
    false spec.leftAlign
  have hne := digitsText_ne_nil false (a.slot ap).isLt (show 4 ≤ 16 by decide) (Nat.le_refl 16)
  refine ⟨(digitsText (a.slot ap).toNat 16 false).length, List.length_pos_iff.mpr hne, ?_⟩
  have htwo : (chars "0x").length = 2 := rfl
  rw [Nat.zero_max] at hlen
  cases hl : spec.leftAlign <;> rw [hl] at hlen <;>
    simp [ptrText, padText, hl, hlen, htwo]
  omega

/-- The length that `%s` counts on: what is there, cut to the precision. -/
theorem strLen_precision (spec : Spec) (s : Option (List UInt8)) :
    strLen spec s = match spec.precision with
      | some q => min q (bufStrlen s)
      | none => bufStrlen s := by
  cases hprec : spec.precision with
  | none => simp only [strLen, hprec]
  | some q =>
      simp only [strLen, hprec]
      by_cases hq : q < bufStrlen s
      · rw [if_pos hq, Nat.min_eq_left hq.le]
      · rw [if_neg hq, Nat.min_eq_right (Nat.le_of_not_lt hq)]

theorem strLen_le (spec : Spec) (s : Option (List UInt8)) : strLen spec s ≤ bufStrlen s := by
  rw [strLen_precision]
  split
  · exact Nat.min_le_right _ _
  · exact Nat.le_refl _

/-- `%s` is padded from the length that it counts on. -/
theorem strText_length (a : Args) (spec : Spec) (ap : Nat) :
    (strText a spec ap).length
      = (spec.width - strLen spec (a.string ap))
        + (if a.string ap = none then 6 else strLen spec (a.string ap)) := by
  have hbody : ∀ s, ((s : List UInt8).take (strLen spec (some s))).length = strLen spec (some s) :=
    fun s => (List.length_take).trans (Nat.min_eq_left (strLen_le spec (some s)))
  have hnull : (chars "(null)").length = 6 := rfl
  cases hstr : a.string ap with
  | none =>
      cases hl : spec.leftAlign
      · simp [strText, padText, hl, hstr, hnull]
      · simp [strText, padText, hl, hstr, hnull]
        omega
  | some s =>
      cases hl : spec.leftAlign
      · simp [strText, padText, hl, hstr, hbody]
      · simp [strText, padText, hl, hstr, hbody]
        omega

-- ==== the law

/-- The law holds of every conversion but a padded `%p` and a `%s` that
cuts NULL short. -/
theorem widthLaw_iff (a : Args) (d : Directive) :
    WidthLaw a d
      ↔ ¬ (d.conv = .p ∧ 2 < d.width.toNat)
        ∧ ¬ (d.conv = .s ∧ a.slot d.precision.args = 0
          ∧ ∃ q < 6, d.precision.value a 0 = some q) := by
  have htext : textOf a (some d.chars) = convText a (d.spec a 0) d.conv d.precision.args := by
    rw [textOf_directive, Directive.text, Nat.zero_add]
  have hnat : textOf a (some d.natural.chars)
      = convText a { d.spec a 0 with width := 0 } d.conv d.precision.args := by
    rw [textOf_directive, Directive.text, Nat.zero_add]
    rfl
  have hlaw : WidthLaw a d ↔ (convText a (d.spec a 0) d.conv d.precision.args).length
        = max d.width.toNat
          (convText a { d.spec a 0 with width := 0 } d.conv d.precision.args).length
      ∧ ∀ q, d.conv = .s → d.precision.value a 0 = some q →
        (convText a { d.spec a 0 with width := 0 } d.conv d.precision.args).length ≤ q := by
    rw [← htext, ← hnat]
    exact ⟨fun h => ⟨h.length, h.precision⟩, fun h => ⟨h.1, h.2⟩⟩
  have hwidth : (d.spec a 0).width = d.width.toNat := rfl
  have hprec : (d.spec a 0).precision = d.precision.value a 0 := rfl
  rw [hlaw]
  by_cases hp : d.conv = .p
  · obtain ⟨n, hn, hlen, hlen0⟩ := ptrText_length a (d.spec a 0) d.precision.args
    simp only [hp, convText, hlen, hlen0, hwidth]
    simp
    omega
  · by_cases hs : d.conv = .s
    · have hlen := strText_length a (d.spec a 0) d.precision.args
      have hlen0 := strText_length a { d.spec a 0 with width := 0 } d.precision.args
      have hsame : ∀ s, strLen { d.spec a 0 with width := 0 } s = strLen (d.spec a 0) s :=
        fun _ => rfl
      rw [hsame, Nat.zero_sub, Nat.zero_add] at hlen0
      have hnull : a.string d.precision.args = none ↔ a.slot d.precision.args = 0 := by
        simp [Args.string]
      have hcount := strLen_precision (d.spec a 0) (a.string d.precision.args)
      rw [hprec] at hcount
      simp only [hs, convText, hlen, hlen0, hwidth, hnull]
      by_cases hzero : a.slot d.precision.args = 0
      · rw [hnull.mpr hzero] at hcount ⊢
        simp only [bufStrlen] at hcount
        cases hq : d.precision.value a 0 with
        | none =>
            rw [hq] at hcount
            simp [hzero, hcount]
            omega
        | some q =>
            rw [hq] at hcount
            simp [hzero, hcount]
            omega
      · have hle : ∀ q, d.precision.value a 0 = some q →
            strLen (d.spec a 0) (a.string d.precision.args) ≤ q := by
          intro q hq
          rw [hq] at hcount
          exact hcount.trans_le (Nat.min_le_left _ _)
        rw [if_neg hzero]
        exact ⟨fun _ => ⟨by simp, fun h => hzero h.2.1⟩,
          fun _ => ⟨Nat.sub_add_eq_max .., fun q _ hq => hle q hq⟩⟩
    · have hlen := convText_length a (d.spec a 0) hp hs d.precision.args
      exact ⟨fun _ => ⟨fun h => hp h.1, fun h => hs h.1⟩,
        fun _ => ⟨hlen, fun q h => absurd h hs⟩⟩

/-- `%20p` puts 18 spaces, `0x` and the digits, where `%p` puts 10
characters; `%.3s` with NULL puts all of `(null)`. -/
theorem widthLaw_fails :
    textOf (oneArg 0xdeadbeef) (some (chars "%20p"))
        = List.replicate 18 (chr ' ') ++ chars "0xdeadbeef"
      ∧ textOf (oneArg 0xdeadbeef) (some (chars "%p")) = chars "0xdeadbeef"
      ∧ textOf (oneArg 0) (some (chars "%.3s")) = chars "(null)"
      ∧ ¬ WidthLaw (oneArg 0xdeadbeef) ⟨.none, 20, .none, .none, .p⟩
      ∧ ¬ WidthLaw (oneArg 0) ⟨.none, 0, .digits 3, .none, .s⟩ := by
  have h20 : textOf (oneArg 0xdeadbeef) (some (chars "%20p"))
      = List.replicate 18 (chr ' ') ++ chars "0xdeadbeef" := by decide
  have hp : textOf (oneArg 0xdeadbeef) (some (chars "%p")) = chars "0xdeadbeef" := by decide
  have hs : textOf (oneArg 0) (some (chars "%.3s")) = chars "(null)" := by decide
  refine ⟨h20, hp, hs, fun h => ?_, fun h => ?_⟩
  · have hlen : (textOf (oneArg 0xdeadbeef) (some (chars "%20p"))).length
        = max 20 (textOf (oneArg 0xdeadbeef) (some (chars "%p"))).length := h.length
    rw [h20, hp] at hlen
    exact absurd hlen (by decide)
  · have hle : (textOf (oneArg 0) (some (chars "%.3s"))).length ≤ 3 := h.precision 3 rfl rfl
    rw [hs] at hle
    exact absurd hle (by decide)

end Alix.Klib
