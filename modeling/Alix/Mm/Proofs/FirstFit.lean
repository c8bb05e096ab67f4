/-
`vas_find_free`: the first range that fits.

# What could go wrong

The loop moves its candidate while it scans the list once, and stops at the
first descriptor behind the candidate's end, which is a sum that may wrap.
So it could stop too early, come to a range that a later descriptor meets,
or skip a range that an earlier gap has.

# What holds

The candidate is never above a range that fits (`findFree_least`, whatever
the order of the list), and in a sorted list nothing meets it
(`VadsSorted.findFree`). So the result is the least base that fits, and there
is one whenever some base fits (`vasFindFree_first`).
-/
import Alix.Mm.Proofs.Vad

namespace Alix

variable {l : List Vad} {hint length b : Nat}

/-- Whole pages from `hint` on, within the user half, that meet no
descriptor. -/
structure Fits (l : List Vad) (hint length b : Nat) : Prop where
  align : b % PAGE_SIZE = 0
  low : hint ≤ b
  high : b + length ≤ VAS_USER_END
  free : ¬ Meets l b (b + length)

/-- Rounding up passes no whole page. -/
theorem pageAlignUp_le {x : Nat} (hx : x ≤ VAS_USER_END) (hb : b % PAGE_SIZE = 0)
    (hle : x ≤ b) : x ≤ pageAlignUp x ∧ pageAlignUp x ≤ b := by
  have hs : PAGE_SIZE = 4096 := rfl
  have hend : VAS_USER_END = 0x00007FFFFFFFFFFF := rfl
  unfold pageAlignUp pageAlignDown
  rw [hs] at hb ⊢
  rw [hend] at hx
  omega

/-- `vas_find_free` passes no base that fits. -/
theorem vasFindFree_le (h : ∀ v ∈ l, v.stop < 2 ^ 64 ∧ v.stop % PAGE_SIZE = 0)
    (hhint : hint ≤ VAS_USER_END) (hb : Fits l hint length b) :
    vasFindFree l hint length ≤ b ∧ hint ≤ vasFindFree l hint length := by
  have hend : VAS_USER_END = 0x00007FFFFFFFFFFF := rfl
  have hfit := hb.high
  obtain ⟨hup, hle⟩ := pageAlignUp_le hhint hb.align hb.low
  unfold vasFindFree
  simp only
  cases hf : findFree length l (pageAlignUp hint) ((pageAlignUp hint + length) % 2 ^ 64) with
  | mk base stop =>
      obtain ⟨-, hstop, hge, hleast⟩ :=
        findFree_least h ⟨pageAlignUp_lt _, pageAlignUp_mod _⟩ rfl hf
      have hbase := hleast b hle (by omega) hb.free
      have hin : ¬ (stop > VAS_USER_END ∨ stop < base) := by omega
      simp only
      rw [if_neg hin]
      omega

/-- Where the list is sorted, what `vas_find_free` finds fits. -/
theorem VadsSorted.vasFindFree (h : VadsSorted l) (hhint : hint ≤ VAS_USER_END)
    (hlen : length < 2 ^ 64) (hne : Alix.vasFindFree l hint length ≠ 0) :
    Fits l hint length (Alix.vasFindFree l hint length) := by
  have hs : PAGE_SIZE = 4096 := rfl
  have hend : VAS_USER_END = 0x00007FFFFFFFFFFF := rfl
  have hstart := And.intro (pageAlignUp_lt hint) (pageAlignUp_mod hint)
  have hround : hint ≤ pageAlignUp hint := (pageAlignUp_spec (by omega)).1
  unfold Alix.vasFindFree at hne ⊢
  simp only at hne ⊢
  cases hf : Alix.findFree length l (pageAlignUp hint) ((pageAlignUp hint + length) % 2 ^ 64) with
  | mk base stop =>
      obtain ⟨⟨hlt, halign⟩, hstop, hge, -⟩ := findFree_least h.stops hstart rfl hf
      have hfree := h.findFree hstart rfl hf
      rw [hf] at hne
      simp only at hne ⊢
      split at hne
      · exact (hne rfl).elim
      · rename_i hin
        have hsum := add_mod_of_le hlt hlen (by omega)
        rw [if_neg hin]
        refine ⟨halign, by omega, by omega, ?_⟩
        rw [← hsum, ← hstop]
        exact hfree

/-- `vas_find_free` is first-fit and complete: it returns the least base from
`hint` on that fits, and 0 exactly when none does. -/
theorem vasFindFree_first (h : VadsSorted l) (hpos : 0 < hint) (hhint : hint ≤ VAS_USER_END)
    (hlen : 0 < length ∧ length < 2 ^ 64 ∧ length % PAGE_SIZE = 0) :
    (vasFindFree l hint length ≠ 0 → Fits l hint length (vasFindFree l hint length)
        ∧ ∀ b, Fits l hint length b → vasFindFree l hint length ≤ b)
      ∧ (vasFindFree l hint length = 0 ↔ ¬ ∃ b, Fits l hint length b) := by
  refine ⟨fun hne => ⟨h.vasFindFree hhint hlen.2.1 hne,
    fun b hb => (vasFindFree_le h.stops hhint hb).1⟩, fun hzero hfit => ?_, fun hnone => ?_⟩
  · obtain ⟨b, hb⟩ := hfit
    have := (vasFindFree_le h.stops hhint hb).2
    omega
  · by_contra hne
    exact hnone ⟨_, h.vasFindFree hhint hlen.2.1 hne⟩

/-- Between two descriptors there is room for one page and not for two. -/
theorem vasFindFree_first_gap :
    (vasFindFree [⟨0x1000, 0x2000, 0⟩, ⟨0x3000, 0x4000, 0⟩] 1 0x1000 = 0x2000
      ∧ vasFindFree [⟨0x1000, 0x2000, 0⟩, ⟨0x3000, 0x4000, 0⟩] 1 0x2000 = 0x4000)
    ∧ ∀ b, Fits [⟨0x1000, 0x2000, 0⟩, ⟨0x3000, 0x4000, 0⟩] 1 0x2000 b → 0x4000 ≤ b := by
  have hsorted : VadsSorted [⟨0x1000, 0x2000, 0⟩, ⟨0x3000, 0x4000, 0⟩] := by
    refine ⟨by decide, ?_⟩
    decide
  have hfound : vasFindFree [⟨0x1000, 0x2000, 0⟩, ⟨0x3000, 0x4000, 0⟩] 1 0x2000 = 0x4000 := by
    decide
  refine ⟨⟨by decide, hfound⟩, fun b hb => ?_⟩
  rw [← hfound]
  exact ((vasFindFree_first hsorted (by decide) (by decide) (by decide)).1
    (by rw [hfound]; decide)).2 b hb

end Alix
