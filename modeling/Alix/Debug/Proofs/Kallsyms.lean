/-
The lookup finds the last symbol that does not begin above the address.

In a sorted table the symbols that begin at or below an address come first
(`initial_atOrBelow`), so the loop is a bracketed search for the last of
them (`kallsymsLoop_last`), duplicates and the empty table included.
-/
import Alix.Debug.Kallsyms
import Alix.Lib.Search

namespace Alix

open Search (Initial Last Bracket)

variable {table : Array KallsymsEntry} {addr : BitVec 64} {lo hi : Nat}

/-- Entry `i` qualifies for the address. -/
def AtOrBelow (table : Array KallsymsEntry) (addr : BitVec 64) (i : Nat) : Prop :=
  ∃ h : i < table.size, table[i].addr ≤ addr

theorem initial_atOrBelow (k : Kallsyms) (addr : BitVec 64) :
    Initial (AtOrBelow k.table addr) k.table.size := by
  rintro i j hij hj ⟨_, hle⟩
  have hi : i < k.table.size := Nat.lt_of_le_of_lt hij hj
  refine ⟨hi, ?_⟩
  rcases Nat.eq_or_lt_of_le hij with rfl | hlt
  · exact hle
  · have hsorted := List.pairwise_iff_getElem.mp k.sorted i j (by simpa using hi)
      (by simpa using hj) hlt
    simp only [Array.getElem_toList] at hsorted
    exact BitVec.le_trans hsorted hle

/-- The loop keeps the bracket, and ends when it is empty. -/
theorem kallsymsLoop_last (hinit : Initial (AtOrBelow table addr) table.size)
    (hbound : hi ≤ table.size) {best : Option (Fin table.size)}
    (h : Bracket (AtOrBelow table addr) table.size lo hi (best.map Fin.val)) :
    Last (AtOrBelow table addr) table.size
      ((kallsymsLoop table addr lo hi hbound best).map Fin.val) := by
  induction lo, hi, hbound, best using kallsymsLoop.induct table addr with
  | case1 lo hi hbound best hlt mid hmid sym hle ih =>
      rw [kallsymsLoop, dif_pos hlt, if_pos hle]
      exact ih (h.raise hinit (Search.middle hlt).2 ⟨hmid, hle⟩)
  | case2 lo hi hbound best hlt mid hmid sym hgt ih =>
      rw [kallsymsLoop, dif_pos hlt, if_neg hgt]
      refine ih (h.lower hinit (Search.middle hlt).1 (Search.middle hlt).2 ?_)
      rintro ⟨_, hle⟩
      exact hgt hle
  | case3 lo hi hbound best hge =>
      rw [kallsymsLoop, dif_neg hge]
      have heq : hi = lo := Nat.le_antisymm (Nat.le_of_not_lt hge) h.le
      subst heq
      exact h.last

-- ==== the result

theorem kallsymsLookup_fst (table : Array KallsymsEntry) (addr : BitVec 64)
    (offset : Option (BitVec 64)) : (kallsymsLookup table addr offset).1
      = kallsymsLoop table addr 0 table.size (Nat.le_refl _) none := by
  unfold kallsymsLookup
  cases kallsymsLoop table addr 0 table.size (Nat.le_refl _) none <;> rfl

theorem kallsymsLookup_last (k : Kallsyms) (addr : BitVec 64) (offset : Option (BitVec 64)) :
    Last (AtOrBelow k.table addr) k.table.size
      ((kallsymsLookup k.table addr offset).1.map Fin.val) := by
  rw [kallsymsLookup_fst]
  exact kallsymsLoop_last (initial_atOrBelow k addr) (Nat.le_refl _) (Bracket.start _ _)

/-- The symbol that is found is the last one that does not begin above the
address, with the distance from its beginning, and none is found only if
all begin above. -/
theorem kallsymsLookup_greatest (k : Kallsyms) (addr : BitVec 64)
    (offset : Option (BitVec 64)) :
    (∀ i : Fin k.table.size, (kallsymsLookup k.table addr offset).1 = some i
        ↔ k.table[i].addr ≤ addr
          ∧ ∀ j : Fin k.table.size, k.table[j].addr ≤ addr → j ≤ i)
      ∧ ((kallsymsLookup k.table addr offset).1 = none
        ↔ ∀ j : Fin k.table.size, ¬ k.table[j].addr ≤ addr)
      ∧ ∀ i old, (kallsymsLookup k.table addr (some old)).1 = some i →
        ∃ d, (kallsymsLookup k.table addr (some old)).2 = some d
          ∧ d.toNat + k.table[i].addr.toNat = addr.toNat := by
  have hlast := kallsymsLookup_last k addr
  refine ⟨fun i => ?_, ?_, fun i old hfound => ?_⟩
  · have hiff := (hlast offset).some_iff (i := i.val)
    rw [Option.map_eq_some_iff] at hiff
    constructor
    · intro hfound
      obtain ⟨⟨-, _, hle⟩, hmax⟩ := hiff.mp ⟨i, hfound, rfl⟩
      exact ⟨hle, fun j hj => hmax j j.isLt ⟨j.isLt, hj⟩⟩
    · rintro ⟨hle, hmax⟩
      obtain ⟨j, hfound, hji⟩ := hiff.mpr
        ⟨⟨i.isLt, i.isLt, hle⟩, fun j _ hj => hmax ⟨j, hj.1⟩ hj.2⟩
      rw [hfound, Fin.ext hji]
  · rw [← Option.map_eq_none_iff, (hlast offset).none_iff]
    constructor
    · exact fun hno j hj => hno j j.isLt ⟨j.isLt, hj⟩
    · exact fun hno j _ hj => hno ⟨j, hj.1⟩ hj.2
  · have hiff := (hlast (some old)).some_iff (i := i.val)
    obtain ⟨⟨-, _, hle⟩, -⟩ := hiff.mp (by rw [hfound]; rfl)
    rw [kallsymsLookup_fst] at hfound
    refine ⟨addr - k.table[i].addr, ?_, ?_⟩
    · unfold kallsymsLookup
      rw [hfound]
      rfl
    · have hle' : k.table[i].addr ≤ addr := hle
      rw [BitVec.toNat_sub_of_le hle']
      exact Nat.sub_add_cancel hle'

/-- Two of four symbols have one address. -/
def fourSymbols : Kallsyms where
  table := #[⟨0x10, 8, "a"⟩, ⟨0x20, 0, "b"⟩, ⟨0x20, 4, "c"⟩, ⟨0x30, 4, "d"⟩]
  sorted := by decide

/-- The second of them is found, 15 bytes in front of the address. -/
theorem kallsymsLookup_greatest_four :
    (kallsymsLookup fourSymbols.table 0x2f (some 0)).1 = some ⟨2, by decide⟩
      ∧ (kallsymsLookup fourSymbols.table 0x2f (some 0)).2 = some 15 := by
  obtain ⟨hiff, -, hoffset⟩ := kallsymsLookup_greatest fourSymbols 0x2f (some 0)
  have hlast : ∀ j : Fin fourSymbols.table.size, fourSymbols.table[j].addr ≤ 0x2f →
      j ≤ ⟨2, by decide⟩ := by decide
  have hfound := (hiff ⟨2, by decide⟩).mpr ⟨by decide, hlast⟩
  obtain ⟨d, hd, hsum⟩ := hoffset _ 0 hfound
  refine ⟨hfound, hd.trans (congrArg some (BitVec.eq_of_toNat_eq ?_))⟩
  have hdist : d.toNat + 0x20 = 0x2f := hsum
  show d.toNat = 15
  omega

end Alix
