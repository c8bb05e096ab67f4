/-
The word loops of `strlen` and `memcmp` say what the byte loops say.

The subtraction in `has_zero_byte` borrows, and a borrow may make a byte
look like a zero that is not one, but only above a byte that is one
(`Lanes.zero_lane_iff`), so the test is exact for the word as a whole
(`hasZeroByte_iff`). A word that passes it lies in front of the end of the
string, and the last loop finds the end itself.

The last loop of `memcmp` alone would compare any two ranges. The loops in
front of it leave what it says as it is (`memcmpHead_tail`,
`memcmpWords_tail`): a word stands for its eight bytes, and when two words
differ the bytes are gone through in their order, so that the order of the
bytes in a word does not matter.
-/
import Alix.Lib.Lanes
import Alix.Klib.Scan

namespace Alix.Klib

open Bytes (Memory load byteOf)

variable {m : Memory} {s k n p1 p2 fuel start : Nat}

-- ==== the zero test

theorem repeatByte_one : (repeatByte 0x01).toNat = Lanes.ones 256 8 := rfl

/-- The mask has the top bits of the bytes. -/
theorem repeatByte_high (j : Nat) (hj : j < 64) :
    (repeatByte 0x80).getLsbD j = decide (j % 8 = 7) := by
  have hall : ∀ j : Fin 64, (repeatByte 0x80).getLsbD j = decide (j.val % 8 = 7) := by decide
  exact hall ⟨j, hj⟩

/-- The top bit of a byte. -/
theorem getLsbD_top (x : BitVec 64) (i : Nat) :
    x.getLsbD (8 * i + 7) = decide (128 ≤ Lanes.lane 256 x.toNat i) := by
  have hpow : 2 ^ (8 * i + 7) = 256 ^ i * 128 := by
    rw [Nat.pow_add, Nat.pow_mul]
  rw [← BitVec.testBit_toNat, Nat.testBit_eq_decide_div_mod_eq, hpow,
    ← Nat.div_div_eq_div_mul, decide_eq_decide]
  unfold Lanes.lane
  omega

theorem extract_eq_zero (x : BitVec 64) (i : Nat) :
    x.extractLsb' (8 * i) 8 = 0#8 ↔ Lanes.lane 256 x.toNat i = 0 := by
  rw [← BitVec.toNat_inj, BitVec.extractLsb'_toNat, Nat.shiftRight_eq_div_pow, Nat.pow_mul]
  exact Iff.rfl

theorem ne_zero_iff (x : BitVec 64) : x ≠ 0 ↔ ∃ j, j < 64 ∧ x.getLsbD j = true := by
  constructor
  · intro hne
    by_contra hno
    refine hne (BitVec.eq_of_getLsbD_eq fun j hj => ?_)
    refine Eq.trans ?_ BitVec.getLsbD_zero.symm
    exact eq_false_of_ne_true fun hbit => hno ⟨j, hj, hbit⟩
  · rintro ⟨j, -, hbit⟩ rfl
    exact absurd (hbit.symm.trans BitVec.getLsbD_zero) (by decide)

/-- The test finds a zero byte if there is one, and only then. -/
theorem hasZeroByte_iff (x : BitVec 64) :
    hasZeroByte x = true ↔ ∃ i, i < 8 ∧ x.extractLsb' (8 * i) 8 = 0#8 := by
  have hdec : (x - repeatByte 0x01).toNat = Lanes.dec 256 8 x.toNat := by
    rw [BitVec.toNat_sub, repeatByte_one]
    rfl
  simp only [extract_eq_zero]
  refine Iff.trans ?_ (Lanes.zero_lane_iff (h := 128) (by decide) 8 x.toNat)
  unfold hasZeroByte
  rw [bne_iff_ne, ne_zero_iff]
  constructor
  · rintro ⟨j, hj, hbit⟩
    rw [BitVec.getLsbD_and, BitVec.getLsbD_and, BitVec.getLsbD_not, repeatByte_high j hj] at hbit
    simp only [hj, decide_true, Bool.true_and, Bool.and_eq_true, Bool.not_eq_true',
      decide_eq_true_eq] at hbit
    obtain ⟨⟨hcrossed, hwas⟩, htop⟩ := hbit
    have hji : j = 8 * (j / 8) + 7 := by omega
    rw [hji, getLsbD_top] at hcrossed hwas
    rw [hdec] at hcrossed
    exact ⟨j / 8, by omega, of_decide_eq_true hcrossed, by simpa using hwas⟩
  · rintro ⟨i, hi, hcrossed, hwas⟩
    have hcrossed : 128 ≤ Lanes.lane 256 (Lanes.dec 256 8 x.toNat) i := hcrossed
    have hwas : Lanes.lane 256 x.toNat i < 128 := hwas
    refine ⟨8 * i + 7, by omega, ?_⟩
    rw [BitVec.getLsbD_and, BitVec.getLsbD_and, BitVec.getLsbD_not,
      repeatByte_high _ (by omega), getLsbD_top, getLsbD_top, hdec]
    simp only [Bool.and_eq_true, decide_eq_true_eq, Bool.not_eq_true', decide_eq_false_iff_not]
    exact ⟨⟨hcrossed, by omega, Nat.not_le_of_lt hwas⟩, by omega⟩

/-- Byte `i` of a word that is read is the byte at that place. -/
theorem extract_load (m : Memory) (s : Nat) {i : Nat} (hi : i < 8) :
    (BitVec.ofNat 64 (load m s 8)).extractLsb' (8 * i) 8 = m (s + i) := by
  have hlt : load m s 8 < 2 ^ 64 := Bytes.load_lt m s 8
  rw [← Bytes.byteOf_load m s hi]
  apply BitVec.eq_of_toNat_eq
  unfold byteOf
  rw [BitVec.extractLsb'_toNat, BitVec.toNat_ofNat, BitVec.toNat_ofNat, Nat.mod_eq_of_lt hlt,
    Nat.shiftRight_eq_div_pow, Nat.pow_mul]

theorem hasZeroByte_load (m : Memory) (s : Nat) :
    hasZeroByte (BitVec.ofNat 64 (load m s 8)) = true ↔ ∃ i, i < 8 ∧ m (s + i) = 0 := by
  rw [hasZeroByte_iff]
  refine exists_congr fun i => and_congr_right fun hi => ?_
  rw [extract_load m s hi]
  exact Iff.rfl

-- ==== strlen

/-- The first zero from `s` on is `k` bytes away. -/
structure FirstNul (m : Memory) (s k : Nat) : Prop where
  before : ∀ i, i < k → m (s + i) ≠ 0
  nul : m (s + k) = 0

theorem FirstNul.advance {j : Nat} (h : FirstNul m s (j + k)) : FirstNul m (s + j) k := by
  refine ⟨fun i hi => ?_, ?_⟩
  · rw [Nat.add_assoc]
    exact h.before (j + i) (Nat.add_lt_add_left hi j)
  · rw [Nat.add_assoc]
    exact h.nul

/-- A byte that is not zero is passed. -/
theorem FirstNul.pass (h : FirstNul m s k) (hs : m s ≠ 0) :
    ∃ k', k = k' + 1 ∧ FirstNul m (s + 1) k' := by
  cases k with
  | zero => exact absurd h.nul hs
  | succ k =>
      refine ⟨k, rfl, FirstNul.advance (j := 1) ?_⟩
      rwa [Nat.add_comm 1]

/-- And a word without a zero byte. -/
theorem FirstNul.passWord (h : FirstNul m s k)
    (hs : ¬ hasZeroByte (BitVec.ofNat 64 (load m s 8)) = true) :
    ∃ k', k = 8 + k' ∧ FirstNul m (s + 8) k' := by
  rw [hasZeroByte_load] at hs
  have hk : 8 ≤ k := by
    by_contra hlt
    exact hs ⟨k, Nat.lt_of_not_le hlt, h.nul⟩
  obtain ⟨k', rfl⟩ := Nat.exists_eq_add_of_le hk
  exact ⟨k', rfl, h.advance⟩

theorem FirstNul.strlenHead (h : FirstNul m s k) (hf : k < fuel) (start : Nat) :
    strlenHead m start fuel s = some (.error (s + k - start))
      ∨ ∃ s' k', strlenHead m start fuel s = some (.ok s') ∧ s' + k' = s + k
        ∧ FirstNul m s' k' ∧ k' ≤ k := by
  induction fuel generalizing s k with
  | zero => exact absurd hf (Nat.not_lt_zero k)
  | succ fuel ih =>
      unfold Klib.strlenHead
      by_cases hu : unaligned s s = true
      · rw [if_pos hu]
        by_cases hs : m s = 0
        · rw [if_pos hs]
          left
          cases k with
          | zero => rfl
          | succ k => exact absurd hs (h.before 0 (Nat.succ_pos k))
        · rw [if_neg hs]
          obtain ⟨k', rfl, h'⟩ := h.pass hs
          rw [show s + (k' + 1) = s + 1 + k' by omega]
          refine (ih h' (by omega)).imp_right ?_
          rintro ⟨s'', k'', hrun, hsum, hnul, hle⟩
          exact ⟨s'', k'', hrun, hsum, hnul, Nat.le_succ_of_le hle⟩
      · rw [if_neg hu]
        exact Or.inr ⟨s, k, rfl, rfl, h, Nat.le_refl k⟩

theorem FirstNul.strlenWords (h : FirstNul m s k) (hf : k < fuel) :
    ∃ s' k', strlenWords m fuel s = some s' ∧ s' + k' = s + k ∧ FirstNul m s' k' ∧ k' ≤ k := by
  induction fuel generalizing s k with
  | zero => exact absurd hf (Nat.not_lt_zero k)
  | succ fuel ih =>
      unfold Klib.strlenWords
      by_cases hz : hasZeroByte (BitVec.ofNat 64 (load m s 8)) = true
      · exact ⟨s, k, if_pos hz, rfl, h, Nat.le_refl k⟩
      · obtain ⟨k', rfl, h'⟩ := h.passWord hz
        obtain ⟨s'', k'', hrun, hsum, hnul, hle⟩ := ih h' (by omega)
        exact ⟨s'', k'', (if_neg hz).trans hrun, by omega, hnul, by omega⟩

theorem FirstNul.strlenTail (h : FirstNul m s k) (hf : k < fuel) :
    strlenTail m fuel s = some (s + k) := by
  induction fuel generalizing s k with
  | zero => exact absurd hf (Nat.not_lt_zero k)
  | succ fuel ih =>
      unfold Klib.strlenTail
      by_cases hs : m s ≠ 0
      · obtain ⟨k', rfl, h'⟩ := h.pass hs
        rw [if_pos hs, ih h' (by omega)]
        congr 1
        omega
      · rw [if_neg hs]
        cases k with
        | zero => rfl
        | succ k => exact absurd (h.before 0 (Nat.succ_pos k)) hs

theorem FirstNul.strlen (h : FirstNul m s k) (hs : s ≠ 0) (hf : k < fuel) :
    strlen m fuel s = some k := by
  unfold Klib.strlen
  rw [if_neg hs]
  rcases h.strlenHead hf s with hret | ⟨s', k', hrun, hsum, hnul, hle⟩
  · rw [hret]
    simp
  · obtain ⟨s'', k'', hwords, hsum', hnul', hle'⟩ := hnul.strlenWords (Nat.lt_of_le_of_lt hle hf)
    have hlt : k'' < fuel := by omega
    have htail := hnul'.strlenTail hlt
    simp only [hrun, hwords, htail, Option.bind_eq_bind, Option.bind_some, Option.pure_def]
    congr 1
    omega

-- ==== memcmp

/-- The ranges agree. -/
def Agree (m : Memory) (p1 p2 n : Nat) : Prop := ∀ i, i < n → m (p1 + i) = m (p2 + i)

theorem agree_succ : Agree m p1 p2 (n + 1) ↔ m p1 = m p2 ∧ Agree m (p1 + 1) (p2 + 1) n := by
  unfold Agree
  rw [Nat.forall_lt_succ_left]
  simp only [Nat.add_zero, Nat.add_assoc, Nat.add_comm 1]

theorem memcmpByte_eq (h : m p1 = m p2) : memcmpByte m p1 p2 = pure () :=
  if_neg (not_not.mpr h)

theorem memcmpTail_succ (m : Memory) (p1 p2 n : Nat) :
    memcmpTail m p1 p2 (n + 1)
      = (do memcmpByte m p1 p2; memcmpTail m (p1 + 1) (p2 + 1) n) := rfl

theorem memcmpTail_append (m : Memory) (p1 p2 a b : Nat) :
    memcmpTail m p1 p2 (a + b)
      = (do memcmpTail m p1 p2 a; memcmpTail m (p1 + a) (p2 + a) b) := by
  induction a generalizing p1 p2 with
  | zero =>
      rw [Nat.zero_add]
      rfl
  | succ a ih =>
      rw [Nat.succ_add, memcmpTail_succ, memcmpTail_succ, bind_assoc, ih,
        Nat.add_assoc p1 1 a, Nat.add_assoc p2 1 a, Nat.add_comm 1 a]

theorem memcmpTail_agree (h : Agree m p1 p2 n) : memcmpTail m p1 p2 n = pure () := by
  induction n generalizing p1 p2 with
  | zero => rfl
  | succ n ih =>
      obtain ⟨hbyte, hrest⟩ := agree_succ.mp h
      rw [memcmpTail_succ, memcmpByte_eq hbyte, ih hrest]
      rfl

/-- What `memcmp` returns for two bytes that differ. -/
def verdict (b1 b2 : BitVec 8) : Int := if b1.toNat < b2.toNat then -1 else 1

theorem memcmpTail_differ (hk : k < n) (h : Agree m p1 p2 k) (hne : m (p1 + k) ≠ m (p2 + k)) :
    memcmpTail m p1 p2 n = throw (verdict (m (p1 + k)) (m (p2 + k))) := by
  obtain ⟨r, rfl⟩ := Nat.exists_eq_add_of_lt hk
  rw [Nat.add_assoc, memcmpTail_append, memcmpTail_agree h, pure_bind, memcmpTail_succ]
  unfold memcmpByte
  rw [if_pos hne]
  rfl

-- ---- the loops in front of the last

theorem memcmpHead_tail (m : Memory) (p1 p2 n : Nat) :
    (do let c ← memcmpHead m p1 p2 n; memcmpTail m c.p1 c.p2 c.n) = memcmpTail m p1 p2 n := by
  induction n generalizing p1 p2 with
  | zero => rfl
  | succ n ih =>
      unfold memcmpHead
      split
      · rw [bind_assoc, memcmpTail_succ]
        simp only [ih]
      · rfl

/-- A word stands for its bytes. -/
theorem memcmpWord_eq (m : Memory) (p1 p2 : Nat) : memcmpWord m p1 p2 = memcmpTail m p1 p2 8 := by
  unfold memcmpWord
  split
  · rfl
  · rename_i heq
    exact (memcmpTail_agree (Bytes.load_eq_iff.mp (not_not.mp heq))).symm

theorem memcmpWords_tail (m : Memory) (p1 p2 n : Nat) :
    (do let c ← memcmpWords m p1 p2 n; memcmpTail m c.p1 c.p2 c.n) = memcmpTail m p1 p2 n := by
  induction p1, p2, n using memcmpWords.induct with
  | case1 p1 p2 n ih =>
      show (do
        let c ← (do memcmpWord m p1 p2; memcmpWords m (p1 + 8) (p2 + 8) n)
        memcmpTail m c.p1 c.p2 c.n) = memcmpTail m p1 p2 (n + 8)
      rw [bind_assoc, memcmpWord_eq, Nat.add_comm n, memcmpTail_append]
      simp only [ih]
  | case2 p1 p2 n hn =>
      rw [memcmpWords.eq_2 m p1 p2 n hn]
      rfl

-- ==== the results

theorem memcmp_loops (m : Memory) (s1 s2 n : Nat) :
    (do
      let c ← memcmpHead m s1 s2 n
      let c ← memcmpWords m c.p1 c.p2 c.n
      memcmpTail m c.p1 c.p2 c.n) = memcmpTail m s1 s2 n := by
  simp only [memcmpWords_tail, memcmpHead_tail]

theorem memcmp_agree (h : Agree m p1 p2 n) : memcmp m p1 p2 n = 0 := by
  unfold memcmp
  rw [memcmp_loops, memcmpTail_agree h]
  rfl

theorem memcmp_differ (hk : k < n) (h : Agree m p1 p2 k) (hne : m (p1 + k) ≠ m (p2 + k)) :
    memcmp m p1 p2 n = verdict (m (p1 + k)) (m (p2 + k)) := by
  unfold memcmp
  rw [memcmp_loops, memcmpTail_differ hk h hne]
  rfl

theorem first_difference (h : ¬ Agree m p1 p2 n) :
    ∃ k, k < n ∧ Agree m p1 p2 k ∧ m (p1 + k) ≠ m (p2 + k) := by
  induction n with
  | zero => exact absurd (fun i hi => absurd hi (Nat.not_lt_zero i)) h
  | succ n ih =>
      by_cases hn : Agree m p1 p2 n
      · refine ⟨n, Nat.lt_succ_self n, hn, fun heq => h fun i hi => ?_⟩
        rcases Nat.lt_or_eq_of_le (Nat.le_of_lt_succ hi) with hlt | rfl
        · exact hn i hlt
        · exact heq
      · obtain ⟨k, hk, hagree, hne⟩ := ih hn
        exact ⟨k, Nat.lt_succ_of_lt hk, hagree, hne⟩

theorem memcmp_eq_zero_iff : memcmp m p1 p2 n = 0 ↔ Agree m p1 p2 n := by
  constructor
  · intro hzero
    by_contra h
    obtain ⟨k, hk, hagree, hne⟩ := first_difference h
    rw [memcmp_differ hk hagree hne] at hzero
    unfold verdict at hzero
    split at hzero <;> cases hzero
  · exact memcmp_agree

/-- `memcmp` compares as the bytes do one by one, `strlen` ends at the
first zero, and the test on words is exact. -/
theorem memcmp_strlen_exact :
    (∀ (m : Memory) (s1 s2 n : Nat),
      (memcmp m s1 s2 n = 0 ↔ ∀ i, i < n → m (s1 + i) = m (s2 + i))
        ∧ ∀ k, k < n → (∀ i, i < k → m (s1 + i) = m (s2 + i)) → m (s1 + k) ≠ m (s2 + k) →
          memcmp m s1 s2 n = if (m (s1 + k)).toNat < (m (s2 + k)).toNat then -1 else 1)
      ∧ (∀ (m : Memory) (s k : Nat), s ≠ 0 → FirstNul m s k →
        ∀ fuel, k < fuel → strlen m fuel s = some k)
      ∧ ∀ x : BitVec 64, hasZeroByte x = true ↔ ∃ i, i < 8 ∧ x.extractLsb' (8 * i) 8 = 0#8 :=
  ⟨fun _ _ _ _ => ⟨memcmp_eq_zero_iff, fun _ hk hagree hne => memcmp_differ hk hagree hne⟩,
    fun _ _ _ hs hnul _ hf => hnul.strlen hs hf, hasZeroByte_iff⟩

/-- A byte above 0x7f is greater, 0x81 is not zero, and neither is a 0x01
above a zero. -/
theorem memcmp_strlen_exact_bytes :
    memcmp (fun x => if x = 12 then 0xfe else 0x01) 1 3 10 = -1
      ∧ strlen (fun x => if x = 12 then 0 else 0x81) 12 1 = some 11
      ∧ hasZeroByte 0x8080808081010180 = false
      ∧ hasZeroByte 0x8080808081010080 = true := by
  refine ⟨(memcmp_strlen_exact.1 _ 1 3 10).2 9 (by decide) (by decide) (by decide),
    memcmp_strlen_exact.2.1 _ 1 11 (by decide) ⟨by decide, rfl⟩ 12 (by decide), ?_,
    (memcmp_strlen_exact.2.2 _).mpr ⟨1, by decide, by decide⟩⟩
  rw [Bool.eq_false_iff, ne_eq, memcmp_strlen_exact.2.2]
  decide

-- ==== strings

/-- Two strings are equal if they have the same length and agree. -/
theorem stringEqual_spec {lhs rhs kl kr : Nat} (hl : lhs ≠ 0) (hr : rhs ≠ 0)
    (hnl : FirstNul m lhs kl) (hnr : FirstNul m rhs kr) (hfl : kl < fuel) (hfr : kr < fuel) :
    stringEqual m fuel lhs rhs = some (decide (kl = kr) && memcmp m lhs rhs kl == 0) := by
  unfold stringEqual
  rw [if_neg (by tauto), hnl.strlen hl hfl, hnr.strlen hr hfr]
  rfl

end Alix.Klib
