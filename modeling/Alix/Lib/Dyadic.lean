/-
Dyadic blocks: runs of `2^order` consecutive naturals that start at a
multiple of their own length.

Two such blocks are nested or apart, never crossing (`sub_of_share`),
and a block of order `o` has one buddy, the other half of the block of
order `o + 1` around it. The buddy is computed by flipping bit `o` of
the base; `buddy_cases` says what that flip is in arithmetic.

A set of naturals has many partitions into blocks below a given order,
but only one in which no two buddies stand side by side: the maximal
blocks of the set (`Partition.iff_maximal`).
-/
import Mathlib.Data.Nat.Bitwise
import Mathlib.Tactic.Ring
import Mathlib.Tactic.Linarith

namespace Dyadic

/-- A run of `2^order` naturals from `base` on. -/
structure Block where
  base : Nat
  order : Nat
  deriving DecidableEq, Repr

namespace Block

/-- The base is a multiple of the length. -/
def Aligned (b : Block) : Prop := 2 ^ b.order ∣ b.base

instance : Membership Nat Block :=
  ⟨fun b q => b.base ≤ q ∧ q < b.base + 2 ^ b.order⟩

instance (b : Block) (q : Nat) : Decidable (q ∈ b) :=
  inferInstanceAs (Decidable (b.base ≤ q ∧ q < b.base + 2 ^ b.order))

theorem mem_def {b : Block} {q : Nat} :
    q ∈ b ↔ b.base ≤ q ∧ q < b.base + 2 ^ b.order := Iff.rfl

/-- The two runs share no element. -/
def Apart (b c : Block) : Prop :=
  b.base + 2 ^ b.order ≤ c.base ∨ c.base + 2 ^ c.order ≤ b.base

theorem Apart.symm {b c : Block} (h : b.Apart c) : c.Apart b := Or.symm h

theorem base_mem (b : Block) : b.base ∈ b := by
  have := Nat.two_pow_pos b.order
  exact ⟨Nat.le_refl _, by omega⟩

/-- Apart blocks share no element. -/
theorem Apart.not_mem {b c : Block} (h : b.Apart c) {q : Nat}
    (hb : q ∈ b) : q ∉ c := by
  intro hc
  obtain ⟨hb1, hb2⟩ := hb
  obtain ⟨hc1, hc2⟩ := hc
  rcases h with h | h <;> omega

/-- Blocks without a common element are apart. -/
theorem apart_of_not_mem {b c : Block} (h : ∀ q ∈ b, q ∉ c) :
    b.Apart c := by
  by_contra hn
  unfold Apart at hn
  push Not at hn
  have hb := Nat.two_pow_pos b.order
  have hc := Nat.two_pow_pos c.order
  by_cases hle : b.base ≤ c.base
  · exact h c.base ⟨hle, by omega⟩ ⟨Nat.le_refl _, by omega⟩
  · exact h b.base ⟨Nat.le_refl _, by omega⟩ ⟨by omega, by omega⟩

/-- Aligned blocks that share an element are nested. -/
theorem sub_of_share {b c : Block} (hb : b.Aligned) (hc : c.Aligned)
    (hle : b.order ≤ c.order) {q : Nat} (hqb : q ∈ b) (hqc : q ∈ c) :
    c.base ≤ b.base ∧ b.base + 2 ^ b.order ≤ c.base + 2 ^ c.order := by
  obtain ⟨m, hm⟩ := hb
  obtain ⟨k, hk⟩ := hc
  obtain ⟨d, hd⟩ := Nat.exists_eq_add_of_le hle
  have hpow : 2 ^ c.order = 2 ^ b.order * 2 ^ d := by rw [hd, pow_add]
  obtain ⟨h1, h2⟩ := hqb
  obtain ⟨h3, h4⟩ := hqc
  have hlo : 2 ^ d * k < m + 1 := by
    apply Nat.lt_of_mul_lt_mul_left (a := 2 ^ b.order)
    calc 2 ^ b.order * (2 ^ d * k) = c.base := by rw [hk, hpow]; ring
      _ ≤ q := h3
      _ < 2 ^ b.order * (m + 1) := by rw [Nat.mul_add, ← hm]; omega
  have hhi : m < 2 ^ d * k + 2 ^ d := by
    apply Nat.lt_of_mul_lt_mul_left (a := 2 ^ b.order)
    calc 2 ^ b.order * m = b.base := hm.symm
      _ ≤ q := h1
      _ < c.base + 2 ^ c.order := h4
      _ = 2 ^ b.order * (2 ^ d * k + 2 ^ d) := by rw [hk, hpow]; ring
  constructor
  · calc c.base = 2 ^ b.order * (2 ^ d * k) := by rw [hk, hpow]; ring
      _ ≤ 2 ^ b.order * m := Nat.mul_le_mul_left _ (by omega)
      _ = b.base := hm.symm
  · calc b.base + 2 ^ b.order = 2 ^ b.order * (m + 1) := by rw [hm]; ring
      _ ≤ 2 ^ b.order * (2 ^ d * k + 2 ^ d) :=
        Nat.mul_le_mul_left _ (by omega)
      _ = c.base + 2 ^ c.order := by rw [hk, hpow]; ring

/-- An element aligned to the block's own length is its base. -/
theorem eq_base_of_dvd {b : Block} (hb : b.Aligned) {q : Nat}
    (hq : q ∈ b) (hd : 2 ^ b.order ∣ q) : q = b.base := by
  have hc : (Block.mk q b.order).Aligned := hd
  have hqq : q ∈ Block.mk q b.order := base_mem ⟨q, b.order⟩
  obtain ⟨h1, h2⟩ := sub_of_share hb hc (Nat.le_refl _) hq hqq
  obtain ⟨h3, -⟩ := sub_of_share hc hb (Nat.le_refl _) hqq hq
  change q ≤ b.base at h1
  change b.base ≤ q at h3
  omega

end Block

-- ==== buddies

/-- The base of the buddy block: bit `o` flipped. -/
def buddy (p o : Nat) : Nat := p ^^^ (1 <<< o)

/-- Flipping bit `o` of a multiple of `2^o` moves one block up or
down, inside the enclosing block of the next order. -/
theorem buddy_cases {p o : Nat} (h : 2 ^ o ∣ p) :
    (buddy p o = p + 2 ^ o ∧ 2 ^ (o + 1) ∣ p)
      ∨ (buddy p o + 2 ^ o = p ∧ 2 ^ (o + 1) ∣ buddy p o) := by
  obtain ⟨k, rfl⟩ := h
  have hx : buddy (2 ^ o * k) o = 2 ^ o * (k ^^^ 1) := by
    have h1 : 2 ^ o * k = k <<< o := by rw [Nat.shiftLeft_eq, Nat.mul_comm]
    have h2 : 2 ^ o * (k ^^^ 1) = (k ^^^ 1) <<< o := by
      rw [Nat.shiftLeft_eq, Nat.mul_comm]
    rw [buddy, h1, h2, Nat.shiftLeft_xor_distrib]
  rw [hx]
  rcases Nat.even_or_odd' k with ⟨j, rfl | rfl⟩
  · left
    have : 2 * j ^^^ 1 = 2 * j + 1 := by
      rw [Nat.xor_one_of_even ⟨j, by ring⟩]
    rw [this]
    exact ⟨by ring, ⟨j, by ring⟩⟩
  · right
    have : 2 * j + 1 ^^^ 1 = 2 * j := by
      rw [Nat.xor_one_of_odd ⟨j, rfl⟩]
      rfl
    rw [this]
    exact ⟨by ring, ⟨j, by ring⟩⟩

/-- The buddy is aligned to the same order. -/
theorem buddy_dvd {p o : Nat} (h : 2 ^ o ∣ p) : 2 ^ o ∣ buddy p o := by
  have hstep : 2 ^ o ∣ 2 ^ (o + 1) := ⟨2, by ring⟩
  rcases buddy_cases h with ⟨he, hd⟩ | ⟨-, hd⟩
  · rw [he]
    exact Nat.dvd_add h (Nat.dvd_refl _)
  · exact Nat.dvd_trans hstep hd

/-- The lower one of a buddy pair heads the merged block, which is
exactly the two halves. -/
theorem mem_merge {p o q : Nat} (h : 2 ^ o ∣ p) :
    q ∈ Block.mk (min p (buddy p o)) (o + 1)
      ↔ q ∈ Block.mk p o ∨ q ∈ Block.mk (buddy p o) o := by
  simp only [Block.mem_def, pow_succ]
  rcases buddy_cases h with ⟨he, -⟩ | ⟨he, -⟩ <;> omega

/-- The merged block is aligned. -/
theorem merge_aligned {p o : Nat} (h : 2 ^ o ∣ p) :
    (Block.mk (min p (buddy p o)) (o + 1)).Aligned := by
  show 2 ^ (o + 1) ∣ min p (buddy p o)
  rcases buddy_cases h with ⟨he, hd⟩ | ⟨he, hd⟩
  · rw [Nat.min_eq_left (by omega)]
    exact hd
  · rw [Nat.min_eq_right (by omega)]
    exact hd

/-- An aligned block that holds `p`'s buddy either starts there, at an
order no larger, or holds `p` as well. -/
theorem of_mem_buddy {p o : Nat} (h : 2 ^ o ∣ p) {c : Block}
    (hc : c.Aligned) (hm : buddy p o ∈ c) :
    (c.base = buddy p o ∧ c.order ≤ o) ∨ p ∈ c := by
  by_cases hle : c.order ≤ o
  · left
    refine ⟨?_, hle⟩
    have hd : 2 ^ c.order ∣ buddy p o :=
      Nat.dvd_trans (pow_dvd_pow 2 hle) (buddy_dvd h)
    exact (Block.eq_base_of_dvd hc hm hd).symm
  · right
    have hbig : buddy p o ∈ Block.mk (min p (buddy p o)) (o + 1) :=
      (mem_merge h).mpr (Or.inr (Block.base_mem ⟨buddy p o, o⟩))
    have hp : p ∈ Block.mk (min p (buddy p o)) (o + 1) :=
      (mem_merge h).mpr (Or.inl (Block.base_mem ⟨p, o⟩))
    obtain ⟨h1, h2⟩ := Block.sub_of_share (merge_aligned h) hc
      (by show o + 1 ≤ c.order; omega) hbig hm
    exact ⟨by have := hp.1; omega, by have := hp.2; omega⟩

/-- Flipping a bit twice. -/
theorem buddy_buddy (p o : Nat) : buddy (buddy p o) o = p := by
  unfold buddy
  rw [Nat.xor_assoc, Nat.xor_self, Nat.xor_zero]

theorem buddy_ne {p o : Nat} (h : 2 ^ o ∣ p) : buddy p o ≠ p := by
  have hpos := Nat.two_pow_pos o
  rcases buddy_cases h with ⟨he, -⟩ | ⟨he, -⟩ <;> omega

/-- The buddy of the lower half is the upper half. -/
theorem buddy_lower {p o : Nat} (h : 2 ^ (o + 1) ∣ p) :
    buddy p o = p + 2 ^ o := by
  have h0 : 2 ^ o ∣ p := Nat.dvd_trans (pow_dvd_pow 2 (Nat.le_succ o)) h
  rcases buddy_cases h0 with ⟨he, -⟩ | ⟨he, hd⟩
  · exact he
  · obtain ⟨k, hk⟩ := h
    obtain ⟨j, hj⟩ := hd
    rw [hj, hk, pow_succ] at he
    have : 2 * j + 1 = 2 * k := by
      apply Nat.eq_of_mul_eq_mul_left (Nat.two_pow_pos o)
      calc 2 ^ o * (2 * j + 1) = 2 ^ o * 2 * j + 2 ^ o := by ring
        _ = 2 ^ o * 2 * k := he
        _ = 2 ^ o * (2 * k) := by ring
    omega

-- ==== partitions

/-- The blocks `S` of order below `n` are a partition of `F`. -/
structure Partition (n : Nat) (S : Block → Prop) (F : Nat → Prop) : Prop where
  lt : ∀ b, S b → b.order < n
  aligned : ∀ b, S b → b.Aligned
  apart : ∀ b c, S b → S c → b ≠ c → b.Apart c
  cover : ∀ q, (∃ b, S b ∧ q ∈ b) ↔ F q

/-- No two buddies that could be merged below order `n`. -/
def NoBuddies (n : Nat) (S : Block → Prop) : Prop :=
  ∀ p o, o + 1 < n → S ⟨p, o⟩ → ¬ S ⟨buddy p o, o⟩

/-- An aligned block inside `F` that is not half of a larger one. -/
structure Maximal (n : Nat) (F : Nat → Prop) (b : Block) : Prop where
  lt : b.order < n
  aligned : b.Aligned
  inside : ∀ q ∈ b, F q
  top : b.order + 1 < n → ∃ q ∈ Block.mk (buddy b.base b.order) b.order, ¬ F q

variable {n : Nat} {S : Block → Prop} {F : Nat → Prop}

/-- Blocks of a partition that share an element are one block. -/
theorem Partition.eq_of_share (h : Partition n S F) {b c : Block} (hb : S b)
    (hc : S c) {q : Nat} (hqb : q ∈ b) (hqc : q ∈ c) : b = c := by
  by_contra hne
  exact (h.apart b c hb hc hne).not_mem hqb hqc

/-- Without buddies, an aligned block inside `F` lies in one block of the
partition: both halves do, and two different blocks would be buddies. -/
theorem Partition.inside_one (h : Partition n S F) (hs : NoBuddies n S) :
    ∀ o p, o < n → 2 ^ o ∣ p → (∀ q ∈ Block.mk p o, F q) →
      ∃ c, S c ∧ o ≤ c.order ∧ p ∈ c := by
  intro o
  induction o with
  | zero =>
      intro p _ _ hin
      obtain ⟨c, hc, hp⟩ := (h.cover p).mpr (hin p (Block.base_mem ⟨p, 0⟩))
      exact ⟨c, hc, Nat.zero_le _, hp⟩
  | succ o ih =>
      intro p hlt hal hin
      have hal0 : 2 ^ o ∣ p := Nat.dvd_trans (pow_dvd_pow 2 (Nat.le_succ o)) hal
      -- the block is its two halves
      have hbud := buddy_lower hal
      have hhalf : ∀ q, q ∈ Block.mk p o ∨ q ∈ Block.mk (buddy p o) o → F q := by
        intro q hq
        apply hin
        simp only [Block.mem_def, hbud, pow_succ] at hq ⊢
        omega
      obtain ⟨c, hc, hco, hpc⟩ := ih p (by omega) hal0
        fun q hq => hhalf q (Or.inl hq)
      obtain ⟨d, hd, hdo, hpd⟩ := ih (buddy p o) (by omega) (buddy_dvd hal0)
        fun q hq => hhalf q (Or.inr hq)
      by_cases hbig : o + 1 ≤ c.order
      · exact ⟨c, hc, hbig, hpc⟩
      · rcases of_mem_buddy hal0 (h.aligned d hd) hpd with ⟨hbase, hle⟩ | hp
        · exfalso
          have hco' : c.order = o := by omega
          have hdo' : d.order = o := by omega
          have hcb : p = c.base :=
            Block.eq_base_of_dvd (h.aligned c hc) hpc (by rw [hco']; exact hal0)
          have hcS : S ⟨p, o⟩ := by
            rw [hcb, ← hco']
            exact hc
          have hdS : S ⟨buddy p o, o⟩ := by
            rw [← hbase, ← hdo']
            exact hd
          exact hs p o hlt hcS hdS
        -- one block for both halves is of the larger order
        · have hcd := h.eq_of_share hc hd hpc hp
          rw [hcd] at hbig
          have hdo' : d.order = o := by omega
          have hbase := Block.eq_base_of_dvd (h.aligned d hd) hp
            (by rw [hdo']; exact hal0)
          have hout := hpd.2
          rw [← hbase, hdo', hbud] at hout
          omega

/-- A partition without buddies is the set of maximal blocks. -/
theorem Partition.iff_maximal (h : Partition n S F) (hs : NoBuddies n S)
    (b : Block) : S b ↔ Maximal n F b := by
  constructor
  · intro hb
    refine ⟨h.lt b hb, h.aligned b hb, fun q hq => (h.cover q).mp ⟨b, hb, hq⟩, ?_⟩
    intro hlt
    by_contra hall
    push Not at hall
    have hal := h.aligned b hb
    obtain ⟨c, hc, hco, hbc⟩ := h.inside_one hs b.order (buddy b.base b.order)
      (h.lt b hb) (buddy_dvd hal) hall
    rcases of_mem_buddy hal (h.aligned c hc) hbc with ⟨hbase, hle⟩ | hmem
    · have hord : c.order = b.order := by omega
      apply hs b.base b.order hlt hb
      rw [← hbase, ← hord]
      exact hc
    · have hcb := h.eq_of_share hc hb hmem (Block.base_mem b)
      rw [hcb] at hbc
      have hne := buddy_ne hal
      exact hne (Block.eq_base_of_dvd hal hbc (buddy_dvd hal))
  · intro hb
    obtain ⟨c, hc, hco, hbc⟩ := h.inside_one hs b.order b.base hb.lt hb.aligned
      hb.inside
    by_cases hord : c.order = b.order
    · have hbase := Block.eq_base_of_dvd (h.aligned c hc) hbc
        (by rw [hord]; exact hb.aligned)
      have : b = c := by
        cases b
        cases c
        simp_all
      rw [this]
      exact hc
    · exfalso
      have hlt := h.lt c hc
      obtain ⟨q, hq, hno⟩ := hb.top (by omega)
      apply hno
      refine (h.cover q).mp ⟨c, hc, ?_⟩
      -- `c` contains the block of the next order around `b`
      have hm := (mem_merge hb.aligned).mpr (Or.inl (Block.base_mem ⟨b.base, b.order⟩))
      obtain ⟨h1, h2⟩ := Block.sub_of_share (merge_aligned hb.aligned)
        (h.aligned c hc) (by show b.order + 1 ≤ c.order; omega) hm hbc
      have hqm := (mem_merge hb.aligned).mpr (Or.inr hq)
      exact ⟨by have := hqm.1; omega, by have := hqm.2; omega⟩

end Dyadic
