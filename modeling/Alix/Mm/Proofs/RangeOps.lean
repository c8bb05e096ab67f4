/-
The range loops of `mm/vmm.c`, by their view.

`uncommit_range` takes a range by its ends, and `vas_unmap` and
`vas_protect` go through the descriptors and cut the range to each. The
descriptors are sorted, so a loop that stops at the first one behind the
range has seen all that meet it.
-/
import Alix.Mm.Proofs.PageOps

namespace Alix

open Paging
open Pointers
open Dyadic (Block)

-- ==== the ranges

/-- The page numbers of a range that starts at a page. -/
theorem pages_iff {lo hi n : Nat} (hlo : lo % PAGE_SIZE = 0) :
    Pages (pages lo hi) n ↔ lo ≤ n * PAGE_SIZE ∧ n * PAGE_SIZE < hi := by
  have hs : PAGE_SIZE = 4096 := rfl
  unfold Pages pages
  simp only [List.mem_range']
  rw [hs] at hlo ⊢
  constructor
  · intro h
    obtain ⟨va, ⟨i, hlt, rfl⟩, rfl⟩ := h
    omega
  · intro h
    exact ⟨n * 4096, ⟨n - lo / 4096, by omega, by omega⟩, by omega⟩

theorem lowerPages_pages {lo hi : Nat} (hlo : lo % PAGE_SIZE = 0) (hhi : hi ≤ 2 ^ 47) :
    LowerPages (pages lo hi) := by
  have hs : PAGE_SIZE = 4096 := rfl
  intro va hva
  unfold pages at hva
  rw [List.mem_range'] at hva
  obtain ⟨i, hlt, rfl⟩ := hva
  rw [hs] at hlo hlt ⊢
  omega

theorem pages_distinct {lo hi : Nat} (hlo : lo % PAGE_SIZE = 0) :
    (pages lo hi).Pairwise fun v w => v / PAGE_SIZE ≠ w / PAGE_SIZE := by
  have hs : PAGE_SIZE = 4096 := rfl
  have hlt : (pages lo hi).Pairwise fun v w => v < w := by
    unfold pages
    exact List.pairwise_lt_range' _ (Nat.succ_pos _)
  refine hlt.imp_of_mem fun {v w} hv hw hvw => ?_
  unfold pages at hv hw
  rw [List.mem_range'] at hv hw
  obtain ⟨i, -, rfl⟩ := hv
  obtain ⟨j, -, rfl⟩ := hw
  rw [hs] at hlo hvw ⊢
  omega

/-- The part of a range that lies in a descriptor, as the loops cut it. -/
theorem cut_iff {start stop lo hi x : Nat} {v : Vad}
    (hlo : lo = if v.start > start then v.start else start)
    (hhi : hi = if v.stop < stop then v.stop else stop) :
    lo ≤ x ∧ x < hi ↔ (v.start ≤ x ∧ x < v.stop) ∧ start ≤ x ∧ x < stop := by
  rw [hlo, hhi]
  split <;> split <;> omega

theorem cut_aligned {start : Nat} {v : Vad} (hv : v.start % PAGE_SIZE = 0)
    (hstart : start % PAGE_SIZE = 0) :
    (if v.start > start then v.start else start) % PAGE_SIZE = 0 := by
  split
  · exact hv
  · exact hstart

theorem cut_le {stop n : Nat} {v : Vad} (hv : v.stop ≤ n) :
    (if v.stop < stop then v.stop else stop) ≤ n := by
  split
  · exact hv
  · omega

/-- Behind the range nothing meets it. -/
theorem VadsOk.behind {v : Vad} {l : List Vad} {stop x : Nat} (h : VadsOk (v :: l))
    (hge : stop ≤ v.start) (hx : Covers (v :: l) x) : stop ≤ x := by
  obtain ⟨w, hw, h1, h2⟩ := hx
  rcases List.mem_cons.mp hw with rfl | hw
  · omega
  · have := h.head_le hw
    have := (h.fits v List.mem_cons_self).1
    omega

-- ==== the loops

namespace Settled

variable {maxPfn : Nat} {usable : Nat → Bool} {heap : List Block} {fx : Outside}
  {R : Nat → Prop} {V : View} {m : Mach} {r : Nat} {start stop : Nat} {l : List Vad}

section loops

variable (hmax : maxPfn < 2 ^ 40) (hzero : usable 0 = false)

include hmax hzero

/-- `uncommit_range`, by its ends. -/
theorem uncommitRange (h : Settled maxPfn usable heap fx R V m) (hr : R r) {lo hi : Nat}
    (hlo : lo % PAGE_SIZE = 0) (hhi : hi ≤ 2 ^ 47) :
    ∃ m' V', m.uncommitRange r lo hi = .ok m' ∧ Settled maxPfn usable heap fx R V' m'
      ∧ Clears r (fun n => lo ≤ n * PAGE_SIZE ∧ n * PAGE_SIZE < hi) V V'
      ∧ SameTables R m m' := by
  obtain ⟨m', V', hok, h', hc, hsame⟩ :=
    h.uncommitPages hmax hzero hr (lowerPages_pages hlo hhi)
  exact ⟨m', V', hok, h', hc.congr fun n => pages_iff hlo, hsame⟩

variable (stop) in
/-- The loop of `vas_unmap`. -/
theorem unmapVads (h : Settled maxPfn usable heap fx R V m) (hr : R r) (hok : VadsOk l)
    (hlow : ∀ x ∈ l, x.stop ≤ 2 ^ 47) (hstart : start % PAGE_SIZE = 0) :
    ∃ m' V', Machine.unmapVads r start stop l m = .ok m'
      ∧ Settled maxPfn usable heap fx R V' m'
      ∧ Clears r (fun n => Covers l (n * PAGE_SIZE)
          ∧ start ≤ n * PAGE_SIZE ∧ n * PAGE_SIZE < stop) V V' := by
  induction l generalizing V m with
  | nil =>
      refine ⟨m, V, rfl, h, Clears.empty fun n hn => ?_⟩
      obtain ⟨v, hv, -⟩ := hn.1
      cases hv
  | cons v l ih =>
      have hv := hok.fits v List.mem_cons_self
      have hlow' : ∀ x ∈ l, x.stop ≤ 2 ^ 47 := fun x hx => hlow x (List.mem_cons_of_mem _ hx)
      unfold Machine.unmapVads
      split
      · split
        · obtain ⟨m', V', hrun, h', hc⟩ := ih h hok.tail hlow'
          refine ⟨m', V', hrun, h', hc.congr fun n => ?_⟩
          rw [covers_cons]
          constructor
          · exact fun hn => ⟨Or.inr hn.1, hn.2⟩
          · exact fun hn => ⟨hn.1.resolve_left (by omega), hn.2⟩
        · simp only
          generalize hlo : (if v.start > start then v.start else start) = lo
          generalize hhi : (if v.stop < stop then v.stop else stop) = hi
          have halign : lo % PAGE_SIZE = 0 := hlo ▸ cut_aligned hv.2.2.1 hstart
          have hhigh : hi ≤ 2 ^ 47 := hhi ▸ cut_le (hlow v List.mem_cons_self)
          obtain ⟨m1, V1, hun, h1, hc1, -⟩ := h.uncommitRange hmax hzero hr halign hhigh
          obtain ⟨m', V', hrun, h', hc⟩ := ih h1 hok.tail hlow'
          rw [hun]
          refine ⟨m', V', hrun, h', (hc1.trans hc).congr fun n => ?_⟩
          rw [covers_cons, cut_iff hlo.symm hhi.symm]
          exact or_and_right.symm
      · rename_i hge
        refine ⟨m, V, rfl, h, Clears.empty fun n hn => ?_⟩
        have := hok.behind (Nat.le_of_not_lt hge) hn.1
        omega

variable (stop) in
/-- The loop of `vas_protect`. A descriptor that meets the range gets the
flags as a whole. -/
theorem protectVads (h : Settled maxPfn usable heap fx R V m) (hr : R r) (hok : VadsOk l)
    (hlow : ∀ x ∈ l, x.stop ≤ 2 ^ 47) (hstart : start % PAGE_SIZE = 0) (flags : Word) :
    ∃ m' V' l', Machine.protectVads r start stop flags l m = (m', l', 0)
      ∧ Settled maxPfn usable heap fx R V' m'
      ∧ Reflags r (fun n => Covers l (n * PAGE_SIZE)
          ∧ start ≤ n * PAGE_SIZE ∧ n * PAGE_SIZE < stop) flags V V'
      ∧ ∀ x ∈ l', ∃ w ∈ l, x.start = w.start ∧ x.stop = w.stop
          ∧ (x.flags = w.flags ∨ x.flags = (w.flags &&& ~~~VAD_PROT_MASK) ||| flags) := by
  have hself : ∀ l : List Vad, ∀ x ∈ l, ∃ w ∈ l, x.start = w.start ∧ x.stop = w.stop
      ∧ (x.flags = w.flags ∨ x.flags = (w.flags &&& ~~~VAD_PROT_MASK) ||| flags) :=
    fun l x hx => ⟨x, hx, rfl, rfl, Or.inl rfl⟩
  induction l generalizing V m with
  | nil =>
      refine ⟨m, V, [], rfl, h, Reflags.empty fun n hn => ?_, hself []⟩
      obtain ⟨v, hv, -⟩ := hn.1
      cases hv
  | cons v l ih =>
      have hv := hok.fits v List.mem_cons_self
      have hlow' : ∀ x ∈ l, x.stop ≤ 2 ^ 47 := fun x hx => hlow x (List.mem_cons_of_mem _ hx)
      unfold Machine.protectVads
      split
      · split
        · obtain ⟨m', V', l', hrun, h', hc, hl'⟩ := ih h hok.tail hlow'
          rw [hrun]
          refine ⟨m', V', v :: l', rfl, h', hc.congr fun n => ?_, fun x hx => ?_⟩
          · rw [covers_cons]
            constructor
            · exact fun hn => ⟨Or.inr hn.1, hn.2⟩
            · exact fun hn => ⟨hn.1.resolve_left (by omega), hn.2⟩
          · rcases List.mem_cons.mp hx with rfl | hx
            · exact hself _ x List.mem_cons_self
            · obtain ⟨w, hw, he⟩ := hl' x hx
              exact ⟨w, List.mem_cons_of_mem _ hw, he⟩
        · simp only
          generalize hlo : (if v.start > start then v.start else start) = lo
          generalize hhi : (if v.stop < stop then v.stop else stop) = hi
          have halign : lo % PAGE_SIZE = 0 := hlo ▸ cut_aligned hv.2.2.1 hstart
          have hhigh : hi ≤ 2 ^ 47 := hhi ▸ cut_le (hlow v List.mem_cons_self)
          obtain ⟨m1, V1, hre, h1, hset⟩ :=
            h.remapPages flags hmax hzero hr (lowerPages_pages halign hhigh)
          have hc1 : Reflags r (fun n => lo ≤ n * PAGE_SIZE ∧ n * PAGE_SIZE < hi) flags V V1 :=
            hset.congr fun n => pages_iff halign
          obtain ⟨m', V', l', hrun, h', hc, hl'⟩ := ih h1 hok.tail hlow'
          simp only [hre, ne_eq, not_true_eq_false, if_false, hrun]
          refine ⟨m', V', _, rfl, h', (hc1.trans hc).congr fun n => ?_, fun x hx => ?_⟩
          · rw [covers_cons, cut_iff hlo.symm hhi.symm]
            exact or_and_right.symm
          · rcases List.mem_cons.mp hx with rfl | hx
            · exact ⟨v, List.mem_cons_self, rfl, rfl, Or.inr rfl⟩
            · obtain ⟨w, hw, he⟩ := hl' x hx
              exact ⟨w, List.mem_cons_of_mem _ hw, he⟩
      · rename_i hge
        refine ⟨m, V, _, rfl, h, Reflags.empty fun n hn => ?_, hself _⟩
        have := hok.behind (Nat.le_of_not_lt hge) hn.1
        omega

end loops

end Settled

end Alix
