/-
`krealloc`, as a whole.

# What is copied

The old size comes from the cache of the slab or from the header of the
large allocation. The first is the size of the slot, which is at least
what was asked for; the second is what was asked for. Either way the
bytes that are copied are within the old block and within the new one, and
they include the first bytes of the contents, as many as fit.

# What holds

On a heap that a run reaches, `krealloc` of a live pointer to a size of 1
byte to 4 MiB returns: NULL, and nothing has been done; or a new block
with the old contents, and the old one has been freed, once
(`krealloc_exact`).
-/
import Alix.Mm.Proofs.Payload

namespace Alix.Kheap

open Bytes (Memory copy)
open Dyadic (Block)

variable {maxPfn : Nat} {usable : Nat → Bool} {s s' : Kheap} {G : Ghost} {n m p x : Nat}
  {live : List (Nat × Nat)} {others : List Block} {ref : Nat → Nat}

/-- A `krealloc` that moves the contents makes one allocation and frees
one. -/
theorem Inv.krealloc_counts (h : Inv maxPfn usable s G live others ref) (hx : (x, m) ∈ live)
    (hn0 : n ≠ 0) (hn : n < 2 ^ 64 - 24) (hs : s.krealloc x n = .ok (s', p)) (hp : p ≠ 0) :
    s'.totalAllocCount = s.totalAllocCount + 1 ∧ s'.totalFreeCount = s.totalFreeCount + 1 := by
  obtain ⟨q, r, hq, hb⟩ := h.backed x m hx
  have hx0 := (h.page_of_ptr hq hb).2
  unfold Kheap.krealloc at hs
  rw [if_neg hx0, if_neg hn0] at hs
  cases hk : s.kmalloc n with
  | error e => simp [hk] at hs
  | ok r =>
  obtain ⟨t, p'⟩ := r
  simp only [hk] at hs
  obtain ⟨hz, -⟩ | ⟨hp', hallocs, hfrees, G₁, ref₁, h₁⟩ := h.kmalloc hn hk
  · rw [if_pos hz] at hs
    cases hs
    exact absurd rfl hp
  · rw [if_neg hp'] at hs
    have hx₁ : (x, m) ∈ (p', n) :: live := List.mem_cons_of_mem _ hx
    obtain ⟨size, hold, -⟩ := h₁.oldSize hx₁
    have hcopied := h₁.write_live (h₁.backed p' n List.mem_cons_self)
      (m := copy t.mem p' t.mem x (if size < n then size else n)) fun a ha => copy_within ha
    obtain ⟨u, hfree, ha, hf, -⟩ := hcopied.kfree hx₁
    simp only [hold, hfree] at hs
    cases hs
    exact ⟨ha.trans hallocs, by rw [hf, ← hfrees]⟩

/-- What a `krealloc` of the allocation of `m` bytes at `x` that returns
`p` has done: `p` is live, has room for `n` bytes and starts with the old
contents; `x` has been freed, once; all others have what they had. -/
structure Reallocated (maxPfn : Nat) (usable : Nat → Bool) (s s' : Kheap)
    (live : List (Nat × Nat)) (others : List Block) (x m p n : Nat) : Prop where
  run : Run maxPfn usable s' ((p, n) :: released live x) others
  room : n ≤ s'.room p
  contents : ∀ i, i < m → i < n → s'.mem (p + i) = s.mem (x + i)
  once : s'.totalAllocCount = s.totalAllocCount + 1 ∧ s'.totalFreeCount = s.totalFreeCount + 1
  rest : SameBytes (released live x) s.mem s'.mem

/-- `krealloc` of a live pointer, to at most 4 MiB. -/
theorem krealloc_exact (h : Run maxPfn usable s live others) (hx : (x, m) ∈ live) (h1 : 1 ≤ n)
    (hn : n ≤ 2 ^ 22) :
    ∃ s' p, s.krealloc x n = .ok (s', p)
      ∧ ((p = 0 ∧ s' = s) ∨ (p ≠ 0 ∧ Reallocated maxPfn usable s s' live others x m p n)) := by
  have hmay : MayFree live x := Or.inr ⟨m, hx⟩
  obtain ⟨s', p, hs, -⟩ := h.kept.krealloc_null hmay (show n ≠ 0 by omega) (by omega)
  refine ⟨s', p, hs, ?_⟩
  obtain hnull | ⟨hp, -, hkept, hrest, hcontents⟩ :=
    h.kept.krealloc_bytes hmay (by omega) (by omega) hs
  · exact Or.inl hnull
  · refine Or.inr ⟨hp, ?_, ?_, hcontents m hx, ?_, hrest⟩
    · have hrun := h.call (k := .krealloc x n) ⟨hmay, by omega⟩ hs
      simpa [HeapCall.after, granted, hp, show n ≠ 0 by omega] using hrun
    · obtain ⟨⟨G, ref, hinv⟩, -⟩ := hkept
      exact hinv.live_room List.mem_cons_self
    · obtain ⟨⟨G, ref, hinv⟩, -⟩ := h.kept
      exact hinv.krealloc_counts hx (by omega) (by omega) hs hp

/-- A block of 8 bytes that grows to 5000 leaves its slab. -/
theorem krealloc_exact_large : ∃ s x s' p, Run 16 (fun q => 1 ≤ q) s [(x, 8)] []
    ∧ s.krealloc x 5000 = .ok (s', p) ∧ p ≠ 0
    ∧ Reallocated 16 (fun q => 1 ≤ q) s s' [(x, 8)] [] x 8 p 5000 := by
  have hplay : ((bootHeap.kmalloc 8).toOption.bind fun r =>
      (r.1.krealloc r.2 5000).toOption.map fun r' => (r.2 != 0, r'.2 != 0)) = some (true, true) := by
    decide +kernel
  cases hk : bootHeap.kmalloc 8 with
  | error e =>
      rw [hk] at hplay
      cases hplay
  | ok r =>
  obtain ⟨s, x⟩ := r
  rw [hk] at hplay
  obtain ⟨⟨t, q⟩, ht, hne⟩ := Option.map_eq_some_iff.mp hplay
  simp only [Prod.mk.injEq, bne_iff_ne] at hne
  obtain ⟨hx, hq⟩ := hne
  have hrun := run_bootHeap.call (k := .kmalloc 8) (show 8 < 2 ^ 64 - 24 by omega) hk
  have hlive : HeapCall.after [] x (.kmalloc 8) = [(x, 8)] := if_neg hx
  rw [hlive] at hrun
  obtain ⟨s', p, hs, hcase⟩ := krealloc_exact hrun List.mem_cons_self (show 1 ≤ 5000 by omega)
    (by omega)
  rw [hs] at ht
  cases ht
  exact ⟨s, x, t, q, hrun, hs, hq, (hcase.resolve_left fun h => hq h.1).2⟩

end Alix.Kheap
