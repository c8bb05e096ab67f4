/-
What the kernel heap may do while it serves a call.

A call of the heap runs some operations on the page allocator, on blocks
of its own, and uses up a coin. `HeapRun` says that only this happened:
the address spaces and the words of memory stay, and of the blocks that
are out the ones that are not the heap's stay as they are
(`HeapRun.ledger`). The blocks are kept as `heap ++ rest` for that.
-/
import Alix.Mm.Vmm
import Alix.Mm.Proofs.Ledger

namespace Alix.Vm

open Paging
open Dyadic (Block)
open Pmm (Ledger Harmless harmless_priv harmless_clearFlag harmless_setFlag)

variable {s s' : Vm}

/-- The heap has worked in between: some of its operations on the page
allocator, and coins used up. -/
def HeapRun (s s' : Vm) : Prop :=
  ∃ (ops : List HeapOp) (coins : List Coin),
    s' = { ops.foldl heapOp s with coins }

theorem heapOp_coins (s : Vm) (coins : List Coin) (op : HeapOp) :
    heapOp { s with coins } op = { heapOp s op with coins } := by
  cases op with
  | alloc order =>
      simp only [heapOp]
      split
      · rfl
      · rfl
  | free b =>
      simp only [heapOp]
      split
      · split
        · rfl
        · rfl
      · rfl
  | mark b slab priv =>
      simp only [heapOp]
      split
      · rfl
      · rfl

theorem foldl_heapOp_coins (ops : List HeapOp) (s : Vm) (coins : List Coin) :
    ops.foldl heapOp { s with coins } = { ops.foldl heapOp s with coins } := by
  induction ops generalizing s with
  | nil => rfl
  | cons op ops ih =>
      rw [List.foldl_cons, List.foldl_cons, heapOp_coins, ih]

theorem HeapRun.refl (s : Vm) : HeapRun s s := ⟨[], s.coins, rfl⟩

theorem HeapRun.trans {s'' : Vm} (h : HeapRun s s') (h' : HeapRun s' s'') :
    HeapRun s s'' := by
  obtain ⟨ops, coins, rfl⟩ := h
  obtain ⟨ops', coins', rfl⟩ := h'
  refine ⟨ops ++ ops', coins', ?_⟩
  rw [foldl_heapOp_coins, List.foldl_append]

theorem heapRun_call (s : Vm) : HeapRun s s.heapCall.1 := by
  unfold heapCall
  split
  · exact HeapRun.refl s
  · rename_i coin coins hcoins
    exact ⟨coin.ops, coins, foldl_heapOp_coins _ _ _⟩

theorem heapRun_kzalloc {ok : Bool} (h : s.kzalloc = (s', ok)) : HeapRun s s' := by
  have := heapRun_call s
  rw [show s.heapCall = (s', ok) from h] at this
  exact this

theorem heapRun_kfree (s : Vm) : HeapRun s s.kfree := heapRun_call s

/-- The heap does not touch the address spaces. -/
theorem HeapRun.spaces (h : HeapRun s s') :
    s'.spaces = s.spaces ∧ s'.next = s.next ∧ s'.kernelPml4 = s.kernelPml4 := by
  obtain ⟨ops, coins, rfl⟩ := h
  show (ops.foldl heapOp s).spaces = _ ∧ (ops.foldl heapOp s).next = _
    ∧ (ops.foldl heapOp s).kernelPml4 = _
  induction ops generalizing s with
  | nil => exact ⟨rfl, rfl, rfl⟩
  | cons op ops ih =>
      rw [List.foldl_cons]
      obtain ⟨h1, h2, h3⟩ := ih (s := heapOp s op)
      have hop : (heapOp s op).spaces = s.spaces ∧ (heapOp s op).next = s.next
          ∧ (heapOp s op).kernelPml4 = s.kernelPml4 := by
        cases op with
        | alloc order =>
            simp only [heapOp]
            split
            · exact ⟨rfl, rfl, rfl⟩
            · exact ⟨rfl, rfl, rfl⟩
        | free b =>
            simp only [heapOp]
            split
            · split
              · exact ⟨rfl, rfl, rfl⟩
              · exact ⟨rfl, rfl, rfl⟩
            · exact ⟨rfl, rfl, rfl⟩
        | mark b slab priv =>
            simp only [heapOp]
            split
            · exact ⟨rfl, rfl, rfl⟩
            · exact ⟨rfl, rfl, rfl⟩
      exact ⟨h1.trans hop.1, h2.trans hop.2.1, h3.trans hop.2.2⟩

/-- Nor the words of memory. -/
theorem HeapRun.mem (h : HeapRun s s') : s'.mach.mem = s.mach.mem := by
  obtain ⟨ops, coins, rfl⟩ := h
  show (ops.foldl heapOp s).mach.mem = _
  induction ops generalizing s with
  | nil => rfl
  | cons op ops ih =>
      rw [List.foldl_cons, ih]
      cases op with
      | alloc order =>
          simp only [heapOp]
          split
          · rfl
          · rfl
      | free b =>
          simp only [heapOp]
          split
          · split
            · rfl
            · rename_i mach hfree
              unfold Machine.free at hfree
              split at hfree
              · cases hfree
              · cases hfree
                rfl
          · rfl
      | mark b slab priv =>
          simp only [heapOp]
          split
          · rfl
          · rfl

-- ==== its blocks

section ledger

variable {maxPfn : Nat} {usable : Nat → Bool} {rest : List Block}
  {ref : Nat → Nat}

theorem harmless_markPage (slab : Bool) (priv : Nat) : Harmless (markPage slab priv) := by
  cases slab with
  | false => exact (harmless_priv priv).comp (harmless_clearFlag PAGE_SLAB)
  | true => exact (harmless_priv priv).comp (harmless_setFlag (by decide))

theorem markPage_refcount (slab : Bool) (priv : Nat) (p : Page) :
    (markPage slab priv p).refcount = p.refcount := by
  cases slab <;> rfl

/-- The heap's part of the ledger: one reference for each block. -/
structure Holds (maxPfn : Nat) (usable : Nat → Bool) (s : Vm)
    (rest : List Block) (ref : Nat → Nat) : Prop where
  ledger : Ledger maxPfn usable s.mach.pmm (s.heap ++ rest) ref
  single : ∀ b ∈ s.heap, ref b.base = 1

/-- The blocks of others are as they were. -/
structure Spares (m m' : Pmm) (rest : List Block) (ref ref' : Nat → Nat) :
    Prop where
  ref : ∀ b ∈ rest, ref' b.base = ref b.base
  data : ∀ b ∈ rest, ∀ q ∈ b, (m'.pages q).data = (m.pages q).data

theorem Spares.refl (m : Pmm) (rest : List Block) (ref : Nat → Nat) :
    Spares m m rest ref ref :=
  ⟨fun _ _ => rfl, fun _ _ _ _ => rfl⟩

theorem Spares.trans {m m' m'' : Pmm} {ref' ref'' : Nat → Nat}
    (h : Spares m m' rest ref ref') (h' : Spares m' m'' rest ref' ref'') :
    Spares m m'' rest ref ref'' :=
  ⟨fun b hb => (h'.ref b hb).trans (h.ref b hb),
    fun b hb q hq => (h'.data b hb q hq).trans (h.data b hb q hq)⟩

/-- The heap changes no word and no block of another. -/
theorem Holds.heapOp (h : Holds maxPfn usable s rest ref) (op : HeapOp) :
    (s.heapOp op).mach.mem = s.mach.mem
      ∧ ∃ ref', Holds maxPfn usable (s.heapOp op) rest ref'
        ∧ Spares s.mach.pmm (s.heapOp op).mach.pmm rest ref ref' := by
  have hstay : s.mach.mem = s.mach.mem ∧ ∃ ref', Holds maxPfn usable s rest ref'
      ∧ Spares s.mach.pmm s.mach.pmm rest ref ref' :=
    ⟨rfl, ref, h, Spares.refl _ _ _⟩
  have hmem : ∀ b ∈ rest, b ∈ s.heap ++ rest := fun b hb =>
    List.mem_append_right _ hb
  cases op with
  | alloc order =>
      simp only [Vm.heapOp]
      split
      · exact hstay
      · rename_i pmm page ha
        obtain ⟨hl, hnew, hdata⟩ := h.ledger.alloc ha
        have hne : ∀ b ∈ s.heap ++ rest, b.base ≠ page := fun b hb e =>
          hnew page (Block.base_mem ⟨page, order⟩) b hb
            (by rw [← e]; exact Block.base_mem b)
        refine ⟨rfl, _, ⟨hl, fun b hb => ?_⟩, ⟨fun b hb => ?_,
          fun b hb => hdata b (hmem b hb)⟩⟩
        · rcases List.mem_cons.mp hb with rfl | hb
          · exact Function.update_self _ _ _
          · rw [Function.update_of_ne (hne b (List.mem_append_left _ hb))]
            exact h.single b hb
        · exact Function.update_of_ne (hne b (hmem b hb)) _ _
  | free b =>
      simp only [Vm.heapOp]
      split
      · rename_i hb
        have hbout : b ∈ s.heap ++ rest := List.mem_append_left _ hb
        obtain ⟨m', hok, hl, hdata⟩ := h.ledger.drop hbout
        have hfree : s.mach.free b.base = .ok { s.mach with pmm := m' } := by
          unfold Machine.free
          rw [hok]
        rw [hfree]
        have hnd := h.ledger.nodup
        rw [if_pos (h.single b hb), List.erase_append_left _ hb] at hl
        have hne : ∀ c ∈ s.heap ++ rest, c ≠ b → c.base ≠ b.base :=
          fun c hc hcb e => hcb (h.ledger.head_inj hc hbout e)
        have hrest : ∀ c ∈ rest, c ≠ b := by
          rintro c hc rfl
          exact (List.disjoint_of_nodup_append hnd) hb hc
        refine ⟨rfl, _, ⟨hl, fun c hc => ?_⟩, ⟨fun c hc => ?_,
          fun c hc => hdata c (hmem c hc) (hrest c hc)⟩⟩
        · have hch := List.mem_of_mem_erase hc
          have hcb : c ≠ b := by
            rintro rfl
            exact (List.nodup_append.mp hnd).1.not_mem_erase hc
          rw [Function.update_of_ne (hne c (List.mem_append_left _ hch) hcb)]
          exact h.single c hch
        · exact Function.update_of_ne (hne c (hmem c hc) (hrest c hc)) _ _
      · exact hstay
  | mark b slab priv =>
      simp only [Vm.heapOp]
      split
      · rename_i hb
        have hbout : b ∈ s.heap ++ rest := List.mem_append_left _ hb
        refine ⟨rfl, ref, ⟨?_, h.single⟩, ⟨fun _ _ => rfl, fun c hc q hq => ?_⟩⟩
        · exact h.ledger.touch hbout (harmless_markPage slab priv) (markPage_refcount slab priv)
        · have hcb : c ≠ b := by
            rintro rfl
            exact (List.disjoint_of_nodup_append h.ledger.nodup) hb hc
          have hqb : q ≠ b.base := by
            rintro rfl
            exact h.ledger.apart (hmem c hc) hbout hcb hq (Block.base_mem b)
          show ((s.mach.pmm.modPage b.base (markPage slab priv)).pages q).data = _
          rw [Pmm.modPage_pages_of_ne _ hqb]
      · exact hstay

/-- The heap leaves the words of memory and the blocks of others alone. -/
theorem HeapRun.ledger (hr : HeapRun s s') (h : Holds maxPfn usable s rest ref) :
    s'.mach.mem = s.mach.mem ∧ ∃ ref', Holds maxPfn usable s' rest ref'
      ∧ Spares s.mach.pmm s'.mach.pmm rest ref ref' := by
  obtain ⟨ops, coins, rfl⟩ := hr
  suffices hops : (ops.foldl Vm.heapOp s).mach.mem = s.mach.mem
      ∧ ∃ ref', Holds maxPfn usable (ops.foldl Vm.heapOp s) rest ref'
        ∧ Spares s.mach.pmm (ops.foldl Vm.heapOp s).mach.pmm rest ref ref' by
    obtain ⟨hmem, ref', hh, hsp⟩ := hops
    exact ⟨hmem, ref', ⟨hh.ledger, hh.single⟩, hsp⟩
  induction ops generalizing s ref with
  | nil => exact ⟨rfl, ref, h, Spares.refl _ _ _⟩
  | cons op ops ih =>
      obtain ⟨hmem, ref', h', hsp⟩ := h.heapOp op
      obtain ⟨hmem', ref'', h'', hsp'⟩ := ih h'
      rw [List.foldl_cons]
      exact ⟨hmem'.trans hmem, ref'', h'', hsp.trans hsp'⟩

/-- Nor does the heap touch the pages that are not the allocator's. -/
theorem Holds.heapOp_outside (h : Holds maxPfn usable s rest ref) (op : HeapOp) {q : Nat}
    (hq : ¬ Pmm.Usable maxPfn usable q) :
    ((s.heapOp op).mach.pmm.pages q).data = (s.mach.pmm.pages q).data := by
  cases op with
  | alloc order =>
      simp only [Vm.heapOp]
      split
      · rfl
      · rename_i pmm page ha
        exact h.ledger.alloc_outside ha hq
  | free b =>
      simp only [Vm.heapOp]
      split
      · rename_i hb
        have hbout : b ∈ s.heap ++ rest := List.mem_append_left _ hb
        obtain ⟨m', hok, -, -⟩ := h.ledger.drop hbout
        have hfree : s.mach.free b.base = .ok { s.mach with pmm := m' } := by
          unfold Machine.free
          rw [hok]
        rw [hfree]
        exact h.ledger.drop_outside hbout hok hq
      · rfl
  | mark b slab priv =>
      simp only [Vm.heapOp]
      split
      · rename_i hb
        have hqb : q ≠ b.base := by
          rintro rfl
          exact hq (h.ledger.mem_usable (List.mem_append_left _ hb) (Block.base_mem b))
        show ((s.mach.pmm.modPage b.base (markPage slab priv)).pages q).data = _
        rw [Pmm.modPage_pages_of_ne _ hqb]
      · rfl

theorem HeapRun.outside (hr : HeapRun s s') (h : Holds maxPfn usable s rest ref) {q : Nat}
    (hq : ¬ Pmm.Usable maxPfn usable q) :
    (s'.mach.pmm.pages q).data = (s.mach.pmm.pages q).data := by
  obtain ⟨ops, coins, rfl⟩ := hr
  show ((ops.foldl Vm.heapOp s).mach.pmm.pages q).data = _
  induction ops generalizing s ref with
  | nil => rfl
  | cons op ops ih =>
      obtain ⟨-, ref', h', -⟩ := h.heapOp op
      rw [List.foldl_cons, ih h']
      exact h.heapOp_outside op hq

end ledger

end Alix.Vm
