/-
A mapping of the kernel, and the heap.

`paging_map_range` writes to tables and takes frames for new ones. The
tables of the kernel's space are nothing of the heap's (`KernelTables`):
frames that the page allocator does not manage, or blocks that it has given
to the rest of the kernel. A frame it hands out during the call was free.
So no table is ever in a block of the heap, and the bytes of the live
allocations are what they were (`Inv.pagingMapRange_bytes`). A call of the
heap in turn writes to no table (`KernelTables.spares`).
-/
import Alix.Mm.Direct
import Alix.Mm.Proofs.MapRange
import Alix.Mm.Proofs.Payload

namespace Alix.Kheap

open Bytes (Memory load byteOf)
open Dyadic (Block)
open Pmm (Ledger Usable Allocated)
open Paging (Graded Supplies Machine child)

variable {maxPfn : Nat} {usable : Nat → Bool} {s s' : Kheap} {G : Ghost} {k n x : Nat}
  {live : List (Nat × Nat)} {others held : List Block} {ref : Nat → Nat} {level : Nat → Nat}

-- ==== the tables

/-- The page allocator does not manage the page, or has given it to the
rest of the kernel. -/
def Elses (maxPfn : Nat) (usable : Nat → Bool) (others : List Block) (q : Nat) : Prop :=
  ¬ Usable maxPfn usable q ∨ Allocated others q

/-- The tables below `k` have heights, and are not the heap's. -/
structure KernelTables (maxPfn : Nat) (usable : Nat → Bool) (s : Kheap) (others : List Block)
    (k : Nat) (level : Nat → Nat) : Prop where
  root : level k = 4
  le : ∀ f, level f ≤ 4
  elses : ∀ f, level f ≠ 0 → Elses maxPfn usable others f
  down : ∀ f j g, 2 ≤ level f → child s.tables.mem f j = some g → level g + 1 = level f

/-- The words of a frame are its bytes. -/
theorem tables_congr {f : Nat} (hhdm : s'.hhdm = s.hhdm)
    (hm : ∀ a, pageAt s.hhdm f ≤ a → a < pageAt s.hhdm f + 4096 → s'.mem a = s.mem a) :
    s'.tables.mem f = s.tables.mem f := by
  funext j
  unfold tables get64 physToVirt pfnPhys
  dsimp only
  by_cases hj : j < 512
  · rw [if_pos hj, if_pos hj, hhdm]
    refine congrArg (BitVec.ofNat 64) (Bytes.load_congr fun a h1 h2 => ?_)
    have hpage : pageAt s.hhdm f = f * PAGE_SIZE + s.hhdm := rfl
    exact hm a (by omega) (by omega)
  · rw [if_neg hj, if_neg hj]

/-- The bytes of a page that is not the heap's are foreign. -/
theorem Elses.foreign {q a hhdm : Nat} (h : Elses maxPfn usable others q)
    (h1 : pageAt hhdm q ≤ a) (h2 : a < pageAt hhdm q + 4096) :
    Foreign maxPfn usable hhdm others a := by
  intro p hp1 hp2
  have hpq : p = q := by
    unfold pageAt at h1 h2 hp1 hp2
    omega
  rw [hpq]
  exact h

/-- What spares them leaves the tables. -/
theorem KernelTables.spares (h : KernelTables maxPfn usable s others k level)
    (hs : Spares maxPfn usable s live others s') :
    KernelTables maxPfn usable s' others k level := by
  refine ⟨h.root, h.le, h.elses, fun f j g hf hc => h.down f j g hf ?_⟩
  have hframe : s'.tables.mem f = s.tables.mem f := tables_congr hs.hhdm fun a h1 h2 =>
    hs.mem a (Or.inr ((h.elses f (by omega)).foreign h1 h2))
  rwa [Paging.child_congr (congrFun hframe j)] at hc

-- ==== the frames

/-- The frames of tables while the heap has `held`. -/
def TablesOf (maxPfn : Nat) (usable : Nat → Bool) (held : List Block) (pmm : Pmm)
    (T : Nat → Prop) : Prop :=
  ∃ rest ref, Ledger maxPfn usable pmm (held ++ rest) ref
    ∧ ∀ f, T f → Elses maxPfn usable rest f

theorem supplies_tablesOf (hmax : maxPfn < 2 ^ 40) :
    Supplies Pmm.pmmAllocPage (TablesOf maxPfn usable held) where
  step := by
    intro pmm pmm' T f hP ha
    obtain ⟨rest, ref, hledger, hT⟩ := hP
    obtain ⟨hledger', hnew, -⟩ := hledger.alloc ha
    have hf := Block.base_mem ⟨f, 0⟩
    have hu : Usable maxPfn usable f := hledger'.mem_usable List.mem_cons_self hf
    have hlt : f < maxPfn + 1 := hu.1
    refine ⟨fun ht => ?_, by omega, ⟨f, 0⟩ :: rest, _, hledger'.perm List.perm_middle.symm, ?_⟩
    · -- a free frame is no table
      cases hT f ht with
      | inl hno => exact hno hu
      | inr hother =>
          obtain ⟨b, hb, hfb⟩ := hother
          exact hnew f hf b (List.mem_append_right _ hb) hfb
    · intro g hg
      cases hg with
      | inl he => exact Or.inr ⟨⟨f, 0⟩, List.mem_cons_self, by rw [he]; exact hf⟩
      | inr hg =>
          refine (hT g hg).imp_right fun hother => ?_
          obtain ⟨b, hb, hgb⟩ := hother
          exact ⟨b, List.mem_cons_of_mem _ hb, hgb⟩

/-- No table is in a block of the heap. -/
theorem TablesOf.apart {pmm : Pmm} {T : Nat → Prop} (h : TablesOf maxPfn usable held pmm T)
    {b : Block} {q : Nat} (hb : b ∈ held) (hq : q ∈ b) : ¬ T q := by
  intro ht
  obtain ⟨rest, ref, hledger, hT⟩ := h
  have hbin := List.mem_append_left rest hb
  cases hT q ht with
  | inl hno => exact hno (hledger.mem_usable hbin hq)
  | inr hother =>
      obtain ⟨d, hd, hqd⟩ := hother
      have hne : b ≠ d := fun e => (List.nodup_append.mp hledger.nodup).2.2 b hb d hd e
      exact hledger.apart hbin (List.mem_append_right _ hd) hne hq hqd

-- ==== the mapping

/-- A frame whose words are as they were has the bytes it had. -/
theorem withTables_same {m : Machine Pmm} {f a : Nat} (hf : m.mem f = s.tables.mem f)
    (h1 : pageAt s.hhdm f ≤ a) (h2 : a < pageAt s.hhdm f + 4096) :
    (s.withTables m).mem a = s.mem a := by
  have hpage : pageAt s.hhdm f = f * 4096 + s.hhdm := rfl
  have hframe : (a - s.hhdm) / 4096 = f := by omega
  have hslot : (a - s.hhdm) % 4096 / 8 < 512 := by omega
  have hbyte : f * 4096 + s.hhdm + (a - s.hhdm) % 4096 / 8 * 8 + (a - s.hhdm) % 8 = a := by omega
  have hword : load s.mem (f * 4096 + s.hhdm + (a - s.hhdm) % 4096 / 8 * 8) 8 < 2 ^ 64 :=
    Bytes.load_lt s.mem _ 8
  have htable : s.tables.mem f ((a - s.hhdm) % 4096 / 8)
      = BitVec.ofNat 64 (load s.mem (f * 4096 + s.hhdm + (a - s.hhdm) % 4096 / 8 * 8) 8) :=
    if_pos hslot
  unfold withTables
  dsimp only
  rw [if_neg (by omega), hframe, hf, htable, BitVec.toNat_ofNat, Nat.mod_eq_of_lt hword,
    Bytes.byteOf_load s.mem _ (Nat.mod_lt _ (by omega)), hbyte]

/-- A mapping does not write to what is live. -/
theorem Inv.pagingMapRange_bytes (h : Inv maxPfn usable s G live others ref)
    (hmax : maxPfn < 2 ^ 40) {pml4 : Option Nat}
    (hk : ∀ k, pml4 = some k → ∃ level, KernelTables maxPfn usable s others k level)
    (virt phys size : Nat) (flags : Paging.Word) (hv : virt < 2 ^ 64) (hp : phys < 2 ^ 64) :
    SameBytes live s.mem (s.pagingMapRange pml4 virt phys size flags).1.mem := by
  intro y m hy a h1 h2
  obtain ⟨q, r, f, hq, hf, hlo, hhi⟩ := h.live_page hy h1 h2
  refine withTables_same (f := f) ?_ hlo hhi
  cases pml4 with
  | none =>
      unfold Paging.pagingMapRange
      dsimp only
      split
      · rfl
      · rfl
  | some k =>
      obtain ⟨level, hk⟩ := hk k rfl
      have hgraded : Graded (TablesOf maxPfn usable G.blocks) s.tables level
          (Elses maxPfn usable others) :=
        ⟨⟨others, ref, h.ledger, fun _ hf => hf⟩, hk.elses, hk.le, hk.down⟩
      have hblock := (h.block q r.order).mpr ⟨r, hq, rfl⟩
      obtain ⟨level', T', hgraded', -, hsame⟩ : ∃ level' T',
          Graded (TablesOf maxPfn usable G.blocks)
            (Paging.pagingMapRange Pmm.pmmAllocPage s.tables (some k) virt phys size flags).1
            level' T'
          ∧ Paging.Raises level level' (Elses maxPfn usable others) T'
          ∧ ∀ f, ¬ T' f → (Paging.pagingMapRange Pmm.pmmAllocPage s.tables (some k) virt phys size
            flags).1.mem f = s.tables.mem f :=
        hgraded.pagingMapRange (supplies_tablesOf hmax) hk.root hv hp
      exact hsame f (hgraded'.pmm.apart hblock hf)

-- ==== an example

theorem rootedHeap_eq : ∃ pmm, bootHeap.pmm.pmmAllocPage = some (pmm, 16)
    ∧ rootedHeap = { bootHeap with pmm } := by
  have hpage : bootHeap.pmm.pmmAllocPage.map (fun r => r.2) = some 16 := by decide +kernel
  unfold rootedHeap
  cases ha : bootHeap.pmm.pmmAllocPage with
  | none =>
      rw [ha] at hpage
      cases hpage
  | some r =>
      obtain ⟨pmm, p⟩ := r
      rw [ha] at hpage
      obtain rfl : p = 16 := Option.some.inj hpage
      exact ⟨pmm, rfl, rfl⟩

/-- The root is a block of the rest of the kernel, -/
theorem run_rootedHeap : Run 16 (fun q => 1 ≤ q) rootedHeap [] [⟨16, 0⟩] := by
  obtain ⟨pmm, ha, he⟩ := rootedHeap_eq
  rw [he]
  exact run_bootHeap.otherAlloc ha

/-- and it is empty. -/
theorem kernelTables_rootedHeap : KernelTables 16 (fun q => 1 ≤ q) rootedHeap [⟨16, 0⟩] 16
    fun f => if f = 16 then 4 else 0 := by
  refine ⟨if_pos rfl, fun f => ?_, fun f hf => ?_, fun f j g _ hc => ?_⟩
  · split
    · exact Nat.le_refl 4
    · exact Nat.zero_le 4
  · by_cases he : f = 16
    · exact Or.inr ⟨⟨16, 0⟩, List.mem_cons_self, by rw [he]; exact Block.base_mem ⟨16, 0⟩⟩
    · exact absurd (if_neg he) hf
  · obtain ⟨pmm, -, he⟩ := rootedHeap_eq
    have hword : rootedHeap.tables.mem f j = 0 := by
      rw [he]
      unfold tables
      dsimp only
      split
      · rfl
      · rfl
    rw [Paging.child_zero hword] at hc
    cases hc

end Alix.Kheap
