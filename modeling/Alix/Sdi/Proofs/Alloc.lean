/-
What a driver gets from `sdi_kernel_alloc` and gives to `sdi_kernel_free`.

# One block

The block has 31 bytes and the alignment more than the user wants. Going
up from 32 bytes into the block to the next multiple of the alignment
leaves room for the header in front and for the user's bytes behind
(`Laid`), wherever the heap has put the block.

# Runs

A driver writes to its bytes only, so the magic word and the address of
the block stay in the header, and `sdi_kernel_free` finds them. `SdiRun`
keeps three lists: the pointers the drivers have, the live allocations of
the heap, and those of everybody else. The second is the first and the
third together (`SdiInv.rest`); with nothing left in the first nothing of
the drivers is live.
-/
import Alix.Lib.Masks
import Alix.Mm.Proofs.Payload
import Alix.Sdi.Alloc

namespace Alix.Kheap

open Bytes (Memory load store fill store_outside)
open Dyadic (Block)

variable {maxPfn : Nat} {usable : Nat → Bool} {s s' t : Kheap} {size raw v k n x : Nat}
  {flags : BitVec 32} {live rest : List (Nat × Nat)} {others : List Block} {mem mem' : Memory}

-- ==== rounding up

theorem sdiAlignUp_spec (hk : k ≤ 64) (hv : v + 2 ^ k - 1 < 2 ^ 64) :
    sdiAlignUp v (2 ^ k) % 2 ^ k = 0 ∧ v ≤ sdiAlignUp v (2 ^ k)
      ∧ sdiAlignUp v (2 ^ k) < v + 2 ^ k := by
  have hpos : 0 < 2 ^ k := Nat.two_pow_pos k
  unfold sdiAlignUp
  rw [Nat.mod_eq_of_lt hv, Masks.and_mask hk hv]
  exact ⟨Nat.mul_mod_left _ _, Masks.le_up hpos, Masks.up_lt hpos⟩

/-- The alignment is a power of two, 16 or 4096. -/
theorem sdiAlign_cases (flags : BitVec 32) :
    (sdiAlign flags = 2 ^ 4 ∧ flags &&& SDI_ALLOC_PAGE_ALIGNED = 0)
      ∨ (sdiAlign flags = 2 ^ 12 ∧ flags &&& SDI_ALLOC_PAGE_ALIGNED ≠ 0) := by
  unfold sdiAlign
  by_cases h : flags &&& SDI_ALLOC_PAGE_ALIGNED = 0
  · rw [if_neg (not_not.mpr h)]
    exact Or.inl ⟨rfl, h⟩
  · rw [if_pos h]
    exact Or.inr ⟨rfl, h⟩

-- ==== one block

/-- A pointer that a driver has: the address it was given, the block, and
what it asked for. -/
structure SdiBlock where
  user : Nat
  raw : Nat
  size : Nat
  flags : BitVec 32

/-- The length of the block. -/
def SdiBlock.total (b : SdiBlock) : Nat := sdiTotal b.size b.flags

/-- The pointer is aligned, the header and the bytes of the user are in
the block, one behind the other, and the header is written. -/
structure Laid (mem : Memory) (b : SdiBlock) : Prop where
  aligned : b.user % sdiAlign b.flags = 0
  header : b.raw + 32 ≤ b.user
  inside : b.user + b.size ≤ b.raw + b.total
  bound : b.user < 2 ^ 64
  magic : load mem (b.user - 32) 8 = SDI_ALLOC_MAGIC
  block : load mem (b.user - 24) 8 = b.raw

/-- It is the header that counts. -/
theorem Laid.congr {b : SdiBlock} (h : Laid mem b)
    (hm : ∀ a, b.user - 32 ≤ a → a < b.user → mem' a = mem a) : Laid mem' b := by
  have hhead := h.header
  refine ⟨h.aligned, h.header, h.inside, h.bound, ?_, ?_⟩
  · rw [← h.magic]
    apply Bytes.load_congr
    intro a h1 h2
    exact hm a h1 (by omega)
  · rw [← h.block]
    apply Bytes.load_congr
    intro a h1 h2
    exact hm a (by omega) (by omega)

theorem Laid.user_ne {b : SdiBlock} (h : Laid mem b) : b.user ≠ 0 := by
  have hhead := h.header
  omega

theorem allocHeader_eq {x : Nat} (h : 32 ≤ x) (hx : x < 2 ^ 64) : allocHeader x = x - 32 := by
  show (x + (2 ^ 64 - 32)) % 2 ^ 64 = x - 32
  omega

/-- The length, where it does not wrap. -/
theorem sdiTotal_eq (h : size + 31 + sdiAlign flags < 2 ^ 64) :
    sdiTotal size flags = size + 31 + sdiAlign flags := by
  show (size + 32 + sdiAlign flags - 1) % 2 ^ 64 = _
  omega

theorem sdiAlign_bounds (flags : BitVec 32) : 16 ≤ sdiAlign flags ∧ sdiAlign flags ≤ 4096 := by
  obtain ⟨h, -⟩ | ⟨h, -⟩ := sdiAlign_cases flags
  · rw [h]
    decide
  · rw [h]
    decide

/-- Where the user's bytes are in a block. -/
theorem user_bounds (h0 : size ≠ 0) (hraw : raw + (size + 31 + sdiAlign flags) ≤ 2 ^ 64) :
    sdiAlignUp ((raw + 32) % 2 ^ 64) (sdiAlign flags) % sdiAlign flags = 0
      ∧ raw + 32 ≤ sdiAlignUp ((raw + 32) % 2 ^ 64) (sdiAlign flags)
      ∧ sdiAlignUp ((raw + 32) % 2 ^ 64) (sdiAlign flags) + size
        ≤ raw + (size + 31 + sdiAlign flags) := by
  have hb := sdiAlign_bounds flags
  rw [Nat.mod_eq_of_lt (show raw + 32 < 2 ^ 64 by omega)]
  have hspec : sdiAlignUp (raw + 32) (sdiAlign flags) % sdiAlign flags = 0
      ∧ raw + 32 ≤ sdiAlignUp (raw + 32) (sdiAlign flags)
      ∧ sdiAlignUp (raw + 32) (sdiAlign flags) < raw + 32 + sdiAlign flags := by
    obtain ⟨h, -⟩ | ⟨h, -⟩ := sdiAlign_cases flags
    · rw [h] at hraw ⊢
      exact sdiAlignUp_spec (by decide) (by omega)
    · rw [h] at hraw ⊢
      exact sdiAlignUp_spec (by decide) (by omega)
  refine ⟨hspec.1, hspec.2.1, ?_⟩
  omega

/-- The header, written at `a`. -/
def headerAt (mem : Memory) (a raw size flags : Nat) : Memory :=
  store (store (store (store mem a 8 SDI_ALLOC_MAGIC) (a + 8) 8 raw) (a + 16) 8 size) (a + 24) 4 flags

theorem headerAt_outside {a flags x : Nat} (h : ¬ (a ≤ x ∧ x < a + 32)) :
    headerAt mem a raw size flags x = mem x := by
  unfold headerAt
  rw [store_outside (by omega), store_outside (by omega), store_outside (by omega),
    store_outside (by omega)]

theorem load_headerAt {a flags : Nat} (hraw : raw < 2 ^ 64) :
    load (headerAt mem a raw size flags) a 8 = SDI_ALLOC_MAGIC
      ∧ load (headerAt mem a raw size flags) (a + 8) 8 = raw := by
  unfold headerAt
  constructor
  · rw [Bytes.load_store_of_apart (by omega), Bytes.load_store_of_apart (by omega),
      Bytes.load_store_of_apart (by omega), Bytes.load_store_same (by decide)]
  · rw [Bytes.load_store_of_apart (by omega), Bytes.load_store_of_apart (by omega),
      Bytes.load_store_same (by omega)]

/-- The part of `sdi_kernel_alloc` behind `kmalloc` writes to the block,
and leaves the header. -/
theorem sdiPlace_spec (s : Kheap) (h0 : size ≠ 0) (hr : raw ≠ 0)
    (hraw : raw + (size + 31 + sdiAlign flags) ≤ 2 ^ 64) :
    ∃ m user, s.sdiPlace raw size flags = ({ s with mem := m }, user)
      ∧ (∀ a, m a ≠ s.mem a → raw ≤ a ∧ a < raw + sdiTotal size flags)
      ∧ Laid m ⟨user, raw, size, flags⟩
      ∧ (flags &&& SDI_ALLOC_ZERO ≠ 0 → ∀ a, user ≤ a → a < user + size → m a = 0) := by
  have hb := sdiAlign_bounds flags
  obtain ⟨haligned, hlow, hhigh⟩ := user_bounds h0 hraw
  have htotal : sdiTotal size flags = size + 31 + sdiAlign flags := sdiTotal_eq (by omega)
  unfold sdiPlace
  revert haligned hlow hhigh
  generalize sdiAlignUp ((raw + 32) % 2 ^ 64) (sdiAlign flags) = user
  intro haligned hlow hhigh
  have hhead : allocHeader user = user - 32 := allocHeader_eq (by omega) (by omega)
  have hmem : ∀ x, (user - 32 ≤ x ∧ x < user - 32 + 32) → raw ≤ x ∧ x < raw + sdiTotal size flags := by
    intro x hx
    omega
  obtain ⟨hmagic, hblock⟩ := @load_headerAt size raw s.mem (user - 32) flags.toNat (by omega)
  have hlaid : Laid (headerAt s.mem (user - 32) raw size flags.toNat) ⟨user, raw, size, flags⟩ := by
    have hnext : user - 24 = user - 32 + 8 := by omega
    constructor
    · exact haligned
    · exact hlow
    · simp only [SdiBlock.total]
      omega
    · dsimp only
      omega
    · exact hmagic
    · dsimp only
      rw [hnext]
      exact hblock
  by_cases hz : flags &&& SDI_ALLOC_ZERO ≠ 0
  · refine ⟨fill (headerAt s.mem (user - 32) raw size flags.toNat) user size 0, user, ?_, ?_, ?_, ?_⟩
    · dsimp only
      rw [hhead, if_pos hz]
      rfl
    · intro a ha
      by_contra hout
      apply ha
      rw [Bytes.fill_outside (by omega)]
      apply headerAt_outside
      intro hin
      exact hout (hmem a hin)
    · apply hlaid.congr
      intro a h1 h2
      dsimp only at h1 h2
      apply Bytes.fill_outside
      omega
    · intro _ a h1 h2
      exact Bytes.fill_inside h1 h2
  · refine ⟨headerAt s.mem (user - 32) raw size flags.toNat, user, ?_, ?_, hlaid, ?_⟩
    · dsimp only
      rw [hhead, if_neg hz]
      rfl
    · intro a ha
      by_contra hout
      apply ha
      apply headerAt_outside
      intro hin
      exact hout (hmem a hin)
    · intro hyes
      exact absurd hyes hz

-- ==== the calls

/-- `kmalloc` supplies a block of `n` bytes. -/
structure Supplies (s : Kheap) (n : Nat) (t : Kheap) (raw : Nat) : Prop where
  call : s.kmalloc n = .ok (t, raw)
  notNull : raw ≠ 0
  room : n ≤ t.room raw

/-- The last 24 sizes are not supplied: what `kmalloc` returns for them is
a page. -/
theorem Supplies.small (h : Supplies s n t raw) (hrun : Run maxPfn usable s live others)
    (hn : n < 2 ^ 64) : n < 2 ^ 64 - 24 := by
  by_contra hbig
  obtain ⟨⟨G, ref, hinv⟩, -⟩ := hrun.kept
  cases ha : s.pmm.pmmAlloc 0 with
  | none =>
      have hcall := h.call
      rw [kmalloc_wrapped_none (by omega) hn ha] at hcall
      cases hcall
      exact h.notNull rfl
  | some r =>
      obtain ⟨t', x, hok, -, hroom⟩ := hinv.wrapped_room (by omega) hn ha
      have hcall := h.call
      rw [hok] at hcall
      cases hcall
      have := h.room
      omega

/-- A total that wraps is refused, with nothing done. -/
theorem sdiKernelAlloc_wrap (s : Kheap) (hsize : size < 2 ^ 64)
    (hwrap : 2 ^ 64 ≤ size + 31 + sdiAlign flags) : s.sdiKernelAlloc size flags = .ok (s, 0) := by
  have hb := sdiAlign_bounds flags
  have hless : sdiTotal size flags < size := by
    show (size + 32 + sdiAlign flags - 1) % 2 ^ 64 < size
    omega
  unfold sdiKernelAlloc
  split
  · rfl
  · rw [if_pos hless]

/-- What a call that gets its block returns. -/
theorem sdiKernelAlloc_supplied (hrun : Run maxPfn usable s live others) (h0 : size ≠ 0)
    (hflags : flags &&& ~~~SDI_ALLOC_SUPPORTED_FLAGS = 0)
    (hwrap : size + 31 + sdiAlign flags < 2 ^ 64)
    (hsup : Supplies s (sdiTotal size flags) t raw) :
    ∃ m user, s.sdiKernelAlloc size flags = .ok ({ t with mem := m }, user)
      ∧ (∀ a, m a ≠ t.mem a → raw ≤ a ∧ a < raw + sdiTotal size flags)
      ∧ Laid m ⟨user, raw, size, flags⟩
      ∧ (flags &&& SDI_ALLOC_ZERO ≠ 0 → ∀ a, user ≤ a → a < user + size → m a = 0)
      ∧ Run maxPfn usable { t with mem := m } ((raw, sdiTotal size flags) :: live) others := by
  have htotal : sdiTotal size flags = size + 31 + sdiAlign flags := sdiTotal_eq hwrap
  have hsmall := hsup.small hrun (by omega)
  have hlive : HeapCall.after live raw (.kmalloc (sdiTotal size flags))
      = (raw, sdiTotal size flags) :: live := by
    simp [HeapCall.after, granted, hsup.notNull]
  have hrun' := hrun.call (k := .kmalloc (sdiTotal size flags)) hsmall hsup.call
  rw [hlive] at hrun'
  obtain ⟨hbound, -⟩ := hrun'.kept.live_bounds List.mem_cons_self
  rw [htotal] at hbound
  obtain ⟨m, user, hplace, hwrites, hlaid, hzero⟩ := sdiPlace_spec t h0 hsup.notNull hbound
  refine ⟨m, user, ?_, hwrites, hlaid, hzero, hrun'.write List.mem_cons_self hwrites⟩
  unfold sdiKernelAlloc
  have hno : ¬ (size = 0 ∨ flags &&& ~~~SDI_ALLOC_SUPPORTED_FLAGS ≠ 0) := by
    rintro (h | h)
    · exact h0 h
    · exact h hflags
  have hge : ¬ sdiTotal size flags < size := by omega
  rw [if_neg hno]
  dsimp only
  rw [if_neg hge, hsup.call]
  dsimp only
  rw [if_neg hsup.notNull, hplace]

/-- `sdi_kernel_free` of a pointer with its header is `kfree` of the block
behind it. -/
theorem sdiKernelFree_laid {b : SdiBlock} (hrun : Run maxPfn usable s live others)
    (hb : (b.raw, b.total) ∈ live) (hlaid : Laid s.mem b) :
    ∃ m t, s.sdiKernelFree b.user = .ok t
      ∧ (∀ a, m a ≠ s.mem a → b.raw ≤ a ∧ a < b.raw + b.total)
      ∧ Kheap.kfree { s with mem := m } b.raw = .ok t
      ∧ t.totalAllocCount = s.totalAllocCount ∧ t.totalFreeCount = s.totalFreeCount + 1
      ∧ Run maxPfn usable t (released live b.raw) others := by
  have hhead := hlaid.header
  have hinside := hlaid.inside
  have hheader : allocHeader b.user = b.user - 32 := allocHeader_eq (by omega) hlaid.bound
  have hnext : b.user - 32 + 8 = b.user - 24 := by omega
  have hwrites : ∀ a, store s.mem (b.user - 32) 8 0 a ≠ s.mem a → b.raw ≤ a ∧ a < b.raw + b.total := by
    intro a ha
    by_contra hout
    exact ha (store_outside (by omega))
  have hcleared := hrun.write hb hwrites
  obtain ⟨⟨G, ref, hinv⟩, -⟩ := hcleared.kept
  obtain ⟨t, hfree, hallocs, hfrees, -⟩ := hinv.kfree hb
  refine ⟨store s.mem (b.user - 32) 8 0, t, ?_, hwrites, hfree, hallocs, hfrees, ?_⟩
  · have hblock : load (store s.mem (b.user - 32) 8 0) (b.user - 32 + 8) 8 = b.raw := by
      rw [Bytes.load_store_of_apart (by omega), hnext]
      exact hlaid.block
    have hmagic : s.get64 (b.user - 32) = SDI_ALLOC_MAGIC := hlaid.magic
    unfold sdiKernelFree
    rw [if_neg hlaid.user_ne]
    dsimp only
    rw [hheader, if_pos hmagic]
    unfold put get64
    dsimp only
    rw [hblock]
    exact hfree
  · have hcall : Kheap.heapCall { s with mem := store s.mem (b.user - 32) 8 0 } (.kfree b.raw)
        = .ok (t, 0) := by
      unfold heapCall
      simp only [hfree]
    exact hcleared.call (k := .kfree b.raw) (Or.inr ⟨_, hb⟩) hcall

-- ==== the runs

/-- What the drivers and everybody else do: the pointers the drivers have,
the live allocations of the heap, and those of everybody else. -/
inductive SdiRun (maxPfn : Nat) (usable : Nat → Bool) :
    Kheap → List SdiBlock → List (Nat × Nat) → List (Nat × Nat) → List Block → Prop
  | start {s : Kheap} {live : List (Nat × Nat)} {others : List Block} :
      Run maxPfn usable s live others → SdiRun maxPfn usable s [] live live others
  /-- A call that gets its block. -/
  | alloc {s t s' : Kheap} {bs : List SdiBlock} {live rest : List (Nat × Nat)}
      {others : List Block} {size raw user : Nat} {flags : BitVec 32} :
      SdiRun maxPfn usable s bs live rest others → size < 2 ^ 64 →
      Supplies s (sdiTotal size flags) t raw → s.sdiKernelAlloc size flags = .ok (s', user) →
      user ≠ 0 →
      SdiRun maxPfn usable s' (⟨user, raw, size, flags⟩ :: bs)
        ((raw, sdiTotal size flags) :: live) rest others
  /-- A driver writes to its bytes, -/
  | write {s : Kheap} {bs : List SdiBlock} {live rest : List (Nat × Nat)} {others : List Block}
      {b : SdiBlock} {m : Memory} : SdiRun maxPfn usable s bs live rest others → b ∈ bs →
      (∀ a, m a ≠ s.mem a → b.user ≤ a ∧ a < b.user + b.size) →
      SdiRun maxPfn usable { s with mem := m } bs live rest others
  /-- or gives a pointer back. -/
  | free {s s' : Kheap} {bs : List SdiBlock} {live rest : List (Nat × Nat)} {others : List Block}
      {b : SdiBlock} : SdiRun maxPfn usable s bs live rest others → b ∈ bs →
      s.sdiKernelFree b.user = .ok s' →
      SdiRun maxPfn usable s' (bs.filter fun b' => b'.raw ≠ b.raw) (released live b.raw) rest others
  /-- Anything else leaves the blocks of the drivers alone. -/
  | elsewhere {s s' : Kheap} {bs : List SdiBlock} {live live' rest : List (Nat × Nat)}
      {others others' : List Block} : SdiRun maxPfn usable s bs live rest others →
      Elsewhere maxPfn usable 0 s live others s' live' others' →
      (∀ b ∈ bs, Elsewhere maxPfn usable b.raw s live others s' live' others') →
      SdiRun maxPfn usable s' bs live' (live'.filter fun e => bs.all fun b => b.raw ≠ e.1) others'

/-- What holds in every state of such a run. -/
structure SdiInv (maxPfn : Nat) (usable : Nat → Bool) (s : Kheap) (bs : List SdiBlock)
    (live rest : List (Nat × Nat)) (others : List Block) : Prop where
  run : Run maxPfn usable s live others
  alone : (bs.map (·.raw)).Nodup
  mine : ∀ b ∈ bs, (b.raw, b.total) ∈ live
  laid : ∀ b ∈ bs, Laid s.mem b
  rest : rest = live.filter fun e => bs.all fun b => b.raw ≠ e.1

variable {bs : List SdiBlock} {b : SdiBlock}

/-- Live allocations are at different addresses. -/
theorem live_fst {p : Nat} (h : Run maxPfn usable s ((p, n) :: live) others)
    {e : Nat × Nat} (he : e ∈ live) : e.1 ≠ p := by
  obtain ⟨⟨G, ref, hinv⟩, -⟩ := h.kept
  exact hinv.newest_ne he

/-- Two pointers of drivers are the same, or their blocks are apart. -/
theorem SdiInv.apart (h : SdiInv maxPfn usable s bs live rest others) {b' : SdiBlock} (hb : b ∈ bs)
    (hb' : b' ∈ bs) (hne : b.raw ≠ b'.raw) :
    b.raw + b.total ≤ b'.raw ∨ b'.raw + b'.total ≤ b.raw := by
  obtain ⟨⟨G, ref, hinv⟩, -⟩ := h.run.kept
  exact hinv.live_apart (h.mine b hb) (h.mine b' hb') hne

theorem SdiInv.eq_of_raw (h : SdiInv maxPfn usable s bs live rest others) {b' : SdiBlock}
    (hb : b ∈ bs) (hb' : b' ∈ bs) (he : b.raw = b'.raw) : b = b' :=
  List.inj_on_of_nodup_map h.alone hb hb' he

/-- A new pointer. -/
theorem SdiInv.alloc (h : SdiInv maxPfn usable s bs live rest others) (hsize : size < 2 ^ 64)
    (hsup : Supplies s (sdiTotal size flags) t raw) {user : Nat}
    (hs : s.sdiKernelAlloc size flags = .ok (s', user)) (hp : user ≠ 0) :
    SdiInv maxPfn usable s' (⟨user, raw, size, flags⟩ :: bs) ((raw, sdiTotal size flags) :: live)
      rest others := by
  have hasked : size ≠ 0 ∧ flags &&& ~~~SDI_ALLOC_SUPPORTED_FLAGS = 0 := by
    by_contra hno
    have hrefused : size = 0 ∨ flags &&& ~~~SDI_ALLOC_SUPPORTED_FLAGS ≠ 0 := by
      by_cases h0 : size = 0
      · exact Or.inl h0
      · exact Or.inr fun hf => hno ⟨h0, hf⟩
    unfold sdiKernelAlloc at hs
    rw [if_pos hrefused] at hs
    cases hs
    exact hp rfl
  have hwrap : size + 31 + sdiAlign flags < 2 ^ 64 := by
    by_contra hbig
    rw [sdiKernelAlloc_wrap s hsize (Nat.le_of_not_lt hbig)] at hs
    cases hs
    exact hp rfl
  obtain ⟨m, user', hs', hwrites, hlaid, -, hrun⟩ :=
    sdiKernelAlloc_supplied h.run hasked.1 hasked.2 hwrap hsup
  rw [hs] at hs'
  cases hs'
  have hfresh : ∀ e ∈ live, e.1 ≠ raw := fun e he => live_fst hrun he
  obtain ⟨⟨G, ref, hinv⟩, -⟩ := h.run.kept
  have hbytes := hinv.kmalloc_bytes hsup.call
  obtain ⟨⟨G', ref', hinv'⟩, -⟩ := hrun.kept
  refine ⟨hrun, ?_, ?_, ?_, ?_⟩
  · rw [List.map_cons, List.nodup_cons]
    refine ⟨?_, h.alone⟩
    intro hin
    obtain ⟨b, hb, he⟩ := List.mem_map.mp hin
    exact hfresh _ (h.mine b hb) he
  · intro b hb
    cases List.mem_cons.mp hb with
    | inl he =>
        subst he
        exact List.mem_cons_self
    | inr hin => exact List.mem_cons_of_mem _ (h.mine b hin)
  · intro b hb
    cases List.mem_cons.mp hb with
    | inl he =>
        subst he
        exact hlaid
    | inr hin =>
        have hl := h.laid b hin
        have hhead := hl.header
        have hinside := hl.inside
        have hmine := h.mine b hin
        have hapart := hinv'.live_apart (List.mem_cons_of_mem _ hmine) List.mem_cons_self
          (hfresh _ hmine)
        apply hl.congr
        intro a h1 h2
        rw [← hbytes b.raw b.total hmine a (by omega) (by omega)]
        by_contra hne
        have hin := hwrites a hne
        omega
  · have hnew : ∀ e ∈ live, decide (raw ≠ e.1) = true := by
      intro e he
      exact decide_eq_true (hfresh e he).symm
    rw [h.rest, List.filter_cons_of_neg (by simp)]
    apply List.filter_congr
    intro e he
    rw [List.all_cons, hnew e he, Bool.true_and]

/-- A driver writes to its bytes. -/
theorem SdiInv.write (h : SdiInv maxPfn usable s bs live rest others) (hb : b ∈ bs) {m : Memory}
    (hm : ∀ a, m a ≠ s.mem a → b.user ≤ a ∧ a < b.user + b.size) :
    SdiInv maxPfn usable { s with mem := m } bs live rest others := by
  have hl := h.laid b hb
  have hhead := hl.header
  have hinside := hl.inside
  refine ⟨?_, h.alone, h.mine, ?_, h.rest⟩
  · apply h.run.write (h.mine b hb)
    intro a ha
    have hin := hm a ha
    omega
  · intro b' hb'
    have hl' := h.laid b' hb'
    have hhead' := hl'.header
    have hinside' := hl'.inside
    apply hl'.congr
    intro a h1 h2
    by_contra hne
    have hin := hm a hne
    by_cases he : b.raw = b'.raw
    · -- the header is in front of the bytes
      rw [h.eq_of_raw hb hb' he] at hin
      omega
    · have hapart := h.apart hb hb' he
      omega

/-- A pointer comes back. -/
theorem SdiInv.free (h : SdiInv maxPfn usable s bs live rest others) (hb : b ∈ bs)
    (hs : s.sdiKernelFree b.user = .ok s') :
    SdiInv maxPfn usable s' (bs.filter fun b' => b'.raw ≠ b.raw) (released live b.raw) rest
      others := by
  obtain ⟨m, t, ht, hwrites, hfree, -, -, hrun⟩ := sdiKernelFree_laid h.run (h.mine b hb) (h.laid b hb)
  rw [hs] at ht
  cases ht
  have hcleared := h.run.write (h.mine b hb) hwrites
  obtain ⟨⟨G, ref, hinv⟩, -⟩ := hcleared.kept
  have hbytes := hinv.kfree_bytes (h.mine b hb) hfree
  have hkeep : ∀ b' ∈ bs.filter (fun b' => b'.raw ≠ b.raw), b' ∈ bs ∧ b'.raw ≠ b.raw := by
    intro b' hb'
    obtain ⟨hin, hne⟩ := List.mem_filter.mp hb'
    exact ⟨hin, of_decide_eq_true hne⟩
  have hmine : ∀ b' ∈ bs.filter (fun b' => b'.raw ≠ b.raw), (b'.raw, b'.total) ∈ released live b.raw := by
    intro b' hb'
    obtain ⟨hin, hne⟩ := hkeep b' hb'
    exact mem_released.mpr ⟨h.mine b' hin, hne⟩
  refine ⟨hrun, ?_, hmine, ?_, ?_⟩
  · exact h.alone.sublist (List.filter_sublist.map _)
  · intro b' hb'
    obtain ⟨hin, hne⟩ := hkeep b' hb'
    have hl := h.laid b' hin
    have hhead := hl.header
    have hinside := hl.inside
    have hapart := h.apart hb hin (Ne.symm hne)
    apply hl.congr
    intro a h1 h2
    rw [hbytes b'.raw b'.total (hmine b' hb') a (by omega) (by omega)]
    by_contra hne'
    have hin' := hwrites a hne'
    omega
  · rw [h.rest]
    unfold released
    rw [List.filter_filter]
    apply List.filter_congr
    intro e _
    rw [Bool.eq_iff_iff, Bool.and_eq_true, List.all_eq_true, List.all_eq_true]
    constructor
    · intro hall
      refine ⟨fun b' hb' => hall b' (hkeep b' hb').1, ?_⟩
      have hne := of_decide_eq_true (hall b hb)
      exact decide_eq_true (Ne.symm hne)
    · intro hall b' hb'
      by_cases he : b'.raw = b.raw
      · rw [he]
        have hne := of_decide_eq_true hall.2
        exact decide_eq_true (Ne.symm hne)
      · exact hall.1 b' (List.mem_filter.mpr ⟨hb', decide_eq_true he⟩)

/-- Others go about their business. -/
theorem SdiInv.elsewhere (h : SdiInv maxPfn usable s bs live rest others)
    {live' : List (Nat × Nat)} {others' : List Block}
    (e0 : Elsewhere maxPfn usable 0 s live others s' live' others')
    (e : ∀ b ∈ bs, Elsewhere maxPfn usable b.raw s live others s' live' others') :
    SdiInv maxPfn usable s' bs live' (live'.filter fun e => bs.all fun b => b.raw ≠ e.1) others' := by
  refine ⟨e0.run h.run, h.alone, ?_, ?_, rfl⟩
  · intro b hb
    exact ((e b hb).bytes h.run.kept (h.mine b hb)).1
  · intro b hb
    have hl := h.laid b hb
    have hhead := hl.header
    have hinside := hl.inside
    apply hl.congr
    intro a h1 h2
    exact ((e b hb).bytes h.run.kept (h.mine b hb)).2 a (by omega) (by omega)

/-- So it does in every state. -/
theorem SdiRun.inv (h : SdiRun maxPfn usable s bs live rest others) :
    SdiInv maxPfn usable s bs live rest others := by
  induction h with
  | start hrun =>
      refine ⟨hrun, List.nodup_nil, ?_, ?_, ?_⟩
      · simp
      · simp
      · simp
  | alloc _ hsize hsup hs hp ih => exact ih.alloc hsize hsup hs hp
  | write _ hb hm ih => exact ih.write hb hm
  | free _ hb hs ih => exact ih.free hb hs
  | elsewhere _ e0 e ih => exact ih.elsewhere e0 e

-- ==== the results

/-- For a call whose block is supplied: the pointer, the header and the
bytes are placed; a total that wraps is refused. In every run of such
calls: a pointer's free is the free of its block, which is live and then
is not; and when all pointers are freed, what is live is what the others
have. -/
theorem sdi_alloc_exact (maxPfn : Nat) (usable : Nat → Bool) :
    (∀ (s : Kheap) (live : List (Nat × Nat)) (others : List Block) (size : Nat) (flags : BitVec 32),
      Run maxPfn usable s live others → size ≠ 0 → size < 2 ^ 64 →
      flags &&& ~~~SDI_ALLOC_SUPPORTED_FLAGS = 0 →
      (2 ^ 64 ≤ size + 31 + sdiAlign flags → s.sdiKernelAlloc size flags = .ok (s, 0))
      ∧ ∀ t raw, size + 31 + sdiAlign flags < 2 ^ 64 → Supplies s (sdiTotal size flags) t raw →
        ∃ s' user, s.sdiKernelAlloc size flags = .ok (s', user) ∧ user ≠ 0
          ∧ Laid s'.mem ⟨user, raw, size, flags⟩
          ∧ Run maxPfn usable s' ((raw, sdiTotal size flags) :: live) others)
    ∧ (∀ (s : Kheap) (bs : List SdiBlock) (live rest : List (Nat × Nat)) (others : List Block),
      SdiRun maxPfn usable s bs live rest others → Run maxPfn usable s live others
        ∧ (bs.map (·.raw)).Nodup
        ∧ (∀ b ∈ bs, (b.raw, b.total) ∈ live ∧ Laid s.mem b
          ∧ ∃ s', s.sdiKernelFree b.user = .ok s' ∧ s'.totalAllocCount = s.totalAllocCount
            ∧ s'.totalFreeCount = s.totalFreeCount + 1
            ∧ Run maxPfn usable s' (released live b.raw) others)
        ∧ (bs = [] → live = rest)) := by
  constructor
  · intro s live others size flags hrun h0 hsize hflags
    refine ⟨sdiKernelAlloc_wrap s hsize, ?_⟩
    intro t raw hwrap hsup
    obtain ⟨m, user, hs, -, hlaid, -, hrun'⟩ := sdiKernelAlloc_supplied hrun h0 hflags hwrap hsup
    exact ⟨_, user, hs, hlaid.user_ne, hlaid, hrun'⟩
  · intro s bs live rest others h
    have hinv := h.inv
    refine ⟨hinv.run, hinv.alone, ?_, ?_⟩
    · intro b hb
      obtain ⟨m, t, ht, -, -, hallocs, hfrees, hrun⟩ :=
        sdiKernelFree_laid hinv.run (hinv.mine b hb) (hinv.laid b hb)
      exact ⟨hinv.mine b hb, hinv.laid b hb, t, ht, hallocs, hfrees, hrun⟩
    · intro hnil
      rw [hinv.rest, hnil]
      simp

/-- 8 bytes at the start of a page, which are given back. -/
theorem sdi_alloc_exact_page : ∃ t raw s' user,
    Supplies bootHeap (sdiTotal 8 SDI_ALLOC_PAGE_ALIGNED) t raw
      ∧ bootHeap.sdiKernelAlloc 8 SDI_ALLOC_PAGE_ALIGNED = .ok (s', user) ∧ user ≠ 0
      ∧ Laid s'.mem ⟨user, raw, 8, SDI_ALLOC_PAGE_ALIGNED⟩
      ∧ ∃ s'', s'.sdiKernelFree user = .ok s'' ∧ s''.totalFreeCount = s'.totalFreeCount + 1
        ∧ Run 16 (fun q => 1 ≤ q) s'' [] [] := by
  have htotal : sdiTotal 8 SDI_ALLOC_PAGE_ALIGNED = 4135 := by decide
  obtain ⟨t, raw, hk, hne, hroom⟩ : ∃ t raw, bootHeap.kmalloc 4135 = .ok (t, raw) ∧ raw ≠ 0
      ∧ 4135 ≤ t.room raw := by
    have hcall : ((bootHeap.kmalloc 4135).toOption.any fun r =>
        decide (r.2 ≠ 0 ∧ 4135 ≤ r.1.room r.2)) = true := by decide +kernel
    cases hr : bootHeap.kmalloc 4135 with
    | error e =>
        rw [hr] at hcall
        cases hcall
    | ok r =>
        rw [hr] at hcall
        obtain ⟨hne, hroom⟩ := of_decide_eq_true hcall
        exact ⟨r.1, r.2, rfl, hne, hroom⟩
  have hsup : Supplies bootHeap (sdiTotal 8 SDI_ALLOC_PAGE_ALIGNED) t raw := by
    rw [htotal]
    exact ⟨hk, hne, hroom⟩
  obtain ⟨halloc, hruns⟩ := sdi_alloc_exact 16 fun q => 1 ≤ q
  obtain ⟨s', user, hs, hp, hlaid, -⟩ := (halloc bootHeap [] [] 8 SDI_ALLOC_PAGE_ALIGNED
    run_bootHeap (by decide) (by decide) (by decide)).2 t raw (by decide) hsup
  have hrun := (SdiRun.start run_bootHeap).alloc (by decide) hsup hs hp
  obtain ⟨-, -, hblocks, -⟩ := hruns _ _ _ _ _ hrun
  obtain ⟨-, -, s'', hfree, -, hcount, hrun'⟩ := hblocks _ List.mem_cons_self
  refine ⟨t, raw, s', user, hsup, hs, hp, hlaid, s'', hfree, hcount, ?_⟩
  simpa [released] using hrun'

end Alix.Kheap
