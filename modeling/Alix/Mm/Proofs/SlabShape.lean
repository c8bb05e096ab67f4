/-
Inside a slab.

A slab is a page: links, a word that starts the freelist, two counts, and
behind the header the objects of its cache. The freelist runs through the
objects that nobody has, so it is only there as long as nobody writes to
them.

`Shape` is how a page is divided: where the first object is, how far they
are from each other and how many there are. It only exists where the
header and the objects fit in a page and an object holds a pointer, and
that is all the freelist asks for. `Shape.At` says that a page has a given
list of free slots. It reads three words of the header and the first word
of every free slot (`At.congr`); taking the first slot (`At.take`), giving
one back (`At.give`) and setting up a page (`Shape.at_init`) are the three
ways it changes.
-/
import Mathlib.Data.List.Range
import Mathlib.Data.List.Perm.Subperm
import Alix.Mm.Proofs.SlabList

namespace Alix.Kheap

open Bytes (Memory load store load_store_same load_store_of_apart load_congr store_outside)

/-- How a slab is divided into objects. -/
structure Shape where
  base : Nat
  size : Nat
  count : Nat
  /-- An object holds a pointer. -/
  pointer : 8 ≤ size
  /-- The objects are behind the header. -/
  header : 40 ≤ base
  /-- They are in the page. -/
  room : base + count * size ≤ 4096
  pos : 0 < count

variable {hhdm q x y i j : Nat} {m m' : Memory} {free : List Nat} {S : Shape}

-- ==== the freelist

/-- The free slots, each one's first word leading to the next. -/
def Chain (m : Memory) : Nat → List Nat → Prop
  | p, [] => p = 0
  | p, x :: xs => p = x ∧ Chain m (load m x 8) xs

theorem Chain.congr {p : Nat} (h : Chain m p free)
    (hm : ∀ x ∈ free, ∀ a, x ≤ a → a < x + 8 → m' a = m a) : Chain m' p free := by
  induction free generalizing p with
  | nil => exact h
  | cons x xs ih =>
      obtain ⟨hp, hrest⟩ := h
      refine ⟨hp, ?_⟩
      rw [load_congr (hm x List.mem_cons_self)]
      exact ih hrest fun y hy => hm y (List.mem_cons_of_mem x hy)

/-- Records follow one another. -/
theorem record_le (b size : Nat) (h : i < j) : b + i * size + size ≤ b + j * size := by
  have hmul : (i + 1) * size ≤ j * size := Nat.mul_le_mul_right _ h
  rw [Nat.succ_mul] at hmul
  omega

namespace Shape

-- ==== slots

theorem count_le (S : Shape) : S.count ≤ 4096 := by
  have hroom := S.room
  have hmul : S.count * 8 ≤ S.count * S.size := Nat.mul_le_mul_left _ S.pointer
  omega

/-- Object `i` of a slab. -/
def slot (S : Shape) (hhdm q i : Nat) : Nat := pageAt hhdm q + S.base + i * S.size

/-- The address is one of the slab's objects. -/
def IsSlot (S : Shape) (hhdm q x : Nat) : Prop := ∃ i, i < S.count ∧ x = S.slot hhdm q i

theorem IsSlot.bounds (h : S.IsSlot hhdm q x) :
    pageAt hhdm q + 40 ≤ x ∧ x + S.size ≤ pageAt hhdm q + 4096 := by
  obtain ⟨i, hi, rfl⟩ := h
  have hbase := S.header
  have hend := S.room
  have hle := record_le (pageAt hhdm q + S.base) S.size hi
  unfold slot
  omega

/-- Two objects of a slab do not overlap. -/
theorem IsSlot.apart (hx : S.IsSlot hhdm q x) (hy : S.IsSlot hhdm q y) (hne : x ≠ y) :
    x + S.size ≤ y ∨ y + S.size ≤ x := by
  obtain ⟨i, hi, rfl⟩ := hx
  obtain ⟨j, hj, rfl⟩ := hy
  have hij : i ≠ j := fun e => hne (by rw [e])
  cases Nat.lt_or_gt_of_ne hij with
  | inl hlt => exact Or.inl (record_le _ S.size hlt)
  | inr hlt => exact Or.inr (record_le _ S.size hlt)

/-- The objects of a slab, in order. -/
def slots (S : Shape) (hhdm q : Nat) : List Nat := (List.range S.count).map (S.slot hhdm q)

theorem mem_slots : x ∈ S.slots hhdm q ↔ S.IsSlot hhdm q x := by
  unfold slots IsSlot
  rw [List.mem_map]
  constructor
  · intro h
    obtain ⟨i, hi, he⟩ := h
    exact ⟨i, List.mem_range.mp hi, he.symm⟩
  · intro h
    obtain ⟨i, hi, he⟩ := h
    exact ⟨i, List.mem_range.mpr hi, he.symm⟩

/-- There are not more distinct slots than objects. -/
theorem slots_length (hnd : free.Nodup) (hs : ∀ x ∈ free, S.IsSlot hhdm q x) :
    free.length ≤ S.count := by
  have hsub : free ⊆ S.slots hhdm q := fun x hx => mem_slots.mpr (hs x hx)
  have hle := (hnd.subperm hsub).length_le
  unfold slots at hle
  rwa [List.length_map, List.length_range] at hle

theorem slots_nodup (S : Shape) (hhdm q : Nat) : (S.slots hhdm q).Nodup := by
  have hsize := S.pointer
  unfold slots
  refine List.nodup_range.map fun i j he => ?_
  unfold slot at he
  exact Nat.eq_of_mul_eq_mul_right (by omega : 0 < S.size) (by omega)

-- ==== a page

/-- The page of a slab with these free slots. -/
structure At (S : Shape) (hhdm : Nat) (m : Memory) (q : Nat) (free : List Nat) : Prop where
  chain : Chain m (load m (pageAt hhdm q + 16) 8) free
  inuse : load m (pageAt hhdm q + 24) 4 + free.length = S.count
  total : load m (pageAt hhdm q + 28) 4 = S.count
  slots : ∀ x ∈ free, S.IsSlot hhdm q x
  nodup : free.Nodup

theorem At.congr (h : S.At hhdm m q free)
    (hhdr : ∀ a, pageAt hhdm q + 16 ≤ a → a < pageAt hhdm q + 32 → m' a = m a)
    (hfree : ∀ x ∈ free, ∀ a, x ≤ a → a < x + 8 → m' a = m a) : S.At hhdm m' q free where
  chain := by
    rw [load_congr fun a h1 h2 => hhdr a h1 (by omega)]
    exact h.chain.congr hfree
  inuse := by
    rw [load_congr fun a h1 h2 => hhdr a (by omega) (by omega)]
    exact h.inuse
  total := by
    rw [load_congr fun a h1 h2 => hhdr a (by omega) (by omega)]
    exact h.total
  slots := h.slots
  nodup := h.nodup

/-- It does not rest on its links. -/
theorem At.congr_page (h : S.At hhdm m q free)
    (hm : ∀ a, pageAt hhdm q + 16 ≤ a → a < pageAt hhdm q + 4096 → m' a = m a) :
    S.At hhdm m' q free := by
  have hsize := S.pointer
  refine h.congr (fun a h1 h2 => hm a h1 (by omega)) fun y hy a h1 h2 => ?_
  have hb := (h.slots y hy).bounds
  exact hm a (by omega) (by omega)

/-- The freelist word is null when no slot is free. -/
theorem At.freelist_zero (h : S.At hhdm m q free) :
    load m (pageAt hhdm q + 16) 8 = 0 ↔ free = [] := by
  have hchain := h.chain
  cases free with
  | nil => exact ⟨fun _ => rfl, fun _ => hchain⟩
  | cons x xs =>
      obtain ⟨hp, -⟩ := hchain
      have hb := (h.slots x List.mem_cons_self).bounds
      constructor
      · intro h0
        omega
      · intro h0
        cases h0

/-- The first free slot is taken. -/
theorem At.take (h : S.At hhdm m q (x :: free))
    {m₁ : Memory} (hm : m₁ = store m (pageAt hhdm q + 16) 8 (load m x 8)) :
    S.At hhdm (store m₁ (pageAt hhdm q + 24) 4 ((load m₁ (pageAt hhdm q + 24) 4 + 1) % 2 ^ 32))
      q free := by
  obtain ⟨hx, hrest⟩ := h.chain
  have hcount := S.count_le
  have huse : load m₁ (pageAt hhdm q + 24) 4 = load m (pageAt hhdm q + 24) 4 := by
    rw [hm]
    exact load_store_of_apart (Or.inr (by omega))
  have hin := h.inuse
  rw [List.length_cons] at hin
  rw [huse, Nat.mod_eq_of_lt (by omega)]
  refine ⟨?_, ?_, ?_, fun y hy => h.slots y (List.mem_cons_of_mem x hy),
    (List.nodup_cons.mp h.nodup).2⟩
  · rw [load_store_of_apart (Or.inl (by omega)), hm, load_store_same (Bytes.load_lt m x 8)]
    refine hrest.congr fun y hy a h1 h2 => ?_
    have hb := (h.slots y (List.mem_cons_of_mem x hy)).bounds
    rw [store_outside (by omega), store_outside (by omega)]
  · rw [load_store_same (by omega)]
    omega
  · rw [load_store_of_apart (Or.inr (by omega)), hm, load_store_of_apart (Or.inr (by omega))]
    exact h.total

/-- A slot is given back. -/
theorem At.give (h : S.At hhdm m q free) (hx : S.IsSlot hhdm q x) (hnew : x ∉ free)
    (hroom : pageAt hhdm q + 4096 ≤ 2 ^ 64) {m₁ m₂ : Memory}
    (hm₁ : m₁ = store m x 8 (load m (pageAt hhdm q + 16) 8))
    (hm₂ : m₂ = store m₁ (pageAt hhdm q + 16) 8 x) :
    S.At hhdm (store m₂ (pageAt hhdm q + 24) 4
      ((load m₂ (pageAt hhdm q + 24) 4 + (2 ^ 32 - 1)) % 2 ^ 32)) q (x :: free) := by
  have hsize := S.pointer
  have hcount := S.count_le
  have hbx := hx.bounds
  have hnd : (x :: free).Nodup := List.nodup_cons.mpr ⟨hnew, h.nodup⟩
  have hslots : ∀ y ∈ x :: free, S.IsSlot hhdm q y := by
    intro y hy
    cases List.mem_cons.mp hy with
    | inl he => rw [he]; exact hx
    | inr hy => exact h.slots y hy
  have hlen := slots_length hnd hslots
  rw [List.length_cons] at hlen
  have huse : load m₂ (pageAt hhdm q + 24) 4 = load m (pageAt hhdm q + 24) 4 := by
    rw [hm₂, load_store_of_apart (Or.inr (by omega)), hm₁,
      load_store_of_apart (Or.inl (by omega))]
  have hin := h.inuse
  have hdec : (load m (pageAt hhdm q + 24) 4 + (2 ^ 32 - 1)) % 2 ^ 32
      = load m (pageAt hhdm q + 24) 4 - 1 := by omega
  rw [huse, hdec]
  refine ⟨⟨?_, ?_⟩, ?_, ?_, hslots, hnd⟩
  · rw [load_store_of_apart (Or.inl (by omega)), hm₂, load_store_same (by omega)]
  · rw [load_store_of_apart (Or.inr (by omega)), hm₂, load_store_of_apart (Or.inr (by omega)),
      hm₁, load_store_same (Bytes.load_lt m _ 8)]
    refine h.chain.congr fun y hy a h1 h2 => ?_
    have hby := (h.slots y hy).bounds
    have hapart := (h.slots y hy).apart hx fun e => hnew (by rw [← e]; exact hy)
    rw [store_outside (by omega), store_outside (by omega), store_outside (by omega)]
  · rw [load_store_same (by omega), List.length_cons]
    omega
  · rw [load_store_of_apart (Or.inr (by omega)), hm₂, load_store_of_apart (Or.inr (by omega)),
      hm₁, load_store_of_apart (Or.inl (by omega))]
    exact h.total

-- ==== a new slab

/-- The objects from the `i`-th on are linked. -/
theorem chain_slots {n : Nat}
    (hm : ∀ j, j < S.count → load m (S.slot hhdm q j) 8
      = if j + 1 < S.count then S.slot hhdm q (j + 1) else 0)
    (hn : i + n = S.count) :
    Chain m (if i < S.count then S.slot hhdm q i else 0)
      ((List.range' i n).map (S.slot hhdm q)) := by
  induction n generalizing i with
  | zero =>
      rw [if_neg (by omega)]
      exact rfl
  | succ n ih =>
      rw [if_pos (by omega), List.range'_succ, List.map_cons]
      refine ⟨rfl, ?_⟩
      rw [hm i (by omega)]
      exact ih (by omega)

/-- The sizes of a cache divide its slabs so. -/
structure Of (S : Shape) (cache : SlabCache) : Prop where
  hdr : slabHdr cache = S.base
  size : cache.objSize = S.size
  total : slabTotal cache = S.count

end Shape

/-- The page as `slab_create` writes it. -/
def initSlab (m : Memory) (slab page : Nat) (cache : SlabCache) : Memory :=
  let m := store (store m slab 8 0) (slab + 8) 8 0
  let m := store (store m (slab + 24) 4 0) (slab + 28) 4 (slabTotal cache)
  let m := store m (slab + 32) 8 page
  let base := slab + slabHdr cache
  let slot := fun i => if i + 1 < slabTotal cache then base + (i + 1) * cache.objSize else 0
  Bytes.storeAll (store m (slab + 16) 8 base) base cache.objSize 8 slot (slabTotal cache)

theorem modPage_modPage (pmm : Pmm) (p : Nat) (f g : Page → Page) :
    (pmm.modPage p f).modPage p g = pmm.modPage p fun pg => g (f pg) := by
  simp only [Pmm.modPage, Function.update_self, Function.update_idem]

/-- The heap with the new slab, which is on no list yet. -/
def newSlab (s : Kheap) (c : Nat) (pmm : Pmm) (page : Nat) : Kheap :=
  let pmm := pmm.modPage page fun pg => { Page.setFlag PAGE_SLAB pg with priv := cachePtr c }
  { s with pmm, mem := initSlab s.mem (pageAt s.hhdm page) page (s.caches c) }

theorem slabCreate_eq (s : Kheap) (c : Nat) {pmm : Pmm} {page : Nat}
    (h : s.pmm.pmmAllocPage = some (pmm, page)) :
    s.slabCreate c = some (s.newSlab c pmm page, pageAt s.hhdm page) := by
  have htwice := modPage_modPage pmm page (Page.setFlag PAGE_SLAB)
    fun p => { p with priv := cachePtr c }
  unfold newSlab slabCreate
  rw [h]
  simp only [modPage, htwice]
  rfl

namespace Shape

variable {cache : SlabCache}

/-- A new slab has all its slots free. -/
theorem at_init (ho : S.Of cache) (hroom : pageAt hhdm q + 4096 ≤ 2 ^ 64) :
    S.At hhdm (initSlab m (pageAt hhdm q) q cache) q (S.slots hhdm q) := by
  have hsize := S.pointer
  have hbase := S.header
  have hend := S.room
  have hpos := S.pos
  have hcount := S.count_le
  have hsome : 0 < S.count * S.size := Nat.mul_pos hpos (by omega)
  unfold initSlab
  simp only [ho.hdr, ho.total, ho.size]
  -- the header is before the objects
  generalize hm₀ : store (store (store (store (store m (pageAt hhdm q) 8 0)
    (pageAt hhdm q + 8) 8 0) (pageAt hhdm q + 24) 4 0) (pageAt hhdm q + 28) 4 S.count)
    (pageAt hhdm q + 32) 8 q = m₀
  generalize hm₁ : Bytes.storeAll (store m₀ (pageAt hhdm q + 16) 8 (pageAt hhdm q + S.base))
    (pageAt hhdm q + S.base) S.size 8 (fun i => if i + 1 < S.count then
      pageAt hhdm q + S.base + (i + 1) * S.size else 0) S.count = m₁
  have hout : ∀ {a n : Nat}, a + n ≤ pageAt hhdm q + S.base → load m₁ a n
      = load (store m₀ (pageAt hhdm q + 16) 8 (pageAt hhdm q + S.base)) a n := by
    intro a n ha
    rw [← hm₁]
    exact load_congr fun y h1 h2 => Bytes.storeAll_outside hsize (by omega)
  have hslots : ∀ j, j < S.count → load m₁ (S.slot hhdm q j) 8
      = if j + 1 < S.count then S.slot hhdm q (j + 1) else 0 := by
    intro j hj
    unfold slot
    rw [← hm₁, Bytes.load_storeAll hsize hj]
    refine Nat.mod_eq_of_lt ?_
    split
    · rename_i hlt
      have hmul : (j + 2) * S.size ≤ S.count * S.size := Nat.mul_le_mul_right _ hlt
      rw [show j + 2 = j + 1 + 1 from rfl, Nat.succ_mul] at hmul
      have h64 : (256 : Nat) ^ 8 = 2 ^ 64 := by decide
      omega
    · exact Nat.pow_pos (by omega)
  refine ⟨?_, ?_, ?_, fun x hx => mem_slots.mp hx, S.slots_nodup hhdm q⟩
  · rw [hout (by omega), load_store_same (by omega)]
    have hchain := chain_slots (i := 0) (n := S.count) hslots (by omega)
    have h0 : S.slot hhdm q 0 = pageAt hhdm q + S.base := by
      unfold slot
      omega
    rw [if_pos hpos, h0, ← List.range_eq_range'] at hchain
    exact hchain
  · rw [hout (by omega), load_store_of_apart (Or.inr (by omega)), ← hm₀,
      load_store_of_apart (Or.inl (by omega)), load_store_of_apart (Or.inl (by omega)),
      load_store_same (by omega)]
    unfold slots
    rw [List.length_map, List.length_range, Nat.zero_add]
  · rw [hout (by omega), load_store_of_apart (Or.inr (by omega)), ← hm₀,
      load_store_of_apart (Or.inl (by omega)), load_store_same (by omega)]

/-- Setting a slab up writes to its page. -/
theorem init_outside (ho : S.Of cache)
    (hx : ¬ (pageAt hhdm q ≤ x ∧ x < pageAt hhdm q + 4096)) :
    initSlab m (pageAt hhdm q) q cache x = m x := by
  have hsize := S.pointer
  have hbase := S.header
  have hend := S.room
  unfold initSlab
  simp only [ho.hdr, ho.total, ho.size]
  rw [Bytes.storeAll_outside hsize (by omega), store_outside (by omega),
    store_outside (by omega), store_outside (by omega), store_outside (by omega),
    store_outside (by omega), store_outside (by omega)]

end Shape

end Alix.Kheap
