/-
A cache over whole runs.

# What a run is

`CacheRun` starts where the cache was created, in any heap that has been
in use (`Reached`). `slab_alloc` and `slab_free` are called on the cache
in any order, what is freed is an object that is out, and an object is its
owner's to write to.

# What holds

`Sound` is all that a user of the cache can ask for in such a state:
`slab_alloc` returns, the objects are aligned, in their slabs' pages
behind the headers and apart, the freelists run through the slots that
nobody has and their links stay in their slots, and neither call writes
to an object. With sizes that fit every state of a run is sound
(`sound_of_fits`).
-/
import Alix.Mm.Proofs.CacheSteps
import Alix.Mm.Proofs.KheapRun
import Alix.Mm.Proofs.SlabSizes

namespace Alix.Slab

open Bytes (Memory)
open Dyadic (Block)
open Pmm (Ledger)
open Kheap (Shape SlabList OnLists Placed Chain pageAt cachePtr)

variable {maxPfn : Nat} {usable : Nat → Bool} {size align : BitVec 32} {s s₀ t : Kheap}
  {c k q x : Nat} {objs : List Nat} {live : List (Nat × Nat)} {others : List Block}

-- ==== the runs

/-- Runs of a cache, with the objects that are out. -/
inductive CacheRun (size align : BitVec 32) (c : Nat) (s₀ : Kheap) : Kheap → List Nat → Prop
  /-- `slab_cache_create` has returned. -/
  | init : CacheRun size align c s₀ s₀ []
  /-- `slab_alloc` returns an object, or NULL. -/
  | alloc {s s' : Kheap} {objs : List Nat} {x : Nat} :
      CacheRun size align c s₀ s objs → slabAlloc s c = .ok (s', x) →
      CacheRun size align c s₀ s' (if x = 0 then objs else x :: objs)
  /-- `slab_free` of an object. -/
  | free {s : Kheap} {objs : List Nat} {x : Nat} :
      CacheRun size align c s₀ s objs → x ∈ objs →
      CacheRun size align c s₀ (s.slabFree c x) (objs.erase x)
  /-- The owner of an object writes to it. -/
  | write {s : Kheap} {objs : List Nat} {x : Nat} {mem : Memory} :
      CacheRun size align c s₀ s objs → x ∈ objs →
      (∀ a, mem a ≠ s.mem a → x ≤ a ∧ a < x + (roundUp size align).toNat) →
      CacheRun size align c s₀ { s with mem } objs

/-- A state in a run of a cache of this size and alignment. -/
def Reached (size align : BitVec 32) (c : Nat) (t : Kheap) (objs : List Nat) : Prop :=
  ∃ maxPfn usable s live others s₀, Kheap.Run maxPfn usable s live others
    ∧ slabCacheCreate s size align = .ok (s₀, cachePtr c) ∧ CacheRun size align c s₀ t objs

-- ==== what is asked

/-- Slot `i` of a slab of the cache. -/
def slotOf (s : Kheap) (size align : BitVec 32) (q i : Nat) : Nat :=
  s.slabFromPage q + (hdr align).toNat + i * (roundUp size align).toNat

/-- How many there are. -/
def slotCount (size align : BitVec 32) : Nat := (total (roundUp size align) align).toNat

/-- What a user of a cache asks for. -/
structure Sound (s : Kheap) (size align : BitVec 32) (c : Nat) (objs : List Nat) : Prop where
  /-- `slab_alloc` does not divide by zero. -/
  returns : ∃ r, slabAlloc s c = .ok r
  aligned : ∀ x ∈ objs, align.toNat ∣ x
  /-- An object is in the page of a slab of the cache, behind the header. -/
  inside : ∀ x ∈ objs, ∃ q, OwnSlab s c q ∧ s.slabFromPage q + sizeofSlab ≤ x
    ∧ x + (roundUp size align).toNat ≤ s.slabFromPage q + PAGE_SIZE
  apart : objs.Pairwise fun x y =>
    x + (roundUp size align).toNat ≤ y ∨ y + (roundUp size align).toNat ≤ x
  /-- The link in a slot meets no other slot. -/
  links : ∀ q, OwnSlab s c q → ∀ i j, i < slotCount size align → j < slotCount size align →
    i ≠ j → slotOf s size align q i + 8 ≤ slotOf s size align q j
      ∨ slotOf s size align q j + (roundUp size align).toNat ≤ slotOf s size align q i
  /-- A freelist runs through the slots of its slab that nobody has. -/
  freelist : ∀ q, OwnSlab s c q → ∃ free, Chain s.mem (s.get64 (s.slabFromPage q + 16)) free
    ∧ free.Nodup
    ∧ ∀ x, x ∈ free ↔ (∃ i, i < slotCount size align ∧ x = slotOf s size align q i) ∧ x ∉ objs
  /-- Neither call writes to an object that stays out. -/
  alloc : ∀ s' x, slabAlloc s c = .ok (s', x) →
    Untouched (roundUp size align).toNat objs s.mem s'.mem
  free : ∀ x ∈ objs,
    Untouched (roundUp size align).toNat (objs.erase x) s.mem (s.slabFree c x).mem

-- ==== the creation

/-- A cache as `slab_cache_create` leaves it. -/
structure Created (maxPfn : Nat) (usable : Nat → Bool) (s : Kheap) (size align : BitVec 32)
    (c : Nat) : Prop where
  placed : Placed maxPfn s
  cache : s.caches c = ⟨(roundUp size align).toNat, align.toNat, 0, 0, 0, 0⟩
  ledger : ∃ out ref, Ledger maxPfn usable s.pmm out ref
  slabless : ∀ q, ¬ OwnSlab s c q

/-- What `slab_cache_create` has done if it returns a cache. -/
theorem create_cases {p : Nat} (h : slabCacheCreate s size align = .ok (t, p)) (hp : p ≠ 0) :
    ∃ u, s.kmalloc sizeofSlabCache = .ok (u, p)
      ∧ t = u.modCache (p - 1) fun _ =>
        ⟨(roundUp size align).toNat, align.toNat, 0, 0, 0, 0⟩ := by
  unfold slabCacheCreate at h
  split at h
  · cases h
  · cases hk : s.kmalloc sizeofSlabCache with
    | error e =>
        rw [hk] at h
        cases h
    | ok r =>
        obtain ⟨u, p'⟩ := r
        simp only [hk] at h
        split at h
        · cases h
          exact absurd rfl hp
        · cases h
          exact ⟨u, rfl, rfl⟩

/-- The new cache has no slab: the slabs there are belong to the caches of
the heap, which are not allocations. -/
theorem created (hr : Kheap.Run maxPfn usable s live others)
    (h : slabCacheCreate s size align = .ok (t, cachePtr c)) :
    Created maxPfn usable t size align c := by
  obtain ⟨u, hk, ht⟩ := create_cases h (Nat.succ_ne_zero c)
  obtain ⟨⟨G, ref, hinv⟩, -⟩ := hr.kept
  have hsmall : sizeofSlabCache < 2 ^ 64 - 24 := by decide
  cases hinv.kmalloc hsmall hk with
  | inl hz => exact absurd hz.1 (Nat.succ_ne_zero c)
  | inr hz =>
      obtain ⟨-, -, -, G', ref', h'⟩ := hz
      have hcache : cachePtr c - 1 = c := rfl
      rw [ht, hcache]
      refine ⟨⟨h'.placed.pos, h'.placed.aligned, h'.placed.room⟩, Kheap.modCache_self u c _,
        ⟨_, _, h'.ledger⟩, fun q hq => ?_⟩
      obtain ⟨p, r, hp, hb⟩ := h'.backed (cachePtr c) sizeofSlabCache List.mem_cons_self
      have hin := ((h'.role p r hp).backed_inside hb).1
      obtain ⟨c', free, hrole⟩ := h'.flag q hq.1
      obtain ⟨hc', -, hpriv, -⟩ := h'.role q _ hrole
      have hsame : cachePtr c' = cachePtr c := hpriv.symm.trans hq.2
      have hlt : c' < 9 := hc'
      unfold cachePtr at hsame hin
      omega

theorem Created.sized (h : Created maxPfn usable s size align c) :
    Sized (s.caches c) size align := by
  rw [h.cache]
  exact ⟨rfl, rfl⟩

theorem Created.head (h : Created maxPfn usable s size align c) (l : SlabList) :
    s.head c l = 0 := by
  unfold Kheap.head
  rw [h.cache]
  cases l with
  | partials => rfl
  | full => rfl

/-- It has nothing yet. -/
theorem Created.stocked (h : Created maxPfn usable s size align c) (hk : k < 32)
    (ha : align.toNat = 2 ^ k) (hf : Fits size.toNat (2 ^ k)) :
    Stocked maxPfn usable (shape hk ha hf) align.toNat s c ⟨fun _ => none, fun _ _ => []⟩ [] := by
  have hno : ∀ q, ¬ (Stock.mk (fun _ => none) fun _ _ => []).Has q := by
    intro q hq
    obtain ⟨free, hq⟩ := hq
    cases hq
  obtain ⟨out, ref, hledger⟩ := h.ledger
  refine ⟨h.placed, h.sized.shape hk ha hf, h.sized.2,
    ⟨out, ref, hledger, fun q hq => absurd hq (hno q)⟩,
    fun q => ⟨fun hq => absurd hq (h.slabless q), fun hq => absurd hq (hno q)⟩,
    fun q free hq => (by cases hq), ?_, fun q free hq => (by cases hq),
    fun c' k q hq => (by cases hq), fun x => ?_, List.nodup_nil⟩
  · refine ⟨⟨⟨fun _ => none, fun _ => none⟩, ⟨fun q hq => absurd hq (hno q),
      fun q hq => absurd hq (hno q)⟩, fun _ _ => Dll.isList_nil _⟩, fun c' l hc' => ?_,
      fun c' k q hq => (by cases hq), fun c' k c'' k' q hq => (by cases hq),
      fun q hq => absurd hq (hno q)⟩
    rw [hc', h.head]
    rfl
  · constructor
    · intro hx
      cases hx
    · intro hx
      obtain ⟨q, free, hq, -⟩ := hx
      cases hq

-- ==== sizes that fit

/-- Every step of a run keeps the cache. -/
theorem CacheRun.stocked (hr : CacheRun size align c s₀ s objs)
    (h : Created maxPfn usable s₀ size align c) (hk : k < 32) (ha : align.toNat = 2 ^ k)
    (hf : Fits size.toNat (2 ^ k)) :
    ∃ G, Stocked maxPfn usable (shape hk ha hf) align.toNat s c G objs := by
  induction hr with
  | init => exact ⟨_, h.stocked hk ha hf⟩
  | alloc _ hs ih =>
      obtain ⟨G, hst⟩ := ih
      rw [slabAlloc_eq ⟨hst.sized.size, hst.align⟩ hk ha hf] at hs
      exact (hst.slabAlloc (Except.ok.inj hs)).1
  | free _ hx ih =>
      obtain ⟨G, hst⟩ := ih
      exact (hst.give hx).1
  | write _ hx hm ih =>
      obtain ⟨G, hst⟩ := ih
      exact ⟨G, hst.write hx hm⟩

/-- A slot of the division is one of `slab_create`. -/
theorem isSlot_iff (hk : k < 32) (ha : align.toNat = 2 ^ k) (hf : Fits size.toNat (2 ^ k)) :
    (shape hk ha hf).IsSlot s.hhdm q x
      ↔ ∃ i, i < slotCount size align ∧ x = slotOf s size align q i := by
  have hroom := ((fits_iff hk ha).mp hf).2
  have hcount : slotCount size align = (shape hk ha hf).count := total_toNat (by omega)
  rw [hcount]
  rfl

/-- What the invariant says to the user. -/
theorem Stocked.sound {G : Stock} (hk : k < 32) (ha : align.toNat = 2 ^ k)
    (hf : Fits size.toNat (2 ^ k))
    (h : Stocked maxPfn usable (shape hk ha hf) align.toNat s c G objs) :
    Sound s size align c objs where
  returns := ⟨_, slabAlloc_eq ⟨h.sized.size, h.align⟩ hk ha hf⟩
  aligned := by
    intro x hx
    obtain ⟨q, free, -, hx, -⟩ := h.slot hx
    exact slot_aligned hk ha hf h.placed.aligned hx
  inside := by
    intro x hx
    obtain ⟨q, free, hq, hx, -⟩ := h.slot hx
    exact ⟨q, (h.own q).mpr ⟨free, hq⟩, hx.bounds⟩
  apart := h.nodup.imp_of_mem fun hx hy hne => h.apart hx hy hne
  links := by
    intro q _ i j _ _ hne
    have hsize := (shape hk ha hf).pointer
    cases Nat.lt_or_gt_of_ne hne with
    | inl hlt =>
        have hle : slotOf s size align q i + (shape hk ha hf).size ≤ slotOf s size align q j :=
          Kheap.record_le _ _ hlt
        exact Or.inl (by omega)
    | inr hlt => exact Or.inr (Kheap.record_le _ _ hlt)
  freelist := by
    intro q hq
    obtain ⟨free, hq⟩ := (h.own q).mp hq
    have hs := h.page q free hq
    refine ⟨free, hs.chain, hs.nodup, fun x => ?_⟩
    rw [← isSlot_iff hk ha hf]
    constructor
    · intro hx
      have hslot := hs.slots x hx
      exact ⟨hslot, fun hin => (h.out_iff hq hslot).mp hin hx⟩
    · intro hx
      by_contra hno
      exact hx.2 ((h.out_iff hq hx.1).mpr hno)
  alloc := by
    intro s' x hs
    rw [slabAlloc_eq ⟨h.sized.size, h.align⟩ hk ha hf] at hs
    exact (h.slabAlloc (Except.ok.inj hs)).2
  free := fun x hx => (h.give hx).2

/-- Sizes that fit make a sound cache. -/
theorem sound_of_fits (hk : k < 32) (ha : align.toNat = 2 ^ k) (hf : Fits size.toNat (2 ^ k))
    (h : Reached size align c t objs) : Sound t size align c objs := by
  obtain ⟨maxPfn, usable, s, live, others, s₀, hr, hs, hrun⟩ := h
  obtain ⟨G, hst⟩ := hrun.stocked (created hr hs) hk ha hf
  exact hst.sound hk ha hf

end Alix.Slab
