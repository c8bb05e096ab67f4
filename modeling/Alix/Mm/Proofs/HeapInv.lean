/-
What the heap keeps, and what a change of one page asks for.

Every page of the heap has a role: it is a slab with its free slots, or it
starts a large allocation. `Inv` says that the roles are what the page
descriptors and the memory say (`RoleAt`), that the blocks of these pages
are the heap's own in the page allocator's books, that a slab is on the
list its free slots put it on, and that each live allocation is a slot
nobody has, or the room of a large one (`Backs`).

An operation changes one page. `Inv.update` is the one theorem about
that: it asks for the new role of the page, for the lists and for the live
allocations, and takes care of all other pages, provided that the bytes
their roles rest on (`Meta`) are as they were. Writing to what one has
been given is the case of no change at all (`Inv.write`).
-/
import Alix.Mm.Proofs.Slabs
import Alix.Mm.Proofs.Ledger

namespace Alix.Kheap

open Bytes (Memory load)
open Dyadic (Block)
open Pmm (Ledger Usable)

-- ==== roles

/-- What a page of the heap is. -/
inductive Role where
  /-- A slab of cache `c` with these free slots. -/
  | slab (c : Nat) (free : List Nat)
  /-- The first page of a large allocation of so many bytes. -/
  | large (order size : Nat)

/-- The order of the block behind a role. -/
def Role.order : Role → Nat
  | .slab _ _ => 0
  | .large order _ => order

/-- The list a slab is on. -/
def listOf (free : List Nat) : SlabList := if free = [] then .full else .partials

/-- A slab whose slots are all free is on the partial list. -/
theorem Shape.listOf_slots (S : Shape) (hhdm q : Nat) : listOf (S.slots hhdm q) = .partials := by
  refine if_neg fun he => ?_
  have hlen := congrArg List.length he
  unfold Shape.slots at hlen
  rw [List.length_map, List.length_range] at hlen
  exact absurd S.pos (by rw [hlen]; exact Nat.lt_irrefl 0)

/-- The pages of the heap, its lists and its blocks. -/
structure Ghost where
  role : Nat → Option Role
  lists : Nat → SlabList → List Nat
  blocks : List Block

/-- The pages that are slabs. -/
def Ghost.IsSlab (G : Ghost) (q : Nat) : Prop := ∃ c free, G.role q = some (.slab c free)

/-- The page is what its role says. -/
def RoleAt (s : Kheap) (q : Nat) : Role → Prop
  | .slab c free => c < NUM_SIZE_CLASSES ∧ hasFlag (s.pmm.pages q).flags PAGE_SLAB = true
      ∧ (s.pmm.pages q).priv = cachePtr c ∧ SlabAt s.hhdm s.mem c q free
  | .large order size => (s.pmm.pages q).priv = (LARGE_PAGE_TAG ||| BitVec.ofNat 64 order).toNat
      ∧ LargeAt s.hhdm s.mem q order size

/-- The bytes a role rests on: headers and free slots. -/
def Meta (hhdm q : Nat) : Role → Nat → Prop
  | .slab c free, x => (pageAt hhdm q + 16 ≤ x ∧ x < pageAt hhdm q + 40)
      ∨ ∃ y ∈ free, y ≤ x ∧ x < y + objSize c
  | .large _ _, x => pageAt hhdm q ≤ x ∧ x < pageAt hhdm q + 24

/-- An allocation out of a page is a slot that is not free, or the room
behind the header of a large one. -/
def BackedBy (hhdm q x n : Nat) : Role → Prop
  | .slab c free => IsSlot hhdm c q x ∧ x ∉ free ∧ n ≤ objSize c
  | .large _ size => x = pageAt hhdm q + sizeofLargeHdr ∧ n = size

/-- A page of the heap backs the allocation. -/
def Backs (hhdm : Nat) (G : Ghost) (x n : Nat) : Prop :=
  ∃ q r, G.role q = some r ∧ BackedBy hhdm q x n r

variable {maxPfn : Nat} {usable : Nat → Bool} {s s' : Kheap} {G : Ghost} {q p n x : Nat}
  {r : Role} {live live' : List (Nat × Nat)} {others : List Block} {ref ref' : Nat → Nat}

/-- A role rests on its page, a slab's not on its links. -/
theorem RoleAt.meta_inside (h : RoleAt s q r) (hx : Meta s.hhdm q r x) :
    pageAt s.hhdm q ≤ x ∧ x < pageAt s.hhdm q + 4096
      ∧ ∀ c free, r = .slab c free → pageAt s.hhdm q + 16 ≤ x := by
  cases r with
  | slab c free =>
      obtain ⟨hc, -, -, hslab⟩ := h
      cases hx with
      | inl hx => exact ⟨by omega, by omega, fun _ _ _ => hx.1⟩
      | inr hx =>
          obtain ⟨y, hy, h1, h2⟩ := hx
          have hb := (hslab.slots y hy).bounds hc
          exact ⟨by omega, by omega, fun _ _ _ => by omega⟩
  | large order size =>
      obtain ⟨h1, h2⟩ := hx
      exact ⟨h1, by omega, fun _ _ e => by cases e⟩

/-- A page keeps its role while its descriptor and the bytes are kept. -/
theorem RoleAt.frame (h : RoleAt s q r) (hhdm : s'.hhdm = s.hhdm)
    (hflags : (s'.pmm.pages q).flags = (s.pmm.pages q).flags)
    (hpriv : (s'.pmm.pages q).priv = (s.pmm.pages q).priv)
    (hm : ∀ x, Meta s.hhdm q r x → s'.mem x = s.mem x) : RoleAt s' q r := by
  cases r with
  | slab c free =>
      obtain ⟨hc, hf, hp, hslab⟩ := h
      refine ⟨hc, by rw [hflags]; exact hf, by rw [hpriv]; exact hp, ?_⟩
      rw [hhdm]
      have hsize := (class_fits hc).1
      rw [slabAt_iff hc] at hslab ⊢
      exact hslab.congr (fun a h1 h2 => hm a (Or.inl ⟨h1, by omega⟩))
        fun y hy a h1 h2 => hm a (Or.inr ⟨y, hy, h1, by omega⟩)
  | large order size =>
      obtain ⟨hp, hlarge⟩ := h
      refine ⟨by rw [hpriv]; exact hp, ?_⟩
      rw [hhdm]
      exact hlarge.congr fun a h1 h2 => hm a ⟨h1, h2⟩

-- ==== the invariant

/-- Physical memory appears at `hhdm_offset`, at the top of the address
space. -/
structure Placed (maxPfn : Nat) (s : Kheap) : Prop where
  pos : 0 < s.hhdm
  aligned : s.hhdm % 4096 = 0
  room : pageAt s.hhdm (maxPfn + 1) ≤ 2 ^ 64

/-- What the heap keeps, between its calls and the others'. -/
structure Inv (maxPfn : Nat) (usable : Nat → Bool) (s : Kheap) (G : Ghost)
    (live : List (Nat × Nat)) (others : List Block) (ref : Nat → Nat) : Prop where
  placed : Placed maxPfn s
  sizes : ∀ c, c < NUM_SIZE_CLASSES → SizesOf (s.caches c) c
  ledger : Ledger maxPfn usable s.pmm (G.blocks ++ others) ref
  block : ∀ q o, ⟨q, o⟩ ∈ G.blocks ↔ ∃ r, G.role q = some r ∧ r.order = o
  once : ∀ b ∈ G.blocks, ref b.base = 1
  role : ∀ q r, G.role q = some r → RoleAt s q r
  flag : ∀ q, hasFlag (s.pmm.pages q).flags PAGE_SLAB = true → G.IsSlab q
  listed : Listed s G.lists G.IsSlab
  onList : ∀ q c free, G.role q = some (.slab c free) → q ∈ G.lists c (listOf free)
  inList : ∀ c k q, q ∈ G.lists c k → ∃ free, G.role q = some (.slab c free) ∧ k = listOf free
  backed : ∀ x n, (x, n) ∈ live → Backs s.hhdm G x n
  alone : (live.map Prod.fst).Nodup

/-- No other allocation is where the newest is. -/
theorem Inv.newest_ne {x n y m : Nat} (h : Inv maxPfn usable s G ((x, n) :: live) others ref)
    (hy : (y, m) ∈ live) : y ≠ x := by
  intro e
  have halone := h.alone
  rw [List.map_cons, List.nodup_cons] at halone
  exact halone.1 (List.mem_map.mpr ⟨(y, m), hy, e⟩)

theorem Inv.role_block (h : Inv maxPfn usable s G live others ref) (hq : G.role q = some r) :
    ⟨q, r.order⟩ ∈ G.blocks ++ others :=
  List.mem_append_left _ ((h.block q r.order).mpr ⟨r, hq, rfl⟩)

/-- The pages of the heap are in the address space. -/
theorem Inv.low (h : Inv maxPfn usable s G live others ref) (hq : G.role q = some r)
    (hp : p ∈ Block.mk q r.order) : p ≤ maxPfn ∧ pageAt s.hhdm p + 4096 ≤ 2 ^ 64 := by
  obtain ⟨hlt, -⟩ := h.ledger.mem_usable (h.role_block hq) hp
  have hroom := h.placed.room
  unfold pageAt at hroom ⊢
  omega

/-- Blocks of two roles share no page. -/
theorem Inv.roles_apart {r' : Role} (h : Inv maxPfn usable s G live others ref)
    (hq : G.role q = some r) (hp : G.role p = some r') (hne : q ≠ p) :
    (Block.mk q r.order).Apart ⟨p, r'.order⟩ := by
  have hbne : Block.mk q r.order ≠ ⟨p, r'.order⟩ := fun e => hne (congrArg Block.base e)
  by_contra hcon
  unfold Block.Apart at hcon
  rw [not_or, Nat.not_le, Nat.not_le] at hcon
  -- the larger one of the two heads is in both
  by_cases hle : q ≤ p
  · exact h.ledger.apart (h.role_block hp) (h.role_block hq) hbne.symm
      (Block.base_mem ⟨p, r'.order⟩) ⟨hle, hcon.1⟩
  · exact h.ledger.apart (h.role_block hq) (h.role_block hp) hbne
      (Block.base_mem ⟨q, r.order⟩) ⟨Nat.le_of_not_le hle, hcon.2⟩

/-- Nor a byte. -/
theorem Inv.bytes_apart {r' : Role} (h : Inv maxPfn usable s G live others ref)
    (hq : G.role q = some r) (hp : G.role p = some r') (hne : q ≠ p) :
    pageAt s.hhdm q + 4096 * 2 ^ r.order ≤ pageAt s.hhdm p
      ∨ pageAt s.hhdm p + 4096 * 2 ^ r'.order ≤ pageAt s.hhdm q := by
  unfold pageAt
  cases h.roles_apart hq hp hne with
  | inl hle =>
      have hle' : q + 2 ^ r.order ≤ p := hle
      left
      omega
  | inr hle =>
      have hle' : p + 2 ^ r'.order ≤ q := hle
      right
      omega

/-- The first page of a block is in it. -/
theorem page_le_block (o : Nat) : 4096 ≤ 4096 * 2 ^ o :=
  Nat.le_mul_of_pos_right 4096 (Nat.two_pow_pos o)

-- ==== live allocations

/-- An allocation is in the pages that back it, behind the links. -/
theorem RoleAt.backed_inside (h : RoleAt s q r) (hb : BackedBy s.hhdm q x n r) :
    pageAt s.hhdm q + 24 ≤ x ∧ x + n ≤ pageAt s.hhdm q + 4096 * 2 ^ r.order := by
  cases r with
  | slab c free =>
      obtain ⟨hx, hfree, hn⟩ := hb
      obtain ⟨h1, h2⟩ := hx.bounds h.1
      show _ ∧ x + n ≤ pageAt s.hhdm q + 4096 * 2 ^ 0
      omega
  | large order size =>
      obtain ⟨hx, hn⟩ := hb
      have hroom : size + 24 ≤ 4096 * 2 ^ order := h.2.room
      have hx' : x = pageAt s.hhdm q + 24 := hx
      show _ ∧ x + n ≤ pageAt s.hhdm q + 4096 * 2 ^ order
      omega

/-- Nor does the role of the page rest on it. -/
theorem RoleAt.backed_clear (h : RoleAt s q r) (hb : BackedBy s.hhdm q x n r) {a : Nat}
    (h1 : x ≤ a) (h2 : a < x + n) : ¬ Meta s.hhdm q r a := by
  intro hm
  cases r with
  | slab c free =>
      obtain ⟨hx, hfree, hn⟩ := hb
      obtain ⟨hc, -, -, hslab⟩ := h
      have hbx := hx.bounds hc
      cases hm with
      | inl hm => omega
      | inr hm =>
          obtain ⟨y, hy, hy1, hy2⟩ := hm
          have hapart := hx.apart (hslab.slots y hy) fun e => hfree (by rw [e]; exact hy)
          omega
  | large order size =>
      have hx : x = pageAt s.hhdm q + 24 := hb.1
      have hlt : a < pageAt s.hhdm q + 24 := hm.2
      omega

/-- No role rests on the bytes of a live allocation, and no links are
there. -/
theorem Inv.backs_clear (h : Inv maxPfn usable s G live others ref) (hb : Backs s.hhdm G x n)
    {a : Nat} (h1 : x ≤ a) (h2 : a < x + n) (hq : G.role q = some r) :
    ¬ Meta s.hhdm q r a ∧ ¬ (pageAt s.hhdm q ≤ a ∧ a < pageAt s.hhdm q + 16) := by
  obtain ⟨q₀, r₀, hq₀, hb₀⟩ := hb
  obtain ⟨hin1, hin2⟩ := (h.role q₀ r₀ hq₀).backed_inside hb₀
  by_cases he : q = q₀
  · rw [he] at hq ⊢
    have hr : r₀ = r := Option.some.inj (hq₀.symm.trans hq)
    rw [← hr]
    exact ⟨(h.role q₀ r₀ hq₀).backed_clear hb₀ h1 h2, by omega⟩
  · have hpage := page_le_block r.order
    have hapart := h.bytes_apart hq hq₀ he
    refine ⟨fun hm => ?_, by omega⟩
    have hins := (h.role q r hq).meta_inside hm
    omega

/-- Two allocations do not overlap, wherever they come from. -/
theorem Inv.backs_apart {y m : Nat} (h : Inv maxPfn usable s G live others ref)
    (hx : Backs s.hhdm G x n) (hy : Backs s.hhdm G y m) (hne : x ≠ y) :
    x + n ≤ y ∨ y + m ≤ x := by
  obtain ⟨q, r, hq, hbx⟩ := hx
  obtain ⟨p, r', hp, hby⟩ := hy
  have hinx := (h.role q r hq).backed_inside hbx
  have hiny := (h.role p r' hp).backed_inside hby
  by_cases he : q = p
  · rw [← he] at hp hby
    have hr : r' = r := Option.some.inj (hp.symm.trans hq)
    rw [hr] at hby
    cases r with
    | slab c free =>
        have hapart := hbx.1.apart hby.1 hne
        have hn := hbx.2.2
        have hm := hby.2.2
        omega
    | large order size => exact absurd (hbx.1.trans hby.1.symm) hne
  · have hapart := h.bytes_apart hq hp he
    omega

-- ==== the changes

/-- Memory may be written where no role and no links are. -/
theorem Inv.write (h : Inv maxPfn usable s G live others ref) {m : Memory}
    (hm : ∀ a, m a ≠ s.mem a → ∀ q r, G.role q = some r →
      ¬ Meta s.hhdm q r a ∧ ¬ (pageAt s.hhdm q ≤ a ∧ a < pageAt s.hhdm q + 16)) :
    Inv maxPfn usable { s with mem := m } G live others ref := by
  refine ⟨⟨h.placed.pos, h.placed.aligned, h.placed.room⟩, h.sizes, h.ledger, h.block, h.once,
    ?_, h.flag, ?_, h.onList, h.inList, h.backed, h.alone⟩
  · intro q r hq
    refine (h.role q r hq).frame rfl rfl rfl fun a ha => ?_
    by_contra hne
    exact (hm a hne q r hq).1 ha
  · obtain ⟨⟨l, hl, hlist⟩, hhead, hmember, halone, hlow⟩ := h.listed
    refine ⟨⟨l, hl.congr fun q hq a h1 h2 => ?_, hlist⟩, hhead, hmember, halone, hlow⟩
    obtain ⟨c, free, hrole⟩ := hq
    by_contra hne
    exact (hm a hne q _ hrole).2 ⟨h1, h2⟩

/-- The owner of an allocation may write to it. -/
theorem Inv.write_live (h : Inv maxPfn usable s G live others ref) (hb : Backs s.hhdm G x n)
    {m : Memory} (hm : ∀ a, m a ≠ s.mem a → x ≤ a ∧ a < x + n) :
    Inv maxPfn usable { s with mem := m } G live others ref :=
  h.write fun a ha _ _ hq => h.backs_clear hb (hm a ha).1 (hm a ha).2 hq

/-- One page changes its role, and the rest of the heap is left alone. -/
theorem Inv.update (h : Inv maxPfn usable s G live others ref) {q₀ : Nat} {r₀ : Option Role}
    {lists' : Nat → SlabList → List Nat} {blocks' : List Block}
    {others' : List Block}
    (hhdm : s'.hhdm = s.hhdm)
    (hsizes : ∀ c, c < NUM_SIZE_CLASSES → SizesOf (s'.caches c) c)
    (hledger : Ledger maxPfn usable s'.pmm (blocks' ++ others') ref')
    (hblock : ∀ q o, ⟨q, o⟩ ∈ blocks' ↔
      ∃ r, Function.update G.role q₀ r₀ q = some r ∧ r.order = o)
    (honce : ∀ b ∈ blocks', ref' b.base = 1)
    (hrole : ∀ r, r₀ = some r → RoleAt s' q₀ r)
    (hdata : ∀ q r, q ≠ q₀ → G.role q = some r →
      (s'.pmm.pages q).flags = (s.pmm.pages q).flags
        ∧ (s'.pmm.pages q).priv = (s.pmm.pages q).priv)
    (hmem : ∀ q r a, q ≠ q₀ → G.role q = some r → Meta s.hhdm q r a → s'.mem a = s.mem a)
    (hflag : ∀ q, hasFlag (s'.pmm.pages q).flags PAGE_SLAB = true →
      (q = q₀ ∧ ∃ c free, r₀ = some (.slab c free))
        ∨ q ≠ q₀ ∧ hasFlag (s.pmm.pages q).flags PAGE_SLAB = true)
    (hlisted : Listed s' lists' (Ghost.mk (Function.update G.role q₀ r₀) lists' blocks').IsSlab)
    (hlists : ∀ c k p, p ∈ lists' c k ↔
      (p = q₀ ∧ ∃ free, r₀ = some (.slab c free) ∧ k = listOf free) ∨ (p ≠ q₀ ∧ p ∈ G.lists c k))
    (hbacked : ∀ x n, (x, n) ∈ live' →
      (∃ r, r₀ = some r ∧ BackedBy s.hhdm q₀ x n r)
        ∨ ∃ q r, q ≠ q₀ ∧ G.role q = some r ∧ BackedBy s.hhdm q x n r)
    (halone : (live'.map Prod.fst).Nodup) :
    Inv maxPfn usable s' ⟨Function.update G.role q₀ r₀, lists', blocks'⟩ live' others' ref' where
  placed := ⟨by rw [hhdm]; exact h.placed.pos, by rw [hhdm]; exact h.placed.aligned,
    by rw [hhdm]; exact h.placed.room⟩
  sizes := hsizes
  ledger := hledger
  block := hblock
  once := honce
  role := by
    intro q r hq
    by_cases he : q = q₀
    · rw [he] at hq ⊢
      exact hrole r ((Function.update_self q₀ r₀ G.role).symm.trans hq)
    · have hq' : G.role q = some r := (Function.update_of_ne he r₀ G.role).symm.trans hq
      exact (h.role q r hq').frame hhdm (hdata q r he hq').1 (hdata q r he hq').2
        fun a ha => hmem q r a he hq' ha
  flag := by
    intro q hf
    cases hflag q hf with
    | inl hf =>
        obtain ⟨he, c, free, hr⟩ := hf
        exact ⟨c, free, by rw [he]; exact (Function.update_self q₀ r₀ G.role).trans hr⟩
    | inr hf =>
        obtain ⟨c, free, hr⟩ := h.flag q hf.2
        exact ⟨c, free, (Function.update_of_ne hf.1 r₀ G.role).trans hr⟩
  listed := hlisted
  onList := by
    intro q c free hq
    rw [hlists]
    by_cases he : q = q₀
    · rw [he] at hq
      exact Or.inl ⟨he, free, (Function.update_self q₀ r₀ G.role).symm.trans hq, rfl⟩
    · exact Or.inr ⟨he, h.onList q c free ((Function.update_of_ne he r₀ G.role).symm.trans hq)⟩
  inList := by
    intro c k q hq
    cases (hlists c k q).mp hq with
    | inl hq =>
        obtain ⟨he, free, hr, hk⟩ := hq
        exact ⟨free, by rw [he]; exact (Function.update_self q₀ r₀ G.role).trans hr, hk⟩
    | inr hq =>
        obtain ⟨free, hr, hk⟩ := h.inList c k q hq.2
        exact ⟨free, (Function.update_of_ne hq.1 r₀ G.role).trans hr, hk⟩
  backed := by
    intro x n hx
    rw [hhdm]
    cases hbacked x n hx with
    | inl hb =>
        obtain ⟨r, hr, hb⟩ := hb
        exact ⟨q₀, r, (Function.update_self q₀ r₀ G.role).trans hr, hb⟩
    | inr hb =>
        obtain ⟨q, r, he, hr, hb⟩ := hb
        exact ⟨q, r, (Function.update_of_ne he r₀ G.role).trans hr, hb⟩
  alone := halone

end Alix.Kheap
