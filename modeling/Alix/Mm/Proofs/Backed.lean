/-
The frames behind the address spaces.

# The accounts

Of the blocks that are out, some are the heap's and some are outside the
accounts: the kernel's root and tables, and whatever else was taken
before the first space. Nobody here writes to those (`Outside`). All others
(`Books.own`) are single frames, and each is either a table of the lower
half of some root or holds data. A table has
one reference. A frame with data has one for every leaf entry that maps
it, and one for every call that holds it in between (`Books.extra`):
after `pmm_alloc_page` and before the map, or after `page_ref_inc`.

# The rules

`Backed` says that the books are right, and each rule below does one
thing to the machine and the same thing to the books. A call is a
sequence of these. Mapping moves a reference from `extra` to an entry and
unmapping moves it back, so neither changes how often a frame is used;
the allocator's calls do.

Frames are below `2^40`, since physical addresses have 52 bits, and the
boot loader never offers frame 0, whose address reads as "not mapped".
-/
import Alix.Lib.RefCount
import Alix.Mm.Vmm
import Alix.Mm.Proofs.Ledger
import Alix.Mm.Proofs.PagingRun

namespace Alix

open Paging
open Radix
open Pointers
open Dyadic (Block)
open Pmm (Ledger)

-- ==== the books

/-- A page of a space: the root and the page number. -/
abbrev Spot : Type := Nat × Nat

/-- Where the lower halves map: a frame, and the flags it was mapped
with. -/
abbrev View : Type := Spot → Option (Nat × Word)

/-- The frames of a view. -/
def View.frames (M : View) (x : Spot) : Option Nat := (M x).map Prod.fst

theorem View.frames_some {M : View} {x : Spot} {e : Nat × Word} (hx : M x = some e) :
    M.frames x = some e.1 := by
  unfold View.frames
  rw [hx]
  rfl

theorem View.frames_none {M : View} {x : Spot} (hx : M x = none) : M.frames x = none := by
  unfold View.frames
  rw [hx]
  rfl

/-- The leaf word of a page. -/
def leafWord : Option (Nat × Word) → Word
  | none => 0
  | some (f, flags) => pte (pfnPhys f) flags

/-- The blocks nobody here touches, their words and descriptors, and the
upper half that every root has. -/
structure Outside where
  blocks : List Block
  mem : Nat → Nat → Word
  pages : Nat → Page
  upper : Nat → Word

/-- A frame of such a block. -/
def Outside.Has (fx : Outside) (q : Nat) : Prop := ∃ b ∈ fx.blocks, q ∈ b

/-- The blocks that are neither the heap's nor outside, the references of
all blocks, the leaf entries, and the references that calls hold. -/
structure Books where
  own : List Block
  ref : Nat → Nat
  view : View
  extra : Nat → Nat

/-- The references to a frame of data. -/
noncomputable def Books.uses (k : Books) (f : Nat) : Nat :=
  refs k.view.frames f + k.extra f

/-- A table of the lower half. -/
def Table (m : Mach) (R : Nat → Prop) (f : Nat) : Prop :=
  Tables (child m.mem) R Lower f

/-- The tables of the lower halves stay where they are. -/
def SameTables (R : Nat → Prop) (m m' : Mach) : Prop :=
  ∀ t q, R t → Lower q → walk (child m'.mem) t q = walk (child m.mem) t q

theorem SameTables.refl (R : Nat → Prop) (m : Mach) : SameTables R m m := fun _ _ _ _ => rfl

theorem SameTables.trans {R : Nat → Prop} {m m' m'' : Mach} (h : SameTables R m m')
    (h' : SameTables R m' m'') : SameTables R m m'' :=
  fun t q ht hq => (h' t q ht hq).trans (h t q ht hq)

/-- So the same frames are tables. -/
theorem SameTables.table {R : Nat → Prop} {m m' : Mach} (h : SameTables R m m') (f : Nat) :
    Table m' R f ↔ Table m R f := by
  constructor
  · rintro ⟨t, q, ht, hq, hw⟩
    exact ⟨t, q, ht, hq, by rw [← h t q ht hq]; exact hw⟩
  · rintro ⟨t, q, ht, hq, hw⟩
    exact ⟨t, q, ht, hq, by rw [h t q ht hq]; exact hw⟩

/-- The books agree with the machine. -/
structure Backed (maxPfn : Nat) (usable : Nat → Bool) (heap : List Block)
    (fx : Outside) (R : Nat → Prop) (k : Books) (m : Mach) : Prop where
  ledger : Ledger maxPfn usable m.pmm (heap ++ (fx.blocks ++ k.own)) k.ref
  single : ∀ b ∈ heap, k.ref b.base = 1
  forest : Forest (child m.mem) R Lower
  wide : ∀ f, Table m R f → ∀ j, 512 ≤ j → m.mem f j = 0
  leaf : ∀ r v, R r → v < 2 ^ 47 →
    leaf m.mem r v = leafWord (k.view (r, v / PAGE_SIZE))
  dom : ∀ x, k.view x ≠ none → R x.1 ∧ x.2 < 2 ^ 35
  sparse : Sparse k.view.frames
  own : ∀ b, b ∈ k.own ↔ b.order = 0 ∧ (Table m R b.base ∨ 0 < k.uses b.base)
  apart : ∀ f, Table m R f → k.uses f = 0
  table : ∀ f, Table m R f → k.ref f = 1
  data : ∀ f, 0 < k.uses f → k.ref f = k.uses f
  words : ∀ q, fx.Has q → m.mem q = fx.mem q
  pages : ∀ q, fx.Has q → (m.pmm.pages q).data = (fx.pages q).data
  upper : ∀ r, R r → ∀ i, 256 ≤ i → i < 512 → m.mem r i = fx.upper i

namespace Books

variable {k : Books} {p f g : Nat} {x : Spot} {flags : Word}

/-- `pmm_alloc_page`. -/
def take (k : Books) (p : Nat) : Books :=
  { k with
    own := ⟨p, 0⟩ :: k.own
    ref := Function.update k.ref p 1
    extra := Function.update k.extra p 1 }

/-- `pmm_free`. -/
def drop (k : Books) (p : Nat) : Books :=
  { k with
    own := if k.ref p = 1 then k.own.erase ⟨p, 0⟩ else k.own
    ref := Function.update k.ref p (k.ref p - 1)
    extra := Function.update k.extra p (k.extra p - 1) }

/-- `page_ref_inc`. -/
def hold (k : Books) (p : Nat) : Books :=
  { k with
    ref := Function.update k.ref p (k.ref p + 1)
    extra := Function.update k.extra p (k.extra p + 1) }

/-- A frame that is held is mapped. -/
def map (k : Books) (x : Spot) (f : Nat) (flags : Word) : Books :=
  { k with
    view := Function.update k.view x (some (f, flags))
    extra := Function.update k.extra f (k.extra f - 1) }

/-- The frame of an entry is held instead. -/
def unmap (k : Books) (x : Spot) : Books :=
  { k with
    view := Function.update k.view x none
    extra := match k.view x with
      | none => k.extra
      | some (f, _) => Function.update k.extra f (k.extra f + 1) }

/-- A frame becomes a table. -/
def link (k : Books) (g : Nat) : Books :=
  { k with own := ⟨g, 0⟩ :: k.own, ref := Function.update k.ref g 1 }

theorem frames_update (M : View) (x : Spot) (o : Option (Nat × Word)) :
    View.frames (Function.update M x o)
      = Function.update M.frames x (o.map Prod.fst) := by
  funext y
  unfold View.frames
  by_cases hy : y = x
  · rw [hy, Function.update_self, Function.update_self]
  · rw [Function.update_of_ne hy, Function.update_of_ne hy]

theorem uses_extra (k : Books) (p n f : Nat) :
    { k with extra := Function.update k.extra p n }.uses f
      = if f = p then refs k.view.frames p + n else k.uses f := by
  unfold uses
  simp only
  by_cases hf : f = p
  · rw [if_pos hf, hf, Function.update_self]
  · rw [if_neg hf, Function.update_of_ne hf]

/-- Where no call holds a frame, its uses are its entries. -/
theorem uses_eq (hf : k.extra f = 0) : k.uses f = refs k.view.frames f := by
  unfold uses
  rw [hf, Nat.add_zero]

/-- A frame that is not used has no entry. -/
theorem refs_of_unused (hf : k.uses f = 0) : refs k.view.frames f = 0 := by
  unfold uses at hf
  omega

/-- Where no call held a frame, one holds the new one. -/
theorem take_extra (hk : ∀ g, k.extra g = 0) (p : Nat) :
    (k.take p).extra = Function.update (fun _ => 0) p 1 := by
  show Function.update k.extra p 1 = _
  rw [funext hk]

theorem unmap_extra (hx : k.view x = some (f, flags)) :
    (k.unmap x).extra = Function.update k.extra f (k.extra f + 1) := by
  unfold unmap
  rw [hx]

/-- After an unmap the frame of the entry is held. -/
theorem unmap_held (hx : k.view x = some (f, flags)) : 0 < (k.unmap x).extra f := by
  rw [unmap_extra hx, Function.update_self]
  exact Nat.succ_pos _

theorem uses_take (hp : k.uses p = 0) (f : Nat) :
    (k.take p).uses f = if f = p then 1 else k.uses f := by
  have hsum : refs k.view.frames p + k.extra p = 0 := hp
  refine (uses_extra k p 1 f).trans ?_
  rw [show refs k.view.frames p = 0 by omega]

theorem uses_drop (hp : 0 < k.extra p) (f : Nat) :
    (k.drop p).uses f = if f = p then k.uses p - 1 else k.uses f := by
  refine (uses_extra k p (k.extra p - 1) f).trans ?_
  have hsum : k.uses p = refs k.view.frames p + k.extra p := rfl
  rw [hsum, Nat.add_sub_assoc (by omega)]

theorem uses_hold (p f : Nat) :
    (k.hold p).uses f = if f = p then k.uses p + 1 else k.uses f :=
  uses_extra k p (k.extra p + 1) f

/-- Mapping moves a reference. -/
theorem uses_map (hs : Sparse k.view.frames) (hx : k.view x = none)
    (hf : 0 < k.extra f) (g : Nat) : (k.map x f flags).uses g = k.uses g := by
  have hset := refs_set hs (View.frames_none hx) f g
  unfold uses map
  simp only
  rw [frames_update, Option.map_some, hset]
  by_cases hg : g = f
  · rw [if_pos hg, hg, Function.update_self]
    omega
  · rw [if_neg hg, Function.update_of_ne hg]
    omega

/-- Unmapping moves it back. -/
theorem uses_unmap (hs : Sparse k.view.frames) (x : Spot) (g : Nat) :
    (k.unmap x).uses g = k.uses g := by
  unfold uses unmap
  simp only
  rw [frames_update, Option.map_none]
  cases hx : k.view x with
  | none =>
      rw [← View.frames_none hx, Function.update_eq_self]
  | some e =>
      obtain ⟨f, flags⟩ := e
      have hdrop := refs_drop hs (View.frames_some hx) g
      simp only
      by_cases hg : g = f
      · rw [if_pos hg] at hdrop
        rw [hg, Function.update_self]
        rw [hg] at hdrop
        omega
      · rw [if_neg hg] at hdrop
        rw [Function.update_of_ne hg]
        omega

end Books

-- ==== the rules

namespace Backed

variable {maxPfn : Nat} {usable : Nat → Bool} {heap : List Block}
  {fx : Outside} {R : Nat → Prop} {k k' : Books} {m m' : Mach} {p f r va : Nat} {flags : Word}

/-- A frame of ours is one the allocator manages. -/
theorem mem_usable (h : Backed maxPfn usable heap fx R k m)
    (hp : ⟨p, 0⟩ ∈ k.own) : p < maxPfn + 1 ∧ usable p = true :=
  h.ledger.mem_usable (List.mem_append_right _ (List.mem_append_right _ hp))
    (Block.base_mem ⟨p, 0⟩)

theorem used_own (h : Backed maxPfn usable heap fx R k m) (hp : 0 < k.uses p) :
    ⟨p, 0⟩ ∈ k.own :=
  (h.own ⟨p, 0⟩).mpr ⟨rfl, Or.inr hp⟩

theorem table_own (h : Backed maxPfn usable heap fx R k m) (hp : Table m R p) :
    ⟨p, 0⟩ ∈ k.own :=
  (h.own ⟨p, 0⟩).mpr ⟨rfl, Or.inl hp⟩

theorem entry_used (h : Backed maxPfn usable heap fx R k m) {x : Spot}
    (hx : k.view x = some (f, flags)) : 0 < k.uses f := by
  have hpos : 0 < refs k.view.frames f := (refs_pos h.sparse).mpr ⟨x, View.frames_some hx⟩
  unfold Books.uses
  omega

/-- The parts that speak of the memory are the forest's. -/
theorem inv (h : Backed maxPfn usable heap fx R k m) :
    Inv (fun _ _ => True) m R (Table m R) :=
  ⟨h.forest, fun _ hf => hf, trivial⟩

/-- A step of the allocator that leaves the accounts of our frames. -/
theorem pmm (h : Backed maxPfn usable heap fx R k m) {pmm : Pmm}
    (hl : Ledger maxPfn usable pmm (heap ++ (fx.blocks ++ k.own)) k.ref)
    (hpages : ∀ q, fx.Has q → (pmm.pages q).data = (m.pmm.pages q).data) :
    Backed maxPfn usable heap fx R k { m with pmm } :=
  { h with
    ledger := hl
    pages := fun q hq => (hpages q hq).trans (h.pages q hq) }

/-- A block of ours is neither the heap's nor outside. -/
theorem own_apart (h : Backed maxPfn usable heap fx R k m) {b : Block}
    (hb : b ∈ k.own) : b ∉ heap ∧ b ∉ fx.blocks := by
  have hnd := List.nodup_append.mp h.ledger.nodup
  have hnd' := List.nodup_append.mp hnd.2.1
  exact ⟨fun hc => hnd.2.2 b hc b (List.mem_append_right _ hb) rfl,
    fun hc => hnd'.2.2 b hc b hb rfl⟩

/-- A frame of ours is in no other block. -/
theorem own_alone (h : Backed maxPfn usable heap fx R k m) (hp : ⟨p, 0⟩ ∈ k.own)
    {b : Block} (hb : b ∈ heap ∨ b ∈ fx.blocks) : p ∉ b := by
  intro hpb
  have hin : b ∈ heap ++ (fx.blocks ++ k.own) := by
    rcases hb with hb | hb
    · exact List.mem_append_left _ hb
    · exact List.mem_append_right _ (List.mem_append_left _ hb)
  have hne : b ≠ ⟨p, 0⟩ := by
    rintro rfl
    obtain ⟨h1, h2⟩ := h.own_apart hp
    exact hb.elim h1 h2
  exact h.ledger.apart hin (List.mem_append_right _ (List.mem_append_right _ hp)) hne hpb
    (Block.base_mem ⟨p, 0⟩)

theorem own_outside (h : Backed maxPfn usable heap fx R k m) (hp : ⟨p, 0⟩ ∈ k.own) :
    ¬ fx.Has p := by
  intro hc
  obtain ⟨b, hb, hpb⟩ := hc
  exact h.own_alone hp (Or.inr hb) hpb

/-- A write to a frame that is no table. -/
theorem off (h : Backed maxPfn usable heap fx R k m) (hpmm : m'.pmm = m.pmm)
    (hmem : ∀ x, Table m R x → m'.mem x = m.mem x)
    (hwords : ∀ q, fx.Has q → m'.mem q = m.mem q) :
    Backed maxPfn usable heap fx R k m'
      ∧ ∀ x, Table m' R x ↔ Table m R x := by
  obtain ⟨hforest, htab, hgrow⟩ := h.inv.off hmem
  have hiff : ∀ x, Table m' R x ↔ Table m R x := by
    intro x
    refine ⟨htab x, fun hx => ?_⟩
    obtain ⟨r, q, hr, hq, hw⟩ := hx
    exact ⟨r, q, hr, hq, by rw [h.inv.walk_off hmem hr hq]; exact hw⟩
  refine ⟨{
    ledger := by rw [hpmm]; exact h.ledger
    single := h.single
    forest := hforest
    wide := fun x hx j hj => by
      rw [hmem x (htab x hx)]
      exact h.wide x (htab x hx) j hj
    leaf := fun r v hr hv => by
      rw [hgrow.leaf r v hr hv]
      exact h.leaf r v hr hv
    dom := h.dom
    sparse := h.sparse
    own := fun b => by
      rw [hiff]
      exact h.own b
    apart := fun x hx => h.apart x (htab x hx)
    table := fun x hx => h.table x (htab x hx)
    data := h.data
    words := fun q hq => (hwords q hq).trans (h.words q hq)
    pages := fun q hq => by
      rw [hpmm]
      exact h.pages q hq
    upper := fun r hr i h1 h2 => by
      rw [hmem r ⟨r, [], hr, lower_owned.nil, rfl⟩]
      exact h.upper r hr i h1 h2 }, hiff⟩

/-- `pmm_alloc_page` hands out a frame that nobody knows. -/
theorem take (h : Backed maxPfn usable heap fx R k m) {pmm : Pmm}
    (ha : m.pmm.pmmAllocPage = some (pmm, p)) :
    Backed maxPfn usable heap fx R (k.take p) { m with pmm }
      ∧ k.uses p = 0 ∧ ¬ Table m R p
      ∧ ∀ b ∈ heap ++ (fx.blocks ++ k.own), p ∉ b := by
  obtain ⟨hl, hnew, hdata⟩ := h.ledger.alloc ha
  have hfresh : ∀ b ∈ heap ++ (fx.blocks ++ k.own), p ∉ b := fun b hb =>
    hnew p (Block.base_mem ⟨p, 0⟩) b hb
  have hown : ⟨p, 0⟩ ∉ k.own := fun hp =>
    hfresh _ (List.mem_append_right _ (List.mem_append_right _ hp)) (Block.base_mem ⟨p, 0⟩)
  have hzero : k.uses p = 0 := by
    by_contra hne
    exact hown (h.used_own (by omega))
  have htab : ¬ Table m R p := fun ht => hown (h.table_own ht)
  have huses := Books.uses_take hzero
  have hperm : (⟨p, 0⟩ :: (heap ++ (fx.blocks ++ k.own))).Perm
      (heap ++ (fx.blocks ++ ⟨p, 0⟩ :: k.own)) := by
    rw [← List.append_assoc, ← List.append_assoc]
    exact List.perm_middle.symm
  refine ⟨{
    ledger := hl.perm hperm
    single := fun b hb => ?_
    forest := h.forest
    wide := h.wide
    leaf := h.leaf
    dom := h.dom
    sparse := h.sparse
    own := fun b => ?_
    apart := fun x hx => ?_
    table := fun x hx => ?_
    data := fun x hx => ?_
    words := h.words
    pages := fun q hq => ?_
    upper := h.upper }, hzero, htab, hfresh⟩
  · have hbp : b.base ≠ p := fun e =>
      hfresh b (List.mem_append_left _ hb) (by rw [← e]; exact Block.base_mem b)
    show Function.update k.ref p 1 b.base = 1
    rw [Function.update_of_ne hbp]
    exact h.single b hb
  · show b ∈ ⟨p, 0⟩ :: k.own ↔ _
    rw [List.mem_cons, h.own, huses]
    by_cases hb : b.base = p
    · rw [if_pos hb, hb]
      constructor
      · intro hc
        rcases hc with rfl | hc
        · exact ⟨rfl, Or.inr Nat.one_pos⟩
        · exact ⟨hc.1, Or.inr Nat.one_pos⟩
      · intro hc
        left
        cases b
        cases hb
        cases hc.1
        rfl
    · rw [if_neg hb]
      constructor
      · intro hc
        rcases hc with rfl | hc
        · exact (hb rfl).elim
        · exact hc
      · exact Or.inr
  · have hxp : x ≠ p := by
      rintro rfl
      exact htab hx
    rw [huses, if_neg hxp]
    exact h.apart x hx
  · have hxp : x ≠ p := by
      rintro rfl
      exact htab hx
    show Function.update k.ref p 1 x = 1
    rw [Function.update_of_ne hxp]
    exact h.table x hx
  · rw [huses] at hx ⊢
    show Function.update k.ref p 1 x = _
    by_cases hxp : x = p
    · rw [if_pos hxp, hxp, Function.update_self]
    · rw [if_neg hxp] at hx ⊢
      rw [Function.update_of_ne hxp]
      exact h.data x hx
  · obtain ⟨b, hb, hqb⟩ := hq
    refine Eq.trans (hdata b (List.mem_append_right _ (List.mem_append_left _ hb)) q hqb) ?_
    exact h.pages q ⟨b, hb, hqb⟩

theorem own_nodup (h : Backed maxPfn usable heap fx R k m) : k.own.Nodup :=
  (List.nodup_append.mp (List.nodup_append.mp h.ledger.nodup).2.1).2.1

theorem heap_base (h : Backed maxPfn usable heap fx R k m) {b : Block}
    (hp : ⟨p, 0⟩ ∈ k.own) (hb : b ∈ heap) : b.base ≠ p := by
  intro e
  refine h.own_alone hp (Or.inl hb) ?_
  rw [← e]
  exact Block.base_mem b

/-- `pmm_free` of a frame that is held never panics. -/
theorem drop (h : Backed maxPfn usable heap fx R k m) (hp : 0 < k.extra p) :
    ∃ pmm, m.free p = .ok { m with pmm }
      ∧ Backed maxPfn usable heap fx R (k.drop p) { m with pmm } := by
  have hused : 0 < k.uses p := by
    unfold Books.uses
    omega
  have hown := h.used_own hused
  have hout : ⟨p, 0⟩ ∈ heap ++ (fx.blocks ++ k.own) :=
    List.mem_append_right _ (List.mem_append_right _ hown)
  have hdata := h.data p hused
  have huses := Books.uses_drop hp
  have htab : ∀ x, Table m R x → x ≠ p := by
    rintro x hx rfl
    rw [h.apart x hx] at hused
    omega
  obtain ⟨pmm, hok, hl, hframe⟩ := h.ledger.drop hout
  have hlist : (if k.ref p = 1 then (heap ++ (fx.blocks ++ k.own)).erase ⟨p, 0⟩
      else heap ++ (fx.blocks ++ k.own)) = heap ++ (fx.blocks ++ (k.drop p).own) := by
    show _ = heap ++ (fx.blocks ++ (if k.ref p = 1 then k.own.erase ⟨p, 0⟩ else k.own))
    split
    · rw [List.erase_append_right _ (h.own_apart hown).1,
        List.erase_append_right _ (h.own_apart hown).2]
    · rfl
  rw [hlist] at hl
  refine ⟨pmm, by unfold Machine.free; rw [hok], {
    ledger := hl
    single := fun b hb => ?_
    forest := h.forest
    wide := h.wide
    leaf := h.leaf
    dom := h.dom
    sparse := h.sparse
    own := fun b => ?_
    apart := fun x hx => ?_
    table := fun x hx => ?_
    data := fun x hx => ?_
    words := h.words
    pages := fun q hq => ?_
    upper := h.upper }⟩
  · show Function.update k.ref p _ b.base = 1
    rw [Function.update_of_ne (h.heap_base hown hb)]
    exact h.single b hb
  · show b ∈ (if k.ref p = 1 then k.own.erase ⟨p, 0⟩ else k.own) ↔ _
    rw [huses]
    by_cases hone : k.ref p = 1
    · rw [if_pos hone, h.own_nodup.mem_erase_iff, h.own]
      by_cases hb : b.base = p
      · -- the last reference is gone, and the frame was no table
        rw [if_pos hb]
        constructor
        · intro hc
          obtain ⟨base, order⟩ := b
          cases hb
          cases hc.2.1
          exact (hc.1 rfl).elim
        · intro hc
          rcases hc.2 with ht | hu
          · exact (htab _ ht hb).elim
          · omega
      · rw [if_neg hb]
        constructor
        · exact And.right
        · intro hc
          refine ⟨?_, hc⟩
          rintro rfl
          exact hb rfl
    · rw [if_neg hone, h.own]
      by_cases hb : b.base = p
      · have hmore : 0 < k.uses p - 1 := by omega
        rw [if_pos hb, hb]
        exact ⟨fun hc => ⟨hc.1, Or.inr hmore⟩, fun hc => ⟨hc.1, Or.inr hused⟩⟩
      · rw [if_neg hb]
        exact Iff.rfl
  · rw [huses, if_neg (htab x hx)]
    exact h.apart x hx
  · show Function.update k.ref p _ x = 1
    rw [Function.update_of_ne (htab x hx)]
    exact h.table x hx
  · rw [huses] at hx ⊢
    show Function.update k.ref p _ x = _
    by_cases hxp : x = p
    · rw [if_pos hxp, hxp, Function.update_self, hdata]
    · rw [if_neg hxp] at hx ⊢
      rw [Function.update_of_ne hxp]
      exact h.data x hx
  · obtain ⟨b, hb, hqb⟩ := hq
    have hne : b ≠ ⟨p, 0⟩ := by
      rintro rfl
      exact (h.own_apart hown).2 hb
    refine Eq.trans (hframe b (List.mem_append_right _ (List.mem_append_left _ hb)) hne
      q hqb) ?_
    exact h.pages q ⟨b, hb, hqb⟩

/-- A descriptor of ours is written. -/
theorem modPage_outside (h : Backed maxPfn usable heap fx R k m) (hp : 0 < k.uses p)
    (w : Page → Page) {q : Nat} (hq : fx.Has q) :
    ((m.pmm.modPage p w).pages q).data = (m.pmm.pages q).data := by
  have hqp : q ≠ p := by
    rintro rfl
    exact h.own_outside (h.used_own hp) hq
  rw [Pmm.modPage_pages_of_ne _ hqp]

/-- `page_ref_inc` of a frame with data. -/
theorem hold (h : Backed maxPfn usable heap fx R k m) (hp : 0 < k.uses p) :
    Backed maxPfn usable heap fx R (k.hold p)
      { m with pmm := m.pmm.pageRefInc p } := by
  have hown := h.used_own hp
  have huses := Books.uses_hold (k := k) p
  have htab : ∀ x, Table m R x → x ≠ p := by
    rintro x hx rfl
    rw [h.apart x hx] at hp
    omega
  exact {
    ledger := h.ledger.refInc (List.mem_append_right _ (List.mem_append_right _ hown))
    single := fun b hb => by
      show Function.update k.ref p _ b.base = 1
      rw [Function.update_of_ne (h.heap_base hown hb)]
      exact h.single b hb
    forest := h.forest
    wide := h.wide
    leaf := h.leaf
    dom := h.dom
    sparse := h.sparse
    own := fun b => by
      rw [huses]
      by_cases hb : b.base = p
      · rw [if_pos hb]
        refine (h.own b).trans ?_
        rw [hb]
        exact ⟨fun hc => ⟨hc.1, Or.inr (Nat.succ_pos _)⟩, fun hc => ⟨hc.1, Or.inr hp⟩⟩
      · rw [if_neg hb]
        exact h.own b
    apart := fun x hx => by
      rw [huses, if_neg (htab x hx)]
      exact h.apart x hx
    table := fun x hx => by
      show Function.update k.ref p _ x = 1
      rw [Function.update_of_ne (htab x hx)]
      exact h.table x hx
    data := fun x hx => by
      rw [huses] at hx ⊢
      show Function.update k.ref p _ x = _
      by_cases hxp : x = p
      · rw [if_pos hxp, hxp, Function.update_self, h.data p hp]
      · rw [if_neg hxp] at hx ⊢
        rw [Function.update_of_ne hxp]
        exact h.data x hx
    words := h.words
    pages := fun q hq => by
      have hsame := h.modPage_outside hp (fun p => { p with refcount := p.refcount + 1 }) hq
      exact hsame.trans (h.pages q hq)
    upper := h.upper }

/-- A page flag that says nothing to the allocator. -/
theorem setFlag (h : Backed maxPfn usable heap fx R k m) (hp : 0 < k.uses p)
    {n : Nat} (hn : n ≠ 0 ∧ n ≠ 2 ∧ n ≠ 5) :
    Backed maxPfn usable heap fx R k (m.modPage p (Page.setFlag (pageBit n))) :=
  h.pmm (h.ledger.setFlag
    (List.mem_append_right _ (List.mem_append_right _ (h.used_own hp))) hn)
    fun _ => h.modPage_outside hp _

theorem clearFlag (h : Backed maxPfn usable heap fx R k m) (hp : 0 < k.uses p)
    (w : BitVec 64) :
    Backed maxPfn usable heap fx R k (m.modPage p (Page.clearFlag w)) :=
  h.pmm (h.ledger.clearFlag
    (List.mem_append_right _ (List.mem_append_right _ (h.used_own hp))) w)
    fun _ => h.modPage_outside hp _

-- ---- leaf entries

/-- A store into a leaf slot, by books that say the same. -/
theorem store (h : Backed maxPfn usable heap fx R k m) (hr : R r)
    (hv : va < 2 ^ 47) {pt : Nat}
    (hw : walk (child m.mem) r (tablePath va) = some pt)
    {o : Option (Nat × Word)}
    (hview : k'.view = Function.update k.view (r, va / PAGE_SIZE) o)
    (hown : k'.own = k.own) (href : k'.ref = k.ref)
    (huses : ∀ f, k'.uses f = k.uses f) :
    Backed maxPfn usable heap fx R k' (m.store pt (ptIndex va) (leafWord o)) := by
  have hwalk := fun {t q} => h.inv.walk_store_leaf (leafWord o) hr hv hw (t := t) (p := q)
  obtain ⟨hinv, -, hleaf⟩ := h.inv.store_leaf (leafWord o) hr hv hw rfl
  have hiff : ∀ x, Table (m.store pt (ptIndex va) (leafWord o)) R x ↔ Table m R x :=
    SameTables.table fun t q ht hq => hwalk ht hq
  exact {
    ledger := by rw [hown, href]; exact h.ledger
    single := by rw [href]; exact h.single
    forest := hinv.forest
    wide := fun x hx j hj => by
      have hi : ptIndex va < 512 := Nat.mod_lt _ (by decide)
      rw [Machine.store_mem, if_neg (by omega)]
      exact h.wide x ((hiff x).mp hx) j hj
    leaf := fun t v ht hv' => by
      rw [hleaf t v ht hv', hview]
      by_cases hx : t = r ∧ v / PAGE_SIZE = va / PAGE_SIZE
      · rw [if_pos hx, hx.1, hx.2, Function.update_self]
      · have hne : (t, v / PAGE_SIZE) ≠ (r, va / PAGE_SIZE) := fun e =>
          hx ⟨(Prod.mk.inj e).1, (Prod.mk.inj e).2⟩
        rw [if_neg hx, Function.update_of_ne hne]
        exact h.leaf t v ht hv'
    dom := fun x hx => by
      rw [hview] at hx
      by_cases hxr : x = (r, va / PAGE_SIZE)
      · rw [hxr]
        exact ⟨hr, page_lower hv⟩
      · rw [Function.update_of_ne hxr] at hx
        exact h.dom x hx
    sparse := by
      rw [hview, Books.frames_update]
      exact h.sparse.update _ _
    own := fun b => by
      rw [hown, hiff, huses]
      exact h.own b
    apart := fun x hx => by
      rw [huses]
      exact h.apart x ((hiff x).mp hx)
    table := fun x hx => by
      rw [href]
      exact h.table x ((hiff x).mp hx)
    data := fun x hx => by
      rw [huses] at hx ⊢
      rw [href]
      exact h.data x hx
    words := fun q hq => by
      have hqp : q ≠ pt := by
        rintro rfl
        exact h.own_outside (h.table_own ⟨r, _, hr, lower_tablePath hv, hw⟩) hq
      funext j
      rw [Machine.store_mem, if_neg fun e => hqp e.1]
      exact congrFun (h.words q hq) j
    pages := h.pages
    upper := fun t ht i h1 h2 => by
      -- a last-level table is no root
      have htp : t ≠ pt := by
        rintro rfl
        obtain ⟨-, hnil⟩ := h.forest.sep ht hr lower_owned.nil (lower_tablePath hv) rfl hw
        cases hnil
      rw [Machine.store_mem, if_neg fun e => htp e.1]
      exact h.upper t ht i h1 h2 }

theorem leafWord_some (e : Nat × Word) : leafWord (some e) ≠ 0 := by
  intro h0
  have hp := pte_present (pfnPhys e.1) e.2
  rw [show pte (pfnPhys e.1) e.2 = 0 from h0] at hp
  cases hp

/-- A page with an entry has a last-level table. -/
theorem walk_of_entry (h : Backed maxPfn usable heap fx R k m) (hr : R r)
    (hv : va < 2 ^ 47) (hx : k.view (r, va / PAGE_SIZE) ≠ none) :
    ∃ pt, walk (child m.mem) r (tablePath va) = some pt := by
  obtain ⟨e, he⟩ := Option.ne_none_iff_exists'.mp hx
  have hleaf := h.leaf r va hr hv
  rw [he] at hleaf
  cases hw : walk (child m.mem) r (tablePath va) with
  | some pt => exact ⟨pt, rfl⟩
  | none =>
      unfold Paging.leaf at hleaf
      rw [hw] at hleaf
      exact (leafWord_some e hleaf.symm).elim

/-- `paging_unmap_page`. -/
theorem unmap (h : Backed maxPfn usable heap fx R k m) (hr : R r)
    (hv : va < 2 ^ 47) (ha : va % PAGE_SIZE = 0) :
    Backed maxPfn usable heap fx R (k.unmap (r, va / PAGE_SIZE))
        (pagingUnmapPage Pmm.pmmAllocPage m (some r) va)
      ∧ SameTables R m (pagingUnmapPage Pmm.pmmAllocPage m (some r) va)
      ∧ (pagingUnmapPage Pmm.pmmAllocPage m (some r) va).pmm = m.pmm := by
  unfold pagingUnmapPage
  simp only [ha, ne_eq, not_true_eq_false, if_false, lookupLeaf_false]
  cases hw : walk (child m.mem) r (tablePath va) with
  | none =>
      have hnone : k.view (r, va / PAGE_SIZE) = none := by
        by_contra hne
        obtain ⟨pt, hpt⟩ := h.walk_of_entry hr hv hne
        rw [hw] at hpt
        cases hpt
      have hsame : k.unmap (r, va / PAGE_SIZE) = k := by
        have hview := Function.update_eq_self (r, va / PAGE_SIZE) k.view
        rw [hnone] at hview
        unfold Books.unmap
        rw [hnone, hview]
      rw [hsame]
      exact ⟨h, SameTables.refl R m, rfl⟩
  | some pt =>
      refine ⟨h.store hr hv hw (o := none) rfl rfl rfl
        (Books.uses_unmap h.sparse _), fun t q ht hq => ?_, rfl⟩
      exact h.inv.walk_store_leaf 0 hr hv hw ht hq

-- ---- new tables

/-- The accounts when a frame that nobody knew is the one new table. -/
theorem link_books (h : Backed maxPfn usable heap fx R k m) {g : Nat} {R' : Nat → Prop}
    (hzero : k.uses g = 0) (htab : ¬ Table m R g)
    (hiff : ∀ x, Table m' R' x ↔ x = g ∨ Table m R x) :
    (∀ b, b ∈ (k.link g).own
        ↔ b.order = 0 ∧ (Table m' R' b.base ∨ 0 < (k.link g).uses b.base))
      ∧ (∀ x, Table m' R' x → (k.link g).uses x = 0)
      ∧ (∀ x, Table m' R' x → (k.link g).ref x = 1)
      ∧ ∀ x, 0 < (k.link g).uses x → (k.link g).ref x = (k.link g).uses x := by
  refine ⟨fun b => ?_, fun x hx => ?_, fun x hx => ?_, fun x hx => ?_⟩
  · show b ∈ ⟨g, 0⟩ :: k.own ↔ b.order = 0 ∧ (_ ∨ 0 < k.uses b.base)
    rw [List.mem_cons, h.own, hiff]
    constructor
    · intro hb
      rcases hb with rfl | ⟨h0, hb⟩
      · exact ⟨rfl, Or.inl (Or.inl rfl)⟩
      · exact ⟨h0, hb.imp_left Or.inr⟩
    · intro hb
      obtain ⟨h0, (hb | hb) | hb⟩ := hb
      · left
        cases b
        cases hb
        cases h0
        rfl
      · exact Or.inr ⟨h0, Or.inl hb⟩
      · exact Or.inr ⟨h0, Or.inr hb⟩
  · show k.uses x = 0
    rcases (hiff x).mp hx with rfl | hx
    · exact hzero
    · exact h.apart x hx
  · show Function.update k.ref g 1 x = 1
    rcases (hiff x).mp hx with rfl | hx
    · exact Function.update_self _ _ _
    · have hxg : x ≠ g := by
        rintro rfl
        exact htab hx
      rw [Function.update_of_ne hxg]
      exact h.table x hx
  · show Function.update k.ref g 1 x = k.uses x
    have hx' : 0 < k.uses x := hx
    have hxg : x ≠ g := by
      rintro rfl
      omega
    rw [Function.update_of_ne hxg]
    exact h.data x hx'

/-- A fresh frame becomes a table below an empty slot. -/
theorem link (h : Backed maxPfn usable heap fx R k m) (hmax : maxPfn < 2 ^ 40)
    {pmm : Pmm} {g i : Nat} {q : List Nat} (ha : m.pmm.pmmAllocPage = some (pmm, g))
    (hr : R r) (hi : i < 512) (hq : Lower (q ++ [i]))
    (hw : walk (child m.mem) r q = some f) (hempty : child m.mem f i = none)
    (hm : m' = ({ m with pmm }.clear g).store f i (tableEntry (pfnPhys g) flags)) :
    Backed maxPfn usable heap fx R (k.link g) m'
      ∧ walk (child m'.mem) r (q ++ [i]) = some g := by
  obtain ⟨htake, hzero, htab, -⟩ := h.take ha
  have hown : ⟨g, 0⟩ ∈ (k.take g).own := List.mem_cons_self
  have hlt : g < 2 ^ 40 := by
    have := (htake.mem_usable hown).1
    omega
  have hfg : f ≠ g := by
    rintro rfl
    exact htab ⟨r, q, hr, lower_owned.init q i hq, hw⟩
  obtain ⟨hmem, hnew, hclear⟩ :=
    link_mem hfg (tableEntry_present _ flags) (tableVirt_tableEntry hlt flags) hm
  obtain ⟨hinv, hgrow, hpath⟩ := h.inv.link hr hq hw hempty htab
    (tableEntry_present _ flags) (tableVirt_tableEntry hlt flags) (m := pmm) trivial hm
  have hwalk := fun {t p} => h.forest.walk_link lower_owned hr hq hw hempty htab hnew
    (fun j => child_zero (hclear j)) (fun x j hx hxj => child_congr (hmem x j hx hxj)) (t := t) (p := p)
  have hiff : ∀ x, Table m' R x ↔ x = g ∨ Table m R x := by
    intro x
    refine ⟨hinv.held x, fun hx => ?_⟩
    rcases hx with rfl | hx
    · exact ⟨r, q ++ [i], hr, hq, hpath⟩
    · obtain ⟨t, p, ht, hp, hwp⟩ := hx
      refine ⟨t, p, ht, hp, ?_⟩
      rw [hwalk ht hp, if_neg]
      · exact hwp
      · intro e
        rw [e.1, e.2, walk_snoc_of hw, hempty] at hwp
        cases hwp
  have hold : ∀ x, Table m R x → x ≠ g := by
    rintro x hx rfl
    exact htab hx
  obtain ⟨hbooks, hapart, htable, hdata⟩ := h.link_books hzero htab hiff
  refine ⟨{
    ledger := by rw [hm]; exact htake.ledger
    single := htake.single
    forest := hinv.forest
    wide := fun x hx j hj => ?_
    leaf := fun t v ht hv => by
      rw [hgrow.leaf t v ht hv]
      exact h.leaf t v ht hv
    dom := h.dom
    sparse := h.sparse
    own := hbooks
    apart := hapart
    table := htable
    data := hdata
    words := fun x hx => ?_
    pages := fun x hx => ?_
    upper := fun t ht j h1 h2 => ?_ }, hpath⟩
  · rcases (hiff x).mp hx with rfl | hx
    · exact hclear j
    · rw [hmem x j (hold x hx) (by omega)]
      exact h.wide x hx j hj
  · have hxg : x ≠ g := by
      rintro rfl
      exact htake.own_outside hown hx
    have hxf : x ≠ f := by
      rintro rfl
      exact h.own_outside (h.table_own ⟨r, q, hr, lower_owned.init q i hq, hw⟩) hx
    funext j
    rw [hmem x j hxg fun e => hxf e.1]
    exact congrFun (h.words x hx) j
  · rw [hm]
    exact htake.pages x hx
  · have hroot : Table m R t := ⟨t, [], ht, lower_owned.nil, rfl⟩
    rw [hmem t j (hold t hroot)]
    · exact h.upper t ht j h1 h2
    · -- the root itself gets a table only in its lower half
      rintro ⟨rfl, rfl⟩
      obtain ⟨-, rfl⟩ :=
        h.forest.sep ht hr lower_owned.nil (lower_owned.init q j hq) rfl hw
      have := hq.2 j (by simp)
      omega

/-- What growing the tables leaves of the books. -/
structure SameData (k k' : Books) : Prop where
  view : k'.view = k.view
  extra : k'.extra = k.extra

theorem SameData.refl (k : Books) : SameData k k := ⟨rfl, rfl⟩

theorem SameData.trans {k'' : Books} (h : SameData k k') (h' : SameData k' k'') :
    SameData k k'' :=
  ⟨h'.view.trans h.view, h'.extra.trans h.extra⟩

section grow

variable (hmax : maxPfn < 2 ^ 40) (hzero : usable 0 = false)

include hmax hzero

/-- `next_table` with `create`: either the table is there and nothing
happens, or there may be a new one. -/
theorem nextTable (h : Backed maxPfn usable heap fx R k m) {i : Nat} {q : List Nat}
    {o : Option Nat} (hr : R r) (hi : i < 512) (hq : Lower (q ++ [i]))
    (hw : walk (child m.mem) r q = some f)
    (hn : Paging.nextTable Pmm.pmmAllocPage m f i flags true = (m', o)) :
    ∃ k', SameData k k' ∧ Backed maxPfn usable heap fx R k' m'
      ∧ (∀ g, o = some g → walk (child m'.mem) r (q ++ [i]) = some g)
      ∧ (walk (child m.mem) r (q ++ [i]) ≠ none → m' = m ∧ o ≠ none) := by
  have hstep : walk (child m.mem) r (q ++ [i]) = child m.mem f i := walk_snoc_of hw i
  obtain ⟨ho, hne, rfl⟩ | ⟨hempty, rfl, rfl, -⟩ | ⟨pmm, ha, -, rfl, rfl⟩ |
    ⟨pmm, g, ha, hempty, rfl, hm⟩ := nextTable_cases hn
  · refine ⟨k, SameData.refl k, h, fun g hg => ?_, fun _ => ⟨rfl, hne⟩⟩
    rw [hstep, ← ho, hg]
  · refine ⟨k, SameData.refl k, h, fun g hg => (by cases hg), fun hc => ?_⟩
    rw [hstep, hempty] at hc
    exact (hc rfl).elim
  · -- frame 0 is never handed out
    have htake := (h.take ha).1
    have := (htake.mem_usable List.mem_cons_self).2
    rw [hzero] at this
    cases this
  · have hlt : g < 2 ^ 40 := by
      have := ((h.take ha).1.mem_usable List.mem_cons_self).1
      omega
    obtain ⟨hlink, hpath⟩ := h.link hmax ha hr hi hq hw hempty hm
    refine ⟨k.link g, ⟨rfl, rfl⟩, hlink, fun x hx => ?_, fun hc => ?_⟩
    · rw [tableVirt_ofNat hlt] at hx
      cases hx
      exact hpath
    · rw [hstep, hempty] at hc
      exact (hc rfl).elim

/-- `lookup_pt` with `create`. -/
theorem lookupPt (h : Backed maxPfn usable heap fx R k m) {o : Option Nat}
    (hr : R r) (hv : va < 2 ^ 47)
    (hl : Paging.lookupPt Pmm.pmmAllocPage m r va true flags = (m', o)) :
    ∃ k', SameData k k' ∧ Backed maxPfn usable heap fx R k' m'
      ∧ (∀ pt, o = some pt → walk (child m'.mem) r (tablePath va) = some pt)
      ∧ (walk (child m.mem) r (tablePath va) ≠ none → m' = m ∧ o ≠ none) := by
  have hlt : ∀ n : Nat, n % 512 < 512 := fun n => Nat.mod_lt _ (by decide)
  have hp3 : Lower ([pml4Index va, pdptIndex va] ++ [pdIndex va]) := lower_tablePath hv
  have hp2 : Lower ([pml4Index va] ++ [pdptIndex va]) := lower_owned.init _ _ hp3
  have hp1 : Lower ([] ++ [pml4Index va]) := lower_owned.init _ _ hp2
  -- a walk that gets somewhere gets somewhere at every step
  have hback : ∀ {c : Nat → Nat → Option Nat} {q : List Nat} {i : Nat},
      walk c r (q ++ [i]) ≠ none → walk c r q ≠ none := by
    intro c q i hne e
    rw [walk_snoc, e] at hne
    exact hne rfl
  unfold Paging.lookupPt at hl
  cases h1 : Paging.nextTable Pmm.pmmAllocPage m r (pml4Index va) flags true with
  | mk m1 o1 =>
  obtain ⟨k1, same1, b1, walk1, keep1⟩ :=
    h.nextTable hmax hzero hr (hlt _) hp1 rfl h1
  cases o1 with
  | none =>
      simp only [h1] at hl
      obtain ⟨rfl, rfl⟩ := Prod.mk.inj hl
      refine ⟨k1, same1, b1, fun pt hpt => (by cases hpt), fun hc => ?_⟩
      exact ((keep1 (hback (hback hc))).2 rfl).elim
  | some pdpt =>
  simp only [h1] at hl
  cases h2 : Paging.nextTable Pmm.pmmAllocPage m1 pdpt (pdptIndex va) flags true with
  | mk m2 o2 =>
  obtain ⟨k2, same2, b2, walk2, keep2⟩ :=
    b1.nextTable hmax hzero hr (hlt _) hp2 (walk1 pdpt rfl) h2
  cases o2 with
  | none =>
      simp only [h2] at hl
      obtain ⟨rfl, rfl⟩ := Prod.mk.inj hl
      refine ⟨k2, same1.trans same2, b2, fun pt hpt => (by cases hpt), fun hc => ?_⟩
      obtain ⟨rfl, -⟩ := keep1 (hback (hback hc))
      exact ((keep2 (hback hc)).2 rfl).elim
  | some pd =>
  simp only [h2] at hl
  obtain ⟨k3, same3, b3, walk3, keep3⟩ :=
    b2.nextTable hmax hzero hr (hlt _) hp3 (walk2 pd rfl) hl
  refine ⟨k3, (same1.trans same2).trans same3, b3, walk3, fun hc => ?_⟩
  obtain ⟨rfl, -⟩ := keep1 (hback (hback hc))
  obtain ⟨rfl, -⟩ := keep2 (hback hc)
  exact keep3 hc

/-- `paging_map_page` of a frame that is held, where nothing is mapped. It
fails only for want of a table. -/
theorem mapPage (h : Backed maxPfn usable heap fx R k m) (hr : R r)
    (hv : va < 2 ^ 47) (ha : va % PAGE_SIZE = 0)
    (hx : k.view (r, va / PAGE_SIZE) = none) (hf : 0 < k.extra f) {rc : Int}
    (hm : pagingMapPage Pmm.pmmAllocPage m (some r) va (pfnPhys f) flags = (m', rc)) :
    ∃ k', SameData k k'
      ∧ ((rc = 0 ∧ Backed maxPfn usable heap fx R
            (k'.map (r, va / PAGE_SIZE) f flags) m')
        ∨ (rc = -1 ∧ Backed maxPfn usable heap fx R k' m'
            ∧ walk (child m.mem) r (tablePath va) = none)) := by
  have hphys : pfnPhys f % PAGE_SIZE = 0 := Nat.mul_mod_left _ _
  unfold pagingMapPage lookupLeaf at hm
  simp only [ha, hphys, ne_eq, not_true_eq_false, or_self, if_false] at hm
  cases hl : Paging.lookupPt Pmm.pmmAllocPage m r va true flags with
  | mk m1 o =>
  obtain ⟨k', same, hb, hwalk, hkeep⟩ := h.lookupPt hmax hzero hr hv hl
  cases o with
  | none =>
      simp only [hl] at hm
      obtain ⟨rfl, rfl⟩ := Prod.mk.inj hm
      refine ⟨k', same, Or.inr ⟨rfl, hb, ?_⟩⟩
      by_contra hne
      exact (hkeep hne).2 rfl
  | some pt =>
      simp only [hl] at hm
      obtain ⟨rfl, rfl⟩ := Prod.mk.inj hm
      refine ⟨k', same, Or.inl ⟨rfl, ?_⟩⟩
      have hx' : k'.view (r, va / PAGE_SIZE) = none := by rw [same.view, hx]
      have hf' : 0 < k'.extra f := by rw [same.extra]; exact hf
      exact hb.store hr hv (hwalk pt rfl) (o := some (f, flags)) rfl rfl rfl
        (Books.uses_map hb.sparse hx' hf')

end grow

end Backed

end Alix
