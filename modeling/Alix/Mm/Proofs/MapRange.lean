/-
`paging_map_range` against `paging_map_page`.

# What could go wrong

The range call walks the tables once for up to 512 pages and stores into
consecutive slots; the page call walks for each page, and may find tables
that the stores before it have changed. The index is taken anew at each table
boundary, addresses wrap at `2^64`, and a failure leaves what was mapped
before it.

# What holds

Tables have heights, so a store into a last-level table changes no walk, and
a walk to a table that is there takes no frame. So both do the same stores in
the same order, and stop at the same page (`pagingMapRange_eq`). The argument
asks no more of the tables than that lookups and leaf stores keep an
invariant (`mapRounds_eq`).
-/
import Alix.Mm.Proofs.Graded
import Alix.Mm.Proofs.PagingRun

namespace Alix.Paging

open Radix

variable {σ : Type} {alloc : σ → Option (σ × Nat)} {s s' : Machine σ} {k pt virt phys : Nat}
  {flags : Word}

-- ==== the statement

/-- `paging_map_page` for one page after the other, up to the first
failure. -/
def mapPages (alloc : σ → Option (σ × Nat)) (pml4 : Option Nat) (flags : Word) :
    Nat → Machine σ → Nat → Nat → Machine σ × Int
  | 0, s, _, _ => (s, 0)
  | n + 1, s, virt, phys =>
      match pagingMapPage alloc s pml4 virt phys flags with
      | (s, rc) =>
          if rc ≠ 0 then (s, rc)
          else mapPages alloc pml4 flags n s ((virt + PAGE_SIZE) % 2 ^ 64)
            ((phys + PAGE_SIZE) % 2 ^ 64)

/-- The root of an address space: its tables have heights, and are frames
in use. -/
def Rooted (A : FrameAlloc σ) (s : Machine σ) (k : Nat) : Prop :=
  ∃ level T, Graded A.Held s level T ∧ level k = 4

-- ==== one table

/-- `paging_map_page` where the table is found. -/
theorem pagingMapPage_found (halign : virt % PAGE_SIZE = 0 ∧ phys % PAGE_SIZE = 0)
    (h : lookupPt alloc s k virt true flags = (s', some pt)) :
    pagingMapPage alloc s (some k) virt phys flags
      = (s'.store pt (ptIndex virt) (pte phys flags), 0) := by
  unfold pagingMapPage
  simp only
  rw [if_neg (by omega)]
  unfold lookupLeaf
  rw [h]
  rfl

/-- And where it is not. -/
theorem pagingMapPage_failed (halign : virt % PAGE_SIZE = 0 ∧ phys % PAGE_SIZE = 0)
    (h : lookupPt alloc s k virt true flags = (s', none)) :
    pagingMapPage alloc s (some k) virt phys flags = (s', -1) := by
  unfold pagingMapPage
  simp only
  rw [if_neg (by omega)]
  unfold lookupLeaf
  rw [h]

theorem mapPages_succ (pml4 : Option Nat) (n : Nat) (s : Machine σ) (virt phys : Nat) :
    mapPages alloc pml4 flags (n + 1) s virt phys
      = if (pagingMapPage alloc s pml4 virt phys flags).2 ≠ 0 then
          pagingMapPage alloc s pml4 virt phys flags
        else mapPages alloc pml4 flags n (pagingMapPage alloc s pml4 virt phys flags).1
          ((virt + PAGE_SIZE) % 2 ^ 64) ((phys + PAGE_SIZE) % 2 ^ 64) := rfl

/-- One page more. -/
theorem mapPages_found {n : Nat} (halign : virt % PAGE_SIZE = 0 ∧ phys % PAGE_SIZE = 0)
    (h : lookupPt alloc s k virt true flags = (s', some pt)) :
    mapPages alloc (some k) flags (n + 1) s virt phys
      = mapPages alloc (some k) flags n (s'.store pt (ptIndex virt) (pte phys flags))
        ((virt + PAGE_SIZE) % 2 ^ 64) ((phys + PAGE_SIZE) % 2 ^ 64) := by
  rw [mapPages_succ, pagingMapPage_found halign h, if_neg (fun hne => hne rfl)]

theorem mapPages_failed {n : Nat} (halign : virt % PAGE_SIZE = 0 ∧ phys % PAGE_SIZE = 0)
    (h : lookupPt alloc s k virt true flags = (s', none)) :
    mapPages alloc (some k) flags (n + 1) s virt phys = (s', -1) := by
  rw [mapPages_succ, pagingMapPage_failed halign h, if_pos (show (-1 : Int) ≠ 0 by decide)]

/-- The next page of a table has the next slot of the same table. -/
theorem next_slot (halign : virt % PAGE_SIZE = 0) (hv : virt < 2 ^ 64)
    (hidx : ptIndex virt + 1 < 512) :
    (virt + PAGE_SIZE) % 2 ^ 64 = virt + PAGE_SIZE
      ∧ tablePath (virt + PAGE_SIZE) = tablePath virt
      ∧ ptIndex (virt + PAGE_SIZE) = ptIndex virt + 1 := by
  have hs : PAGE_SIZE = 4096 := rfl
  unfold ptIndex at hidx ⊢
  unfold tablePath pml4Index pdptIndex pdIndex
  rw [hs] at halign ⊢
  refine ⟨by omega, ?_, by omega⟩
  have h4 : (virt + 4096) / 2 ^ 39 = virt / 2 ^ 39 := by omega
  have h3 : (virt + 4096) / 2 ^ 30 = virt / 2 ^ 30 := by omega
  have h2 : (virt + 4096) / 2 ^ 21 = virt / 2 ^ 21 := by omega
  rw [h4, h3, h2]

theorem next_aligned {x : Nat} (h : x % PAGE_SIZE = 0) (n : Nat) :
    (x + n * PAGE_SIZE) % 2 ^ 64 % PAGE_SIZE = 0 := by
  have hs : PAGE_SIZE = 4096 := rfl
  rw [hs] at h ⊢
  omega

-- ==== the rounds

section rounds

/- Lookups at the addresses `V` keep `G` and find what they return, and so
do stores into the table they return. -/
variable {G : Machine σ → Prop} {V : Nat → Prop}
  (hlook : ∀ s virt s' o, G s → V virt → lookupPt alloc s k virt true flags = (s', o) →
    G s' ∧ ∀ pt, o = some pt → walk (child s'.mem) k (tablePath virt) = some pt)
  (hstore : ∀ s virt pt w, G s → V virt → walk (child s.mem) k (tablePath virt) = some pt →
    G (s.store pt (ptIndex virt) w)
      ∧ walk (child (s.store pt (ptIndex virt) w).mem) k (tablePath virt) = some pt)

variable (alloc flags)

include hstore in
/-- One round: the stores into one table are the page calls for its
pages. -/
theorem mapRun_eq (rest : Nat) : ∀ (run : Nat) {s : Machine σ} {virt phys : Nat}, G s →
    (∀ i, i < run → V (virt + i * PAGE_SIZE)) →
    (0 < run → walk (child s.mem) k (tablePath virt) = some pt) →
    virt % PAGE_SIZE = 0 ∧ phys % PAGE_SIZE = 0 → virt < 2 ^ 64 → phys < 2 ^ 64 →
    ptIndex virt + run ≤ 512 →
    G (mapRun pt (flagsToPte flags) run s (ptIndex virt) phys)
      ∧ mapPages alloc (some k) flags (run + rest) s virt phys
        = mapPages alloc (some k) flags rest
          (mapRun pt (flagsToPte flags) run s (ptIndex virt) phys)
          ((virt + run * PAGE_SIZE) % 2 ^ 64) ((phys + run * PAGE_SIZE) % 2 ^ 64) := by
  have hs : PAGE_SIZE = 4096 := rfl
  intro run
  induction run with
  | zero =>
      intro s virt phys hG _ _ _ hv hp _
      refine ⟨hG, ?_⟩
      rw [Nat.zero_mul, Nat.add_zero, Nat.add_zero, Nat.zero_add, Nat.mod_eq_of_lt hv,
        Nat.mod_eq_of_lt hp]
      rfl
  | succ run ih =>
      intro s virt phys hG hV hw halign hv hp hidx
      have hwalk := hw (Nat.succ_pos run)
      have hV0 : V virt := by
        have := hV 0 (Nat.succ_pos run)
        rw [Nat.zero_mul, Nat.add_zero] at this
        exact this
      obtain ⟨hG', hwalk'⟩ := hstore s virt pt (pte phys flags) hG hV0 hwalk
      have hphys : (phys + PAGE_SIZE) % 2 ^ 64 % PAGE_SIZE = 0 := by
        have := next_aligned halign.2 1
        rwa [Nat.one_mul] at this
      have hp' : ((phys + PAGE_SIZE) % 2 ^ 64 + run * PAGE_SIZE) % 2 ^ 64
          = (phys + (run + 1) * PAGE_SIZE) % 2 ^ 64 := by
        rw [hs]
        omega
      rw [Nat.succ_add, mapPages_found halign (lookupPt_present hwalk)]
      by_cases hzero : run = 0
      · -- the last slot of the round
        subst hzero
        refine ⟨hG', ?_⟩
        rw [Nat.zero_add, Nat.one_mul, Nat.zero_add]
        rfl
      · obtain ⟨hv', htable, hslot⟩ := next_slot halign.1 hv (by omega)
        have hstep := @ih _ (virt + PAGE_SIZE) ((phys + PAGE_SIZE) % 2 ^ 64) hG'
          (fun i hi => ?_) (fun _ => ?_) ⟨?_, hphys⟩ ?_ (Nat.mod_lt _ (by decide)) ?_
        · rw [hslot] at hstep
          refine ⟨hstep.1, ?_⟩
          rw [hv', hstep.2, hp']
          have hadd : virt + PAGE_SIZE + run * PAGE_SIZE = virt + (run + 1) * PAGE_SIZE := by
            rw [hs]
            omega
          rw [hadd]
          rfl
        · have := hV (i + 1) (by omega)
          rw [hs] at this ⊢
          rw [show virt + 4096 + i * 4096 = virt + (i + 1) * 4096 by omega]
          exact this
        · rw [htable]
          exact hwalk'
        · have := halign.1
          rw [hs] at this ⊢
          omega
        · omega
        · omega

include hlook hstore in
/-- The rounds are the page calls. -/
theorem mapRounds_eq : ∀ (n : Nat) {s : Machine σ} {virt phys pages : Nat}, pages ≤ n → G s →
    (∀ i, i < pages → V ((virt + i * PAGE_SIZE) % 2 ^ 64)) →
    virt % PAGE_SIZE = 0 ∧ phys % PAGE_SIZE = 0 → virt < 2 ^ 64 → phys < 2 ^ 64 →
    mapRounds alloc k flags n s virt phys pages
        = mapPages alloc (some k) flags pages s virt phys
      ∧ G (mapRounds alloc k flags n s virt phys pages).1 := by
  have hs : PAGE_SIZE = 4096 := rfl
  intro n
  induction n with
  | zero =>
      intro s virt phys pages hle hG _ _ _ _
      rw [Nat.le_zero.mp hle]
      exact ⟨rfl, hG⟩
  | succ n ih =>
      intro s virt phys pages hle hG hV halign hv hp
      by_cases hzero : pages = 0
      · rw [hzero]
        exact ⟨rfl, hG⟩
      unfold mapRounds
      rw [if_neg hzero]
      have hV0 : V virt := by
        have := hV 0 (by omega)
        rw [Nat.zero_mul, Nat.add_zero, Nat.mod_eq_of_lt hv] at this
        exact this
      cases hl : lookupPt alloc s k virt true flags with
      | mk s1 o =>
      obtain ⟨hG1, hfound⟩ := hlook s virt s1 o hG hV0 hl
      cases o with
      | none =>
          simp only
          obtain ⟨m, rfl⟩ := Nat.exists_eq_succ_of_ne_zero hzero
          rw [mapPages_failed halign hl]
          exact ⟨rfl, hG1⟩
      | some pt =>
          simp only
          have hwalk := hfound pt rfl
          have hidx : ptIndex virt < 512 := Nat.mod_lt _ (by decide)
          generalize hrun : (if 512 - ptIndex virt > pages then pages
            else 512 - ptIndex virt) = run
          have hbound : 0 < run ∧ run ≤ pages ∧ ptIndex virt + run ≤ 512 := by
            split at hrun <;> omega
          obtain ⟨rest, rfl⟩ := Nat.exists_eq_add_of_le hbound.2.1
          -- the lookup took the frames already, so the page calls start after it
          have hstart : mapPages alloc (some k) flags (run + rest) s virt phys
              = mapPages alloc (some k) flags (run + rest) s1 virt phys := by
            obtain ⟨m, hm⟩ := Nat.exists_eq_succ_of_ne_zero hzero
            rw [hm, mapPages_found halign hl, mapPages_found halign (lookupPt_present hwalk)]
          have hslot : ∀ i, i < run → virt + i * PAGE_SIZE < 2 ^ 64 := by
            intro i hi
            have h1 := halign.1
            have h2 := hbound.2.2
            unfold ptIndex at h2
            rw [hs] at h1 ⊢
            omega
          obtain ⟨hG2, hmap⟩ := mapRun_eq alloc flags hstore rest run hG1
            (fun i hi => by
              have := hV i (by omega)
              rwa [Nat.mod_eq_of_lt (hslot i hi)] at this)
            (fun _ => hwalk) halign hv hp hbound.2.2
          rw [hstart, hmap, Nat.add_sub_cancel_left]
          refine ih (by omega) hG2 (fun i hi => ?_)
            ⟨next_aligned halign.1 run, next_aligned halign.2 run⟩
            (Nat.mod_lt _ (by decide)) (Nat.mod_lt _ (by decide))
          have := hV (run + i) (by omega)
          rw [hs] at this ⊢
          rw [show ((virt + run * 4096) % 2 ^ 64 + i * 4096) % 2 ^ 64
            = (virt + (run + i) * 4096) % 2 ^ 64 by omega]
          exact this

end rounds

/-- Whatever is mapped, and however far it gets: tables are added, and the
frames that are not tables keep their words. -/
theorem Graded.pagingMapRange {P : σ → (Nat → Prop) → Prop} {level : Nat → Nat}
    {T : Nat → Prop} {size : Nat} (h : Graded P s level T) (hS : Supplies alloc P)
    (hk : level k = 4) (hv : virt < 2 ^ 64) (hp : phys < 2 ^ 64) :
    ∃ level' T', Graded P (Paging.pagingMapRange alloc s (some k) virt phys size flags).1 level' T'
      ∧ Raises level level' T T'
      ∧ ∀ f, ¬ T' f →
        (Paging.pagingMapRange alloc s (some k) virt phys size flags).1.mem f = s.mem f := by
  have hstay : ∃ level' T', Graded P s level' T' ∧ Raises level level' T T'
      ∧ ∀ f, ¬ T' f → s.mem f = s.mem f :=
    ⟨level, T, h, Raises.refl _ _, fun _ _ => rfl⟩
  unfold Paging.pagingMapRange
  simp only
  split
  · exact hstay
  split
  · exact hstay
  rename_i halign
  refine (mapRounds_eq alloc flags (G := fun t => ∃ level' T', Graded P t level' T'
    ∧ Raises level level' T T' ∧ ∀ f, ¬ T' f → t.mem f = s.mem f) (V := fun _ => True)
    ?_ ?_ _ (Nat.le_refl _) hstay (fun _ _ => trivial) (by omega) hv hp).2
  · intro t v t' o hG _ hl
    obtain ⟨l₁, T₁, hG, hraises, hmem⟩ := hG
    have hroot : l₁ k = 4 := by rw [hraises.level k (by omega), hk]
    obtain ⟨l₂, T₂, hG', hraises', hfound, -, hkeep⟩ := hG.lookupPt hS hroot hl
    exact ⟨⟨l₂, T₂, hG', hraises.trans hraises',
      fun f hf => (hkeep f hf).trans (hmem f fun ht => hf (hraises'.held f ht))⟩,
      fun pt hpt => (hfound pt hpt).2⟩
  · intro t v pt w hG _ hw
    obtain ⟨l₁, T₁, hG, hraises, hmem⟩ := hG
    have hroot : l₁ k = 4 := by rw [hraises.level k (by omega), hk]
    obtain ⟨-, -, -, -, -, -, -, hpt⟩ := hG.path hroot hw
    refine ⟨⟨l₁, T₁, hG.store hpt, hraises, fun f hf => ?_⟩, hG.walk_store hroot hw⟩
    have hne : f ≠ pt := fun e => hf (by rw [e]; exact hG.held pt (by omega))
    funext j
    rw [Machine.store_mem, if_neg fun e => hne e.1, hmem f hf]

-- ==== the result

/-- `paging_map_range` does what `paging_map_page` does for one page after
the other up to the first failure, with the same return value, wherever the
allocator fails. -/
theorem pagingMapRange_eq (A : FrameAlloc σ) (s : Machine σ) (pml4 : Option Nat)
    (virt phys size : Nat) (flags : Word) (hroot : ∀ k, pml4 = some k → Rooted A s k)
    (halign : virt % PAGE_SIZE = 0 ∧ phys % PAGE_SIZE = 0) (hv : virt < 2 ^ 64)
    (hp : phys < 2 ^ 64) (hsize : 0 < size ∧ size ≤ 2 ^ 64 - PAGE_SIZE) :
    pagingMapRange A.alloc s pml4 virt phys size flags
      = mapPages A.alloc pml4 flags ((size + PAGE_SIZE - 1) / PAGE_SIZE) s virt phys := by
  have hs : PAGE_SIZE = 4096 := rfl
  have hpages : pageAlignUp size / PAGE_SIZE = (size + PAGE_SIZE - 1) / PAGE_SIZE := by
    unfold pageAlignUp pageAlignDown
    rw [hs] at hsize ⊢
    omega
  unfold pagingMapRange
  simp only
  rw [hpages, if_neg (by omega)]
  cases pml4 with
  | none =>
      have hpos : (size + PAGE_SIZE - 1) / PAGE_SIZE ≠ 0 := by
        rw [hs]
        omega
      obtain ⟨n, hn⟩ := Nat.exists_eq_succ_of_ne_zero hpos
      rw [hn, mapPages_succ]
      exact (if_pos (show (-1 : Int) ≠ 0 by decide)).symm
  | some k =>
      simp only
      rw [if_neg (by omega)]
      refine (mapRounds_eq A.alloc flags (G := fun t => Rooted A t k) (V := fun _ => True) ?_ ?_ _
        (Nat.le_refl _) (hroot k rfl) (fun _ _ => trivial) halign hv hp).1
      · intro t virt t' o hG _ hl
        obtain ⟨level, T, hG, hk⟩ := hG
        obtain ⟨level', T', hG', hraises, hfound, -⟩ := hG.lookupPt A.supplies hk hl
        exact ⟨⟨level', T', hG', by rw [hraises.level k (by omega), hk]⟩,
          fun pt hpt => (hfound pt hpt).2⟩
      · intro t virt pt w hG _ hw
        obtain ⟨level, T, hG, hk⟩ := hG
        obtain ⟨-, -, -, -, -, -, -, hpt⟩ := hG.path hk hw
        exact ⟨⟨level, T, hG.store hpt, hk⟩, hG.walk_store hk hw⟩

/-- The last page of one table and the first of the next, on a small
machine with a root in frame 1. -/
theorem pagingMapRange_eq_boundary :
    let A := pmmFrames 8 (fun q => 2 ≤ q) (by decide)
    pagingMapRange A.alloc smallMachine (some 1) 0x1ff000 0 0x1001 0
      = mapPages A.alloc (some 1) 0 2 smallMachine 0x1ff000 0 := by
  intro A
  refine pagingMapRange_eq A smallMachine (some 1) 0x1ff000 0 0x1001 0 (fun k hk => ?_)
    (by decide) (by decide) (by decide) (by decide)
  cases hk
  -- frame 1 is not the allocator's, and nothing is mapped
  refine ⟨fun f => if f = 1 then 4 else 0, fun f => f = 1, ⟨?_, ?_, ?_, ?_⟩, rfl⟩
  · intro f hf
    rw [hf]
    exact Or.inl fun hu => absurd hu.2 (by decide)
  · intro f hf
    by_contra hne
    exact hf (if_neg hne)
  · intro f
    show (if f = 1 then 4 else 0) ≤ 4
    split <;> omega
  · intro f j g _ hc
    have hnone : child smallMachine.mem f j = none := child_zero rfl
    rw [hnone] at hc
    cases hc

end Alix.Paging
