/-
The list of descriptors: sorted, page-aligned and disjoint.

Every reader of the list relies on the order. `vas_overlaps` stops at the
first descriptor behind the range and `vas_find` at the first hit;
`vas_find_free` tries the gaps in turn. `VadsOk` is what they rely on,
and what the writers keep: `vad_insert` where nothing is in the way, and
`vad_remove_range`, which rebuilds the list.

`Covers` is the set of addresses a list stands for.
-/
import Alix.Mm.Vmm

namespace Alix

open Paging

/-- Sorted, disjoint, and of whole pages. -/
structure VadsOk (l : List Vad) : Prop where
  ordered : l.Pairwise fun v w => v.stop ≤ w.start
  fits : ∀ v ∈ l, v.start < v.stop ∧ v.stop < 2 ^ 64
    ∧ v.start % PAGE_SIZE = 0 ∧ v.stop % PAGE_SIZE = 0

/-- Some descriptor contains the address. -/
def Covers (l : List Vad) (x : Nat) : Prop := ∃ v ∈ l, v.start ≤ x ∧ x < v.stop

/-- Some descriptor meets the range. -/
def Meets (l : List Vad) (start stop : Nat) : Prop :=
  ∃ v ∈ l, v.start < stop ∧ start < v.stop

variable {l : List Vad} {v w vad : Vad} {start stop : Nat}

theorem vadsOk_nil : VadsOk [] :=
  ⟨List.Pairwise.nil, fun v hv => (by cases hv)⟩

theorem VadsOk.tail (h : VadsOk (v :: l)) : VadsOk l :=
  ⟨(List.pairwise_cons.mp h.ordered).2,
    fun w hw => h.fits w (List.mem_cons_of_mem _ hw)⟩

theorem VadsOk.head_le (h : VadsOk (v :: l)) (hw : w ∈ l) : v.stop ≤ w.start :=
  (List.pairwise_cons.mp h.ordered).1 w hw

theorem VadsOk.cons (h : VadsOk l) (hle : ∀ w ∈ l, v.stop ≤ w.start)
    (hfit : v.start < v.stop ∧ v.stop < 2 ^ 64
      ∧ v.start % PAGE_SIZE = 0 ∧ v.stop % PAGE_SIZE = 0) : VadsOk (v :: l) := by
  refine ⟨List.pairwise_cons.mpr ⟨hle, h.ordered⟩, fun w hw => ?_⟩
  rcases List.mem_cons.mp hw with rfl | hw
  · exact hfit
  · exact h.fits w hw

theorem covers_cons {x : Nat} :
    Covers (v :: l) x ↔ (v.start ≤ x ∧ x < v.stop) ∨ Covers l x := by
  unfold Covers
  simp only [List.mem_cons, exists_eq_or_imp]

theorem meets_cons :
    Meets (v :: l) start stop ↔ (v.start < stop ∧ start < v.stop)
      ∨ Meets l start stop := by
  unfold Meets
  simp only [List.mem_cons, exists_eq_or_imp]

-- ==== readers

/-- `vas_overlaps` finds every overlap. -/
theorem VadsOk.overlaps (h : VadsOk l) :
    vasOverlaps l start stop = true ↔ Meets l start stop := by
  induction l with
  | nil =>
      refine ⟨fun e => (by cases e), ?_⟩
      rintro ⟨v, hv, -⟩
      cases hv
  | cons v l ih =>
      unfold vasOverlaps
      rw [meets_cons]
      split
      · -- everything from here on is behind the range
        rename_i hge
        refine ⟨fun e => (by cases e), ?_⟩
        rintro (⟨h1, -⟩ | ⟨w, hw, h1, -⟩)
        · omega
        · have := h.head_le hw
          have := (h.fits v List.mem_cons_self).1
          omega
      split
      · rename_i hlt hgt
        exact ⟨fun _ => Or.inl ⟨by omega, hgt⟩, fun _ => rfl⟩
      · rename_i hlt hgt
        rw [ih h.tail]
        exact ⟨Or.inr, fun e => e.resolve_left fun e => hgt e.2⟩

/-- What `vas_find` finds, in any list. -/
theorem vasFind_some {addr : Nat} (h : vasFind l addr = some v) :
    v ∈ l ∧ v.start ≤ addr ∧ addr < v.stop := by
  induction l with
  | nil => cases h
  | cons w l ih =>
      unfold vasFind at h
      split at h
      · rename_i hw
        cases h
        exact ⟨List.mem_cons_self, hw.1, hw.2⟩
      · exact (ih h).imp_left (List.mem_cons_of_mem _)

/-- `vas_find` finds the one descriptor that contains the address. -/
theorem VadsOk.find (h : VadsOk l) {addr : Nat} :
    vasFind l addr = some v ↔ v ∈ l ∧ v.start ≤ addr ∧ addr < v.stop := by
  refine ⟨vasFind_some, fun hv => ?_⟩
  induction l with
  | nil => cases hv.1
  | cons w l ih =>
      obtain ⟨hv, h1, h2⟩ := hv
      unfold vasFind
      rcases List.mem_cons.mp hv with rfl | hv
      · exact if_pos ⟨h1, h2⟩
      · -- the one in front ends before
        have := h.head_le hv
        rw [if_neg (by omega)]
        exact ih h.tail ⟨hv, h1, h2⟩

theorem VadsOk.find_none (h : VadsOk l) {addr : Nat} :
    vasFind l addr = none ↔ ¬ Covers l addr := by
  constructor
  · rintro hnone ⟨v, hv, hin⟩
    rw [(h.find).mpr ⟨hv, hin⟩] at hnone
    cases hnone
  · intro hnot
    cases hf : vasFind l addr with
    | none => rfl
    | some v =>
        obtain ⟨hv, hin⟩ := (h.find).mp hf
        exact (hnot ⟨v, hv, hin⟩).elim

-- ==== inserting

theorem mem_vadInsert : w ∈ vadInsert vad l ↔ w = vad ∨ w ∈ l := by
  induction l with
  | nil => simp [vadInsert]
  | cons v l ih =>
      unfold vadInsert
      split
      · rw [List.mem_cons, ih, List.mem_cons, or_left_comm]
      · rw [List.mem_cons, List.mem_cons]

theorem covers_vadInsert {x : Nat} :
    Covers (vadInsert vad l) x ↔ (vad.start ≤ x ∧ x < vad.stop) ∨ Covers l x := by
  unfold Covers
  simp only [mem_vadInsert, or_and_right, exists_or, exists_eq_left]

theorem length_vadInsert (vad : Vad) (l : List Vad) :
    (vadInsert vad l).length = l.length + 1 := by
  induction l with
  | nil => rfl
  | cons v l ih =>
      unfold vadInsert
      split
      · rw [List.length_cons, ih]
        rfl
      · rfl

/-- `vad_insert`, where nothing is in the way. -/
theorem VadsOk.insert (h : VadsOk l) (hfit : vad.start < vad.stop
      ∧ vad.stop < 2 ^ 64 ∧ vad.start % PAGE_SIZE = 0 ∧ vad.stop % PAGE_SIZE = 0)
    (hfree : ¬ Meets l vad.start vad.stop) : VadsOk (vadInsert vad l) := by
  induction l with
  | nil => exact vadsOk_nil.cons (fun w hw => (by cases hw)) hfit
  | cons v l ih =>
      rw [meets_cons, not_or] at hfree
      have hv := h.fits v List.mem_cons_self
      have hapart := hfree.1
      unfold vadInsert
      split
      · rename_i hlt
        refine (ih h.tail hfree.2).cons (fun w hw => ?_) hv
        rcases mem_vadInsert.mp hw with rfl | hw
        · omega
        · exact h.head_le hw
      · rename_i hge
        refine h.cons (fun w hw => ?_) hfit
        rcases List.mem_cons.mp hw with rfl | hw
        · omega
        · have := h.head_le hw
          omega

/-- Behind all the others, `vad_insert` appends. -/
theorem vadInsert_append (hle : ∀ w ∈ l, w.start < vad.start) :
    vadInsert vad l = l ++ [vad] := by
  induction l with
  | nil => rfl
  | cons v l ih =>
      unfold vadInsert
      rw [if_pos (hle v List.mem_cons_self),
        ih fun w hw => hle w (List.mem_cons_of_mem _ hw)]
      rfl

-- ==== free ranges

/-- Adding in 64 bits: what a sum that does not wrap looks like. -/
theorem add_mod_of_le {base length : Nat} (hb : base < 2 ^ 64)
    (hl : length < 2 ^ 64) (h : base ≤ (base + length) % 2 ^ 64) :
    (base + length) % 2 ^ 64 = base + length := by
  omega

/-- Sorted, disjoint and of whole pages, with or without empty ranges. -/
structure VadsSorted (l : List Vad) : Prop where
  ordered : l.Pairwise fun v w => v.stop ≤ w.start
  fits : ∀ v ∈ l, v.start ≤ v.stop ∧ v.stop < 2 ^ 64
    ∧ v.start % PAGE_SIZE = 0 ∧ v.stop % PAGE_SIZE = 0

theorem VadsOk.sorted (h : VadsOk l) : VadsSorted l :=
  ⟨h.ordered, fun v hv => ⟨Nat.le_of_lt (h.fits v hv).1, (h.fits v hv).2⟩⟩

theorem VadsSorted.tail (h : VadsSorted (v :: l)) : VadsSorted l :=
  ⟨(List.pairwise_cons.mp h.ordered).2,
    fun w hw => h.fits w (List.mem_cons_of_mem _ hw)⟩

theorem VadsSorted.head_le (h : VadsSorted (v :: l)) (hw : w ∈ l) : v.stop ≤ w.start :=
  (List.pairwise_cons.mp h.ordered).1 w hw

/-- The loop of `vas_find_free` passes no base that is in no descriptor's
way. The order of the descriptors does not matter for this. -/
theorem findFree_least (h : ∀ v ∈ l, v.stop < 2 ^ 64 ∧ v.stop % PAGE_SIZE = 0)
    {length base stop base' stop' : Nat} (hbase : base < 2 ^ 64 ∧ base % PAGE_SIZE = 0)
    (hstop : stop = (base + length) % 2 ^ 64)
    (hf : Alix.findFree length l base stop = (base', stop')) :
    (base' < 2 ^ 64 ∧ base' % PAGE_SIZE = 0)
      ∧ stop' = (base' + length) % 2 ^ 64 ∧ base ≤ base'
      ∧ ∀ b, base ≤ b → b + length < 2 ^ 64 → ¬ Meets l b (b + length) → base' ≤ b := by
  induction l generalizing base stop with
  | nil =>
      cases hf
      exact ⟨hbase, hstop, Nat.le_refl _, fun b hb _ _ => hb⟩
  | cons v l ih =>
      have hv := h v List.mem_cons_self
      have htail : ∀ w ∈ l, w.stop < 2 ^ 64 ∧ w.stop % PAGE_SIZE = 0 :=
        fun w hw => h w (List.mem_cons_of_mem _ hw)
      unfold Alix.findFree at hf
      split at hf
      · cases hf
        exact ⟨hbase, hstop, Nat.le_refl _, fun b hb _ _ => hb⟩
      rename_i hgt
      split at hf
      · rename_i hlt
        simp only [pageAlignUp_of_aligned hv.2 hv.1] at hf
        obtain ⟨h1, h2, h3, h4⟩ := ih htail hv rfl hf
        refine ⟨h1, h2, by omega, fun b hb hfit hno => ?_⟩
        -- a base below the end of `v` would have to end before its start
        rw [meets_cons, not_or] at hno
        refine h4 b ?_ hfit hno.2
        by_contra hbelow
        have hbefore := hno.1
        omega
      · obtain ⟨h1, h2, h3, h4⟩ := ih htail hbase hstop hf
        refine ⟨h1, h2, h3, fun b hb hfit hno => ?_⟩
        rw [meets_cons, not_or] at hno
        exact h4 b hb hfit hno.2

theorem VadsSorted.stops (h : VadsSorted l) : ∀ v ∈ l, v.stop < 2 ^ 64 ∧ v.stop % PAGE_SIZE = 0 :=
  fun v hv => ⟨(h.fits v hv).2.1, (h.fits v hv).2.2.2⟩

/-- In a sorted list it comes to a base that is in no descriptor's way. -/
theorem VadsSorted.findFree (h : VadsSorted l) {length base stop base' stop' : Nat}
    (hbase : base < 2 ^ 64 ∧ base % PAGE_SIZE = 0)
    (hstop : stop = (base + length) % 2 ^ 64)
    (hf : Alix.findFree length l base stop = (base', stop')) : ¬ Meets l base' stop' := by
  induction l generalizing base stop with
  | nil =>
      rintro ⟨v, hv, -⟩
      cases hv
  | cons v l ih =>
      have hv := h.fits v List.mem_cons_self
      unfold Alix.findFree at hf
      split at hf
      · rename_i hbefore
        cases hf
        rintro ⟨w, hw, h1, h2⟩
        rcases List.mem_cons.mp hw with rfl | hw
        · omega
        · have := h.head_le hw
          omega
      split at hf
      · simp only [pageAlignUp_of_aligned hv.2.2.2 hv.2.1] at hf
        obtain ⟨-, -, hup, -⟩ := findFree_least h.tail.stops ⟨hv.2.1, hv.2.2.2⟩ rfl hf
        rw [meets_cons, not_or]
        exact ⟨by omega, ih h.tail ⟨hv.2.1, hv.2.2.2⟩ rfl hf⟩
      · obtain ⟨-, -, hup, -⟩ := findFree_least h.tail.stops hbase hstop hf
        rw [meets_cons, not_or]
        exact ⟨by omega, ih h.tail hbase hstop hf⟩

/-- Where `vas_map_anon` and `vas_map_phys` put a range: at the hint, or where
the search finds room. -/
theorem placement_cases {v : Vas} {hint length base : Nat} {flags : Word}
    (hp : Vm.placement v hint length flags = some base) :
    (hasFlag flags VAD_FIXED = true ∧ base = pageAlignDown hint
      ∧ (base + length) % 2 ^ 64 ≤ VAS_USER_END ∧ base ≤ (base + length) % 2 ^ 64
      ∧ ¬ vasOverlaps v.list base ((base + length) % 2 ^ 64) = true)
    ∨ (¬ hasFlag flags VAD_FIXED = true ∧ base ≠ 0 ∧ ∃ start stop,
      Alix.findFree length v.list (pageAlignUp start) ((pageAlignUp start + length) % 2 ^ 64)
        = (base, stop) ∧ stop ≤ VAS_USER_END ∧ base ≤ stop) := by
  unfold Vm.placement at hp
  split at hp
  · rename_i hfixed
    simp only at hp
    split at hp
    · cases hp
    split at hp
    · cases hp
    · rename_i hin hover
      cases hp
      exact Or.inl ⟨hfixed, rfl, by omega, by omega, hover⟩
  · rename_i hfree
    simp only at hp
    generalize (if hint ≠ 0 then hint else v.userStart) = start at hp
    split at hp
    · cases hp
    · rename_i hne
      cases hp
      refine Or.inr ⟨hfree, hne, start, ?_⟩
      unfold vasFindFree at hne ⊢
      simp only at hne ⊢
      cases hf : Alix.findFree length v.list (pageAlignUp start)
        ((pageAlignUp start + length) % 2 ^ 64) with
      | mk base stop =>
          rw [hf] at hne
          simp only at hne ⊢
          split at hne
          · exact (hne rfl).elim
          · rename_i hin
            rw [if_neg hin]
            exact ⟨stop, rfl, by omega, by omega⟩

/-- Those are whole pages of the user half that meet no descriptor. -/
theorem VadsOk.placement {v : Vas} (h : VadsOk v.list) {hint length base : Nat}
    {flags : Word} (hlen : length < 2 ^ 64)
    (hp : Vm.placement v hint length flags = some base) :
    base % PAGE_SIZE = 0 ∧ (base + length) % 2 ^ 64 = base + length
      ∧ base + length ≤ VAS_USER_END ∧ ¬ Meets v.list base (base + length) := by
  rcases placement_cases hp with ⟨-, rfl, hin, hle, hover⟩ | ⟨-, -, start, stop, hf, hin, hle⟩
  · have hwrap : (pageAlignDown hint + length) % 2 ^ 64 = pageAlignDown hint + length := by
      omega
    rw [hwrap] at hin hover
    exact ⟨pageAlignDown_mod _, hwrap, hin, fun hm => hover (h.overlaps.mpr hm)⟩
  · have hstart := And.intro (pageAlignUp_lt start) (pageAlignUp_mod start)
    obtain ⟨h1, h2, -, -⟩ := findFree_least h.sorted.stops hstart rfl hf
    have hwrap := add_mod_of_le h1.1 hlen (by omega)
    refine ⟨h1.2, hwrap, by omega, ?_⟩
    rw [← hwrap, ← h2]
    exact h.sorted.findFree hstart rfl hf

-- ==== vad_remove_range

/-- The pieces `vad_remove_range` leaves of a descriptor that meets the
range. -/
def piecesOf (start stop : Nat) (old : Vad) : List Vad :=
  (if old.start < start then [⟨old.start, start, old.flags⟩] else [])
    ++ (if old.stop > stop then [⟨stop, old.stop, old.flags⟩] else [])

/-- The list `vad_remove_range` leaves. -/
def removeRange (start stop : Nat) : List Vad → List Vad
  | [] => []
  | old :: list =>
      if old.stop ≤ start ∨ old.start ≥ stop then old :: removeRange start stop list
      else piecesOf start stop old ++ removeRange start stop list

theorem mem_removeRange (hw : w ∈ removeRange start stop l) :
    ∃ v ∈ l, v.start ≤ w.start ∧ w.stop ≤ v.stop ∧ w.flags = v.flags := by
  induction l with
  | nil => cases hw
  | cons v l ih =>
      unfold removeRange at hw
      have hrest : w ∈ removeRange start stop l → ∃ u ∈ v :: l,
          u.start ≤ w.start ∧ w.stop ≤ u.stop ∧ w.flags = u.flags := by
        intro hw
        obtain ⟨u, hu, hin⟩ := ih hw
        exact ⟨u, List.mem_cons_of_mem _ hu, hin⟩
      split at hw
      · rcases List.mem_cons.mp hw with rfl | hw
        · exact ⟨w, List.mem_cons_self, Nat.le_refl _, Nat.le_refl _, rfl⟩
        · exact hrest hw
      · rename_i hmeet
        rcases List.mem_append.mp hw with hw | hw
        · unfold piecesOf at hw
          refine ⟨v, List.mem_cons_self, ?_⟩
          rcases List.mem_append.mp hw with hw | hw
          · split at hw
            · rw [List.mem_singleton.mp hw]
              exact ⟨Nat.le_refl _, by show start ≤ v.stop; omega, rfl⟩
            · cases hw
          · split at hw
            · rw [List.mem_singleton.mp hw]
              exact ⟨by show v.start ≤ stop; omega, Nat.le_refl _, rfl⟩
            · cases hw
        · exact hrest hw

/-- Nothing starts below 0. -/
theorem removeRange_zero (start : Nat) (l : List Vad) : removeRange start 0 l = l := by
  induction l with
  | nil => rfl
  | cons w l ih =>
      unfold removeRange
      rw [if_pos (Or.inr (Nat.zero_le _)), ih]

/-- `vad_remove_range` takes the range out of what the list covers. -/
theorem VadsOk.removeRange (h : VadsOk l) (hle : start ≤ stop)
    (halign : start % PAGE_SIZE = 0 ∧ stop % PAGE_SIZE = 0) :
    VadsOk (removeRange start stop l) ∧ ∀ x, Covers (removeRange start stop l) x
      ↔ Covers l x ∧ ¬ (start ≤ x ∧ x < stop) := by
  induction l with
  | nil =>
      refine ⟨vadsOk_nil, fun x => ?_⟩
      unfold Alix.removeRange Covers
      simp
  | cons v l ih =>
      obtain ⟨hok, hcov⟩ := ih h.tail
      have hv := h.fits v List.mem_cons_self
      have hrest : ∀ w ∈ Alix.removeRange start stop l, v.stop ≤ w.start := by
        intro w hw
        obtain ⟨u, hu, hin, -⟩ := mem_removeRange hw
        have := h.head_le hu
        omega
      unfold Alix.removeRange
      split
      · rename_i hout
        refine ⟨hok.cons hrest hv, fun x => ?_⟩
        rw [covers_cons, covers_cons, hcov]
        constructor
        · rintro (hx | ⟨hx, hnot⟩)
          · exact ⟨Or.inl hx, by omega⟩
          · exact ⟨Or.inr hx, hnot⟩
        · rintro ⟨hx | hx, hnot⟩
          · exact Or.inl hx
          · exact Or.inr ⟨hx, hnot⟩
      · rename_i hmeet
        rw [not_or] at hmeet
        -- first the right piece, then the left one
        have hright : VadsOk ((if v.stop > stop then
              [(⟨stop, v.stop, v.flags⟩ : Vad)] else [])
              ++ Alix.removeRange start stop l)
            ∧ ∀ w ∈ (if v.stop > stop then [(⟨stop, v.stop, v.flags⟩ : Vad)] else [])
              ++ Alix.removeRange start stop l, stop ≤ w.start ∨ v.stop ≤ w.start := by
          split
          · rename_i hgt
            refine ⟨hok.cons hrest ⟨hgt, hv.2.1, halign.2, hv.2.2.2⟩, fun w hw => ?_⟩
            rcases List.mem_cons.mp hw with rfl | hw
            · exact Or.inl (Nat.le_refl _)
            · exact Or.inr (hrest w hw)
          · exact ⟨hok, fun w hw => Or.inr (hrest w hw)⟩
        constructor
        · unfold piecesOf
          rw [List.append_assoc]
          split
          · rename_i hlt
            refine hright.1.cons (fun w hw => ?_)
              ⟨hlt, by show start < 2 ^ 64; omega, hv.2.2.1, halign.1⟩
            show start ≤ w.start
            rcases hright.2 w hw with e | e <;> omega
          · exact hright.1
        · intro x
          have happ : Covers (piecesOf start stop v
              ++ Alix.removeRange start stop l) x
              ↔ Covers (piecesOf start stop v) x
                ∨ Covers (Alix.removeRange start stop l) x := by
            unfold Covers
            simp only [List.mem_append, or_and_right, exists_or]
          have hpieces : Covers (piecesOf start stop v) x
              ↔ (v.start ≤ x ∧ x < v.stop) ∧ ¬ (start ≤ x ∧ x < stop) := by
            unfold piecesOf Covers
            constructor
            · rintro ⟨w, hw, hx⟩
              rcases List.mem_append.mp hw with hw | hw
              · split at hw
                · rw [List.mem_singleton.mp hw] at hx
                  simp only at hx
                  omega
                · cases hw
              · split at hw
                · rw [List.mem_singleton.mp hw] at hx
                  simp only at hx
                  omega
                · cases hw
            · rintro ⟨hx, hnot⟩
              by_cases hlt : x < start
              · refine ⟨⟨v.start, start, v.flags⟩, List.mem_append_left _ ?_, hx.1, hlt⟩
                rw [if_pos (by omega)]
                exact List.mem_singleton_self _
              · refine ⟨⟨stop, v.stop, v.flags⟩, List.mem_append_right _ ?_, ?_, hx.2⟩
                · rw [if_pos (by omega)]
                  exact List.mem_singleton_self _
                · show stop ≤ x
                  omega
          rw [happ, hpieces, hcov, covers_cons, ← or_and_right]

end Alix
