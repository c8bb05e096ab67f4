/-
Where `vas_map_anon` looks when it is given no hint.

# What goes wrong

Without a hint the search begins at `user_start`. Every mapping moves
`user_start` to its own end, a fixed one too, and nothing moves it back:
after a fixed mapping of the last page of the user half no mapping without a
hint succeeds, though everything below is free (`mapAnon_exhausted`).

There are two smaller ways. A length that is rounded up past `2^64` is 0, and
the empty descriptor it leaves is in the way of `vas_find_free`; and at 0,
where such a length may leave `user_start`, a range that is found at once is
taken for none.

# What holds

In every state of a run the mapping succeeds whenever some range at or above
`user_start` fits, and in a sorted list in no other case
(`reachable_mapAnon_iff`).
-/
import Alix.Mm.Proofs.FirstFit
import Alix.Mm.Proofs.VadRun

namespace Alix

open Paging

namespace Vm

variable {s s' s₀ : Vm} {v : Vas} {a hint length base : Nat} {flags : Word}

-- ==== the statement

/-- The calls of the runs, with any arguments. -/
def AnonCall (_ : Vm) : Call → Prop
  | .create _ | .mapAnon .. | .unmap .. => True
  | _ => False

/-- Whole pages of the user range of which no descriptor has an address. -/
structure FreeRange (l : List Vad) (length b : Nat) : Prop where
  align : b % PAGE_SIZE = 0
  low : VAS_USER_START ≤ b
  high : b + length ≤ VAS_USER_END
  free : ∀ x, b ≤ x → x < b + length → ¬ Covers l x

/-- The memory that the call asks for is there: the descriptor, and what
`commit_anon` takes for the pages and their tables. -/
def Supplied (s : Vm) (v : Vas) (base length : Nat) (flags : Word) : Prop :=
  s.kzalloc.2 = true ∧ ∃ mach, s.kzalloc.1.mach.commitAnon v.pml4
    ⟨base, (base + length) % 2 ^ 64, flags ||| VAD_ANONYMOUS ||| VAD_MAPPED⟩ = .ok (mach, 0)

/-- `vas_map_anon(vas, 0, length, flags)` returns a range. -/
def MapsAnon (s : Vm) (a length : Nat) (flags : Word) : Prop :=
  ∃ s' base, s.vasMapAnon a 0 length flags = .ok (s', base) ∧ base ≠ 0

-- ==== the invariant

/-- What the search relies on, whatever became of the order of the list. -/
structure Bounded (v : Vas) : Prop where
  stops : ∀ x ∈ v.list, x.stop < 2 ^ 64 ∧ x.stop % PAGE_SIZE = 0
  start : v.userStart ≤ VAS_USER_END

/-- Where a range is put. -/
theorem Bounded.placement (h : Bounded v)
    (hp : Vm.placement v hint length flags = some base) :
    base % PAGE_SIZE = 0 ∧ (base + length) % 2 ^ 64 ≤ VAS_USER_END := by
  rcases placement_cases hp with ⟨-, rfl, hin, -, -⟩ | ⟨-, -, start, stop, hf, hin, -⟩
  · exact ⟨pageAlignDown_mod _, hin⟩
  · obtain ⟨⟨-, halign⟩, hstop, -, -⟩ :=
      findFree_least h.stops ⟨pageAlignUp_lt _, pageAlignUp_mod _⟩ rfl hf
    exact ⟨halign, hstop ▸ hin⟩

theorem Bounded.mapAnon (h : Bounded v)
    (hp : Vm.placement v hint (pageAlignUp length) flags = some base) {flags' : Word} :
    Bounded { v with
      list := vadInsert ⟨base, (base + pageAlignUp length) % 2 ^ 64, flags'⟩ v.list
      userStart := (base + pageAlignUp length) % 2 ^ 64 } := by
  obtain ⟨halign, hend⟩ := h.placement hp
  have hmod := pageAlignUp_mod length
  have hs : PAGE_SIZE = 4096 := rfl
  refine ⟨fun x hx => ?_, hend⟩
  rcases mem_vadInsert.mp hx with rfl | hx
  · refine ⟨Nat.mod_lt _ (by decide), ?_⟩
    show (base + pageAlignUp length) % 2 ^ 64 % PAGE_SIZE = 0
    rw [hs] at halign hmod ⊢
    omega
  · exact h.stops x hx

/-- A piece ends where its descriptor does, or at the start of the range. -/
theorem stop_of_mem_removeRange {start stop : Nat} {w : Vad} {l : List Vad}
    (hw : w ∈ removeRange start stop l) :
    ∃ x ∈ l, w.stop = x.stop ∨ (w.stop = start ∧ start < x.stop) := by
  induction l with
  | nil => cases hw
  | cons x l ih =>
      have hrest : w ∈ removeRange start stop l →
          ∃ y ∈ x :: l, w.stop = y.stop ∨ (w.stop = start ∧ start < y.stop) := by
        intro hw
        obtain ⟨y, hy, hstop⟩ := ih hw
        exact ⟨y, List.mem_cons_of_mem _ hy, hstop⟩
      unfold removeRange at hw
      split at hw
      · rcases List.mem_cons.mp hw with rfl | hw
        · exact ⟨w, List.mem_cons_self, Or.inl rfl⟩
        · exact hrest hw
      · rename_i hmeet
        rw [not_or] at hmeet
        rcases List.mem_append.mp hw with hw | hw
        · refine ⟨x, List.mem_cons_self, ?_⟩
          unfold piecesOf at hw
          rcases List.mem_append.mp hw with hw | hw
          · split at hw
            · rw [List.mem_singleton.mp hw]
              exact Or.inr ⟨rfl, by omega⟩
            · cases hw
          · split at hw
            · rw [List.mem_singleton.mp hw]
              exact Or.inl rfl
            · cases hw
        · exact hrest hw

theorem Bounded.unmap (h : Bounded v) (start stop : Nat) :
    Bounded { v with list := removeRange (pageAlignDown start) stop v.list } := by
  refine ⟨fun w hw => ?_, h.start⟩
  obtain ⟨x, hx, hstop | ⟨hstop, hlt⟩⟩ := stop_of_mem_removeRange hw
  · rw [hstop]
    exact h.stops x hx
  · rw [hstop]
    exact ⟨Nat.lt_trans hlt (h.stops x hx).1, pageAlignDown_mod start⟩

-- ==== the runs

theorem bounded_create (h : ∀ a v, s.spaces a = some v → Bounded v) (pt : Option Nat)
    (hv : (s.vasCreate pt).1.spaces a = some v) : Bounded v := by
  have hnew : ∀ pml4, Bounded ⟨pml4, [], VAS_USER_START⟩ := fun pml4 =>
    ⟨fun x hx => (by cases hx), show VAS_USER_START ≤ VAS_USER_END by decide⟩
  unfold vasCreate at hv
  split at hv
  · rename_i s1 hk
    rw [(heapRun_kzalloc hk).spaces.1] at hv
    exact h a v hv
  · rename_i s1 hk
    have hsame := (heapRun_kzalloc hk).spaces.1
    split at hv
    · rw [(heapRun_kfree _).spaces.1] at hv
      change s1.spaces a = some v at hv
      rw [hsame] at hv
      exact h a v hv
    · change Function.update s1.spaces s1.next _ a = some v at hv
      by_cases ha : a = s1.next
      · rw [ha, Function.update_self] at hv
        cases hv
        exact hnew _
      · rw [Function.update_of_ne ha, hsame] at hv
        exact h a v hv

theorem reachable_bounded (h₀ : ∀ a v, s₀.spaces a = some v → Bounded v)
    (h : Reachable AnonCall s₀ s) : ∀ a v, s.spaces a = some v → Bounded v := by
  have hset : ∀ {s s' : Vm} {a : Nat} {w : Vas},
      (∀ a v, s.spaces a = some v → Bounded v) → Bounded w →
      s'.spaces = Function.update s.spaces a (some w) →
      ∀ b v, s'.spaces b = some v → Bounded v := by
    intro s s' a w hall hw hsame b v hv
    rw [hsame] at hv
    by_cases hb : b = a
    · rw [hb, Function.update_self] at hv
      cases hv
      exact hw
    · rw [Function.update_of_ne hb] at hv
      exact hall b v hv
  induction h with
  | init => exact h₀
  | @call s s' k coins _ hk hc ih =>
      cases k with
      | create pt =>
          cases hc
          exact fun a v hv => bounded_create (s := { s with coins }) ih pt hv
      | mapAnon a hint length flags =>
          obtain ⟨base, hm⟩ := map_fst_ok hc
          rcases vasMapAnon_cases hm with hsame | ⟨w, hw, -, hp, hsame⟩
          · rw [hsame]
            exact ih
          · exact hset ih ((ih a w hw).mapAnon hp) hsame
      | unmap a start length =>
          obtain ⟨rc, hm⟩ := map_fst_ok hc
          rcases vasUnmap_cases hm with hsame | ⟨w, hw, hsame⟩
          · rw [hsame]
            exact ih
          · exact hset ih ((ih a w hw).unmap start _) hsame
      | mapPhys | protect | pageFault | accessOk | add | clone | destroy => exact hk.elim

-- ==== one call

/-- With the memory there, the call succeeds when the search does. -/
theorem mapsAnon_iff (hv : s.spaces a = some v) (hpos : length ≠ 0)
    (hflags : hasFlag flags VAD_FIXED = false)
    (hmem : ∀ base, placement v 0 (pageAlignUp length) flags = some base →
      s.Supplied v base (pageAlignUp length) flags) :
    s.MapsAnon a length flags
      ↔ vasFindFree v.list v.userStart (pageAlignUp length) ≠ 0 := by
  have hplace : placement v 0 (pageAlignUp length) flags
      = if vasFindFree v.list v.userStart (pageAlignUp length) = 0 then none
        else some (vasFindFree v.list v.userStart (pageAlignUp length)) := by
    unfold placement
    rw [hflags]
    rfl
  generalize hbase : vasFindFree v.list v.userStart (pageAlignUp length) = base at *
  unfold MapsAnon vasMapAnon
  simp only [hv, if_neg hpos]
  by_cases hzero : base = 0
  · rw [hplace, if_pos hzero]
    refine ⟨fun hm => ?_, fun hne => absurd hzero hne⟩
    obtain ⟨s', b, hm, hne⟩ := hm
    cases hm
    exact (hne rfl).elim
  · rw [if_neg hzero] at hplace
    obtain ⟨hk, mach, hc⟩ := hmem base hplace
    refine ⟨fun _ => hzero, fun _ => ?_⟩
    rw [hplace]
    simp only
    cases hkz : s.kzalloc with
    | mk s1 ok =>
        rw [hkz] at hk hc
        change ok = true at hk
        subst hk
        simp only at hc ⊢
        rw [hc]
        exact ⟨_, base, rfl, hzero⟩

/-- What the search finds, in a sorted list. -/
theorem findFree_start_iff (hsorted : VadsSorted v.list) (hstart : v.userStart ≤ VAS_USER_END)
    (hlen : length < 2 ^ 64) :
    vasFindFree v.list v.userStart length ≠ 0
      ↔ (∃ b, Fits v.list v.userStart length b)
        ∧ (v.userStart = 0 → Meets v.list 0 (0 + length)) := by
  constructor
  · intro hne
    have hfits := hsorted.vasFindFree hstart hlen hne
    refine ⟨⟨_, hfits⟩, fun hzero => ?_⟩
    by_contra hno
    have hend := hfits.high
    have hle := (vasFindFree_le (b := 0) hsorted.stops hstart
      ⟨rfl, by omega, by omega, hno⟩).1
    omega
  · intro hcond hzero
    obtain ⟨⟨b, hb⟩, hmeets⟩ := hcond
    have hlow := (vasFindFree_le hsorted.stops hstart hb).2
    have hs0 : v.userStart = 0 := by omega
    -- the loop ends at 0, and nothing meets what it ends at
    unfold Alix.vasFindFree at hzero
    simp only at hzero
    cases hf : Alix.findFree length v.list (pageAlignUp v.userStart)
      ((pageAlignUp v.userStart + length) % 2 ^ 64) with
    | mk base stop =>
        have halign := And.intro (pageAlignUp_lt v.userStart) (pageAlignUp_mod v.userStart)
        obtain ⟨-, hstop, -, hleast⟩ := findFree_least hsorted.stops halign rfl hf
        have hfree := hsorted.findFree halign rfl hf
        have hend := hb.high
        have hu : VAS_USER_END = 0x00007FFFFFFFFFFF := rfl
        have hround := pageAlignUp_le hstart hb.align hb.low
        have hbase := hleast b hround.2 (by omega) hb.free
        rw [hf] at hzero
        simp only at hzero
        rw [if_neg (by omega)] at hzero
        rw [hzero] at hstop hfree
        rw [hstop, Nat.mod_eq_of_lt (by omega)] at hfree
        exact hfree (hmeets hs0)

-- ==== the statement

/-- Whether an anonymous mapping without a hint finds a place, in every
state of a run. Where some range at or above `user_start` fits, it does; and
where the list is sorted, a free range is enough for it exactly when a free
range implies one at or above `user_start`, and not at 0. -/
theorem reachable_mapAnon_iff
    (h₀ : ∀ a v, s₀.spaces a = some v → v.list = [] ∧ v.userStart = VAS_USER_START)
    (h : Reachable AnonCall s₀ s) (coins : List Coin) (hv : s.spaces a = some v)
    (hpos : length ≠ 0) (hflags : hasFlag flags VAD_FIXED = false)
    (hmem : ∀ base, placement v 0 (pageAlignUp length) flags = some base →
      Supplied { s with coins } v base (pageAlignUp length) flags) :
    (v.userStart ≠ 0 → (∃ b, Fits v.list v.userStart (pageAlignUp length) b) →
        MapsAnon { s with coins } a length flags)
      ∧ (VadsSorted v.list →
        (((∃ b, FreeRange v.list (pageAlignUp length) b) →
            MapsAnon { s with coins } a length flags)
          ↔ ((∃ b, FreeRange v.list (pageAlignUp length) b) →
            (∃ b, Fits v.list v.userStart (pageAlignUp length) b)
              ∧ (v.userStart = 0 → Meets v.list 0 (0 + pageAlignUp length))))) := by
  have hbounded := reachable_bounded (fun a v hv => by
    obtain ⟨hnil, hstart⟩ := h₀ a v hv
    refine ⟨fun x hx => ?_, by rw [hstart]; decide⟩
    rw [hnil] at hx
    cases hx) h a v hv
  rw [mapsAnon_iff (s := { s with coins }) hv hpos hflags hmem]
  refine ⟨fun hne hfits => ?_, fun hsorted => ?_⟩
  · obtain ⟨b, hb⟩ := hfits
    have := (vasFindFree_le hbounded.stops hbounded.start hb).2
    omega
  · rw [findFree_start_iff hsorted hbounded.start (pageAlignUp_lt length)]

-- ==== traces

instance (s : Vm) (k : Call) : Decidable (AnonCall s k) :=
  match k with
  | .create _ | .mapAnon .. | .unmap .. => inferInstanceAs (Decidable True)
  | .mapPhys .. | .protect .. | .pageFault .. | .accessOk .. | .add .. | .clone _
  | .destroy _ => inferInstanceAs (Decidable False)

/-- Whether `commit_anon` succeeds for one page. -/
def commits (s : Vm) (v : Vas) (base : Nat) : Bool :=
  match s.kzalloc.1.mach.commitAnon v.pml4
    ⟨base, base + 0x1000, PAGE_WRITE ||| VAD_ANONYMOUS ||| VAD_MAPPED⟩ with
  | .ok (_, rc) => rc = 0
  | .error _ => false

/-- In a new space the first page is mapped. -/
theorem reachable_mapAnon_first : ∃ (s : Vm) (v : Vas), Reachable AnonCall bootVm s
    ∧ s.spaces 0 = some v ∧ MapsAnon { s with coins := fair } 0 0x1000 PAGE_WRITE := by
  have hplay : (play AnonCall bootVm [(fair, .create none)]).map
      (fun s => (s.spaces 0).map fun v => (v.list.length, v.userStart,
        (Vm.kzalloc { s with coins := fair }).2, commits { s with coins := fair } v 0x1000))
      = some (some (0, 0x1000, true, true)) := by
    decide +kernel
  obtain ⟨s, hrun, heq⟩ := Option.map_eq_some_iff.mp hplay
  obtain ⟨v, hv, hinfo⟩ := Option.map_eq_some_iff.mp heq
  simp only [Prod.mk.injEq] at hinfo
  obtain ⟨hlen, hstart, hk, hc⟩ := hinfo
  have hnil : v.list = [] := List.length_eq_zero_iff.mp hlen
  have hreach := reachable_play .init hrun
  have hfits : Fits v.list v.userStart (pageAlignUp 0x1000) 0x1000 := by
    rw [hnil, hstart]
    exact ⟨rfl, Nat.le_refl _, by decide, fun ⟨x, hx, _⟩ => (by cases hx)⟩
  refine ⟨s, v, hreach, hv, (reachable_mapAnon_iff (fun a v hv => (by cases hv)) hreach fair hv
    (by decide) (by decide) fun base hp => ?_).1 (by rw [hstart]; decide) ⟨0x1000, hfits⟩⟩
  have hbase : placement v 0 (pageAlignUp 0x1000) PAGE_WRITE = some 0x1000 := by
    unfold placement
    rw [hnil, hstart]
    decide
  rw [hp] at hbase
  cases hbase
  refine ⟨hk, ?_⟩
  unfold commits at hc
  split at hc
  · rename_i mach rc hcommit
    have hrc : rc = 0 := of_decide_eq_true hc
    subst hrc
    exact ⟨mach, hcommit⟩
  · cases hc

/-- After a fixed mapping of the last page of the user half the page at
0x1000 is free, and a mapping there succeeds, but one without a hint fails
with any heap. -/
theorem mapAnon_exhausted : ∃ (s : Vm) (v : Vas), Reachable AnonCall bootVm s
    ∧ s.spaces 0 = some v ∧ FreeRange v.list (pageAlignUp 0x1000) 0x1000
    ∧ (∃ s', Vm.vasMapAnon { s with coins := fair } 0 0x1000 0x1000 PAGE_WRITE = .ok (s', 0x1000))
    ∧ ∀ coins, ¬ MapsAnon { s with coins } 0 0x1000 PAGE_WRITE := by
  have hplay : (play AnonCall bootVm [(fair, .create none),
      (fair, .mapAnon 0 0x7FFFFFFFE000 0x1000 (PAGE_WRITE ||| VAD_FIXED))]).map
      (fun s => ((s.spaces 0).map fun v => (v.list.map fun x => (x.start, x.stop), v.userStart),
        match Vm.vasMapAnon { s with coins := fair } 0 0x1000 0x1000 PAGE_WRITE with
        | .ok (_, base) => some base
        | .error _ => none))
      = some (some ([(0x7FFFFFFFE000, 0x7FFFFFFFF000)], 0x7FFFFFFFF000), some 0x1000) := by
    decide +kernel
  obtain ⟨s, hrun, heq⟩ := Option.map_eq_some_iff.mp hplay
  obtain ⟨hspace, hmap⟩ := Prod.mk.inj heq
  obtain ⟨v, hv, hinfo⟩ := Option.map_eq_some_iff.mp hspace
  obtain ⟨hlist, hstart⟩ := Prod.mk.inj hinfo
  have hmem : ∀ x ∈ v.list, x.start = 0x7FFFFFFFE000 ∧ x.stop = 0x7FFFFFFFF000 := by
    intro x hx
    have hx' : (x.start, x.stop) ∈ v.list.map fun x => (x.start, x.stop) :=
      List.mem_map_of_mem hx
    rw [hlist] at hx'
    exact Prod.mk.inj (List.mem_singleton.mp hx')
  refine ⟨s, v, reachable_play .init hrun, hv, ⟨rfl, Nat.le_refl _, by decide, ?_⟩, ?_,
    fun coins hm => ?_⟩
  · intro x h1 h2 hcov
    obtain ⟨y, hy, h3, -⟩ := hcov
    have hround : pageAlignUp 0x1000 = 0x1000 := by decide
    have := (hmem y hy).1
    omega
  · split at hmap
    · rename_i s' base hok
      cases hmap
      exact ⟨s', hok⟩
    · cases hmap
  · have hround : pageAlignUp 0x1000 = 0x1000 := by decide
    have hnone : placement v 0 (pageAlignUp 0x1000) PAGE_WRITE = none := by
      have hsorted : VadsSorted v.list := by
        refine ⟨?_, fun x hx => ?_⟩
        · have hone : v.list.length = 1 := by
            rw [← List.length_map (fun x : Vad => (x.start, x.stop)), hlist]
            rfl
          obtain ⟨x, hx⟩ := List.length_eq_one_iff.mp hone
          rw [hx]
          exact List.pairwise_singleton _ _
        · obtain ⟨h1, h2⟩ := hmem x hx
          rw [h1, h2]
          decide
      have hzero : vasFindFree v.list v.userStart (pageAlignUp 0x1000) = 0 := by
        by_contra hne
        have hfits := hsorted.vasFindFree (by rw [hstart]; decide) (by decide) hne
        have hlow := hfits.low
        have hhigh := hfits.high
        have hend : VAS_USER_END = 0x00007FFFFFFFFFFF := rfl
        omega
      unfold placement
      rw [if_neg (by decide)]
      simp only [ne_eq, not_true_eq_false, if_false, hzero, if_true]
    obtain ⟨s', base, hm, hne⟩ := hm
    unfold vasMapAnon at hm
    simp only [hv, hnone] at hm
    cases hm
    exact hne rfl

end Vm

end Alix
