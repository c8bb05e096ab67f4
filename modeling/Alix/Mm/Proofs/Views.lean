/-
Views, and what the loops of `mm/vmm.c` do to them.

A view says what the lower halves map. A view is `Isolated` when a frame
that two pages map is writable through neither. `Within` is the frame of a
change: only the named pages of one root differ. A loop over a range does
one of two things to a view: the pages lose their entries (`Clears`), or
their entries get new flags (`Reflags`), which keeps the view isolated
exactly when it does not make a shared frame writable
(`Reflags.isolated_iff`). A clone adds pages in one root and takes
permissions elsewhere (`Clones`).

A change is `Tame` when it keeps a view isolated and lets no frame have
more entries than some frame had. Only a clone is not: what it adds is the
entries of the space that it copies (`Copies.refs_le`).
-/
import Alix.Mm.Proofs.Backed

namespace Alix

open Paging
open Pointers

-- ==== the views

/-- No frame that two pages map is writable through either. -/
def Isolated (V : View) : Prop :=
  ∀ x y f fl fl', x ≠ y → V x = some (f, fl) → V y = some (f, fl') →
    hasFlag fl PAGE_WRITE = false

/-- Only the pages of the root `r` in `P` change. -/
def Within (r : Nat) (P : Nat → Prop) (V V' : View) : Prop :=
  ∀ x, ¬ (x.1 = r ∧ P x.2) → V' x = V x

theorem Within.refl (r : Nat) (P : Nat → Prop) (V : View) : Within r P V V :=
  fun _ _ => rfl

theorem Within.trans {r : Nat} {P Q S : Nat → Prop} {V V' V'' : View}
    (h : Within r P V V') (h' : Within r Q V' V'') (hP : ∀ n, P n → S n)
    (hQ : ∀ n, Q n → S n) : Within r S V V'' := by
  intro x hx
  rw [h' x fun e => hx ⟨e.1, hQ _ e.2⟩]
  exact h x fun e => hx ⟨e.1, hP _ e.2⟩

theorem within_update (V : View) (r n : Nat) (o : Option (Nat × Word)) :
    Within r (fun i => i = n) V (Function.update V (r, n) o) := by
  intro x hx
  refine Function.update_of_ne ?_ _ _
  rintro rfl
  exact hx ⟨rfl, rfl⟩

/-- The numbers of the pages at these addresses. -/
def Pages (vas : List Nat) (n : Nat) : Prop := ∃ va ∈ vas, va / PAGE_SIZE = n

theorem pages_nil {n : Nat} : ¬ Pages [] n := by
  intro hn
  obtain ⟨va, hva, -⟩ := hn
  cases hva

theorem pages_cons {va n : Nat} {vas : List Nat} :
    Pages (va :: vas) n ↔ va / PAGE_SIZE = n ∨ Pages vas n := by
  unfold Pages
  simp only [List.mem_cons, exists_eq_or_imp]

/-- The addresses of a loop: pages of the lower half. -/
def LowerPages (vas : List Nat) : Prop :=
  ∀ va ∈ vas, va < 2 ^ 47 ∧ va % PAGE_SIZE = 0

section isolated

variable {V V' : View} {x : Spot} {f : Nat} {fl fl' : Word}

/-- Fewer entries. -/
theorem Isolated.mono (h : Isolated V) (hsub : ∀ x, V' x = V x ∨ V' x = none) :
    Isolated V' := by
  have hold : ∀ x e, V' x = some e → V x = some e := by
    intro x e he
    rcases hsub x with hx | hx
    · rw [← hx]
      exact he
    · rw [hx] at he
      cases he
  intro x y f fl fl' hne hx hy
  exact h x y f fl fl' hne (hold x _ hx) (hold y _ hy)

/-- One entry is written: it must agree with the others of its frame. -/
theorem Isolated.set (h : Isolated V)
    (hx : ∀ y fl', y ≠ x → V y = some (f, fl') →
      hasFlag fl PAGE_WRITE = false ∧ hasFlag fl' PAGE_WRITE = false) :
    Isolated (Function.update V x (some (f, fl))) := by
  intro y z g gl gl' hne hy hz
  by_cases hyx : y = x
  · have hzx : z ≠ x := fun e => hne (hyx.trans e.symm)
    rw [hyx, Function.update_self] at hy
    rw [Function.update_of_ne hzx] at hz
    cases hy
    exact (hx z gl' hzx hz).1
  · rw [Function.update_of_ne hyx] at hy
    by_cases hzx : z = x
    · rw [hzx, Function.update_self] at hz
      cases hz
      exact (hx y gl hyx hy).2
    · rw [Function.update_of_ne hzx] at hz
      exact h y z g gl gl' hne hy hz

/-- A frame that nobody maps. -/
theorem Isolated.fresh (h : Isolated V) (hs : Sparse V.frames)
    (hf : refs V.frames f = 0) : Isolated (Function.update V x (some (f, fl))) := by
  refine h.set fun y fl' _ hy => ?_
  exact ((refs_eq_zero hs).mp hf y (View.frames_some hy)).elim

/-- A frame with one reference. -/
theorem Isolated.sole (h : Isolated V) (hs : Sparse V.frames)
    (hx : V x = some (f, fl')) (hf : refs V.frames f ≤ 1) :
    Isolated (Function.update V x (some (f, fl))) := by
  refine h.set fun y fl'' hne hy => ?_
  have hfx : V.frames x = some f := View.frames_some hx
  have := (one_lt_refs hs).mpr ⟨x, y, hfx, View.frames_some hy, hne.symm⟩
  omega

/-- The page loses its write permission. -/
theorem Isolated.guard (h : Isolated V) (hx : V x = some (f, fl'))
    (hw : hasFlag fl PAGE_WRITE = false) :
    Isolated (Function.update V x (some (f, fl))) :=
  h.set fun y _ hne hy => ⟨hw, h y x f _ _ hne hy hx⟩

end isolated

-- ==== the entries

/-- No frame has more than `N` entries. -/
def AtMost (N : Nat) (V : View) : Prop := ∀ f, refs V.frames f ≤ N

/-- The entries of a frame are at one page of their spaces. -/
def Level (V : View) : Prop :=
  ∀ x y f, V.frames x = some f → V.frames y = some f → x.2 = y.2

/-- Every entry has its frame from one at the same page. -/
theorem Level.of_same {V V' : View} (h : Level V)
    (hsame : ∀ x f, V'.frames x = some f → ∃ r, V.frames (r, x.2) = some f) : Level V' := by
  intro x y f hx hy
  obtain ⟨r, hr⟩ := hsame x f hx
  obtain ⟨q, hq⟩ := hsame y f hy
  exact h (r, x.2) (q, y.2) f hr hq

/-- A change that keeps a view isolated and level, and every bound on the
entries of a frame. -/
structure Tame (V V' : View) : Prop where
  isolated : Isolated V → Isolated V'
  level : Level V → Level V'
  atMost : ∀ N, 1 ≤ N → AtMost N V → AtMost N V'

section tame

variable {V V' V'' : View} {x : Spot} {f : Nat} {fl fl' : Word}

theorem Tame.refl (V : View) : Tame V V := ⟨id, id, fun _ _ => id⟩

theorem Tame.trans (h : Tame V V') (h' : Tame V' V'') : Tame V V'' :=
  ⟨fun hi => h'.isolated (h.isolated hi), fun hl => h'.level (h.level hl),
    fun N hN hV => h'.atMost N hN (h.atMost N hN hV)⟩

/-- The frames stay. -/
theorem Tame.of_frames (hi : Isolated V → Isolated V') (hf : V'.frames = V.frames) :
    Tame V V' := by
  refine ⟨hi, fun hl x y f => ?_, fun N _ hV f => ?_⟩
  · rw [hf]
    exact hl x y f
  · rw [hf]
    exact hV f

theorem frames_sub (hsub : ∀ x, V' x = V x ∨ V' x = none) (x : Spot) :
    V'.frames x = V.frames x ∨ V'.frames x = none := by
  unfold View.frames
  rcases hsub x with hx | hx
  · exact Or.inl (by rw [hx])
  · exact Or.inr (by rw [hx]; rfl)

/-- Fewer entries. -/
theorem Tame.mono (hs : Sparse V.frames) (hsub : ∀ x, V' x = V x ∨ V' x = none) :
    Tame V V' :=
  ⟨fun hi => hi.mono hsub,
    fun hl => hl.of_same fun x f hx => ⟨x.1, (frames_sub hsub x).elim (fun e => e ▸ hx)
      fun e => by rw [e] at hx; cases hx⟩,
    fun _ _ hV f => Nat.le_trans (refs_le hs (frames_sub hsub) f) (hV f)⟩

/-- A page gets a frame that nobody maps. -/
theorem Tame.fresh (hs : Sparse V.frames) (hf : refs V.frames f = 0) :
    Tame V (Function.update V x (some (f, fl))) := by
  refine ⟨fun hi => hi.fresh hs hf, fun hl y z g hy hz => ?_, fun N hN hV g => ?_⟩
  · rw [Books.frames_update, Option.map_some] at hy hz
    have hnone : ∀ w, V.frames w ≠ some f := (refs_eq_zero hs).mp hf
    by_cases hyx : y = x
    · by_cases hzx : z = x
      · rw [hyx, hzx]
      · rw [hyx, Function.update_self] at hy
        cases hy
        rw [Function.update_of_ne hzx] at hz
        exact (hnone z hz).elim
    · rw [Function.update_of_ne hyx] at hy
      by_cases hzx : z = x
      · rw [hzx, Function.update_self] at hz
        cases hz
        exact (hnone y hy).elim
      · rw [Function.update_of_ne hzx] at hz
        exact hl y z g hy hz
  · rw [Books.frames_update, Option.map_some]
    refine Nat.le_trans (refs_point hs x f g) ?_
    by_cases hg : g = f
    · rw [if_pos hg, hg, hf]
      exact hN
    · rw [if_neg hg]
      exact hV g

/-- New flags for one entry. -/
theorem frames_reflag (hx : V x = some (f, fl)) :
    View.frames (Function.update V x (some (f, fl'))) = V.frames := by
  rw [Books.frames_update, Option.map_some, ← View.frames_some hx, Function.update_eq_self]

end tame

/-- What `vas_clone` may do to the frames: those of the destination are
those of the source, where they change. -/
structure Copies (src dst : Nat) (V V' : View) : Prop where
  other : ∀ x, x.1 ≠ dst → V'.frames x = V.frames x
  copied : ∀ n, V'.frames (dst, n) = V.frames (dst, n)
    ∨ V'.frames (dst, n) = V.frames (src, n)

section copies

variable {src dst n f : Nat} {V V' V'' : View} {fl fl' : Word} {x : Spot}

theorem Copies.of_frames (hf : V'.frames = V.frames) : Copies src dst V V' :=
  ⟨fun x _ => congrFun hf x, fun n => Or.inl (congrFun hf (dst, n))⟩

theorem Copies.trans (hne : src ≠ dst) (h : Copies src dst V V') (h' : Copies src dst V' V'') :
    Copies src dst V V'' := by
  refine ⟨fun x hx => (h'.other x hx).trans (h.other x hx), fun n => ?_⟩
  rcases h'.copied n with he | he
  · rw [he]
    exact h.copied n
  · rw [he, h.other (src, n) hne]
    exact Or.inr rfl

/-- A page of the destination gets the frame of the source. -/
theorem copies_dst (hx : V (src, n) = some (f, fl)) :
    Copies src dst V (Function.update V (dst, n) (some (f, fl'))) := by
  refine ⟨fun x hx => ?_, fun i => ?_⟩
  · rw [Books.frames_update, Function.update_of_ne]
    rintro rfl
    exact hx rfl
  · rw [Books.frames_update]
    by_cases hi : i = n
    · rw [hi, Function.update_self, View.frames_some hx]
      exact Or.inr rfl
    · exact Or.inl (Function.update_of_ne (fun e => hi (Prod.mk.inj e).2) _ _)

/-- The copy has the frames at the pages of the source. -/
theorem Copies.level (h : Copies src dst V V') (hl : Level V) : Level V' := by
  refine hl.of_same fun x f hx => ?_
  by_cases hd : x.1 = dst
  · obtain ⟨r, n⟩ := x
    cases hd
    rcases h.copied n with he | he
    · exact ⟨r, he ▸ hx⟩
    · exact ⟨src, he ▸ hx⟩
  · exact ⟨x.1, h.other x hd ▸ hx⟩

/-- A destination that was empty adds at most the entries of the source. -/
theorem Copies.refs_le (h : Copies src dst V V') (hs : Sparse V.frames)
    (hnone : ∀ n, V (dst, n) = none) (f : Nat) :
    refs V'.frames f ≤ refs V.frames f + {n | V.frames (src, n) = some f}.ncard := by
  have hsrc : {n | V.frames (src, n) = some f}.Finite :=
    (hs.pointing f).preimage fun _ _ _ _ e => (Prod.mk.inj e).2
  have hsub : {x | V'.frames x = some f}
      ⊆ {x | V.frames x = some f} ∪ (fun n => (dst, n)) '' {n | V.frames (src, n) = some f} := by
    intro x hx
    have hx' : V'.frames x = some f := hx
    by_cases hd : x.1 = dst
    · obtain ⟨r, n⟩ := x
      cases hd
      refine Or.inr ⟨n, ?_, rfl⟩
      rcases h.copied n with he | he
      · rw [he, View.frames_none (hnone n)] at hx'
        cases hx'
      · exact he.symm.trans hx'
    · exact Or.inl ((h.other x hd).symm.trans hx')
  calc refs V'.frames f
      ≤ ({x | V.frames x = some f}
          ∪ (fun n => (dst, n)) '' {n | V.frames (src, n) = some f}).ncard :=
        Set.ncard_le_ncard hsub ((hs.pointing f).union (hsrc.image _))
    _ ≤ {x | V.frames x = some f}.ncard
          + ((fun n => (dst, n)) '' {n | V.frames (src, n) = some f}).ncard :=
        Set.ncard_union_le _ _
    _ ≤ refs V.frames f + {n | V.frames (src, n) = some f}.ncard :=
        Nat.add_le_add_left (Set.ncard_image_le hsrc) _

end copies

/-- What `vas_clone` may do to the view: pages of the destination in `P`
appear, and pages elsewhere lose permissions. -/
structure Clones (dst : Nat) (P : Nat → Prop) (V V' : View) : Prop where
  kept : ∀ x, x.1 ≠ dst → (V' x = none ↔ V x = none)
  within : ∀ x, x.1 = dst → ¬ P x.2 → V' x = V x
  guarded : ∀ x f fl, x.1 ≠ dst → V' x = some (f, fl) →
    hasFlag fl PAGE_WRITE = true → V x = some (f, fl)

theorem Clones.refl (dst : Nat) (P : Nat → Prop) (V : View) : Clones dst P V V :=
  ⟨fun _ _ => Iff.rfl, fun _ _ _ => rfl, fun _ _ _ _ hx _ => hx⟩

theorem Clones.trans {dst : Nat} {P Q S : Nat → Prop} {V V' V'' : View}
    (h : Clones dst P V V') (h' : Clones dst Q V' V'') (hP : ∀ n, P n → S n)
    (hQ : ∀ n, Q n → S n) : Clones dst S V V'' := by
  refine ⟨fun x hx => (h'.kept x hx).trans (h.kept x hx), fun x hx hn => ?_,
    fun x f fl hx hf hw => h.guarded x f fl hx (h'.guarded x f fl hx hf hw) hw⟩
  rw [h'.within x hx fun hq => hn (hQ _ hq)]
  exact h.within x hx fun hp => hn (hP _ hp)

/-- A page of the destination is written. -/
theorem clones_dst (V : View) (dst n : Nat) (o : Option (Nat × Word)) :
    Clones dst (fun i => i = n) V (Function.update V (dst, n) o) := by
  have hne : ∀ x : Spot, x.1 ≠ dst → x ≠ (dst, n) := by
    rintro x hx rfl
    exact hx rfl
  refine ⟨fun x hx => ?_, fun x _ hn => ?_, fun x f fl hx hf _ => ?_⟩
  · rw [Function.update_of_ne (hne x hx)]
  · refine Function.update_of_ne ?_ _ _
    rintro rfl
    exact hn rfl
  · rw [Function.update_of_ne (hne x hx)] at hf
    exact hf

/-- A page elsewhere loses its write permission. -/
theorem clones_src {V : View} {x : Spot} {dst f : Nat} {fl fl' : Word} (hd : x.1 ≠ dst)
    (hx : V x = some (f, fl)) (hw : hasFlag fl' PAGE_WRITE = false) (P : Nat → Prop) :
    Clones dst P V (Function.update V x (some (f, fl'))) := by
  refine ⟨fun y _ => ?_, fun y hy _ => ?_, fun y g gl hy hg hgw => ?_⟩
  · by_cases hyx : y = x
    · rw [hyx, Function.update_self, hx]
      simp
    · rw [Function.update_of_ne hyx]
  · refine Function.update_of_ne ?_ _ _
    rintro rfl
    exact hd hy
  · by_cases hyx : y = x
    · rw [hyx, Function.update_self] at hg
      cases hg
      rw [hw] at hgw
      cases hgw
    · rw [Function.update_of_ne hyx] at hg
      exact hg

-- ==== clearing and reflagging

/-- The pages of the root `r` in `P` lose their entries. -/
structure Clears (r : Nat) (P : Nat → Prop) (V V' : View) : Prop where
  within : Within r P V V'
  none : ∀ n, P n → V' (r, n) = none

/-- The entries of the pages of the root `r` in `P` get these flags. -/
structure Reflags (r : Nat) (P : Nat → Prop) (flags : Word) (V V' : View) : Prop where
  within : Within r P V V'
  set : ∀ n, P n → V' (r, n) = (V (r, n)).map fun e => (e.1, flags)

section views

variable {r : Nat} {P Q : Nat → Prop} {flags : Word} {V V' V'' : View} {x : Spot}
  {f : Nat} {fl : Word}

theorem Within.congr (h : Within r P V V') (hP : ∀ n, P n ↔ Q n) : Within r Q V V' :=
  fun x hx => h x fun e => hx ⟨e.1, (hP _).mp e.2⟩

/-- Inside or outside of what changes. -/
theorem Within.cases (h : Within r P V V') (x : Spot) :
    (∃ n, x = (r, n) ∧ P n) ∨ V' x = V x := by
  by_cases hx : x.1 = r ∧ P x.2
  · exact Or.inl ⟨x.2, Prod.ext hx.1 rfl, hx.2⟩
  · exact Or.inr (h x hx)

theorem Clears.congr (h : Clears r P V V') (hP : ∀ n, P n ↔ Q n) : Clears r Q V V' :=
  ⟨h.within.congr hP, fun n hn => h.none n ((hP n).mpr hn)⟩

theorem Clears.empty (hP : ∀ n, ¬ P n) : Clears r P V V :=
  ⟨Within.refl r P V, fun n hn => (hP n hn).elim⟩

/-- An entry stays or goes. -/
theorem Clears.sub (h : Clears r P V V') (x : Spot) : V' x = V x ∨ V' x = Option.none := by
  obtain ⟨n, rfl, hn⟩ | hx := h.within.cases x
  · exact Or.inr (h.none n hn)
  · exact Or.inl hx

theorem clears_update (V : View) (r n : Nat) :
    Clears r (fun i => i = n) V (Function.update V (r, n) none) := by
  refine ⟨within_update V r n none, fun i hi => ?_⟩
  rw [hi]
  exact Function.update_self _ _ _

theorem Clears.trans (h : Clears r P V V') (h' : Clears r Q V' V'') :
    Clears r (fun n => P n ∨ Q n) V V'' := by
  refine ⟨h.within.trans h'.within (fun _ => Or.inl) fun _ => Or.inr, fun n hn => ?_⟩
  rcases hn with hn | hn
  · rcases h'.sub (r, n) with hs | hs
    · rw [hs]
      exact h.none n hn
    · exact hs
  · exact h'.none n hn

theorem Reflags.congr (h : Reflags r P flags V V') (hP : ∀ n, P n ↔ Q n) :
    Reflags r Q flags V V' :=
  ⟨h.within.congr hP, fun n hn => h.set n ((hP n).mpr hn)⟩

theorem Reflags.empty (hP : ∀ n, ¬ P n) : Reflags r P flags V V :=
  ⟨Within.refl r P V, fun n hn => (hP n hn).elim⟩

theorem reflags_update (V : View) (r n : Nat) (flags : Word) :
    Reflags r (fun i => i = n) flags V
      (Function.update V (r, n) ((V (r, n)).map fun e => (e.1, flags))) := by
  refine ⟨within_update V r n _, fun i hi => ?_⟩
  rw [hi]
  exact Function.update_self _ _ _

theorem Reflags.trans (h : Reflags r P flags V V') (h' : Reflags r Q flags V' V'') :
    Reflags r (fun n => P n ∨ Q n) flags V V'' := by
  have htwice : ∀ o : Option (Nat × Word),
      (o.map fun e => (e.1, flags)).map (fun e => (e.1, flags))
        = o.map fun e => (e.1, flags) := by
    intro o
    cases o with
    | none => rfl
    | some e => rfl
  refine ⟨h.within.trans h'.within (fun _ => Or.inl) fun _ => Or.inr, fun n hn => ?_⟩
  obtain ⟨i, hi, hq⟩ | hsame := h'.within.cases (r, n)
  · cases hi
    rw [h'.set n hq]
    obtain ⟨j, hj, hp⟩ | hsame := h.within.cases (r, n)
    · cases hj
      rw [h.set n hp]
      exact htwice _
    · rw [hsame]
  · by_cases hp : P n
    · rw [hsame, h.set n hp]
    · rw [h'.set n (hn.resolve_left hp), h.within (r, n) fun e => hp e.2]

/-- The frames stay. -/
theorem Reflags.frames (h : Reflags r P flags V V') : V'.frames = V.frames := by
  funext x
  unfold View.frames
  obtain ⟨n, rfl, hn⟩ | hx := h.within.cases x
  · rw [h.set n hn]
    cases V (r, n) with
    | none => rfl
    | some e => rfl
  · rw [hx]

theorem Reflags.none_iff (h : Reflags r P flags V V') (x : Spot) :
    V' x = none ↔ V x = none := by
  have hframe : (V' x).map Prod.fst = (V x).map Prod.fst := congrFun h.frames x
  rw [← Option.map_eq_none_iff (f := Prod.fst), hframe, Option.map_eq_none_iff]

/-- The new flags may say "writable" only where no other page maps the
frame. -/
theorem Reflags.isolated_iff (h : Reflags r P flags V V') (hs : Sparse V.frames)
    (hi : Isolated V) :
    Isolated V' ↔ (hasFlag flags PAGE_WRITE = true → ∀ n f fl, P n →
      V (r, n) = some (f, fl) → refs V.frames f ≤ 1) := by
  constructor
  · intro hi' hw n f fl hn hx
    by_contra hc
    obtain ⟨y, z, hy, hz, hyz⟩ := (one_lt_refs hs).mp (Nat.lt_of_not_le hc)
    -- one of the two is another page
    have hother : ∃ t, t ≠ (r, n) ∧ V.frames t = some f := by
      by_cases hyn : y = (r, n)
      · exact ⟨z, fun e => hyz (hyn.trans e.symm), hz⟩
      · exact ⟨y, hyn, hy⟩
    obtain ⟨t, ht, hframe⟩ := hother
    rw [← h.frames] at hframe
    obtain ⟨e, he, hef⟩ := Option.map_eq_some_iff.mp hframe
    have hnew : V' (r, n) = some (f, flags) := by
      rw [h.set n hn, hx]
      rfl
    have hno := hi' (r, n) t f flags e.2 ht.symm hnew (by rw [he, ← hef])
    rw [hno] at hw
    cases hw
  · intro hsole x y f fl fl' hne hx hy
    have hfx : V.frames x = some f := by
      rw [← h.frames]
      exact View.frames_some hx
    have hfy : V.frames y = some f := by
      rw [← h.frames]
      exact View.frames_some hy
    obtain ⟨n, rfl, hn⟩ | hsame := h.within.cases x
    · obtain ⟨e, he, hef⟩ := Option.map_eq_some_iff.mp hfx
      rw [h.set n hn, he] at hx
      cases hx
      by_contra hw
      have hle := hsole (by simpa using hw) n e.1 e.2 hn he
      have := (one_lt_refs hs).mpr ⟨(r, n), y, hfx, hfy, hne⟩
      rw [hef] at hle
      omega
    · rw [hsame] at hx
      obtain ⟨e, he, hef⟩ := Option.map_eq_some_iff.mp hfy
      exact hi x y f fl e.2 hne hx (by rw [he, ← hef])

end views

end Alix
