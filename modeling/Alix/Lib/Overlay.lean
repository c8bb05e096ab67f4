/-
Partial maps laid one over the other.

`overlay` reads a list of partial maps from the back: the last one that is
defined at a point decides. That is what a sequence of writes leaves, each
of which sets a region of points and no other: `overlay_append` is one write
more, and an invariant that says "the store reads `overlay fs`" is kept by
every one of them.

A value of the overlay is the value of one of its layers, and no later layer
is defined there (`overlay_eq_some`).
-/
import Mathlib.Data.List.Induction

namespace Overlay

variable {α β : Type}

/-- The last of the maps that is defined. -/
def overlay (fs : List (α → Option β)) (a : α) : Option β :=
  fs.foldl (fun r f => (f a).or r) none

variable {fs gs : List (α → Option β)} {f : α → Option β} {a : α} {b : β}

@[simp] theorem overlay_nil : overlay ([] : List (α → Option β)) a = none := rfl

@[simp] theorem overlay_singleton : overlay [f] a = f a := Option.or_none

/-- One layer more. -/
theorem overlay_snoc : overlay (fs ++ [f]) a = (f a).or (overlay fs a) := by
  unfold overlay
  rw [List.foldl_append]
  rfl

theorem overlay_append : overlay (fs ++ gs) a = (overlay gs a).or (overlay fs a) := by
  induction gs using List.reverseRecOn with
  | nil => rw [List.append_nil, overlay_nil, Option.none_or]
  | append_singleton gs g ih =>
      rw [← List.append_assoc, overlay_snoc, ih, overlay_snoc, Option.or_assoc]

/-- A point no layer is defined at. -/
theorem overlay_eq_none : overlay fs a = none ↔ ∀ f ∈ fs, f a = none := by
  induction fs using List.reverseRecOn with
  | nil => simp
  | append_singleton fs f ih =>
      rw [overlay_snoc, Option.or_eq_none_iff, ih]
      constructor
      · rintro ⟨hf, hfs⟩ g hg
        obtain hg | hg := List.mem_append.mp hg
        · exact hfs g hg
        · rw [List.mem_singleton.mp hg]
          exact hf
      · intro h
        exact ⟨h f (by simp), fun g hg => h g (List.mem_append_left _ hg)⟩

/-- A value comes from a layer that nothing behind it hides. -/
theorem overlay_eq_some : overlay fs a = some b
    ↔ ∃ l f r, fs = l ++ f :: r ∧ f a = some b ∧ ∀ g ∈ r, g a = none := by
  constructor
  · intro h
    induction fs using List.reverseRecOn with
    | nil => cases h
    | append_singleton fs f ih =>
        rw [overlay_snoc] at h
        cases hf : f a with
        | some c =>
            rw [hf, Option.some_or] at h
            exact ⟨fs, f, [], rfl, by rw [hf, h], by simp⟩
        | none =>
            rw [hf, Option.none_or] at h
            obtain ⟨l, g, r, rfl, hg, hr⟩ := ih h
            refine ⟨l, g, r ++ [f], by simp, hg, fun k hk => ?_⟩
            obtain hk | hk := List.mem_append.mp hk
            · exact hr k hk
            · rw [List.mem_singleton.mp hk]
              exact hf
  · rintro ⟨l, f, r, rfl, hf, hr⟩
    rw [List.append_cons, overlay_append, overlay_eq_none.mpr hr, Option.none_or, overlay_snoc, hf,
      Option.some_or]

theorem exists_of_overlay (h : overlay fs a = some b) : ∃ f ∈ fs, f a = some b := by
  obtain ⟨l, f, r, rfl, hf, -⟩ := overlay_eq_some.mp h
  exact ⟨f, by simp, hf⟩

end Overlay
