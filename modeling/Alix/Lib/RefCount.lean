/-
Counting the pointers to an object.

A partial map `g` says where each slot points, and `refs g b` is the
number of slots that point to `b`. A reference count that is to be kept
in step with `g` needs one rule: writing a slot takes one from the object
it pointed to and gives one to the object it points to now
(`refs_set`, `refs_drop`). A slot that is pointed elsewhere is a drop and
a set.

Only finitely many slots point anywhere (`Sparse`), else there is nothing
to count.
-/
import Mathlib.Data.Set.Card
import Mathlib.Logic.Function.Basic

namespace Pointers

variable {X B : Type}

/-- How many slots point to `b`. -/
noncomputable def refs (g : X → Option B) (b : B) : Nat :=
  Set.ncard {x | g x = some b}

/-- Finitely many slots are in use. -/
def Sparse (g : X → Option B) : Prop := {x | g x ≠ none}.Finite

variable {g : X → Option B} {x : X} {b c : B}

theorem Sparse.pointing (h : Sparse g) (b : B) : {x | g x = some b}.Finite := by
  refine h.subset fun x hx => ?_
  have hx' : g x = some b := hx
  show g x ≠ none
  rw [hx']
  exact Option.some_ne_none b

theorem sparse_none : Sparse (fun _ : X => (none : Option B)) := by
  unfold Sparse
  simp

/-- An object is referred to when some slot points to it. -/
theorem refs_pos (h : Sparse g) : 0 < refs g b ↔ ∃ x, g x = some b :=
  Set.ncard_pos (h.pointing b)

theorem refs_eq_zero (h : Sparse g) : refs g b = 0 ↔ ∀ x, g x ≠ some b := by
  have hpos := refs_pos (b := b) h
  rw [← not_exists, ← hpos]
  omega

/-- Two references are two slots. -/
theorem one_lt_refs (h : Sparse g) :
    1 < refs g b ↔ ∃ x y, g x = some b ∧ g y = some b ∧ x ≠ y :=
  Set.one_lt_ncard_iff (h.pointing b)

/-- Fewer slots, fewer references. -/
theorem refs_le {g' : X → Option B} (h : Sparse g) (hsub : ∀ x, g' x = g x ∨ g' x = none)
    (b : B) : refs g' b ≤ refs g b := by
  refine Set.ncard_le_ncard (fun x hx => ?_) (h.pointing b)
  have hx' : g' x = some b := hx
  rcases hsub x with hsame | hgone
  · exact hsame.symm.trans hx'
  · rw [hgone] at hx'
    cases hx'

-- ==== writing

variable [DecidableEq X]

theorem Sparse.update (h : Sparse g) (x : X) (o : Option B) :
    Sparse (Function.update g x o) := by
  refine (Set.Finite.insert x h).subset fun y hy => ?_
  by_cases hyx : y = x
  · exact Or.inl hyx
  · have hne : Function.update g x o y ≠ none := hy
    rw [Function.update_of_ne hyx] at hne
    exact Or.inr hne

/-- A slot that pointed nowhere is set. -/
theorem refs_set [DecidableEq B] (h : Sparse g) (hx : g x = none) (c b : B) :
    refs (Function.update g x (some c)) b = refs g b + if b = c then 1 else 0 := by
  unfold refs
  by_cases hb : b = c
  · have hins : {y | Function.update g x (some c) y = some b}
        = insert x {y | g y = some b} := by
      ext y
      by_cases hy : y = x
      · simp [hy, hb]
      · simp [hy]
    have hnot : x ∉ {y | g y = some b} := by
      show ¬ g x = some b
      rw [hx]
      exact nofun
    rw [hins, Set.ncard_insert_of_notMem hnot (h.pointing b), if_pos hb]
  · have hsame : {y | Function.update g x (some c) y = some b}
        = {y | g y = some b} := by
      ext y
      by_cases hy : y = x
      · have hcb : ¬ c = b := fun e => hb e.symm
        simp [hy, hx, hcb]
      · simp [hy]
    rw [hsame, if_neg hb, Nat.add_zero]

/-- A slot is pointed at `c`, wherever it pointed. -/
theorem refs_point [DecidableEq B] (h : Sparse g) (x : X) (c b : B) :
    refs (Function.update g x (some c)) b ≤ refs g b + if b = c then 1 else 0 := by
  have hset := refs_set (h.update x none) (Function.update_self x none g) c b
  rw [Function.update_idem] at hset
  rw [hset]
  apply Nat.add_le_add_right
  apply refs_le h
  intro y
  by_cases hy : y = x
  · exact Or.inr (by rw [hy, Function.update_self])
  · exact Or.inl (Function.update_of_ne hy _ _)

/-- A slot is dropped. -/
theorem refs_drop [DecidableEq B] (h : Sparse g) (hx : g x = some c) (b : B) :
    refs g b = refs (Function.update g x none) b + if b = c then 1 else 0 := by
  have hset := refs_set (h.update x none) (Function.update_self x none g) c b
  rw [Function.update_idem] at hset
  rw [← hset]
  congr 1
  rw [← hx, Function.update_eq_self]

end Pointers
