/-
Who is inside.

Many contexts run at once, and each has a stack of activities: what runs
in it is the topmost one, and the others wait below it. `sec` says of an
activity whether it is inside a section, and with what. `Owned` is the
invariant of a lock around the section: nobody is inside, or one activity
of all is, wherever it lies. A step changes one stack, so there is a rule
for a step that leaves the section alone, one for each way through it
(`Owned.enter`, `Owned.change`, `Owned.leave`), and what an activity
inside says about the lock (`Owned.of_cons`).

Nothing is said about an order of the contexts, or about their number.
-/
import Mathlib.Data.List.Basic
import Mathlib.Logic.Function.Basic

namespace SpinLock

variable {C F α : Type} {sec : F → Option α} {st : C → List F} {own : Option α}
  {c : C} {fs l : List F} {a b : α}

/-- What the section holds: nothing, or what the one inside it has. -/
def Owned (sec : F → Option α) (st : C → List F) : Option α → Prop
  | none => ∀ c, (st c).filterMap sec = []
  | some a => ∃ c, (st c).filterMap sec = [a] ∧ ∀ d, d ≠ c → (st d).filterMap sec = []

/-- Where one is inside, that is what the section holds, and nobody else
is inside on that stack. -/
theorem Owned.of_cons (h : Owned sec st own) {as : List α}
    (hc : (st c).filterMap sec = a :: as) : own = some a ∧ as = [] := by
  cases own with
  | none => exact absurd (hc.symm.trans (h c)) (List.cons_ne_nil a as)
  | some b =>
      obtain ⟨d, hd, hothers⟩ := h
      by_cases hcd : c = d
      · subst hcd
        rw [hd] at hc
        injection hc with hab hnil
        exact ⟨congrArg some hab, hnil.symm⟩
      · exact absurd (hc.symm.trans (hothers c hcd)) (List.cons_ne_nil a as)

/-- On the other stacks nobody is. -/
theorem Owned.others (h : Owned sec st own) {as : List α}
    (hc : (st c).filterMap sec = a :: as) {d : C} (hd : d ≠ c) : (st d).filterMap sec = [] := by
  cases own with
  | none => exact h d
  | some b =>
      obtain ⟨e, -, hothers⟩ := h
      refine hothers d fun hde => ?_
      subst hde
      exact absurd (hc.symm.trans (hothers c (Ne.symm hd))) (List.cons_ne_nil a as)

/-- Somebody is inside if something is held. -/
theorem Owned.exists_inside (h : Owned sec st (some a)) :
    ∃ c above f below, st c = above ++ f :: below ∧ sec f = some a
      ∧ above.filterMap sec = [] := by
  obtain ⟨c, hc, -⟩ := h
  obtain ⟨above, f, below, heq, hnone, hf, -⟩ := List.filterMap_eq_cons_iff.mp hc
  exact ⟨c, above, f, below, heq, hf, List.filterMap_eq_nil_iff.mpr hnone⟩

variable [DecidableEq C]

/-- A step outside of the section. -/
theorem Owned.keep (h : Owned sec st own) (hc : fs.filterMap sec = (st c).filterMap sec) :
    Owned sec (Function.update st c fs) own := by
  have hsame : ∀ d, (Function.update st c fs d).filterMap sec = (st d).filterMap sec := by
    intro d
    by_cases hd : d = c
    · subst hd
      rw [Function.update_self, hc]
    · rw [Function.update_of_ne hd]
  cases own with
  | none => exact fun d => (hsame d).trans (h d)
  | some a =>
      obtain ⟨d, hd, hothers⟩ := h
      exact ⟨d, (hsame d).trans hd, fun e he => (hsame e).trans (hothers e he)⟩

/-- The stack of a context that goes in, while the others are outside. -/
theorem Owned.put (h : ∀ d, d ≠ c → (st d).filterMap sec = []) (hc : fs.filterMap sec = [a]) :
    Owned sec (Function.update st c fs) (some a) :=
  ⟨c, by rw [Function.update_self, hc], fun d hd => by rw [Function.update_of_ne hd, h d hd]⟩

/-- Into the section, where nobody is. -/
theorem Owned.enter (h : Owned sec st none) (hc : fs.filterMap sec = [a]) :
    Owned sec (Function.update st c fs) (some a) :=
  Owned.put (fun d _ => h d) hc

/-- A step inside. -/
theorem Owned.change (h : Owned sec st own) {as : List α} (hc : (st c).filterMap sec = a :: as)
    (hfs : fs.filterMap sec = [b]) : Owned sec (Function.update st c fs) (some b) :=
  Owned.put (fun _ hd => h.others hc hd) hfs

/-- Out of the section. -/
theorem Owned.leave (h : Owned sec st own) {as : List α} (hc : (st c).filterMap sec = a :: as)
    (hfs : fs.filterMap sec = []) : Owned sec (Function.update st c fs) none := by
  intro d
  by_cases hd : d = c
  · subst hd
    rw [Function.update_self, hfs]
  · rw [Function.update_of_ne hd, h.others hc hd]

end SpinLock
