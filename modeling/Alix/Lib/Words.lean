/-
Words of a list: what lies between runs of a separator.

A scanner that reads a list from the left skips separators, takes a word
up to the next one, and goes on behind it. `words_scan` is that loop as
an equation; it is all a client needs to follow such a scanner by
induction on the words.
-/
import Mathlib.Data.List.Basic
import Mathlib.Data.List.TakeWhile

namespace Words

variable {α : Type} [DecidableEq α]

/-- The nonempty pieces between separators. -/
def words (sep : α) (l : List α) : List (List α) :=
  (l.splitOn sep).filter fun w => !w.isEmpty

@[simp] theorem words_nil (sep : α) : words sep [] = [] := by
  simp [words, List.splitOn]

/-- A separator in front belongs to no word. -/
theorem words_cons_sep (sep : α) (l : List α) :
    words sep (sep :: l) = words sep l := by
  unfold words List.splitOn
  rw [List.splitOnP_cons_eq_if_modifyHead, if_pos (by simp)]
  simp

/-- Skipping separators loses no word. -/
theorem words_dropWhile (sep : α) (l : List α) :
    words sep (l.dropWhile fun x => x == sep) = words sep l := by
  induction l with
  | nil => rfl
  | cons x l ih =>
      by_cases hx : x = sep
      · subst hx
        rw [List.dropWhile_cons_of_pos (by simp), ih, words_cons_sep]
      · rw [List.dropWhile_cons_of_neg (by simpa using hx)]

/-- A word, then the words behind it. -/
theorem words_scan (sep : α) {l : List α}
    (hne : l.takeWhile (fun x => !(x == sep)) ≠ []) :
    words sep l = l.takeWhile (fun x => !(x == sep))
      :: words sep (l.dropWhile fun x => !(x == sep)) := by
  have hword : ∀ x ∈ l.takeWhile (fun x => !(x == sep)), (x == sep) = false := by
    intro x hx
    have := List.mem_takeWhile_imp hx
    simpa using this
  have hsplit := List.takeWhile_append_dropWhile (p := fun x => !(x == sep)) (l := l)
  generalize l.takeWhile (fun x => !(x == sep)) = w at hne hword hsplit ⊢
  have hrest : ∀ x ∈ (l.dropWhile fun x => !(x == sep)).head?, x = sep := by
    intro x hx
    have := List.head?_dropWhile_not (fun x => !(x == sep)) l
    rw [hx] at this
    simpa using this
  generalize (l.dropWhile fun x => !(x == sep)) = rest at hsplit hrest ⊢
  rw [← hsplit]
  cases rest with
  | nil =>
      unfold words List.splitOn
      rw [List.append_nil, List.splitOnP_eq_singleton hword]
      simp [hne]
  | cons x rest =>
      have hx := hrest x (by simp)
      subst hx
      rw [words_cons_sep]
      unfold words List.splitOn
      rw [List.splitOnP_append_cons_of_forall_mem hword x (by simp) rest]
      simp [hne]

/-- No word contains the separator, and none is empty. -/
theorem words_spec {sep : α} {l w : List α} (h : w ∈ words sep l) : w ≠ [] ∧ sep ∉ w := by
  have hpieces : ∀ l : List α, ∀ w ∈ l.splitOn sep, sep ∉ w := by
    intro l
    induction l with
    | nil => simp
    | cons x l ih =>
        intro w hw
        rw [List.splitOn_cons_eq_if_modifyHead] at hw
        by_cases hx : x = sep
        · simp only [hx, beq_self_eq_true, if_true, List.mem_cons] at hw
          rcases hw with hnil | hw
          · simp [hnil]
          · exact ih w hw
        · rw [if_neg (by simpa using hx)] at hw
          cases hl : l.splitOn sep with
          | nil => exact absurd hl (List.splitOn_ne_nil sep l)
          | cons v rest =>
              rw [hl, List.modifyHead_cons, List.mem_cons] at hw
              rw [hl] at ih
              rcases hw with hw | hw
              · have hv := ih v List.mem_cons_self
                rw [hw, List.mem_cons, not_or]
                exact ⟨fun e => hx e.symm, hv⟩
              · exact ih w (List.mem_cons_of_mem _ hw)
  obtain ⟨hw, hne⟩ := List.mem_filter.mp h
  exact ⟨by simpa using hne, hpieces l w hw⟩

end Words
