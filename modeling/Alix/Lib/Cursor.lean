/-
A cursor over a list that grows.

A reader goes through a list in pieces and keeps the position it has come
to; meanwhile, elements are inserted behind a fixed front. Inserting
moves what is behind the front away from its position: the element the
reader had last moves to where it goes on, and it gets that one again.

What a run still has for an element is what it has read of it and what is
in front of the cursor (`due`). Reading does not change that, and an
insertion adds the element it moves over the cursor. So all elements are
read once exactly if no insertion moves an old one (`Run.once_iff`): the
k-th insertion must come before the cursor has passed the k elements
inserted until then (`Timely`).
-/
import Mathlib.Data.List.Count
import Mathlib.Data.List.Nodup

namespace Cursor

variable {κ : Type} [DecidableEq κ]

/-- A reader of `front ++ grown ++ tail`, with what has been inserted, where
it is and what it has read, and its positions at the insertions. -/
inductive Run (front tail : List κ) : List κ → Nat → List κ → List Nat → Prop
  | start : Run front tail [] 0 [] []
  | read {grown seen : List κ} {off : Nat} {log : List Nat} (m : Nat)
      (h : Run front tail grown off seen log) :
      Run front tail grown
        (off + (((front ++ (grown ++ tail)).drop off).take m).length)
        (seen ++ ((front ++ (grown ++ tail)).drop off).take m) log
  | insert {grown seen : List κ} {off : Nat} {log : List Nat} (x : κ)
      (hx : x ∉ front ++ tail) (h : Run front tail grown off seen log) :
      Run front tail (x :: grown) off seen (log ++ [off])

/-- No insertion finds the cursor behind the inserted elements. -/
def Timely (front : List κ) (log : List Nat) : Prop :=
  ∀ i off, log[i]? = some off → off ≤ front.length + i

/-- How often an element is read if the run just goes on. -/
def due (l seen : List κ) (off : Nat) (k : κ) : Nat :=
  seen.count k + (l.drop off).count k

variable {front tail grown seen : List κ} {off : Nat} {log : List Nat}

omit [DecidableEq κ] in
theorem timely_append :
    Timely front (log ++ [off])
      ↔ Timely front log ∧ off ≤ front.length + log.length := by
  constructor
  · intro h
    constructor
    · intro i o hi
      refine h i o ?_
      rw [List.getElem?_append_left (List.getElem?_eq_some_iff.mp hi).1]
      exact hi
    · exact h log.length off (by simp)
  · intro h i o hi
    by_cases hlt : i < log.length
    · rw [List.getElem?_append_left hlt] at hi
      exact h.1 i o hi
    · have hlast := (List.getElem?_eq_some_iff.mp hi).1
      rw [List.length_append, List.length_singleton] at hlast
      have hi' : i = log.length := by omega
      subst hi'
      rw [List.getElem?_concat_length] at hi
      cases hi
      exact h.2

/-- Reading makes nothing due. -/
theorem due_read (l seen : List κ) (off m : Nat) (k : κ) :
    due l (seen ++ (l.drop off).take m) (off + ((l.drop off).take m).length) k
      = due l seen off k := by
  have hsplit : (l.drop off).drop ((l.drop off).take m).length
      = (l.drop off).drop m := by
    rw [List.length_take]
    by_cases hm : m ≤ (l.drop off).length
    · rw [Nat.min_eq_left hm]
    · rw [Nat.min_eq_right (by omega), List.drop_of_length_le (Nat.le_refl _),
        List.drop_of_length_le (by omega)]
  unfold due
  rw [List.count_append, ← List.drop_drop, hsplit, Nat.add_assoc,
    ← List.count_append, List.take_append_drop]

/-- An insertion in front of the cursor makes due what it moves there. -/
theorem due_insert {ys : List κ} {x k : κ} (hx : x ≠ k) :
    due (front ++ x :: ys) seen off k
      = due (front ++ ys) seen off k
        + if front.length < off ∧ ys[off - front.length - 1]? = some k then 1
          else 0 := by
  unfold due
  by_cases hoff : front.length < off
  · obtain ⟨j, rfl⟩ : ∃ j, off = front.length + (j + 1) :=
      ⟨off - front.length - 1, by omega⟩
    rw [List.drop_append, List.drop_append,
      List.drop_of_length_le (show front.length ≤ front.length + (j + 1) by omega),
      Nat.add_sub_cancel_left, List.nil_append, List.nil_append,
      List.drop_succ_cons, Nat.add_sub_cancel]
    by_cases hlt : j < ys.length
    · rw [List.drop_eq_getElem_cons hlt, List.count_cons,
        List.getElem?_eq_getElem hlt]
      by_cases hk : ys[j] = k
      · rw [if_pos (beq_iff_eq.mpr hk), if_pos ⟨hoff, congrArg some hk⟩]
        omega
      · rw [if_neg (by simpa using hk), if_neg fun h => hk (Option.some.inj h.2)]
        omega
    · rw [List.drop_of_length_le (show ys.length ≤ j by omega),
        List.drop_of_length_le (show ys.length ≤ j + 1 by omega),
        List.getElem?_eq_none (by omega), if_neg fun h => nomatch h.2]
      rfl
  · have hle : off ≤ front.length := by omega
    rw [if_neg fun h => hoff h.1, List.drop_append_of_le_length hle,
      List.drop_append_of_le_length hle, List.count_append, List.count_append,
      List.count_cons_of_ne hx]
    omega

/-- What a run keeps. -/
structure Inv (front tail grown : List κ) (off : Nat) (seen : List κ)
    (log : List Nat) : Prop where
  off_le : off ≤ (front ++ (grown ++ tail)).length
  length : log.length = grown.length
  fresh : ∀ x ∈ grown, x ∉ front ++ tail
  once : Timely front log →
    ∀ k ∈ front ++ tail, due (front ++ (grown ++ tail)) seen off k = 1
  twice : ¬ Timely front log →
    ∃ k ∈ front ++ tail, 2 ≤ due (front ++ (grown ++ tail)) seen off k

theorem Inv.insert (h : Inv front tail grown off seen log) {x : κ}
    (hx : x ∉ front ++ tail) : Inv front tail (x :: grown) off seen (log ++ [off]) := by
  have hstep : ∀ k ∈ front ++ tail, due (front ++ (x :: grown ++ tail)) seen off k
      = due (front ++ (grown ++ tail)) seen off k
        + if front.length < off
            ∧ (grown ++ tail)[off - front.length - 1]? = some k then 1 else 0 := by
    intro k hk
    refine due_insert ?_
    rintro rfl
    exact hx hk
  refine ⟨?_, ?_, ?_, ?_, ?_⟩
  · have := h.off_le
    simp only [List.length_append, List.length_cons] at this ⊢
    omega
  · rw [List.length_append, List.length_singleton, List.length_cons, h.length]
  · intro y hy
    cases List.mem_cons.mp hy with
    | inl hy => exact hy ▸ hx
    | inr hy => exact h.fresh y hy
  -- in time: what is moved over the cursor was inserted before
  · intro htimely k hk
    obtain ⟨hlog, hoff⟩ := timely_append.mp htimely
    rw [hstep k hk, h.once hlog k hk, if_neg]
    intro hmoved
    obtain ⟨hlt, hget⟩ := hmoved
    rw [h.length] at hoff
    rw [List.getElem?_append_left (by omega)] at hget
    exact h.fresh k (List.mem_of_getElem? hget) hk
  · intro hlate
    by_cases hlog : Timely front log
    · have hoff : front.length + grown.length < off := by
        rw [← h.length]
        exact Nat.lt_of_not_le fun hle => hlate (timely_append.mpr ⟨hlog, hle⟩)
      have hle := h.off_le
      rw [List.length_append, List.length_append] at hle
      have hlt : off - front.length - 1 - grown.length < tail.length := by omega
      have hmem : tail[off - front.length - 1 - grown.length] ∈ front ++ tail :=
        List.mem_append_right _ (List.getElem_mem hlt)
      refine ⟨_, hmem, ?_⟩
      have hmoved : (grown ++ tail)[off - front.length - 1]?
          = some tail[off - front.length - 1 - grown.length] := by
        rw [List.getElem?_append_right (by omega), List.getElem?_eq_getElem hlt]
      refine Nat.le_of_eq ?_
      rw [hstep _ hmem, h.once hlog _ hmem, if_pos ⟨by omega, hmoved⟩]
    · obtain ⟨k, hk, hdue⟩ := h.twice hlog
      refine ⟨k, hk, ?_⟩
      rw [hstep k hk]
      omega

theorem Run.inv (hnodup : (front ++ tail).Nodup)
    (h : Run front tail grown off seen log) : Inv front tail grown off seen log := by
  induction h with
  | start =>
      refine ⟨Nat.zero_le _, rfl, ?_, ?_, ?_⟩
      · intro x hx
        cases hx
      · intro _ k hk
        unfold due
        rw [List.count_nil, Nat.zero_add, List.drop_zero, List.nil_append]
        exact List.count_eq_one_of_mem hnodup hk
      · intro hlate
        refine (hlate ?_).elim
        intro i o hi
        cases hi
  | @read grown seen off log m _ ih =>
      refine ⟨?_, ih.length, ih.fresh, ?_, ?_⟩
      · have := ih.off_le
        have htake := List.length_take_le m ((front ++ (grown ++ tail)).drop off)
        have htake' := List.length_take_le' m ((front ++ (grown ++ tail)).drop off)
        rw [List.length_drop] at htake'
        omega
      · intro htimely k hk
        rw [due_read]
        exact ih.once htimely k hk
      · intro hlate
        obtain ⟨k, hk, hdue⟩ := ih.twice hlate
        refine ⟨k, hk, ?_⟩
        rw [due_read]
        exact hdue
  | insert x hx _ ih => exact ih.insert hx

/-- At the end of the list every element that was there at the start has
been read once, exactly if all insertions came in time. -/
theorem Run.once_iff (hnodup : (front ++ tail).Nodup)
    (h : Run front tail grown off seen log)
    (hend : (front ++ (grown ++ tail)).drop off = []) :
    (∀ k ∈ front ++ tail, seen.count k = 1) ↔ Timely front log := by
  have hinv := h.inv hnodup
  have hdue : ∀ k, due (front ++ (grown ++ tail)) seen off k = seen.count k := by
    intro k
    unfold due
    rw [hend, List.count_nil, Nat.add_zero]
  constructor
  · intro hall
    by_contra hlate
    obtain ⟨k, hk, htwice⟩ := hinv.twice hlate
    rw [hdue, hall k hk] at htwice
    omega
  · intro htimely k hk
    rw [← hdue]
    exact hinv.once htimely k hk

end Cursor
