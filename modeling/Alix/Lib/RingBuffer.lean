/-
A ring that keeps the end of a history.

The next value goes into the slot at the head, and the head goes on and
comes round, so a full ring loses its oldest value. `Shows` says what the
slots hold in terms of all values ever put in, and `push` keeps it
(`Shows.push`), so after any number of them the ring holds the last ones
and no others, each where its number puts it (`Shows.recent`).
-/
import Mathlib.Data.List.Basic
import Mathlib.Logic.Function.Basic

/-- The slots, the next one, and how many are filled. -/
structure RingBuffer (α : Type) where
  slot : Nat → α
  head : Nat
  count : Nat

namespace RingBuffer

variable {α : Type} {n : Nat} {r : RingBuffer α} {h : List α}

/-- One more value, in a ring of `n` slots. -/
def push (n : Nat) (r : RingBuffer α) (a : α) : RingBuffer α where
  slot := Function.update r.slot r.head a
  head := (r.head + 1) % n
  count := if r.count < n then r.count + 1 else r.count

/-- The ring from the start. -/
def clear (r : RingBuffer α) : RingBuffer α := { r with head := 0, count := 0 }

/-- The ring shows the end of a history. -/
structure Shows (n : Nat) (r : RingBuffer α) (h : List α) : Prop where
  head : r.head = h.length % n
  count : r.count = min h.length n
  slot : ∀ i, h.length ≤ i + n → ∀ a, h[i]? = some a → r.slot (i % n) = a

theorem shows_clear (n : Nat) (r : RingBuffer α) : Shows n r.clear [] where
  head := (Nat.zero_mod n).symm
  count := (Nat.zero_min n).symm
  slot := fun _ _ _ ha => by simp at ha

/-- Two numbers less than a round apart have different slots. -/
theorem slot_ne {i j : Nat} (hij : i < j) (hn : j < i + n) : i % n ≠ j % n := by
  intro heq
  have hdvd : n ∣ j - i := Nat.dvd_of_mod_eq_zero (Nat.sub_mod_eq_zero_of_mod_eq heq.symm)
  exact absurd (Nat.le_of_dvd (by omega) hdvd) (by omega)

theorem Shows.push (hs : Shows n r h) (a : α) : Shows n (push n r a) (h ++ [a]) where
  head := by
    show (r.head + 1) % n = _
    rw [hs.head, Nat.mod_add_mod, List.length_append, List.length_singleton]
  count := by
    show (if r.count < n then r.count + 1 else r.count) = _
    rw [hs.count, List.length_append, List.length_singleton]
    split <;> omega
  slot := by
    intro i hi b hb
    show Function.update r.slot r.head a (i % n) = b
    rw [List.length_append, List.length_singleton] at hi
    rw [hs.head]
    rcases Nat.lt_trichotomy i h.length with hlt | heq | hgt
    · rw [Function.update_of_ne (slot_ne hlt (by omega))]
      rw [List.getElem?_append_left hlt] at hb
      exact hs.slot i (by omega) b hb
    · subst heq
      rw [List.getElem?_concat_length] at hb
      rw [Function.update_self, Option.some.inj hb]
    · rw [List.getElem?_eq_none (by rw [List.length_append, List.length_singleton]; omega)] at hb
      cases hb

/-- The filled slots, from the oldest on. -/
def recent (n : Nat) (r : RingBuffer α) : List α :=
  (List.range r.count).map fun i => r.slot ((r.head + n - r.count + i) % n)

/-- What the ring holds are the last values, in their order. -/
theorem Shows.recent (hs : Shows n r h) : r.recent n = h.drop (h.length - n) := by
  have hlen : (r.recent n).length = (h.drop (h.length - n)).length := by
    rw [RingBuffer.recent, List.length_map, List.length_range, hs.count, List.length_drop]
    omega
  refine List.ext_getElem hlen fun i hi hi' => ?_
  rw [List.length_drop] at hi'
  have hn : 0 < n := by omega
  have hslot : (r.head + n - r.count + i) % n = (h.length - n + i) % n := by
    rw [hs.head, hs.count]
    rcases Nat.le_total n h.length with hge | hle
    · have hround := Nat.div_add_mod h.length n
      have hsub : h.length - n + i = h.length % n + i + n * (h.length / n - 1) := by
        have hq : 1 ≤ h.length / n := (Nat.one_le_div_iff hn).mpr hge
        have hmul : n * (h.length / n - 1) = n * (h.length / n) - n := by
          rw [Nat.mul_sub, Nat.mul_one]
        have hle : n ≤ n * (h.length / n) := Nat.le_mul_of_pos_right n hq
        omega
      rw [hsub, Nat.add_mul_mod_self_left, Nat.min_eq_right hge, Nat.add_sub_cancel]
    · rcases Nat.lt_or_eq_of_le hle with hlt | heq
      · rw [Nat.min_eq_left hle, Nat.mod_eq_of_lt hlt, Nat.sub_eq_zero_of_le hle]
        rw [show h.length + n - h.length + i = i + n by omega, Nat.add_mod_right, Nat.zero_add]
      · rw [heq, Nat.mod_self, Nat.min_self, Nat.zero_add, Nat.sub_self]
  have hget := hs.slot (h.length - n + i) (by omega) _ (List.getElem?_eq_getElem (by omega))
  rw [List.getElem_drop, ← hget, ← hslot]
  simp [RingBuffer.recent]

end RingBuffer
