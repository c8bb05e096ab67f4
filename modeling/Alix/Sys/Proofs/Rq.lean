/-
The queue operations of `lib/rq.c` as list operations.

`Rep` says that a queue over a store of nodes is the list `L`: linked
both ways, with its two ends and its length in the record. Each operation
has one lemma that says which list it leaves, and one that says that a
queue with no node in common is not touched.
-/
import Mathlib.Data.List.Perm.Subperm
import Alix.Sys.Rq

namespace Alix

open Dll (Links IsList)

variable {ν δ : Type} [DecidableEq ν]

/-- The queue is the list `L`. -/
structure Rep (m : RqNodes ν δ) (q : Rq ν) (L : List ν) : Prop where
  list : IsList m.links L
  head : q.head = L.head?
  tail : q.tail = L.getLast?
  len : q.len = L.length

namespace Rep

variable {m : RqNodes ν δ} {q : Rq ν} {L M : List ν} {x : ν} {d : δ}

omit [DecidableEq ν] in
/-- A queue reads the links of its own nodes. -/
theorem congr (h : Rep m q L) {m' : RqNodes ν δ}
    (hl : ∀ y ∈ L, m'.links.next y = m.links.next y
      ∧ m'.links.prev y = m.links.prev y) : Rep m' q L :=
  ⟨h.list.congr (fun y hy => (hl y hy).1) fun y hy => (hl y hy).2, h.head,
    h.tail, h.len⟩

theorem nodeInit (h : Rep m q L) (hx : x ∉ L) : Rep (m.nodeInit x d) q L := by
  refine h.congr fun y hy => ?_
  have hyx : y ≠ x := fun e => hx (by rw [← e]; exact hy)
  simp [RqNodes.nodeInit, Function.update_of_ne hyx]

/-- Pushing a node that need not be initialised. -/
theorem pushBackNode (h : Rep m q L) (hx : x ∉ L) :
    Rep (m.pushBackNode q x).1 (m.pushBackNode q x).2 (L ++ [x]) := by
  unfold RqNodes.pushBackNode
  refine ⟨?_, ?_, by simp, ?_⟩
  · show IsList (m.links.pushBack q.tail x) (L ++ [x])
    rw [h.tail]
    exact h.list.pushBack hx
  · show (if q.tail = none then some x else q.head) = (L ++ [x]).head?
    rw [h.tail, h.head]
    cases L with
    | nil => rfl
    | cons y L => simp
  · show q.len + 1 = (L ++ [x]).length
    rw [h.len, List.length_append, List.length_singleton]

theorem pushBack (h : Rep m q L) (hx : x ∉ L) :
    Rep (m.pushBack q x d).1 (m.pushBack q x d).2 (L ++ [x]) :=
  (h.nodeInit hx).pushBackNode hx

theorem pushBack_frame {q' : Rq ν} (h : Rep m q L) (hM : Rep m q' M)
    (hx : x ∉ M) (hd : ∀ y ∈ M, y ∉ L) : Rep (m.pushBack q x d).1 q' M := by
  have hi := hM.nodeInit (d := d) hx
  refine ⟨?_, hM.head, hM.tail, hM.len⟩
  show IsList ((m.nodeInit x d).links.pushBack q.tail x) M
  rw [h.tail]
  exact hi.list.pushBack_frame hx hd

theorem popFront_nil (h : Rep m q []) : m.popFront q = none := by
  unfold RqNodes.popFront
  rw [h.head]
  rfl

/-- The surgery of a pop at the head is an unlink. -/
private theorem pop_unlink (l : Links ν) {x : ν} (h : l.prev x = none) :
    ((l.setPrev? (l.next x) none).setNext x none).setPrev x none
      = l.unlink x := by
  unfold Links.unlink
  rw [h]
  rfl

/-- Popping a nonempty queue. -/
theorem popFront_cons (h : Rep m q (x :: L)) :
    ∃ m' q', m.popFront q = some (m', q', m.data x) ∧ m'.data = m.data
      ∧ m'.links = m.links.unlink x ∧ Rep m' q' L := by
  obtain ⟨hprev, hnext, -⟩ := h.list.seg
  rw [Option.or_none] at hnext
  unfold RqNodes.popFront
  rw [h.head]
  refine ⟨_, _, rfl, rfl, pop_unlink m.links hprev, ?_⟩
  refine ⟨?_, hnext, ?_, ?_⟩
  · show IsList (((m.links.setPrev? (m.links.next x) none).setNext x
      none).setPrev x none) L
    rw [pop_unlink m.links hprev]
    have := h.list.erase List.mem_cons_self
    rwa [List.erase_cons_head] at this
  · show (if m.links.next x = none then none else q.tail) = L.getLast?
    rw [hnext, h.tail]
    cases L with
    | nil => rfl
    | cons y L => simp
  · show q.len - 1 = L.length
    rw [h.len]
    simp

theorem removeNode (h : Rep m q L) (hx : x ∈ L) :
    Rep (m.removeNode q x).1 (m.removeNode q x).2 (L.erase x) := by
  unfold RqNodes.removeNode
  refine ⟨h.list.erase hx, ?_, ?_, ?_⟩
  · show (if m.links.prev x = none then m.links.next x else q.head) = _
    rw [h.head]
    exact h.list.erase_head hx
  · show (if m.links.next x = none then m.links.prev x else q.tail) = _
    rw [h.tail]
    exact h.list.erase_tail hx
  · show q.len - 1 = _
    rw [h.len, List.length_erase_of_mem hx]

/-- Unlinking in one queue leaves a disjoint one alone. -/
theorem unlink_frame {q' : Rq ν} (h : Rep m q L) (hx : x ∈ L) (hM : Rep m q' M)
    (hd : ∀ y ∈ M, y ∉ L) {m' : RqNodes ν δ}
    (hm : m'.links = m.links.unlink x) : Rep m' q' M := by
  refine ⟨?_, hM.head, hM.tail, hM.len⟩
  rw [hm]
  exact h.list.unlink_frame hx hM.list hd

end Rep

/-- `rq_find` over a queue of nodes that carry themselves. -/
theorem Rep.findFrom {m : RqNodes ν ν} {t : ν} {fuel : Nat} {q : Rq ν}
    {L : List ν} (h : Rep m q L) (hdata : ∀ x ∈ L, m.data x = some x)
    (hfuel : L.length ≤ fuel) :
    m.findFrom t fuel q.head = some (if t ∈ L then some t else none) := by
  rw [h.head]
  -- over any linked tail of the list
  have walk : ∀ (L : List ν) (p : Option ν) (fuel : Nat),
      Dll.Seg m.links p L none → (∀ x ∈ L, m.data x = some x) →
      L.length ≤ fuel →
      m.findFrom t fuel L.head? = some (if t ∈ L then some t else none) := by
    intro L
    induction L with
    | nil =>
        intro p fuel _ _ _
        cases fuel <;> rfl
    | cons x L ih =>
        intro p fuel hseg hdata hfuel
        obtain ⟨-, hnext, hrest⟩ := hseg
        rw [Option.or_none] at hnext
        cases fuel with
        | zero => simp at hfuel
        | succ fuel =>
            show m.findFrom t (fuel + 1) (some x) = _
            unfold RqNodes.findFrom
            rw [hdata x List.mem_cons_self]
            by_cases hx : x = t
            · rw [if_pos (by rw [hx]), if_pos (by rw [hx]; exact List.mem_cons_self),
                hx]
            · rw [if_neg (fun e => hx (Option.some.inj e)), hnext,
                ih (some x) fuel hrest
                  (fun y hy => hdata y (List.mem_cons_of_mem _ hy))
                  (by simpa using hfuel)]
              have hmem : t ∈ x :: L ↔ t ∈ L := by
                simp [Ne.symm hx]
              simp only [hmem]
  exact walk L none fuel h.list.seg hdata hfuel

/-- A list of distinct numbers below `n` has at most `n` of them. -/
theorem length_le_of_lt {L : List Nat} {n : Nat} (hnd : L.Nodup)
    (h : ∀ t ∈ L, t < n) : L.length ≤ n := by
  have hsub : L ⊆ List.range n := fun t ht => List.mem_range.mpr (h t ht)
  have := (hnd.subperm hsub).length_le
  simpa using this

end Alix
