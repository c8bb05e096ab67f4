/-
The queues of `lib/rq.c` as lists, over any run of their operations.

# The abstract side

A queue is a list of nodes with their data, and `RqOp.act` says what an
operation does to the lists and what it answers. The data are of any type;
the null pointer may be one of them. A run may hold several queues; a node
is pushed only while it is in none of them, and removed by node only from
the queue it is in.

# The argument

`Left` is what every operation on a queue has in common: the nodes that it
works on, the list it leaves, that the links and data of all other nodes
stay, and that a node that is not in the list any more has null links. One
lemma for each operation gives that; `Refines.left` carries it over to all
queues at once, since the others have their nodes elsewhere. The walks of
`rq_find` and `rq_clear` end by themselves, so some fuel is enough for a
run, and more does not show.
-/
import Mathlib.Data.List.Rotate
import Alix.Sys.Proofs.Rq

namespace Alix

open Dll (Links IsList Seg)
open Function (update update_self update_of_ne update_eq_self)

variable {ν δ κ : Type} [DecidableEq ν]

-- ==== operations

/-- What an operation on the nodes `S` leaves, where the queue is `L`. -/
structure Left (m m' : RqNodes ν δ) (q' : Rq ν) (S L : List ν) : Prop where
  rep : Rep m' q' L
  sub : ∀ y ∈ L, y ∈ S
  next : ∀ y, y ∉ S → m'.links.next y = m.links.next y
  prev : ∀ y, y ∉ S → m'.links.prev y = m.links.prev y
  data : ∀ y, y ∉ S → m'.data y = m.data y
  unlinked : ∀ y ∈ S, y ∉ L → m'.links.next y = none ∧ m'.links.prev y = none

namespace Left

variable {m m₁ m₂ : RqNodes ν δ} {q₁ q₂ : Rq ν} {S L L₁ L₂ : List ν} {x : ν} {d : δ}

omit [DecidableEq ν] in
/-- Two operations on the same nodes. -/
theorem trans (h : Left m m₁ q₁ S L₁) (h' : Left m₁ m₂ q₂ S L₂) : Left m m₂ q₂ S L₂ := by
  refine ⟨h'.rep, h'.sub, ?_, ?_, ?_, h'.unlinked⟩
  · intro y hy
    rw [h'.next y hy, h.next y hy]
  · intro y hy
    rw [h'.prev y hy, h.prev y hy]
  · intro y hy
    rw [h'.data y hy, h.data y hy]

/-- A node may be initialised first. -/
theorem of_nodeInit (h : Left (m.nodeInit x d) m₁ q₁ S L) (hx : x ∈ S) : Left m m₁ q₁ S L := by
  have hne : ∀ y, y ∉ S → y ≠ x := fun y hy e => hy (e ▸ hx)
  refine ⟨h.rep, h.sub, ?_, ?_, ?_, h.unlinked⟩
  · intro y hy
    rw [h.next y hy]
    simp [RqNodes.nodeInit, update_of_ne (hne y hy)]
  · intro y hy
    rw [h.prev y hy]
    simp [RqNodes.nodeInit, update_of_ne (hne y hy)]
  · intro y hy
    rw [h.data y hy]
    exact update_of_ne (hne y hy) _ _

end Left

namespace Rep

variable {m : RqNodes ν δ} {q : Rq ν} {L : List ν} {x : ν} {d : δ}

omit [DecidableEq ν] in
/-- A queue that is left alone. -/
theorem left_self (h : Rep m q L) : Left m m q L L :=
  ⟨h, fun _ hy => hy, fun _ _ => rfl, fun _ _ => rfl, fun _ _ => rfl,
    fun _ hy hn => (hn hy).elim⟩

theorem left_pushFrontNode (h : Rep m q L) (hx : x ∉ L) :
    Left m (m.pushFrontNode q x).1 (m.pushFrontNode q x).2 (x :: L) (x :: L) := by
  have hlinks : (m.pushFrontNode q x).1.links = m.links.pushFront L.head? x := by
    rw [← h.head]
    rfl
  have hother : ∀ y, y ∉ x :: L → (m.pushFrontNode q x).1.links.next y = m.links.next y
      ∧ (m.pushFrontNode q x).1.links.prev y = m.links.prev y := by
    intro y hy
    rw [List.mem_cons, not_or] at hy
    rw [hlinks]
    exact Dll.pushFront_other m.links hy.1
      fun e : L.head? = some y => hy.2 (List.mem_of_mem_head? (by rw [e]; rfl))
  refine ⟨⟨?_, rfl, ?_, ?_⟩, fun _ hy => hy, fun y hy => (hother y hy).1,
    fun y hy => (hother y hy).2, fun _ _ => rfl, fun _ hy hn => (hn hy).elim⟩
  · rw [hlinks]
    exact h.list.pushFront hx
  · show (if q.head = none then some x else q.tail) = (x :: L).getLast?
    rw [h.head, h.tail]
    cases L with
    | nil => rfl
    | cons y L => simp
  · show q.len + 1 = (x :: L).length
    rw [h.len, List.length_cons]

theorem left_pushFront (h : Rep m q L) (hx : x ∉ L) :
    Left m (m.pushFront q x d).1 (m.pushFront q x d).2 (x :: L) (x :: L) :=
  ((h.nodeInit hx).left_pushFrontNode hx).of_nodeInit List.mem_cons_self

theorem left_pushBackNode (h : Rep m q L) (hx : x ∉ L) :
    Left m (m.pushBackNode q x).1 (m.pushBackNode q x).2 (x :: L) (L ++ [x]) := by
  have hother : ∀ y, y ∉ x :: L → (m.pushBackNode q x).1.links.next y = m.links.next y
      ∧ (m.pushBackNode q x).1.links.prev y = m.links.prev y := by
    intro y hy
    rw [List.mem_cons, not_or] at hy
    have hlinks : (m.pushBackNode q x).1.links = m.links.pushBack L.getLast? x := by
      rw [← h.tail]
      rfl
    rw [hlinks]
    exact Dll.pushBack_other m.links hy.1
      fun e : L.getLast? = some y => hy.2 (List.mem_of_mem_getLast? (by rw [e]; rfl))
  refine ⟨h.pushBackNode hx, ?_, fun y hy => (hother y hy).1, fun y hy => (hother y hy).2,
    fun _ _ => rfl, ?_⟩
  · intro y hy
    simpa [or_comm] using hy
  · intro y hy hn
    exact (hn (by simpa [or_comm] using hy)).elim

theorem left_pushBack (h : Rep m q L) (hx : x ∉ L) :
    Left m (m.pushBack q x d).1 (m.pushBack q x d).2 (x :: L) (L ++ [x]) :=
  ((h.nodeInit hx).left_pushBackNode hx).of_nodeInit List.mem_cons_self

/-- Whatever unlinks a member. -/
theorem left_unlink (h : Rep m q L) (hx : x ∈ L) {m' : RqNodes ν δ} {q' : Rq ν} {L' : List ν}
    (hrep : Rep m' q' L') (hlinks : m'.links = m.links.unlink x) (hdata : m'.data = m.data)
    (hmem : ∀ y, y ∈ L' ↔ y ∈ L ∧ y ≠ x) : Left m m' q' L L' := by
  have hother : ∀ y, y ∉ L → m'.links.next y = m.links.next y
      ∧ m'.links.prev y = m.links.prev y := by
    intro y hy
    rw [hlinks]
    apply Dll.unlink_other
    · exact fun e => hy (e ▸ hx)
    · exact fun e => hy (h.list.neighbour_mem hx (Or.inl e))
    · exact fun e => hy (h.list.neighbour_mem hx (Or.inr e))
  refine ⟨hrep, fun y hy => ((hmem y).mp hy).1, fun y hy => (hother y hy).1,
    fun y hy => (hother y hy).2, fun y _ => by rw [hdata], ?_⟩
  intro y hy hn
  have hyx : y = x := by
    by_contra hne
    exact hn ((hmem y).mpr ⟨hy, hne⟩)
  rw [hlinks, hyx]
  simp [Links.unlink]

theorem left_removeNode (h : Rep m q L) (hx : x ∈ L) :
    Left m (m.removeNode q x).1 (m.removeNode q x).2 L (L.erase x) := by
  refine h.left_unlink hx (h.removeNode hx) rfl rfl fun y => ?_
  rw [h.list.nodup.mem_erase_iff]
  exact and_comm

/-- `rq_pop_front` pops the node of `rq_pop_front_node`. -/
theorem popFront_node (m : RqNodes ν δ) (q : Rq ν) :
    m.popFront q = (m.popFrontNode q).map fun p => (p.1, p.2.1, m.data p.2.2) := by
  unfold RqNodes.popFront RqNodes.popFrontNode
  cases q.head <;> rfl

theorem left_popFrontNode (h : Rep m q (x :: L)) :
    ∃ m' q', m.popFrontNode q = some (m', q', x) ∧ m'.data = m.data
      ∧ Left m m' q' (x :: L) L := by
  obtain ⟨m', q', hpop, hdata, hlinks, hrep⟩ := h.popFront_cons
  have hnode : m.popFrontNode q = some (m', q', x) := by
    rw [popFront_node] at hpop
    unfold RqNodes.popFrontNode at hpop ⊢
    rw [h.head] at hpop ⊢
    simp only [List.head?_cons, Option.map_some, Option.some.injEq, Prod.mk.injEq] at hpop ⊢
    exact ⟨hpop.1, hpop.2.1, trivial⟩
  refine ⟨m', q', hnode, hdata, h.left_unlink List.mem_cons_self hrep hlinks hdata fun y => ?_⟩
  have hx : x ∉ L := (List.nodup_cons.mp h.list.nodup).1
  constructor
  · intro hy
    exact ⟨List.mem_cons_of_mem _ hy, fun e => hx (e ▸ hy)⟩
  · rintro ⟨hy, hne⟩
    exact (List.mem_cons.mp hy).resolve_left hne

/-- The surgery of a pop at the tail is an unlink. -/
private theorem popBack_unlink (l : Links ν) {x : ν} (h : l.next x = none) :
    ((l.setNext? (l.prev x) none).setNext x none).setPrev x none = l.unlink x := by
  unfold Links.unlink
  rw [h]
  rfl

theorem left_popBackNode (h : Rep m q (L ++ [x])) :
    ∃ m' q', m.popBackNode q = some (m', q', x) ∧ m'.data = m.data
      ∧ Left m m' q' (L ++ [x]) L := by
  obtain ⟨hprev, hnext⟩ := h.list.seg.split
  have hx : x ∉ L := fun hm => (List.nodup_append.mp h.list.nodup).2.2 x hm x (by simp) rfl
  have herase : (L ++ [x]).erase x = L := by
    rw [List.erase_append_right _ hx]
    simp
  have hmem : x ∈ L ++ [x] := by simp
  unfold RqNodes.popBackNode
  rw [h.tail, List.getLast?_concat]
  refine ⟨_, _, rfl, rfl, ?_⟩
  have hrep : Rep
      { m with
        links := ((m.links.setNext? (m.links.prev x) none).setNext x none).setPrev x none }
      ⟨if m.links.prev x = none then none else q.head, m.links.prev x, q.len - 1⟩ L := by
    refine ⟨?_, ?_, hprev, ?_⟩
    · show IsList (((m.links.setNext? (m.links.prev x) none).setNext x none).setPrev x none) L
      rw [popBack_unlink m.links hnext]
      have := h.list.erase hmem
      rwa [herase] at this
    · show (if m.links.prev x = none then none else q.head) = L.head?
      rw [hprev, h.head]
      cases L with
      | nil => rfl
      | cons y L => simp
    · show q.len - 1 = L.length
      rw [h.len]
      simp
  refine h.left_unlink hmem hrep (popBack_unlink m.links hnext) rfl fun y => ?_
  constructor
  · intro hy
    exact ⟨by simp [hy], fun e => hx (e ▸ hy)⟩
  · rintro ⟨hy, hne⟩
    simpa [hne] using hy

theorem left_rotate (h : Rep m q L) :
    Left m (m.rotate q).1 (m.rotate q).2 L (L.rotate 1) ∧ (m.rotate q).1.data = m.data := by
  unfold RqNodes.rotate
  cases L with
  | nil =>
      have hlen : q.len < 2 := by
        rw [h.len]
        simp
      rw [if_pos hlen]
      exact ⟨h.left_self, rfl⟩
  | cons x L =>
      split
      · rename_i hlen
        rw [h.len, List.length_cons] at hlen
        have hL : L = [] := List.length_eq_zero_iff.mp (by omega)
        subst hL
        rw [List.rotate_singleton]
        exact ⟨h.left_self, rfl⟩
      · obtain ⟨m₁, q₁, hpop, hdata, hleft⟩ := h.left_popFrontNode
        have hx : x ∉ L := (List.nodup_cons.mp h.list.nodup).1
        rw [hpop]
        refine ⟨hleft.trans ?_, hdata⟩
        rw [List.rotate_cons_succ, List.rotate_zero]
        exact hleft.rep.left_pushBackNode hx

/-- The loop of `rq_clear` over a segment. -/
theorem clearFrom_seg {l : Links ν} {p : Option ν} (hs : Seg l p L none) (hnd : L.Nodup) :
    ∃ l', (∀ fuel, L.length ≤ fuel → RqNodes.clearFrom fuel l L.head? = some l')
      ∧ (∀ y ∈ L, l'.next y = none ∧ l'.prev y = none)
      ∧ ∀ y, y ∉ L → l'.next y = l.next y ∧ l'.prev y = l.prev y := by
  induction L generalizing l p with
  | nil => exact ⟨l, fun fuel _ => by cases fuel <;> rfl, by simp, by simp⟩
  | cons x L ih =>
      obtain ⟨-, hnext, hrest⟩ := hs
      obtain ⟨hx, hL⟩ := List.nodup_cons.mp hnd
      rw [Option.or_none] at hnext
      have hkeep : ∀ y ∈ L, y ≠ x := fun y hy e => hx (e ▸ hy)
      have hseg : Seg ((l.setNext x none).setPrev x none) (some x) L none := by
        refine hrest.congr ?_ ?_
        · intro y hy
          simp [update_of_ne (hkeep y hy)]
        · intro y hy
          simp [update_of_ne (hkeep y hy)]
      obtain ⟨l', hrun, hnull, hother⟩ := ih hseg hL
      refine ⟨l', ?_, ?_, ?_⟩
      · intro fuel hf
        cases fuel with
        | zero => simp at hf
        | succ fuel =>
            show RqNodes.clearFrom fuel _ (l.next x) = some l'
            rw [hnext]
            exact hrun fuel (by simpa using hf)
      · intro y hy
        rcases List.mem_cons.mp hy with rfl | hy
        · rw [(hother y hx).1, (hother y hx).2]
          simp
        · exact hnull y hy
      · intro y hy
        rw [List.mem_cons, not_or] at hy
        rw [(hother y hy.2).1, (hother y hy.2).2]
        simp [update_of_ne hy.1]

theorem left_clear (h : Rep m q L) :
    ∃ m' q', (∀ fuel, L.length ≤ fuel → m.clear fuel q = some (m', q')) ∧ m'.data = m.data
      ∧ Left m m' q' L [] := by
  obtain ⟨l', hrun, hnull, hother⟩ := clearFrom_seg h.list.seg h.list.nodup
  refine ⟨{ m with links := l' }, Rq.init, ?_, rfl, ⟨Dll.isList_nil _, rfl, rfl, rfl⟩,
    by simp, fun y hy => (hother y hy).1, fun y hy => (hother y hy).2, fun _ _ => rfl,
    fun y hy _ => hnull y hy⟩
  intro fuel hf
  unfold RqNodes.clear
  rw [h.head, hrun fuel hf]

omit [DecidableEq ν] in
/-- `rq_find` over a queue whose nodes carry the data `A`. -/
theorem find_pairs [DecidableEq δ] {A : List (ν × δ)} {fuel : Nat} (h : Rep m q (A.map Prod.fst))
    (hdata : ∀ p ∈ A, m.data p.1 = some p.2) (hf : A.length ≤ fuel) :
    m.findFrom d fuel q.head = some ((A.find? fun p => p.2 == d).map Prod.fst) := by
  rw [h.head]
  have hseg : ∃ p, Seg m.links p (A.map Prod.fst) none := ⟨none, h.list.seg⟩
  obtain ⟨p, hseg⟩ := hseg
  clear h
  -- over any linked tail of the list
  induction A generalizing p fuel with
  | nil => cases fuel <;> rfl
  | cons a A ih =>
      obtain ⟨-, hnext, hrest⟩ := hseg
      rw [Option.or_none] at hnext
      cases fuel with
      | zero => simp at hf
      | succ fuel =>
          show m.findFrom d (fuel + 1) (some a.1) = _
          unfold RqNodes.findFrom
          rw [hdata a List.mem_cons_self]
          by_cases ha : a.2 = d
          · simp [ha]
          · have hrec := ih (fun p hp => hdata p (List.mem_cons_of_mem _ hp))
              (by simpa using hf) (some a.1) hrest
            rw [if_neg fun e => ha (Option.some.inj e), hnext, hrec,
              List.find?_cons_of_neg (by simpa using ha)]

end Rep

-- ==== the list side

/-- The operations on the queues `κ`. -/
inductive RqOp (κ ν δ : Type) where
  | pushFront (k : κ) (node : ν) (data : δ)
  | pushBack (k : κ) (node : ν) (data : δ)
  | popFront (k : κ)
  | popBack (k : κ)
  | remove (k : κ) (data : δ)
  | removeNode (k : κ) (node : ν)
  | rotate (k : κ)
  | clear (k : κ)

/-- What an operation returns. -/
inductive RqAnswer (δ : Type) where
  | nothing
  | data (d : Option δ)
  | found (b : Bool)
deriving DecidableEq

/-- The queues as lists of nodes with their data. -/
abbrev RqLists (κ ν δ : Type) : Type := κ → List (ν × δ)

namespace RqOp

variable [DecidableEq κ] [DecidableEq δ]

/-- The queue that is worked on. -/
def queue : RqOp κ ν δ → κ
  | pushFront k _ _ | pushBack k _ _ | popFront k | popBack k | remove k _ | removeNode k _
  | rotate k | clear k => k

/-- The node that is pushed. -/
def pushed : RqOp κ ν δ → Option ν
  | pushFront _ node _ | pushBack _ node _ => some node
  | _ => none

/-- The list operation, and its answer. -/
def listOp : RqOp κ ν δ → List (ν × δ) → List (ν × δ) × RqAnswer δ
  | pushFront _ node data, L => ((node, data) :: L, .nothing)
  | pushBack _ node data, L => (L ++ [(node, data)], .nothing)
  | popFront _, L => (L.tail, .data (L.head?.map Prod.snd))
  | popBack _, L => (L.dropLast, .data (L.getLast?.map Prod.snd))
  | remove _ data, L =>
      (L.eraseP fun p => p.2 == data, .found (L.any fun p => p.2 == data))
  | removeNode _ node, L => (L.eraseP fun p => p.1 == node, .nothing)
  | rotate _, L => (L.rotate 1, .nothing)
  | clear _, _ => ([], .nothing)

/-- The operation on the lists of all queues. -/
def act (op : RqOp κ ν δ) (A : RqLists κ ν δ) : RqLists κ ν δ × RqAnswer δ :=
  let (L, answer) := op.listOp (A op.queue)
  (update A op.queue L, answer)

/-- Only a node that is in no queue is pushed, and only a node of the queue
is removed by node. -/
def Fits (A : RqLists κ ν δ) : RqOp κ ν δ → Prop
  | pushFront _ node _ | pushBack _ node _ => ∀ k, node ∉ (A k).map Prod.fst
  | removeNode k node => node ∈ (A k).map Prod.fst
  | _ => True

/-- A run of operations on the lists. -/
def actAll : List (RqOp κ ν δ) → RqLists κ ν δ → RqLists κ ν δ × List (RqAnswer δ)
  | [], A => (A, [])
  | op :: ops, A =>
      let (A, answer) := op.act A
      let (A, answers) := actAll ops A
      (A, answer :: answers)

/-- Every operation fits where it comes. -/
def AllFit : List (RqOp κ ν δ) → RqLists κ ν δ → Prop
  | [], _ => True
  | op :: ops, A => op.Fits A ∧ AllFit ops (op.act A).1

end RqOp

-- ==== the code side

/-- The nodes and the queues. -/
structure RqSys (κ ν δ : Type) where
  nodes : RqNodes ν δ
  queue : κ → Rq ν

namespace RqSys

variable [DecidableEq κ] [DecidableEq δ]

/-- Every queue after `rq_init`, over nodes that hold anything. -/
def init (nodes : RqNodes ν δ) : RqSys κ ν δ := ⟨nodes, fun _ => Rq.init⟩

/-- What an operation leaves of its queue. -/
def put (s : RqSys κ ν δ) (k : κ) (p : RqNodes ν δ × Rq ν) : RqSys κ ν δ :=
  ⟨p.1, update s.queue k p.2⟩

/-- A call, with what it returns. -/
def exec (fuel : Nat) (s : RqSys κ ν δ) : RqOp κ ν δ → Option (RqSys κ ν δ × RqAnswer δ)
  | .pushFront k node data =>
      some (s.put k (s.nodes.pushFront (s.queue k) node data), .nothing)
  | .pushBack k node data =>
      some (s.put k (s.nodes.pushBack (s.queue k) node data), .nothing)
  | .popFront k =>
      match s.nodes.popFront (s.queue k) with
      | none => some (s, .data none)
      | some (m, q, data) => some (s.put k (m, q), .data data)
  | .popBack k =>
      match s.nodes.popBack (s.queue k) with
      | none => some (s, .data none)
      | some (m, q, data) => some (s.put k (m, q), .data data)
  | .remove k data =>
      match s.nodes.remove fuel (s.queue k) data with
      | none => none
      | some (m, q, found) => some (s.put k (m, q), .found found)
  | .removeNode k node => some (s.put k (s.nodes.removeNode (s.queue k) node), .nothing)
  | .rotate k => some (s.put k (s.nodes.rotate (s.queue k)), .nothing)
  | .clear k =>
      match s.nodes.clear fuel (s.queue k) with
      | none => none
      | some p => some (s.put k p, .nothing)

/-- A run of calls. -/
def execAll (fuel : Nat) : List (RqOp κ ν δ) → RqSys κ ν δ →
    Option (RqSys κ ν δ × List (RqAnswer δ))
  | [], s => some (s, [])
  | op :: ops, s =>
      match s.exec fuel op with
      | none => none
      | some (s, answer) =>
          match execAll fuel ops s with
          | none => none
          | some (s, answers) => some (s, answer :: answers)

end RqSys

-- ==== refinement

namespace RqSys

/-- The queues are the lists `A`; `seen` are the nodes that have been
pushed. -/
structure Refines (seen : ν → Prop) (s : RqSys κ ν δ) (A : RqLists κ ν δ) : Prop where
  rep : ∀ k, Rep s.nodes (s.queue k) ((A k).map Prod.fst)
  data : ∀ k, ∀ p ∈ A k, s.nodes.data p.1 = some p.2
  apart : ∀ k j, k ≠ j → ∀ x ∈ (A k).map Prod.fst, x ∉ (A j).map Prod.fst
  unlinked : ∀ x, seen x → (∀ k, x ∉ (A k).map Prod.fst) →
    s.nodes.links.next x = none ∧ s.nodes.links.prev x = none

/-- A call does to the queues, and answers, what the operation does to the
lists. -/
def Follows [DecidableEq κ] [DecidableEq δ] (seen : ν → Prop) (s : RqSys κ ν δ)
    (A : RqLists κ ν δ) (op : RqOp κ ν δ) : Prop :=
  ∃ s', Refines seen s' (op.act A).1
    ∧ ∀ fuel, (A op.queue).length ≤ fuel → s.exec fuel op = some (s', (op.act A).2)

namespace Refines

variable [DecidableEq κ] {seen seen' : ν → Prop} {s : RqSys κ ν δ} {A : RqLists κ ν δ} {k : κ}

/-- An operation on one queue. The nodes it works on are those of the
queue, and maybe one that is in none. -/
theorem left (h : Refines seen s A) {m' : RqNodes ν δ} {q' : Rq ν} {S : List ν}
    {L : List (ν × δ)} (hleft : Left s.nodes m' q' S (L.map Prod.fst))
    (hall : ∀ x ∈ (A k).map Prod.fst, x ∈ S)
    (hapart : ∀ x ∈ S, ∀ j, j ≠ k → x ∉ (A j).map Prod.fst)
    (hdata : ∀ p ∈ L, m'.data p.1 = some p.2) (hseen : ∀ x, seen' x → seen x ∨ x ∈ S) :
    Refines seen' (s.put k (m', q')) (update A k L) := by
  have hout : ∀ j, j ≠ k → ∀ x ∈ (A j).map Prod.fst, x ∉ S := fun j hj x hx hS =>
    hapart x hS j hj hx
  have hat : update A k L k = L := update_self k L A
  have helse : ∀ j, j ≠ k → update A k L j = A j := fun j hj => update_of_ne hj L A
  refine ⟨?_, ?_, ?_, ?_⟩
  · intro j
    by_cases hj : j = k
    · subst hj
      rw [hat]
      show Rep m' (update s.queue j q' j) _
      rw [update_self]
      exact hleft.rep
    · rw [helse j hj]
      show Rep m' (update s.queue k q' j) _
      rw [update_of_ne hj]
      exact (h.rep j).congr fun y hy =>
        ⟨hleft.next y (hout j hj y hy), hleft.prev y (hout j hj y hy)⟩
  · intro j p hp
    by_cases hj : j = k
    · rw [hj, hat] at hp
      exact hdata p hp
    · rw [helse j hj] at hp
      show m'.data p.1 = _
      rw [hleft.data p.1 (hout j hj p.1 (List.mem_map_of_mem hp))]
      exact h.data j p hp
  · intro i j hij x hx
    by_cases hi : i = k
    · have hj : j ≠ k := fun e => hij (hi.trans e.symm)
      rw [hi, hat] at hx
      rw [helse j hj]
      exact hapart x (hleft.sub x hx) j hj
    · rw [helse i hi] at hx
      by_cases hj : j = k
      · rw [hj, hat]
        exact fun hL => hapart x (hleft.sub x hL) i hi hx
      · rw [helse j hj]
        exact h.apart i j hij x hx
  · intro x hx hnone
    have hL : x ∉ L.map Prod.fst := by
      have := hnone k
      rwa [hat] at this
    by_cases hS : x ∈ S
    · exact hleft.unlinked x hS hL
    · have hold : ∀ j, x ∉ (A j).map Prod.fst := by
        intro j
        by_cases hj : j = k
        · rw [hj]
          exact fun hm => hS (hall x hm)
        · have := hnone j
          rwa [helse j hj] at this
      obtain ⟨hn, hp⟩ := h.unlinked x ((hseen x hx).resolve_right hS) hold
      show m'.links.next x = none ∧ m'.links.prev x = none
      rw [hleft.next x hS, hleft.prev x hS]
      exact ⟨hn, hp⟩

/-- An operation that only works on nodes of its queue. -/
theorem inside (h : Refines seen s A) {m' : RqNodes ν δ} {q' : Rq ν} {L : List (ν × δ)}
    (hleft : Left s.nodes m' q' ((A k).map Prod.fst) (L.map Prod.fst))
    (hm : m'.data = s.nodes.data) (hL : ∀ p ∈ L, p ∈ A k)
    (hseen : ∀ x, seen' x → seen x) : Refines seen' (s.put k (m', q')) (update A k L) := by
  refine h.left hleft (fun x hx => hx) (fun x hx j hj => h.apart k j hj.symm x hx) ?_
    (fun x hx => Or.inl (hseen x hx))
  intro p hp
  rw [hm]
  exact h.data k p (hL p hp)

omit [DecidableEq ν] in
/-- A queue that stays as it is. -/
theorem same (h : Refines seen s A) {L : List (ν × δ)} (hL : L = A k)
    (hseen : ∀ x, seen' x → seen x) : Refines seen' s (update A k L) := by
  rw [hL, update_eq_self]
  exact ⟨h.rep, h.data, h.apart, fun x hx => h.unlinked x (hseen x hx)⟩

omit [DecidableEq κ] in
/-- A new node, which holds its datum. -/
theorem fresh_data (h : Refines seen s A) {x : ν} {d : δ} (hx : ∀ k, x ∉ (A k).map Prod.fst)
    (p : ν × δ) (hp : p = (x, d) ∨ p ∈ A k) :
    update s.nodes.data x (some d) p.1 = some p.2 := by
  rcases hp with rfl | hp
  · exact update_self _ _ _
  · have hne : p.1 ≠ x := fun e => hx k (e ▸ List.mem_map_of_mem hp)
    rw [update_of_ne hne]
    exact h.data k p hp

/-- Unlinking the first entry that a test picks. -/
theorem unlinked_first (h : Refines seen s A) {f : ν × δ → Bool} {p : ν × δ}
    (hp : (A k).find? f = some p) (hseen : ∀ x, seen' x → seen x) :
    Refines seen' (s.put k (s.nodes.removeNode (s.queue k) p.1))
      (update A k ((A k).eraseP f)) := by
  obtain ⟨hf, pre, post, hA, hpre⟩ := List.find?_eq_some_iff_append.mp hp
  have hpre' : ∀ a ∈ pre, ¬ f a = true := by
    intro a ha
    simpa using hpre a ha
  have herase : (A k).eraseP f = pre ++ post := by
    rw [hA, List.eraseP_append_right _ hpre', List.eraseP_cons_of_pos hf]
  have hnodes : (A k).map Prod.fst = pre.map Prod.fst ++ p.1 :: post.map Prod.fst := by
    rw [hA, List.map_append, List.map_cons]
  have hnd := (h.rep k).list.nodup
  rw [hnodes] at hnd
  have hfirst : p.1 ∉ pre.map Prod.fst := fun hm =>
    (List.nodup_append.mp hnd).2.2 p.1 hm p.1 List.mem_cons_self rfl
  have hlist : ((A k).map Prod.fst).erase p.1 = ((A k).eraseP f).map Prod.fst := by
    rw [herase, hnodes, List.erase_append_right _ hfirst, List.erase_cons_head,
      List.map_append]
  have hmem : p.1 ∈ (A k).map Prod.fst := List.mem_map_of_mem (List.mem_of_find?_eq_some hp)
  have hleft := (h.rep k).left_removeNode hmem
  rw [hlist] at hleft
  exact h.inside hleft rfl (fun a ha => List.mem_of_mem_eraseP ha) hseen

/-- A new node, at whichever end. -/
theorem entered (h : Refines seen s A) {x : ν} {d : δ} {m' : RqNodes ν δ} {q' : Rq ν}
    {L : List (ν × δ)} (hleft : Left s.nodes m' q' (x :: (A k).map Prod.fst) (L.map Prod.fst))
    (hm : m'.data = update s.nodes.data x (some d)) (hL : ∀ p ∈ L, p = (x, d) ∨ p ∈ A k)
    (hx : ∀ j, x ∉ (A j).map Prod.fst) :
    Refines (fun y => seen y ∨ some x = some y) (s.put k (m', q')) (update A k L) := by
  refine h.left hleft (fun y hy => List.mem_cons_of_mem _ hy) ?_ ?_ ?_
  · intro y hy j hj
    rcases List.mem_cons.mp hy with rfl | hy
    · exact hx j
    · exact h.apart k j hj.symm y hy
  · intro p hp
    rw [hm]
    exact h.fresh_data hx p (hL p hp)
  · rintro y (hy | hy)
    · exact Or.inl hy
    · cases hy
      exact Or.inr List.mem_cons_self

variable [DecidableEq δ]

theorem popFront_step (h : Refines seen s A) (k : κ) (hseen : ∀ x, seen' x → seen x) :
    Follows seen' s A (.popFront k) := by
  have hrep := h.rep k
  cases hA : A k with
  | nil =>
      rw [hA] at hrep
      refine ⟨s, h.same (by show (A k).tail = A k; rw [hA]; rfl) hseen, fun fuel _ => ?_⟩
      simp [RqSys.exec, hrep.popFront_nil, RqOp.act, RqOp.listOp, RqOp.queue, hA]
  | cons a L =>
      rw [hA] at hrep
      obtain ⟨m', q', hpop, hm, hleft⟩ := hrep.left_popFrontNode
      refine ⟨s.put k (m', q'), ?_, fun fuel _ => ?_⟩
      · have hleft' : Left s.nodes m' q' ((A k).map Prod.fst) ((A k).tail.map Prod.fst) := by
          rw [hA]
          exact hleft
        exact h.inside hleft' hm (fun p hp => List.mem_of_mem_tail hp) hseen
      · have hdata : s.nodes.data a.1 = some a.2 := h.data k a (by rw [hA]; simp)
        simp [RqSys.exec, Rep.popFront_node, hpop, hdata, RqOp.act, RqOp.listOp, RqOp.queue, hA]

theorem popBack_step (h : Refines seen s A) (k : κ) (hseen : ∀ x, seen' x → seen x) :
    Follows seen' s A (.popBack k) := by
  have hrep := h.rep k
  rcases (A k).eq_nil_or_concat' with hA | ⟨L, a, hA⟩
  · refine ⟨s, h.same (by show (A k).dropLast = A k; rw [hA]; rfl) hseen, fun fuel _ => ?_⟩
    have htail : (s.queue k).tail = none := by
      rw [hrep.tail, hA]
      rfl
    simp [RqSys.exec, RqNodes.popBack, RqNodes.popBackNode, htail, RqOp.act, RqOp.listOp,
      RqOp.queue, hA]
  · rw [hA, List.map_append] at hrep
    obtain ⟨m', q', hpop, hm, hleft⟩ := hrep.left_popBackNode
    refine ⟨s.put k (m', q'), ?_, fun fuel _ => ?_⟩
    · have hleft' : Left s.nodes m' q' ((A k).map Prod.fst) ((A k).dropLast.map Prod.fst) := by
        rw [hA, List.dropLast_concat, List.map_append]
        exact hleft
      exact h.inside hleft' hm (fun p hp => List.mem_of_mem_dropLast hp) hseen
    · have hdata : m'.data a.1 = some a.2 := by
        rw [hm]
        exact h.data k a (by rw [hA]; simp)
      simp [RqSys.exec, RqNodes.popBack, hpop, hdata, RqOp.act, RqOp.listOp, RqOp.queue, hA]

/-- The search settles which entry goes, or that none does. -/
theorem remove_step (h : Refines seen s A) (k : κ) (d : δ) (hseen : ∀ x, seen' x → seen x) :
    Follows seen' s A (.remove k d) := by
  have hfind := fun fuel (hf : (A k).length ≤ fuel) =>
    (h.rep k).find_pairs (d := d) (h.data k) hf
  cases hp : (A k).find? (fun p => p.2 == d) with
  | none =>
      have hno : ∀ p ∈ A k, ¬ (p.2 == d) = true := List.find?_eq_none.mp hp
      have hany : ((A k).any fun p => p.2 == d) = false := by
        simpa using hno
      refine ⟨s.put k (s.nodes, s.queue k), ?_, fun fuel hf => ?_⟩
      · have hput : s.put k (s.nodes, s.queue k) = s := by
          unfold RqSys.put
          rw [update_eq_self]
        rw [hput]
        exact h.same (List.eraseP_of_forall_not hno) hseen
      · have hrun := hfind fuel hf
        rw [hp] at hrun
        simp [RqSys.exec, RqNodes.remove, hrun, RqOp.act, RqOp.listOp, RqOp.queue, hany]
  | some p =>
      have hany : ((A k).any fun p => p.2 == d) = true := by
        have hf := List.find?_some hp
        rw [List.any_eq_true]
        exact ⟨p, List.mem_of_find?_eq_some hp, hf⟩
      refine ⟨_, h.unlinked_first hp hseen, fun fuel hf => ?_⟩
      have hrun := hfind fuel hf
      rw [hp] at hrun
      simp [RqSys.exec, RqNodes.remove, hrun, RqOp.act, RqOp.listOp, RqOp.queue, hany]

theorem removeNode_step (h : Refines seen s A) {k : κ} {x : ν} (hx : x ∈ (A k).map Prod.fst)
    (hseen : ∀ x, seen' x → seen x) : Follows seen' s A (.removeNode k x) := by
  obtain ⟨p, hmem, rfl⟩ := List.mem_map.mp hx
  have hsome : ((A k).find? fun a => a.1 == p.1).isSome := by
    rw [List.find?_isSome]
    exact ⟨p, hmem, by simp⟩
  obtain ⟨a, ha⟩ := Option.isSome_iff_exists.mp hsome
  have hap : a.1 = p.1 := by
    have := List.find?_some ha
    simpa using this
  refine ⟨_, h.unlinked_first ha hseen, fun fuel _ => ?_⟩
  rw [hap]
  rfl

theorem clear_step (h : Refines seen s A) (k : κ) (hseen : ∀ x, seen' x → seen x) :
    Follows seen' s A (.clear k) := by
  obtain ⟨m', q', hrun, hm, hleft⟩ := (h.rep k).left_clear
  refine ⟨s.put k (m', q'), h.inside (L := []) hleft hm (by simp) hseen, fun fuel hf => ?_⟩
  rw [← List.length_map (f := Prod.fst)] at hf
  have hclear := hrun fuel hf
  simp [RqSys.exec, hclear, RqOp.act, RqOp.listOp]

/-- One operation. -/
theorem step (h : Refines seen s A) (op : RqOp κ ν δ) (hfit : op.Fits A) :
    Follows (fun x => seen x ∨ op.pushed = some x) s A op := by
  have hsame : ∀ x, seen x ∨ none = some x → seen x := fun x hx =>
    hx.resolve_right (by simp)
  cases op with
  | pushFront k x d =>
      have hleft := (h.rep k).left_pushFront (d := d) (hfit k)
      exact ⟨_, h.entered (L := (x, d) :: A k) hleft rfl (fun p hp => List.mem_cons.mp hp) hfit,
        fun fuel _ => rfl⟩
  | pushBack k x d =>
      have hleft := (h.rep k).left_pushBack (d := d) (hfit k)
      rw [show (A k).map Prod.fst ++ [x] = (A k ++ [(x, d)]).map Prod.fst by simp] at hleft
      refine ⟨_, h.entered hleft rfl (fun p hp => ?_) hfit, fun fuel _ => rfl⟩
      simpa [or_comm] using hp
  | popFront k => exact h.popFront_step k hsame
  | popBack k => exact h.popBack_step k hsame
  | remove k d => exact h.remove_step k d hsame
  | removeNode k x => exact h.removeNode_step hfit hsame
  | rotate k =>
      obtain ⟨hleft, hm⟩ := (h.rep k).left_rotate
      rw [← List.map_rotate] at hleft
      exact ⟨_, h.inside hleft hm (fun p hp => List.mem_rotate.mp hp) hsame, fun fuel _ => rfl⟩
  | clear k => exact h.clear_step k hsame

/-- A run. -/
theorem run (h : Refines seen s A) (ops : List (RqOp κ ν δ)) (hfit : RqOp.AllFit ops A) :
    ∃ s', Refines (fun x => seen x ∨ ∃ op ∈ ops, op.pushed = some x) s' (RqOp.actAll ops A).1
      ∧ ∃ n, ∀ fuel, n ≤ fuel →
        s.execAll fuel ops = some (s', (RqOp.actAll ops A).2) := by
  induction ops generalizing seen s A with
  | nil =>
      refine ⟨s, ?_, 0, fun fuel _ => rfl⟩
      have hseen : (fun x => seen x ∨ ∃ op ∈ ([] : List (RqOp κ ν δ)), op.pushed = some x)
          = seen := by
        funext x
        simp
      rw [hseen]
      exact h
  | cons op ops ih =>
      obtain ⟨s₁, h₁, hexec⟩ := h.step op hfit.1
      obtain ⟨s₂, h₂, n, hrun⟩ := ih h₁ hfit.2
      refine ⟨s₂, ?_, max (A op.queue).length n, fun fuel hf => ?_⟩
      · have hseen : (fun x => (seen x ∨ op.pushed = some x) ∨ ∃ op ∈ ops, op.pushed = some x)
            = fun x => seen x ∨ ∃ o ∈ op :: ops, o.pushed = some x := by
          funext x
          simp [or_assoc]
        rw [← hseen]
        exact h₂
      · rw [Nat.max_le] at hf
        simp [RqSys.execAll, hexec fuel hf.1, hrun fuel hf.2, RqOp.actAll]

end Refines

-- ==== the results

/-- A queue that reads as the list `L`, from both ends. -/
structure Reads (s : RqSys κ ν δ) (k : κ) (L : List (ν × δ)) : Prop where
  forward : ∀ fuel, L.length ≤ fuel →
    Dll.walk s.nodes.links.next fuel (s.queue k).head = L.map Prod.fst
  backward : ∀ fuel, L.length ≤ fuel →
    Dll.walk s.nodes.links.prev fuel (s.queue k).tail = (L.map Prod.fst).reverse
  len : (s.queue k).len = L.length
  data : ∀ p ∈ L, s.nodes.data p.1 = some p.2

omit [DecidableEq ν] in
theorem Refines.reads {seen : ν → Prop} {s : RqSys κ ν δ} {A : RqLists κ ν δ}
    (h : Refines seen s A) (k : κ) : Reads s k (A k) := by
  refine ⟨?_, ?_, ?_, h.data k⟩
  · intro fuel hf
    rw [(h.rep k).head]
    exact (h.rep k).list.seg.walk_next (by simpa using hf)
  · intro fuel hf
    rw [(h.rep k).tail]
    exact (h.rep k).list.seg.walk_prev (by simpa using hf)
  · rw [(h.rep k).len, List.length_map]

/-- In every run that fits, the calls return and answer what the list
operations answer, the queues read as the lists, and every node that has
been taken out has null links. -/
theorem queues_refine [DecidableEq δ] [DecidableEq κ] (nodes : RqNodes ν δ)
    (ops : List (RqOp κ ν δ)) (hfit : RqOp.AllFit ops fun _ => []) :
    ∃ s, (∃ n, ∀ fuel, n ≤ fuel → (RqSys.init nodes).execAll fuel ops
        = some (s, (RqOp.actAll ops fun _ => []).2))
      ∧ (∀ k, Reads s k ((RqOp.actAll ops fun _ => []).1 k))
      ∧ ∀ x, (∃ op ∈ ops, op.pushed = some x) →
        (∀ k, x ∉ ((RqOp.actAll ops fun _ => []).1 k).map Prod.fst) →
        s.nodes.links.next x = none ∧ s.nodes.links.prev x = none := by
  have hstart : Refines (fun _ => False) (RqSys.init nodes : RqSys κ ν δ) fun _ => [] :=
    ⟨fun _ => ⟨Dll.isList_nil _, rfl, rfl, rfl⟩, by simp, by simp, fun _ h => h.elim⟩
  obtain ⟨s, hs, hrun⟩ := hstart.run ops hfit
  exact ⟨s, hrun, hs.reads, fun x hx hout => hs.unlinked x (Or.inr hx) hout⟩

omit [DecidableEq ν] in
/-- A queue gets a list without the node, and it is still in none. -/
theorem notMem_update {A : RqLists κ ν δ} {q : κ} {x : ν} {L : List (ν × δ)} [DecidableEq κ]
    (hL : x ∉ L.map Prod.fst) (hA : ∀ k, x ∉ (A k).map Prod.fst) (k : κ) :
    x ∉ (update A q L k).map Prod.fst := by
  by_cases hk : k = q
  · rw [hk, update_self]
    exact hL
  · rw [update_of_ne hk]
    exact hA k

/-- Two nodes with the same datum in a queue and a third one in another:
the datum is removed once, and what is left is rotated. -/
theorem queues_refine_two : ∃ s, (∃ n, ∀ fuel, n ≤ fuel →
      (RqSys.init (⟨⟨fun _ => some 9, fun _ => some 9⟩, fun _ => none⟩ : RqNodes Nat Nat)).execAll
        fuel [.pushBack 0 1 7, .pushFront 0 2 7, .pushBack 1 3 5, .pushBack 0 4 8, .remove 0 7,
          .rotate 0]
      = some (s, [.nothing, .nothing, .nothing, .nothing, .found true, .nothing]))
    ∧ Reads s 0 [(4, 8), (1, 7)] ∧ Reads s 1 [(3, 5)]
    ∧ s.nodes.links.next 2 = none ∧ s.nodes.links.prev 2 = none := by
  have hempty : ∀ x (k : Nat), x ∉ ((fun _ => [] : RqLists Nat Nat Nat) k).map Prod.fst :=
    fun _ _ => List.not_mem_nil
  obtain ⟨s, hrun, hreads, hgone⟩ := queues_refine (κ := Nat)
    (⟨⟨fun _ => some 9, fun _ => some 9⟩, fun _ => none⟩ : RqNodes Nat Nat)
    [.pushBack 0 1 7, .pushFront 0 2 7, .pushBack 1 3 5, .pushBack 0 4 8, .remove 0 7,
      .rotate 0]
    ⟨hempty 1, notMem_update (by decide) (hempty 2),
      notMem_update (by decide) (notMem_update (by decide) (hempty 3)),
      notMem_update (by decide) (notMem_update (by decide) (notMem_update (by decide) (hempty 4))),
      trivial, trivial, trivial⟩
  refine ⟨s, hrun, hreads 0, hreads 1, hgone 2 ?_ ?_⟩
  · exact ⟨.pushFront 0 2 7, List.mem_cons_of_mem _ List.mem_cons_self, rfl⟩
  · intro k
    by_cases h0 : k = 0
    · subst h0
      decide
    · by_cases h1 : k = 1
      · subst h1
        decide
      · -- no other queue has been used
        have hempty : (RqOp.actAll [.pushBack 0 1 7, .pushFront 0 2 7, .pushBack 1 3 5,
            .pushBack 0 4 8, .remove 0 7, .rotate 0]
            fun _ => ([] : List (Nat × Nat))).1 k = [] := by
          simp only [RqOp.actAll, RqOp.act, RqOp.queue, update_of_ne h0, update_of_ne h1]
        rw [hempty]
        exact List.not_mem_nil

end RqSys

end Alix
