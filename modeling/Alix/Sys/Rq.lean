/-
The intrusive queues of `lib/rq.c`.

A queue is a head, a tail and a length; everything else is in the nodes,
which live in the structures that are queued. `RqNodes` is the store of
all nodes, so that a node that is pushed twice does here what it does in
the source: the second push overwrites the links of the first.

`rq_find` follows `next` until it finds its datum or a null link, and
`rq_clear` until a null link. Over damaged links that need not end, so
the walks take a bound on the number of nodes and answer nothing when it
runs out.
-/
import Alix.Lib.Dll

namespace Alix

open Dll (Links)

variable {ν δ : Type} [DecidableEq ν] [DecidableEq δ]

/-- The fields of every `rq_node_t`. -/
structure RqNodes (ν δ : Type) where
  links : Links ν
  data : ν → Option δ

/-- `rq_t`. -/
structure Rq (ν : Type) where
  head : Option ν
  tail : Option ν
  len : Nat

namespace Rq

/-- `rq_init`. -/
def init : Rq ν := ⟨none, none, 0⟩

/-- `rq_empty`. -/
def empty (q : Rq ν) : Bool := q.len == 0

end Rq

namespace RqNodes

/-- `rq_node_init`. -/
def nodeInit (m : RqNodes ν δ) (node : ν) (data : δ) : RqNodes ν δ :=
  { links := (m.links.setNext node none).setPrev node none
    data := Function.update m.data node (some data) }

/-- `rq_push_back_node`. -/
def pushBackNode (m : RqNodes ν δ) (q : Rq ν) (node : ν) :
    RqNodes ν δ × Rq ν :=
  let head := if q.tail = none then some node else q.head
  ({ m with links := m.links.pushBack q.tail node },
    ⟨head, some node, q.len + 1⟩)

/-- `rq_push_back`. -/
def pushBack (m : RqNodes ν δ) (q : Rq ν) (node : ν) (data : δ) :
    RqNodes ν δ × Rq ν :=
  (m.nodeInit node data).pushBackNode q node

/-- `rq_push_front_node`. -/
def pushFrontNode (m : RqNodes ν δ) (q : Rq ν) (node : ν) :
    RqNodes ν δ × Rq ν :=
  let tail := if q.head = none then some node else q.tail
  ({ m with links := m.links.pushFront q.head node },
    ⟨some node, tail, q.len + 1⟩)

/-- `rq_push_front`. -/
def pushFront (m : RqNodes ν δ) (q : Rq ν) (node : ν) (data : δ) :
    RqNodes ν δ × Rq ν :=
  (m.nodeInit node data).pushFrontNode q node

/-- `rq_pop_front`: the datum of the node that was first. -/
def popFront (m : RqNodes ν δ) (q : Rq ν) :
    Option (RqNodes ν δ × Rq ν × Option δ) :=
  match q.head with
  | none => none
  | some node =>
      let head := m.links.next node
      let tail := if head = none then none else q.tail
      let links := ((m.links.setPrev? head none).setNext node none).setPrev
        node none
      some ({ m with links }, ⟨head, tail, q.len - 1⟩, m.data node)

/-- `rq_pop_front_node`. -/
def popFrontNode (m : RqNodes ν δ) (q : Rq ν) :
    Option (RqNodes ν δ × Rq ν × ν) :=
  match q.head with
  | none => none
  | some node =>
      let head := m.links.next node
      let tail := if head = none then none else q.tail
      let links := ((m.links.setPrev? head none).setNext node none).setPrev
        node none
      some ({ m with links }, ⟨head, tail, q.len - 1⟩, node)

/-- `rq_pop_back_node`. -/
def popBackNode (m : RqNodes ν δ) (q : Rq ν) :
    Option (RqNodes ν δ × Rq ν × ν) :=
  match q.tail with
  | none => none
  | some node =>
      let tail := m.links.prev node
      let head := if tail = none then none else q.head
      let links := ((m.links.setNext? tail none).setNext node none).setPrev
        node none
      some ({ m with links }, ⟨head, tail, q.len - 1⟩, node)

/-- `rq_pop_back`: the datum of the node that was last. -/
def popBack (m : RqNodes ν δ) (q : Rq ν) :
    Option (RqNodes ν δ × Rq ν × Option δ) :=
  match m.popBackNode q with
  | none => none
  | some (m, q, node) => some (m, q, m.data node)

/-- `rq_remove_node`. -/
def removeNode (m : RqNodes ν δ) (q : Rq ν) (node : ν) :
    RqNodes ν δ × Rq ν :=
  let head := if m.links.prev node = none then m.links.next node else q.head
  let tail := if m.links.next node = none then m.links.prev node else q.tail
  ({ m with links := m.links.unlink node }, ⟨head, tail, q.len - 1⟩)

/-- The walk of `rq_find`: the node with a datum, or that there is none. -/
def findFrom (m : RqNodes ν δ) (data : δ) :
    Nat → Option ν → Option (Option ν)
  | _, none => some none
  | 0, some _ => none
  | fuel + 1, some node =>
      if m.data node = some data then some (some node)
      else m.findFrom data fuel (m.links.next node)

/-- `rq_remove`, and whether there was a node with the datum. -/
def remove (fuel : Nat) (m : RqNodes ν δ) (q : Rq ν) (data : δ) :
    Option (RqNodes ν δ × Rq ν × Bool) :=
  match m.findFrom data fuel q.head with
  | none => none
  | some none => some (m, q, false)
  | some (some node) =>
      let (m, q) := m.removeNode q node
      some (m, q, true)

/-- `rq_rotate`. A queue of two nodes or more has a first one to pop. -/
def rotate (m : RqNodes ν δ) (q : Rq ν) : RqNodes ν δ × Rq ν :=
  if q.len < 2 then (m, q)
  else
    match m.popFrontNode q with
    | none => (m, q)
    | some (m, q, node) => m.pushBackNode q node

/-- The loop of `rq_clear`. -/
def clearFrom : Nat → Links ν → Option ν → Option (Links ν)
  | _, l, none => some l
  | 0, _, some _ => none
  | fuel + 1, l, some node =>
      clearFrom fuel ((l.setNext node none).setPrev node none) (l.next node)

/-- `rq_clear`. -/
def clear (fuel : Nat) (m : RqNodes ν δ) (q : Rq ν) :
    Option (RqNodes ν δ × Rq ν) :=
  match clearFrom fuel m.links q.head with
  | none => none
  | some links => some ({ m with links }, Rq.init)

end RqNodes

end Alix
