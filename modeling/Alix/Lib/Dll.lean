/-
Intrusive doubly linked lists, over any type of nodes.

A node carries its own `next` and `prev` links, so a list is not a
value: it is a head pointer and a shape the links happen to have.
`Seg` is that shape between two ends, `IsList` the shape of a whole
list, and the rest of the file says what the pointer surgery of the
usual operations does to it. Three facts carry every use:

- a list reads the links of its own members only (`Seg.congr`), so
  surgery on one list leaves every list it shares no node with alone;
- the links of a member are its neighbours (`Seg.split`), which is what
  makes unlinking by node possible without a walk;
- the operations are list operations: `pushFront` conses, `pushBack`
  appends, `unlink` erases.

Nothing here names a particular structure: a client says how its own
record fields give `Links` and rewrites its operations to the ones
below.
-/
import Mathlib.Data.List.Induction
import Mathlib.Data.List.Nodup
import Mathlib.Logic.Function.Basic

namespace Dll

variable {ν : Type} [DecidableEq ν]

-- ==== links and surgery

/-- The two link fields of every node. -/
structure Links (ν : Type) where
  next : ν → Option ν
  prev : ν → Option ν

namespace Links

/-- Store a `next` link. -/
def setNext (l : Links ν) (x : ν) (v : Option ν) : Links ν :=
  { l with next := Function.update l.next x v }

/-- Store a `prev` link. -/
def setPrev (l : Links ν) (x : ν) (v : Option ν) : Links ν :=
  { l with prev := Function.update l.prev x v }

/-- Store a `next` link through a pointer that may be null. -/
def setNext? (l : Links ν) (o : Option ν) (v : Option ν) : Links ν :=
  match o with
  | some x => l.setNext x v
  | none => l

/-- Store a `prev` link through a pointer that may be null. -/
def setPrev? (l : Links ν) (o : Option ν) (v : Option ν) : Links ν :=
  match o with
  | some x => l.setPrev x v
  | none => l

/-- Put `x` in front of a list whose head is `head`. -/
def pushFront (l : Links ν) (head : Option ν) (x : ν) : Links ν :=
  ((l.setPrev x none).setNext x head).setPrev? head (some x)

/-- Put `x` behind a list whose tail is `tail`. -/
def pushBack (l : Links ν) (tail : Option ν) (x : ν) : Links ν :=
  ((l.setNext x none).setPrev x tail).setNext? tail (some x)

/-- Join the neighbours of `x` and clear its own links. -/
def unlink (l : Links ν) (x : ν) : Links ν :=
  (((l.setNext? (l.prev x) (l.next x)).setPrev? (l.next x) (l.prev x)).setNext
    x none).setPrev x none

@[simp] theorem setNext_next (l : Links ν) (x : ν) (v : Option ν) :
    (l.setNext x v).next = Function.update l.next x v := rfl

@[simp] theorem setNext_prev (l : Links ν) (x : ν) (v : Option ν) :
    (l.setNext x v).prev = l.prev := rfl

@[simp] theorem setPrev_next (l : Links ν) (x : ν) (v : Option ν) :
    (l.setPrev x v).next = l.next := rfl

@[simp] theorem setPrev_prev (l : Links ν) (x : ν) (v : Option ν) :
    (l.setPrev x v).prev = Function.update l.prev x v := rfl

@[simp] theorem setNext?_prev (l : Links ν) (o v : Option ν) :
    (l.setNext? o v).prev = l.prev := by
  cases o <;> rfl

@[simp] theorem setPrev?_next (l : Links ν) (o v : Option ν) :
    (l.setPrev? o v).next = l.next := by
  cases o <;> rfl

/-- A `next` store through a pointer misses every other node. -/
theorem setNext?_next_of_ne (l : Links ν) {o : Option ν} {y : ν}
    (h : o ≠ some y) (v : Option ν) : (l.setNext? o v).next y = l.next y := by
  cases o with
  | none => rfl
  | some x =>
      have hxy : y ≠ x := fun e => h (by rw [e])
      exact Function.update_of_ne hxy _ _

/-- A `prev` store through a pointer misses every other node. -/
theorem setPrev?_prev_of_ne (l : Links ν) {o : Option ν} {y : ν}
    (h : o ≠ some y) (v : Option ν) : (l.setPrev? o v).prev y = l.prev y := by
  cases o with
  | none => rfl
  | some x =>
      have hxy : y ≠ x := fun e => h (by rw [e])
      exact Function.update_of_ne hxy _ _

end Links

-- ==== segments

/-- The nodes `xs` are linked in order, between a left end `p` and a
right end `n`. -/
def Seg (l : Links ν) : Option ν → List ν → Option ν → Prop
  | _, [], _ => True
  | p, x :: xs, n =>
      l.prev x = p ∧ l.next x = xs.head?.or n ∧ Seg l (some x) xs n

/-- A whole list: linked between null ends, no node twice. -/
structure IsList (l : Links ν) (xs : List ν) : Prop where
  seg : Seg l none xs none
  nodup : xs.Nodup

omit [DecidableEq ν] in
/-- A segment reads the links of its own nodes only. -/
theorem Seg.congr {l l' : Links ν} {xs : List ν} :
    ∀ {p n : Option ν}, (∀ x ∈ xs, l'.next x = l.next x) →
      (∀ x ∈ xs, l'.prev x = l.prev x) → Seg l p xs n → Seg l' p xs n := by
  induction xs with
  | nil => intro p n _ _ _; trivial
  | cons x xs ih =>
      intro p n hn hp ⟨h1, h2, h3⟩
      refine ⟨?_, ?_, ?_⟩
      · rw [hp x List.mem_cons_self]; exact h1
      · rw [hn x List.mem_cons_self]; exact h2
      · exact ih (fun y hy => hn y (List.mem_cons_of_mem _ hy))
          (fun y hy => hp y (List.mem_cons_of_mem _ hy)) h3

omit [DecidableEq ν] in
/-- Segments concatenate at a shared seam. -/
theorem seg_append (l : Links ν) {xs ys : List ν} :
    ∀ {p n : Option ν}, Seg l p (xs ++ ys) n ↔
      Seg l p xs (ys.head?.or n) ∧ Seg l (xs.getLast?.or p) ys n := by
  induction xs with
  | nil => intro p n; simp [Seg]
  | cons x xs ih =>
      intro p n
      have hhead : (xs ++ ys).head?.or n = xs.head?.or (ys.head?.or n) := by
        cases xs <;> simp
      have hlast : (x :: xs).getLast?.or p = xs.getLast?.or (some x) := by
        cases xs with
        | nil => rfl
        | cons y xs =>
            rw [List.getLast?_cons_cons]
            cases h : (y :: xs).getLast? with
            | none => simp at h
            | some z => rfl
      simp only [List.cons_append, Seg, ih, hhead, hlast]
      tauto

omit [DecidableEq ν] in
/-- A member's links are its neighbours. -/
theorem Seg.split {l : Links ν} {pre post : List ν} {x : ν}
    (h : Seg l none (pre ++ x :: post) none) :
    l.prev x = pre.getLast? ∧ l.next x = post.head? := by
  obtain ⟨-, h1, h2, -⟩ := (seg_append l).mp h
  exact ⟨by simpa using h1, by simpa using h2⟩

/-- Rewriting the `next` of the last node moves the right end. -/
theorem Seg.setNext?_end {l : Links ν} {p n m : Option ν} {xs : List ν}
    (hnd : xs.Nodup) (h : Seg l p xs n) :
    Seg (l.setNext? xs.getLast? m) p xs m := by
  rcases xs.eq_nil_or_concat' with rfl | ⟨init, y, rfl⟩
  · trivial
  · have hy : y ∉ init := by
      intro hmem
      exact (List.nodup_append.mp hnd).2.2 y hmem y (by simp) rfl
    rw [List.getLast?_append, List.getLast?_singleton]
    rw [seg_append] at h ⊢
    refine ⟨Seg.congr ?_ (by intro x _; simp) h.1, ?_⟩
    · intro x hx
      refine Links.setNext?_next_of_ne l ?_ m
      intro e
      exact hy (by injection e with e; rw [e]; exact hx)
    · refine ⟨by simpa [Seg] using h.2.1, ?_, trivial⟩
      simp [Links.setNext?]

/-- Rewriting the `prev` of the first node moves the left end. -/
theorem Seg.setPrev?_start {l : Links ν} {p q n : Option ν} {xs : List ν}
    (hnd : xs.Nodup) (h : Seg l p xs n) :
    Seg (l.setPrev? xs.head? q) q xs n := by
  cases xs with
  | nil => trivial
  | cons x xs =>
      have hx : x ∉ xs := (List.nodup_cons.mp hnd).1
      refine ⟨by simp [Links.setPrev?], by simpa using h.2.1, ?_⟩
      refine Seg.congr (by intro y _; simp) ?_ h.2.2
      intro y hy
      refine Links.setPrev?_prev_of_ne l ?_ q
      intro e
      exact hx (by injection e with e; rw [e]; exact hy)

-- ==== the edits

omit [DecidableEq ν] in
theorem isList_nil (l : Links ν) : IsList l [] := ⟨trivial, List.nodup_nil⟩

omit [DecidableEq ν] in
/-- A list survives any edit that leaves its own nodes alone. -/
theorem IsList.congr {l l' : Links ν} {xs : List ν} (h : IsList l xs)
    (hn : ∀ x ∈ xs, l'.next x = l.next x)
    (hp : ∀ x ∈ xs, l'.prev x = l.prev x) : IsList l' xs :=
  ⟨h.seg.congr hn hp, h.nodup⟩

/-- `pushFront` conses. -/
theorem IsList.pushFront {l : Links ν} {xs : List ν} {x : ν}
    (h : IsList l xs) (hx : x ∉ xs) :
    IsList (l.pushFront xs.head? x) (x :: xs) := by
  have hne : ∀ y ∈ xs, y ≠ x := fun y hy e => hx (e ▸ hy)
  have hhead : xs.head? ≠ some x := by
    intro e
    exact hx (List.mem_of_mem_head? (by rw [e]; rfl))
  refine ⟨⟨?_, ?_, ?_⟩, List.nodup_cons.mpr ⟨hx, h.nodup⟩⟩
  · rw [Links.pushFront, Links.setPrev?_prev_of_ne _ hhead]
    simp
  · rw [Links.pushFront, Links.setPrev?_next]
    simp
  · refine Seg.setPrev?_start (p := none) h.nodup (h.seg.congr ?_ ?_)
    · intro y hy
      simp [Function.update_of_ne (hne y hy)]
    · intro y hy
      simp [Function.update_of_ne (hne y hy)]

/-- `pushBack` appends. -/
theorem IsList.pushBack {l : Links ν} {xs : List ν} {x : ν}
    (h : IsList l xs) (hx : x ∉ xs) :
    IsList (l.pushBack xs.getLast? x) (xs ++ [x]) := by
  have hne : ∀ y ∈ xs, y ≠ x := fun y hy e => hx (e ▸ hy)
  have hlast : xs.getLast? ≠ some x := by
    intro e
    exact hx (List.mem_of_mem_getLast? (by rw [e]; rfl))
  constructor
  · rw [seg_append]
    constructor
    · refine Seg.setNext?_end (n := none) h.nodup (h.seg.congr ?_ ?_)
      · intro y hy
        simp [Function.update_of_ne (hne y hy)]
      · intro y hy
        simp [Function.update_of_ne (hne y hy)]
    · refine ⟨?_, ?_, trivial⟩
      · rw [Links.pushBack, Links.setNext?_prev]
        simp
      · rw [Links.pushBack, Links.setNext?_next_of_ne _ hlast]
        simp
  · refine List.nodup_append.mpr ⟨h.nodup, List.nodup_singleton x, ?_⟩
    intro y hy z hz e
    rw [List.mem_singleton] at hz
    exact hx (by rw [← hz, ← e]; exact hy)

/-- `unlink` removes the node between its neighbours. -/
theorem IsList.unlink {l : Links ν} {pre post : List ν} {x : ν}
    (h : IsList l (pre ++ x :: post)) :
    IsList (l.unlink x) (pre ++ post) := by
  obtain ⟨hprev, hnext⟩ := h.seg.split
  obtain ⟨hpre, hxpost, hapart⟩ := List.nodup_append.mp h.nodup
  obtain ⟨hx, hpost⟩ := List.nodup_cons.mp hxpost
  have hxpre : x ∉ pre := fun hm => hapart x hm x List.mem_cons_self rfl
  have hdisj : ∀ y ∈ pre, ∀ z ∈ post, y ≠ z := fun y hy z hz =>
    hapart y hy z (List.mem_cons_of_mem _ hz)
  obtain ⟨hs1, -, -, hs2⟩ := (seg_append l).mp h.seg
  have hnd : (pre ++ post).Nodup :=
    List.nodup_append.mpr ⟨hpre, hpost, fun y hy z hz => hdisj y hy z hz⟩
  refine ⟨?_, hnd⟩
  have hhead : ∀ y ∈ pre, post.head? ≠ some y := by
    intro y hy e
    exact hdisj y hy y (List.mem_of_mem_head? (by rw [e]; rfl)) rfl
  have hlast : ∀ z ∈ post, pre.getLast? ≠ some z := by
    intro z hz e
    exact hdisj z (List.mem_of_mem_getLast? (by rw [e]; rfl)) z hz rfl
  rw [seg_append]
  constructor
  · -- the nodes before `x`: only the last one's `next` is rewritten
    have hmoved := Seg.setNext?_end (m := post.head?.or none) hpre hs1
    refine hmoved.congr ?_ ?_
    · intro y hy
      have hyx : y ≠ x := fun e => hxpre (e ▸ hy)
      simp [Links.unlink, hprev, hnext, Function.update_of_ne hyx]
    · intro y hy
      have hyx : y ≠ x := fun e => hxpre (e ▸ hy)
      have := Links.setPrev?_prev_of_ne (l.setNext? pre.getLast? post.head?)
        (hhead y hy) pre.getLast?
      simp [Links.unlink, hprev, hnext, Function.update_of_ne hyx, this]
  · -- the nodes after `x`: only the first one's `prev` is rewritten
    have hmoved := Seg.setPrev?_start (q := pre.getLast?.or none) hpost hs2
    refine hmoved.congr ?_ ?_
    · intro z hz
      have hzx : z ≠ x := fun e => hx (e ▸ hz)
      have := Links.setNext?_next_of_ne l (hlast z hz) post.head?
      simp [Links.unlink, hprev, hnext, Function.update_of_ne hzx, this]
    · intro z hz
      have hzx : z ≠ x := fun e => hx (e ▸ hz)
      cases hp : post.head? with
      | none => simp [Links.unlink, hprev, hnext, hp, Links.setPrev?,
          Function.update_of_ne hzx]
      | some w => simp [Links.unlink, hprev, hnext, hp, Links.setPrev?,
          Function.update_of_ne hzx]

/-- `unlink`, read as an erasure. -/
theorem IsList.erase {l : Links ν} {xs : List ν} {x : ν}
    (h : IsList l xs) (hx : x ∈ xs) : IsList (l.unlink x) (xs.erase x) := by
  obtain ⟨pre, post, rfl⟩ := List.append_of_mem hx
  have hxpre : x ∉ pre := by
    intro hm
    exact (List.nodup_append.mp h.nodup).2.2 x hm x List.mem_cons_self rfl
  rw [List.erase_append_right _ hxpre, List.erase_cons_head]
  exact h.unlink

/-- The head pointer that unlinking leaves: it moves only when the first
node goes. -/
theorem IsList.erase_head {l : Links ν} {xs : List ν} {x : ν}
    (h : IsList l xs) (hx : x ∈ xs) :
    (if l.prev x = none then l.next x else xs.head?) = (xs.erase x).head? := by
  obtain ⟨pre, post, rfl⟩ := List.append_of_mem hx
  obtain ⟨hprev, hnext⟩ := h.seg.split
  have hxpre : x ∉ pre := by
    intro hm
    exact (List.nodup_append.mp h.nodup).2.2 x hm x List.mem_cons_self rfl
  rw [List.erase_append_right _ hxpre, List.erase_cons_head, hprev, hnext]
  cases pre with
  | nil => simp
  | cons y pre => simp

/-- The tail pointer that unlinking leaves: it moves only when the last
node goes. -/
theorem IsList.erase_tail {l : Links ν} {xs : List ν} {x : ν}
    (h : IsList l xs) (hx : x ∈ xs) :
    (if l.next x = none then l.prev x else xs.getLast?)
      = (xs.erase x).getLast? := by
  obtain ⟨pre, post, rfl⟩ := List.append_of_mem hx
  obtain ⟨hprev, hnext⟩ := h.seg.split
  have hxpre : x ∉ pre := by
    intro hm
    exact (List.nodup_append.mp h.nodup).2.2 x hm x List.mem_cons_self rfl
  rw [List.erase_append_right _ hxpre, List.erase_cons_head, hprev, hnext]
  cases post with
  | nil => simp
  | cons y post => simp [List.getLast?_append]

-- ==== what an edit leaves alone

/-- `pushFront` writes the new node and the old head only. -/
theorem pushFront_other (l : Links ν) {head : Option ν} {x y : ν}
    (hx : y ≠ x) (hh : head ≠ some y) :
    (l.pushFront head x).next y = l.next y
      ∧ (l.pushFront head x).prev y = l.prev y := by
  constructor
  · simp [Links.pushFront, Function.update_of_ne hx]
  · rw [Links.pushFront, Links.setPrev?_prev_of_ne _ hh]
    simp [Function.update_of_ne hx]

/-- `pushBack` writes the new node and the old tail only. -/
theorem pushBack_other (l : Links ν) {tail : Option ν} {x y : ν}
    (hx : y ≠ x) (ht : tail ≠ some y) :
    (l.pushBack tail x).next y = l.next y
      ∧ (l.pushBack tail x).prev y = l.prev y := by
  constructor
  · rw [Links.pushBack, Links.setNext?_next_of_ne _ ht]
    simp [Function.update_of_ne hx]
  · simp [Links.pushBack, Function.update_of_ne hx]

/-- `unlink` writes the node and its neighbours only. -/
theorem unlink_other (l : Links ν) {x y : ν} (hx : y ≠ x)
    (hp : l.prev x ≠ some y) (hn : l.next x ≠ some y) :
    (l.unlink x).next y = l.next y ∧ (l.unlink x).prev y = l.prev y := by
  constructor
  · simp [Links.unlink, Function.update_of_ne hx,
      Links.setNext?_next_of_ne _ hp]
  · simp [Links.unlink, Function.update_of_ne hx,
      Links.setPrev?_prev_of_ne _ hn]

omit [DecidableEq ν] in
/-- The neighbours of a member are members. -/
theorem IsList.neighbour_mem {l : Links ν} {xs : List ν} {x y : ν}
    (h : IsList l xs) (hx : x ∈ xs)
    (hy : l.prev x = some y ∨ l.next x = some y) : y ∈ xs := by
  obtain ⟨pre, post, rfl⟩ := List.append_of_mem hx
  obtain ⟨hprev, hnext⟩ := h.seg.split
  rcases hy with hy | hy
  · rw [hprev] at hy
    exact List.mem_append_left _ (List.mem_of_mem_getLast? (by rw [hy]; rfl))
  · rw [hnext] at hy
    exact List.mem_append_right _
      (List.mem_cons_of_mem _ (List.mem_of_mem_head? (by rw [hy]; rfl)))

/-- Unlinking a member of one list leaves a disjoint list alone. -/
theorem IsList.unlink_frame {l : Links ν} {xs ys : List ν} {x : ν}
    (hx : IsList l xs) (hmem : x ∈ xs) (hy : IsList l ys)
    (hd : ∀ y ∈ ys, y ∉ xs) : IsList (l.unlink x) ys := by
  have hother : ∀ y ∈ ys, (l.unlink x).next y = l.next y
      ∧ (l.unlink x).prev y = l.prev y := by
    intro y hys
    refine unlink_other l (fun e => hd y hys (e ▸ hmem)) ?_ ?_
    · exact fun e => hd y hys (hx.neighbour_mem hmem (Or.inl e))
    · exact fun e => hd y hys (hx.neighbour_mem hmem (Or.inr e))
  exact hy.congr (fun y hys => (hother y hys).1) fun y hys => (hother y hys).2

/-- Pushing in front of one list leaves a disjoint list alone. -/
theorem IsList.pushFront_frame {l : Links ν} {xs ys : List ν} {x : ν}
    (hy : IsList l ys) (hxy : x ∉ ys) (hd : ∀ y ∈ ys, y ∉ xs) :
    IsList (l.pushFront xs.head? x) ys := by
  have hother : ∀ y ∈ ys, (l.pushFront xs.head? x).next y = l.next y
      ∧ (l.pushFront xs.head? x).prev y = l.prev y := by
    intro y hys
    refine pushFront_other l (fun e => hxy (e ▸ hys)) ?_
    exact fun e => hd y hys (List.mem_of_mem_head? (by rw [e]; rfl))
  exact hy.congr (fun y hys => (hother y hys).1) fun y hys => (hother y hys).2

/-- Pushing behind one list leaves a disjoint list alone. -/
theorem IsList.pushBack_frame {l : Links ν} {xs ys : List ν} {x : ν}
    (hy : IsList l ys) (hxy : x ∉ ys) (hd : ∀ y ∈ ys, y ∉ xs) :
    IsList (l.pushBack xs.getLast? x) ys := by
  have hother : ∀ y ∈ ys, (l.pushBack xs.getLast? x).next y = l.next y
      ∧ (l.pushBack xs.getLast? x).prev y = l.prev y := by
    intro y hys
    refine pushBack_other l (fun e => hxy (e ▸ hys)) ?_
    exact fun e => hd y hys (List.mem_of_mem_getLast? (by rw [e]; rfl))
  exact hy.congr (fun y hys => (hother y hys).1) fun y hys => (hother y hys).2

-- ==== walking

/-- The nodes a walk along `next` from `head` comes to. -/
inductive Reached (l : Links ν) (head : Option ν) : ν → Prop
  | head {x : ν} : head = some x → Reached l head x
  | next {x y : ν} : Reached l head x → l.next x = some y → Reached l head y

omit [DecidableEq ν] in
/-- The walk over a list comes to its members. -/
theorem IsList.reached_iff {l : Links ν} {xs : List ν} (h : IsList l xs)
    {y : ν} : Reached l xs.head? y ↔ y ∈ xs := by
  constructor
  · intro hy
    induction hy with
    | head he => exact List.mem_of_mem_head? (by rw [he]; rfl)
    | next _ hn ih =>
        obtain ⟨pre, post, rfl⟩ := List.append_of_mem ih
        rw [h.seg.split.2] at hn
        have : _ ∈ post := List.mem_of_mem_head? (by rw [hn]; rfl)
        simp [this]
  · intro hy
    obtain ⟨pre, post, rfl⟩ := List.append_of_mem hy
    clear hy
    -- by induction on what stands before the member
    induction pre using List.reverseRecOn generalizing y post with
    | nil => exact .head rfl
    | append_singleton pre x ih =>
        have hx := @ih x (y :: post) (by simpa using h)
        rw [List.append_assoc] at h ⊢
        exact .next hx h.seg.split.2

/-- The nodes along a link field, as far as the fuel goes. -/
def walk (f : ν → Option ν) : Nat → Option ν → List ν
  | _, none => []
  | 0, some _ => []
  | fuel + 1, some x => x :: walk f fuel (f x)

omit [DecidableEq ν] in
@[simp] theorem walk_none (f : ν → Option ν) (fuel : Nat) : walk f fuel none = [] := by
  cases fuel <;> rfl

omit [DecidableEq ν] in
/-- Along `next` from the head. -/
theorem Seg.walk_next {l : Links ν} {p : Option ν} {xs : List ν} {fuel : Nat}
    (h : Seg l p xs none) (hf : xs.length ≤ fuel) : walk l.next fuel xs.head? = xs := by
  induction xs generalizing p fuel with
  | nil => simp
  | cons x xs ih =>
      obtain ⟨-, hnext, hrest⟩ := h
      cases fuel with
      | zero => simp at hf
      | succ fuel =>
          show x :: walk l.next fuel (l.next x) = x :: xs
          rw [hnext, Option.or_none, ih hrest (by simpa using hf)]

omit [DecidableEq ν] in
/-- Along `prev` from the tail. -/
theorem Seg.walk_prev {l : Links ν} {n : Option ν} {xs : List ν} {fuel : Nat}
    (h : Seg l none xs n) (hf : xs.length ≤ fuel) :
    walk l.prev fuel xs.getLast? = xs.reverse := by
  induction xs using List.reverseRecOn generalizing n fuel with
  | nil => simp
  | append_singleton xs x ih =>
      obtain ⟨hrest, hprev, -, -⟩ := (seg_append l).mp h
      rw [Option.or_none] at hprev
      cases fuel with
      | zero => simp at hf
      | succ fuel =>
          have hstep : walk l.prev (fuel + 1) (xs ++ [x]).getLast?
              = x :: walk l.prev fuel (l.prev x) := by
            rw [List.getLast?_concat]
            rfl
          rw [hstep, hprev, ih hrest (by simpa using hf), List.reverse_append]
          rfl

end Dll
