/-
What every run of tmpfs calls keeps: each instance is a tree, and its
counters count.

`Consistent s v` is the property of one instance `v`. Its nodes are the
ones that carry its number; the parent pointers invert the child lists
and lead to the root; `node_count` and `byte_count` are the number of
nodes and the sum of the file sizes. A call works on one instance, so
the others are framed (`Consistent.congr`), and on its own instance it
either adds a node (`Consistent.add`) or changes a size
(`Consistent.resize`).

The counters have 64 bits. They are exact because nodes and buffers are
live allocations, disjoint in one address space: `Fits` is that bound, and
a run reaches no state without it.
-/
import Alix.Fs.Files
import Mathlib.Algebra.BigOperators.Group.Finset.Basic
import Mathlib.Algebra.Order.BigOperators.Group.Finset
import Mathlib.Logic.Relation

namespace Alix.Tmpfs

-- ==== the invariant

/-- The nodes of an instance. -/
def nodesOf (s : Tmpfs) (v : Nat) : Finset Nat :=
  (Finset.range s.fs.count).filter fun n => (s.file n).vfs = v

/-- Its regular files. -/
def filesOf (s : Tmpfs) (v : Nat) : Finset Nat :=
  (s.nodesOf v).filter fun n => (s.fs.nodes n).type = .reg

theorem mem_nodesOf {s : Tmpfs} {v n : Nat} :
    n ∈ s.nodesOf v ↔ n < s.fs.count ∧ (s.file n).vfs = v := by
  simp [nodesOf]

/-- One instance is a tree with exact counters. -/
structure Consistent (s : Tmpfs) (v : Nat) : Prop where
  root_mem : (s.supers v).root ∈ s.nodesOf v
  root_dir : (s.fs.nodes (s.supers v).root).type = .dir
  /-- parent pointers invert the child lists -/
  parent_iff : ∀ p c, p ∈ s.nodesOf v ∧ c ∈ (s.fs.nodes p).children
    ↔ c ∈ s.nodesOf v ∧ (s.fs.nodes c).parent = some p
  /-- the root alone has no parent, and every node leads to it -/
  top : ∀ n ∈ s.nodesOf v, (s.fs.nodes n).parent = none ↔ n = (s.supers v).root
  rooted : ∀ n ∈ s.nodesOf v, Relation.ReflTransGen
    (fun c p => c ∈ s.nodesOf v ∧ (s.fs.nodes c).parent = some p)
    n (s.supers v).root
  dirs : ∀ n ∈ s.nodesOf v, (s.fs.nodes n).children ≠ [] →
    (s.fs.nodes n).type = .dir
  names : ∀ p ∈ s.nodesOf v,
    ((s.fs.nodes p).children.map fun c => (s.fs.nodes c).name).Nodup
  name_le : ∀ n ∈ s.nodesOf v, (s.fs.nodes n).name.length ≤ NAME_MAX
  inode_lt : ∀ n ∈ s.nodesOf v, (s.file n).inode < (s.supers v).nextInode
  inode_inj : ∀ n ∈ s.nodesOf v, ∀ m ∈ s.nodesOf v,
    (s.file n).inode = (s.file m).inode → n = m
  nodeCount : (s.supers v).nodeCount = (s.nodesOf v).card
  size_le : ∀ n ∈ s.nodesOf v, (s.file n).size ≤ (s.file n).capacity
  byteCount : (s.supers v).byteCount = ∑ n ∈ s.filesOf v, (s.file n).size

/-- Nodes and buffers fit a 64-bit address space; a node takes more than
the eight bytes of its inode number. -/
def Fits (s : Tmpfs) : Prop :=
  8 * s.fs.count + ∑ n ∈ Finset.range s.fs.count, (s.file n).capacity ≤ 2 ^ 64

/-- The states a run reaches from an empty store. A call gets pointers to
nodes. -/
inductive Reachable : Tmpfs → Prop
  | init : Reachable empty
  | mount {s s' : Tmpfs} (ok : Bool) : Reachable s → s.tmpfsMount ok = some s' →
      Fits s' → Reachable s'
  | create {s s' : Tmpfs} {n : Nat} (parent : Option Nat) (name : Option CStr)
      (attr : Option Mode) (type : Mode) (result ok : Bool) : Reachable s →
      (∀ p, parent = some p → p < s.fs.count) →
      s.tmpfsCreate parent name attr type result ok = .ok (s', n) →
      Fits s' → Reachable s'
  | opened {s : Tmpfs} (node : Option Nat) (flags : BitVec 32) : Reachable s →
      (∀ n, node = some n → n < s.fs.count) →
      Reachable (s.tmpfsOpen node flags).1
  | write {s s' : Tmpfs} {rc : Int} (node : Option Nat)
      (buffer : Option (List UInt8)) (size offset : Nat) (flags : BitVec 32)
      (ok : Bool) : Reachable s → (∀ n, node = some n → n < s.fs.count) →
      (∀ n, node = some n → s.writeOffset n offset flags + size < 2 ^ 64) →
      s.tmpfsWrite node buffer size offset flags ok = some (s', rc) →
      Fits s' → Reachable s'
  | lookup {s s' : Tmpfs} {found : Fs.Found} (start : Option Nat)
      (path : Option CStr) (flags : BitVec 32) : Reachable s →
      s.vfsLookup start path flags = .ok (s', found) → Reachable s'

/-- What a run keeps. -/
structure Inv (s : Tmpfs) : Prop where
  vfs_lt : ∀ n, n < s.fs.count → (s.file n).vfs < s.superCount
  each : ∀ v, v < s.superCount → Consistent s v
  next : ∀ v, v < s.superCount →
    (s.supers v).nextInode = (s.nodesOf v).card + 1
  fits : Fits s

variable {s s' : Tmpfs} {v : Nat}

/-- What `Consistent` reads of an instance. -/
structure SameOn (s s' : Tmpfs) (v : Nat) : Prop where
  nodes : s'.nodesOf v = s.nodesOf v
  super : s'.supers v = s.supers v
  shape : ∀ n ∈ s.nodesOf v, (s'.fs.nodes n).type = (s.fs.nodes n).type
    ∧ (s'.fs.nodes n).parent = (s.fs.nodes n).parent
    ∧ (s'.fs.nodes n).children = (s.fs.nodes n).children
    ∧ (s'.fs.nodes n).name = (s.fs.nodes n).name
  file : ∀ n ∈ s.nodesOf v, s'.file n = s.file n

/-- The children of a node belong to its instance. -/
theorem Consistent.child_mem (h : Consistent s v) {p c : Nat} (hp : p ∈ s.nodesOf v)
    (hc : c ∈ (s.fs.nodes p).children) : c ∈ s.nodesOf v :=
  ((h.parent_iff p c).mp ⟨hp, hc⟩).1

/-- A call on another instance is not seen. -/
theorem Consistent.congr (h : Consistent s v) (e : SameOn s s' v) :
    Consistent s' v := by
  have hfiles : s'.filesOf v = s.filesOf v := by
    unfold filesOf
    rw [e.nodes]
    exact Finset.filter_congr fun n hn => by rw [(e.shape n hn).1]
  constructor
  · rw [e.super, e.nodes]
    exact h.root_mem
  · rw [e.super, (e.shape _ h.root_mem).1]
    exact h.root_dir
  · intro p c
    rw [e.nodes]
    constructor
    · rintro ⟨hp, hc⟩
      rw [(e.shape p hp).2.2.1] at hc
      obtain ⟨hcm, hpar⟩ := (h.parent_iff p c).mp ⟨hp, hc⟩
      exact ⟨hcm, by rw [(e.shape c hcm).2.1]; exact hpar⟩
    · rintro ⟨hcm, hpar⟩
      rw [(e.shape c hcm).2.1] at hpar
      obtain ⟨hp, hc⟩ := (h.parent_iff p c).mpr ⟨hcm, hpar⟩
      exact ⟨hp, by rw [(e.shape p hp).2.2.1]; exact hc⟩
  · intro n hn
    rw [e.nodes] at hn
    rw [(e.shape n hn).2.1, e.super]
    exact h.top n hn
  · intro n hn
    rw [e.nodes] at hn
    rw [e.super, e.nodes]
    refine Relation.ReflTransGen.mono ?_ _ _ (h.rooted n hn)
    rintro c p ⟨hc, hpar⟩
    exact ⟨hc, by rw [(e.shape c hc).2.1]; exact hpar⟩
  · intro n hn hne
    rw [e.nodes] at hn
    rw [(e.shape n hn).2.2.1] at hne
    rw [(e.shape n hn).1]
    exact h.dirs n hn hne
  · intro p hp
    rw [e.nodes] at hp
    rw [(e.shape p hp).2.2.1]
    have hmap : (s.fs.nodes p).children.map (fun c => (s'.fs.nodes c).name)
        = (s.fs.nodes p).children.map fun c => (s.fs.nodes c).name :=
      List.map_congr_left fun c hc => (e.shape c (h.child_mem hp hc)).2.2.2
    rw [hmap]
    exact h.names p hp
  · intro n hn
    rw [e.nodes] at hn
    rw [(e.shape n hn).2.2.2]
    exact h.name_le n hn
  · intro n hn
    rw [e.nodes] at hn
    rw [e.file n hn, e.super]
    exact h.inode_lt n hn
  · intro n hn m hm heq
    rw [e.nodes] at hn hm
    rw [e.file n hn, e.file m hm] at heq
    exact h.inode_inj n hn m hm heq
  · rw [e.super, e.nodes]
    exact h.nodeCount
  · intro n hn
    rw [e.nodes] at hn
    rw [e.file n hn]
    exact h.size_le n hn
  · rw [e.super, hfiles, h.byteCount]
    refine Finset.sum_congr rfl fun n hn => ?_
    rw [e.file n (Finset.mem_filter.mp hn).1]

/-- References are not part of the tree. -/
theorem Inv.refcount (h : Inv s) (hcount : s'.fs.count = s.fs.count)
    (hfile : s'.file = s.file) (hsupers : s'.supers = s.supers)
    (hsc : s'.superCount = s.superCount)
    (hshape : ∀ n, (s'.fs.nodes n).type = (s.fs.nodes n).type
      ∧ (s'.fs.nodes n).parent = (s.fs.nodes n).parent
      ∧ (s'.fs.nodes n).children = (s.fs.nodes n).children
      ∧ (s'.fs.nodes n).name = (s.fs.nodes n).name) : Inv s' := by
  have hnodes : ∀ v, s'.nodesOf v = s.nodesOf v := by
    intro v
    unfold nodesOf
    rw [hcount, hfile]
  refine ⟨?_, ?_, ?_, by unfold Fits; rw [hcount, hfile]; exact h.fits⟩
  · rw [hcount, hfile, hsc]
    exact h.vfs_lt
  · intro v hv
    rw [hsc] at hv
    exact (h.each v hv).congr ⟨hnodes v, by rw [hsupers], fun n _ => hshape n,
      fun n _ => by rw [hfile]⟩
  · intro v hv
    rw [hsc] at hv
    rw [hsupers, hnodes]
    exact h.next v hv

theorem inv_empty : Inv empty where
  vfs_lt := fun n hn => absurd hn (Nat.not_lt_zero n)
  each := fun v hv => absurd hv (Nat.not_lt_zero v)
  next := fun v hv => absurd hv (Nat.not_lt_zero v)
  fits := by simp [Fits, empty]

-- ==== sizes

/-- The bytes of an instance are fewer than the address space has. -/
theorem Fits.sum_lt (h : Fits s) {n : Nat} (hn : n < s.fs.count)
    (hle : ∀ m ∈ s.nodesOf v, (s.file m).size ≤ (s.file m).capacity) :
    ∑ m ∈ s.filesOf v, (s.file m).size < 2 ^ 64 := by
  have hsub : s.filesOf v ⊆ Finset.range s.fs.count :=
    (Finset.filter_subset _ _).trans (Finset.filter_subset _ _)
  have h1 : ∑ m ∈ s.filesOf v, (s.file m).size
      ≤ ∑ m ∈ s.filesOf v, (s.file m).capacity :=
    Finset.sum_le_sum fun m hm => hle m (Finset.mem_filter.mp hm).1
  have h2 : ∑ m ∈ s.filesOf v, (s.file m).capacity
      ≤ ∑ m ∈ Finset.range s.fs.count, (s.file m).capacity :=
    Finset.sum_le_sum_of_subset hsub
  unfold Fits at h
  omega

/-- A step that changes the buffer and the size of one file. -/
structure Resized (s s' : Tmpfs) (n size : Nat) : Prop where
  fs : s'.fs = s.fs
  superCount : s'.superCount = s.superCount
  other : ∀ m, m ≠ n → s'.file m = s.file m
  vfs : (s'.file n).vfs = (s.file n).vfs
  inode : (s'.file n).inode = (s.file n).inode
  resized : (s'.file n).size = size
  size_le : size ≤ (s'.file n).capacity
  super : s'.supers (s.file n).vfs =
    { s.supers (s.file n).vfs with
      byteCount := ((s.supers (s.file n).vfs).byteCount
        + (size + 2 ^ 64 - (s.file n).size)) % 2 ^ 64 }
  supers : ∀ w, w ≠ (s.file n).vfs → s'.supers w = s.supers w

theorem Resized.nodesOf {n size : Nat} (r : Resized s s' n size) (w : Nat) :
    s'.nodesOf w = s.nodesOf w := by
  have hvfs : ∀ m, (s'.file m).vfs = (s.file m).vfs := by
    intro m
    by_cases hm : m = n
    · rw [hm, r.vfs]
    · rw [r.other m hm]
  unfold Tmpfs.nodesOf
  rw [r.fs]
  exact Finset.filter_congr fun m _ => by rw [hvfs m]

theorem Resized.inode_eq {n size : Nat} (r : Resized s s' n size) (m : Nat) :
    (s'.file m).inode = (s.file m).inode := by
  by_cases hm : m = n
  · rw [hm, r.inode]
  · rw [r.other m hm]

/-- The other instances do not see it. -/
theorem Resized.sameOn {n size w : Nat} (r : Resized s s' n size)
    (hw : w ≠ (s.file n).vfs) : SameOn s s' w where
  nodes := r.nodesOf w
  super := r.supers w hw
  shape := fun m _ => by rw [r.fs]; exact ⟨rfl, rfl, rfl, rfl⟩
  file := by
    intro m hm
    refine r.other m fun e => hw ?_
    rw [← e]
    exact (mem_nodesOf.mp hm).2.symm

/-- The file's own instance: the counter moves with the size. -/
theorem Consistent.resize {n size : Nat} (h : Consistent s (s.file n).vfs)
    (hn : n < s.fs.count) (ht : (s.fs.nodes n).type = .reg)
    (hf0 : Fits s) (hf : Fits s') (r : Resized s s' n size) :
    Consistent s' (s.file n).vfs := by
  generalize hv : (s.file n).vfs = v at h
  have hnodes := r.nodesOf v
  have hfiles : s'.filesOf v = s.filesOf v := by
    unfold filesOf
    rw [hnodes, r.fs]
  have hsuper : s'.supers v =
      { s.supers v with
        byteCount := ((s.supers v).byteCount
          + (size + 2 ^ 64 - (s.file n).size)) % 2 ^ 64 } := by
    rw [← hv]
    exact r.super
  have hsize : ∀ m ∈ s'.nodesOf v,
      (s'.file m).size ≤ (s'.file m).capacity := by
    intro m hm
    by_cases hmn : m = n
    · rw [hmn, r.resized]
      exact r.size_le
    · rw [hnodes] at hm
      rw [r.other m hmn]
      exact h.size_le m hm
  refine ⟨?_, ?_, ?_, ?_, ?_, ?_, ?_, ?_, ?_, ?_, ?_, hsize, ?_⟩
  · rw [hsuper, hnodes]
    exact h.root_mem
  · rw [hsuper, r.fs]
    exact h.root_dir
  · rw [hnodes, r.fs]
    exact h.parent_iff
  · rw [hnodes, r.fs, hsuper]
    exact h.top
  · rw [hnodes, r.fs, hsuper]
    exact h.rooted
  · rw [hnodes, r.fs]
    exact h.dirs
  · rw [hnodes, r.fs]
    exact h.names
  · rw [hnodes, r.fs]
    exact h.name_le
  · rw [hnodes, hsuper]
    intro m hm
    rw [r.inode_eq]
    exact h.inode_lt m hm
  · rw [hnodes]
    intro m hm k hk heq
    rw [r.inode_eq, r.inode_eq] at heq
    exact h.inode_inj m hm k hk heq
  · rw [hsuper, hnodes]
    exact h.nodeCount
  -- the sum changes at `n`, by what the counter changes
  · have hin : n ∈ s.filesOf v :=
      Finset.mem_filter.mpr ⟨mem_nodesOf.mpr ⟨hn, hv⟩, ht⟩
    have hrest : ∑ m ∈ (s.filesOf v).erase n, (s'.file m).size
        = ∑ m ∈ (s.filesOf v).erase n, (s.file m).size :=
      Finset.sum_congr rfl fun m hm => by
        rw [r.other m (Finset.ne_of_mem_erase hm)]
    have hnew := Finset.add_sum_erase (s.filesOf v) (fun m => (s'.file m).size) hin
    have hold := Finset.add_sum_erase (s.filesOf v) (fun m => (s.file m).size) hin
    have hlt := hf.sum_lt (v := v) (by rw [r.fs]; exact hn) hsize
    have hbytes := h.byteCount
    rw [hfiles] at hlt ⊢
    rw [hsuper]
    show ((s.supers v).byteCount + (size + 2 ^ 64 - (s.file n).size)) % 2 ^ 64 = _
    simp only [hrest, r.resized] at hnew hold
    have hlt0 := hf0.sum_lt hn h.size_le
    rw [hbytes]
    generalize ∑ m ∈ s.filesOf v, (s.file m).size = before at hold hlt0 ⊢
    generalize ∑ m ∈ s.filesOf v, (s'.file m).size = after at hnew hlt ⊢
    omega

theorem Inv.resize {n size : Nat} (h : Inv s) (hn : n < s.fs.count)
    (ht : (s.fs.nodes n).type = .reg) (hf : Fits s')
    (r : Resized s s' n size) : Inv s' := by
  refine ⟨?_, ?_, ?_, hf⟩
  · intro m hm
    rw [r.fs] at hm
    rw [r.superCount]
    by_cases hmn : m = n
    · rw [hmn, r.vfs]
      exact h.vfs_lt n hn
    · rw [r.other m hmn]
      exact h.vfs_lt m hm
  · intro w hw
    rw [r.superCount] at hw
    by_cases hwv : w = (s.file n).vfs
    · subst hwv
      exact (h.each _ hw).resize hn ht h.fits hf r
    · exact (h.each w hw).congr (r.sameOn hwv)
  · intro w hw
    rw [r.superCount] at hw
    rw [r.nodesOf, ← h.next w hw]
    by_cases hwv : w = (s.file n).vfs
    · subst hwv
      rw [r.super]
    · rw [r.supers w hwv]

/-- `setSize` after any change of the buffer. -/
theorem resized_setSize {n size : Nat} (data : List UInt8)
    (hle : size ≤ data.length) :
    Resized s ((s.modFile n fun f => { f with data }).setSize n size) n size where
  fs := rfl
  superCount := rfl
  other := by
    intro m hm
    simp [setSize, modFile, modSuper, Function.update_of_ne hm]
  vfs := by simp [setSize, modFile, modSuper]
  inode := by simp [setSize, modFile, modSuper]
  resized := by simp [setSize, modFile, modSuper]
  size_le := by simpa [setSize, modFile, modSuper, FileData.capacity] using hle
  super := by simp [setSize, modFile, modSuper]
  supers := by
    intro w hw
    simp [setSize, modFile, modSuper, Function.update_of_ne hw]

theorem modFile_self (s : Tmpfs) (n : Nat) :
    (s.modFile n fun f => { f with data := (s.file n).data }) = s := by
  unfold modFile
  rw [Function.update_eq_self]

theorem length_memset0 {data : List UInt8} {off len : Nat}
    (h : off + len ≤ data.length) : (memset0 data off len).length = data.length := by
  simp only [memset0, List.length_append, List.length_take, List.length_replicate,
    List.length_drop]
  omega

theorem length_memcpyAt {data src : List UInt8} {off : Nat}
    (h : off + src.length ≤ data.length) :
    (memcpyAt data off src).length = data.length := by
  simp only [memcpyAt, List.length_append, List.length_take, List.length_drop]
  omega

/-- The loop leaves with a capacity that is enough. -/
theorem le_growLoop : ∀ {fuel capacity size c : Nat},
    growLoop fuel capacity size = some c → size ≤ c
  | 0, _, _, _, h => nomatch h
  | fuel + 1, capacity, size, c, h => by
      unfold growLoop at h
      split at h
      · exact le_growLoop h
      · cases h
        omega

/-- `tmpfs_resize_node` fails and changes nothing, or resizes. -/
theorem tmpfsResizeNode_cases {n size : Nat} {ok : Bool} {rc : Int}
    (h : s.tmpfsResizeNode n size ok = some (s', rc)) :
    (s' = s ∧ rc ≠ 0) ∨ (Resized s s' n size ∧ rc = 0) := by
  unfold tmpfsResizeNode at h
  by_cases hsize : size ≤ (s.file n).capacity
  · rw [if_pos hsize] at h
    cases h
    refine Or.inr ⟨?_, rfl⟩
    split
    · refine resized_setSize _ ?_
      rw [length_memset0]
      · exact hsize
      · unfold FileData.capacity at hsize
        omega
    · have := resized_setSize (s := s) (n := n) (s.file n).data hsize
      rwa [modFile_self] at this
  · simp only [if_neg hsize] at h
    split at h
    · cases h
    · rename_i newCapacity hgrow
      have hcap := le_growLoop hgrow
      split at h
      · cases h
        exact Or.inl ⟨rfl, by decide⟩
      · cases h
        refine Or.inr ⟨resized_setSize _ ?_, rfl⟩
        have hlen : ((s.file n).data
            ++ List.replicate (newCapacity - (s.file n).capacity) 0).length
            = newCapacity := by
          rw [List.length_append, List.length_replicate]
          unfold FileData.capacity at hsize ⊢
          omega
        split
        · rw [length_memset0]
          · omega
          · omega
        · omega

/-- Bytes stored inside the buffer leave a resized file resized. -/
theorem Resized.memcpyAt {n size off : Nat} {src : List UInt8}
    (r : Resized s s' n size) (h : off + src.length ≤ (s'.file n).capacity) :
    Resized s (s'.modFile n fun f => { f with data := memcpyAt f.data off src })
      n size where
  fs := r.fs
  superCount := r.superCount
  other := by
    intro m hm
    rw [← r.other m hm]
    simp [modFile, Function.update_of_ne hm]
  vfs := by simpa [modFile] using r.vfs
  inode := by simpa [modFile] using r.inode
  resized := by simpa [modFile] using r.resized
  size_le := by
    have := r.size_le
    simpa [modFile, FileData.capacity, length_memcpyAt h] using this
  super := r.super
  supers := r.supers

/-- `tmpfs_write` fails and changes nothing, or resizes a file. -/
theorem tmpfsWrite_cases {node : Option Nat} {buffer : Option (List UInt8)}
    {size offset : Nat} {flags : BitVec 32} {ok : Bool} {rc : Int}
    (hwrap : ∀ n, node = some n → s.writeOffset n offset flags + size < 2 ^ 64)
    (h : s.tmpfsWrite node buffer size offset flags ok = some (s', rc)) :
    s' = s ∨ ∃ n, node = some n ∧ (s.fs.nodes n).type = .reg
      ∧ Resized s s' n (s.writeOffset n offset flags + size) := by
  cases node with
  | none =>
      cases h
      exact Or.inl rfl
  | some n =>
      unfold tmpfsWrite at h
      simp only at h
      split at h
      · cases h
        exact Or.inl rfl
      split at h
      · cases h
        exact Or.inl rfl
      rename_i htype
      rw [Nat.mod_eq_of_lt (hwrap n rfl)] at h
      split at h
      · cases h
      rename_i s1 rc1 hres
      obtain ⟨rfl, hne⟩ | ⟨hr, rfl⟩ := tmpfsResizeNode_cases hres
      · rw [if_pos hne] at h
        cases h
        exact Or.inl rfl
      · rw [if_neg (by simp)] at h
        cases h
        refine Or.inr ⟨n, rfl, not_not.mp htype, ?_⟩
        split
        · refine hr.memcpyAt ?_
          have hlen : ((buffer.getD []).take size).length ≤ size :=
            List.length_take_le size _
          have := hr.size_le
          omega
        · exact hr

/-- `tmpfs_open` changes nothing, or empties a file and keeps its
buffer. -/
theorem tmpfsOpen_cases (s : Tmpfs) (node : Option Nat) (flags : BitVec 32) :
    (s.tmpfsOpen node flags).1 = s ∨ ∃ n, node = some n
      ∧ (s.fs.nodes n).type = .reg ∧ (s.tmpfsOpen node flags).1 = s.setSize n 0 := by
  cases node with
  | none => exact Or.inl rfl
  | some n =>
      unfold tmpfsOpen
      simp only
      split
      · exact Or.inl rfl
      split
      · exact Or.inl rfl
      split
      · exact Or.inl rfl
      split
      · rename_i h
        exact Or.inr ⟨n, rfl, h.2.1, rfl⟩
      · exact Or.inl rfl

/-- `tmpfs_open` leaves the vnodes as they are. -/
theorem tmpfsOpen_fs (s : Tmpfs) (node : Option Nat) (flags : BitVec 32) :
    (s.tmpfsOpen node flags).1.fs = s.fs := by
  obtain he | ⟨n, -, -, he⟩ := s.tmpfsOpen_cases node flags
  · rw [he]
  · rw [he]
    rfl

theorem inv_tmpfsOpen (h : Inv s) (node : Option Nat) (flags : BitVec 32)
    (hn : ∀ n, node = some n → n < s.fs.count) :
    Inv (s.tmpfsOpen node flags).1 := by
  obtain he | ⟨n, rfl, htype, he⟩ := s.tmpfsOpen_cases node flags
  · rw [he]
    exact h
  · have hr := resized_setSize (s := s) (n := n) (s.file n).data (Nat.zero_le _)
    rw [modFile_self] at hr
    rw [he]
    refine h.resize (hn n rfl) htype ?_ hr
    have hcap : ∀ m, ((s.setSize n 0).file m).capacity = (s.file m).capacity := by
      intro m
      by_cases hm : m = n
      · subst hm
        simp [setSize, modFile, modSuper, FileData.capacity]
      · rw [hr.other m hm]
    unfold Fits
    rw [hr.fs]
    simp only [hcap]
    exact h.fits

theorem inv_tmpfsWrite {node : Option Nat} {buffer : Option (List UInt8)}
    {size offset : Nat} {flags : BitVec 32} {ok : Bool} {rc : Int} (h : Inv s)
    (hn : ∀ n, node = some n → n < s.fs.count)
    (hwrap : ∀ n, node = some n → s.writeOffset n offset flags + size < 2 ^ 64)
    (hw : s.tmpfsWrite node buffer size offset flags ok = some (s', rc))
    (hf : Fits s') : Inv s' := by
  obtain rfl | ⟨n, rfl, htype, hr⟩ := tmpfsWrite_cases hwrap hw
  · exact h
  · exact h.resize (hn n rfl) htype hf hr

-- ==== new nodes

/-- The store after a successful `tmpfs_create`. -/
def addChild (s : Tmpfs) (p : Nat) (name : CStr) (type : NodeType)
    (mode : Mode) : Tmpfs :=
  (s.allocNode (s.file p).vfs (some p) name type mode).1.linkChild p s.fs.count
    (s.allocNode_lt (s.file p).vfs (some p) name type mode)

/-- `tmpfs_create` adds a child that was not there. -/
theorem tmpfsCreate_cases {parent : Option Nat} {name : Option CStr}
    {attr : Option Mode} {type : Mode} {result ok : Bool} {n : Nat}
    (h : s.tmpfsCreate parent name attr type result ok = .ok (s', n)) :
    ∃ p nm ty mode, parent = some p ∧ name = some nm ∧ nm ≠ []
      ∧ nodeType type = some ty ∧ (s.fs.nodes p).type = .dir
      ∧ nm.length ≤ NAME_MAX ∧ s.fs.tmpfsFindChild p nm = none
      ∧ n = s.fs.count ∧ s' = s.addChild p nm ty mode := by
  cases parent with
  | none => cases h
  | some p =>
      cases name with
      | none => cases h
      | some nm =>
          simp only [tmpfsCreate] at h
          split at h
          · cases h
          rename_i hnm
          split at h
          · cases h
          rename_i ty hty
          split at h
          · cases h
          rename_i hdir
          split at h
          · cases h
          rename_i hlen
          split at h
          · cases h
          rename_i hfind
          split at h
          · cases h
          cases h
          exact ⟨p, nm, ty, _, rfl, rfl, fun e => hnm (Or.inl e), hty,
            not_not.mp hdir, Nat.not_lt.mp hlen,
            by simpa using hfind, rfl, rfl⟩

/-- A step that adds one leaf below `p`. -/
structure Added (s s' : Tmpfs) (p : Nat) (name : CStr) (type : NodeType) :
    Prop where
  lt : p < s.fs.count
  count : s'.fs.count = s.fs.count + 1
  vfsroot : s'.fs.vfsroot = s.fs.vfsroot
  superCount : s'.superCount = s.superCount
  new : s'.fs.nodes s.fs.count =
    { type, mounted := none, refcount := 1, parent := some p
      children := [], name }
  parent : s'.fs.nodes p =
    { s.fs.nodes p with children := s.fs.count :: (s.fs.nodes p).children }
  other : ∀ n, n ≠ s.fs.count → n ≠ p → s'.fs.nodes n = s.fs.nodes n
  vfs : (s'.file s.fs.count).vfs = (s.file p).vfs
  data : (s'.file s.fs.count).data = []
  size : (s'.file s.fs.count).size = 0
  inode : (s'.file s.fs.count).inode = (s.supers (s.file p).vfs).nextInode
  file : ∀ n, n ≠ s.fs.count → s'.file n = s.file n
  super : s'.supers (s.file p).vfs =
    { s.supers (s.file p).vfs with
      nextInode := ((s.supers (s.file p).vfs).nextInode + 1) % 2 ^ 64
      nodeCount := ((s.supers (s.file p).vfs).nodeCount + 1) % 2 ^ 64 }
  supers : ∀ w, w ≠ (s.file p).vfs → s'.supers w = s.supers w

theorem added_addChild {p : Nat} (hp : p < s.fs.count) (name : CStr)
    (type : NodeType) (mode : Mode) :
    Added s (s.addChild p name type mode) p name type where
  lt := hp
  count := rfl
  vfsroot := rfl
  superCount := rfl
  new := by
    simp [addChild, linkChild, allocNode, modSuper, Fs.modNode, Fs.addNode,
      Function.update_of_ne (Nat.ne_of_gt hp)]
  parent := by
    simp [addChild, linkChild, allocNode, modSuper, Fs.modNode, Fs.addNode,
      Function.update_of_ne (Nat.ne_of_lt hp)]
  other := by
    intro n hn hnp
    simp [addChild, linkChild, allocNode, modSuper, Fs.modNode, Fs.addNode,
      Function.update_of_ne hn, Function.update_of_ne hnp]
  vfs := by simp [addChild, linkChild, allocNode, modSuper]
  data := by simp [addChild, linkChild, allocNode, modSuper]
  size := by simp [addChild, linkChild, allocNode, modSuper]
  inode := by simp [addChild, linkChild, allocNode, modSuper]
  file := by
    intro n hn
    simp [addChild, linkChild, allocNode, modSuper, Function.update_of_ne hn]
  super := by simp [addChild, linkChild, allocNode, modSuper]
  supers := by
    intro w hw
    simp [addChild, linkChild, allocNode, modSuper, Function.update_of_ne hw]

variable {p : Nat} {name : CStr} {type : NodeType}

/-- A node that was there keeps its type, parent and name. -/
theorem Added.old (a : Added s s' p name type) {n : Nat} (hn : n < s.fs.count) :
    (s'.fs.nodes n).type = (s.fs.nodes n).type
    ∧ (s'.fs.nodes n).parent = (s.fs.nodes n).parent
    ∧ (s'.fs.nodes n).name = (s.fs.nodes n).name := by
  by_cases hnp : n = p
  · subst hnp
    rw [a.parent]
    exact ⟨rfl, rfl, rfl⟩
  · rw [a.other n (Nat.ne_of_lt hn) hnp]
    exact ⟨rfl, rfl, rfl⟩

/-- Its children, but for the new one below `p`. -/
theorem Added.children (a : Added s s' p name type) {n : Nat}
    (hn : n < s.fs.count) (c : Nat) :
    c ∈ (s'.fs.nodes n).children
      ↔ c ∈ (s.fs.nodes n).children ∨ n = p ∧ c = s.fs.count := by
  by_cases hnp : n = p
  · subst hnp
    rw [a.parent]
    simp [or_comm]
  · rw [a.other n (Nat.ne_of_lt hn) hnp]
    simp [hnp]

theorem Added.nodesOf (a : Added s s' p name type) :
    s'.nodesOf (s.file p).vfs = insert s.fs.count (s.nodesOf (s.file p).vfs) := by
  ext n
  rw [Finset.mem_insert, mem_nodesOf, mem_nodesOf, a.count]
  by_cases hn : n = s.fs.count
  · subst hn
    simp [a.vfs]
  · rw [a.file n hn]
    constructor
    · rintro ⟨hlt, hv⟩
      exact Or.inr ⟨by omega, hv⟩
    · rintro (rfl | ⟨hlt, hv⟩)
      · exact absurd rfl hn
      · exact ⟨by omega, hv⟩

theorem count_notMem_nodesOf (s : Tmpfs) (v : Nat) : s.fs.count ∉ s.nodesOf v :=
  fun h => Nat.lt_irrefl _ (mem_nodesOf.mp h).1

/-- The other instances do not see the new node. -/
theorem Added.sameOn (a : Added s s' p name type) {w : Nat}
    (hw : w ≠ (s.file p).vfs) : SameOn s s' w where
  nodes := by
    ext n
    rw [mem_nodesOf, mem_nodesOf, a.count]
    by_cases hn : n = s.fs.count
    · subst hn
      rw [a.vfs]
      constructor
      · rintro ⟨-, hv⟩
        exact absurd hv.symm hw
      · rintro ⟨hlt, -⟩
        omega
    · rw [a.file n hn]
      constructor
      · rintro ⟨hlt, hv⟩
        exact ⟨by omega, hv⟩
      · rintro ⟨hlt, hv⟩
        exact ⟨by omega, hv⟩
  super := a.supers w hw
  shape := by
    intro n hn
    obtain ⟨hlt, hv⟩ := mem_nodesOf.mp hn
    have hnp : n ≠ p := by
      rintro rfl
      exact hw hv.symm
    rw [a.other n (Nat.ne_of_lt hlt) hnp]
    exact ⟨rfl, rfl, rfl, rfl⟩
  file := fun n hn => a.file n (Nat.ne_of_lt (mem_nodesOf.mp hn).1)

/-- A new name is not one of the directory's. -/
theorem name_notMem (hfind : s.fs.tmpfsFindChild p name = none) :
    name ∉ (s.fs.nodes p).children.map fun c => (s.fs.nodes c).name := by
  intro h
  obtain ⟨c, hc, he⟩ := List.mem_map.mp h
  have := List.find?_eq_none.mp hfind c hc
  simp [he] at this

theorem card_nodesOf_le (s : Tmpfs) (v : Nat) :
    (s.nodesOf v).card ≤ s.fs.count := by
  have := Finset.card_filter_le (Finset.range s.fs.count)
    fun n => (s.file n).vfs = v
  rwa [Finset.card_range] at this

section Leaf

variable (h : Consistent s (s.file p).vfs) (a : Added s s' p name type)

theorem lt_of_mem_nodesOf {n : Nat} (hn : n ∈ s.nodesOf v) : n < s.fs.count :=
  (mem_nodesOf.mp hn).1

theorem ne_of_mem_nodesOf {n : Nat} (hn : n ∈ s.nodesOf v) : n ≠ s.fs.count :=
  Nat.ne_of_lt (lt_of_mem_nodesOf hn)

include a

theorem Added.mem_iff {n : Nat} : n ∈ s'.nodesOf (s.file p).vfs
    ↔ n = s.fs.count ∨ n ∈ s.nodesOf (s.file p).vfs := by
  rw [a.nodesOf, Finset.mem_insert]

/-- The counters of the instance, which have room for one more. -/
theorem Added.super_eq (hcount : (s.supers (s.file p).vfs).nodeCount
      = (s.nodesOf (s.file p).vfs).card)
    (hnext : (s.supers (s.file p).vfs).nextInode = (s.nodesOf (s.file p).vfs).card + 1)
    (hroom : s.fs.count + 2 < 2 ^ 64) :
    s'.supers (s.file p).vfs =
      { s.supers (s.file p).vfs with
        nextInode := (s.supers (s.file p).vfs).nextInode + 1
        nodeCount := (s.supers (s.file p).vfs).nodeCount + 1 } := by
  have hcard := s.card_nodesOf_le (s.file p).vfs
  rw [a.super, Nat.mod_eq_of_lt (by omega), Nat.mod_eq_of_lt (by omega)]

include h

theorem Added.parent_iff (q c : Nat) :
    q ∈ s'.nodesOf (s.file p).vfs ∧ c ∈ (s'.fs.nodes q).children
      ↔ c ∈ s'.nodesOf (s.file p).vfs ∧ (s'.fs.nodes c).parent = some q := by
  rw [a.mem_iff, a.mem_iff]
  constructor
  · rintro ⟨rfl | hq, hc⟩
    · simp [a.new] at hc
    · obtain hc | ⟨rfl, rfl⟩ := (a.children (lt_of_mem_nodesOf hq) c).mp hc
      · obtain ⟨hcm, hpar⟩ := (h.parent_iff q c).mp ⟨hq, hc⟩
        exact ⟨Or.inr hcm, by rw [(a.old (lt_of_mem_nodesOf hcm)).2.1]; exact hpar⟩
      · exact ⟨Or.inl rfl, by rw [a.new]⟩
  · rintro ⟨rfl | hcm, hpar⟩
    · rw [a.new] at hpar
      cases hpar
      exact ⟨Or.inr (mem_nodesOf.mpr ⟨a.lt, rfl⟩),
        (a.children a.lt _).mpr (Or.inr ⟨rfl, rfl⟩)⟩
    · rw [(a.old (lt_of_mem_nodesOf hcm)).2.1] at hpar
      obtain ⟨hq, hc⟩ := (h.parent_iff q c).mpr ⟨hcm, hpar⟩
      exact ⟨Or.inr hq, (a.children (lt_of_mem_nodesOf hq) c).mpr (Or.inl hc)⟩

theorem Added.top {n : Nat} (hn : n ∈ s'.nodesOf (s.file p).vfs) :
    (s'.fs.nodes n).parent = none ↔ n = (s.supers (s.file p).vfs).root := by
  obtain rfl | hn := a.mem_iff.mp hn
  · rw [a.new]
    constructor
    · intro e
      cases e
    · intro e
      exact absurd rfl (ne_of_mem_nodesOf (e ▸ h.root_mem))
  · rw [(a.old (lt_of_mem_nodesOf hn)).2.1]
    exact h.top n hn

/-- The new node leads to the root through its parent. -/
theorem Added.rooted {n : Nat} (hn : n ∈ s'.nodesOf (s.file p).vfs) :
    Relation.ReflTransGen
      (fun c q => c ∈ s'.nodesOf (s.file p).vfs ∧ (s'.fs.nodes c).parent = some q)
      n (s.supers (s.file p).vfs).root := by
  have hstep : ∀ n ∈ s.nodesOf (s.file p).vfs, Relation.ReflTransGen
      (fun c q => c ∈ s'.nodesOf (s.file p).vfs ∧ (s'.fs.nodes c).parent = some q)
      n (s.supers (s.file p).vfs).root := by
    intro n hn
    refine Relation.ReflTransGen.mono ?_ _ _ (h.rooted n hn)
    rintro c q ⟨hc, hpar⟩
    exact ⟨a.mem_iff.mpr (Or.inr hc),
      by rw [(a.old (lt_of_mem_nodesOf hc)).2.1]; exact hpar⟩
  obtain rfl | hn' := a.mem_iff.mp hn
  · exact Relation.ReflTransGen.head ⟨hn, by rw [a.new]⟩
      (hstep p (mem_nodesOf.mpr ⟨a.lt, rfl⟩))
  · exact hstep n hn'

theorem Added.names (hfind : s.fs.tmpfsFindChild p name = none) {q : Nat}
    (hq : q ∈ s'.nodesOf (s.file p).vfs) :
    ((s'.fs.nodes q).children.map fun c => (s'.fs.nodes c).name).Nodup := by
  obtain rfl | hq := a.mem_iff.mp hq
  · simp [a.new]
  have hmap : (s.fs.nodes q).children.map (fun c => (s'.fs.nodes c).name)
      = (s.fs.nodes q).children.map fun c => (s.fs.nodes c).name :=
    List.map_congr_left fun c hc => (a.old (lt_of_mem_nodesOf (h.child_mem hq hc))).2.2
  by_cases hqp : q = p
  · subst hqp
    rw [a.parent]
    show List.Nodup ((s'.fs.nodes s.fs.count).name :: List.map _ (s.fs.nodes q).children)
    rw [hmap, a.new]
    exact List.nodup_cons.mpr ⟨name_notMem hfind, h.names q hq⟩
  · rw [a.other q (ne_of_mem_nodesOf hq) hqp, hmap]
    exact h.names q hq

/-- The new number is `next_inode`, above all that are in use. -/
theorem Added.inode_inj {n m : Nat} (hn : n ∈ s'.nodesOf (s.file p).vfs)
    (hm : m ∈ s'.nodesOf (s.file p).vfs) (heq : (s'.file n).inode = (s'.file m).inode) :
    n = m := by
  obtain rfl | hn := a.mem_iff.mp hn
  · obtain rfl | hm := a.mem_iff.mp hm
    · rfl
    · rw [a.inode, a.file m (ne_of_mem_nodesOf hm)] at heq
      exact absurd (h.inode_lt m hm) (by omega)
  · obtain rfl | hm := a.mem_iff.mp hm
    · rw [a.inode, a.file n (ne_of_mem_nodesOf hn)] at heq
      exact absurd (h.inode_lt n hn) (by omega)
    · rw [a.file n (ne_of_mem_nodesOf hn), a.file m (ne_of_mem_nodesOf hm)] at heq
      exact h.inode_inj n hn m hm heq

/-- A new file has no bytes. -/
theorem Added.byteCount : (s.supers (s.file p).vfs).byteCount
    = ∑ n ∈ s'.filesOf (s.file p).vfs, (s'.file n).size := by
  rw [h.byteCount]
  refine Finset.sum_subset_zero_on_sdiff ?_ ?_ ?_
  · intro n hn
    obtain ⟨hn, htype⟩ := Finset.mem_filter.mp hn
    exact Finset.mem_filter.mpr ⟨a.mem_iff.mpr (Or.inr hn),
      by rw [(a.old (lt_of_mem_nodesOf hn)).1]; exact htype⟩
  · intro n hn
    obtain ⟨hin, hout⟩ := Finset.mem_sdiff.mp hn
    obtain ⟨hin, htype⟩ := Finset.mem_filter.mp hin
    obtain rfl | hn := a.mem_iff.mp hin
    · exact a.size
    · rw [(a.old (lt_of_mem_nodesOf hn)).1] at htype
      exact absurd (Finset.mem_filter.mpr ⟨hn, htype⟩) hout
  · intro n hn
    rw [a.file n (ne_of_mem_nodesOf (Finset.mem_filter.mp hn).1)]

/-- The parent's instance: one more leaf. -/
theorem Consistent.add (hdir : (s.fs.nodes p).type = .dir) (hlen : name.length ≤ NAME_MAX)
    (hfind : s.fs.tmpfsFindChild p name = none)
    (hnext : (s.supers (s.file p).vfs).nextInode
      = (s.nodesOf (s.file p).vfs).card + 1)
    (hroom : s.fs.count + 2 < 2 ^ 64) :
    Consistent s' (s.file p).vfs := by
  have hsuper := a.super_eq h.nodeCount hnext hroom
  have hroot : (s'.supers (s.file p).vfs).root = (s.supers (s.file p).vfs).root := by
    rw [hsuper]
  constructor
  · rw [hroot]
    exact a.mem_iff.mpr (Or.inr h.root_mem)
  · rw [hroot, (a.old (lt_of_mem_nodesOf h.root_mem)).1]
    exact h.root_dir
  · exact a.parent_iff h
  · rw [hroot]
    exact fun n hn => a.top h hn
  · rw [hroot]
    exact fun n hn => a.rooted h hn
  · intro n hn hkids
    obtain rfl | hn := a.mem_iff.mp hn
    · simp [a.new] at hkids
    · rw [(a.old (lt_of_mem_nodesOf hn)).1]
      by_cases hnp : n = p
      · rw [hnp]
        exact hdir
      · rw [a.other n (ne_of_mem_nodesOf hn) hnp] at hkids
        exact h.dirs n hn hkids
  · exact fun q hq => a.names h hfind hq
  · intro n hn
    obtain rfl | hn := a.mem_iff.mp hn
    · rw [a.new]
      exact hlen
    · rw [(a.old (lt_of_mem_nodesOf hn)).2.2]
      exact h.name_le n hn
  · intro n hn
    rw [hsuper]
    obtain rfl | hn := a.mem_iff.mp hn
    · rw [a.inode]
      exact Nat.lt_succ_self _
    · rw [a.file n (ne_of_mem_nodesOf hn)]
      exact Nat.lt_succ_of_lt (h.inode_lt n hn)
  · exact fun n hn m hm => a.inode_inj h hn hm
  · rw [hsuper, a.nodesOf, Finset.card_insert_of_notMem (s.count_notMem_nodesOf _),
      h.nodeCount]
  · intro n hn
    obtain rfl | hn := a.mem_iff.mp hn
    · rw [a.size]
      exact Nat.zero_le _
    · rw [a.file n (ne_of_mem_nodesOf hn)]
      exact h.size_le n hn
  · rw [hsuper]
    exact a.byteCount h

end Leaf

theorem Fits.count_lt (h : Fits s) : s.fs.count + 1 < 2 ^ 64 := by
  unfold Fits at h
  omega

theorem Inv.add (h : Inv s) (a : Added s s' p name type)
    (hdir : (s.fs.nodes p).type = .dir) (hlen : name.length ≤ NAME_MAX)
    (hfind : s.fs.tmpfsFindChild p name = none) (hf : Fits s') : Inv s' := by
  have hv := h.vfs_lt p a.lt
  have hroom : s.fs.count + 2 < 2 ^ 64 := by
    have := hf.count_lt
    rw [a.count] at this
    omega
  refine ⟨?_, ?_, ?_, hf⟩
  · intro n hn
    rw [a.superCount]
    by_cases hnc : n = s.fs.count
    · rw [hnc, a.vfs]
      exact hv
    · rw [a.file n hnc]
      rw [a.count] at hn
      exact h.vfs_lt n (by omega)
  · intro w hw
    rw [a.superCount] at hw
    by_cases hwv : w = (s.file p).vfs
    · subst hwv
      exact (h.each _ hw).add a hdir hlen hfind (h.next _ hw) hroom
    · exact (h.each w hw).congr (a.sameOn hwv)
  · intro w hw
    rw [a.superCount] at hw
    by_cases hwv : w = (s.file p).vfs
    · subst hwv
      have hcard := s.card_nodesOf_le (s.file p).vfs
      rw [a.nodesOf, Finset.card_insert_of_notMem (s.count_notMem_nodesOf _),
        a.super]
      show (_ + 1) % 2 ^ 64 = _
      rw [h.next _ hw, Nat.mod_eq_of_lt (by omega)]
    · rw [(a.sameOn hwv).nodes, a.supers w hwv]
      exact h.next w hw

theorem inv_tmpfsCreate {parent : Option Nat} {name : Option CStr}
    {attr : Option Mode} {type : Mode} {result ok : Bool} {n : Nat} (h : Inv s)
    (hp : ∀ p, parent = some p → p < s.fs.count)
    (hc : s.tmpfsCreate parent name attr type result ok = .ok (s', n))
    (hf : Fits s') : Inv s' := by
  obtain ⟨p, nm, ty, mode, rfl, rfl, -, -, hdir, hlen, hfind, -, rfl⟩ :=
    tmpfsCreate_cases hc
  exact h.add (added_addChild (hp p rfl) nm ty mode) hdir hlen hfind hf

-- ==== mounts

/-- A step that adds an instance with a root. -/
structure Mounted (s s' : Tmpfs) : Prop where
  count : s'.fs.count = s.fs.count + 1
  superCount : s'.superCount = s.superCount + 1
  new : s'.fs.nodes s.fs.count =
    { type := .dir, mounted := none, refcount := 1, parent := none
      children := [], name := [] }
  other : ∀ n, n ≠ s.fs.count → s'.fs.nodes n = s.fs.nodes n
  vfs : (s'.file s.fs.count).vfs = s.superCount
  size : (s'.file s.fs.count).size = 0
  inode : (s'.file s.fs.count).inode = 1
  file : ∀ n, n ≠ s.fs.count → s'.file n = s.file n
  super : s'.supers s.superCount =
    { root := s.fs.count, nextInode := 2, nodeCount := 1, byteCount := 0 }
  supers : ∀ w, w ≠ s.superCount → s'.supers w = s.supers w

theorem mounted_tmpfsMount {ok : Bool} (h : s.tmpfsMount ok = some s') :
    Mounted s s' := by
  unfold tmpfsMount at h
  split at h
  · cases h
  · cases h
    constructor
    · rfl
    · rfl
    · simp [modSuper, Fs.addNode]
    · intro n hn
      simp [modSuper, Fs.addNode, Function.update_of_ne hn]
    · simp [modSuper]
    · simp [modSuper]
    · simp [modSuper]
    · intro n hn
      simp [modSuper, Function.update_of_ne hn]
    · simp [modSuper]
    · intro w hw
      simp [modSuper, Function.update_of_ne hw]

theorem Mounted.nodesOf (m : Mounted s s')
    (hlt : ∀ n, n < s.fs.count → (s.file n).vfs < s.superCount) :
    s'.nodesOf s.superCount = {s.fs.count} := by
  ext n
  rw [mem_nodesOf, Finset.mem_singleton, m.count]
  by_cases hn : n = s.fs.count
  · subst hn
    simp [m.vfs]
  · rw [m.file n hn]
    constructor
    · rintro ⟨hle, hv⟩
      have := hlt n (by omega)
      omega
    · intro e
      exact absurd e hn

theorem Mounted.sameOn (m : Mounted s s') {w : Nat} (hw : w < s.superCount) :
    SameOn s s' w where
  nodes := by
    ext n
    rw [mem_nodesOf, mem_nodesOf, m.count]
    by_cases hn : n = s.fs.count
    · subst hn
      rw [m.vfs]
      omega
    · rw [m.file n hn]
      omega
  super := m.supers w (Nat.ne_of_lt hw)
  shape := by
    intro n hn
    rw [m.other n (Nat.ne_of_lt (mem_nodesOf.mp hn).1)]
    exact ⟨rfl, rfl, rfl, rfl⟩
  file := fun n hn => m.file n (Nat.ne_of_lt (mem_nodesOf.mp hn).1)

/-- A new instance is its root. -/
theorem Mounted.consistent (m : Mounted s s')
    (hlt : ∀ n, n < s.fs.count → (s.file n).vfs < s.superCount) :
    Consistent s' s.superCount := by
  have hmem : ∀ n, n ∈ s'.nodesOf s.superCount ↔ n = s.fs.count := by
    intro n
    rw [m.nodesOf hlt, Finset.mem_singleton]
  have hroot : (s'.supers s.superCount).root = s.fs.count := by rw [m.super]
  constructor
  · rw [hroot, hmem]
  · rw [hroot, m.new]
  · intro p c
    rw [hmem, hmem]
    constructor
    · rintro ⟨rfl, hc⟩
      simp [m.new] at hc
    · rintro ⟨rfl, hpar⟩
      simp [m.new] at hpar
  · intro n hn
    rw [hroot, (hmem n).mp hn, m.new]
    simp
  · intro n hn
    rw [hroot, (hmem n).mp hn]
  · intro n hn hkids
    rw [(hmem n).mp hn, m.new] at hkids
    exact absurd rfl hkids
  · intro p hp
    rw [(hmem p).mp hp, m.new]
    exact List.nodup_nil
  · intro n hn
    rw [(hmem n).mp hn, m.new]
    exact Nat.zero_le _
  · intro n hn
    rw [(hmem n).mp hn, m.inode, m.super]
    exact Nat.lt_succ_self 1
  · intro n hn k hk _
    rw [(hmem n).mp hn, (hmem k).mp hk]
  · rw [m.super, m.nodesOf hlt]
    rfl
  · intro n hn
    rw [(hmem n).mp hn, m.size]
    exact Nat.zero_le _
  · rw [m.super]
    refine (Finset.sum_eq_zero fun n hn => ?_).symm
    rw [(hmem n).mp (Finset.mem_filter.mp hn).1, m.size]

theorem inv_tmpfsMount {ok : Bool} (h : Inv s) (hm : s.tmpfsMount ok = some s')
    (hf : Fits s') : Inv s' := by
  have m := mounted_tmpfsMount hm
  refine ⟨?_, ?_, ?_, hf⟩
  · intro n hn
    rw [m.superCount]
    by_cases hnc : n = s.fs.count
    · rw [hnc, m.vfs]
      exact Nat.lt_succ_self _
    · rw [m.file n hnc]
      rw [m.count] at hn
      exact Nat.lt_succ_of_lt (h.vfs_lt n (by omega))
  · intro w hw
    rw [m.superCount] at hw
    obtain hw | rfl := Nat.lt_succ_iff_lt_or_eq.mp hw
    · exact (h.each w hw).congr (m.sameOn hw)
    · exact m.consistent h.vfs_lt
  · intro w hw
    rw [m.superCount] at hw
    obtain hw | rfl := Nat.lt_succ_iff_lt_or_eq.mp hw
    · rw [(m.sameOn hw).nodes, (m.sameOn hw).super]
      exact h.next w hw
    · rw [m.nodesOf h.vfs_lt, m.super]
      rfl

-- ==== runs

/-- A lookup takes a reference. -/
theorem inv_vfsLookup {start : Option Nat} {path : Option CStr}
    {flags : BitVec 32} {found : Fs.Found} (h : Inv s)
    (hl : s.vfsLookup start path flags = .ok (s', found)) : Inv s' := by
  unfold Tmpfs.vfsLookup at hl
  split at hl
  · cases hl
  · rename_i found' _
    cases hl
    refine h.refcount rfl rfl rfl rfl fun n => ?_
    by_cases hn : n = found.node
    · subst hn
      simp [Fs.vnodeHold]
    · simp [Fs.vnodeHold, Function.update_of_ne hn]

theorem Reachable.inv (h : Reachable s) : Inv s := by
  induction h with
  | init => exact inv_empty
  | mount ok _ hm hf ih => exact inv_tmpfsMount ih hm hf
  | create parent name attr type result ok _ hp hc hf ih =>
      exact inv_tmpfsCreate ih hp hc hf
  | opened node flags _ hn ih => exact inv_tmpfsOpen ih node flags hn
  | write node buffer size offset flags ok _ hn hwrap hw hf ih =>
      exact inv_tmpfsWrite ih hn hwrap hw hf
  | lookup start path flags _ hl ih => exact inv_vfsLookup ih hl

/-- In every state a run reaches, each instance is a tree whose counters
count. -/
theorem reachable_consistent (h : Reachable s) :
    ∀ v, v < s.superCount → Consistent s v :=
  h.inv.each

/-- A mount, a file below its root and three bytes in it. -/
theorem reachable_consistent_file :
    ∃ s, Reachable s ∧ s.superCount = 1 ∧ (s.supers 0).byteCount = 3
      ∧ Consistent s 0 := by
  have hrun : Reachable _ :=
    .write (some 1) (some [1, 2, 3]) 3 0 0#32 true
      (.create (some 0) (some [97]) none S_IFREG true true
        (.mount true .init rfl (by unfold Fits; decide +kernel))
        (fun p hp => by cases hp; decide +kernel) rfl
        (by unfold Fits; decide +kernel))
      (fun n hn => by cases hn; decide +kernel)
      (fun n hn => by cases hn; decide +kernel) rfl
      (by unfold Fits; decide +kernel)
  exact ⟨_, hrun, rfl, rfl, reachable_consistent hrun 0 (by decide +kernel)⟩

end Alix.Tmpfs
