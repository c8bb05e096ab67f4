/-
The rest of `fs/tmpfs.c`: nodes with their data, and the calls that
change them; and the calls of `fs/vfs.c` that reach them.

What a lookup reads of a node is its `Vnode`; the rest, the file buffer
and the bookkeeping, is its `FileData`, under the same number. A
`tmpfs_vfs_t` is a `Super`, and a node names the one it belongs to. The
buffer is the list of its bytes, so `capacity` is its length and a null
`data` pointer is the empty list. Times are left out.

The heap is outside this file. Where a call allocates, the argument `ok`
says whether the heap gives it the memory; `krealloc` keeps the bytes
the buffer had, and a failed one changes nothing.
-/
import Mathlib.Algebra.Group.Nat.Defs
import Alix.Fs.Vfs

namespace Alix

-- ==== constants

abbrev PATH_MAX : Nat := 4096

/-- `mode_t`. -/
abbrev Mode : Type := BitVec 32

abbrev S_IFMT : Mode := 0xf000#32
abbrev S_IFREG : Mode := 0x8000#32
abbrev S_IFDIR : Mode := 0x4000#32
abbrev ACCESSPERMS : Mode := 0x1ff#32
abbrev ALLPERMS : Mode := 0xfff#32
abbrev DEFFILEMODE : Mode := 0x1b6#32

abbrev O_RDONLY : BitVec 32 := 0x0#32
abbrev O_WRONLY : BitVec 32 := 0x1#32
abbrev O_RDWR : BitVec 32 := 0x2#32
abbrev O_ACCMODE : BitVec 32 := 0x3#32
abbrev O_TRUNC : BitVec 32 := 0x800#32
abbrev O_APPEND : BitVec 32 := 0x1000#32
abbrev O_DIRECTORY : BitVec 32 := 0x4000#32

abbrev NAME_MAX : Nat := 255

/-- The node type of a mode, for the two that tmpfs creates. -/
def nodeType (type : Mode) : Option NodeType :=
  if type &&& S_IFMT = S_IFREG then some .reg
  else if type &&& S_IFMT = S_IFDIR then some .dir
  else none

/-- And back. -/
def NodeType.bits : NodeType → Mode
  | .reg => S_IFREG
  | .dir => S_IFDIR

-- ==== the store

/-- `tmpfs_vfs_t`. -/
structure Super where
  root : Nat
  nextInode : Nat
  nodeCount : Nat
  byteCount : Nat

/-- The part of a `tmpfs_node_t` that lookups do not read. `vfs` is the
file system the node belongs to. -/
structure FileData where
  vfs : Nat
  data : List UInt8
  size : Nat
  mode : Mode
  inode : Nat

/-- `node->capacity`. -/
def FileData.capacity (f : FileData) : Nat := f.data.length

/-- Pointers in the tree are pointers to nodes. -/
structure Fs.Closed (fs : Fs) : Prop where
  child : ∀ p c, c ∈ (fs.nodes p).children → c < fs.count
  root : ∀ r, fs.vfsroot = some r → r < fs.count

/-- All mounted tmpfs instances. -/
structure Tmpfs where
  fs : Fs
  file : Nat → FileData
  supers : Nat → Super
  superCount : Nat
  closed : fs.Closed

namespace Fs

/-- Store into a node, but for what is mounted on it. -/
def modNode (fs : Fs) (n : Nat) (f : Vnode → Vnode)
    (hf : (f (fs.nodes n)).mounted = (fs.nodes n).mounted) : Fs :=
  { fs with
    nodes := Function.update fs.nodes n (f (fs.nodes n))
    mount_lt := by
      intro m r h
      refine fs.mount_lt m r ?_
      by_cases hm : m = n
      · subst hm
        rw [Function.update_self, hf] at h
        exact h
      · rw [Function.update_of_ne hm] at h
        exact h }

/-- A new node that nothing is mounted on, under the next number. -/
def addNode (fs : Fs) (v : Vnode) (hv : v.mounted = none) : Fs :=
  { fs with
    nodes := Function.update fs.nodes fs.count v
    count := fs.count + 1
    mount_lt := by
      intro m r h
      by_cases hm : m = fs.count
      · subst hm
        rw [Function.update_self, hv] at h
        cases h
      · rw [Function.update_of_ne hm] at h
        have := fs.mount_lt m r h
        omega }

/-- `vnode_release`. Going inactive does nothing to a tmpfs node. -/
def vnodeRelease (fs : Fs) (node : Nat) : Fs :=
  fs.modNode node (fun v => { v with refcount := v.refcount - 1 }) rfl

/-- `vnode_hold` and `vnode_release` move no pointer. -/
theorem Closed.vnodeHold {fs : Fs} (h : fs.Closed) (n : Nat) :
    (fs.vnodeHold n).Closed where
  child := by
    intro p c hc
    refine h.child p c ?_
    unfold Fs.vnodeHold at hc
    by_cases hp : p = n
    · subst hp
      simpa using hc
    · simpa [Function.update_of_ne hp] using hc
  root := h.root

theorem Closed.modNode {fs : Fs} (h : fs.Closed) {n : Nat} {f : Vnode → Vnode}
    (hf : (f (fs.nodes n)).mounted = (fs.nodes n).mounted)
    (hc : ∀ c ∈ (f (fs.nodes n)).children, c < fs.count) :
    (fs.modNode n f hf).Closed where
  child := by
    intro p c hpc
    unfold Fs.modNode at hpc
    by_cases hp : p = n
    · subst hp
      exact hc c (by simpa using hpc)
    · exact h.child p c (by simpa [Function.update_of_ne hp] using hpc)
  root := h.root

theorem Closed.vnodeRelease {fs : Fs} (h : fs.Closed) (n : Nat) :
    (fs.vnodeRelease n).Closed :=
  h.modNode _ fun c hc => h.child n c hc

theorem Closed.addNode {fs : Fs} (h : fs.Closed) {v : Vnode}
    (hv : v.mounted = none) (hc : v.children = []) :
    (fs.addNode v hv).Closed where
  child := by
    intro p c hpc
    unfold Fs.addNode at hpc
    by_cases hp : p = fs.count
    · subst hp
      simp [hc] at hpc
    · have := h.child p c (by simpa [Function.update_of_ne hp] using hpc)
      exact Nat.lt_succ_of_lt this
  root := fun r hr => Nat.lt_succ_of_lt (h.root r hr)

end Fs

namespace Tmpfs

/-- The store after `vfs_init`: no node, no instance. -/
def empty : Tmpfs where
  fs :=
    { nodes := fun _ =>
        { type := .reg, mounted := none, refcount := 0, parent := none
          children := [], name := [] }
      count := 0, vfsroot := none
      mount_lt := fun _ _ h => nomatch h }
  file := fun _ => { vfs := 0, data := [], size := 0, mode := 0, inode := 0 }
  supers := fun _ => { root := 0, nextInode := 0, nodeCount := 0, byteCount := 0 }
  superCount := 0
  closed := ⟨fun _ _ h => (nomatch h), fun _ h => (nomatch h)⟩

/-- Store into a node's `FileData`. -/
def modFile (s : Tmpfs) (n : Nat) (f : FileData → FileData) : Tmpfs :=
  { s with file := Function.update s.file n (f (s.file n)) }

/-- Store into a `Super`. -/
def modSuper (s : Tmpfs) (v : Nat) (f : Super → Super) : Tmpfs :=
  { s with supers := Function.update s.supers v (f (s.supers v)) }

/-- `fs->byte_count += size - node->size` and `node->size = size`, the
sum in 64 bits. -/
def setSize (s : Tmpfs) (n size : Nat) : Tmpfs :=
  let v := (s.file n).vfs
  let old := (s.file n).size
  let s := s.modSuper v fun f =>
    { f with byteCount := (f.byteCount + (size + 2 ^ 64 - old)) % 2 ^ 64 }
  s.modFile n fun f => { f with size }

-- ==== resizing

/-- `memset(data + off, 0, len)`. -/
def memset0 (data : List UInt8) (off len : Nat) : List UInt8 :=
  data.take off ++ List.replicate len 0 ++ data.drop (off + len)

/-- `memcpy(data + off, src, n)` with `n` the length of `src`. -/
def memcpyAt (data : List UInt8) (off : Nat) (src : List UInt8) : List UInt8 :=
  data.take off ++ src ++ data.drop (off + src.length)

/-- The loop `while (new_capacity < size) new_capacity <<= 1`. A capacity
has at most 64 bits to shift out; once it is 0 the loop never ends, which
is `none`. -/
def growLoop : Nat → Nat → Nat → Option Nat
  | 0, _, _ => none
  | fuel + 1, capacity, size =>
      if capacity < size then growLoop fuel (capacity * 2 % 2 ^ 64) size
      else some capacity

/-- `tmpfs_resize_node`, with its return code; `none` if it never
returns. -/
def tmpfsResizeNode (s : Tmpfs) (n size : Nat) (ok : Bool) :
    Option (Tmpfs × Int) :=
  let node := s.file n
  if size ≤ node.capacity then
    let s := if size > node.size then
        s.modFile n fun f =>
          { f with data := memset0 f.data f.size (size - f.size) }
      else s
    some (s.setSize n size, 0)
  else
    let start := if node.capacity ≠ 0 then node.capacity else 64
    match growLoop 66 start size with
    | none => none
    | some newCapacity =>
        if !ok then some (s, -1)
        else
          -- the bytes above the old capacity are zeroed
          let newData := node.data
            ++ List.replicate (newCapacity - node.capacity) 0
          let newData := if size > node.size then
              memset0 newData node.size (size - node.size)
            else newData
          let s := s.modFile n fun f => { f with data := newData }
          some (s.setSize n size, 0)

-- ==== nodes

/-- `tmpfs_alloc_node` with memory for the node and its name. -/
def allocNode (s : Tmpfs) (v : Nat) (parent : Option Nat) (name : CStr)
    (type : NodeType) (mode : Mode) : Tmpfs × Nat :=
  let node := s.fs.count
  let super := s.supers v
  let s : Tmpfs :=
    { s with
      fs := s.fs.addNode
        { type, mounted := none, refcount := 1, parent, children := [], name } rfl
      file := Function.update s.file node
        { vfs := v, data := [], size := 0
          mode := (mode &&& ~~~S_IFMT) ||| type.bits
          inode := super.nextInode }
      closed := s.closed.addNode rfl rfl }
  let s := s.modSuper v fun f =>
    { f with nextInode := (f.nextInode + 1) % 2 ^ 64
             nodeCount := (f.nodeCount + 1) % 2 ^ 64 }
  (s, node)

/-- `tmpfs_link_child`; the child is a node. -/
def linkChild (s : Tmpfs) (parent child : Nat) (hc : child < s.fs.count) :
    Tmpfs :=
  { s with
    fs := s.fs.modNode parent
      (fun v => { v with children := child :: v.children }) rfl
    closed := s.closed.modNode _ (by
      intro c h
      rcases List.mem_cons.mp h with rfl | h
      · exact hc
      · exact s.closed.child parent c h) }

/-- The node `allocNode` returns is a node. -/
theorem allocNode_lt (s : Tmpfs) (v : Nat) (parent : Option Nat) (name : CStr)
    (type : NodeType) (mode : Mode) :
    (s.allocNode v parent name type mode).2
      < (s.allocNode v parent name type mode).1.fs.count :=
  Nat.lt_succ_self s.fs.count

/-- `tmpfs_mount`: a new instance with its root. -/
def tmpfsMount (s : Tmpfs) (ok : Bool) : Option Tmpfs :=
  if !ok then none
  else
    let v := s.superCount
    let s : Tmpfs :=
      { s with
        supers := Function.update s.supers v
          { root := 0, nextInode := 1, nodeCount := 0, byteCount := 0 }
        superCount := v + 1 }
    -- 0755
    let (s, root) := s.allocNode v none [] .dir 0x1ed#32
    some (s.modSuper v fun f => { f with root })

/-- `tmpfs_create`. `attr` is `attr->mode` where attributes are given,
`result` whether there is a place for the node. -/
def tmpfsCreate (s : Tmpfs) (parent : Option Nat) (name : Option CStr)
    (attr : Option Mode) (type : Mode) (result ok : Bool) :
    Except Int (Tmpfs × Nat) :=
  match parent, name with
  | some parent, some name =>
      if name = [] ∨ !result then .error (-1)
      else
        match nodeType type with
        | none => .error (-1)
        | some type =>
            if (s.fs.nodes parent).type ≠ .dir then .error (-1)
            else
              let mode := match attr with
                | some mode => mode &&& ALLPERMS
                | none => if type = .dir then 0x1ff#32 else DEFFILEMODE
              if name.length > NAME_MAX then .error (-1)
              else if (s.fs.tmpfsFindChild parent name).isSome then .error (-1)
              else if !ok then .error (-1)
              else
                let v := (s.file parent).vfs
                let child := s.allocNode v (some parent) name type mode
                .ok (child.1.linkChild parent child.2
                  (s.allocNode_lt v (some parent) name type mode), child.2)
  | _, _ => .error (-1)

-- ==== open, read and write

/-- `tmpfs_open_flags_valid`. -/
def tmpfsOpenFlagsValid (flags : BitVec 32) : Bool :=
  let access := flags &&& O_ACCMODE
  access == O_RDONLY || access == O_WRONLY || access == O_RDWR

/-- `tmpfs_open`. -/
def tmpfsOpen (s : Tmpfs) (node : Option Nat) (flags : BitVec 32) :
    Tmpfs × Int :=
  match node with
  | none => (s, -1)
  | some n =>
      let type := (s.fs.nodes n).type
      if !tmpfsOpenFlagsValid flags then (s, -1)
      else if flags &&& O_DIRECTORY ≠ 0 ∧ type ≠ .dir then (s, -1)
      else if type = .dir ∧ flags &&& O_ACCMODE ≠ O_RDONLY then (s, -1)
      else if flags &&& O_TRUNC ≠ 0 ∧ type = .reg
          ∧ flags &&& O_ACCMODE ≠ O_RDONLY then
        (s.setSize n 0, 0)
      else (s, 0)

/-- `tmpfs_min_size`. -/
def tmpfsMinSize (a b : Nat) : Nat := if a < b then a else b

/-- `tmpfs_read`, with its return code and the bytes it copies to the
buffer; `*readc` is how many they are. -/
def tmpfsRead (s : Tmpfs) (node : Option Nat) (buffer : Bool)
    (size offset : Nat) : Int × List UInt8 :=
  match node with
  | none => (-1, [])
  | some n =>
      if !buffer then (-1, [])
      else if (s.fs.nodes n).type ≠ .reg then (-1, [])
      else
        let tnode := s.file n
        if offset ≥ tnode.size then (0, [])
        else
          let available := tnode.size - offset
          (0, (tnode.data.drop offset).take (tmpfsMinSize size available))

/-- Where `tmpfs_write` starts to write. -/
def writeOffset (s : Tmpfs) (n offset : Nat) (flags : BitVec 32) : Nat :=
  if flags &&& O_APPEND ≠ 0 then (s.file n).size else offset

/-- `tmpfs_write`, with its return code; `none` if it never returns. The
first `size` bytes of `buffer` are written. -/
def tmpfsWrite (s : Tmpfs) (node : Option Nat) (buffer : Option (List UInt8))
    (size offset : Nat) (flags : BitVec 32) (ok : Bool) : Option (Tmpfs × Int) :=
  match node with
  | none => some (s, -1)
  | some n =>
      if buffer.isNone ∧ size ≠ 0 then some (s, -1)
      else if (s.fs.nodes n).type ≠ .reg then some (s, -1)
      else
        let offset := s.writeOffset n offset flags
        match s.tmpfsResizeNode n ((offset + size) % 2 ^ 64) ok with
        | none => none
        | some (s, rc) =>
            if rc ≠ 0 then some (s, rc)
            else
              let src := (buffer.getD []).take size
              let s := if size ≠ 0 then
                  s.modFile n fun f => { f with data := memcpyAt f.data offset src }
                else s
              some (s, 0)

-- ==== vfs calls

/-- `vfs_lookup` as a step of the store. -/
def vfsLookup (s : Tmpfs) (start : Option Nat) (path : Option CStr)
    (flags : BitVec 32) : Except Int (Tmpfs × Fs.Found) :=
  match s.fs.vfsLookup start path flags with
  | .error rc => .error rc
  | .ok (_, found) =>
      .ok ({ s with fs := s.fs.vnodeHold found.node
                    closed := s.closed.vnodeHold found.node }, found)

/-- `vnode_release` as a step of the store. -/
def vnodeRelease (s : Tmpfs) (node : Nat) : Tmpfs :=
  { s with fs := s.fs.vnodeRelease node, closed := s.closed.vnodeRelease node }

/-- `vfs_create`. A failed call leaves the store as it was: the reference
on the parent is taken and dropped again. -/
def vfsCreate (s : Tmpfs) (ref : Option Nat) (path : Option CStr)
    (attr : Option Mode) (type : Mode) (ok : Bool) : Except Int (Tmpfs × Nat) :=
  if ref.isNone ∨ path.isNone then .error (-1)
  else
    match s.vfsLookup ref path VFS_LOOKUP_PARENT with
    | .error rc => .error rc
    | .ok (s, found) =>
        match found.lastcomp with
        | none => .error (-1)
        | some name =>
            match s.tmpfsCreate (some found.node) (some name) attr type true ok with
            | .error rc => .error rc
            | .ok (s, node) => .ok (s.vnodeRelease found.node, node)

end Tmpfs

end Alix
