/-
Vnodes and the directory tree of `fs/tmpfs.c`.

A vnode and its tmpfs node are one allocation with one lifetime, so both
are one record here and a pointer to either is its number in the store.
Strings are the bytes before their terminator. The `next_sibling` chain
of a directory is the list of its children, newest first, which is the
order `tmpfs_link_child` builds and `tmpfs_find_child` searches.

`vfs_mount` always mounts a root that it has just created, so along
`mounted_vfs->root` vnode numbers grow; `Fs` carries that as a field, and
it is what makes following mounts end.
-/
import Mathlib.Data.Nat.Basic
import Mathlib.Logic.Function.Basic

namespace Alix

/-- The bytes of a C string. -/
abbrev CStr : Type := List UInt8

/-- The `S_IFMT` part of a mode that tmpfs creates. -/
inductive NodeType where
  | reg
  | dir
deriving DecidableEq, Repr

/-- `vnode_t` with its `tmpfs_node_t`. `mounted` is
`mounted_vfs->root`. The count is an `int`, and wraps as the atomic
builtins do. -/
structure Vnode where
  type : NodeType
  mounted : Option Nat
  refcount : Int32
  parent : Option Nat
  children : List Nat
  name : CStr

/-- The vnodes allocated so far and `vfsroot`. -/
structure Fs where
  nodes : Nat → Vnode
  count : Nat
  vfsroot : Option Nat
  mount_lt : ∀ n r, (nodes n).mounted = some r → n < r ∧ r < count

namespace Fs

/-- `tmpfs_find_child`. -/
def tmpfsFindChild (fs : Fs) (parent : Nat) (name : CStr) : Option Nat :=
  (fs.nodes parent).children.find? fun child => (fs.nodes child).name = name

/-- `tmpfs_lookup`. -/
def tmpfsLookup (fs : Fs) (node : Nat) (name : CStr) : Except Int Nat :=
  if name = [46] then .ok node
  else if name = [46, 46] then .ok ((fs.nodes node).parent.getD node)
  else if (fs.nodes node).type ≠ .dir then .error (-1)
  else
    match fs.tmpfsFindChild node name with
    | none => .error (-1)
    | some child => .ok child

end Fs

end Alix
