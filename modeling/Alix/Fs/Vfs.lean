/-
Path lookup of `fs/vfs.c`.

The cursor into a path is the rest of its bytes, so `*cursor == '\0'` is
the empty list. The loop of `vfs_lookup` reads at least one byte a round;
it is structural on a fuel of one more than the length of the path
(`lookupLoop`), and the fuel never runs out (`lookupLoop_eq`).
-/
import Alix.Fs.Tmpfs

namespace Alix

/-- The byte '/'. -/
abbrev SLASH : UInt8 := 47

/-- The byte '.'. -/
abbrev DOT : UInt8 := 46

abbrev VFS_LOOKUP_PARENT : BitVec 32 := 0x20000000#32

/-- `vfs_component_length`. -/
def vfsComponentLength : CStr → Nat
  | [] => 0
  | c :: path => if c = SLASH then 0 else vfsComponentLength path + 1

/-- `vfs_skip_slashes`. -/
def vfsSkipSlashes : CStr → CStr
  | [] => []
  | c :: path => if c = SLASH then vfsSkipSlashes path else c :: path

/-- `vfs_component_equal`: `rhs[len] == '\0'`, and `memcmp` of `len` bytes
of the two zero-terminated buffers. -/
def vfsComponentEqual (lhs rhs : CStr) (len : Nat) : Bool :=
  (rhs ++ [0])[len]? == some 0 && (lhs ++ [0]).take len == rhs.take len

/-- `vfs_is_absolute_path`. -/
def vfsIsAbsolutePath (path : CStr) : Bool := path.head? == some SLASH

namespace Fs

/-- The loop of `vfs_follow_mounts`. -/
def followLoop (fs : Fs) : Nat → Nat → Nat
  | 0, node => node
  | fuel + 1, node =>
      match (fs.nodes node).mounted with
      | none => node
      | some root => fs.followLoop fuel root

/-- `vfs_follow_mounts`. -/
def vfsFollowMounts (fs : Fs) (node : Option Nat) : Option Nat :=
  node.map (fs.followLoop fs.count)

/-- `vnode_hold`. -/
def vnodeHold (fs : Fs) (node : Nat) : Fs :=
  let held := { fs.nodes node with refcount := (fs.nodes node).refcount + 1 }
  { fs with
    nodes := Function.update fs.nodes node held
    mount_lt := by
      intro n r h
      refine fs.mount_lt n r ?_
      by_cases hn : n = node
      · subst hn
        rw [Function.update_self] at h
        exact h
      · rw [Function.update_of_ne hn] at h
        exact h }

/-- What a successful `vfs_lookup` leaves in `*result` and `lastcomp`. -/
structure Found where
  node : Nat
  lastcomp : Option CStr

/-- The loop of `vfs_lookup`. -/
def lookupLoop (fs : Fs) (flags : BitVec 32) :
    Nat → Nat → CStr → Except Int Found
  | 0, _, _ => .error (-1)
  | fuel + 1, current, cursor =>
      let len := vfsComponentLength cursor
      -- `sizeof(component)` is 256, with room for the terminator
      if len = 0 ∨ 256 ≤ len then .error (-1)
      else
        let component := cursor.take len
        let cursor := vfsSkipSlashes (cursor.drop len)
        if flags &&& VFS_LOOKUP_PARENT ≠ 0 ∧ cursor = [] then
          .ok ⟨current, some component⟩
        else if vfsComponentEqual component [DOT] 1 then
          fs.lookupLoop flags fuel current cursor
        else if vfsComponentEqual component [DOT, DOT] 2 then .error (-1)
        else
          match fs.tmpfsLookup current component with
          | .error rc => .error rc
          | .ok next =>
              match fs.vfsFollowMounts (some next) with
              | none => .error (-1)
              | some current =>
                  if cursor = [] then .ok ⟨current, none⟩
                  else fs.lookupLoop flags fuel current cursor

/-- `vfs_lookup`. The reference it takes is on the vnode it finds; every
vnode of a tmpfs has a `lookup` operation, so that test always passes. -/
def vfsLookup (fs : Fs) (start : Option Nat) (path : Option CStr)
    (flags : BitVec 32) : Except Int (Fs × Found) :=
  match path with
  | none => .error (-1)
  | some path =>
      let current := if vfsIsAbsolutePath path then fs.vfsroot else start
      match fs.vfsFollowMounts current with
      | none => .error (-1)
      | some current =>
          let cursor := vfsSkipSlashes path
          if cursor = [] then .ok (fs.vnodeHold current, ⟨current, none⟩)
          else
            match fs.lookupLoop flags (cursor.length + 1) current cursor with
            | .error rc => .error rc
            | .ok found => .ok (fs.vnodeHold found.node, found)

end Fs

end Alix
