/-
Reading a directory of `fs/tmpfs.c`.

An offset is a position: 0 is ".", 1 is "..", and the children follow in
the order of their list. Offsets have 64 bits, in `d_off` as well as in
the argument.
-/
import Alix.Fs.Files

namespace Alix

abbrev S_IFSOCK : Mode := 0xc000#32
abbrev S_IFLNK : Mode := 0xa000#32
abbrev S_IFBLK : Mode := 0x6000#32
abbrev S_IFCHR : Mode := 0x2000#32
abbrev S_IFIFO : Mode := 0x1000#32

abbrev DT_UNKNOWN : Nat := 0
abbrev DT_FIFO : Nat := 1
abbrev DT_CHR : Nat := 2
abbrev DT_DIR : Nat := 4
abbrev DT_BLK : Nat := 6
abbrev DT_REG : Nat := 8
abbrev DT_LNK : Nat := 10
abbrev DT_SOCK : Nat := 12

/-- `dirent_t`. -/
structure Dirent where
  ino : Nat
  off : Nat
  reclen : Nat
  type : Nat
  name : CStr

/-- `sizeof(dirent_t)`. -/
abbrev DIRENT : Nat := 280

/-- `tmpfs_dirent_type`. -/
def tmpfsDirentType (mode : Mode) : Nat :=
  if mode &&& S_IFMT = S_IFDIR then DT_DIR
  else if mode &&& S_IFMT = S_IFREG then DT_REG
  else if mode &&& S_IFMT = S_IFCHR then DT_CHR
  else if mode &&& S_IFMT = S_IFBLK then DT_BLK
  else if mode &&& S_IFMT = S_IFIFO then DT_FIFO
  else if mode &&& S_IFMT = S_IFLNK then DT_LNK
  else if mode &&& S_IFMT = S_IFSOCK then DT_SOCK
  else DT_UNKNOWN

namespace Tmpfs

/-- `tmpfs_child_at`. -/
def tmpfsChildAt (s : Tmpfs) (parent index : Nat) : Option Nat :=
  (s.fs.nodes parent).children[index]?

/-- `tmpfs_fill_dirent`. `d_name` has room for `NAME_MAX` bytes and their
terminator. -/
def tmpfsFillDirent (s : Tmpfs) (node : Option Nat) (name : Option CStr)
    (nextOffset : Nat) : Dirent where
  ino := match node with
    | some n => (s.file n).inode
    | none => 0
  off := nextOffset
  reclen := DIRENT
  type := tmpfsDirentType (match node with
    | some n => (s.file n).mode
    | none => 0)
  name := (name.getD []).take NAME_MAX

/-- The loop of `tmpfs_getdents`, with room for `left` more entries. -/
def getdentsLoop (s : Tmpfs) (dir : Nat) : Nat → Nat → List Dirent
  | 0, _ => []
  | left + 1, index =>
      let next := (index + 1) % 2 ^ 64
      if index = 0 then
        s.tmpfsFillDirent (some dir) (some [DOT]) next
          :: s.getdentsLoop dir left next
      else if index = 1 then
        let parent := (s.fs.nodes dir).parent.getD dir
        s.tmpfsFillDirent (some parent) (some [DOT, DOT]) next
          :: s.getdentsLoop dir left next
      else
        match s.tmpfsChildAt dir (index - 2) with
        | none => []
        | some child =>
            s.tmpfsFillDirent (some child) (some (s.fs.nodes child).name) next
              :: s.getdentsLoop dir left next

/-- `tmpfs_getdents`, with its return code and the entries in the buffer;
`*readc` is `DIRENT` bytes for each. -/
def tmpfsGetdents (s : Tmpfs) (node : Option Nat) (buffer : Bool)
    (size offset : Nat) : Int × List Dirent :=
  match node with
  | none => (-1, [])
  | some dir =>
      if !buffer then (-1, [])
      else if (s.fs.nodes dir).type ≠ .dir then (-1, [])
      else
        let capacity := size / DIRENT
        if capacity = 0 then (0, [])
        else (0, s.getdentsLoop dir capacity offset)

end Tmpfs

end Alix
