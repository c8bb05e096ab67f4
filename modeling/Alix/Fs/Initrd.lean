/-
`fs/initrd.c`: unpacking a newc cpio archive into the root file system.

The memory is the list of bytes from the start of the module on; the
module is its first `length` bytes, and a string that the code reads with
`strlen` may run on behind them. The cursor is an offset into that list.

Two things can keep a call from coming back with a tree: the heap, which
is asked once for each node and once for the bytes of each file, under
the path it is for (`Heap`); and the growth loop of `tmpfs_resize_node`,
whose `none` is passed on.
-/
import Alix.Fs.Files

namespace Alix

namespace Initrd

/-- `sizeof(cpio_newc_header_t)`. -/
abbrev HEADER : Nat := 110

/-- The text "070701". -/
def magic : List UInt8 := [48, 55, 48, 55, 48, 49]

/-- The text "TRAILER!!!". -/
def trailer : CStr := [84, 82, 65, 73, 76, 69, 82, 33, 33, 33]

/-- Whether the heap gives memory for a node, and for a file's bytes. -/
structure Heap where
  node : CStr → Bool
  bytes : CStr → Bool

-- ==== reading

/-- The value of a digit in `initrd_parse_hex`. -/
def hexDigit (c : UInt8) : Option (BitVec 32) :=
  if 48 ≤ c ∧ c ≤ 57 then some (BitVec.ofNat 32 (c.toNat - 48))
  else if 97 ≤ c ∧ c ≤ 102 then some (BitVec.ofNat 32 (c.toNat - 97 + 10))
  else if 65 ≤ c ∧ c ≤ 70 then some (BitVec.ofNat 32 (c.toNat - 65 + 10))
  else none

/-- The loop of `initrd_parse_hex`. -/
def parseLoop : BitVec 32 → List UInt8 → Option (BitVec 32)
  | value, [] => some value
  | value, c :: hex =>
      match hexDigit c with
      | none => none
      | some digit => parseLoop (value <<< 4 ||| digit) hex

/-- `initrd_parse_hex`; `none` where it leaves `*ok` false. -/
def initrdParseHex (hex : List UInt8) : Option (BitVec 32) := parseLoop 0 hex

/-- `initrd_align4`: the two low bits of `value + 3` are cleared. -/
def initrdAlign4 (value : Nat) : Nat := (value + 3) / 4 * 4

/-- `len` bytes at an offset. -/
def slice (mem : List UInt8) (off len : Nat) : List UInt8 :=
  (mem.drop off).take len

/-- The C string at an offset. -/
def cstr (mem : List UInt8) (off : Nat) : CStr :=
  (mem.drop off).takeWhile fun c => c ≠ 0

/-- The first loop of `initrd_normalize_path`: the name behind the leading
"./", or `none` for a name that is only "." by then. -/
def skipDots : CStr → Option CStr
  | [] => some []
  | [c] => if c = DOT then none else some [c]
  | c :: d :: name =>
      if c = DOT ∧ d = SLASH then skipDots name else some (c :: d :: name)

/-- `initrd_normalize_path` into a buffer of `PATH_MAX` bytes. -/
def initrdNormalizePath (name : CStr) : CStr :=
  match skipDots name with
  | none => []
  | some rest => SLASH :: rest.take (PATH_MAX - 2)

-- ==== unpacking

/-- `initrd_ensure_dir`. -/
def initrdEnsureDir (heap : Heap) (s : Tmpfs) (path : CStr) (mode : Mode) :
    Tmpfs × Int :=
  if path = [] ∨ path = [SLASH] then (s, 0)
  else
    match s.vfsLookup s.fs.vfsroot (some path) 0#32 with
    | .ok (s, found) => (s.vnodeRelease found.node, 0)
    | .error _ =>
        let attr := S_IFDIR ||| (mode &&& ACCESSPERMS)
        match s.vfsCreate s.fs.vfsroot (some path) (some attr) S_IFDIR
          (heap.node path) with
        | .error _ => (s, -1)
        | .ok (s, node) => (s.vnodeRelease node, 0)

/-- The loop of `initrd_ensure_parent_dirs`, with `left` bytes to go. -/
def parentLoop (heap : Heap) (path : CStr) : Nat → Nat → Tmpfs → Tmpfs × Int
  | 0, _, s => (s, 0)
  | left + 1, i, s =>
      if path.getD i 0 ≠ SLASH then parentLoop heap path left (i + 1) s
      else
        -- 0755
        let (s, rc) := initrdEnsureDir heap s (path.take i) 0x1ed#32
        if rc ≠ 0 then (s, -1) else parentLoop heap path left (i + 1) s

/-- `initrd_ensure_parent_dirs`. -/
def initrdEnsureParentDirs (heap : Heap) (s : Tmpfs) (path : CStr) :
    Tmpfs × Int :=
  if PATH_MAX ≤ path.length then (s, -1)
  else parentLoop heap path (path.length - 1) 1 s

/-- `initrd_unpack_dir`. -/
def initrdUnpackDir (heap : Heap) (s : Tmpfs) (path : CStr) (mode : Mode) :
    Tmpfs × Int :=
  let (s, rc) := initrdEnsureParentDirs heap s path
  if rc ≠ 0 then (s, -1) else initrdEnsureDir heap s path mode

/-- `initrd_unpack_file`; `none` if the write never ends. -/
def initrdUnpackFile (heap : Heap) (s : Tmpfs) (path : CStr) (mode : Mode)
    (data : List UInt8) (size : Nat) : Option (Tmpfs × Int) :=
  let (s, rc) := initrdEnsureParentDirs heap s path
  if rc ≠ 0 then some (s, -1)
  else
    let attr := S_IFREG ||| (mode &&& ACCESSPERMS)
    match s.vfsCreate s.fs.vfsroot (some path) (some attr) S_IFREG
      (heap.node path) with
    | .error _ => some (s, -1)
    | .ok (s, node) =>
        if size = 0 then some (s.vnodeRelease node, 0)
        else
          match s.tmpfsWrite (some node) (some data) size 0 (O_WRONLY ||| O_TRUNC)
            (heap.bytes path) with
          | none => none
          | some (s, rc) =>
              some (s.vnodeRelease node, if rc ≠ 0 then -1 else 0)

/-- What the header at the cursor says: mode, name size and file size. -/
def header (mem : List UInt8) (cursor : Nat) :
    Option (Mode × Nat × Nat) :=
  if slice mem cursor 6 ≠ magic then none
  else
    match initrdParseHex (slice mem (cursor + 14) 8),
        initrdParseHex (slice mem (cursor + 94) 8),
        initrdParseHex (slice mem (cursor + 54) 8) with
    | some mode, some nameSize, some fileSize =>
        if nameSize = 0 then none
        else some (mode, nameSize.toNat, fileSize.toNat)
    | _, _, _ => none

/-- The loop of `initrd_unpack`. Each round moves the cursor by more than
a header, so the fuel is one more than the bytes in front of it. -/
def unpackLoop (heap : Heap) (mem : List UInt8) (length : Nat) :
    Nat → Tmpfs → Nat → Option (Tmpfs × Int)
  | 0, _, _ => none
  | fuel + 1, s, cursor =>
      if length < cursor + HEADER then some (s, 0)
      else
        match header mem cursor with
        | none => some (s, -1)
        | some (mode, nameSize, fileSize) =>
            let data := cursor + initrdAlign4 (HEADER + nameSize)
            let next := data + initrdAlign4 fileSize
            if length < cursor + HEADER + nameSize then some (s, -1)
            else if length < data + fileSize then some (s, -1)
            else if cstr mem (cursor + HEADER) = trailer then some (s, 0)
            else
              let path := initrdNormalizePath (cstr mem (cursor + HEADER))
              if path = [] then unpackLoop heap mem length fuel s next
              else
                match nodeType mode with
                | some .dir =>
                    let (s, rc) := initrdUnpackDir heap s path mode
                    if rc ≠ 0 then some (s, -1)
                    else unpackLoop heap mem length fuel s next
                | some .reg =>
                    match initrdUnpackFile heap s path mode
                      (slice mem data fileSize) fileSize with
                    | none => none
                    | some (s, rc) =>
                        if rc ≠ 0 then some (s, -1)
                        else unpackLoop heap mem length fuel s next
                | none => unpackLoop heap mem length fuel s next

/-- `initrd_unpack`. -/
def initrdUnpack (heap : Heap) (s : Tmpfs) (mem : List UInt8) (length : Nat) :
    Option (Tmpfs × Int) :=
  if length = 0 then some (s, -1)
  else unpackLoop heap mem length (length + 1) s 0

end Initrd

end Alix
