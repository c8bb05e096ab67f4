/-
What `initrd_unpack` reads of the memory its module lies in.

These are the functions of `fs/initrd.c` that look at the module, with
the ranges they read; without the ranges they are those of the model
(`unpackReads_value`). The loop is cut into rounds here, and a round either
ends it, by `break` or by `return`, or moves the cursor.

A name is read as a string: up to its terminator, wherever that is.
-/
import Alix.Fs.Initrd
import Alix.Lib.Traced

namespace Alix.Initrd

open Traced

/-- A range of memory. -/
structure Span where
  off : Nat
  len : Nat
  deriving DecidableEq

/-- The range lies in the first `length` bytes. -/
def Span.Within (length : Nat) (r : Span) : Prop := r.off + r.len ≤ length

instance (length : Nat) (r : Span) : Decidable (r.Within length) :=
  inferInstanceAs (Decidable (_ ≤ _))

/-- `len` bytes at an offset. -/
def readBytes (mem : List UInt8) (off len : Nat) : Traced Span (List UInt8) :=
  ⟨[⟨off, len⟩], slice mem off len⟩

/-- How many digits the loop of `initrd_parse_hex` looks at. -/
def hexRead : List UInt8 → Nat
  | [] => 0
  | c :: hex => if hexDigit c = none then 1 else hexRead hex + 1

/-- `initrd_parse_hex` on a header field. -/
def readHex (mem : List UInt8) (off : Nat) : Traced Span (Option (BitVec 32)) :=
  ⟨[⟨off, hexRead (slice mem off 8)⟩], initrdParseHex (slice mem off 8)⟩

/-- A string, with its terminator: `strlen`, or "%s" of `klog`. -/
def readName (mem : List UInt8) (off : Nat) : Traced Span CStr :=
  ⟨[⟨off, (cstr mem off).length + 1⟩], cstr mem off⟩

/-- The fields of a header, in the order they are parsed. -/
def readHeader (mem : List UInt8) (cursor : Nat) :
    Traced Span (Option (Mode × Nat × Nat)) := do
  let text ← readBytes mem cursor 6
  if text ≠ magic then return none
  match ← readHex mem (cursor + 14) with
  | none => return none
  | some mode =>
      match ← readHex mem (cursor + 94) with
      | none => return none
      | some nameSize =>
          if nameSize = 0 then return none
          match ← readHex mem (cursor + 54) with
          | none => return none
          | some fileSize => return some (mode, nameSize.toNat, fileSize.toNat)

/-- A round of the loop of `initrd_unpack`. -/
def readRound (heap : Heap) (mem : List UInt8) (length : Nat) :
    Tmpfs × Nat → Traced Span (Turn (Tmpfs × Nat) (Option (Tmpfs × Int)))
  | (s, cursor) =>
      if length < cursor + HEADER then return .stop (some (s, 0))
      else do
        match ← readHeader mem cursor with
        | none => return .stop (some (s, -1))
        | some (mode, nameSize, fileSize) =>
            let data := cursor + initrdAlign4 (HEADER + nameSize)
            let next := data + initrdAlign4 fileSize
            if length < cursor + HEADER + nameSize then
              return .stop (some (s, -1))
            else if length < data + fileSize then
              -- the message shows the name
              let _ ← readName mem (cursor + HEADER)
              return .stop (some (s, -1))
            else
              let name ← readName mem (cursor + HEADER)
              if name = trailer then return .stop (some (s, 0))
              -- normalisation reads bytes of the same string again
              let path := initrdNormalizePath name
              if path = [] then return .next (s, next)
              match nodeType mode with
              | some .dir =>
                  let (s, rc) := initrdUnpackDir heap s path mode
                  if rc ≠ 0 then return .stop (some (s, -1))
                  return .next (s, next)
              | some .reg =>
                  let bytes ← readBytes mem data fileSize
                  match initrdUnpackFile heap s path mode bytes fileSize with
                  | none => return .stop none
                  | some (s, rc) =>
                      if rc ≠ 0 then return .stop (some (s, -1))
                      return .next (s, next)
              | none => return .next (s, next)

/-- `initrd_unpack` with what it reads. -/
def unpackReads (heap : Heap) (s : Tmpfs) (mem : List UInt8) (length : Nat) :
    Traced Span (Option (Tmpfs × Int)) :=
  if length = 0 then return some (s, -1)
  else do
    let result ← run (readRound heap mem length) (length + 1) (s, 0)
    return result.join

end Alix.Initrd
