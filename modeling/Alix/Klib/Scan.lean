/-
The loops of `lib/string.c` that read, step by step: `strlen` and `memcmp`.

As in `String.lean` an address is a number and a word is read whole. A loop
that may return from the function ends in an exception with what it
returns. The loops of `strlen` have no bound, so they get fuel; the two
that `n` counts down do not need any.
-/
import Alix.Klib.String

namespace Alix.Klib

open Bytes (Memory load)

-- ==== strlen

/-- `has_zero_byte`. -/
def hasZeroByte (x : BitVec 64) : Bool :=
  let ones := repeatByte 0x01
  let highs := repeatByte 0x80
  (x - ones) &&& ~~~x &&& highs != 0

/-- The first loop of `strlen`, which returns if it comes to the end of the
string and leaves an aligned `s` otherwise. -/
def strlenHead (m : Memory) (start : Nat) : Nat → Nat → Option (Except Nat Nat)
  | 0, _ => none
  | fuel + 1, s =>
      if unaligned s s then
        if m s = 0 then some (.error (s - start)) else strlenHead m start fuel (s + 1)
      else some (.ok s)

/-- The loop over words. -/
def strlenWords (m : Memory) : Nat → Nat → Option Nat
  | 0, _ => none
  | fuel + 1, s =>
      let chunk := BitVec.ofNat 64 (load m s WORD_BYTES)
      if hasZeroByte chunk then some s else strlenWords m fuel (s + WORD_BYTES)

/-- The last loop. -/
def strlenTail (m : Memory) : Nat → Nat → Option Nat
  | 0, _ => none
  | fuel + 1, s => if m s ≠ 0 then strlenTail m fuel (s + 1) else some s

/-- `strlen`. -/
def strlen (m : Memory) (fuel start : Nat) : Option Nat :=
  if start = 0 then some 0
  else
    match strlenHead m start fuel start with
    | none => none
    | some (.error len) => some len
    | some (.ok s) => do
        let s ← strlenWords m fuel s
        let s ← strlenTail m fuel s
        return s - start

-- ==== memcmp

/-- `p1`, `p2` and `n`. -/
structure Compare where
  p1 : Nat
  p2 : Nat
  n : Nat

/-- The test of two bytes, which returns if they differ. -/
def memcmpByte (m : Memory) (p1 p2 : Nat) : Except Int Unit :=
  if m p1 ≠ m p2 then throw (if m p1 < m p2 then -1 else 1) else pure ()

/-- The first loop of `memcmp`. -/
def memcmpHead (m : Memory) (p1 p2 : Nat) : Nat → Except Int Compare
  | 0 => pure ⟨p1, p2, 0⟩
  | n + 1 =>
      if unaligned p1 p2 then do
        memcmpByte m p1 p2
        memcmpHead m (p1 + 1) (p2 + 1) n
      else pure ⟨p1, p2, n + 1⟩

/-- The test of two words, which goes through the bytes if they differ. -/
def memcmpWord (m : Memory) (p1 p2 : Nat) : Except Int Unit :=
  if load m p1 8 ≠ load m p2 8 then
    (List.range 8).forM fun i => memcmpByte m (p1 + i) (p2 + i)
  else pure ()

/-- The loop over words. -/
def memcmpWords (m : Memory) (p1 p2 : Nat) : Nat → Except Int Compare
  | n + 8 => do
      memcmpWord m p1 p2
      memcmpWords m (p1 + 8) (p2 + 8) n
  | n => pure ⟨p1, p2, n⟩

/-- The last loop. -/
def memcmpTail (m : Memory) (p1 p2 : Nat) : Nat → Except Int Unit
  | 0 => pure ()
  | n + 1 => do
      memcmpByte m p1 p2
      memcmpTail m (p1 + 1) (p2 + 1) n

/-- `memcmp`. -/
def memcmp (m : Memory) (s1 s2 n : Nat) : Int :=
  let loops : Except Int Unit := do
    let c ← memcmpHead m s1 s2 n
    let c ← memcmpWords m c.p1 c.p2 c.n
    memcmpTail m c.p1 c.p2 c.n
  match loops with
  | .error r => r
  | .ok () => 0

-- ==== strings

/-- `*_string_equal`: the same function in `vfs.c`, `tmpfs.c`, `initrd.c`,
`elf.c` and `main.c`. -/
def stringEqual (m : Memory) (fuel lhs rhs : Nat) : Option Bool :=
  if lhs = 0 ∨ rhs = 0 then some false
  else do
    let lhsLen ← strlen m fuel lhs
    let rhsLen ← strlen m fuel rhs
    return lhsLen == rhsLen && memcmp m lhs rhs lhsLen == 0

end Alix.Klib
