/-
The copying loops of `lib/string.c`, step by step.

An address is a number below 2^64, and memory is a byte at each. A word
is read whole and then written whole, so a word of the destination may be
part of the source. Each loop gives the variables it leaves (`Copy`) to
the next; a pointer that has moved to the end of a region at the top of
the address space is 2^64 here and zero in the machine, with the same low
bits, and nothing is read or written there.
-/
import Alix.Lib.Bytes

namespace Alix.Klib

open Bytes (Memory load store)

/-- `sizeof(word_t)`. -/
abbrev WORD_BYTES : Nat := 8

/-- The memory, `d`, `s` and `n`. -/
structure Copy where
  mem : Memory
  d : Nat
  s : Nat
  n : Nat

/-- The test for bytes that have to be copied one by one. -/
def unaligned (d s : Nat) : Bool := (d ||| s) &&& (WORD_BYTES - 1) != 0

/-- `repeat_byte`. The loop doubles `i` from 8 on while it is below 64. -/
def repeatByte (c : BitVec 8) : BitVec 64 :=
  [8, 16, 32].foldl (fun (out : BitVec 64) i => out ||| out <<< i) (c.setWidth 64)

/-- `strlcpy` into a buffer of `dstsz` bytes, which is not 0: the string that
is in it then. Here a string is the bytes in front of its NUL. -/
def strlcpy (src : Option (List UInt8)) (dstsz : Nat) : List UInt8 :=
  (src.getD []).take (dstsz - 1)

-- ==== memcpy

/-- The first loop of `memcpy`. -/
def memcpyHead (m : Memory) (d s : Nat) : Nat → Copy
  | 0 => ⟨m, d, s, 0⟩
  | n + 1 =>
      if unaligned d s then memcpyHead (Function.update m d (m s)) (d + 1) (s + 1) n
      else ⟨m, d, s, n + 1⟩

/-- The loop over words. -/
def memcpyWords (m : Memory) (d s : Nat) : Nat → Copy
  | n + 8 => memcpyWords (store m d 8 (load m s 8)) (d + 8) (s + 8) n
  | n => ⟨m, d, s, n⟩

/-- The last loop. -/
def memcpyTail (m : Memory) (d s : Nat) : Nat → Copy
  | 0 => ⟨m, d, s, 0⟩
  | n + 1 => memcpyTail (Function.update m d (m s)) (d + 1) (s + 1) n

/-- `memcpy`, with what it returns. -/
def memcpy (m : Memory) (dest src n : Nat) : Memory × Nat :=
  let c := memcpyHead m dest src n
  let c := memcpyWords c.mem c.d c.s c.n
  let c := memcpyTail c.mem c.d c.s c.n
  (c.mem, dest)

-- ==== memmove

/-- The first loop of `memmove`, which comes from the end. -/
def memmoveHead (m : Memory) (d s : Nat) : Nat → Copy
  | 0 => ⟨m, d, s, 0⟩
  | n + 1 =>
      if unaligned d s then
        memmoveHead (Function.update m (d - 1) (m (s - 1))) (d - 1) (s - 1) n
      else ⟨m, d, s, n + 1⟩

/-- The loop over words. -/
def memmoveWords (m : Memory) (d s : Nat) : Nat → Copy
  | n + 8 => memmoveWords (store m (d - 8) 8 (load m (s - 8) 8)) (d - 8) (s - 8) n
  | n => ⟨m, d, s, n⟩

/-- The last loop. -/
def memmoveTail (m : Memory) (d s : Nat) : Nat → Copy
  | 0 => ⟨m, d, s, 0⟩
  | n + 1 => memmoveTail (Function.update m (d - 1) (m (s - 1))) (d - 1) (s - 1) n

/-- `memmove`. The sum in the test is a 64-bit one. -/
def memmove (m : Memory) (dest src n : Nat) : Memory × Nat :=
  if dest = src ∨ n = 0 then (m, dest)
  else if dest < src ∨ dest ≥ (src + n) % 2 ^ 64 then memcpy m dest src n
  else
    let c := memmoveHead m (dest + n) (src + n) n
    let c := memmoveWords c.mem c.d c.s c.n
    let c := memmoveTail c.mem c.d c.s c.n
    (c.mem, dest)

end Alix.Klib
