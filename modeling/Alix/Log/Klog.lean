/-
The kernel log, `log/klog.c`: the record of a message, its line, and the
ring of records.

An array of characters that holds a string is a `CString` of its size: the
bytes in front of the NUL, for which there is room. Other strings are lists
of bytes, read up to the first NUL. The arrays on the stack hold anything
before they are filled, which is `junk`. The framebuffer gets the same
characters as the UART behind it, and is left out.
-/
import Alix.Klib.Kprintf
import Alix.Klib.String
import Alix.Lib.RingBuffer
import Mathlib.Data.List.TakeWhile

namespace Alix.Log

open Alix.Klib

abbrev KLOG_RING_SIZE : Nat := 512

abbrev KLOG_NS_MAX : Nat := 32

abbrev KLOG_MSG_MAX : Nat := 192

theorem klogMsgMax_pos : 0 < KLOG_MSG_MAX := by decide

/-- `sizeof(line)`. -/
abbrev LINE_SIZE : Nat := 512

-- ==== strings

/-- The characters in front of the NUL. -/
def cstr (l : List UInt8) : List UInt8 := l.takeWhile (· ≠ 0)

/-- An array of `size` characters with a string in it. -/
structure CString (size : Nat) where
  bytes : List UInt8
  fits : bytes.length < size
  nul : 0 ∉ bytes
deriving DecidableEq

theorem zero_notMem_cstr (l : List UInt8) : 0 ∉ cstr l := fun h =>
  absurd (List.mem_takeWhile_imp h) (by decide)

/-- What stands in memory, which has a NUL at `size - 1` if not before. -/
def CString.read (size : Nat) (hsize : 0 < size) (mem : Nat → UInt8) : CString size where
  bytes := cstr ((List.range (size - 1)).map mem)
  fits := by
    have hle := (List.takeWhile_prefix (p := (· ≠ 0))
      (l := (List.range (size - 1)).map mem)).length_le
    rw [List.length_map, List.length_range] at hle
    exact Nat.lt_of_le_of_lt hle (by omega)
  nul := zero_notMem_cstr _

/-- `strlcpy` into an array. -/
def strlcpy (size : Nat) (hsize : 0 < size) (src : List UInt8) : CString size where
  bytes := Klib.strlcpy (some (cstr src)) size
  fits := by
    have hle : (Klib.strlcpy (some (cstr src)) size).length ≤ size - 1 := List.length_take_le _ _
    omega
  nul := fun h => zero_notMem_cstr src (List.mem_of_mem_take h)

-- ==== a record

/-- What `kvlog_write_impl` has of its `struct klog_record` before it takes
the lock. -/
structure Draft where
  timeUs : BitVec 64
  ns : CString KLOG_NS_MAX
  msg : CString KLOG_MSG_MAX
deriving DecidableEq

/-- `struct klog_record`. -/
structure Record extends Draft where
  seq : BitVec 64
deriving DecidableEq

/-- `kvlog_write_impl` up to `spinlock_lock`; `now` is `time_uptime_us()`. -/
def kvlogWriteImpl (junk : Nat → UInt8) (now : BitVec 64) (ns : Option (List UInt8))
    (fmt : Option (List UInt8)) (ap : Args) : Draft :=
  let name := cstr (ns.getD [])
  let name := if name = [] then chars "kernel" else name
  { timeUs := now
    ns := strlcpy KLOG_NS_MAX (by decide) name
    msg := CString.read KLOG_MSG_MAX (by decide) (kvsnprintf ap junk KLOG_MSG_MAX fmt).1 }

-- ==== a line

/-- The loop of `klog_buf_puts_crlf`. The bounds test of `klog_buf_putc` is
that of `buf_putc`. -/
def crlfLoop {σ : Type} [Out σ] (out : σ) (prevWasCr : Bool) : List UInt8 → σ
  | [] => out
  | c :: s =>
      let out := if c = chr '\n' ∧ prevWasCr = false then Out.putc out (chr '\r') else out
      crlfLoop (Out.putc out c) (c = chr '\r') s

/-- `klog_buf_puts_crlf`. -/
def klogBufPutsCrlf {σ : Type} [Out σ] (out : σ) (s : Option (List UInt8)) : σ :=
  crlfLoop out false (s.getD (chars "(null)"))

/-- The arguments of the `ksnprintf` in `klog_emit`. The array `rec->ns` is
at some address. -/
def lineArgs (rec : Draft) : Args where
  slot n :=
    if n = 0 then rec.timeUs / 1000000#64
    else if n = 1 then rec.timeUs / 1000#64 % 1000#64
    else 1
  str _ := rec.ns.bytes

/-- `klog_emit`: the string that goes to `uart_wstr`. -/
def klogEmit (junk : Nat → UInt8) (rec : Draft) : CString LINE_SIZE :=
  let line :=
    (kvsnprintf (lineArgs rec) junk LINE_SIZE (some (chars "[%5llu.%03llu] %s: "))).1
  let pos := (CString.read LINE_SIZE (by decide) line).bytes.length
  let buf := klogBufPutsCrlf (⟨line, LINE_SIZE, pos⟩ : Buf) (some rec.msg.bytes)
  let buf := klogBufPutsCrlf buf (some (chars "\r\n"))
  let line :=
    if buf.pos ≥ LINE_SIZE then Function.update buf.mem (LINE_SIZE - 1) 0
    else Function.update buf.mem buf.pos 0
  CString.read LINE_SIZE (by decide) line

-- ==== the ring

/-- `klog_ring` with `klog_head` and `klog_count`, `klog_next_seq` and
`klog_ready`. -/
structure Klog where
  ring : RingBuffer Record
  nextSeq : BitVec 64
  ready : Bool

namespace Klog

/-- `klog_ring_push`. -/
def klogRingPush (k : Klog) (rec : Draft) : Klog :=
  { k with
    ring := k.ring.push KLOG_RING_SIZE
      { seq := k.nextSeq
        timeUs := rec.timeUs
        ns := strlcpy KLOG_NS_MAX (by decide) rec.ns.bytes
        msg := strlcpy KLOG_MSG_MAX (by decide) rec.msg.bytes }
    nextSeq := k.nextSeq + 1 }

/-- What `kvlog_write_impl` does to the ring. -/
def store (k : Klog) (rec : Draft) : Klog := if k.ready then k.klogRingPush rec else k

/-- `klog_init`. -/
def klogInit (k : Klog) : Klog where
  ring := k.ring.clear
  nextSeq := 0
  ready := true

end Klog

end Alix.Log
