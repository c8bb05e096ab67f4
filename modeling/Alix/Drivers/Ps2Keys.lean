/-
The keys of `drivers/ps2/main.c`: what the keyboard handler makes of the
bytes that the controller delivers.

`Ps2.lean` follows an instance through its lifecycle and leaves out the
key that is logged. Here the instance stays, and the key is the result of
the handler next to the state; `ps2KeyboardKey_kbd` is the link. A byte
comes with the status that announces it (`Delivery`), one for each
interrupt, and both ports answer.
-/
import Alix.Drivers.Ps2

namespace Alix.Ps2

-- ==== the maps

/-- `ps2_keymap` up to its last key; what is not named there is zero. -/
def ps2Keymap : List Char :=
  "\x00\x001234567890-=\x08\tqwertyuiop[]\n\x00asdfghjkl;'`\x00\\zxcvbnm,./\x00\x00\x00 ".toList

/-- `ps2_shift_keymap`. -/
def ps2ShiftKeymap : List Char :=
  "\x00\x00!@#$%^&*()_+\x08\tQWERTYUIOP\x7b\x7d\n\x00ASDFGHJKL:\"~\x00|ZXCVBNM<>?\x00\x00\x00 ".toList

-- ==== the handler

/-- `ps2_keyboard_irq`, where the two ports answer `status` and `code`,
with the character that `ps2_log_key` gets. -/
def ps2KeyboardKey (kbd : Kbd) (status code : BitVec 8) : Kbd × Option Char :=
  if status &&& PS2_STATUS_OUTPUT_FULL = 0 then (kbd, none)
  else if code = 0xfa#8 ∨ code = 0xfe#8 then (kbd, none)
  else if code = 0xe0#8 then ({ kbd with extended := true }, none)
  else
    let released := code &&& 0x80#8 != 0
    let code := code &&& 0x7f#8
    let (kbd, key) :=
      if !kbd.extended && code == 0x2a#8 then ({ kbd with leftShift := !released }, none)
      else if !kbd.extended && code == 0x36#8 then
        ({ kbd with rightShift := !released }, none)
      else if !released && !kbd.extended then
        let map := if kbd.leftShift || kbd.rightShift then ps2ShiftKeymap else ps2Keymap
        let ch := map.getD code.toNat '\x00'
        (kbd, if ch != '\x00' then some ch else none)
      else (kbd, none)
    ({ kbd with extended := false }, key)

-- ==== the runs

/-- A byte, and the status that says it is there. -/
structure Delivery where
  status : BitVec 8
  code : BitVec 8
  full : status &&& PS2_STATUS_OUTPUT_FULL ≠ 0
deriving DecidableEq

/-- The interrupts of a stream, with the characters logged. -/
def keys : Kbd → List Delivery → Kbd × List Char
  | kbd, [] => (kbd, [])
  | kbd, d :: ds =>
      let (kbd, key) := ps2KeyboardKey kbd d.status d.code
      let (kbd, log) := keys kbd ds
      (kbd, key.toList ++ log)

end Alix.Ps2
