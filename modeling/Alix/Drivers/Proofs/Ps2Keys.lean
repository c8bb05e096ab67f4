/-
What the keyboard handler does not hear.

# The two kinds of noise

An acknowledge or a resend byte leaves the whole state alone, wherever it
comes, behind a prefix as well. An extended sequence sets the prefix and
clears it again, and the byte in the middle is compared with neither shift
key, because the prefix is pending then.

# The argument

The handler is a fold, so a stream splits at the place of the insertion
(`keys_append`). In front of it the two runs are one run, the inserted
bytes lead back to the state they start from, without a character
(`keys_answer`, `keys_sequence`), and behind it the runs are one run
again. The second kind needs that no prefix is pending at the place, which
is a fact about the bytes in front of it (`keys_extended`). Any number of
insertions, also into what has been inserted, are a chain of single ones.
-/
import Mathlib.Logic.Relation
import Alix.Drivers.Ps2Keys

namespace Alix.Ps2

variable {kbd : Kbd} {xs ys : List Delivery} {d e : Delivery}

-- ==== the statement

/-- The bytes 0xfa and 0xfe. -/
abbrev Delivery.Answer (d : Delivery) : Prop := d.code = 0xfa#8 ∨ d.code = 0xfe#8

/-- The byte 0xe0. -/
abbrev Delivery.Prefix (d : Delivery) : Prop := d.code = 0xe0#8

/-- Whether a prefix is pending behind a stream, where `p` says it for the
start: the last byte that is not an answer is a prefix. -/
def pending (p : Bool) (xs : List Delivery) : Bool :=
  xs.foldl (fun p d => if d.Answer then p else decide d.Prefix) p

/-- The second stream is the first with one insertion. -/
inductive Inserted (p : Bool) : List Delivery → List Delivery → Prop
  | answer {xs ys : List Delivery} {d : Delivery} : d.Answer →
      Inserted p (xs ++ ys) (xs ++ d :: ys)
  | extended {xs ys : List Delivery} {d e : Delivery} : pending p xs = false →
      d.Prefix → ¬ e.Prefix → ¬ e.Answer →
      Inserted p (xs ++ ys) (xs ++ d :: e :: ys)

-- ==== one interrupt

theorem key_answer (h : d.Answer) :
    ps2KeyboardKey kbd d.status d.code = (kbd, none) := by
  unfold ps2KeyboardKey
  rw [if_neg d.full]
  exact if_pos h

theorem key_first (h : d.Prefix) :
    ps2KeyboardKey kbd d.status d.code = ({ kbd with extended := true }, none) := by
  have ha : ¬ (d.code = 0xfa#8 ∨ d.code = 0xfe#8) := by
    rw [show d.code = 0xe0#8 from h]
    decide
  unfold ps2KeyboardKey
  rw [if_neg d.full, if_neg ha]
  exact if_pos h

/-- Every other byte ends the prefix. -/
theorem key_extended (ha : ¬ d.Answer) (hp : ¬ d.Prefix) :
    (ps2KeyboardKey kbd d.status d.code).1.extended = false := by
  unfold ps2KeyboardKey
  rw [if_neg d.full, if_neg ha, if_neg hp]

/-- And does nothing else behind one. -/
theorem key_behind (ha : ¬ d.Answer) (hp : ¬ d.Prefix) (he : kbd.extended = true) :
    ps2KeyboardKey kbd d.status d.code = ({ kbd with extended := false }, none) := by
  unfold ps2KeyboardKey
  rw [if_neg d.full, if_neg ha, if_neg hp]
  simp [he]

-- ==== streams

theorem keys_append (kbd : Kbd) (xs ys : List Delivery) :
    keys kbd (xs ++ ys)
      = ((keys (keys kbd xs).1 ys).1, (keys kbd xs).2 ++ (keys (keys kbd xs).1 ys).2) := by
  induction xs generalizing kbd with
  | nil => rfl
  | cons d xs ih =>
      show keys kbd (d :: (xs ++ ys)) = _
      simp only [keys]
      rw [ih]
      simp

/-- The prefix state is a fact about the bytes. -/
theorem keys_extended (kbd : Kbd) (xs : List Delivery) :
    (keys kbd xs).1.extended = pending kbd.extended xs := by
  induction xs generalizing kbd with
  | nil => rfl
  | cons d xs ih =>
      have hstep : (ps2KeyboardKey kbd d.status d.code).1.extended
          = if d.Answer then kbd.extended else decide d.Prefix := by
        by_cases ha : d.Answer
        · rw [key_answer ha, if_pos ha]
        · by_cases hp : d.Prefix
          · rw [key_first hp, if_neg ha, decide_eq_true hp]
          · rw [key_extended ha hp, if_neg ha, decide_eq_false hp]
      calc (keys kbd (d :: xs)).1.extended
          = (keys (ps2KeyboardKey kbd d.status d.code).1 xs).1.extended := rfl
        _ = pending (ps2KeyboardKey kbd d.status d.code).1.extended xs := ih _
        _ = pending kbd.extended (d :: xs) := by
              rw [hstep]
              rfl

theorem keys_answer (h : d.Answer) (ys : List Delivery) :
    keys kbd (d :: ys) = keys kbd ys := by
  simp [keys, key_answer h]

/-- An extended sequence, where no prefix is pending. -/
theorem keys_sequence (hkbd : kbd.extended = false) (hd : d.Prefix) (hp : ¬ e.Prefix)
    (ha : ¬ e.Answer) (ys : List Delivery) : keys kbd (d :: e :: ys) = keys kbd ys := by
  have hmid : ps2KeyboardKey { kbd with extended := true } e.status e.code = (kbd, none) := by
    rw [key_behind ha hp rfl, ← hkbd]
  simp [keys, key_first hd, hmid]

-- ==== insertions

/-- One insertion. -/
theorem Inserted.keys_eq (h : Inserted kbd.extended xs ys) : keys kbd ys = keys kbd xs := by
  cases h with
  | answer ha =>
      rw [keys_append, keys_append, keys_answer ha]
  | extended hpend hd hp ha =>
      rw [← keys_extended] at hpend
      rw [keys_append, keys_append, keys_sequence hpend hd hp ha]

/-- Answers at any places, and extended sequences at places where no
prefix is pending, change neither the characters logged nor the state. -/
theorem keys_inserted (h : Relation.ReflTransGen (Inserted kbd.extended) xs ys) :
    keys kbd ys = keys kbd xs := by
  induction h with
  | refl => rfl
  | tail _ hstep ih => rw [hstep.keys_eq, ih]

/-- A byte that comes with no other status bit. -/
def byte (code : BitVec 8) : Delivery := ⟨PS2_STATUS_OUTPUT_FULL, code, by decide⟩

/-- Shift and "a", with a fake shift release and an acknowledge in between
and an acknowledge inside the fake shift. -/
theorem keys_inserted_shift :
    keys Kbd.zero [byte 0x2a#8, byte 0xe0#8, byte 0xfa#8, byte 0xaa#8, byte 0x1e#8]
      = keys Kbd.zero [byte 0x2a#8, byte 0x1e#8]
    ∧ (keys Kbd.zero [byte 0x2a#8, byte 0x1e#8]).2 = ['A'] := by
  have hfake : Inserted false [byte 0x2a#8, byte 0x1e#8]
      [byte 0x2a#8, byte 0xe0#8, byte 0xaa#8, byte 0x1e#8] :=
    @Inserted.extended false [byte 0x2a#8] [byte 0x1e#8] (byte 0xe0#8) (byte 0xaa#8) (by decide)
      (by decide) (by decide) (by decide)
  have hack : Inserted false [byte 0x2a#8, byte 0xe0#8, byte 0xaa#8, byte 0x1e#8]
      [byte 0x2a#8, byte 0xe0#8, byte 0xfa#8, byte 0xaa#8, byte 0x1e#8] :=
    @Inserted.answer false [byte 0x2a#8, byte 0xe0#8] _ (byte 0xfa#8) (by decide)
  exact ⟨keys_inserted ((Relation.ReflTransGen.single hfake).tail hack), by decide⟩

end Alix.Ps2
