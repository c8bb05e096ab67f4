/-
What a report of a panic says.

The walk follows the saved frame pointers as long as they go up the stack
(`Chain`), and logs the return address of each frame that has another one
above it, so the outermost frame is not logged (`panicWalk_chain`). It
ends in every memory, and its end is missing from the report if and only
if a read faults on the way (`panicWalk_faults`).

The register lines are as wide as they can get and no wider than a record
has room for, and each number in them reads back (`read_hexText`). A line
with a symbol in it may be longer, but what is cut off is not the address
(`symbolLine_front`).
-/
import Alix.Debug.Panic
import Alix.Klib.Proofs.Directive
import Alix.Log.Proofs.Klog

namespace Alix.Debug

open Klib X86 Cpu Log

variable {load : Word → Option Word} {f g prev : Word} {rs : List Word} {n d : Nat}

-- ==== the walk

/-- A frame with another one above it. -/
structure Linked (load : Word → Option Word) (f g : Word) : Prop where
  next : load f = some g
  aligned : f &&& 0xf = 0
  up : f < g
  alignedNext : g &&& 0xf = 0

/-- The return addresses of the frames from `f` on, up to the outermost
one, or to one that is broken. -/
inductive Chain (load : Word → Option Word) : Word → List Word → Prop
  | none : Chain load 0 []
  | outermost {f g : Word} (hne : f ≠ 0) (hnext : load f = some g) (hend : ¬ Linked load f g) :
      Chain load f []
  | noReturn {f g : Word} (hne : f ≠ 0) (hlink : Linked load f g) (hret : load (f + 8) = some 0) :
      Chain load f []
  | frame {f g r : Word} {rs : List Word} (hne : f ≠ 0) (hlink : Linked load f g)
      (hret : load (f + 8) = some r) (hr : r ≠ 0) (hrest : Chain load g rs) : Chain load f (r :: rs)

/-- Within a number of frames from `f` on, one lies where nothing is
mapped. -/
inductive Faults (load : Word → Option Word) : Nat → Word → Prop
  | next {n : Nat} {f : Word} (hne : f ≠ 0) (hnone : load f = none) : Faults load (n + 1) f
  | ret {n : Nat} {f g : Word} (hne : f ≠ 0) (hlink : Linked load f g)
      (hnone : load (f + 8) = none) : Faults load (n + 1) f
  | above {n : Nat} {f g r : Word} (hne : f ≠ 0) (hlink : Linked load f g)
      (hret : load (f + 8) = some r) (hr : r ≠ 0) (hrest : Faults load n g) :
      Faults load (n + 1) f

/-- The walk comes from below. -/
def Below (prev f : Word) : Prop := prev = 0 ∨ prev < f

theorem sane_of_linked (hne : f ≠ 0) (h : Linked load f g) (hprev : Below prev f) :
    panicFrameIsSane load f prev = some true := by
  have hup : f.toNat < g.toNat := h.up
  have hge : ¬ g ≤ f := fun hle => absurd (show g.toNat ≤ f.toNat from hle) (by omega)
  have hpast : ¬ (prev ≠ 0 ∧ g ≤ prev) := by
    rintro ⟨hp, hle⟩
    rcases hprev with rfl | hlt
    · exact hp rfl
    · have hle' : g.toNat ≤ prev.toNat := hle
      have hlt' : prev.toNat < f.toNat := hlt
      omega
  have hzero : ¬ (g = 0 ∨ g &&& 0xf ≠ 0) := by
    rintro (rfl | hne')
    · exact absurd hup (Nat.not_lt_zero _)
    · exact hne' h.alignedNext
  rw [panicFrameIsSane, h.next, Option.map_some, if_neg hne, if_neg (not_not.mpr h.aligned),
    if_neg hge, if_neg hpast, if_neg hzero]

theorem insane_of_not_linked (hnext : load f = some g) (h : ¬ Linked load f g) :
    panicFrameIsSane load f prev = some false := by
  rw [panicFrameIsSane, hnext, Option.map_some]
  congr 1
  by_cases hne : f = 0
  · exact if_pos hne
  rw [if_neg hne]
  by_cases haligned : f &&& 0xf = 0
  · rw [if_neg (not_not.mpr haligned)]
    by_cases hup : g ≤ f
    · exact if_pos hup
    rw [if_neg hup]
    by_cases hpast : prev ≠ 0 ∧ g ≤ prev
    · exact if_pos hpast
    rw [if_neg hpast]
    exact if_pos (.inr fun halign =>
      h ⟨hnext, haligned, Nat.lt_of_not_le fun hle => hup hle, halign⟩)
  · exact if_pos haligned

-- One equation for each way through a round.

theorem panicWalk_null : panicWalk load n d 0 prev = ([], true) := by
  cases n <;> rfl

theorem panicWalk_unread (hne : f ≠ 0) (h : load f = none) :
    panicWalk load (n + 1) d f prev = ([], false) := by
  rw [panicWalk, if_neg hne, panicFrameIsSane, h]
  rfl

theorem panicWalk_stop (hne : f ≠ 0) (h : panicFrameIsSane load f prev = some false) :
    panicWalk load (n + 1) d f prev = ([], true) := by
  rw [panicWalk, if_neg hne, h]

theorem panicWalk_noReturn (hne : f ≠ 0) (h : panicFrameIsSane load f prev = some true)
    (hret : load (f + 8) = some 0) : panicWalk load (n + 1) d f prev = ([], true) := by
  rw [panicWalk, if_neg hne, h, hret]
  rfl

theorem panicWalk_retUnread (hne : f ≠ 0) (h : panicFrameIsSane load f prev = some true)
    (hret : load (f + 8) = none) : panicWalk load (n + 1) d f prev = ([], false) := by
  rw [panicWalk, if_neg hne, h, hret]

theorem panicWalk_frame (hne : f ≠ 0) (h : panicFrameIsSane load f prev = some true) {r : Word}
    (hret : load (f + 8) = some r) (hr : r ≠ 0) (hnext : load f = some g) :
    panicWalk load (n + 1) d f prev
      = ((r, d) :: (panicWalk load n (d + 1) g f).1, (panicWalk load n (d + 1) g f).2) := by
  rw [panicWalk, if_neg hne, h, hret, hnext]
  exact if_neg hr

/-- The next frame comes from below, too. -/
theorem Linked.below (h : Linked load f g) : Below f g := .inr h.up

theorem panicWalk_chain (h : Chain load f rs) (hprev : Below prev f) :
    panicWalk load n d f prev = ((rs.take n).zipIdx d, true) := by
  induction h generalizing n d prev with
  | none => rw [panicWalk_null, List.take_nil, List.zipIdx_nil]
  | outermost hne hnext hend =>
      cases n with
      | zero => rfl
      | succ n => exact panicWalk_stop hne (insane_of_not_linked hnext hend)
  | noReturn hne hlink hret =>
      cases n with
      | zero => rfl
      | succ n => exact panicWalk_noReturn hne (sane_of_linked hne hlink hprev) hret
  | frame hne hlink hret hr hrest ih =>
      cases n with
      | zero => rfl
      | succ n =>
          rw [panicWalk_frame hne (sane_of_linked hne hlink hprev) hret hr hlink.next,
            ih hlink.below]
          rfl

/-- The end is not reached if and only if a frame lies where nothing is
mapped. -/
theorem panicWalk_faults (hprev : Below prev f) :
    (panicWalk load n d f prev).2 = false ↔ Faults load n f := by
  induction n generalizing d f prev with
  | zero => exact iff_of_false (by rw [panicWalk]; decide) fun h => by cases h
  | succ n ih =>
      by_cases hne : f = 0
      · subst hne
        refine iff_of_false (by rw [panicWalk_null]; decide) fun h => ?_
        cases h with
        | next hne | ret hne | above hne => exact hne rfl
      cases hload : load f with
      | none =>
          exact iff_of_true (by rw [panicWalk_unread hne hload]) (.next hne hload)
      | some g =>
          by_cases hlink : Linked load f g
          · have hsane := sane_of_linked hne hlink hprev
            have hsame : ∀ g', Linked load f g' → g' = g := fun g' h =>
              Option.some.inj (h.next.symm.trans hload)
            cases hret : load (f + 8) with
            | none =>
                exact iff_of_true (by rw [panicWalk_retUnread hne hsane hret]) (.ret hne hlink hret)
            | some r =>
                by_cases hr : r = 0
                · subst hr
                  refine iff_of_false (by rw [panicWalk_noReturn hne hsane hret]; decide) fun h => ?_
                  cases h with
                  | next _ hnone => rw [hload] at hnone; cases hnone
                  | ret _ _ hnone => rw [hret] at hnone; cases hnone
                  | above _ _ hret' hr' =>
                      exact hr' (Option.some.inj (hret'.symm.trans hret))
                · have hwalk : (panicWalk load (n + 1) d f prev).2
                      = (panicWalk load n (d + 1) g f).2 := by
                    rw [panicWalk_frame hne hsane hret hr hload]
                  rw [hwalk, ih hlink.below]
                  refine ⟨.above hne hlink hret hr, fun h => ?_⟩
                  cases h with
                  | next _ hnone => rw [hload] at hnone; cases hnone
                  | ret _ _ hnone => rw [hret] at hnone; cases hnone
                  | above _ hlink' _ _ hrest => exact hsame _ hlink' ▸ hrest
          · have hsane : panicFrameIsSane load f prev = some false := insane_of_not_linked hload hlink
            refine iff_of_false (by rw [panicWalk_stop hne hsane]; decide) fun h => ?_
            cases h with
            | next _ hnone => rw [hload] at hnone; cases hnone
            | ret _ hlink' | above _ hlink' =>
                exact hlink (Option.some.inj (hlink'.next.symm.trans hload) ▸ hlink')

-- ==== the numbers

/-- The digits of `%llx`. -/
def hexDigits : Alphabet UInt8 := alphabet false 16 (by decide)

/-- A number in hexadecimal digits, with zeros in front up to a width. -/
def hexText (width : Nat) (v : Word) : List UInt8 :=
  List.replicate (width - (hexDigits.write v.toNat).length) (chr '0') ++ hexDigits.write v.toNat

theorem read_hexText (width : Nat) (v : Word) : hexDigits.read (hexText width v) = some v.toNat :=
  (Alphabet.read_zeros (A := hexDigits) _ _).trans (Alphabet.read_write _)

theorem hexText_length (v : Word) : (hexText 16 v).length = 16 := by
  have hle : (hexDigits.write v.toNat).length ≤ 16 := by
    unfold Alphabet.write
    split
    · exact (by decide : 1 ≤ 16)
    · rw [List.length_reverse, List.length_map]
      exact (Nat.digits_length_le_iff (by decide) _).mpr v.isLt
  rw [hexText, List.length_append, List.length_replicate]
  omega

/-- `%llx`, or `%016llx`. -/
def llx (flags : Flags) (width : BitVec 64) : Directive :=
  { flags, width, precision := .none, modifier := .ll, conv := .x }

theorem llx_text (a : Args) {flags : Flags} {width : BitVec 64} (ap : Nat)
    (h : flags = .zero ∨ flags = .none ∧ width = 0) :
    (llx flags width).text a ap = hexText width.toNat (a.slot ap) := by
  have hds : digitsText (a.slot ap).toNat 16 false = hexDigits.write (a.slot ap).toNat :=
    digitsText_eq false (a.slot ap).isLt (by decide) (by decide)
  show putuText (a.slot ap).toNat 16 false width.toNat flags.zeroPad flags.leftAlign = _
  rw [hexText]
  rcases h with rfl | ⟨rfl, rfl⟩
  · simp only [putuText, hds, Alphabet.write_ne_nil, Flags.leftAlign, Flags.zeroPad, if_false,
      if_true, Bool.false_eq_true]
  · simp [putuText, hds, Alphabet.write_ne_nil, Flags.leftAlign]

-- ==== the lines

variable {σ : Type} [Out σ]

theorem line_text (fmt : List UInt8) (args : List Arg) :
    Line.text { fmt, args } = (Klib.run (argList args) fmt ([] : List UInt8) 0).1 := rfl

/-- Labels, each with a number of sixteen digits. -/
def fields (ps : List (List UInt8 × Word)) : List UInt8 := ps.flatMap fun p => p.1 ++ hexText 16 p.2

theorem fields_cons (p : List UInt8 × Word) (ps : List (List UInt8 × Word)) :
    fields (p :: ps) = p.1 ++ hexText 16 p.2 ++ fields ps := rfl

theorem run_fields {a : Args} {ps : List (List UInt8 × Word)} {ap : Nat}
    (hargs : ∀ i p, ps[i]? = some p → a.slot (ap + i) = p.2) (hplain : ∀ p ∈ ps, chr '%' ∉ p.1)
    (rest : List UInt8) (out : σ) :
    Klib.run a (((ps.map Prod.fst).flatMap fun l => l ++ chars "%016llx") ++ rest) out ap
      = Klib.run a rest (puts out (fields ps)) (ap + ps.length) := by
  induction ps generalizing ap out with
  | nil => rfl
  | cons p ps ih =>
      have hslot : a.slot ap = p.2 := hargs 0 p rfl
      have hnext : ∀ i q, ps[i]? = some q → a.slot (ap + (llx .zero 16).args + i) = q.2 := by
        intro i q hq
        rw [show ap + (llx .zero 16).args + i = ap + (i + 1) by
          show ap + 1 + i = _; omega]
        exact hargs (i + 1) q hq
      rw [List.map_cons, List.flatMap_cons, List.append_assoc, List.append_assoc,
        show chars "%016llx" = (llx .zero 16).chars by decide,
        run_plain a p.1 (hplain p List.mem_cons_self), run_directive, llx_text a ap (.inl rfl),
        hslot, ← show chars "%016llx" = (llx .zero 16).chars by decide,
        ih hnext fun q hq => hplain q (List.mem_cons_of_mem p hq), fields_cons, puts_append,
        puts_append]
      have hap : ap + (llx .zero 16).args + ps.length = ap + (p :: ps).length := by
        show ap + 1 + ps.length = ap + (ps.length + 1)
        omega
      rw [hap]
      rfl

theorem slot_num {as : List Arg} {i : Nat} {v : Word} (h : as[i]? = some (.num v)) :
    (argList as).slot i = v := by
  simp only [argList, h]

/-- A line without conversions. -/
theorem plain_text {fmt : List UInt8} (h : chr '%' ∉ fmt) : Line.text { fmt, args := [] } = fmt := by
  have hrun := run_plain (argList []) fmt h [] ([] : List UInt8) 0
  rw [List.append_nil, Klib.run_nil, puts_list, List.nil_append] at hrun
  exact congrArg Prod.fst hrun

/-- A format of labels, each with a number of sixteen digits. -/
def Labelled (fmt : List UInt8) (labels : List (List UInt8)) : Prop :=
  fmt = (labels.flatMap fun l => l ++ chars "%016llx") ∧ ∀ l ∈ labels, chr '%' ∉ l

instance (fmt : List UInt8) (labels : List (List UInt8)) : Decidable (Labelled fmt labels) :=
  inferInstanceAs (Decidable (_ ∧ _))

/-- A line of the register dump, up to where something else follows. -/
theorem run_labelled {fmt : List UInt8} (ps : List (List UInt8 × Word)) (more : List Arg)
    (h : Labelled fmt (ps.map Prod.fst)) (rest out : List UInt8) :
    Klib.run (argList ((ps.map fun p => .num p.2) ++ more)) (fmt ++ rest) out 0
      = Klib.run (argList ((ps.map fun p => .num p.2) ++ more)) rest (puts out (fields ps))
          ps.length := by
  have hargs : ∀ i p, ps[i]? = some p →
      (argList ((ps.map fun p => .num p.2) ++ more)).slot (0 + i) = p.2 := by
    intro i p hp
    have hmap : (ps.map fun p => Arg.num p.2)[i]? = some (.num p.2) := by
      rw [List.getElem?_map, hp]
      rfl
    rw [Nat.zero_add]
    exact slot_num (List.getElem?_append_left (List.getElem?_eq_some_iff.mp hmap).1 ▸ hmap)
  rw [h.1, run_fields hargs fun p hp => h.2 p.1 (List.mem_map_of_mem hp), Nat.zero_add]

theorem labelled_text {fmt : List UInt8} (ps : List (List UInt8 × Word))
    (h : Labelled fmt (ps.map Prod.fst)) :
    Line.text { fmt, args := ps.map fun p => .num p.2 } = fields ps := by
  have hrun := run_labelled ps [] h [] []
  rw [List.append_nil, List.append_nil, Klib.run_nil, puts_list, List.nil_append] at hrun
  exact congrArg Prod.fst hrun

theorem slot_str (as : List Arg) {i : Nat} {t : List UInt8} (hi : i < 2 ^ 32)
    (h : as[i]? = some (.str t)) :
    (argList as).slot i ≠ 0 ∧ (argList as).str ((argList as).slot i) = t := by
  have hslot : (argList as).slot i = BitVec.ofNat 64 (i + 1) := by simp only [argList, h]
  have hnat : (BitVec.ofNat 64 (i + 1)).toNat = i + 1 := by
    rw [BitVec.toNat_ofNat, Nat.mod_eq_of_lt (by omega)]
  rw [hslot]
  refine ⟨fun hzero => ?_, ?_⟩
  · rw [hzero] at hnat
    cases hnat
  · simp only [argList, hnat, Nat.add_sub_cancel, h]

/-- The name of an address. -/
def symbolText (table : Array KallsymsEntry) (addr : Word) : List UInt8 :=
  match kallsymsLookup table addr (some 0) with
  | (some best, offset) =>
      chars " " ++ chars (entryAt table best).name ++ chars "+0x" ++ hexText 0 (offset.getD 0)
        ++ if (entryAt table best).size ≠ 0 then
          chars "/0x" ++ hexText 0 (entryAt table best).size else []
  | (none, _) => []

/-- An address with its name. -/
def addrText (table : Array KallsymsEntry) (addr : Word) : List UInt8 :=
  chars "[<" ++ hexText 16 addr ++ chars ">]" ++ symbolText table addr

/-- What both lines with a name begin with. -/
theorem run_symbol {as : List Arg} {addr off : Word} {name : List UInt8}
    (haddr : as[1]? = some (.num addr)) (hname : as[2]? = some (.str name))
    (hoff : as[3]? = some (.num off)) (rest out : List UInt8) :
    Klib.run (argList as) (chars "[<%016llx>] %s+0x%llx" ++ rest) out 1
      = Klib.run (argList as) rest (puts out (chars "[<" ++ hexText 16 addr ++ chars ">] " ++ name
          ++ chars "+0x" ++ hexText 0 off)) 4 := by
  have hfmt : chars "[<%016llx>] %s+0x%llx" = chars "[<" ++ ((llx .zero 16).chars
      ++ (chars ">] " ++ (plainStr.chars ++ (chars "+0x" ++ (llx .none 0).chars)))) := by
    decide
  obtain ⟨hne, hstr⟩ := slot_str _ (by decide) hname
  have htext : plainStr.text (argList as) 2 = name := (plainStr_text _ _ hne).trans hstr
  simp only [hfmt, List.append_assoc]
  rw [run_plain _ _ (by decide), run_directive, run_plain _ _ (by decide), run_directive,
    run_plain _ _ (by decide), run_directive, llx_text _ _ (.inl rfl), slot_num haddr]
  rw [show (llx .zero 16).args = 1 from rfl, show plainStr.args = 1 from rfl, htext,
    llx_text _ _ (.inr ⟨rfl, rfl⟩), slot_num hoff]
  simp only [puts_append]
  rfl

theorem logSymbol_text {table : Array KallsymsEntry} {front text : List UInt8} {arg : Arg}
    (hfront : ∀ as : List Arg, as[0]? = some arg → ∀ (rest out : List UInt8),
      Klib.run (argList as) (front ++ rest) out 0 = Klib.run (argList as) rest (puts out text) 1)
    (addr : Word) : (logSymbol table front arg addr).text = text ++ addrText table addr := by
  rcases hlookup : kallsymsLookup table addr (some 0) with ⟨_ | best, offset⟩
  · have hfmt : chars "[<%016llx>]" = chars "[<" ++ ((llx .zero 16).chars ++ (chars ">]" ++ [])) := by
      decide
    simp only [logSymbol, addrText, symbolText, hlookup]
    rw [line_text, hfront _ rfl, hfmt, run_plain _ _ (by decide), run_directive,
      run_plain _ _ (by decide), Klib.run_nil, llx_text _ _ (.inl rfl), slot_num rfl]
    simp only [puts_list, List.nil_append, List.append_assoc, List.append_nil]
    rfl
  · by_cases hsize : (entryAt table best).size = 0
    · have hline : logSymbol table front arg addr = ⟨front ++ chars "[<%016llx>] %s+0x%llx",
          [arg, .num addr, .str (chars (entryAt table best).name), .num (offset.getD 0)]⟩ := by
        simp only [logSymbol, hlookup]
        exact if_neg (not_not.mpr hsize)
      simp only [hline, addrText, symbolText, hlookup, hsize, ne_eq, not_true_eq_false, if_false]
      rw [line_text, hfront _ rfl, ← List.append_nil (chars "[<%016llx>] %s+0x%llx"),
        run_symbol rfl rfl rfl, Klib.run_nil]
      simp only [puts_list, List.nil_append, List.append_assoc, List.append_nil]
      rfl
    · have hline : logSymbol table front arg addr =
          ⟨front ++ chars "[<%016llx>] %s+0x%llx/0x%llx", [arg, .num addr,
            .str (chars (entryAt table best).name), .num (offset.getD 0),
            .num (entryAt table best).size]⟩ := by
        simp only [logSymbol, hlookup]
        exact if_pos hsize
      have hfmt : chars "[<%016llx>] %s+0x%llx/0x%llx"
          = chars "[<%016llx>] %s+0x%llx" ++ (chars "/0x" ++ ((llx .none 0).chars ++ [])) := by
        decide
      simp only [hline, addrText, symbolText, hlookup, if_pos hsize]
      rw [line_text, hfront _ rfl, hfmt, run_symbol rfl rfl rfl, run_plain _ _ (by decide),
        run_directive, Klib.run_nil, llx_text _ _ (.inr ⟨rfl, rfl⟩), slot_num rfl]
      simp only [puts_list, List.nil_append, List.append_assoc]
      rfl

theorem panicLogAddr_text (table : Array KallsymsEntry) (label : List UInt8) (addr : Word) :
    (panicLogAddr table label addr).text = label ++ addrText table addr := by
  refine logSymbol_text (fun as has rest out => ?_) addr
  obtain ⟨hne, hstr⟩ := slot_str _ (by decide) has
  have htext : plainStr.text (argList as) 0 = label := (plainStr_text _ _ hne).trans hstr
  rw [show chars "%s" = plainStr.chars by decide, run_directive, htext]
  rfl

/-- `%zu`. -/
def plainSize : Directive :=
  { flags := .none, width := 0, precision := .none, modifier := .z, conv := .u }

theorem plainSize_text (a : Args) (ap : Nat) :
    plainSize.text a ap = decimal.write (a.slot ap).toNat := by
  have hds : digitsText (a.slot ap).toNat 10 false = decimal.write (a.slot ap).toNat :=
    digitsText_eq false (a.slot ap).isLt (by decide) (by decide)
  show putuText (a.slot ap).toNat 10 false 0 false false = _
  simp [putuText, hds, Alphabet.write_ne_nil]

theorem panicLogTrace_text (table : Array KallsymsEntry) {depth : Nat} (h : depth < 2 ^ 64)
    (addr : Word) :
    (panicLogTrace table depth addr).text
      = chars "  #" ++ decimal.write depth ++ chars " " ++ addrText table addr := by
  refine logSymbol_text (fun as has rest out => ?_) addr
  have hfmt : chars "  #%zu " = chars "  #" ++ (plainSize.chars ++ chars " ") := by decide
  simp only [hfmt, List.append_assoc]
  rw [run_plain _ _ (by decide), run_directive, run_plain _ _ (by decide), plainSize_text,
    slot_num has, BitVec.toNat_ofNat, Nat.mod_eq_of_lt h]
  simp only [puts_append]
  rfl

-- ==== the report

/-- The texts of the register dump. -/
def regTexts (table : Array KallsymsEntry) (regs : InterruptFrame) : List (List UInt8) :=
  [fields [(chars "RAX: ", regs.gpr .rax), (chars "  RBX: ", regs.gpr .rbx),
      (chars "  RCX: ", regs.gpr .rcx), (chars "  RDX: ", regs.gpr .rdx)],
    fields [(chars "RSI: ", regs.gpr .rsi), (chars "  RDI: ", regs.gpr .rdi),
      (chars "  RBP: ", regs.gpr .rbp), (chars "  RSP: ", regs.gpr .rsp)],
    fields [(chars "R8:  ", regs.gpr .r8), (chars "  R9:  ", regs.gpr .r9),
      (chars "  R10: ", regs.gpr .r10), (chars "  R11: ", regs.gpr .r11)],
    fields [(chars "R12: ", regs.gpr .r12), (chars "  R13: ", regs.gpr .r13),
      (chars "  R14: ", regs.gpr .r14), (chars "  R15: ", regs.gpr .r15)],
    fields [(chars "CS:  ", regs.cs), (chars "  SS:  ", regs.ss), (chars "  DS:  ", regs.ds),
      (chars "  ES:  ", regs.es)],
    fields [(chars "CR0: ", regs.cr .cr0), (chars "  CR2: ", regs.cr .cr2),
      (chars "  CR3: ", regs.cr .cr3), (chars "  CR4: ", regs.cr .cr4)],
    fields [(chars "RFLAGS: ", regs.rflags), (chars "  ERR: ", regs.err)] ++ chars "  VEC: "
      ++ decimal.write regs.vector.toNat,
    chars "RIP: " ++ addrText table regs.rip]

theorem four_text {fmt l₁ l₂ l₃ l₄ : List UInt8} {v₁ v₂ v₃ v₄ : Word}
    (h : Labelled fmt [l₁, l₂, l₃, l₄]) :
    Line.text { fmt, args := [.num v₁, .num v₂, .num v₃, .num v₄] }
      = fields [(l₁, v₁), (l₂, v₂), (l₃, v₃), (l₄, v₄)] :=
  labelled_text [(l₁, v₁), (l₂, v₂), (l₃, v₃), (l₄, v₄)] h

theorem flags_text (rflags err vector : Word) :
    Line.text { fmt := chars "RFLAGS: %016llx  ERR: %016llx  VEC: %llu"
                args := [.num rflags, .num err, .num vector] }
      = fields [(chars "RFLAGS: ", rflags), (chars "  ERR: ", err)] ++ chars "  VEC: "
          ++ decimal.write vector.toNat := by
  have hfmt : chars "RFLAGS: %016llx  ERR: %016llx  VEC: %llu"
      = chars "RFLAGS: %016llx  ERR: %016llx" ++ (chars "  VEC: " ++ ((llu .none 0).chars ++ [])) := by
    decide
  have hrun := run_labelled [(chars "RFLAGS: ", rflags), (chars "  ERR: ", err)] [.num vector]
    (show Labelled (chars "RFLAGS: %016llx  ERR: %016llx") [chars "RFLAGS: ", chars "  ERR: "] by
      decide) (chars "  VEC: " ++ ((llu .none 0).chars ++ [])) []
  rw [← hfmt, run_plain _ _ (by decide), run_directive, Klib.run_nil, llu_text _ _ _ rfl] at hrun
  refine (congrArg Prod.fst hrun).trans ?_
  show puts (puts (puts [] _) (chars "  VEC: ")) (padded _ 0 vector.toNat) = _
  simp [padded]

theorem panicDumpRegs_text (table : Array KallsymsEntry) (regs : InterruptFrame) :
    (panicDumpRegs table (some regs)).map Line.text = regTexts table regs := by
  simp only [panicDumpRegs, List.map_cons, List.map_nil, regTexts, flags_text, panicLogAddr_text]
  refine List.cons_eq_cons.mpr ⟨four_text (by decide), ?_⟩
  refine List.cons_eq_cons.mpr ⟨four_text (by decide), ?_⟩
  refine List.cons_eq_cons.mpr ⟨four_text (by decide), ?_⟩
  refine List.cons_eq_cons.mpr ⟨four_text (by decide), ?_⟩
  refine List.cons_eq_cons.mpr ⟨four_text (by decide), ?_⟩
  exact List.cons_eq_cons.mpr ⟨four_text (by decide), rfl⟩

/-- The text of `panic_dump_cpu`. -/
def cpuText : Option CpuId → List UInt8
  | none => chars "CPU: unknown"
  | some cpu =>
      chars "CPU: cpu" ++ decimal.write cpu.index.toNat ++ chars " lapic="
        ++ decimal.write cpu.lapicId.toNat ++ chars " acpi=" ++ decimal.write cpu.processorId.toNat
        ++ if cpu.isBsp then chars " (bsp)" else []

/-- `%u`. -/
def plainUint : Directive :=
  { flags := .none, width := 0, precision := .none, modifier := .none, conv := .u }

theorem plainUint_text {a : Args} {ap : Nat} {v : BitVec 32} (h : a.slot ap = v.setWidth 64) :
    plainUint.text a ap = decimal.write v.toNat := by
  have hval : ((a.int ap).setWidth 64 : BitVec 64).toNat = v.toNat := by
    have hlt := v.isLt
    rw [Args.int, h, BitVec.toNat_setWidth, BitVec.toNat_setWidth, BitVec.toNat_setWidth]
    omega
  have hds : digitsText v.toNat 10 false = decimal.write v.toNat :=
    digitsText_eq false (Nat.lt_trans v.isLt (by decide)) (by decide) (by decide)
  show putuText ((a.int ap).setWidth 64 : BitVec 64).toNat 10 false 0 false false = _
  simp [putuText, hval, hds, Alphabet.write_ne_nil]

theorem panicDumpCpu_text (cpu : Option CpuId) : (panicDumpCpu cpu).text = cpuText cpu := by
  cases cpu with
  | none => exact plain_text (by decide)
  | some cpu =>
      have hfmt : chars "CPU: cpu%u lapic=%u acpi=%u%s" = chars "CPU: cpu" ++ (plainUint.chars
          ++ (chars " lapic=" ++ (plainUint.chars ++ (chars " acpi=" ++ (plainUint.chars
            ++ (plainStr.chars ++ [])))))) := by
        decide
      obtain ⟨hne, hstr⟩ := slot_str [.num (cpu.index.setWidth 64),
        .num (cpu.lapicId.setWidth 64), .num (cpu.processorId.setWidth 64),
        .str (if cpu.isBsp then chars " (bsp)" else [])] (i := 3) (by decide) rfl
      have htext := (plainStr_text _ _ hne).trans hstr
      rw [panicDumpCpu, line_text, hfmt, run_plain _ _ (by decide), run_directive,
        run_plain _ _ (by decide), run_directive, run_plain _ _ (by decide), run_directive,
        run_directive, Klib.run_nil, plainUint_text (v := cpu.index) rfl,
        plainUint_text (v := cpu.lapicId) rfl, plainUint_text (v := cpu.processorId) rfl]
      refine (congrArg (puts _) htext).trans ?_
      simp only [puts_list, List.nil_append]
      rfl

theorem fields_length (ps : List (List UInt8 × Word)) (h : ∀ p ∈ ps, p.1.length ≤ 8) :
    (fields ps).length ≤ 24 * ps.length := by
  induction ps with
  | nil => exact Nat.le_refl 0
  | cons p ps ih =>
      have hp := h p List.mem_cons_self
      have hps := ih fun q hq => h q (List.mem_cons_of_mem p hq)
      rw [fields_cons, List.length_append, List.length_append, hexText_length, List.length_cons]
      omega

theorem zero_notMem_hexText (width : Nat) (v : Word) : 0 ∉ hexText width v := by
  have hdigit : ∀ d < 16, hexDigits.digit d ≠ 0 := by decide
  intro h
  rcases List.mem_append.mp h with h | h
  · exact absurd (List.eq_of_mem_replicate h) (by decide)
  · obtain ⟨d, hd, heq⟩ := Alphabet.mem_write h
    exact hdigit d hd heq.symm

theorem zero_notMem_fields (ps : List (List UInt8 × Word)) (h : ∀ p ∈ ps, 0 ∉ p.1) :
    0 ∉ fields ps := by
  intro hmem
  obtain ⟨p, hp, hmem⟩ := List.mem_flatMap.mp hmem
  rcases List.mem_append.mp hmem with hmem | hmem
  · exact h p hp hmem
  · exact zero_notMem_hexText 16 p.2 hmem

/-- What stands in the lines of a report. -/
def reportTexts (table : Array KallsymsEntry) (msg : List UInt8) (cpu : Option CpuId)
    (regs : InterruptFrame) (rs : List Word) : List (List UInt8) :=
  (chars "Kernel panic: " ++ msg) :: cpuText cpu :: (regTexts table regs
    ++ chars "Call Trace:" :: ((regs.rip :: rs.take 15).zipIdx.map fun p =>
      chars "  #" ++ decimal.write p.2 ++ chars " " ++ addrText table p.1)
    ++ [chars "---[ end Kernel panic ]---"])

theorem panicLogMessage_text (junk : Nat → UInt8) (fmt : Option (List UInt8)) (ap : Args) :
    (panicLogMessage junk fmt ap).text = chars "Kernel panic: "
      ++ (CString.read KLOG_MSG_MAX (by decide) (kvsnprintf ap junk KLOG_MSG_MAX fmt).1).bytes := by
  have hfmt : chars "Kernel panic: %s" = chars "Kernel panic: " ++ (plainStr.chars ++ []) := by
    decide
  obtain ⟨hne, hstr⟩ := slot_str [.str (CString.read KLOG_MSG_MAX (by decide)
    (kvsnprintf ap junk KLOG_MSG_MAX fmt).1).bytes] (i := 0) (by decide) rfl
  rw [panicLogMessage, line_text, hfmt, run_plain _ _ (by decide), run_directive, Klib.run_nil]
  exact (congrArg (puts _) ((plainStr_text _ _ hne).trans hstr)).trans (puts_list _ _)

/-- The register lines fit into a record. -/
theorem draft_text {l : Line} (hlen : l.text.length < KLOG_MSG_MAX) (hnul : 0 ∉ l.text)
    (junk : Nat → UInt8) (now : BitVec 64) : (l.draft junk now).msg.bytes = l.text :=
  kvlogWriteImpl_msg junk now _ hlen hnul

/-- The first seven register lines fit a record. -/
theorem regTexts_room (table : Array KallsymsEntry) (regs : InterruptFrame) :
    ∀ t ∈ (regTexts table regs).take 7, t.length < KLOG_MSG_MAX ∧ 0 ∉ t := by
  have hfour : ∀ {ps : List (List UInt8 × Word)}, ps.length ≤ 4 →
      (∀ p ∈ ps.map Prod.fst, p.length ≤ 8 ∧ 0 ∉ p) →
      (fields ps).length < KLOG_MSG_MAX ∧ 0 ∉ fields ps := by
    intro ps hps hlabels
    have hle := fields_length ps fun p hp => (hlabels p.1 (List.mem_map_of_mem hp)).1
    refine ⟨show _ < 192 by omega, zero_notMem_fields ps fun p hp => ?_⟩
    exact (hlabels p.1 (List.mem_map_of_mem hp)).2
  have hvec : (decimal.write regs.vector.toNat).length ≤ 20 :=
    decimal_length (by decide) (Nat.lt_trans regs.vector.isLt (by decide))
  have hnul : 0 ∉ decimal.write regs.vector.toNat := fun h => absurd (mem_decimal h).1 (by decide)
  intro t ht
  simp only [regTexts, List.take_succ_cons, List.take_zero, List.mem_cons, List.not_mem_nil,
    or_false] at ht
  rcases ht with rfl | rfl | rfl | rfl | rfl | rfl | rfl
  · exact hfour (Nat.le_refl _) (by decide : ∀ p ∈ [chars "RAX: ", chars "  RBX: ",
      chars "  RCX: ", chars "  RDX: "], p.length ≤ 8 ∧ 0 ∉ p)
  · exact hfour (Nat.le_refl _) (by decide : ∀ p ∈ [chars "RSI: ", chars "  RDI: ",
      chars "  RBP: ", chars "  RSP: "], p.length ≤ 8 ∧ 0 ∉ p)
  · exact hfour (Nat.le_refl _) (by decide : ∀ p ∈ [chars "R8:  ", chars "  R9:  ",
      chars "  R10: ", chars "  R11: "], p.length ≤ 8 ∧ 0 ∉ p)
  · exact hfour (Nat.le_refl _) (by decide : ∀ p ∈ [chars "R12: ", chars "  R13: ",
      chars "  R14: ", chars "  R15: "], p.length ≤ 8 ∧ 0 ∉ p)
  · exact hfour (Nat.le_refl _) (by decide : ∀ p ∈ [chars "CS:  ", chars "  SS:  ",
      chars "  DS:  ", chars "  ES:  "], p.length ≤ 8 ∧ 0 ∉ p)
  · exact hfour (Nat.le_refl _) (by decide : ∀ p ∈ [chars "CR0: ", chars "  CR2: ",
      chars "  CR3: ", chars "  CR4: "], p.length ≤ 8 ∧ 0 ∉ p)
  · have hle := fields_length
      [(chars "RFLAGS: ", regs.rflags), (chars "  ERR: ", regs.err)]
      (by simp only [List.forall_mem_cons]; exact ⟨by decide, by decide, fun _ h => nomatch h⟩)
    have hzero := zero_notMem_fields
      [(chars "RFLAGS: ", regs.rflags), (chars "  ERR: ", regs.err)]
      (by simp only [List.forall_mem_cons]; exact ⟨by decide, by decide, fun _ h => nomatch h⟩)
    constructor
    · rw [List.length_append, List.length_append, show (chars "  VEC: ").length = 7 from rfl]
      rw [show [(chars "RFLAGS: ", regs.rflags), (chars "  ERR: ", regs.err)].length = 2 from rfl]
        at hle
      show _ < 192
      omega
    · rw [List.mem_append, List.mem_append, not_or, not_or]
      exact ⟨⟨hzero, by decide⟩, hnul⟩

/-- What stands in a line with a symbol up to the end of the address. -/
def addrFront (front : List UInt8) (addr : Word) : List UInt8 :=
  front ++ chars "[<" ++ hexText 16 addr ++ chars ">]"

/-- The log has the address of such a line, if not all of its symbol. -/
theorem symbolLine_front {table : Array KallsymsEntry} {l : Line} {front : List UInt8} {addr : Word}
    (htext : l.text = front ++ addrText table addr) (hlen : front.length ≤ 32) (hnul : 0 ∉ front)
    (hbig : (addrText table addr).length < 2 ^ 63) (junk : Nat → UInt8) (now : BitVec 64) :
    addrFront front addr <+: (l.draft junk now).msg.bytes := by
  have hsplit : l.text = addrFront front addr ++ symbolText table addr := by
    rw [htext, addrText, addrFront]
    simp only [List.append_assoc]
  have htotal : l.text.length < 2 ^ 64 := by
    rw [htext, List.length_append]
    omega
  refine kvlogWriteImpl_front junk now _ ⟨_, hsplit.symm⟩ ?_ ?_ htotal
  · rw [addrFront, List.length_append, List.length_append, List.length_append, hexText_length,
      show (chars "[<").length = 2 from rfl, show (chars ">]").length = 2 from rfl]
    show _ < 192
    omega
  · rw [addrFront, List.mem_append, List.mem_append, List.mem_append, not_or, not_or, not_or]
    exact ⟨⟨⟨hnul, by decide⟩, zero_notMem_hexText 16 addr⟩, by decide⟩

theorem panicLogAddr_front {table : Array KallsymsEntry} {addr : Word}
    (hbig : (addrText table addr).length < 2 ^ 63) (junk : Nat → UInt8) (now : BitVec 64) :
    addrFront (chars "RIP: ") addr
      <+: ((panicLogAddr table (chars "RIP: ") addr).draft junk now).msg.bytes :=
  symbolLine_front (panicLogAddr_text table _ addr) (by decide) (by decide) hbig junk now

theorem panicLogTrace_front {table : Array KallsymsEntry} {addr : Word} {depth : Nat}
    (hdepth : depth < 16) (hbig : (addrText table addr).length < 2 ^ 63) (junk : Nat → UInt8)
    (now : BitVec 64) :
    addrFront (chars "  #" ++ decimal.write depth ++ chars " ") addr
      <+: ((panicLogTrace table depth addr).draft junk now).msg.bytes := by
  have hdigits : (decimal.write depth).length ≤ 2 :=
    decimal_length (by decide) (Nat.lt_trans hdepth (by decide))
  have hnul : 0 ∉ decimal.write depth := fun h => absurd (mem_decimal h).1 (by decide)
  refine symbolLine_front (panicLogTrace_text table (by omega) addr) ?_ ?_ hbig junk now
  · rw [List.length_append, List.length_append, show (chars "  #").length = 3 from rfl,
      show (chars " ").length = 1 from rfl]
    omega
  · rw [List.mem_append, List.mem_append, not_or, not_or]
    exact ⟨⟨by decide, hnul⟩, by decide⟩

/-- A panic over a sound stack reports, after the message and the CPU, every
register in digits that read back, and the return addresses of the first
frames up to the outermost one, which is left out. The log cuts none of
these numbers off. Over any other stack the report comes to its end as
well, but if one of these frames lies where nothing is mapped. -/
theorem vkpanic_report (load : Word → Option Word) (table : Array KallsymsEntry)
    (junk : Nat → UInt8) (cpu : Option CpuId) (regs : InterruptFrame)
    (fmt : Option (List UInt8)) (ap : Args) :
    (∀ rs, Chain load (regs.gpr .rbp) rs →
        (vkpanic load table junk cpu (some regs) fmt ap).1.map Line.text
          = reportTexts table (CString.read KLOG_MSG_MAX (by decide)
              (kvsnprintf ap junk KLOG_MSG_MAX fmt).1).bytes cpu regs rs)
      ∧ ((vkpanic load table junk cpu (some regs) fmt ap).2 = false
        ↔ Faults load 15 (regs.gpr .rbp))
      ∧ (∀ l ∈ (panicDumpRegs table (some regs)).take 7, ∀ junk now,
        (l.draft junk now).msg.bytes = l.text)
      ∧ (∀ addr, (addrText table addr).length < 2 ^ 63 → ∀ junk now,
        addrFront (chars "RIP: ") addr
            <+: ((panicLogAddr table (chars "RIP: ") addr).draft junk now).msg.bytes
          ∧ ∀ depth < 16, addrFront (chars "  #" ++ decimal.write depth ++ chars " ") addr
            <+: ((panicLogTrace table depth addr).draft junk now).msg.bytes)
      ∧ ∀ v, hexDigits.read (hexText 16 v) = some v.toNat := by
  refine ⟨fun rs hchain => ?_, ?_, fun l hl junk now => ?_, fun addr hbig junk now =>
    ⟨panicLogAddr_front hbig junk now, fun depth hdepth => panicLogTrace_front hdepth hbig junk now⟩,
    read_hexText 16⟩
  · have hwalk : panicWalk load 15 1 (regs.gpr .rbp) 0 = ((rs.take 15).zipIdx 1, true) :=
      panicWalk_chain hchain (.inl rfl)
    have htrace : panicDumpBacktrace load table (some regs)
        = ({ fmt := chars "Call Trace:", args := [] } :: panicLogTrace table 0 regs.rip
          :: ((rs.take 15).zipIdx 1).map (fun p => panicLogTrace table p.2 p.1), true) := by
      simp only [panicDumpBacktrace]
      rw [show panicWalk load (PANIC_BACKTRACE_LIMIT - 1) 1 (regs.gpr .rbp) 0 = _ from hwalk]
    have hlines : ∀ p ∈ (rs.take 15).zipIdx 1, (panicLogTrace table p.2 p.1).text
        = chars "  #" ++ decimal.write p.2 ++ chars " " ++ addrText table p.1 := by
      intro p hp
      have hlt := (List.mem_zipIdx hp).2.1
      have hlen := List.length_take_le 15 rs
      exact panicLogTrace_text table (by omega) p.1
    simp only [vkpanic, htrace, if_true, List.map_append, List.map_cons, List.map_nil,
      panicLogMessage_text, panicDumpCpu_text, panicDumpRegs_text, List.map_map, reportTexts]
    rw [plain_text (by decide), plain_text (by decide), panicLogTrace_text table (by decide)]
    rw [List.zipIdx_cons, List.map_cons, List.map_congr_left (g := fun p =>
      chars "  #" ++ decimal.write p.2 ++ chars " " ++ addrText table p.1) hlines]
    simp
  · have hiff : (panicWalk load 15 1 (regs.gpr .rbp) 0).2 = false ↔ Faults load 15 (regs.gpr .rbp) :=
      panicWalk_faults (.inl rfl)
    have hend : (panicDumpBacktrace load table (some regs)).2
        = (panicWalk load 15 1 (regs.gpr .rbp) 0).2 := rfl
    rw [← hiff, ← hend, vkpanic]
    split
    · rename_i h
      exact iff_of_false Bool.true_eq_false.mp (by rw [h]; decide)
    · rename_i h
      exact iff_of_true rfl (Bool.eq_false_iff.mpr h)
  · have hmem : l.text ∈ (regTexts table regs).take 7 := by
      rw [← panicDumpRegs_text, ← List.map_take]
      exact List.mem_map_of_mem hl
    obtain ⟨hlen, hnul⟩ := regTexts_room table regs l.text hmem
    exact draft_text hlen hnul junk now

/-- A stack of two frames, below the outermost one at `top`. -/
def twoFrames (top : Word → Option Word) : Word → Option Word := fun a =>
  if a = 0x1000 then some 0x1020 else if a = 0x1008 then some 0x8001
  else if a = 0x1020 then some 0x1040 else if a = 0x1028 then some 0x8002
  else top a

/-- Every register zero, but where it is and where its stack is. -/
def someRegs : InterruptFrame where
  es := 0
  ds := 0
  cr := fun _ => 0
  gpr := fun r => if r = .rbp then 0x1000 else 0
  vector := 14
  err := 0
  rip := 0x8000
  cs := 8
  rflags := 2
  ss := 0x10

theorem linked_first (top : Word → Option Word) : Linked (twoFrames top) 0x1000 0x1020 where
  next := rfl
  aligned := by decide
  up := by decide
  alignedNext := by decide

theorem linked_second (top : Word → Option Word) : Linked (twoFrames top) 0x1020 0x1040 where
  next := rfl
  aligned := by decide
  up := by decide
  alignedNext := by decide

theorem symbolText_empty (addr : Word) : symbolText #[] addr = [] := by
  rw [symbolText]
  rcases kallsymsLookup #[] addr (some 0) with ⟨best, offset⟩
  cases best with
  | none => rfl
  | some best => exact best.elim0

/-- The trace of a page fault two calls deep; and where the outermost frame
is not mapped, the report does not come to its end. -/
theorem vkpanic_report_stack :
    (((vkpanic (twoFrames fun _ => some 0) #[] (fun _ => 0) none (some someRegs)
        (some (chars "oops")) ⟨fun _ => 0, fun _ => []⟩).1.map Line.text).drop 9
      = [chars "RIP: [<0000000000008000>]", chars "Call Trace:",
        chars "  #0 [<0000000000008000>]", chars "  #1 [<0000000000008001>]",
        chars "  #2 [<0000000000008002>]", chars "---[ end Kernel panic ]---"])
      ∧ (vkpanic (twoFrames fun _ => none) #[] (fun _ => 0) none (some someRegs)
        (some (chars "oops")) ⟨fun _ => 0, fun _ => []⟩).2 = false := by
  have hchain : Chain (twoFrames fun _ => some 0) 0x1000 [0x8001, 0x8002] :=
    .frame (by decide) (linked_first _) rfl (by decide)
      (.frame (by decide) (linked_second _) rfl (by decide)
        (.outermost (by decide) rfl fun h => absurd h.up (by decide)))
  have hfaults : Faults (twoFrames fun _ => none) 15 0x1000 :=
    .above (by decide) (linked_first _) rfl (by decide)
      (.above (by decide) (linked_second _) rfl (by decide) (.next (by decide) rfl))
  constructor
  · rw [(vkpanic_report _ #[] (fun _ => 0) none someRegs (some (chars "oops"))
      ⟨fun _ => 0, fun _ => []⟩).1 _ hchain]
    simp only [reportTexts, regTexts, addrText, symbolText_empty]
    decide
  · exact (vkpanic_report _ #[] (fun _ => 0) none someRegs (some (chars "oops"))
      ⟨fun _ => 0, fun _ => []⟩).2.1.mpr hfaults

end Alix.Debug
