/-
The instructions of an x86-64 processor with which code saves registers
on a stack and gets them back.

A machine is its registers and a memory of bytes. An address is a number
below 2^64, and no access here passes the end of the address space: the
lemmas ask for the room that they need. What an arithmetic instruction
leaves in the status flags is not said; it comes with `status`, and the
other flags stay.

# Following a program

`Saved` compares a machine with the one that a sequence of pushes started
from: the words that were pushed lie on the stack, the newest one first,
no other byte has changed, and the registers are as they were, but for the
stack pointer and the ones that the sequence has used up. `Saved.pushes`
is a sequence of pushes, and `Saved.run_pops` gets registers back from
words that lie on a stack, whoever put them there.
-/
import Alix.Lib.Bytes

namespace X86

open Bytes (Memory)

abbrev Word : Type := BitVec 64

inductive Reg where
  | rax | rbx | rcx | rdx | rsi | rdi | rbp | rsp
  | r8 | r9 | r10 | r11 | r12 | r13 | r14 | r15
deriving DecidableEq, Repr

inductive CReg where
  | cr0 | cr2 | cr3 | cr4
deriving DecidableEq, Repr

inductive SReg where
  | cs | ds | es | ss
deriving DecidableEq, Repr

structure Regs where
  gpr : Reg → Word
  cr : CReg → Word
  seg : SReg → BitVec 16
  rflags : Word
  rip : Word

structure Machine extends Regs where
  mem : Memory

/-- The eight bytes at an address. -/
def load64 (m : Memory) (a : Word) : Word := BitVec.ofNat 64 (Bytes.load m a.toNat 8)

def store64 (m : Memory) (a v : Word) : Memory := Bytes.store m a.toNat 8 v.toNat

inductive Instr where
  | push (r : Reg)
  | pushImm (v : Word)
  | pushf
  | pop (r : Reg)
  | popf
  | mov (dst src : Reg)
  | movCr (dst : Reg) (src : CReg)
  /-- from a segment register, with 64-bit operands -/
  | movSeg (dst : Reg) (src : SReg)
  /-- the same with 16-bit operands: the other bits of `dst` stay -/
  | movwSeg (dst : Reg) (src : SReg)
  | load (dst base : Reg) (disp : Word)
  | store (base : Reg) (disp : Word) (src : Reg)
  | lea (dst base : Reg) (disp : Word)
  | add (dst : Reg) (v : Word)
  /-- of a register with itself -/
  | xor (r : Reg)
  | test (r : Reg)
  | cld
  | ret
  | iretq
deriving DecidableEq, Repr

/-- CF, PF, AF, ZF, SF and OF. -/
def STATUS : Word := 0x8d5

/-- DF. -/
def DIRECTION : Word := 0x400

namespace Machine

def set (m : Machine) (r : Reg) (v : Word) : Machine :=
  { m with gpr := Function.update m.gpr r v }

def setSeg (m : Machine) (s : SReg) (v : BitVec 16) : Machine :=
  { m with seg := Function.update m.seg s v }

/-- Push a word. -/
def push (m : Machine) (v : Word) : Machine :=
  { m.set .rsp (m.gpr .rsp - 8) with mem := store64 m.mem (m.gpr .rsp - 8) v }

/-- The word on top of the stack, and the machine without it. -/
def top (m : Machine) : Word := load64 m.mem (m.gpr .rsp)

def drop (m : Machine) : Machine := m.set .rsp (m.gpr .rsp + 8)

/-- The status flags of an arithmetic instruction. -/
def flag (m : Machine) (status : Word) : Machine :=
  { m with rflags := (m.rflags &&& ~~~STATUS) ||| (status &&& STATUS) }

/-- `iretq`: the instruction pointer, the code segment, the flags, the
stack pointer and the stack segment are on the stack, in this order. -/
def iretq (m : Machine) : Machine :=
  let rip := m.top
  let cs := m.drop.top
  let rflags := m.drop.drop.top
  let rsp := m.drop.drop.drop.top
  let ss := m.drop.drop.drop.drop.top
  { ((m.set .rsp rsp).setSeg .cs (cs.setWidth 16)).setSeg .ss (ss.setWidth 16) with
    rip, rflags }

end Machine

/-- One instruction. -/
def exec (status : Instr → Machine → Word) (m : Machine) (i : Instr) : Machine :=
  match i with
  | .push r => m.push (m.gpr r)
  | .pushImm v => m.push v
  | .pushf => m.push m.rflags
  | .pop r => m.drop.set r m.top
  | .popf => { m.drop with rflags := m.top }
  | .mov dst src => m.set dst (m.gpr src)
  | .movCr dst src => m.set dst (m.cr src)
  | .movSeg dst src => m.set dst ((m.seg src).setWidth 64)
  | .movwSeg dst src =>
      m.set dst ((m.gpr dst &&& ~~~0xffff) ||| (m.seg src).setWidth 64)
  | .load dst base disp => m.set dst (load64 m.mem (m.gpr base + disp))
  | .store base disp src =>
      { m with mem := store64 m.mem (m.gpr base + disp) (m.gpr src) }
  | .lea dst base disp => m.set dst (m.gpr base + disp)
  | .add dst v => (m.set dst (m.gpr dst + v)).flag (status i m)
  | .xor r => (m.set r 0).flag (status i m)
  | .test _ => m.flag (status i m)
  | .cld => { m with rflags := m.rflags &&& ~~~DIRECTION }
  | .ret => { m.drop with rip := m.top }
  | .iretq => m.iretq

/-- Instructions one after the other. -/
def run (status : Instr → Machine → Word) (m : Machine) (is : List Instr) : Machine :=
  is.foldl (exec status) m

-- ==== words

/-- The words `vs` lie at `a`. -/
def Holds (m : Memory) (a : Nat) : List Word → Prop
  | [] => True
  | v :: vs => Bytes.load m a 8 = v.toNat ∧ Holds m (a + 8) vs

variable {m m' : Memory} {a b : Nat} {v : Word} {vs ws : List Word}

@[simp] theorem holds_nil : Holds m a [] := trivial

@[simp] theorem holds_cons :
    Holds m a (v :: vs) ↔ Bytes.load m a 8 = v.toNat ∧ Holds m (a + 8) vs := Iff.rfl

/-- Words only see their own bytes. -/
theorem Holds.congr (h : Holds m a vs)
    (hsame : ∀ x, a ≤ x → x < a + 8 * vs.length → m' x = m x) : Holds m' a vs := by
  induction vs generalizing a with
  | nil => trivial
  | cons v vs ih =>
      rw [List.length_cons] at hsame
      constructor
      · rw [Bytes.load_congr fun x h1 h2 => hsame x h1 (by omega)]
        exact h.1
      · apply ih h.2
        intro x h1 h2
        exact hsame x (by omega) (by omega)

theorem holds_append :
    Holds m a (vs ++ ws) ↔ Holds m a vs ∧ Holds m (a + 8 * vs.length) ws := by
  induction vs generalizing a with
  | nil => simp
  | cons v vs ih =>
      rw [List.cons_append, holds_cons, ih, holds_cons, List.length_cons, and_assoc,
        show a + 8 + 8 * vs.length = a + 8 * (vs.length + 1) by omega]

/-- One of the words. -/
theorem Holds.get (h : Holds m a vs) {i : Nat} (hi : i < vs.length) :
    Bytes.load m (a + 8 * i) 8 = vs[i].toNat := by
  induction vs generalizing a i with
  | nil => exact absurd hi (Nat.not_lt_zero i)
  | cons v vs ih =>
      cases i with
      | zero => exact h.1
      | succ i =>
          rw [show a + 8 * (i + 1) = a + 8 + 8 * i by omega]
          exact ih h.2 (Nat.lt_of_succ_lt_succ hi)

/-- A word that lies in memory is what is loaded. -/
theorem load64_eq {p : Word} (h : Bytes.load m p.toNat 8 = v.toNat) : load64 m p = v := by
  unfold load64
  rw [h, BitVec.ofNat_toNat, BitVec.setWidth_eq]

theorem toNat_load64 (m : Memory) (p : Word) : (load64 m p).toNat = Bytes.load m p.toNat 8 := by
  have hlt := Bytes.load_lt m p.toNat 8
  unfold load64
  rw [BitVec.toNat_ofNat]
  exact Nat.mod_eq_of_lt hlt

theorem load_store64 (m : Memory) (p v : Word) :
    Bytes.load (store64 m p v) p.toNat 8 = v.toNat := by
  apply Bytes.load_store_same
  exact v.isLt

theorem store64_outside {p : Word} {x : Nat} (h : x < p.toNat ∨ p.toNat + 8 ≤ x) :
    store64 m p v x = m x :=
  Bytes.store_outside (by omega)

/-- A word is put in front. -/
theorem Holds.cons_store {p : Word} (h : Holds m (p.toNat + 8) vs) (v : Word) :
    Holds (store64 m p v) p.toNat (v :: vs) := by
  refine ⟨load_store64 m p v, h.congr fun x h1 _ => ?_⟩
  apply store64_outside
  omega

/-- A word is replaced. -/
theorem Holds.set_store (h : Holds m a vs) {i : Nat} (hi : i < vs.length) {p : Word}
    (hp : p.toNat = a + 8 * i) (v : Word) : Holds (store64 m p v) a (vs.set i v) := by
  induction vs generalizing a i with
  | nil => exact absurd hi (Nat.not_lt_zero i)
  | cons w vs ih =>
      cases i with
      | zero =>
          have he : p.toNat = a := hp
          rw [List.set_cons_zero, ← he]
          apply Holds.cons_store
          rw [he]
          exact h.2
      | succ i =>
          rw [List.set_cons_succ]
          constructor
          · rw [Bytes.load_congr fun x _ h2 => store64_outside (Or.inl (by omega))]
            exact h.1
          · exact ih h.2 (Nat.lt_of_succ_lt_succ hi) (by omega)

-- ==== a machine

namespace Machine

variable {M : Machine} {r r' : Reg}

@[simp] theorem set_gpr_self : (M.set r v).gpr r = v := by simp [set]

theorem set_gpr (h : r' ≠ r) : (M.set r v).gpr r' = M.gpr r' := by simp [set, h]

@[simp] theorem set_cr : (M.set r v).cr = M.cr := rfl
@[simp] theorem set_seg : (M.set r v).seg = M.seg := rfl
@[simp] theorem set_rflags : (M.set r v).rflags = M.rflags := rfl
@[simp] theorem set_rip : (M.set r v).rip = M.rip := rfl
@[simp] theorem set_mem : (M.set r v).mem = M.mem := rfl

@[simp] theorem drop_gpr_rsp : M.drop.gpr .rsp = M.gpr .rsp + 8 := by simp [drop]

theorem drop_gpr (h : r ≠ .rsp) : M.drop.gpr r = M.gpr r := set_gpr h

@[simp] theorem drop_mem : M.drop.mem = M.mem := rfl

@[simp] theorem flag_gpr : (M.flag v).gpr = M.gpr := rfl
@[simp] theorem flag_mem : (M.flag v).mem = M.mem := rfl
@[simp] theorem flag_cr : (M.flag v).cr = M.cr := rfl
@[simp] theorem flag_seg : (M.flag v).seg = M.seg := rfl
@[simp] theorem flag_rip : (M.flag v).rip = M.rip := rfl

/-- The flags that are no status flags stay. -/
theorem flag_rflags (M : Machine) (v : Word) :
    (M.flag v).rflags &&& ~~~STATUS = M.rflags &&& ~~~STATUS := by
  ext i hi
  simp only [flag, BitVec.getElem_and, BitVec.getElem_or, BitVec.getElem_not]
  cases M.rflags[i] <;> cases STATUS[i] <;> simp

end Machine

-- ==== pushing

/-- `M` is `M₀` with the words `vs` pushed, when the registers `used` have
been used up. -/
structure Saved (M₀ M : Machine) (used : List Reg) (vs : List Word) : Prop where
  gpr : ∀ r, r ≠ .rsp → r ∉ used → M.gpr r = M₀.gpr r
  cr : M.cr = M₀.cr
  seg : M.seg = M₀.seg
  rip : M.rip = M₀.rip
  sp : (M.gpr .rsp).toNat + 8 * vs.length = (M₀.gpr .rsp).toNat
  words : Holds M.mem (M.gpr .rsp).toNat vs
  outside : ∀ x, x < (M.gpr .rsp).toNat ∨ (M₀.gpr .rsp).toNat ≤ x → M.mem x = M₀.mem x

namespace Saved

variable {M₀ M : Machine} {used : List Reg} {r : Reg} (status : Instr → Machine → Word)

theorem refl (M : Machine) : Saved M M [] [] where
  gpr := fun _ _ _ => rfl
  cr := rfl
  seg := rfl
  rip := rfl
  sp := rfl
  words := trivial
  outside := fun _ _ => rfl

/-- More registers may be used up. -/
theorem mono (h : Saved M₀ M used vs) (more : List Reg) : Saved M₀ M (more ++ used) vs where
  gpr := fun r hsp hr => h.gpr r hsp fun hu => hr (List.mem_append_right more hu)
  cr := h.cr
  seg := h.seg
  rip := h.rip
  sp := h.sp
  words := h.words
  outside := h.outside

/-- A word more. -/
theorem push (h : Saved M₀ M used vs)
    (hroom : 8 * (vs.length + 1) ≤ (M₀.gpr .rsp).toNat) (v : Word) :
    Saved M₀ (M.push v) used (v :: vs) := by
  have hold := h.sp
  have hsp : (M.gpr .rsp - 8).toNat = (M.gpr .rsp).toNat - 8 := by
    apply BitVec.toNat_sub_of_le
    rw [BitVec.le_def, show (8 : Word).toNat = 8 from rfl]
    omega
  have hnew : (M.push v).gpr .rsp = M.gpr .rsp - 8 := Machine.set_gpr_self
  have hmem : (M.push v).mem = store64 M.mem (M.gpr .rsp - 8) v := rfl
  constructor
  · intro r hr hu
    rw [show (M.push v).gpr r = M.gpr r from Machine.set_gpr hr]
    exact h.gpr r hr hu
  · exact h.cr
  · exact h.seg
  · exact h.rip
  · rw [hnew, hsp, List.length_cons]
    omega
  · rw [hnew, hmem]
    apply Holds.cons_store
    rw [hsp, Nat.sub_add_cancel (by omega)]
    exact h.words
  · intro x hx
    rw [hnew, hsp] at hx
    rw [hmem, store64_outside (by omega)]
    apply h.outside
    omega

/-- The flags alone. -/
theorem rflags (h : Saved M₀ M used vs) (v : Word) :
    Saved M₀ { M with rflags := v } used vs :=
  ⟨h.gpr, h.cr, h.seg, h.rip, h.sp, h.words, h.outside⟩

/-- A register that has been used up is written. -/
theorem set (h : Saved M₀ M used vs) (hu : r ∈ used) (hr : r ≠ .rsp) (v : Word) :
    Saved M₀ (M.set r v) used vs := by
  have hsp : (M.set r v).gpr .rsp = M.gpr .rsp := Machine.set_gpr (Ne.symm hr)
  constructor
  · intro r' hr' hu'
    have hne : r' ≠ r := by
      rintro rfl
      exact hu' hu
    rw [Machine.set_gpr hne]
    exact h.gpr r' hr' hu'
  · exact h.cr
  · exact h.seg
  · exact h.rip
  · rw [hsp]
    exact h.sp
  · rw [hsp]
    exact h.words
  · intro x hx
    rw [hsp] at hx
    exact h.outside x hx

/-- A sequence of pushes of registers that still are as they were. The
last one pushed is the first word. -/
theorem pushes (rs : List Reg) (h : Saved M₀ M used vs)
    (hroom : 8 * (vs.length + rs.length) ≤ (M₀.gpr .rsp).toNat)
    (hrs : ∀ r ∈ rs, r ≠ .rsp ∧ r ∉ used) :
    Saved M₀ (run status M (rs.map .push)) used ((rs.map M₀.gpr).reverse ++ vs) := by
  induction rs generalizing M vs with
  | nil => exact h
  | cons r rs ih =>
      rw [List.length_cons] at hroom
      have hr := hrs r List.mem_cons_self
      have hnext : Saved M₀ (M.push (M.gpr r)) used (M₀.gpr r :: vs) := by
        rw [← h.gpr r hr.1 hr.2]
        exact h.push (by omega) _
      have hrest := ih hnext (by rw [List.length_cons]; omega)
        fun r' hr' => hrs r' (List.mem_cons_of_mem r hr')
      rw [List.map_cons (f := M₀.gpr), List.reverse_cons, List.append_assoc]
      exact hrest

/-- A word goes to the stack by way of `rax`. -/
theorem spill (h : Saved M₀ M used vs) (hu : .rax ∈ used)
    (hroom : 8 * (vs.length + 1) ≤ (M₀.gpr .rsp).toNat) (v : Word) :
    Saved M₀ (exec status (M.set .rax v) (.push .rax)) used (v :: vs) := by
  have hset := (h.set hu (by decide) v).push hroom v
  show Saved M₀ ((M.set .rax v).push ((M.set .rax v).gpr .rax)) used (v :: vs)
  rw [Machine.set_gpr_self]
  exact hset

theorem spillCr (h : Saved M₀ M used vs) (hu : .rax ∈ used)
    (hroom : 8 * (vs.length + 1) ≤ (M₀.gpr .rsp).toNat) (c : CReg) :
    Saved M₀ (run status M [.movCr .rax c, .push .rax]) used (M₀.cr c :: vs) := by
  rw [← h.cr]
  exact h.spill status hu hroom (M.cr c)

theorem spillSeg (h : Saved M₀ M used vs) (hu : .rax ∈ used)
    (hroom : 8 * (vs.length + 1) ≤ (M₀.gpr .rsp).toNat) (s : SReg) :
    Saved M₀ (run status M [.movSeg .rax s, .push .rax]) used
      ((M₀.seg s).setWidth 64 :: vs) := by
  rw [← h.seg]
  exact h.spill status hu hroom ((M.seg s).setWidth 64)

/-- The same with a 16-bit move to a register that has been cleared. -/
theorem spillSegw (h : Saved M₀ M used vs) (hu : .rax ∈ used)
    (hroom : 8 * (vs.length + 1) ≤ (M₀.gpr .rsp).toNat) (s : SReg) :
    Saved M₀ (run status M [.xor .rax, .movwSeg .rax s, .push .rax]) used
      ((M₀.seg s).setWidth 64 :: vs) := by
  have hclear := (h.set hu (by decide) 0).rflags (exec status M (.xor .rax)).rflags
  have hval : (exec status M (.xor .rax)).gpr .rax &&& ~~~0xffff
      ||| (M.seg s).setWidth 64 = (M.seg s).setWidth 64 := by
    have hzero : (exec status M (.xor .rax)).gpr .rax = 0 :=
      Machine.set_gpr_self (M := M) (r := .rax)
    rw [hzero]
    simp
  have hspill := hclear.spill status hu hroom ((M.seg s).setWidth 64)
  rw [← hval] at hspill
  rw [← h.seg, ← hval]
  exact hspill

/-- A word that was pushed is loaded. -/
theorem load_pushed (h : Saved M₀ M used vs) {i : Nat} (hi : i < vs.length) :
    load64 M.mem (M.gpr .rsp + BitVec.ofNat 64 (8 * i)) = vs[i] := by
  have hsp := h.sp
  have hlt := (M₀.gpr .rsp).isLt
  have hdisp : (BitVec.ofNat 64 (8 * i)).toNat = 8 * i := by
    rw [BitVec.toNat_ofNat]
    exact Nat.mod_eq_of_lt (by omega)
  apply load64_eq
  rw [BitVec.toNat_add, hdisp, Nat.mod_eq_of_lt (by omega)]
  exact h.words.get hi

/-- Behind the words that were pushed is the old stack. -/
theorem sp_add (h : Saved M₀ M used vs) :
    M.gpr .rsp + BitVec.ofNat 64 (8 * vs.length) = M₀.gpr .rsp := by
  have hsp := h.sp
  have hlt := (M₀.gpr .rsp).isLt
  apply BitVec.eq_of_toNat_eq
  rw [BitVec.toNat_add, BitVec.toNat_ofNat, Nat.mod_eq_of_lt (a := 8 * vs.length) (by omega),
    Nat.mod_eq_of_lt (by omega), hsp]

/-- So the word on top of that is loaded as well. -/
theorem load_top (h : Saved M₀ M used vs) :
    load64 M.mem (M.gpr .rsp + BitVec.ofNat 64 (8 * vs.length)) = M₀.top := by
  unfold Machine.top load64
  rw [h.sp_add, Bytes.load_congr fun x hx _ => h.outside x (Or.inr hx)]

/-- Either one goes to the stack by way of `rax`. -/
theorem spillPushed (h : Saved M₀ M used vs) (hu : .rax ∈ used)
    (hroom : 8 * (vs.length + 1) ≤ (M₀.gpr .rsp).toNat) {i : Nat} (hi : i < vs.length) :
    Saved M₀ (run status M [.load .rax .rsp (BitVec.ofNat 64 (8 * i)), .push .rax]) used
      (vs[i] :: vs) := by
  have hspill := h.spill status hu hroom vs[i]
  rw [← h.load_pushed hi] at hspill ⊢
  exact hspill

theorem spillTop (h : Saved M₀ M used vs) (hu : .rax ∈ used)
    (hroom : 8 * (vs.length + 1) ≤ (M₀.gpr .rsp).toNat) :
    Saved M₀ (run status M [.load .rax .rsp (BitVec.ofNat 64 (8 * vs.length)), .push .rax]) used
      (M₀.top :: vs) := by
  have hspill := h.spill status hu hroom M₀.top
  rw [← h.load_top] at hspill ⊢
  exact hspill

end Saved

/-- Pushes leave the flags. -/
theorem run_pushes_rflags (status : Instr → Machine → Word) (rs : List Reg) (M : Machine) :
    (run status M (rs.map .push)).rflags = M.rflags := by
  induction rs generalizing M with
  | nil => rfl
  | cons r rs ih => exact ih (M.push (M.gpr r))

-- ==== popping

/-- Registers come back from the words on the stack. -/
theorem run_pops (status : Instr → Machine → Word) (rs : List Reg) (f : Reg → Word)
    {M : Machine} (h : Holds M.mem (M.gpr .rsp).toNat (rs.map f))
    (hroom : (M.gpr .rsp).toNat + 8 * rs.length < 2 ^ 64) (hrs : .rsp ∉ rs) :
    ∃ gpr, run status M (rs.map .pop) = { M with gpr }
      ∧ (∀ r ∈ rs, gpr r = f r)
      ∧ (∀ r, r ∉ rs → r ≠ .rsp → gpr r = M.gpr r)
      ∧ (gpr .rsp).toNat = (M.gpr .rsp).toNat + 8 * rs.length := by
  induction rs generalizing M with
  | nil => exact ⟨M.gpr, rfl, by simp, fun _ _ _ => rfl, rfl⟩
  | cons r rs ih =>
      rw [List.length_cons] at hroom
      rw [List.mem_cons, not_or] at hrs
      have htop : M.top = f r := load64_eq h.1
      have hstep : exec status M (.pop r) = M.drop.set r (f r) := by rw [← htop]; rfl
      have hsp : ((M.drop.set r (f r)).gpr .rsp).toNat = (M.gpr .rsp).toNat + 8 := by
        rw [Machine.set_gpr hrs.1, Machine.drop_gpr_rsp, BitVec.toNat_add]
        exact Nat.mod_eq_of_lt (by rw [show (8 : Word).toNat = 8 from rfl]; omega)
      obtain ⟨gpr, hrun, hin, hout, hend⟩ := ih (M := M.drop.set r (f r))
        (by rw [hsp]; exact h.2) (by omega) hrs.2
      refine ⟨gpr, ?_, ?_, ?_, ?_⟩
      · rw [List.map_cons]
        show run status (exec status M (.pop r)) (rs.map .pop) = _
        rw [hstep, hrun]
        rfl
      · intro r' hr'
        by_cases hmem : r' ∈ rs
        · exact hin r' hmem
        · have he : r' = r := by simpa [hmem] using hr'
          subst he
          rw [hout r' hmem (Ne.symm hrs.1)]
          exact Machine.set_gpr_self
      · intro r' hr' hne
        rw [List.mem_cons, not_or] at hr'
        rw [hout r' hr'.2 hne, Machine.set_gpr hr'.1]
        exact Machine.drop_gpr hne
      · rw [hend, hsp, List.length_cons]
        omega

theorem run_append (status : Instr → Machine → Word) (M : Machine) (is js : List Instr) :
    run status M (is ++ js) = run status (run status M is) js :=
  List.foldl_append

@[simp] theorem run_nil (status : Instr → Machine → Word) (M : Machine) :
    run status M [] = M := rfl

@[simp] theorem run_cons (status : Instr → Machine → Word) (M : Machine) (i : Instr)
    (is : List Instr) : run status M (i :: is) = run status (exec status M i) is := rfl

/-- Behind a last `mov` two registers are equal. -/
theorem run_mov (status : Instr → Machine → Word) (M : Machine) (is : List Instr) (dst src : Reg) :
    (run status M (is ++ [.mov dst src])).gpr dst = (run status M (is ++ [.mov dst src])).gpr src := by
  rw [run_append]
  generalize run status M is = M
  show (M.set dst (M.gpr src)).gpr dst = (M.set dst (M.gpr src)).gpr src
  by_cases h : src = dst
  · rw [h]
  · rw [Machine.set_gpr_self, Machine.set_gpr h]

/-- `iretq`, off five words. -/
theorem exec_iretq {status : Instr → Machine → Word} {M : Machine} {rip cs rflags rsp ss : Word}
    (h : Holds M.mem (M.gpr .rsp).toNat [rip, cs, rflags, rsp, ss])
    (hroom : (M.gpr .rsp).toNat + 40 ≤ 2 ^ 64) :
    exec status M .iretq
      = { ((M.set .rsp rsp).setSeg .cs (cs.setWidth 16)).setSeg .ss (ss.setWidth 16) with
          rip, rflags } := by
  have hsp : ∀ k : Word, k.toNat < 40 → (M.gpr .rsp + k).toNat = (M.gpr .rsp).toNat + k.toNat := by
    intro k hk
    rw [BitVec.toNat_add]
    exact Nat.mod_eq_of_lt (by omega)
  obtain ⟨h0, h1, h2, h3, h4, -⟩ := h
  have e0 : M.top = rip := load64_eq h0
  have e1 : M.drop.top = cs := by
    apply load64_eq
    rw [Machine.drop_gpr_rsp, hsp 8 (by decide)]
    exact h1
  have e2 : M.drop.drop.top = rflags := by
    apply load64_eq
    rw [Machine.drop_gpr_rsp, Machine.drop_gpr_rsp, BitVec.add_assoc, hsp (8 + 8) (by decide)]
    exact h2
  have e3 : M.drop.drop.drop.top = rsp := by
    apply load64_eq
    rw [Machine.drop_gpr_rsp, Machine.drop_gpr_rsp, Machine.drop_gpr_rsp, BitVec.add_assoc,
      BitVec.add_assoc, hsp (8 + (8 + 8)) (by decide)]
    exact h3
  have e4 : M.drop.drop.drop.drop.top = ss := by
    apply load64_eq
    rw [Machine.drop_gpr_rsp, Machine.drop_gpr_rsp, Machine.drop_gpr_rsp, Machine.drop_gpr_rsp,
      BitVec.add_assoc, BitVec.add_assoc, BitVec.add_assoc, hsp (8 + (8 + (8 + 8))) (by decide)]
    exact h4
  show M.iretq = _
  unfold Machine.iretq
  rw [e0, e1, e2, e3, e4]

end X86
