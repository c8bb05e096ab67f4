/-
What is interrupted goes on as if nothing had happened.

Both programs are followed by `Saved`. `deliver` sets a stack pointer and
other registers and then pushes, so it is a sequence of pushes from a
machine of its own (`raised`); the two words of `create_isr` and the
registers follow. The way back needs only the words of a frame: whatever
frame the handler returns, the registers are those in it
(`isrExit_resumes`).

The stubs decide by a list of vectors whether the processor has pushed an
error code. Where the list is wrong the frame is shifted by one word, and
its `rip` or its `err` is something else (`isr_frame_iff`).
-/
import Alix.Cpu.Isr
import Alix.Lib.Masks

namespace Alix.Cpu

open X86

variable {status : Instr → Machine → Word} {m M : Machine} {trap : Bool} {vector : Nat}
  {err : Option Word} {stub : Word}

-- ==== the words

/-- The frame of a machine. -/
def frameOf (m : Machine) (vector : Nat) (err : Word) : InterruptFrame where
  es := (m.seg .es).setWidth 64
  ds := (m.seg .ds).setWidth 64
  cr := m.cr
  gpr := m.gpr
  vector := BitVec.ofNat 64 vector
  err := err
  rip := m.rip
  cs := (m.seg .cs).setWidth 64
  rflags := m.rflags
  ss := (m.seg .ss).setWidth 64

@[simp] theorem length_words (f : InterruptFrame) : f.words.length = 28 := rfl

theorem pushaq_eq : pushaq = savedRegs.reverse.map .push := rfl

theorem popaq_eq : popaq = savedRegs.map .pop := rfl

theorem mem_savedRegs (r : Reg) : r ∈ savedRegs ↔ r ≠ .rsp := by
  cases r <;> decide

-- ==== on the way in

/-- The machine in front of the pushes of the processor. -/
def raised (m : Machine) (trap : Bool) (stub : Word) : Machine :=
  { (m.set .rsp (m.gpr .rsp &&& ~~~0xf)).setSeg .cs 0x08 with
    rip := stub
    rflags := m.rflags &&& ~~~(if trap then GATE_FLAGS else GATE_FLAGS ||| IF_FLAG) }

theorem raised_gpr {r : Reg} (h : r ≠ .rsp) : (raised m trap stub).gpr r = m.gpr r :=
  Machine.set_gpr h

theorem raised_sp (m : Machine) (trap : Bool) (stub : Word) :
    ((raised m trap stub).gpr .rsp).toNat = (m.gpr .rsp).toNat / 16 * 16 := by
  have hsp : (raised m trap stub).gpr .rsp = m.gpr .rsp &&& ~~~0xf :=
    Machine.set_gpr_self (M := m) (r := .rsp)
  rw [hsp, BitVec.toNat_and]
  exact Masks.and_mask (k := 4) (by decide) (m.gpr .rsp).isLt

/-- The processor's part is a sequence of pushes. -/
theorem deliver_saved (hroom : 64 ≤ (m.gpr .rsp).toNat) :
    Saved (raised m trap stub) (deliver m trap err stub) []
      (err.toList ++ [m.rip, (m.seg .cs).setWidth 64, m.rflags, m.gpr .rsp,
        (m.seg .ss).setWidth 64]) := by
  have hsp := raised_sp m trap stub
  have h := Saved.refl (raised m trap stub)
  replace h := h.push (by simp; omega) ((m.seg .ss).setWidth 64)
  replace h := h.push (by simp; omega) (m.gpr .rsp)
  replace h := h.push (by simp; omega) m.rflags
  replace h := h.push (by simp; omega) ((m.seg .cs).setWidth 64)
  replace h := h.push (by simp; omega) m.rip
  cases err with
  | none => exact h
  | some code => exact h.push (by simp; omega) code

/-- The stub's own words. -/
theorem createIsr_saved (status : Instr → Machine → Word) (vector : Nat)
    {words : List Word} (h : Saved (raised m trap stub) M [] words)
    (hroom : 8 * (words.length + 2) ≤ ((raised m trap stub).gpr .rsp).toNat) :
    Saved (raised m trap stub) (run status M (createIsr vector)) []
      ([BitVec.ofNat 64 vector] ++ (if vector ∈ errorCodeVectors then [] else [0]) ++ words) := by
  unfold createIsr
  split
  · exact h.push (by omega) _
  · exact (h.push (by omega) 0).push (by simpa using hroom) _

/-- And those of `isr_handler_stub`. -/
theorem isrEntry_saved {words : List Word} (h : Saved (raised m trap stub) M [] words)
    (hroom : 8 * (words.length + 21) ≤ ((raised m trap stub).gpr .rsp).toNat) :
    Saved (raised m trap stub) (run status M isrEntry) [.rdi, .rax]
      ([(m.seg .es).setWidth 64, (m.seg .ds).setWidth 64, m.cr .cr0, m.cr .cr2, m.cr .cr3,
        m.cr .cr4] ++ savedRegs.map m.gpr ++ words) := by
  have hlen : savedRegs.reverse.length = 15 := rfl
  have hregs : savedRegs.map (raised m trap stub).gpr = savedRegs.map m.gpr := by
    apply List.map_congr_left
    intro r hr
    exact raised_gpr ((mem_savedRegs r).mp hr)
  have hsaved : ∀ r ∈ savedRegs.reverse, r ≠ .rsp ∧ r ∉ ([] : List Reg) := by
    intro r hr
    rw [List.mem_reverse, mem_savedRegs] at hr
    exact ⟨hr, List.not_mem_nil⟩
  have hpush := Saved.pushes status savedRegs.reverse h
    (by rw [hlen]; omega) hsaved
  rw [← pushaq_eq, List.map_reverse, List.reverse_reverse, hregs] at hpush
  unfold isrEntry
  rw [run_append, run_append]
  generalize run status M pushaq = M at hpush
  have hlen : (savedRegs.map m.gpr ++ words).length = words.length + 15 := by
    simp [savedRegs]
  rw [List.append_assoc]
  generalize savedRegs.map m.gpr ++ words = words' at hpush hlen ⊢
  have hcr4 := (hpush.mono [.rdi, .rax]).spillCr status (by decide)
    (by omega) .cr4
  have hcr3 := hcr4.spillCr status (by decide)
    (by simp only [List.length_cons]; omega) .cr3
  have hcr2 := hcr3.spillCr status (by decide)
    (by simp only [List.length_cons]; omega) .cr2
  have hcr0 := hcr2.spillCr status (by decide)
    (by simp only [List.length_cons]; omega) .cr0
  have hds := hcr0.spillSeg status (by decide)
    (by simp only [List.length_cons]; omega) .ds
  have hes := hds.spillSeg status (by decide)
    (by simp only [List.length_cons]; omega) .es
  exact (hes.rflags _).set (by decide) (by decide) _

/-- What lies on the stack when the handler is called. -/
theorem isrCall_saved (status : Instr → Machine → Word) (trap : Bool) (vector : Nat)
    (err : Option Word) (stub : Word) (hroom : 248 ≤ (m.gpr .rsp).toNat) :
    Saved (raised m trap stub) (isrCall status m trap vector err stub) [.rdi, .rax]
      ([(m.seg .es).setWidth 64, (m.seg .ds).setWidth 64, m.cr .cr0, m.cr .cr2, m.cr .cr3,
          m.cr .cr4] ++ savedRegs.map m.gpr
        ++ ([BitVec.ofNat 64 vector] ++ (if vector ∈ errorCodeVectors then [] else [0])
          ++ (err.toList ++ [m.rip, (m.seg .cs).setWidth 64, m.rflags, m.gpr .rsp,
            (m.seg .ss).setWidth 64]))) := by
  have hsp := raised_sp m trap stub
  have herr : err.toList.length ≤ 1 := by cases err <;> simp
  have hdeliver : Saved (raised m trap stub) (deliver m trap err stub) [] _ :=
    deliver_saved (by omega)
  have hstub := createIsr_saved status vector hdeliver
    (by simp only [List.length_append, List.length_cons, List.length_nil]; omega)
  unfold isrCall
  rw [run_append]
  apply isrEntry_saved hstub
  split
  all_goals
    simp only [List.length_append, List.length_cons, List.length_nil]
    omega

/-- The pointer that the handler gets. -/
theorem isrCall_rdi : (isrCall status m trap vector err stub).gpr .rdi
    = (isrCall status m trap vector err stub).gpr .rsp := by
  have hlast : isrEntry = isrEntry.dropLast ++ [.mov .rdi .rsp] := rfl
  unfold isrCall
  rw [hlast, ← List.append_assoc]
  exact run_mov status _ _ .rdi .rsp

-- ==== on the way out

/-- The frame that the stub goes back to. -/
def framePtr (M : Machine) : Word := if M.gpr .rax = 0 then M.gpr .rsp else M.gpr .rax

/-- In front of `.got_frame` the pointer is in `rax`. -/
theorem isrExit_eq (status : Instr → Machine → Word) (M : Machine) :
    ∃ gpr rflags, isrExit status M = run status { M with gpr, rflags } gotFrame
      ∧ gpr .rax = framePtr M := by
  unfold isrExit framePtr
  by_cases h : M.gpr .rax = 0
  · rw [if_pos h]
    refine ⟨Function.update M.gpr .rax (M.gpr .rsp), (exec status M (.test .rax)).rflags, ?_,
      Function.update_self ..⟩
    show run status (if M.gpr .rax = 0 then _ else _) gotFrame = _
    rw [if_pos h]
    rfl
  · rw [if_neg h]
    refine ⟨M.gpr, (exec status M (.test .rax)).rflags, ?_, rfl⟩
    show run status (if M.gpr .rax = 0 then _ else _) gotFrame = _
    rw [if_neg h]
    rfl

/-- The registers are those in the frame; the others are as the handler
has left them. -/
theorem isrExit_resumes {F : InterruptFrame} (h : Holds M.mem (framePtr M).toNat F.words)
    (hroom : (framePtr M).toNat + 224 ≤ 2 ^ 64) :
    isrExit status M =
      { gpr := F.gpr
        cr := M.cr
        seg := Function.update (Function.update M.seg .cs (F.cs.setWidth 16)) .ss
          (F.ss.setWidth 16)
        rflags := F.rflags
        rip := F.rip
        mem := M.mem } := by
  have hadd : ∀ k : Word, k.toNat < 224 →
      (framePtr M + k).toNat = (framePtr M).toNat + k.toNat := by
    intro k hk
    rw [BitVec.toNat_add]
    exact Nat.mod_eq_of_lt (by omega)
  -- the words behind the first six, and those behind the registers
  unfold InterruptFrame.words at h
  rw [holds_append, holds_append] at h
  obtain ⟨⟨-, hregs⟩, htail⟩ := h
  have hwords : Holds M.mem ((framePtr M).toNat + 184)
      [F.rip, F.cs, F.rflags, F.gpr .rsp, F.ss] := htail.2.2
  obtain ⟨gpr, rflags, hrun, hrax⟩ := isrExit_eq status M
  rw [hrun]
  unfold gotFrame
  rw [run_append, run_append, popaq_eq]
  generalize hM : run status { M with gpr, rflags } [.mov .rsp .rax, .add .rsp 0x30] = M₁
  have hM₁ : M₁ = { M with gpr := M₁.gpr, rflags := M₁.rflags } := by rw [← hM]; rfl
  have hsp : (M₁.gpr .rsp).toNat = (framePtr M).toNat + 48 := by
    have hval : M₁.gpr .rsp = framePtr M + 48 := by
      rw [← hM, ← hrax]
      rfl
    rw [hval, hadd 48 (by decide)]
    rfl
  have hmem : M₁.mem = M.mem := by rw [hM₁]
  obtain ⟨gpr', hpop, hin, -, hend⟩ := run_pops status savedRegs F.gpr (M := M₁)
    (by rw [hmem, hsp]; exact hregs) (by rw [hsp]; simp [savedRegs]; omega) (by decide)
  rw [hpop]
  have hend' : (gpr' .rsp).toNat = (framePtr M).toNat + 168 := by
    rw [hend, hsp]
    rfl
  generalize hM' : exec status { M₁ with gpr := gpr' } (.add .rsp 0x10) = M₂
  have hM₂ : M₂ = { M with gpr := M₂.gpr, rflags := M₂.rflags } := by
    rw [← hM', hM₁]
    rfl
  have hsp₂ : (M₂.gpr .rsp).toNat = (framePtr M).toNat + 184 := by
    have hval : M₂.gpr .rsp = gpr' .rsp + 16 := by
      rw [← hM']
      exact Machine.set_gpr_self (M := { M₁ with gpr := gpr' }) (r := .rsp)
    rw [hval, BitVec.toNat_add, hend', show (16 : Word).toNat = 16 from rfl]
    omega
  rw [run_cons, hM', run_cons, run_nil]
  rw [exec_iretq (by rw [hsp₂, hM₂]; exact hwords) (by rw [hsp₂]; omega)]
  have hgpr : Function.update M₂.gpr .rsp (F.gpr .rsp) = F.gpr := by
    funext r
    by_cases hr : r = .rsp
    · rw [hr, Function.update_self]
    · rw [Function.update_of_ne hr, ← hM']
      show (Machine.set _ .rsp _).gpr r = F.gpr r
      rw [Machine.set_gpr hr]
      exact hin r ((mem_savedRegs r).mpr hr)
  rw [hM₂]
  simp only [Machine.set, Machine.setSeg, hgpr]

-- ==== the results

/-- `rdi` points to the frame `F`. -/
def Captured (M : Machine) (F : InterruptFrame) : Prop :=
  M.gpr .rdi = M.gpr .rsp ∧ Holds M.mem (M.gpr .rsp).toNat F.words

/-- Where the list of `create_isr` is right, the frame is what was pushed. -/
theorem isrCall_frame (hroom : 248 ≤ (m.gpr .rsp).toNat)
    (herr : err.isSome = true ↔ vector ∈ errorCodeVectors) :
    Saved (raised m trap stub) (isrCall status m trap vector err stub) [.rdi, .rax]
      (frameOf m vector (err.getD 0)).words := by
  have h := isrCall_saved status trap vector err stub hroom
  cases err with
  | none =>
      rw [if_neg (by simpa using herr)] at h
      exact h
  | some code =>
      rw [if_pos (by simpa using herr)] at h
      exact h

theorem isrCall_captured (hroom : 248 ≤ (m.gpr .rsp).toNat)
    (herr : err.isSome = true ↔ vector ∈ errorCodeVectors) :
    Captured (isrCall status m trap vector err stub) (frameOf m vector (err.getD 0)) :=
  ⟨isrCall_rdi, (isrCall_frame hroom herr).words⟩

/-- The frame takes up 28 words. -/
theorem isrCall_sp (hroom : 248 ≤ (m.gpr .rsp).toNat)
    (herr : err.isSome = true ↔ vector ∈ errorCodeVectors) :
    ((isrCall status m trap vector err stub).gpr .rsp).toNat + 224
      = ((raised m trap stub).gpr .rsp).toNat :=
  (isrCall_frame hroom herr).sp

/-- The machine that shows a shifted frame. -/
def shifted : Machine where
  gpr := fun _ => 0x1000
  cr := fun _ => 0
  seg := fun _ => 0
  rflags := 0
  rip := 1
  mem := fun _ => 0

/-- The frame is right for every machine if and only if the list of
`create_isr` says whether the processor has pushed an error code. -/
theorem isr_frame_iff (status : Instr → Machine → Word) (vector : Nat) (err : Option Word) :
    (∀ (m : Machine) (trap : Bool) (stub : Word), 248 ≤ (m.gpr .rsp).toNat →
      Captured (isrCall status m trap vector err stub) (frameOf m vector (err.getD 0)))
      ↔ (err.isSome = true ↔ vector ∈ errorCodeVectors) := by
  constructor
  · intro hall
    have hroom : 248 ≤ (shifted.gpr .rsp).toNat := by decide
    have hframe := (hall shifted true 0 hroom).2
    have hwords := (isrCall_saved status true vector err 0 hroom).words
    cases err with
    | none =>
        refine iff_of_false (by simp) fun hmem => ?_
        -- the place of `err` holds `rip`
        rw [if_pos hmem] at hwords
        have h1 : Bytes.load _ _ 8 = (1 : Word).toNat :=
          hwords.get (i := 22) (by simp [savedRegs])
        have h0 : Bytes.load _ _ 8 = (0 : Word).toNat := hframe.get (i := 22) (by simp)
        exact absurd (h1.symm.trans h0) (by decide)
    | some code =>
        refine iff_of_true rfl ?_
        by_contra hmem
        -- the place of `cs` holds `rip`
        rw [if_neg hmem] at hwords
        have h1 : Bytes.load _ _ 8 = (1 : Word).toNat :=
          hwords.get (i := 24) (by simp [savedRegs])
        have h0 : Bytes.load _ _ 8 = (0 : Word).toNat := hframe.get (i := 24) (by simp)
        exact absurd (h1.symm.trans h0) (by decide)
  · intro herr m trap stub hroom
    exact isrCall_captured hroom herr

/-- `isr_common_handler` has returned to the stub: the stack pointer is
back, and the frame was returned, or NULL, and not written to. -/
structure Returned (c c' : Machine) : Prop where
  sp : c'.gpr .rsp = c.gpr .rsp
  frame : c'.gpr .rax = 0 ∨ c'.gpr .rax = c.gpr .rdi
  kept : ∀ x, (c.gpr .rsp).toNat ≤ x → x < (c.gpr .rsp).toNat + 224 → c'.mem x = c.mem x

theorem Returned.framePtr {c c' : Machine} (h : Returned c c') (hrdi : c.gpr .rdi = c.gpr .rsp) :
    framePtr c' = c.gpr .rsp := by
  unfold Cpu.framePtr
  rcases h.frame with h0 | h0
  · rw [if_pos h0, h.sp]
  · by_cases hz : c'.gpr .rax = 0
    · rw [if_pos hz, h.sp]
    · rw [if_neg hz, h0, hrdi]

/-- Every register of the interrupted code is as it was, and in front of
the handler no byte of its stack was written. -/
theorem isr_transparent (status : Instr → Machine → Word) (handler : Machine → Machine)
    (m : Machine) (trap : Bool) (vector : Nat) (err : Option Word) (stub : Word)
    (hroom : 248 ≤ (m.gpr .rsp).toNat)
    (herr : err.isSome = true ↔ vector ∈ errorCodeVectors)
    (hreturned : Returned (isrCall status m trap vector err stub)
      (handler (isrCall status m trap vector err stub))) :
    let call := isrCall status m trap vector err stub
    let after := isr status handler m trap vector err stub
    (∀ x, (m.gpr .rsp).toNat ≤ x → call.mem x = m.mem x)
      ∧ after.mem = (handler call).mem
      ∧ after.gpr = m.gpr ∧ after.rip = m.rip ∧ after.rflags = m.rflags
      ∧ after.seg .cs = m.seg .cs ∧ after.seg .ss = m.seg .ss := by
  intro call after
  have hsaved := isrCall_saved status trap vector err stub hroom
  have hcaptured : Captured call (frameOf m vector (err.getD 0)) := isrCall_captured hroom herr
  have hptr := hreturned.framePtr hcaptured.1
  have hraised := raised_sp m trap stub
  have hwords : Holds (handler call).mem (framePtr (handler call)).toNat
      (frameOf m vector (err.getD 0)).words := by
    rw [hptr]
    exact hcaptured.2.congr hreturned.kept
  have hend : (framePtr (handler call)).toNat + 224 ≤ 2 ^ 64 := by
    have hlt := ((raised m trap stub).gpr .rsp).isLt
    rw [hptr, isrCall_sp hroom herr]
    omega
  have hafter : after = _ := isrExit_resumes hwords hend
  have hseg : ∀ s : BitVec 16, (s.setWidth 64).setWidth 16 = s := by
    intro s
    rw [BitVec.setWidth_setWidth_of_le s (by decide), BitVec.setWidth_eq]
  rw [hafter]
  refine ⟨?_, rfl, rfl, rfl, rfl, hseg _, hseg _⟩
  intro x hx
  apply hsaved.outside
  omega

/-- A handler that returns NULL. -/
theorem isr_transparent_null :
    let after := isr (fun _ _ => 0) (fun c => c.set .rax 0) shifted false 0x20 none 0
    after.gpr = shifted.gpr ∧ after.rip = 1 := by
  have h := isr_transparent (fun _ _ => 0) (fun c => c.set .rax 0) shifted false 0x20 none 0
    (by decide) (by decide) ⟨rfl, Or.inl rfl, fun _ _ _ => rfl⟩
  exact ⟨h.2.2.1, h.2.2.2.1⟩

-- ==== kpanic

/-- The frame that `kpanic` makes for its caller. -/
def callerFrame (m : Machine) (rflags : Word) : InterruptFrame :=
  { frameOf m 0 0 with
    gpr := Function.update m.gpr .rsp (m.gpr .rsp + 8)
    rip := m.top
    rflags }

/-- The first five words, with the flags as they are then. -/
theorem kpanic_head (status : Instr → Machine → Word) (h : Saved m M [] [])
    (hroom : 40 ≤ (m.gpr .rsp).toNat) :
    ∃ M', run status M [.push .rax, .xor .rax, .movwSeg .rax .ss, .push .rax,
        .lea .rax .rsp 24, .push .rax, .pushf, .xor .rax, .movwSeg .rax .cs, .push .rax] = M'
      ∧ ∃ rflags, rflags &&& ~~~STATUS = M.rflags &&& ~~~STATUS
        ∧ Saved m M' [.rax] [(m.seg .cs).setWidth 64, rflags, m.gpr .rsp + 8,
            (m.seg .ss).setWidth 64, m.gpr .rax] := by
  have hrax := h.push (by simp; omega) (m.gpr .rax)
  rw [← h.gpr .rax (by decide) (by decide)] at hrax ⊢
  have hss := (hrax.mono [.rax]).spillSegw status (by decide) (by simp; omega) .ss
  have haddr : _ + (16 : Word) = m.gpr .rsp := hss.sp_add
  have hsp := hss.spill status (by decide) (by simp; omega) (m.gpr .rsp + 8)
  rw [← haddr, BitVec.add_assoc] at hsp
  have hflags := hsp.push (by simp; omega) (exec status (M.push (M.gpr .rax)) (.xor .rax)).rflags
  have hcs := hflags.spillSegw status (by decide) (by simp; omega) .cs
  refine ⟨_, rfl, (exec status (M.push (M.gpr .rax)) (.xor .rax)).rflags,
    Machine.flag_rflags (M.push (M.gpr .rax)) _, ?_⟩
  rw [← haddr, BitVec.add_assoc]
  exact hcs

/-- The rest of the frame. -/
theorem kpanic_tail (status : Instr → Machine → Word) {rflags : Word}
    (h : Saved m M [.rax] [(m.seg .cs).setWidth 64, rflags, m.gpr .rsp + 8,
      (m.seg .ss).setWidth 64, m.gpr .rax])
    (hroom : 232 ≤ (m.gpr .rsp).toNat) :
    Saved m (run status M (kpanicCapture.drop 10)) [.rdi, .rax]
      ((callerFrame m rflags).words ++ [m.gpr .rax]) := by
  have hrip := h.spillTop status (by decide) (by simp; omega)
  have hzero := (hrip.push (by simp; omega) 0).push (by simp; omega) 0
  have hregs := hzero.pushes status
    [.r15, .r14, .r13, .r12, .r11, .r10, .r9, .r8, .rsi, .rdi, .rbp, .rdx, .rcx, .rbx]
    (by simp; omega) (by decide)
  have hrax := hregs.spillPushed status (by decide) (by simp; omega) (i := 21) (by simp)
  have hcr4 := hrax.spillCr status (by decide) (by simp; omega) .cr4
  have hcr3 := hcr4.spillCr status (by decide) (by simp; omega) .cr3
  have hcr2 := hcr3.spillCr status (by decide) (by simp; omega) .cr2
  have hcr0 := hcr2.spillCr status (by decide) (by simp; omega) .cr0
  have hds := hcr0.spillSegw status (by decide) (by simp; omega) .ds
  have hes := hds.spillSegw status (by decide) (by simp; omega) .es
  exact (hes.mono [.rdi]).set (by decide) (by decide) _

/-- `kpanic` without a frame hands on that of its caller, behind the call:
every register, but for the status flags. The arguments are in place. -/
theorem kpanic_captures (status : Instr → Machine → Word) (m : Machine)
    (hnull : m.gpr .rdi = 0) (hroom : 232 ≤ (m.gpr .rsp).toNat) :
    ∃ rflags, rflags &&& ~~~STATUS = m.rflags &&& ~~~STATUS
      ∧ Captured (kpanic status m) (callerFrame m rflags)
      ∧ (∀ r, r ≠ .rsp → r ≠ .rdi → r ≠ .rax → (kpanic status m).gpr r = m.gpr r)
      ∧ ∀ x, (m.gpr .rsp).toNat ≤ x → (kpanic status m).mem x = m.mem x := by
  have htest := (Saved.refl m).rflags (exec status m (.test .rdi)).rflags
  obtain ⟨M', hrun, rflags, hflags, hhead⟩ := kpanic_head status htest (by omega)
  have htail := kpanic_tail status hhead hroom
  have heq : kpanic status m = run status M' (kpanicCapture.drop 10) := by
    have hcapture : kpanic status m = run status (exec status m (.test .rdi)) kpanicCapture :=
      if_pos hnull
    rw [hcapture, ← hrun, ← run_append]
    rfl
  have hlast : kpanicCapture.drop 10 = (kpanicCapture.drop 10).dropLast ++ [.mov .rdi .rsp] := rfl
  refine ⟨rflags, ?_, ?_, ?_, ?_⟩
  · rw [hflags]
    exact Machine.flag_rflags m _
  · rw [heq]
    refine ⟨?_, (holds_append.mp htail.words).1⟩
    rw [hlast]
    exact run_mov status M' _ .rdi .rsp
  · intro r hsp hdi hax
    rw [heq]
    apply htail.gpr r hsp
    simp [hdi, hax]
  · intro x hx
    rw [heq]
    exact htail.outside x (Or.inr hx)

/-- Zeros everywhere but in the stack pointer. -/
def quiet : Machine := { shifted with gpr := fun r => if r = .rsp then 0x1000 else 0 }

theorem kpanic_captures_quiet :
    ∃ rflags, Captured (kpanic (fun _ _ => 0) quiet) (callerFrame quiet rflags) := by
  obtain ⟨rflags, -, h, -⟩ := kpanic_captures (fun _ _ => 0) quiet rfl (by decide)
  exact ⟨rflags, h⟩

end Alix.Cpu
