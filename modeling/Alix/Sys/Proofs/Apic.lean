/-
The redirection entries that the I/O APIC code reaches.

# One search

Both searches are the first controller that covers the GSI
(`searchIoapic_spec`), and what covers it is read from the version
registers, which no write changes (`Agrees`). The override is looked up by
the vector in one place and by the IRQ in the other; below 16 these are
the same lookup (`redGsi_irq`). So an IRQ has one pin for both
(`install_mask_agree`).

# The last pin

The field of the version register is the number of the last entry. The
loops take it for the number of entries, so the last one is never found
and never masked (`reaches_iff`).
-/
import Alix.Sys.Apic
import Mathlib.Data.List.Pairwise

namespace Alix

/-- The register of an access. -/
def Access.reg : Access → BitVec 8
  | .read _ r => r
  | .write _ r _ => r

namespace Apic

variable {s t u : Apic} {io : MadtIoapic} {gsi : BitVec 32} {base : BitVec 64}

-- ==== the statements

/-- A register of the controller at a base. -/
def regAt (s : Apic) (base : BitVec 64) (r : BitVec 8) : BitVec 32 := (s.chips base).reg r

/-- The accesses of redirection entries so far. -/
def redirs (s : Apic) : List Access := s.log.filter fun a => 0x10#8 ≤ a.reg

/-- The two words of a redirection entry. -/
def entry (s : Apic) (io : MadtIoapic) (n : BitVec 32) : BitVec 32 × BitVec 32 :=
  (s.regAt (s.baseOf io) (IOAPICREDTBLL n), s.regAt (s.baseOf io) (IOAPICREDTBLH n))

/-- The field of the version register of a controller. -/
def lastRed (s : Apic) (io : MadtIoapic) : BitVec 8 := maxreds (s.regAt (s.baseOf io) IOAPICVER)

/-- The mask bit of an entry of the controller at a base. -/
def maskedAt (s : Apic) (base : BitVec 64) (n : BitVec 32) : Bool :=
  (s.regAt base (IOAPICREDTBLL n)).getLsbD 16

/-- The GSI that `ioapic_write_red` goes to. -/
def redGsi (s : Apic) (gsi : BitVec 32) (vec : BitVec 8) : BitVec 32 :=
  match s.isos.find? fun iso => (vec.toNat : Int) - IRQ_BASE == (iso.src.toNat : Int) with
  | some iso => iso.gsi
  | none => gsi

/-- The last GSI of a controller, when the field of its version register
is the number of its last entry. -/
def lastGsi (s : Apic) (io : MadtIoapic) : Nat := io.gsiBase.toNat + (s.lastRed io).toNat

/-- No GSI has two controllers. -/
def DisjointRanges (s : Apic) : Prop :=
  s.ioapics.Pairwise fun a b =>
    s.lastGsi a < b.gsiBase.toNat ∨ s.lastGsi b < a.gsiBase.toNat

/-- A GSI is reached at its controller: both calls access its pin, and no
entry of a controller is left unmasked by `apic_init`. -/
structure Reaches (s : Apic) (io : MadtIoapic) (gsi : BitVec 32) : Prop where
  writeRed : ∀ g vec deliveryMode polarity triggerMode dest, s.redGsi g vec = gsi →
    ∃ r r' low high,
      (s.ioapicWriteRed g vec deliveryMode polarity triggerMode dest).redirs = s.redirs
        ++ [Access.write (s.baseOf io) r low, Access.write (s.baseOf io) r' high]
      ∧ r.toNat = 0x10 + 2 * (gsi.toNat - io.gsiBase.toNat)
      ∧ r'.toNat = 0x10 + 2 * (gsi.toNat - io.gsiBase.toNat) + 1
  setIrqMask : ∀ irq masked, irq < 16 → s.ioapicGsiForIrq irq = gsi →
    (s.ioapicSetIrqMask irq masked).2 = 0
      ∧ ∃ r low, (s.ioapicSetIrqMask irq masked).1.redirs = s.redirs
          ++ [Access.read (s.baseOf io) r, Access.write (s.baseOf io) r low]
        ∧ r.toNat = 0x10 + 2 * (gsi.toNat - io.gsiBase.toNat)
  init : ∀ io' ∈ s.ioapics, ∀ n : BitVec 32, n.toNat ≤ (s.lastRed io').toNat → n.toNat < 120 →
    s.apicInit.maskedAt (s.baseOf io') n = true

-- ==== the registers

@[simp] theorem ioapicRead_snd (r : BitVec 8) : (s.ioapicRead base r).2 = s.regAt base r := by
  simp [ioapicRead, select, regAt]

@[simp] theorem ioapicRead_regAt (r : BitVec 8) (b : BitVec 64) (r' : BitVec 8) :
    (s.ioapicRead base r).1.regAt b r' = s.regAt b r' := by
  by_cases h : b = base
  · simp [ioapicRead, select, regAt, h]
  · simp [ioapicRead, select, regAt, h]

/-- A register reads back what was written, the version register apart. -/
theorem ioapicWrite_regAt (r : BitVec 8) (d : BitVec 32) (b : BitVec 64) (r' : BitVec 8) :
    (s.ioapicWrite base r d).regAt b r'
      = if b = base ∧ r' = r ∧ r ≠ IOAPICVER then d else s.regAt b r' := by
  by_cases hb : b = base
  · subst hb
    by_cases hr : r = IOAPICVER
    · simp [ioapicWrite, writeWindow, select, regAt, hr]
    · simp [ioapicWrite, writeWindow, select, regAt, hr, Function.update_apply]
  · by_cases hr : r = IOAPICVER <;> simp [ioapicWrite, writeWindow, select, regAt, hr, hb]

theorem ioapicRead_redirs (r : BitVec 8) :
    (s.ioapicRead base r).1.redirs
      = s.redirs ++ if 0x10#8 ≤ r then [Access.read base r] else [] := by
  by_cases h : 0x10#8 ≤ r <;> simp [ioapicRead, select, redirs, Access.reg, h]

theorem writeWindow_log (d : BitVec 32) : (s.writeWindow base d).log = s.log := by
  simp only [writeWindow]
  split <;> rfl

theorem ioapicWrite_redirs (r : BitVec 8) (d : BitVec 32) :
    (s.ioapicWrite base r d).redirs
      = s.redirs ++ if 0x10#8 ≤ r then [Access.write base r d] else [] := by
  by_cases h : 0x10#8 ≤ r <;> simp [ioapicWrite, redirs, writeWindow_log, Access.reg, h]

/-- Register numbers of the entries below 120 do not leave the byte. -/
theorem toNat_IOAPICREDTBLL {n : BitVec 32} (h : n.toNat < 120) :
    (IOAPICREDTBLL n).toNat = 0x10 + 2 * n.toNat := by
  simp [IOAPICREDTBLL]
  omega

theorem toNat_IOAPICREDTBLH {n : BitVec 32} (h : n.toNat < 120) :
    (IOAPICREDTBLH n).toNat = 0x10 + 2 * n.toNat + 1 := by
  simp [IOAPICREDTBLH]
  omega

-- ==== what stays

/-- The tables and the version registers are the same. -/
structure Agrees (s t : Apic) : Prop where
  ioapics : t.ioapics = s.ioapics
  isos : t.isos = s.isos
  hhdm : t.hhdm = s.hhdm
  version : ∀ b, t.regAt b IOAPICVER = s.regAt b IOAPICVER

/-- And so is every register, and no redirection entry was accessed. -/
structure Quiet (s t : Apic) : Prop extends Agrees s t where
  regAt : ∀ b r, t.regAt b r = s.regAt b r
  redirs : t.redirs = s.redirs

theorem Agrees.refl (s : Apic) : Agrees s s := ⟨rfl, rfl, rfl, fun _ => rfl⟩

theorem Agrees.trans (h : Agrees s t) (h' : Agrees t u) : Agrees s u :=
  ⟨h'.ioapics.trans h.ioapics, h'.isos.trans h.isos, h'.hhdm.trans h.hhdm,
    fun b => (h'.version b).trans (h.version b)⟩

theorem Quiet.refl (s : Apic) : Quiet s s := ⟨Agrees.refl s, fun _ _ => rfl, rfl⟩

theorem Quiet.trans (h : Quiet s t) (h' : Quiet t u) : Quiet s u :=
  ⟨h.toAgrees.trans h'.toAgrees, fun b r => (h'.regAt b r).trans (h.regAt b r),
    h'.redirs.trans h.redirs⟩

theorem ioapicRead_agrees (r : BitVec 8) : Agrees s (s.ioapicRead base r).1 :=
  ⟨rfl, rfl, rfl, fun b => ioapicRead_regAt r b IOAPICVER⟩

theorem ioapicRead_quiet (base : BitVec 64) : Quiet s (s.ioapicRead base IOAPICVER).1 :=
  ⟨ioapicRead_agrees _, fun b r => ioapicRead_regAt IOAPICVER b r, by simp [ioapicRead_redirs]⟩

theorem ioapicWrite_agrees (r : BitVec 8) (d : BitVec 32) : Agrees s (s.ioapicWrite base r d) := by
  have htables : ∀ t : Apic, (t.writeWindow base d).ioapics = t.ioapics
      ∧ (t.writeWindow base d).isos = t.isos ∧ (t.writeWindow base d).hhdm = t.hhdm := by
    intro t
    simp only [writeWindow]
    split <;> exact ⟨rfl, rfl, rfl⟩
  refine ⟨(htables _).1, (htables _).2.1, (htables _).2.2, fun b => ?_⟩
  rw [ioapicWrite_regAt]
  refine if_neg ?_
  rintro ⟨-, hr, hne⟩
  exact hne hr.symm

theorem Agrees.baseOf (h : Agrees s t) (io : MadtIoapic) : t.baseOf io = s.baseOf io := by
  simp only [Apic.baseOf, h.hhdm]

theorem Agrees.lastRed (h : Agrees s t) (io : MadtIoapic) : t.lastRed io = s.lastRed io := by
  simp only [Apic.lastRed, h.baseOf, h.version]

-- ==== the search

/-- The test of the search. -/
def covers (s : Apic) (gsi : BitVec 32) (io : MadtIoapic) : Bool :=
  io.gsiBase ≤ gsi ∧ io.gsiBase + (s.lastRed io).setWidth 32 > gsi

/-- The controller of a GSI. -/
def ownerOf (s : Apic) (gsi : BitVec 32) : Option MadtIoapic := s.ioapics.find? (s.covers gsi)

theorem Agrees.covers (h : Agrees s t) (gsi : BitVec 32) : t.covers gsi = s.covers gsi := by
  funext io
  simp only [Apic.covers, h.lastRed]

theorem Agrees.ownerOf (h : Agrees s t) (gsi : BitVec 32) : t.ownerOf gsi = s.ownerOf gsi := by
  simp only [Apic.ownerOf, h.ioapics, h.covers]

theorem searchIoapic_spec (gsi : BitVec 32) (l : List MadtIoapic) (s : Apic) :
    (searchIoapic gsi l s).2 = l.find? (s.covers gsi) ∧ Quiet s (searchIoapic gsi l s).1 := by
  induction l generalizing s with
  | nil => exact ⟨rfl, Quiet.refl s⟩
  | cons io l ih =>
      have hq : Quiet s (s.ioapicRead (s.baseOf io) IOAPICVER).1 := ioapicRead_quiet _
      have ⟨hfind, hquiet⟩ := ih (s.ioapicRead (s.baseOf io) IOAPICVER).1
      rw [hq.covers] at hfind
      simp only [searchIoapic, ioapicRead_snd, List.find?_cons]
      by_cases hc : s.covers gsi io = true
      · rw [hc, if_pos (by simpa [Apic.covers, Apic.lastRed] using hc)]
        exact ⟨rfl, hq⟩
      · rw [if_neg (by simpa [Apic.covers, Apic.lastRed] using hc), eq_false_of_ne_true hc]
        exact ⟨hfind, hq.trans hquiet⟩

theorem searchIoapic_eq (s : Apic) (gsi : BitVec 32) :
    ∃ q, Quiet s q ∧ searchIoapic gsi s.ioapics s = (q, s.ownerOf gsi) := by
  obtain ⟨hfind, hq⟩ := searchIoapic_spec gsi s.ioapics s
  exact ⟨_, hq, Prod.ext rfl hfind⟩

-- ==== what the calls come to

/-- An entry is written unmasked. -/
theorem Redent.low_mask (e : Redent) (h : e.mask = 0) : e.low.getLsbD 16 = false := by
  simp only [Redent.low, Redent.bits, BitVec.getLsbD_extractLsb', BitVec.getLsbD_append, h]
  simp

/-- One search, and both words of the pin it finds. -/
theorem ioapicWriteRed_spec (s : Apic) (gsi : BitVec 32) (vec deliveryMode polarity triggerMode
    dest : BitVec 8) :
    ∃ q low high, Quiet s q ∧ low.getLsbD 16 = false
      ∧ s.ioapicWriteRed gsi vec deliveryMode polarity triggerMode dest
        = match s.ownerOf (s.redGsi gsi vec) with
          | none => q
          | some io =>
              let pin := s.redGsi gsi vec - io.gsiBase
              (q.ioapicWrite (s.baseOf io) (IOAPICREDTBLL pin) low).ioapicWrite (s.baseOf io)
                (IOAPICREDTBLH pin) high := by
  -- what follows the search, with the entry `e`
  have hwrite : ∀ (gsi : BitVec 32) (e : Redent) (r : Apic),
      (∀ q, searchIoapic gsi s.ioapics s = (q, none) → r = q) →
      (∀ q io, searchIoapic gsi s.ioapics s = (q, some io) →
        r = (q.ioapicWrite (q.baseOf io) (IOAPICREDTBLL (gsi - io.gsiBase)) e.low).ioapicWrite
          (q.baseOf io) (IOAPICREDTBLH (gsi - io.gsiBase)) e.high) →
      e.mask = 0 → ∃ q low high, Quiet s q ∧ low.getLsbD 16 = false
        ∧ r = match s.ownerOf gsi with
          | none => q
          | some io =>
              (q.ioapicWrite (s.baseOf io) (IOAPICREDTBLL (gsi - io.gsiBase)) low).ioapicWrite
                (s.baseOf io) (IOAPICREDTBLH (gsi - io.gsiBase)) high := by
    intro gsi e r hnone hsome he
    obtain ⟨q, hq, hsearch⟩ := searchIoapic_eq s gsi
    refine ⟨q, e.low, e.high, hq, Redent.low_mask e he, ?_⟩
    cases hown : s.ownerOf gsi with
    | none => exact hnone q (by rw [hsearch, hown])
    | some io =>
        rw [hsome q io (by rw [hsearch, hown])]
        simp only [hq.baseOf]
  simp only [ioapicWriteRed, redGsi]
  cases s.isos.find? fun iso => (vec.toNat : Int) - IRQ_BASE == (iso.src.toNat : Int) with
  | none => exact hwrite _ _ _ (fun q hs => by rw [hs]) (fun q io hs => by rw [hs]) rfl
  | some iso =>
      refine hwrite _ _ _ (fun q hs => by rw [hs]) (fun q io hs => by rw [hs]) ?_
      dsimp only
      split <;> split <;> rfl

/-- The word that the mask call writes. -/
def maskWord (masked : Bool) (low : BitVec 32) : BitVec 32 :=
  if masked then low ||| 0x10000#32 else low &&& ~~~0x10000#32

/-- One search, and the mask bit of the pin it finds. -/
theorem ioapicSetIrqMask_spec (s : Apic) {irq : BitVec 8} (masked : Bool) (hirq : irq < 16) :
    ∃ q, Quiet s q ∧ s.ioapicSetIrqMask irq masked
      = match s.ownerOf (s.ioapicGsiForIrq irq) with
        | none => (q, -1)
        | some io =>
            let base := s.baseOf io
            let r := IOAPICREDTBLL (s.ioapicGsiForIrq irq - io.gsiBase)
            ((q.ioapicRead base r).1.ioapicWrite base r (maskWord masked (s.regAt base r)), 0) := by
  obtain ⟨q, hq, hsearch⟩ := searchIoapic_eq s (s.ioapicGsiForIrq irq)
  refine ⟨q, hq, ?_⟩
  simp only [ioapicSetIrqMask, hsearch]
  rw [if_neg (by simpa using hirq)]
  cases s.ownerOf (s.ioapicGsiForIrq irq) with
  | none => rfl
  | some io => simp only [ioapicRead_snd, hq.baseOf, hq.regAt, maskWord]

/-- The vector of an IRQ finds the override of the IRQ. -/
theorem redGsi_irq (s : Apic) {irq : BitVec 8} (hirq : irq < 16) :
    s.redGsi (irq.setWidth 32) (BitVec.ofNat 8 IRQ_BASE + irq) = s.ioapicGsiForIrq irq := by
  have hvec : ((BitVec.ofNat 8 IRQ_BASE + irq).toNat : Int) - IRQ_BASE = (irq.toNat : Int) := by
    have hlt : irq.toNat < 16 := by simpa [BitVec.lt_def] using hirq
    have hbase : (BitVec.ofNat 8 IRQ_BASE).toNat = 32 := rfl
    rw [BitVec.toNat_add, hbase]
    change (((32 + irq.toNat) % 2 ^ 8 : Nat) : Int) - ((32 : Nat) : Int) = _
    omega
  have htest : (fun iso : MadtIso =>
        ((BitVec.ofNat 8 IRQ_BASE + irq).toNat : Int) - IRQ_BASE == (iso.src.toNat : Int))
      = fun iso => iso.src == irq := by
    funext iso
    rw [hvec, Bool.eq_iff_iff, beq_iff_eq, beq_iff_eq, Int.natCast_inj, ← BitVec.toNat_eq]
    exact eq_comm
  cases hiso : s.isos.find? fun iso => iso.src == irq with
  | none => simp only [redGsi, ioapicGsiForIrq, htest, hiso]
  | some iso => simp only [redGsi, ioapicGsiForIrq, htest, hiso]

-- ==== the registers of a pin

theorem IOAPICREDTBLL_ne_ver (n : BitVec 32) : IOAPICREDTBLL n ≠ IOAPICVER := by
  intro h
  have := congrArg BitVec.toNat h
  simp [IOAPICREDTBLL] at this
  omega

theorem IOAPICREDTBLL_ne_H (n n' : BitVec 32) : IOAPICREDTBLL n ≠ IOAPICREDTBLH n' := by
  intro h
  have := congrArg BitVec.toNat h
  simp [IOAPICREDTBLL, IOAPICREDTBLH] at this
  omega

/-- The entries below 120 have registers of their own. -/
theorem IOAPICREDTBLL_inj {n n' : BitVec 32} (h : n.toNat < 120) (h' : n'.toNat < 120)
    (he : IOAPICREDTBLL n = IOAPICREDTBLL n') : n = n' := by
  have := congrArg BitVec.toNat he
  rw [toNat_IOAPICREDTBLL h, toNat_IOAPICREDTBLL h'] at this
  apply BitVec.eq_of_toNat_eq
  omega

theorem le_IOAPICREDTBLL {n : BitVec 32} (h : n.toNat < 120) : 0x10#8 ≤ IOAPICREDTBLL n := by
  rw [BitVec.le_def, toNat_IOAPICREDTBLL h]
  exact Nat.le_add_right 16 _

theorem le_IOAPICREDTBLH {n : BitVec 32} (h : n.toNat < 120) : 0x10#8 ≤ IOAPICREDTBLH n := by
  rw [BitVec.le_def, toNat_IOAPICREDTBLH h]
  change 16 ≤ _
  omega

/-- The test as numbers: the sum does not wrap, and the field is an
exclusive bound. -/
theorem covers_iff : s.covers gsi io = true
    ↔ io.gsiBase.toNat + (s.lastRed io).toNat < 2 ^ 32 ∧ io.gsiBase.toNat ≤ gsi.toNat
      ∧ gsi.toNat < io.gsiBase.toNat + (s.lastRed io).toNat := by
  have h1 := (s.lastRed io).isLt
  have h2 := io.gsiBase.isLt
  have h3 := gsi.isLt
  have hw : ((s.lastRed io).setWidth 32).toNat = (s.lastRed io).toNat := by
    simp only [BitVec.toNat_setWidth]
    omega
  simp only [covers, decide_eq_true_eq, BitVec.le_def, gt_iff_lt, BitVec.lt_def, BitVec.toNat_add,
    hw]
  omega

theorem ownerOf_some (h : s.ownerOf gsi = some io) : io ∈ s.ioapics ∧ s.covers gsi io = true :=
  ⟨List.mem_of_find?_eq_some h, List.find?_some h⟩

/-- The pin of a GSI that is covered, as a number. -/
theorem toNat_pin (h : io.gsiBase.toNat ≤ gsi.toNat) :
    (gsi - io.gsiBase).toNat = gsi.toNat - io.gsiBase.toNat := by
  rw [BitVec.toNat_sub]
  have := gsi.isLt
  have := io.gsiBase.isLt
  omega

theorem baseOf_inj {io' : MadtIoapic} (h : s.baseOf io' = s.baseOf io) : io'.addr = io.addr := by
  have hadd : io'.addr.setWidth 64 = io.addr.setWidth 64 := by simpa [baseOf] using h
  apply BitVec.eq_of_toNat_eq
  have := congrArg BitVec.toNat hadd
  simp only [BitVec.toNat_setWidth] at this
  have := io.addr.isLt
  have := io'.addr.isLt
  omega

-- ==== an IRQ has one pin

theorem ioapicSetIrqMask_agrees (s : Apic) {irq : BitVec 8} (masked : Bool) (hirq : irq < 16) :
    Agrees s (s.ioapicSetIrqMask irq masked).1 := by
  obtain ⟨q, hq, heq⟩ := ioapicSetIrqMask_spec s masked hirq
  rw [heq]
  cases s.ownerOf (s.ioapicGsiForIrq irq) with
  | none => exact hq.toAgrees
  | some io => exact (hq.toAgrees.trans (ioapicRead_agrees _)).trans (ioapicWrite_agrees _ _)

/-- The mask call changes one register. -/
theorem ioapicSetIrqMask_regAt {irq : BitVec 8} (masked : Bool) (hirq : irq < 16)
    (hown : s.ownerOf (s.ioapicGsiForIrq irq) = some io) (b : BitVec 64) (r : BitVec 8) :
    (s.ioapicSetIrqMask irq masked).1.regAt b r
      = if b = s.baseOf io ∧ r = IOAPICREDTBLL (s.ioapicGsiForIrq irq - io.gsiBase)
        then maskWord masked (s.regAt b r) else s.regAt b r := by
  obtain ⟨q, hq, heq⟩ := ioapicSetIrqMask_spec s masked hirq
  rw [heq, hown]
  simp only [ioapicWrite_regAt, ioapicRead_regAt, hq.regAt]
  by_cases h : b = s.baseOf io ∧ r = IOAPICREDTBLL (s.ioapicGsiForIrq irq - io.gsiBase)
  · rw [if_pos ⟨h.1, h.2, IOAPICREDTBLL_ne_ver _⟩, if_pos h, h.1, h.2]
  · rw [if_neg fun h' => h ⟨h'.1, h'.2.1⟩, if_neg h]

theorem ioapicSetIrqMask_redirs {irq : BitVec 8} (masked : Bool) (hirq : irq < 16)
    (hown : s.ownerOf (s.ioapicGsiForIrq irq) = some io)
    (hpin : (s.ioapicGsiForIrq irq - io.gsiBase).toNat < 120) :
    (s.ioapicSetIrqMask irq masked).2 = 0
      ∧ (s.ioapicSetIrqMask irq masked).1.redirs = s.redirs
        ++ [Access.read (s.baseOf io) (IOAPICREDTBLL (s.ioapicGsiForIrq irq - io.gsiBase)),
          Access.write (s.baseOf io) (IOAPICREDTBLL (s.ioapicGsiForIrq irq - io.gsiBase))
            (maskWord masked (s.regAt (s.baseOf io)
              (IOAPICREDTBLL (s.ioapicGsiForIrq irq - io.gsiBase))))] := by
  obtain ⟨q, hq, heq⟩ := ioapicSetIrqMask_spec s masked hirq
  rw [heq, hown]
  simp [ioapicWrite_redirs, ioapicRead_redirs, hq.redirs, le_IOAPICREDTBLL hpin]

/-- Setting the mask bit and clearing it again gives a word back that has
it clear. -/
theorem maskWord_maskWord {low : BitVec 32} (h : low.getLsbD 16 = false) :
    maskWord false (maskWord true low) = low := by
  have hbit : ∀ i, (0x10000#32).getLsbD i = decide (i = 16) := by
    intro i
    rw [show 0x10000#32 = BitVec.twoPow 32 16 from rfl, BitVec.getLsbD_twoPow]
    simp [eq_comm]
  apply BitVec.eq_of_getLsbD_eq
  intro i hi
  simp only [maskWord, Bool.false_eq_true, ↓reduceIte, BitVec.getLsbD_and, BitVec.getLsbD_or,
    BitVec.getLsbD_not, hbit, hi, decide_true, Bool.true_and]
  by_cases h16 : i = 16
  · subst h16
    simpa using h
  · simp [h16]

theorem Agrees.gsiForIrq (h : Agrees s t) (irq : BitVec 8) :
    t.ioapicGsiForIrq irq = s.ioapicGsiForIrq irq := by
  simp only [ioapicGsiForIrq, h.isos]

/-- The mask call leaves the other pins alone. -/
theorem ioapicSetIrqMask_entry {irq : BitVec 8} (masked : Bool) (hirq : irq < 16)
    (hdistinct : (s.ioapics.map fun io => io.addr).Nodup)
    (hown : s.ownerOf (s.ioapicGsiForIrq irq) = some io)
    (hpin : (s.ioapicGsiForIrq irq - io.gsiBase).toNat < 120) {io' : MadtIoapic}
    (hio' : io' ∈ s.ioapics) {n : BitVec 32} (hn : n.toNat < 120)
    (hne : (io', n) ≠ (io, s.ioapicGsiForIrq irq - io.gsiBase)) :
    (s.ioapicSetIrqMask irq masked).1.entry io' n = s.entry io' n := by
  have hother : ∀ r, r = IOAPICREDTBLL n ∨ r = IOAPICREDTBLH n →
      (s.ioapicSetIrqMask irq masked).1.regAt (s.baseOf io') r = s.regAt (s.baseOf io') r := by
    intro r hr
    rw [ioapicSetIrqMask_regAt masked hirq hown]
    refine if_neg ?_
    rintro ⟨hb, rfl⟩
    rcases hr with hr | hr
    · have hsame : io' = io :=
        List.inj_on_of_nodup_map hdistinct hio' (ownerOf_some hown).1 (baseOf_inj hb)
      exact hne (by rw [hsame, IOAPICREDTBLL_inj hpin hn hr])
    · exact IOAPICREDTBLL_ne_H _ _ hr
  simp only [entry, (ioapicSetIrqMask_agrees s masked hirq).baseOf, hother _ (.inl rfl),
    hother _ (.inr rfl)]

/-- The two mask calls give every entry back if the pin is unmasked. -/
theorem mask_unmask_entry {irq : BitVec 8} (hirq : irq < 16)
    (hown : s.ownerOf (s.ioapicGsiForIrq irq) = some io)
    (hlow : (s.regAt (s.baseOf io)
      (IOAPICREDTBLL (s.ioapicGsiForIrq irq - io.gsiBase))).getLsbD 16 = false)
    (io' : MadtIoapic) (n : BitVec 32) :
    ((s.ioapicSetIrqMask irq true).1.ioapicSetIrqMask irq false).1.entry io' n
      = s.entry io' n := by
  have hagree := ioapicSetIrqMask_agrees s true hirq
  have hagree' := hagree.trans (ioapicSetIrqMask_agrees _ false hirq)
  have hown' : (s.ioapicSetIrqMask irq true).1.ownerOf
      ((s.ioapicSetIrqMask irq true).1.ioapicGsiForIrq irq) = some io := by
    rw [hagree.gsiForIrq, hagree.ownerOf, hown]
  have hback : ∀ b r, ((s.ioapicSetIrqMask irq true).1.ioapicSetIrqMask irq false).1.regAt b r
      = s.regAt b r := by
    intro b r
    rw [ioapicSetIrqMask_regAt false hirq hown', hagree.baseOf, hagree.gsiForIrq,
      ioapicSetIrqMask_regAt true hirq hown]
    by_cases h : b = s.baseOf io ∧ r = IOAPICREDTBLL (s.ioapicGsiForIrq irq - io.gsiBase)
    · rw [if_pos h, if_pos h, h.1, h.2, maskWord_maskWord hlow]
    · rw [if_neg h, if_neg h]
  simp only [entry, hback, hagree'.baseOf]

/-- `irq_install` writes the entry that the mask call looks for, unmasked. -/
theorem irqInstall_spec (s : Apic) {irq : BitVec 8} (lapicId : BitVec 8) (hirq : irq < 16) :
    ∃ q low high, Quiet s q ∧ low.getLsbD 16 = false
      ∧ s.irqInstall irq lapicId = match s.ownerOf (s.ioapicGsiForIrq irq) with
        | none => q
        | some io =>
            let pin := s.ioapicGsiForIrq irq - io.gsiBase
            (q.ioapicWrite (s.baseOf io) (IOAPICREDTBLL pin) low).ioapicWrite (s.baseOf io)
              (IOAPICREDTBLH pin) high := by
  rw [irqInstall, if_neg (by simpa using hirq), ← redGsi_irq s hirq]
  exact ioapicWriteRed_spec ..

/-- `irq_install` and `ioapic_set_irq_mask` go to one pin of one
controller, or both find none; to mask after an install and to unmask again
leaves the entries as the install has. -/
theorem install_mask_agree (s : Apic) (irq lapicId : BitVec 8) (masked : Bool) (hirq : irq < 16)
    (hdistinct : (s.ioapics.map fun io => io.addr).Nodup)
    (hversion : ∀ io ∈ s.ioapics, (s.lastRed io).toNat ≤ 120) :
    (s.irqInstall irq lapicId).redirs = s.redirs
        ∧ (s.ioapicSetIrqMask irq masked).1.redirs = s.redirs
        ∧ (s.ioapicSetIrqMask irq masked).2 = -1
      ∨ ∃ io ∈ s.ioapics, ∃ pin : BitVec 32, pin.toNat < 120
        ∧ (∃ low high, (s.irqInstall irq lapicId).redirs = s.redirs
            ++ [Access.write (s.baseOf io) (IOAPICREDTBLL pin) low,
              Access.write (s.baseOf io) (IOAPICREDTBLH pin) high])
        ∧ (∃ low, (s.ioapicSetIrqMask irq masked).1.redirs = s.redirs
            ++ [Access.read (s.baseOf io) (IOAPICREDTBLL pin),
              Access.write (s.baseOf io) (IOAPICREDTBLL pin) low])
        ∧ (s.ioapicSetIrqMask irq masked).2 = 0
        ∧ (let s₁ := s.irqInstall irq lapicId
          let s₂ := (s₁.ioapicSetIrqMask irq true).1
          let s₃ := (s₂.ioapicSetIrqMask irq false).1
          s₃.entry io pin = s₁.entry io pin
            ∧ ∀ io' ∈ s.ioapics, ∀ n : BitVec 32, n.toNat < 120 → (io', n) ≠ (io, pin) →
              s₂.entry io' n = s₁.entry io' n ∧ s₃.entry io' n = s₁.entry io' n) := by
  obtain ⟨q, low, high, hq, hlow, hinstall⟩ := irqInstall_spec s lapicId hirq
  cases hown : s.ownerOf (s.ioapicGsiForIrq irq) with
  | none =>
      left
      obtain ⟨q', hq', hmask⟩ := ioapicSetIrqMask_spec s masked hirq
      rw [hown] at hinstall hmask
      rw [hinstall, hmask]
      exact ⟨hq.redirs, hq'.redirs, rfl⟩
  | some io =>
      right
      obtain ⟨hio, hcov⟩ := ownerOf_some hown
      obtain ⟨-, hge, hlt⟩ := covers_iff.mp hcov
      have hpin : (s.ioapicGsiForIrq irq - io.gsiBase).toNat < 120 := by
        have := hversion io hio
        rw [toNat_pin hge]
        omega
      rw [hown] at hinstall
      have hagree : Agrees s (s.irqInstall irq lapicId) := by
        rw [hinstall]
        exact (hq.toAgrees.trans (ioapicWrite_agrees _ _)).trans (ioapicWrite_agrees _ _)
      obtain ⟨hret, hacc⟩ := ioapicSetIrqMask_redirs masked hirq hown hpin
      refine ⟨io, hio, _, hpin, ⟨low, high, ?_⟩, ⟨_, hacc⟩, hret, ?_⟩
      · rw [hinstall]
        simp [ioapicWrite_redirs, hq.redirs, le_IOAPICREDTBLL hpin, le_IOAPICREDTBLH hpin]
      · -- after the install, the pin is the same and is unmasked
        intro s₁ s₂ s₃
        have hirq₁ : s₁.ioapicGsiForIrq irq = s.ioapicGsiForIrq irq := hagree.gsiForIrq irq
        have hown₁ : s₁.ownerOf (s₁.ioapicGsiForIrq irq) = some io := by
          rw [hirq₁, hagree.ownerOf, hown]
        have hlow₁ : (s₁.regAt (s₁.baseOf io)
            (IOAPICREDTBLL (s₁.ioapicGsiForIrq irq - io.gsiBase))).getLsbD 16 = false := by
          rw [hagree.baseOf, hirq₁]
          simp only [s₁, hinstall, ioapicWrite_regAt, true_and]
          rw [if_neg fun h => IOAPICREDTBLL_ne_H _ _ h.1, if_pos (IOAPICREDTBLL_ne_ver _), hlow]
        have hback := mask_unmask_entry hirq hown₁ hlow₁
        refine ⟨hback _ _, fun io' hio' n hn hne => ⟨?_, hback _ _⟩⟩
        rw [← hirq₁] at hpin hne
        rw [← hagree.ioapics] at hdistinct hio'
        exact ioapicSetIrqMask_entry true hirq hdistinct hown₁ hpin hio' hn hne

/-- One controller with 24 entries, all unmasked but the last, and the
timer overridden to GSI 2. -/
def oneIoapic : Apic where
  ioapics := [⟨0xfec00000#32, 0#32⟩]
  isos := [⟨0#8, 2#32, 0#16⟩]
  hhdm := 0xffff800000000000#64
  chips := fun _ =>
    ⟨0, fun r => if r = IOAPICVER then 0x170020#32 else if r = 0x3e then 0x10000#32 else 0⟩
  log := []
  lapicBase := 0xfee00000#64
  lapicWrites := []
  baseMsr := 0
  mapped := []

theorem install_mask_agree_timer : ∃ io ∈ oneIoapic.ioapics, ∃ pin : BitVec 32, pin.toNat < 120
    ∧ (let s₁ := oneIoapic.irqInstall 0 3
      let s₃ := ((s₁.ioapicSetIrqMask 0 true).1.ioapicSetIrqMask 0 false).1
      s₃.entry io pin = s₁.entry io pin) := by
  rcases install_mask_agree oneIoapic 0 3 true (by decide) (by decide) (by decide) with
    ⟨-, -, hmiss⟩ | ⟨io, hio, pin, hpin, -, -, -, hback, -⟩
  · exact absurd hmiss (by decide)
  · exact ⟨io, hio, pin, hpin, hback⟩

-- ==== apic_init

theorem maskEntries_succ (base : BitVec 64) (k : Nat) (s : Apic) :
    s.maskEntries base (k + 1)
      = ((s.maskEntries base k).ioapicWrite base (IOAPICREDTBLL (BitVec.ofNat 32 k))
          0x10000#32).ioapicWrite base (IOAPICREDTBLH (BitVec.ofNat 32 k)) 0 := by
  simp [maskEntries, List.range_succ]

theorem maskEntries_agrees (base : BitVec 64) (k : Nat) (s : Apic) :
    Agrees s (s.maskEntries base k) := by
  induction k with
  | zero => exact Agrees.refl s
  | succ k ih =>
      rw [maskEntries_succ]
      exact (ih.trans (ioapicWrite_agrees _ _)).trans (ioapicWrite_agrees _ _)

/-- The loop masks the entries in front of its bound. Past 120 the numbers
wrap onto registers of entries that are masked already. -/
theorem maskEntries_maskedAt (base : BitVec 64) (s : Apic) (b : BitVec 64) {n : BitVec 32}
    (hn : n.toNat < 120) (k : Nat) (hk : k ≤ 255) :
    (s.maskEntries base k).maskedAt b n = true
      ↔ s.maskedAt b n = true ∨ b = base ∧ n.toNat < k := by
  induction k with
  | zero => simp [maskEntries]
  | succ k ih =>
      have ih := ih (by omega)
      have hL : IOAPICREDTBLL n = IOAPICREDTBLL (BitVec.ofNat 32 k) ↔ n.toNat = k % 128 := by
        rw [BitVec.toNat_eq, toNat_IOAPICREDTBLL hn]
        simp [IOAPICREDTBLL]
        omega
      simp only [maskedAt, maskEntries_succ, ioapicWrite_regAt] at ih ⊢
      rw [if_neg fun h => IOAPICREDTBLL_ne_H _ _ h.2.1]
      by_cases h : b = base ∧ n.toNat = k % 128
      · rw [if_pos ⟨h.1, hL.mpr h.2, IOAPICREDTBLL_ne_ver _⟩]
        have hlt : n.toNat < k + 1 := by omega
        exact ⟨fun _ => .inr ⟨h.1, hlt⟩, fun _ => by decide⟩
      · rw [if_neg fun h' => h ⟨h'.1, hL.mp h'.2.1⟩, ih]
        constructor
        · rintro (h' | ⟨hb, hlt⟩)
          · exact .inl h'
          · exact .inr ⟨hb, by omega⟩
        · rintro (h' | ⟨hb, hlt⟩)
          · exact .inl h'
          · refine .inr ⟨hb, ?_⟩
            have : n.toNat ≠ k := fun he => h ⟨hb, by omega⟩
            omega

theorem pagingMapPage_quiet (virt phys : BitVec 64) : Quiet s (s.pagingMapPage virt phys) :=
  ⟨⟨rfl, rfl, rfl, fun _ => rfl⟩, fun _ _ => rfl, rfl⟩

theorem lapicWrite_quiet (reg : BitVec 16) (val : BitVec 32) : Quiet s (s.lapicWrite reg val) :=
  ⟨⟨rfl, rfl, rfl, fun _ => rfl⟩, fun _ _ => rfl, rfl⟩

/-- What is done to the local APIC leaves the controllers alone. -/
theorem apicCpuInit_quiet (s : Apic) (cpuIndex : BitVec 8) : Quiet s (s.apicCpuInit cpuIndex) := by
  have hlvt : ∀ (l : List (BitVec 16)) (t : Apic), Quiet s t →
      Quiet s (l.foldl (fun s reg => s.lapicWrite reg APIC_LVT_DISABLE) t) := by
    intro l
    induction l with
    | nil => exact fun _ h => h
    | cons reg l ih => exact fun t h => ih _ (h.trans (lapicWrite_quiet _ _))
  have hmsr : ∀ msr, Quiet s { s with baseMsr := msr } := fun _ =>
    ⟨⟨rfl, rfl, rfl, fun _ => rfl⟩, fun _ _ => rfl, rfl⟩
  simp only [apicCpuInit]
  refine (Quiet.trans (hlvt _ _ ?_) (lapicWrite_quiet _ _)).trans (lapicWrite_quiet _ _)
  exact (((hmsr _).trans (lapicWrite_quiet _ _)).trans (lapicWrite_quiet _ _)).trans
    (lapicWrite_quiet _ _)

/-- What `apic_init` does before its loop. -/
theorem apicInit_eq (s : Apic) : ∃ t, Quiet s t ∧ s.apicInit = s.ioapics.foldl initIoapic t := by
  have hbase : ∀ t lapicBase, Quiet s t → Quiet s { t with lapicBase } := fun t _ h =>
    h.trans ⟨⟨rfl, rfl, rfl, fun _ => rfl⟩, fun _ _ => rfl, rfl⟩
  have h := (hbase _ (s.lapicBase + s.hhdm)
    (pagingMapPage_quiet (s.lapicBase + s.hhdm) s.lapicBase)).trans (apicCpuInit_quiet _ 0)
  refine ⟨_, h, ?_⟩
  simp only [apicInit, h.ioapics]

theorem initIoapic_eq (s : Apic) (io : MadtIoapic) :
    ∃ t, Quiet s t ∧ s.initIoapic io = t.maskEntries (s.baseOf io) (s.lastRed io).toNat := by
  have hmap : Quiet s (s.pagingMapPage (s.baseOf io) (io.addr.setWidth 64)) :=
    pagingMapPage_quiet _ _
  refine ⟨_, hmap.trans (ioapicRead_quiet (s.baseOf io)), ?_⟩
  simp only [initIoapic, ioapicRead_snd, hmap.regAt, lastRed]

theorem initIoapic_agrees (s : Apic) (io : MadtIoapic) : Agrees s (s.initIoapic io) := by
  obtain ⟨t, ht, heq⟩ := initIoapic_eq s io
  rw [heq]
  exact ht.toAgrees.trans (maskEntries_agrees _ _ _)

theorem initIoapic_maskedAt (s : Apic) (io : MadtIoapic) (b : BitVec 64) {n : BitVec 32}
    (hn : n.toNat < 120) :
    (s.initIoapic io).maskedAt b n = true
      ↔ s.maskedAt b n = true ∨ b = s.baseOf io ∧ n.toNat < (s.lastRed io).toNat := by
  obtain ⟨t, ht, heq⟩ := initIoapic_eq s io
  have hle : (s.lastRed io).toNat ≤ 255 := by
    have := (s.lastRed io).isLt
    omega
  rw [heq, maskEntries_maskedAt _ _ _ hn _ hle]
  simp only [maskedAt, ht.regAt]

theorem foldl_initIoapic (l : List MadtIoapic) (s : Apic) (b : BitVec 64) {n : BitVec 32}
    (hn : n.toNat < 120) :
    (l.foldl initIoapic s).maskedAt b n = true
      ↔ s.maskedAt b n = true ∨ ∃ io ∈ l, b = s.baseOf io ∧ n.toNat < (s.lastRed io).toNat := by
  induction l generalizing s with
  | nil => simp
  | cons io l ih =>
      have hagree := initIoapic_agrees s io
      rw [List.foldl_cons, ih, initIoapic_maskedAt s io b hn]
      simp only [hagree.baseOf, hagree.lastRed, List.mem_cons, exists_eq_or_imp, or_assoc]

/-- After `apic_init` the last entry of a controller is as it was, and the
others are masked. -/
theorem apicInit_masked_iff (s : Apic) :
    (∀ io ∈ s.ioapics, ∀ n : BitVec 32, n.toNat ≤ (s.lastRed io).toNat → n.toNat < 120 →
        s.apicInit.maskedAt (s.baseOf io) n = true)
      ↔ ∀ io ∈ s.ioapics, (s.lastRed io).toNat < 120 →
        s.maskedAt (s.baseOf io) ((s.lastRed io).setWidth 32) = true := by
  have hinit : ∀ (b : BitVec 64) (n : BitVec 32), n.toNat < 120 →
      (s.apicInit.maskedAt b n = true ↔ s.maskedAt b n = true
        ∨ ∃ io ∈ s.ioapics, b = s.baseOf io ∧ n.toNat < (s.lastRed io).toNat) := by
    intro b n hn
    obtain ⟨t, ht, heq⟩ := apicInit_eq s
    rw [heq, foldl_initIoapic _ _ _ hn]
    simp only [maskedAt, ht.regAt, ht.baseOf, ht.lastRed]
  have hlast : ∀ io, ((s.lastRed io).setWidth 32).toNat = (s.lastRed io).toNat := by
    intro io
    have := (s.lastRed io).isLt
    simp only [BitVec.toNat_setWidth]
    omega
  constructor
  · intro h io hio hlt
    have hn : ((s.lastRed io).setWidth 32).toNat < 120 := by rw [hlast]; exact hlt
    rcases (hinit _ _ hn).mp (h io hio _ (hlast io).le hn) with h' | ⟨io', -, hb, hlt'⟩
    · exact h'
    · -- the field of one chip is one number
      have hsame : s.lastRed io' = s.lastRed io := by simp only [lastRed, hb]
      rw [hlast, hsame] at hlt'
      exact (Nat.lt_irrefl _ hlt').elim
  · intro h io hio n hle hn
    rw [hinit _ _ hn]
    rcases Nat.lt_or_eq_of_le hle with hlt | heq
    · exact .inr ⟨io, hio, rfl, hlt⟩
    · left
      have hnl : n = (s.lastRed io).setWidth 32 := BitVec.eq_of_toNat_eq (by rw [hlast, heq])
      rw [hnl]
      exact h io hio (by omega)

-- ==== the last pin

/-- With disjoint ranges, nothing but the controller of a GSI covers it. -/
theorem covers_unique (hdisjoint : s.DisjointRanges) (hio : io ∈ s.ioapics)
    (hge : io.gsiBase.toNat ≤ gsi.toNat) (hle : gsi.toNat ≤ s.lastGsi io) {io' : MadtIoapic}
    (hio' : io' ∈ s.ioapics) (hcov : s.covers gsi io' = true) : io' = io := by
  obtain ⟨-, hge', hlt'⟩ := covers_iff.mp hcov
  by_contra hne
  have hsymm : Std.Symm fun a b : MadtIoapic =>
      s.lastGsi a < b.gsiBase.toNat ∨ s.lastGsi b < a.gsiBase.toNat := ⟨fun _ _ => Or.symm⟩
  have := hdisjoint.forall hio' hio hne
  unfold lastGsi at this hle
  omega

theorem ownerOf_eq (hdisjoint : s.DisjointRanges) (hio : io ∈ s.ioapics)
    (hcov : s.covers gsi io = true) : s.ownerOf gsi = some io := by
  obtain ⟨-, hge, hlt⟩ := covers_iff.mp hcov
  cases hown : s.ownerOf gsi with
  | none => exact absurd hcov (List.find?_eq_none.mp hown io hio)
  | some io' =>
      obtain ⟨hio', hcov'⟩ := ownerOf_some hown
      rw [covers_unique hdisjoint hio hge hlt.le hio' hcov']

/-- No IRQ has the vector 0. -/
theorem redGsi_zero (s : Apic) (gsi : BitVec 32) : s.redGsi gsi 0 = gsi := by
  have hnone : s.isos.find? (fun iso =>
      ((0 : BitVec 8).toNat : Int) - IRQ_BASE == (iso.src.toNat : Int)) = none := by
    rw [List.find?_eq_none]
    intro iso _
    rw [beq_iff_eq]
    change ¬ (((0 : Nat) : Int) - ((32 : Nat) : Int) = _)
    omega
  simp only [redGsi, hnone]

/-- A GSI of a controller is reached if and only if it is not the last one,
its pin has a register, the range does not wrap, and the last entries were
masked before. -/
theorem reaches_iff (s : Apic) (io : MadtIoapic) (gsi : BitVec 32) (hdisjoint : s.DisjointRanges)
    (hio : io ∈ s.ioapics) (hge : io.gsiBase.toNat ≤ gsi.toNat) (hle : gsi.toNat ≤ s.lastGsi io) :
    s.Reaches io gsi
      ↔ gsi.toNat < s.lastGsi io ∧ s.lastGsi io < 2 ^ 32
        ∧ gsi.toNat - io.gsiBase.toNat < 120
        ∧ ∀ io' ∈ s.ioapics, (s.lastRed io').toNat < 120 →
          s.maskedAt (s.baseOf io') ((s.lastRed io').setWidth 32) = true := by
  constructor
  · intro h
    obtain ⟨r, r', low, high, hacc, -, hr'⟩ := h.writeRed gsi 0 0 0 0 0 (redGsi_zero s gsi)
    obtain ⟨q, low', high', hq, -, heq⟩ := ioapicWriteRed_spec s gsi 0 0 0 0 0
    rw [redGsi_zero] at heq
    cases hown : s.ownerOf gsi with
    | none =>
        rw [heq, hown, hq.redirs] at hacc
        simp at hacc
    | some io' =>
        obtain ⟨hio', hcov⟩ := ownerOf_some hown
        obtain rfl := covers_unique hdisjoint hio hge hle hio' hcov
        obtain ⟨hfit, -, hlt⟩ := covers_iff.mp hcov
        refine ⟨hlt, hfit, ?_, (apicInit_masked_iff s).mp h.init⟩
        have := r'.isLt
        omega
  · rintro ⟨hlt, hfit, hpin, hlast⟩
    have hcov : s.covers gsi io = true := covers_iff.mpr ⟨hfit, hge, hlt⟩
    have hown := ownerOf_eq hdisjoint hio hcov
    have hnum := toNat_pin hge
    have hpin' : (gsi - io.gsiBase).toNat < 120 := by omega
    constructor
    · intro g vec deliveryMode polarity triggerMode dest hg
      obtain ⟨q, low, high, hq, -, heq⟩ :=
        ioapicWriteRed_spec s g vec deliveryMode polarity triggerMode dest
      rw [hg, hown] at heq
      refine ⟨_, _, low, high, ?_, hnum ▸ toNat_IOAPICREDTBLL hpin',
        hnum ▸ toNat_IOAPICREDTBLH hpin'⟩
      rw [heq]
      simp [ioapicWrite_redirs, hq.redirs, le_IOAPICREDTBLL hpin', le_IOAPICREDTBLH hpin']
    · intro irq masked hirq hg
      subst hg
      obtain ⟨hret, hacc⟩ := ioapicSetIrqMask_redirs masked hirq hown hpin'
      exact ⟨hret, _, _, hacc, hnum ▸ toNat_IOAPICREDTBLL hpin'⟩
    · exact (apicInit_masked_iff s).mpr hlast

theorem reaches_iff_timer : oneIoapic.Reaches ⟨0xfec00000#32, 0#32⟩ 2#32 :=
  (reaches_iff oneIoapic ⟨0xfec00000#32, 0#32⟩ 2#32 (List.pairwise_singleton _ _) (by decide)
    (by decide) (by decide)).mpr (by decide)

/-- The controller with its last entry unmasked as well, and IRQ 9
overridden to that entry. -/
def lastUnmasked : Apic :=
  { oneIoapic with
    isos := [⟨9#8, 23#32, 0#16⟩]
    chips := fun _ => ⟨0, fun r => if r = IOAPICVER then 0x170020#32 else 0⟩ }

/-- The last entry is not found for IRQ 9, and `apic_init` leaves it
unmasked. -/
theorem reaches_last_fails : lastUnmasked.DisjointRanges
    ∧ lastUnmasked.lastGsi ⟨0xfec00000#32, 0#32⟩ = 23
    ∧ lastUnmasked.ioapicGsiForIrq 9 = 23#32
    ∧ (lastUnmasked.ioapicSetIrqMask 9 true).2 = -1
    ∧ (lastUnmasked.irqInstall 9 0).redirs = []
    ∧ lastUnmasked.apicInit.maskedAt (lastUnmasked.baseOf ⟨0xfec00000#32, 0#32⟩) 23#32 = false
    ∧ ¬ lastUnmasked.Reaches ⟨0xfec00000#32, 0#32⟩ 23#32 := by
  refine ⟨List.pairwise_singleton _ _, by decide, by decide, by decide, by decide, by decide, ?_⟩
  intro h
  exact absurd (h.setIrqMask 9 true (by decide) (by decide)).1 (by decide)

end Apic

end Alix
