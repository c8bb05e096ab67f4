/-
What a call of `fs/vfs.c` does to the directories.

A call makes at most one vnode, which is the root of a file system that is
then mounted, or a new child. All else that a directory shows of its
children stays: their names, types and modes (`Changed`). References,
sizes and bytes are not part of it, so that most of a call leaves the
store alike (`Alike`), and what is left is one `tmpfs_mount` or one
`tmpfs_create` (`step_changed`).
-/
import Alix.Fs.Proofs.Mount

namespace Alix

namespace Fs

variable {fs : Fs}

/-- The last component of a path is one of its components. -/
theorem parentWalk_mem {cs : List CStr} {d n : Nat} {c : CStr}
    (h : fs.parentWalk cs d = some (n, c)) : c ∈ cs := by
  induction cs generalizing d with
  | nil => cases h
  | cons b cs ih =>
      unfold parentWalk at h
      split at h
      · cases h
      split at h
      · cases h
        exact List.mem_cons_self
      split at h
      · exact List.mem_cons_of_mem _ (ih h)
      · obtain ⟨next, -, h⟩ := Option.bind_eq_some_iff.mp h
        exact List.mem_cons_of_mem _ (ih h)

end Fs

namespace Tmpfs

variable {s t t' s' : Tmpfs} {n p : Nat}

-- ==== what changes

/-- What a directory shows of a child is what it was. -/
structure Shown (s s' : Tmpfs) (n : Nat) : Prop where
  type : (s'.fs.nodes n).type = (s.fs.nodes n).type
  name : (s'.fs.nodes n).name = (s.fs.nodes n).name
  mode : (s'.file n).mode = (s.file n).mode

/-- The same trees and mounts, with other references, sizes and bytes. -/
structure Alike (s s' : Tmpfs) : Prop where
  count : s'.fs.count = s.fs.count
  shown : ∀ n, Shown s s' n
  children : ∀ n, (s'.fs.nodes n).children = (s.fs.nodes n).children
  mounted : ∀ n, (s'.fs.nodes n).mounted = (s.fs.nodes n).mounted

/-- A new child, whose name was free. -/
structure Gained (s s' : Tmpfs) (p : Nat) : Prop where
  lt : p < s.fs.count
  children : (s'.fs.nodes p).children = s.fs.count :: (s.fs.nodes p).children
  free : ∀ c ∈ (s.fs.nodes p).children,
    (s.fs.nodes c).name ≠ (s'.fs.nodes s.fs.count).name
  ne : (s'.fs.nodes s.fs.count).name ≠ []
  slash : SLASH ∉ (s'.fs.nodes s.fs.count).name
  short : (s'.fs.nodes s.fs.count).name.length ≤ NAME_MAX
  mode : (s'.file s.fs.count).mode &&& S_IFMT = (s'.fs.nodes s.fs.count).type.bits

/-- What a call may do. -/
structure Changed (s s' : Tmpfs) : Prop where
  shown : ∀ n, n < s.fs.count → Shown s s' n
  children : ∀ n, (s'.fs.nodes n).children = (s.fs.nodes n).children
    ∨ (s'.fs.nodes n).children = [] ∨ Gained s s' n
  mounted : ∀ n r, (s'.fs.nodes n).mounted = some r → (s.fs.nodes n).mounted = some r
    ∨ r = s.fs.count ∧ (s'.fs.nodes r).type = .dir

theorem Shown.refl (s : Tmpfs) (n : Nat) : Shown s s n := ⟨rfl, rfl, rfl⟩

theorem Shown.trans (h : Shown s t n) (h' : Shown t s' n) : Shown s s' n :=
  ⟨h'.type.trans h.type, h'.name.trans h.name, h'.mode.trans h.mode⟩

theorem Alike.refl (s : Tmpfs) : Alike s s :=
  ⟨rfl, Shown.refl s, fun _ => rfl, fun _ => rfl⟩

theorem Alike.trans (h : Alike s t) (h' : Alike t s') : Alike s s' where
  count := h'.count.trans h.count
  shown := fun n => (h.shown n).trans (h'.shown n)
  children := fun n => (h'.children n).trans (h.children n)
  mounted := fun n => (h'.mounted n).trans (h.mounted n)

theorem Alike.changed (h : Alike s s') : Changed s s' where
  shown := fun n _ => h.shown n
  children := fun n => Or.inl (h.children n)
  mounted := fun n r hr => Or.inl (by rw [← h.mounted n, hr])

/-- What is alike before the change, -/
theorem Changed.of_alike (h : Alike s t) (hc : Changed t s') : Changed s s' where
  shown := fun n hn => (h.shown n).trans (hc.shown n (by rw [h.count]; exact hn))
  children := by
    intro n
    rcases hc.children n with hsame | hnone | hg
    · exact Or.inl (hsame.trans (h.children n))
    · exact Or.inr (Or.inl hnone)
    · have hcount := h.count
      refine Or.inr (Or.inr ?_)
      refine ⟨hcount ▸ hg.lt, ?_, ?_, hcount ▸ hg.ne, hcount ▸ hg.slash, hcount ▸ hg.short,
        hcount ▸ hg.mode⟩
      · rw [← hcount, ← h.children n]
        exact hg.children
      · intro c hc'
        rw [← hcount, ← (h.shown c).name]
        apply hg.free
        rwa [h.children n]
  mounted := by
    intro n r hr
    rw [← h.mounted n, ← h.count]
    exact hc.mounted n r hr

/-- and behind it. -/
theorem Changed.alike (hc : Changed s t) (h : Alike t s') : Changed s s' where
  shown := fun n hn => (hc.shown n hn).trans (h.shown n)
  children := by
    intro n
    rw [h.children n]
    rcases hc.children n with hsame | hnone | hg
    · exact Or.inl hsame
    · exact Or.inr (Or.inl hnone)
    · have hnew := h.shown s.fs.count
      refine Or.inr (Or.inr ⟨hg.lt, ?_, ?_, ?_, ?_, ?_, ?_⟩)
      · rw [h.children n]
        exact hg.children
      · rw [hnew.name]
        exact hg.free
      · rw [hnew.name]
        exact hg.ne
      · rw [hnew.name]
        exact hg.slash
      · rw [hnew.name]
        exact hg.short
      · rw [hnew.mode, hnew.type]
        exact hg.mode
  mounted := by
    intro n r hr
    rw [h.mounted n] at hr
    rw [(h.shown r).type]
    exact hc.mounted n r hr

-- ==== what is alike

/-- A node that is stored into, but for what others see of it. -/
theorem alike_update {v : Vnode} (hnodes : s'.fs.nodes = Function.update s.fs.nodes n v)
    (hcount : s'.fs.count = s.fs.count) (hmode : ∀ m, (s'.file m).mode = (s.file m).mode)
    (hv : v.type = (s.fs.nodes n).type ∧ v.name = (s.fs.nodes n).name
      ∧ v.children = (s.fs.nodes n).children ∧ v.mounted = (s.fs.nodes n).mounted) :
    Alike s s' := by
  obtain ⟨htype, hname, hchildren, hmounted⟩ := hv
  have hself : s'.fs.nodes n = v := by rw [hnodes, Function.update_self]
  have hother : ∀ m, m ≠ n → s'.fs.nodes m = s.fs.nodes m := fun m hm => by
    rw [hnodes, Function.update_of_ne hm]
  refine ⟨hcount, fun m => ⟨?_, ?_, hmode m⟩, fun m => ?_, fun m => ?_⟩
  all_goals
    by_cases hm : m = n
    · rw [hm, hself]
      assumption
    · rw [hother m hm]

theorem alike_held (s : Tmpfs) (n : Nat) : Alike s (s.held n) :=
  alike_update (n := n) rfl rfl (fun _ => rfl) ⟨rfl, rfl, rfl, rfl⟩

theorem alike_release (s : Tmpfs) (n : Nat) : Alike s (s.vnodeRelease n) :=
  alike_update (n := n) rfl rfl (fun _ => rfl) ⟨rfl, rfl, rfl, rfl⟩

/-- Only the data of files changes. -/
theorem alike_file (hfs : s'.fs = s.fs) (hmode : ∀ m, (s'.file m).mode = (s.file m).mode) :
    Alike s s' where
  count := by rw [hfs]
  shown := fun n => ⟨by rw [hfs], by rw [hfs], hmode n⟩
  children := fun n => by rw [hfs]
  mounted := fun n => by rw [hfs]

theorem alike_modFile (s : Tmpfs) (n : Nat) {f : FileData → FileData}
    (h : ∀ d, (f d).mode = d.mode) : Alike s (s.modFile n f) := by
  refine alike_file rfl fun m => ?_
  show (Function.update s.file n _ m).mode = _
  by_cases hm : m = n
  · rw [hm, Function.update_self, h]
  · rw [Function.update_of_ne hm]

theorem alike_setSize (s : Tmpfs) (n size : Nat) : Alike s (s.setSize n size) := by
  have hsuper : Alike s (s.modSuper (s.file n).vfs fun f =>
      { f with byteCount := (f.byteCount + (size + 2 ^ 64 - (s.file n).size)) % 2 ^ 64 }) :=
    alike_file rfl fun _ => rfl
  unfold setSize
  apply hsuper.trans
  apply alike_modFile
  exact fun _ => rfl

theorem alike_tmpfsOpen (s : Tmpfs) (node : Option Nat) (flags : BitVec 32) :
    Alike s (s.tmpfsOpen node flags).1 := by
  obtain he | ⟨n, -, -, he⟩ := s.tmpfsOpen_cases node flags
  · rw [he]
    exact .refl s
  · rw [he]
    exact alike_setSize s n 0

/-- The mode of a new node has the type it is made with. -/
theorem addChild_mode (s : Tmpfs) (p : Nat) (name : CStr) (type : NodeType) (mode : Mode) :
    ((s.addChild p name type mode).file s.fs.count).mode &&& S_IFMT = type.bits := by
  have hmode : ((s.addChild p name type mode).file s.fs.count).mode
      = (mode &&& ~~~S_IFMT) ||| type.bits := by
    simp [addChild, linkChild, allocNode, modSuper]
  rw [hmode]
  have hbits : type.bits &&& S_IFMT = type.bits := by cases type <;> rfl
  ext i hi
  have hi' := congrArg (fun w : Mode => w[i]) hbits
  simp only [BitVec.getElem_and] at hi'
  simp only [BitVec.getElem_and, BitVec.getElem_or, BitVec.getElem_not, Bool.and_or_distrib_right,
    Bool.and_assoc, Bool.not_and_self, Bool.and_false, Bool.false_or]
  exact hi'

theorem changed_addChild {name : CStr} {type : NodeType} (hp : p < s.fs.count)
    (hfind : s.fs.tmpfsFindChild p name = none) (hne : name ≠ []) (hslash : SLASH ∉ name)
    (hshort : name.length ≤ NAME_MAX) (mode : Mode) :
    Changed s (s.addChild p name type mode) := by
  have a := added_addChild hp name type mode
  have hnew := a.new
  refine ⟨fun n hn => ⟨(a.old hn).1, (a.old hn).2.2, ?_⟩, fun n => ?_, fun n r hr => ?_⟩
  · rw [a.file n (Nat.ne_of_lt hn)]
  · by_cases hn : n = s.fs.count
    · right
      left
      rw [hn, hnew]
    · by_cases hnp : n = p
      · subst hnp
        refine Or.inr (Or.inr ⟨hp, by rw [a.parent], fun c hc => ?_, ?_, ?_, ?_, ?_⟩)
        · rw [hnew]
          intro he
          exact name_notMem hfind (List.mem_map.mpr ⟨c, hc, he⟩)
        · rwa [hnew]
        · rwa [hnew]
        · rwa [hnew]
        · rw [addChild_mode, hnew]
      · left
        rw [a.other n hn hnp]
  · left
    by_cases hn : n = s.fs.count
    · rw [hn, hnew] at hr
      cases hr
    · by_cases hnp : n = p
      · subst hnp
        rw [a.parent] at hr
        exact hr
      · rwa [a.other n hn hnp] at hr

end Tmpfs

namespace Vfs

open Tmpfs (Alike Changed)

variable {s s' : Vfs} {k : Call}

theorem alike_hold (s : Vfs) (n : Nat) : Alike s.store (s.vnodeHold n).store :=
  s.store.alike_held n

theorem alike_vnodeRelease (s : Vfs) (node : Option Nat) :
    Alike s.store (s.vnodeRelease node).store := by
  cases node with
  | none => exact .refl s.store
  | some n => exact s.store.alike_release n

theorem alike_lookup (s : Vfs) (result : Bool) (start : Option Nat) (path : Option CStr)
    (flags : BitVec 32) : Alike s.store (s.vfsLookup result start path flags).1.store := by
  rcases s.vfsLookup_cases result start path flags with ⟨rc, he, -⟩ | ⟨f, he, -⟩
  · rw [he]
    exact .refl s.store
  · rw [he]
    exact s.alike_hold f.node

theorem alike_openNode (s : Vfs) (node : Nat) (flags : BitVec 32) :
    Alike s.store (s.openNode node flags).1.store := by
  have hopen := s.store.alike_tmpfsOpen (some node) flags
  unfold Vfs.openNode
  simp only
  split
  · exact hopen.trans (alike_vnodeRelease { s with store := _ } (some node))
  · exact hopen

theorem alike_open (s : Vfs) (ref : Option Nat) (path : Option CStr) (flags : BitVec 32)
    (result : Bool) : Alike s.store (s.vfsOpen ref path flags result).1.store := by
  unfold vfsOpen
  split
  · exact .refl s.store
  split
  · have hl := s.alike_lookup true ref (some ‹CStr›) 0#32
    split
    · rename_i he
      rw [he] at hl
      exact hl
    · rename_i he
      rw [he] at hl
      exact hl.trans (alike_openNode _ _ _)
  · exact .refl s.store
  · exact (s.alike_hold _).trans (alike_openNode _ _ _)

theorem mountOn_file (s : Vfs) (mp : Option Nat) (ok : Bool)
    (hlt : ∀ n, mp = some n → n < s.count) {n : Nat} (hn : n ≠ s.count) :
    (s.mountOn mp ok hlt).1.store.file n = s.store.file n := by
  unfold mountOn
  split
  · rfl
  · rename_i store hm
    have m := Tmpfs.mounted_tmpfsMount hm
    cases mp with
    | none => exact m.file n hn
    | some p => exact m.file n hn

/-- A mount covers one vnode with a new one. -/
theorem MountedOn.changed {mp : Option Nat} (h : MountedOn s s' mp)
    (hfile : ∀ n, n ≠ s.count → s'.store.file n = s.store.file n) :
    Changed s.store s'.store := by
  -- of a vnode there was, only what is mounted on it may have changed
  have hold : ∀ n, n ≠ s.count → ∃ m, s'.store.fs.nodes n = { s.store.fs.nodes n with mounted := m }
      ∧ ∀ r, m = some r → (s.store.fs.nodes n).mounted = some r ∨ r = s.count := by
    intro n hn
    by_cases hmp : mp = some n
    · refine ⟨_, h.covered n hmp, fun r hr => ?_⟩
      cases hr
      exact Or.inr rfl
    · refine ⟨(s.store.fs.nodes n).mounted, h.other n hn hmp, fun r hr => Or.inl hr⟩
  refine ⟨fun n hn => ?_, fun n => ?_, fun n r hr => ?_⟩
  · obtain ⟨m, hm, -⟩ := hold n (Nat.ne_of_lt hn)
    refine ⟨by rw [hm], by rw [hm], ?_⟩
    rw [hfile n (Nat.ne_of_lt hn)]
  · by_cases hn : n = s.count
    · right
      left
      rw [hn, h.new]
    · obtain ⟨m, hm, -⟩ := hold n hn
      left
      rw [hm]
  · by_cases hn : n = s.count
    · rw [hn, h.new] at hr
      cases hr
    · obtain ⟨m, hm, hmounted⟩ := hold n hn
      rw [hm] at hr
      rcases hmounted r hr with hwas | hnew
      · exact Or.inl hwas
      · refine Or.inr ⟨hnew, ?_⟩
        rw [hnew, h.new]

theorem changed_mountOn (s : Vfs) (mp : Option Nat) (ok : Bool)
    (hlt : ∀ n, mp = some n → n < s.count) :
    Changed s.store (s.mountOn mp ok hlt).1.store := by
  have hfile := fun n => s.mountOn_file mp ok hlt (n := n)
  rcases s.mountOn_cases mp ok hlt with ⟨-, he⟩ | ⟨-, s', he, hm⟩
  · rw [he]
    exact (Alike.refl s.store).changed
  · rw [he] at hfile ⊢
    exact hm.changed hfile

theorem changed_mount (s : Vfs) (pathref : Option Nat) (path name : Option CStr) (ok : Bool)
    (hlt : ∀ n, pathref = some n → n < s.count) :
    Changed s.store (s.vfsMount pathref path name ok hlt).1.store := by
  have hnone := (Alike.refl s.store).changed
  unfold vfsMount
  split
  · exact hnone
  split
  · exact hnone
  split
  · exact s.changed_mountOn _ _ _
  have hl := s.alike_lookup true pathref (some ‹CStr›) 0#32
  split
  · rename_i he
    rw [he] at hl
    exact hl.changed
  · rename_i he
    rw [he] at hl
    exact .of_alike hl (changed_mountOn _ _ _ _)

/-- The last component, where a lookup for a parent has one. -/
theorem lastcomp_mem {result : Bool} {start : Option Nat} {path : Option CStr}
    {found : Fs.Found} {name : CStr}
    (h : s.vfsLookup result start path VFS_LOOKUP_PARENT = (s', .ok found))
    (hname : found.lastcomp = some name) : ∃ p, name ∈ components p := by
  obtain ⟨p, top, -, hfound⟩ := parent_found h
  rcases hfound with rfl | ⟨q, hq, rfl⟩
  · cases hname
  · cases hname
    exact ⟨p, Fs.parentWalk_mem hq⟩

theorem changed_create (s : Vfs) (ref : Option Nat) (path : Option CStr) (attr : Option Mode)
    (type : Mode) (result ok : Bool) (hlt : ∀ n, ref = some n → n < s.count) :
    Changed s.store (s.vfsCreate ref path attr type result ok).1.store := by
  unfold vfsCreate
  split
  · exact (Alike.refl s.store).changed
  have hl := s.alike_lookup true ref path VFS_LOOKUP_PARENT
  split
  · rename_i he
    rw [he] at hl
    exact hl.changed
  · rename_i t f he
    rw [he] at hl
    have hdrop := hl.trans (t.alike_vnodeRelease (some f.node))
    have hf : f.node < t.store.fs.count := by
      rw [hl.count]
      exact parent_lt hlt he
    simp only
    split
    · exact hdrop.changed
    rename_i hne
    split
    · exact hdrop.changed
    · rename_i store node hc
      obtain ⟨p, name, ty, mode, hp, hname, -, -, -, hshort, hfind, -, rfl⟩ :=
        Tmpfs.tmpfsCreate_cases hc
      cases hp
      cases hname
      have hspec : SLASH ∉ f.lastcomp.getD [] := by
        cases hlast : f.lastcomp with
        | none => simp
        | some name =>
            obtain ⟨q, hq⟩ := lastcomp_mem he hlast
            exact (Words.words_spec hq).2
      have hadd : Changed t.store (t.store.addChild f.node (f.lastcomp.getD []) ty mode) :=
        Tmpfs.changed_addChild hf hfind hne hspec hshort mode
      refine (Changed.of_alike hl hadd).alike ?_
      exact alike_vnodeRelease { t with store := _ } (some f.node)

/-- What a call changes. -/
theorem step_changed (hv : s.Valid k) : Changed s.store (s.step k hv).1.store := by
  cases k with
  | register name ok =>
      show Changed s.store (s.vfsRegister name ok).1.store
      unfold vfsRegister
      split
      · exact (Alike.refl s.store).changed
      · repeat' split
        all_goals exact (Alike.refl s.store).changed
  | mount pathref path name ok => exact s.changed_mount pathref path name ok hv
  | lookup result start path flags => exact (s.alike_lookup result start path flags).changed
  | openPath ref path flags result => exact (s.alike_open ref path flags result).changed
  | close node =>
      show Changed s.store (s.vfsClose node).1.store
      cases node with
      | none => exact (Alike.refl s.store).changed
      | some node => exact (s.alike_vnodeRelease (some node)).changed
  | create ref path attr type result ok =>
      exact s.changed_create ref path attr type result ok hv
  | release node => exact (s.alike_vnodeRelease node).changed

end Vfs

end Alix
