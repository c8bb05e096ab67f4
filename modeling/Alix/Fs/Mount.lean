/-
`vfs_mount`, and the calls of `fs/vfs.c` that take and drop references.

Every call answers the store it leaves, also where it fails, so that a
reference that is taken and not dropped shows. `vnode_hold` and
`vnode_release` stand where the source has them: `vfs_lookup` holds the
vnode it finds, and its callers release it or hand it on.

tmpfs is the one file system there is, so the registry is the list of the
names it has been registered under. Nothing reads `mounted->covered`. A
vnode that is given to a call is one that has been allocated; tmpfs frees
none, and `tmpfs_inactive` does nothing. As before, `ok` says whether the
heap has the memory that a call asks for, and `result` whether the caller
has given a place for the answer.
-/
import Alix.Fs.Proofs.Create

namespace Alix

namespace Fs

variable {fs : Fs}

/-- `mountpoint->mounted_vfs = mounted`, whose root is newer. -/
def setMounted (fs : Fs) (mountpoint root : Nat)
    (h : mountpoint < root ∧ root < fs.count) : Fs :=
  { fs with
    nodes := Function.update fs.nodes mountpoint
      { fs.nodes mountpoint with mounted := some root }
    mount_lt := by
      intro n r hr
      by_cases hn : n = mountpoint
      · subst hn
        rw [Function.update_self] at hr
        cases hr
        exact h
      · rw [Function.update_of_ne hn] at hr
        exact fs.mount_lt n r hr }

theorem Closed.setMounted (hcl : fs.Closed) {mountpoint root : Nat}
    (h : mountpoint < root ∧ root < fs.count) :
    (fs.setMounted mountpoint root h).Closed where
  child := by
    intro p c hc
    refine hcl.child p c ?_
    unfold Fs.setMounted at hc
    by_cases hp : p = mountpoint
    · subst hp
      simpa using hc
    · simpa [Function.update_of_ne hp] using hc
  root := hcl.root

theorem Closed.codeWalk_lt (hcl : fs.Closed) {cs : List CStr} {d n : Nat}
    (h : fs.codeWalk cs d = some n) : n < fs.count := by
  induction cs generalizing d with
  | nil => cases h
  | cons c cs ih =>
      unfold codeWalk at h
      split at h
      · cases h
      split at h
      · exact ih h
      · obtain ⟨next, hnext, h⟩ := Option.bind_eq_some_iff.mp h
        split at h
        · cases h
          exact hcl.enter_lt hnext
        · exact ih h

end Fs

namespace Tmpfs

/-- What a lookup finds is a vnode. -/
theorem found_lt (s : Tmpfs) {start : Option Nat} {path : CStr} {n : Nat}
    (hlt : ∀ m, start = some m → m < s.fs.count)
    (h : s.found start path = some n) : n < s.fs.count := by
  rw [found_eq] at h
  obtain ⟨top, htop, h⟩ := Option.bind_eq_some_iff.mp h
  split at h
  · cases h
    exact s.closed.startNode_lt hlt htop
  · exact s.closed.codeWalk_lt h

/-- A mount makes one vnode, which is the root. -/
theorem tmpfsMount_root {s s' : Tmpfs} {ok : Bool} (h : s.tmpfsMount ok = some s') :
    s'.fs.count = s.fs.count + 1 ∧ (s'.supers s.superCount).root = s.fs.count := by
  have m := mounted_tmpfsMount h
  exact ⟨m.count, by rw [m.super]⟩

end Tmpfs

/-- The file systems that are mounted, and the registry. -/
structure Vfs where
  store : Tmpfs
  registry : List CStr

namespace Vfs

/-- The vnodes so far. -/
def count (s : Vfs) : Nat := s.store.fs.count

/-- `vfs_init`. -/
def vfsInit : Vfs where
  store := .empty
  registry := []

/-- `vnode_hold`, of a vnode. -/
def vnodeHold (s : Vfs) (node : Nat) : Vfs := { s with store := s.store.held node }

/-- `vnode_release`; the handle may be null. -/
def vnodeRelease (s : Vfs) (node : Option Nat) : Vfs :=
  match node with
  | none => s
  | some node => { s with store := s.store.vnodeRelease node }

/-- `vfs_register(&tmpfs_vfsops, name)`. -/
def vfsRegister (s : Vfs) (name : Option CStr) (ok : Bool) : Vfs × Int :=
  match name with
  | none => (s, -1)
  | some name =>
      if name = [] then (s, -1)
      else if name ∈ s.registry then (s, -1)
      else if !ok then (s, -1)
      else ({ s with registry := name :: s.registry }, 0)

-- ==== lookup

/-- `vfs_lookup`. -/
def vfsLookup (s : Vfs) (result : Bool) (start : Option Nat) (path : Option CStr)
    (flags : BitVec 32) : Vfs × Except Int Fs.Found :=
  if !result then (s, .error (-1))
  else
    match s.store.vfsLookup start path flags with
    | .error rc => (s, .error rc)
    | .ok (store, found) => ({ s with store }, .ok found)

/-- What a lookup without flags comes to. -/
def found (s : Vfs) (start : Option Nat) (path : CStr) : Option Nat :=
  s.store.found start path

/-- A lookup that fails does nothing; one that succeeds holds the vnode it
finds. -/
theorem vfsLookup_cases (s : Vfs) (result : Bool) (start : Option Nat)
    (path : Option CStr) (flags : BitVec 32) :
    (∃ rc, s.vfsLookup result start path flags = (s, .error rc)
      ∧ (result = true → flags = 0#32 → ∀ p, path = some p → s.found start p = none))
    ∨ ∃ found, s.vfsLookup result start path flags = (s.vnodeHold found.node, .ok found)
      ∧ (flags = 0#32 → ∃ p, path = some p ∧ s.found start p = some found.node) := by
  have hfound : ∀ p, path = some p → flags = 0#32 → s.found start p
      = (s.store.vfsLookup start path flags).toOption.map fun r => r.2.node := by
    intro p hp hf
    rw [hp, hf]
    rfl
  unfold vfsLookup
  cases result with
  | false => exact Or.inl ⟨_, rfl, fun h => by cases h⟩
  | true =>
      cases hl : s.store.vfsLookup start path flags with
      | error rc =>
          refine Or.inl ⟨rc, rfl, fun _ hf p hp => ?_⟩
          rw [hfound p hp hf, hl]
          rfl
      | ok r =>
          obtain ⟨store, found⟩ := r
          have hstore : store = s.store.held found.node := by
            unfold Tmpfs.vfsLookup at hl
            split at hl
            · cases hl
            · cases hl
              rfl
          refine Or.inr ⟨found, by rw [hstore]; rfl, fun hf => ?_⟩
          cases path with
          | none => cases hl
          | some p =>
              refine ⟨p, rfl, ?_⟩
              rw [hfound p rfl hf, hl]
              rfl

-- ==== open and close

/-- The end of `vfs_open`, which has a reference on `node`. -/
def openNode (s : Vfs) (node : Nat) (flags : BitVec 32) : Vfs × Except Int Nat :=
  match s.store.tmpfsOpen (some node) flags with
  | (store, rc) =>
      if rc ≠ 0 then ({ s with store }.vnodeRelease (some node), .error rc)
      else ({ s with store }, .ok node)

/-- `vfs_open`. -/
def vfsOpen (s : Vfs) (ref : Option Nat) (path : Option CStr) (flags : BitVec 32)
    (result : Bool) : Vfs × Except Int Nat :=
  if !result then (s, .error (-1))
  else
    match path, ref with
    | some path, ref =>
        match s.vfsLookup true ref (some path) 0#32 with
        | (s, .error rc) => (s, .error rc)
        | (s, .ok found) => s.openNode found.node flags
    | none, none => (s, .error (-1))
    | none, some node => (s.vnodeHold node).openNode node flags

/-- `vfs_close`; `tmpfs_close` answers 0. -/
def vfsClose (s : Vfs) (node : Option Nat) : Vfs × Int :=
  match node with
  | none => (s, -1)
  | some node => (s.vnodeRelease (some node), 0)

-- ==== create

/-- `vfs_create`. -/
def vfsCreate (s : Vfs) (ref : Option Nat) (path : Option CStr) (attr : Option Mode)
    (type : Mode) (result ok : Bool) : Vfs × Except Int Nat :=
  if ref.isNone ∨ path.isNone ∨ !result then (s, .error (-1))
  else
    match s.vfsLookup true ref path VFS_LOOKUP_PARENT with
    | (s, .error rc) => (s, .error rc)
    | (s, .ok found) =>
        let lastcomp := found.lastcomp.getD []
        if lastcomp = [] then (s.vnodeRelease (some found.node), .error (-1))
        else
          match s.store.tmpfsCreate (some found.node) (some lastcomp) attr type true ok with
          | .error rc => (s.vnodeRelease (some found.node), .error rc)
          | .ok (store, node) =>
              ({ s with store }.vnodeRelease (some found.node), .ok node)

-- ==== mount

/-- What a lookup has found is a vnode. -/
theorem lookup_lt {s s' : Vfs} {result : Bool} {start : Option Nat} {path : Option CStr}
    {found : Fs.Found} (hlt : ∀ n, start = some n → n < s.count)
    (h : s.vfsLookup result start path 0#32 = (s', .ok found)) :
    found.node < s'.count := by
  rcases s.vfsLookup_cases result start path 0#32 with ⟨rc, he, -⟩ | ⟨f, he, hfound⟩
  · rw [he] at h
    cases h
  · rw [he] at h
    cases h
    obtain ⟨p, -, hp⟩ := hfound rfl
    exact s.store.found_lt hlt hp

/-- The end of `vfs_mount`, with the vnode to mount on, if there is one. -/
def mountOn (s : Vfs) (mountpoint : Option Nat) (ok : Bool)
    (hlt : ∀ n, mountpoint = some n → n < s.count) : Vfs × Int :=
  match hm : s.store.tmpfsMount ok with
  | none => (s, -1)
  | some store =>
      let root := (store.supers s.store.superCount).root
      have hroot : s.count = root ∧ root < store.fs.count := by
        have := Tmpfs.tmpfsMount_root hm
        unfold count
        omega
      match mountpoint, hlt with
      | some n, hlt =>
          have h : n < root ∧ root < store.fs.count := by
            have := hlt n rfl
            omega
          ({ s with store := { store with
              fs := store.fs.setMounted n root h
              closed := store.closed.setMounted h } }, 0)
      | none, _ =>
          ({ s with store := { store with
              fs := { store.fs with vfsroot := some root }
              closed := ⟨store.closed.child, fun r hr => by
                cases hr
                exact hroot.2⟩ } }, 0)

/-- `vfs_mount`. -/
def vfsMount (s : Vfs) (pathref : Option Nat) (path name : Option CStr) (ok : Bool)
    (hlt : ∀ n, pathref = some n → n < s.count) : Vfs × Int :=
  match name with
  | none => (s, -1)
  | some name =>
      if name ∉ s.registry then (s, -1)
      else
        match path with
        | none => s.mountOn pathref ok hlt
        | some path =>
            match hl : s.vfsLookup true pathref (some path) 0#32 with
            | (s, .error rc) => (s, rc)
            | (s, .ok found) =>
                s.mountOn (some found.node) ok fun n hn => by
                  cases hn
                  exact lookup_lt hlt hl

-- ==== runs

/-- The calls, and the places for answers. -/
inductive Call where
  | register (name : Option CStr) (ok : Bool)
  | mount (pathref : Option Nat) (path name : Option CStr) (ok : Bool)
  | lookup (result : Bool) (start : Option Nat) (path : Option CStr)
      (flags : BitVec 32)
  | openPath (ref : Option Nat) (path : Option CStr) (flags : BitVec 32)
      (result : Bool)
  | close (node : Option Nat)
  | create (ref : Option Nat) (path : Option CStr) (attr : Option Mode) (type : Mode)
      (result ok : Bool)
  | release (node : Option Nat)

/-- The vnode a call is given. -/
def Call.ref : Call → Option Nat
  | .register .. => none
  | .mount pathref .. => pathref
  | .lookup _ start .. => start
  | .openPath ref .. => ref
  | .close node => node
  | .create ref .. => ref
  | .release node => node

/-- It is one. -/
def Valid (s : Vfs) (k : Call) : Prop := ∀ n, k.ref = some n → n < s.count

/-- What a call answers: its return code where it fails, and the vnode that
it returns. -/
abbrev Outcome : Type := Except Int (Option Nat)

/-- A return code, of a call that returns no vnode. -/
def outcome (rc : Int) : Outcome := if rc = 0 then .ok none else .error rc

def step (s : Vfs) (k : Call) (hv : s.Valid k) : Vfs × Outcome :=
  match k, hv with
  | .register name ok, _ => (s.vfsRegister name ok).map id outcome
  | .mount pathref path name ok, hv => (s.vfsMount pathref path name ok hv).map id outcome
  | .lookup result start path flags, _ =>
      (s.vfsLookup result start path flags).map id fun r => r.map fun f => some f.node
  | .openPath ref path flags result, _ =>
      (s.vfsOpen ref path flags result).map id fun r => r.map some
  | .close node, _ => (s.vfsClose node).map id outcome
  | .create ref path attr type result ok, _ =>
      (s.vfsCreate ref path attr type result ok).map id fun r => r.map some
  | .release node, _ => (s.vnodeRelease node, .ok none)

end Vfs

end Alix
