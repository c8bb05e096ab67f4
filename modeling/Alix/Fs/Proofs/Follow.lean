/-
What a mount covers.

# The measure

Nothing in the data says that following mounts ends. But a mount puts a
vnode that it has just made on one that was there, and a child is newer
than its directory, so every step of a walk, down a mount or into a child,
comes to a newer vnode (`Grown`).

# What follows

Mounts have no cycle, and `vfs_follow_mounts` ends on a vnode that nothing
is mounted on. A walk that ends on the mountpoint has not been through it
before, so that it takes the same way after the mount and one step more.
-/
import Mathlib.Logic.Relation
import Alix.Fs.Proofs.Changes

namespace Alix

namespace Vfs

open Relation (TransGen ReflTransGen)

variable {s s' : Vfs}

/-- The root `r` is mounted on `n`. -/
def Covers (s : Vfs) (n r : Nat) : Prop := (s.store.fs.nodes n).mounted = some r

/-- The stores that the calls come to. -/
def Reached (s : Vfs) : Prop := ∃ owed, Ledger (fun _ _ => True) s owed

/-- A child is newer than its directory. -/
def Grown (s : Vfs) : Prop := ∀ p c, c ∈ (s.store.fs.nodes p).children → p < c

-- ==== mounts

theorem Covers.lt {n r : Nat} (h : s.Covers n r) : n < r := (s.store.fs.mount_lt n r h).1

/-- Mounts go from old vnodes to new ones. -/
theorem covers_trans_lt {n m : Nat} (h : TransGen s.Covers n m) : n < m := by
  induction h with
  | single h => exact h.lt
  | tail _ h ih => exact ih.trans h.lt

/-- The loop of `vfs_follow_mounts` takes one mount after the other. -/
theorem followLoop_covers (s : Vfs) (fuel n : Nat) :
    ReflTransGen s.Covers n (s.store.fs.followLoop fuel n) := by
  induction fuel generalizing n with
  | zero => exact .refl
  | succ fuel ih =>
      unfold Fs.followLoop
      cases hm : (s.store.fs.nodes n).mounted with
      | none => exact .refl
      | some r => exact .head hm (ih r)

/-- And has enough fuel. -/
theorem follow_ends (s : Vfs) (n : Nat) :
    ∃ m, s.store.fs.vfsFollowMounts (some n) = some m ∧ ReflTransGen s.Covers n m
      ∧ (s.store.fs.nodes m).mounted = none :=
  ⟨_, rfl, s.followLoop_covers _ n,
    s.store.fs.followLoop_unmounted s.store.fs.count n (by omega)⟩

-- ==== the measure

/-- What one call keeps. -/
theorem Grown.changed (h : Grown s) (hc : Tmpfs.Changed s.store s'.store) : Grown s' := by
  intro p c hpc
  rcases hc.children p with hsame | hnone | hg
  · rw [hsame] at hpc
    exact h p c hpc
  · rw [hnone] at hpc
    cases hpc
  · rw [hg.children] at hpc
    rcases List.mem_cons.mp hpc with rfl | hpc
    · exact hg.lt
    · exact h p c hpc

theorem Reached.grown (h : Reached s) : Grown s := by
  obtain ⟨owed, h⟩ := h
  induction h with
  | init => exact fun p c hc => by cases hc
  | step _ hv _ ih => exact ih.changed (step_changed hv)

end Vfs

-- ==== walks after a mount

/-- `fs'` is `fs` with a new root, number `fs.count`, mounted on `m`. -/
structure Over (fs fs' : Fs) (m : Nat) : Prop where
  lt : m < fs.count
  bare : (fs.nodes m).mounted = none
  count : fs'.count = fs.count + 1
  vfsroot : fs'.vfsroot = fs.vfsroot
  fresh : (fs'.nodes fs.count).mounted = none
  covered : (fs'.nodes m).mounted = some fs.count
  mounted : ∀ n, n < fs.count → n ≠ m → (fs'.nodes n).mounted = (fs.nodes n).mounted
  type : ∀ n, n < fs.count → (fs'.nodes n).type = (fs.nodes n).type
  children : ∀ n, n < fs.count → (fs'.nodes n).children = (fs.nodes n).children
  name : ∀ n, n < fs.count → (fs'.nodes n).name = (fs.nodes n).name

namespace Fs

variable {fs : Fs} {n d : Nat}

theorem le_followLoop (fs : Fs) (fuel n : Nat) : n ≤ fs.followLoop fuel n := by
  induction fuel generalizing n with
  | zero => exact Nat.le_refl n
  | succ fuel ih =>
      unfold followLoop
      cases hm : (fs.nodes n).mounted with
      | none => exact Nat.le_refl n
      | some r => exact (Nat.le_of_lt (fs.mount_lt n r hm).1).trans (ih r)

/-- A step of a walk comes to a newer vnode. -/
theorem lt_enter (hg : ∀ p c, c ∈ (fs.nodes p).children → p < c) {c : CStr}
    (h : fs.enter d c = some n) : d < n := by
  obtain ⟨x, hx, hf⟩ := Option.bind_eq_some_iff.mp h
  unfold childNamed at hx
  split at hx
  · have hdx := hg d x (List.mem_of_find?_eq_some hx)
    exact Nat.lt_of_lt_of_le hdx (Option.some.inj hf ▸ fs.le_followLoop fs.count x)
  · cases hx

theorem lt_codeWalk (hg : ∀ p c, c ∈ (fs.nodes p).children → p < c) {cs : List CStr}
    (h : fs.codeWalk cs d = some n) : d < n := by
  induction cs generalizing d with
  | nil => cases h
  | cons c cs ih =>
      unfold codeWalk at h
      split at h
      · cases h
      split at h
      · exact ih h
      · obtain ⟨next, hnext, h⟩ := Option.bind_eq_some_iff.mp h
        have hlt := lt_enter hg hnext
        split at h
        · cases h
          exact hlt
        · exact hlt.trans (ih h)

end Fs

namespace Over

variable {fs fs' : Fs} {m n : Nat}

/-- Where a walk that came to `n` comes to now. -/
def moved (fs : Fs) (m n : Nat) : Nat := if n = m then fs.count else n

theorem followLoop (h : Over fs fs' m) {fuel fuel' : Nat} (hn : n < fs.count)
    (hf : fs.count ≤ n + fuel) (hf' : fs.count < n + fuel') :
    fs'.followLoop fuel' n = moved fs m (fs.followLoop fuel n) := by
  induction fuel generalizing fuel' n with
  | zero => omega
  | succ fuel ih =>
      cases fuel' with
      | zero => omega
      | succ fuel' =>
          unfold Fs.followLoop
          by_cases hnm : n = m
          · subst hnm
            rw [h.covered, h.bare]
            simp only
            rw [moved, if_pos rfl]
            cases fuel' with
            | zero => rfl
            | succ fuel' =>
                unfold Fs.followLoop
                rw [h.fresh]
          · rw [h.mounted n hn hnm]
            cases hr : (fs.nodes n).mounted with
            | none => exact (if_neg hnm).symm
            | some r =>
                have hlt := fs.mount_lt n r hr
                exact ih hlt.2 (by omega) (by omega)

theorem follow (h : Over fs fs' m) {node : Option Nat}
    (hlt : ∀ n, node = some n → n < fs.count) :
    fs'.vfsFollowMounts node = (fs.vfsFollowMounts node).map (moved fs m) := by
  cases node with
  | none => rfl
  | some n =>
      have hn := hlt n rfl
      exact congrArg some (h.followLoop hn (by omega) (by rw [h.count]; omega))

theorem enter (h : Over fs fs' m) (hcl : fs.Closed) {d : Nat} (hd : d < fs.count)
    (c : CStr) : fs'.enter d c = (fs.enter d c).map (moved fs m) := by
  have hchild : fs'.childNamed d c = fs.childNamed d c := by
    unfold Fs.childNamed
    rw [h.type d hd, h.children d hd]
    split
    · refine List.find?_congr fun x hx => ?_
      rw [h.name x (hcl.child d x hx)]
    · rfl
  unfold Fs.enter
  rw [hchild]
  cases hc : fs.childNamed d c with
  | none => rfl
  | some x =>
      refine h.follow fun n hn => ?_
      cases hn
      exact hcl.childNamed_lt hc

/-- A walk that came to the mountpoint comes to the new root: it has not
been through the mountpoint, which is newer than all it has been
through. -/
theorem codeWalk (h : Over fs fs' m) (hcl : fs.Closed)
    (hg : ∀ p c, c ∈ (fs.nodes p).children → p < c) {cs : List CStr} {d : Nat}
    (hd : d < fs.count) (hw : fs.codeWalk cs d = some m) :
    fs'.codeWalk cs d = some fs.count := by
  induction cs generalizing d with
  | nil => cases hw
  | cons c cs ih =>
      unfold Fs.codeWalk at hw ⊢
      split at hw
      · cases hw
      rename_i hlong
      rw [if_neg hlong]
      split at hw
      · rename_i hdot
        rw [if_pos hdot]
        exact ih hd hw
      · rename_i hdot
        rw [if_neg hdot]
        obtain ⟨next, hnext, hw⟩ := Option.bind_eq_some_iff.mp hw
        rw [h.enter hcl hd, hnext]
        show (if cs = [] then some (moved fs m next) else fs'.codeWalk cs (moved fs m next)) = _
        split at hw
        · rename_i hnil
          cases hw
          rw [if_pos hnil, moved, if_pos rfl]
        · rename_i hnil
          have hlt := Fs.lt_codeWalk hg hw
          rw [if_neg hnil, moved, if_neg (Nat.ne_of_lt hlt)]
          exact ih (hcl.enter_lt hnext) hw

end Over

namespace Vfs

open Relation (TransGen ReflTransGen)

variable {s s' : Vfs}

/-- Nothing is mounted on the vnode that a lookup finds. -/
theorem found_bare {start : Option Nat} {path : CStr} {m : Nat}
    (h : s.found start path = some m) : (s.store.fs.nodes m).mounted = none := by
  have henter : ∀ {d : Nat} {c : CStr} {n : Nat}, s.store.fs.enter d c = some n →
      (s.store.fs.nodes n).mounted = none := by
    intro d c n hn
    obtain ⟨x, -, hf⟩ := Option.bind_eq_some_iff.mp hn
    exact s.store.fs.followMounts_unmounted hf
  have hwalk : ∀ {cs : List CStr} {d : Nat}, s.store.fs.codeWalk cs d = some m →
      (s.store.fs.nodes m).mounted = none := by
    intro cs
    induction cs with
    | nil => exact fun hw => by cases hw
    | cons c cs ih =>
        intro d hw
        unfold Fs.codeWalk at hw
        split at hw
        · cases hw
        split at hw
        · exact ih hw
        · obtain ⟨next, hnext, hw⟩ := Option.bind_eq_some_iff.mp hw
          split at hw
          · cases hw
            exact henter hnext
          · exact ih hw
  unfold Vfs.found at h
  rw [Tmpfs.found_eq] at h
  obtain ⟨top, htop, h⟩ := Option.bind_eq_some_iff.mp h
  split at h
  · cases h
    exact s.store.fs.followMounts_unmounted htop
  · exact hwalk h

theorem over_mounted {m : Nat} (hm : MountedOn (s.vnodeHold m) s' (some m))
    (hlt : m < s.count) (hbare : (s.store.fs.nodes m).mounted = none) :
    Over s.store.fs s'.store.fs m := by
  have hheld := s.store.held_nodes m
  have hmount : ∀ n, ((s.vnodeHold m).store.fs.nodes n).mounted
      = (s.store.fs.nodes n).mounted := by
    intro n
    show (Function.update s.store.fs.nodes m _ n).mounted = _
    by_cases hn : n = m
    · rw [hn, Function.update_self]
    · rw [Function.update_of_ne hn]
  have hold : ∀ n, n < s.count → n ≠ m →
      s'.store.fs.nodes n = (s.vnodeHold m).store.fs.nodes n := fun n hn hnm =>
    hm.other n (Nat.ne_of_lt hn) fun e => hnm (Option.some.inj e).symm
  have hcov := hm.covered m rfl
  refine ⟨hlt, hbare, hm.count, ?_, congrArg Vnode.mounted hm.new,
    congrArg Vnode.mounted hcov, fun n hn hnm => ?_, fun n hn => ?_, fun n hn => ?_,
    fun n hn => ?_⟩
  · rw [hm.vfsroot, if_neg (by simp)]
    rfl
  · rw [hold n hn hnm, hmount]
  all_goals by_cases hnm : n = m
  · rw [hnm, hcov]
    exact (hheld m).1
  · rw [hold n hn hnm]
    exact (hheld n).1
  · rw [hnm, hcov]
    exact (hheld m).2.1
  · rw [hold n hn hnm]
    exact (hheld n).2.1
  · rw [hnm, hcov]
    exact (hheld m).2.2
  · rw [hold n hn hnm]
    exact (hheld n).2.2

/-- The same path, looked up after the mount. -/
theorem Grown.found_over (h : Grown s) {start : Option Nat} {path : CStr} {m : Nat}
    (hlt : ∀ n, start = some n → n < s.count) (hpath : s.found start path = some m)
    (hover : Over s.store.fs s'.store.fs m) : s'.found start path = some s.count := by
  have hstart : s'.store.fs.startNode start path
      = (s.store.fs.startNode start path).map (Over.moved s.store.fs m) := by
    unfold Fs.startNode
    rw [hover.vfsroot]
    refine hover.follow fun n hn => ?_
    split at hn
    · exact s.store.closed.root n hn
    · exact hlt n hn
  unfold Vfs.found at hpath ⊢
  rw [Tmpfs.found_eq] at hpath ⊢
  obtain ⟨top, htop, hpath⟩ := Option.bind_eq_some_iff.mp hpath
  have htlt := s.store.closed.startNode_lt hlt htop
  rw [hstart, htop, Option.map_some, Option.bind_some]
  split at hpath
  · rename_i hnil
    cases hpath
    rw [if_pos hnil, Over.moved, if_pos rfl]
    rfl
  · rename_i hnil
    have hne := Nat.ne_of_lt (Fs.lt_codeWalk h hpath)
    rw [if_neg hnil, Over.moved, if_neg hne]
    exact hover.codeWalk s.store.closed h htlt hpath

/-- Without `VFS_LOOKUP_PARENT` the flags do not matter. -/
theorem found_flags (s : Vfs) (start : Option Nat) (path : CStr) {flags : BitVec 32}
    (hf : flags &&& VFS_LOOKUP_PARENT = 0) :
    (s.vfsLookup true start (some path) flags).2.toOption.map Fs.Found.node
      = s.found start path := by
  unfold Vfs.found
  rw [Tmpfs.found_eq, Fs.startNode, ← s.store.fs.vfsLookup_eq start path hf]
  unfold Vfs.vfsLookup Tmpfs.vfsLookup
  cases s.store.fs.vfsLookup start (some path) flags with
  | error rc => rfl
  | ok r => rfl

/-- A lookup fails with -1. -/
theorem lookup_error (s : Vfs) {result : Bool} {start : Option Nat}
    {path : Option CStr} {flags : BitVec 32} {rc : Int}
    (h : (s.vfsLookup result start path flags).2 = .error rc) : rc = -1 := by
  have hchild : ∀ {d : Nat} {c : CStr} {rc : Int}, s.store.fs.tmpfsLookup d c = .error rc →
      rc = -1 := by
    intro d c rc he
    unfold Fs.tmpfsLookup at he
    repeat' split at he
    all_goals cases he
    all_goals rfl
  have hloop : ∀ {fuel d : Nat} {cursor : CStr} {rc : Int},
      s.store.fs.lookupLoop flags fuel d cursor = .error rc → rc = -1 := by
    intro fuel
    induction fuel with
    | zero =>
        intro d cursor rc he
        cases he
        rfl
    | succ fuel ih =>
        intro d cursor rc he
        unfold Fs.lookupLoop at he
        simp only at he
        split at he
        · cases he
          rfl
        split at he
        · cases he
        split at he
        · exact ih he
        split at he
        · cases he
          rfl
        split at he
        · rename_i rc' hc
          cases he
          exact hchild hc
        · split at he
          · cases he
            rfl
          · split at he
            · cases he
            · exact ih he
  unfold Vfs.vfsLookup at h
  split at h
  · cases h
    rfl
  unfold Tmpfs.vfsLookup Fs.vfsLookup at h
  cases path with
  | none =>
      cases h
      rfl
  | some path =>
      simp only at h
      cases hs : s.store.fs.vfsFollowMounts
          (if vfsIsAbsolutePath path = true then s.store.fs.vfsroot else start) with
      | none =>
          rw [hs] at h
          cases h
          rfl
      | some current =>
          rw [hs] at h
          simp only at h
          by_cases hc : vfsSkipSlashes path = []
          · rw [if_pos hc] at h
            cases h
          · rw [if_neg hc] at h
            cases hl : s.store.fs.lookupLoop flags ((vfsSkipSlashes path).length + 1)
                current (vfsSkipSlashes path) with
            | error rc' =>
                rw [hl] at h
                cases h
                exact hloop hl
            | ok f =>
                rw [hl] at h
                cases h

/-- A mount at a path has looked the path up and mounted on what it
found. -/
theorem vfsMount_path {pathref : Option Nat} {path : CStr} {name : Option CStr}
    {ok : Bool} {hlt : ∀ n, pathref = some n → n < s.count}
    (h : s.vfsMount pathref (some path) name ok hlt = (s', 0)) :
    ∃ m, s.found pathref path = some m ∧ m < s.count
      ∧ MountedOn (s.vnodeHold m) s' (some m) := by
  unfold vfsMount at h
  split at h
  · cases h
  split at h
  · cases h
  simp only at h
  split at h
  · rename_i t rc hl
    have hrc := s.lookup_error (congrArg Prod.snd hl)
    rw [hrc] at h
    cases h
  · rename_i t f hl
    rcases s.vfsLookup_cases true pathref (some path) 0#32 with ⟨rc, he, -⟩ | ⟨f', he, hsome⟩
    · rw [he] at hl
      cases hl
    rw [he] at hl
    cases hl
    obtain ⟨p, hp, hpath⟩ := hsome rfl
    cases hp
    refine ⟨f.node, hpath, s.store.found_lt hlt hpath, ?_⟩
    rcases (s.vnodeHold f.node).mountOn_cases (some f.node) ok _ with
      ⟨-, hres⟩ | ⟨-, t, hres, hm⟩
    · rw [hres] at h
      cases h
    · rw [hres] at h
      cases h
      exact hm

/-- In every store that the calls come to, mounts have no cycle, following
them ends on a vnode that is not mounted on, and a mount at a path makes
that path lead to the root of the new file system. -/
theorem reached_mounts (h : Reached s) :
    (∀ n, ¬ TransGen s.Covers n n)
    ∧ (∀ n, ∃ m, s.store.fs.vfsFollowMounts (some n) = some m
      ∧ ReflTransGen s.Covers n m ∧ (s.store.fs.nodes m).mounted = none)
    ∧ ∀ pathref path name ok (hlt : ∀ n, pathref = some n → n < s.count) s',
        s.vfsMount pathref (some path) name ok hlt = (s', 0) →
        ∀ flags : BitVec 32, flags &&& VFS_LOOKUP_PARENT = 0 →
          (s'.vfsLookup true pathref (some path) flags).2.toOption.map Fs.Found.node
            = some (s'.store.supers s.store.superCount).root := by
  refine ⟨fun n hc => Nat.lt_irrefl n (covers_trans_lt hc), s.follow_ends, ?_⟩
  intro pathref path name ok hlt s' hmount flags hf
  obtain ⟨m, hpath, hm, hon⟩ := vfsMount_path hmount
  have hover := over_mounted hon hm (found_bare hpath)
  rw [found_flags s' pathref path hf, h.grown.found_over hlt hpath hover]
  exact congrArg some hon.root.symm

/-- Two mounts on "/a", one on the other, and a third at the same path. -/
theorem reached_mounts_stacked : ∃ s s' : Vfs, Reached s ∧ s.Covers 1 2 ∧ s.Covers 2 3
    ∧ (∀ n, ¬ TransGen s.Covers n n)
    ∧ (s'.vfsLookup true none (some [SLASH, 97]) 0#32).2.toOption.map Fs.Found.node
      = some 4 := by
  have hrun : (play (fun _ _ => True) vfsInit (small
      ++ [.mount none (some [SLASH, 97]) (some tmpfsName) true,
        .mount none (some [SLASH, 97]) (some tmpfsName) true])).map (fun s =>
      ((s.store.fs.nodes 1).mounted, (s.store.fs.nodes 2).mounted,
        (s.vfsMount none (some [SLASH, 97]) (some tmpfsName) true
          fun n hn => by cases hn).2,
        ((s.vfsMount none (some [SLASH, 97]) (some tmpfsName) true
          fun n hn => by cases hn).1.store.supers s.store.superCount).root))
      = some (some 2, some 3, 0, 4) := by
    decide +kernel
  obtain ⟨s, hs, heq⟩ := Option.map_eq_some_iff.mp hrun
  obtain ⟨h1, heq⟩ := Prod.mk.inj heq
  obtain ⟨h2, heq⟩ := Prod.mk.inj heq
  obtain ⟨hrc, hroot⟩ := Prod.mk.inj heq
  have hreached : Reached s := ledger_play .init hs
  obtain ⟨hacyclic, -, hlookup⟩ := reached_mounts hreached
  have hlast := hlookup none [SLASH, 97] (some tmpfsName) true (fun n hn => by cases hn) _
    (Prod.ext rfl hrc) 0#32 (by decide)
  exact ⟨s, _, hreached, h1, h2, hacyclic, hlast.trans (congrArg some hroot)⟩

end Vfs

end Alix
