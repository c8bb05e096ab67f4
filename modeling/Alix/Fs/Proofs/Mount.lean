/-
References on vnodes.

# What can go wrong

`vfs_lookup` holds the vnode it finds on behalf of its caller, which has to
drop the reference on every way out that does not hand it on. `vfs_mount`
has one way out behind the lookup where it does not: the file system's own
`mount` fails. The mountpoint then keeps a reference that nobody has.

# What holds

Every other call balances (`step_balanced`), and so a reference count is
what the calls so far have taken and not dropped (`ledger_refs`). The count
is an `int`: it is that number in 32 bits, and the number itself for as
long as the number fits.
-/
import Alix.Fs.Mount

namespace Alix

namespace Vfs

open Function (update update_self update_of_ne)

variable {s s' : Vfs} {k : Call}

-- ==== references

/-- `node->refcount`. -/
def refs (s : Vfs) (n : Nat) : Int32 := (s.store.fs.nodes n).refcount

/-- What a call takes of a vnode, by its answer: a lookup and an open take
a reference on the vnode they return, a mount at a path one on the vnode
that the path has led to, a close and a release drop one. -/
def change (s : Vfs) (k : Call) (out : Outcome) (n : Nat) : Int :=
  match k, out with
  | .lookup .., .ok r | .openPath .., .ok r => if r = some n then 1 else 0
  | .mount pathref (some path) .., .ok _ => if s.found pathref path = some n then 1 else 0
  | .close node, .ok _ | .release node, .ok _ => if node = some n then -1 else 0
  | _, _ => 0

/-- The call is a `vfs_create`. -/
def Call.creates : Call → Bool
  | .create .. => true
  | .register .. | .mount .. | .lookup .. | .openPath .. | .close _ | .release _ => false

/-- What a call should have done to the reference counts, in the arithmetic
that they have. -/
structure Balanced (s : Vfs) (k : Call) (s' : Vfs) (out : Outcome) : Prop where
  old : ∀ n, n < s.count → s'.refs n = s.refs n + Int32.ofInt (s.change k out n)
  new : ∀ n, s.count ≤ n → n < s'.count → s'.refs n = 1
  created : k.creates = true → ∀ r, out = .ok r → r = some s.count
    ∧ s'.count = s.count + 1

/-- A mount at a path that leads somewhere gets its memory. -/
def Afforded (s : Vfs) : Call → Prop
  | .mount pathref (some path) (some name) ok =>
      name ∈ s.registry → s.found pathref path ≠ none → ok = true
  | _ => True

@[simp] theorem count_release (s : Vfs) (r : Option Nat) :
    (s.vnodeRelease r).count = s.count := by
  cases r <;> rfl

theorem refs_hold (s : Vfs) (r n : Nat) :
    (s.vnodeHold r).refs n = s.refs n + Int32.ofInt (if some r = some n then 1 else 0) := by
  show (update s.store.fs.nodes r _ n).refcount = _
  by_cases h : n = r
  · rw [h, update_self, if_pos rfl]
    rfl
  · rw [update_of_ne h, if_neg fun e => h (Option.some.inj e).symm]
    exact (Int32.add_zero _).symm

theorem refs_release (s : Vfs) (r : Option Nat) (n : Nat) :
    (s.vnodeRelease r).refs n = s.refs n + Int32.ofInt (if r = some n then -1 else 0) := by
  cases r with
  | none => exact (Int32.add_zero _).symm
  | some r =>
      show (update s.store.fs.nodes r _ n).refcount = _
      by_cases h : n = r
      · rw [h, update_self, if_pos rfl]
        exact Int32.sub_eq_add_neg _ _
      · rw [update_of_ne h, if_neg fun e => h (Option.some.inj e).symm]
        exact (Int32.add_zero _).symm

/-- What is added and taken away again. -/
theorem ofInt_cancel (x : Int32) (p : Prop) [Decidable p] :
    x + Int32.ofInt (if p then 1 else 0) + Int32.ofInt (if p then -1 else 0) = x := by
  rw [Int32.add_assoc, ← Int32.ofInt_add]
  split <;> exact Int32.add_zero x

/-- A reference that is taken and dropped leaves the counts as they were. -/
theorem refs_hold_release (s : Vfs) (r n : Nat) :
    ((s.vnodeHold r).vnodeRelease (some r)).refs n = s.refs n := by
  rw [refs_release, refs_hold]
  exact ofInt_cancel _ _

-- ==== what a mount does

/-- A file system has been mounted on `mountpoint`, or as the root. -/
structure MountedOn (s s' : Vfs) (mountpoint : Option Nat) : Prop where
  count : s'.count = s.count + 1
  new : s'.store.fs.nodes s.count =
    { type := .dir, mounted := none, refcount := 1, parent := none
      children := [], name := [] }
  covered : ∀ n, mountpoint = some n → s'.store.fs.nodes n =
    { s.store.fs.nodes n with mounted := some s.count }
  other : ∀ n, n ≠ s.count → mountpoint ≠ some n →
    s'.store.fs.nodes n = s.store.fs.nodes n
  vfsroot : s'.store.fs.vfsroot =
    if mountpoint = none then some s.count else s.store.fs.vfsroot
  root : (s'.store.supers s.store.superCount).root = s.count

theorem tmpfsMount_vfsroot {s s' : Tmpfs} {ok : Bool} (h : s.tmpfsMount ok = some s') :
    s'.fs.vfsroot = s.fs.vfsroot := by
  unfold Tmpfs.tmpfsMount at h
  split at h
  · cases h
  · cases h
    rfl

/-- Without memory nothing is mounted. -/
theorem mountOn_cases (s : Vfs) (mountpoint : Option Nat) (ok : Bool)
    (hlt : ∀ n, mountpoint = some n → n < s.count) :
    (ok = false ∧ s.mountOn mountpoint ok hlt = (s, -1))
    ∨ (ok = true ∧ ∃ s', s.mountOn mountpoint ok hlt = (s', 0)
      ∧ MountedOn s s' mountpoint) := by
  unfold mountOn
  split
  · rename_i hm
    refine Or.inl ⟨?_, rfl⟩
    unfold Tmpfs.tmpfsMount at hm
    cases ok with
    | false => rfl
    | true => cases hm
  · rename_i store hm
    have m := Tmpfs.mounted_tmpfsMount hm
    have hroot : (store.supers s.store.superCount).root = s.count := by
      rw [m.super]
      rfl
    have hok : ok = true := by
      unfold Tmpfs.tmpfsMount at hm
      cases ok with
      | false => cases hm
      | true => rfl
    refine Or.inr ⟨hok, ?_⟩
    cases mountpoint with
    | none =>
        refine ⟨_, rfl, m.count, m.new, fun n hn => (by cases hn),
          fun n hn _ => m.other n hn, ?_, hroot⟩
        show some (store.supers s.store.superCount).root = _
        rw [hroot]
        rfl
    | some p =>
        have hp : p < s.count := hlt p rfl
        refine ⟨_, rfl, m.count, ?_, fun n hn => ?_, fun n hn hnp => ?_, ?_, hroot⟩
        · show update store.fs.nodes p _ s.count = _
          rw [update_of_ne (Nat.ne_of_gt hp)]
          exact m.new
        · cases hn
          show update store.fs.nodes p _ p = _
          rw [update_self, hroot, m.other p (Nat.ne_of_lt hp)]
        · show update store.fs.nodes p _ n = _
          rw [update_of_ne fun e => hnp (by rw [e])]
          exact m.other n hn
        · rw [if_neg (by simp)]
          show store.fs.vfsroot = s.store.fs.vfsroot
          exact tmpfsMount_vfsroot hm

theorem MountedOn.refs {mp : Option Nat} (h : MountedOn s s' mp) {n : Nat}
    (hn : n < s.count) : s'.refs n = s.refs n := by
  unfold Vfs.refs
  by_cases hmp : mp = some n
  · rw [h.covered n hmp]
  · rw [h.other n (Nat.ne_of_lt hn) hmp]

theorem MountedOn.refs_new {mp : Option Nat} (h : MountedOn s s' mp) {n : Nat}
    (hn : s.count ≤ n) (hn' : n < s'.count) : s'.refs n = 1 := by
  have he : n = s.count := by
    have := h.count
    omega
  unfold Vfs.refs
  rw [he, h.new]

-- ==== call by call

theorem change_error (s : Vfs) (k : Call) (rc : Int) (n : Nat) :
    s.change k (.error rc) n = 0 := by
  cases k with
  | mount pathref path name ok => cases path <;> rfl
  | register | lookup | openPath | close | create | release => rfl

/-- An answer that is no success, of a call that leaves the counts. -/
theorem balanced_error {rc : Int} (hcount : s'.count = s.count)
    (hrefs : ∀ n, s'.refs n = s.refs n) : Balanced s k s' (.error rc) where
  old := fun n _ => by
    rw [hrefs, change_error]
    exact (Int32.add_zero _).symm
  new := fun n hn hn' => by omega
  created := fun _ r hr => by cases hr

/-- A call that returns or drops one reference and makes no vnode. -/
theorem balanced_ok {r : Option Nat} (hk : k.creates = false) (hcount : s'.count = s.count)
    (hrefs : ∀ n, n < s.count → s'.refs n = s.refs n + Int32.ofInt (s.change k (.ok r) n)) :
    Balanced s k s' (.ok r) where
  old := hrefs
  new := fun n hn hn' => by omega
  created := fun h => by rw [hk] at h; cases h

theorem register_balanced (s : Vfs) (name : Option CStr) (ok : Bool) :
    Balanced s (.register name ok) (s.vfsRegister name ok).1
      (outcome (s.vfsRegister name ok).2) := by
  have hfail : Balanced s (.register name ok) s (outcome (-1)) :=
    balanced_error rfl fun _ => rfl
  unfold vfsRegister
  cases name with
  | none => exact hfail
  | some name =>
      simp only
      split
      · exact hfail
      split
      · exact hfail
      split
      · exact hfail
      · exact balanced_ok rfl rfl fun n _ => (Int32.add_zero _).symm

theorem lookup_balanced (s : Vfs) (result : Bool) (start : Option Nat)
    (path : Option CStr) (flags : BitVec 32) :
    Balanced s (.lookup result start path flags) (s.vfsLookup result start path flags).1
      ((s.vfsLookup result start path flags).2.map fun f => some f.node) := by
  rcases s.vfsLookup_cases result start path flags with ⟨rc, he, -⟩ | ⟨f, he, -⟩
  · rw [he]
    exact balanced_error rfl fun _ => rfl
  · rw [he]
    exact balanced_ok rfl rfl fun n _ => refs_hold s f.node n

/-- The end of `vfs_open` drops the reference it was given, or returns
it. -/
theorem openNode_cases (s : Vfs) (node : Nat) (flags : BitVec 32) :
    (s.openNode node flags).1.count = s.count
    ∧ ((∃ rc, (s.openNode node flags).2 = .error rc ∧ ∀ n,
          (s.openNode node flags).1.refs n
            = s.refs n + Int32.ofInt (if some node = some n then -1 else 0))
      ∨ (s.openNode node flags).2 = .ok node
        ∧ ∀ n, (s.openNode node flags).1.refs n = s.refs n) := by
  have hfs := s.store.tmpfsOpen_fs (some node) flags
  unfold openNode
  simp only
  split
  · refine ⟨?_, Or.inl ⟨_, rfl, fun n => ?_⟩⟩
    · show (Vfs.vnodeRelease _ _).count = _
      rw [count_release]
      exact congrArg Fs.count hfs
    · rw [refs_release]
      unfold Vfs.refs
      rw [hfs]
  · refine ⟨congrArg Fs.count hfs, Or.inr ⟨rfl, fun n => ?_⟩⟩
    unfold Vfs.refs
    rw [hfs]

/-- Every branch of `vfs_open`. -/
theorem open_balanced (s : Vfs) (ref : Option Nat) (path : Option CStr)
    (flags : BitVec 32) (result : Bool) :
    Balanced s (.openPath ref path flags result) (s.vfsOpen ref path flags result).1
      ((s.vfsOpen ref path flags result).2.map some) := by
  have hend : ∀ r, Balanced s (.openPath ref path flags result)
      ((s.vnodeHold r).openNode r flags).1 (((s.vnodeHold r).openNode r flags).2.map some) := by
    intro r
    obtain ⟨hcount, ⟨rc, he, hrefs⟩ | ⟨he, hrefs⟩⟩ := (s.vnodeHold r).openNode_cases r flags
    · rw [he]
      refine balanced_error hcount fun n => ?_
      rw [hrefs, refs_hold]
      exact ofInt_cancel _ _
    · rw [he]
      refine balanced_ok rfl hcount fun n _ => ?_
      rw [hrefs, refs_hold]
      rfl
  have hfail : Balanced s (.openPath ref path flags result) s (.error (-1)) :=
    balanced_error rfl fun _ => rfl
  unfold vfsOpen
  split
  · exact hfail
  cases path with
  | some path =>
      simp only
      rcases s.vfsLookup_cases true ref (some path) 0#32 with ⟨rc, he, -⟩ | ⟨f, he, -⟩
      · rw [he]
        exact balanced_error rfl fun _ => rfl
      · rw [he]
        exact hend f.node
  | none =>
      cases ref with
      | none => exact hfail
      | some node => exact hend node

theorem close_balanced (s : Vfs) (node : Option Nat) :
    Balanced s (.close node) (s.vfsClose node).1 (outcome (s.vfsClose node).2) := by
  cases node with
  | none => exact balanced_error rfl fun _ => rfl
  | some node => exact balanced_ok rfl rfl fun n _ => refs_release s (some node) n

theorem release_balanced (s : Vfs) (node : Option Nat) :
    Balanced s (.release node) (s.vnodeRelease node) (.ok none) :=
  balanced_ok rfl (count_release s node) fun n _ => refs_release s node n

/-- A lookup for a parent stops where the path starts, or walks to the last
component. -/
theorem parent_found {result : Bool} {start : Option Nat} {path : Option CStr}
    {found : Fs.Found}
    (h : s.vfsLookup result start path VFS_LOOKUP_PARENT = (s', .ok found)) :
    ∃ p top, s.store.fs.startNode start p = some top
      ∧ (found = ⟨top, none⟩
        ∨ ∃ q, s.store.fs.parentWalk (components p) top = some q
          ∧ found = ⟨q.1, some q.2⟩) := by
  unfold vfsLookup at h
  split at h
  · cases h
  split at h
  · cases h
  rename_i store f hl
  cases h
  cases path with
  | none => cases hl
  | some path =>
      have hpath := s.store.fs.vfsLookup_parent start path
      unfold Tmpfs.vfsLookup at hl
      cases hfs : s.store.fs.vfsLookup start (some path) VFS_LOOKUP_PARENT with
      | error rc =>
          rw [hfs] at hl
          cases hl
      | ok r =>
          rw [hfs] at hl hpath
          cases hl
          obtain ⟨top, htop, hwalk⟩ := Option.bind_eq_some_iff.mp hpath.symm
          refine ⟨path, top, htop, ?_⟩
          split at hwalk
          · exact .inl (Option.some.inj hwalk).symm
          · obtain ⟨q, hq, he⟩ := Option.map_eq_some_iff.mp hwalk
            exact .inr ⟨q, hq, he.symm⟩

/-- The parent of a path is a vnode. -/
theorem parent_lt {result : Bool} {start : Option Nat} {path : Option CStr}
    {found : Fs.Found} (hlt : ∀ n, start = some n → n < s.count)
    (h : s.vfsLookup result start path VFS_LOOKUP_PARENT = (s', .ok found)) :
    found.node < s.count := by
  obtain ⟨p, top, htop, hfound⟩ := parent_found h
  have htlt := s.store.closed.startNode_lt hlt htop
  rcases hfound with rfl | ⟨q, hq, rfl⟩
  · exact htlt
  · exact s.store.closed.parentWalk_lt htlt hq

/-- A new vnode below a directory. -/
def addChild (s : Vfs) (p : Nat) (name : CStr) (type : NodeType) (mode : Mode) : Vfs :=
  { s with store := s.store.addChild p name type mode }

/-- `tmpfs_create` makes one vnode and counts no reference on another. -/
theorem refs_addChild (s : Vfs) {p : Nat} (hp : p < s.count) (name : CStr)
    (type : NodeType) (mode : Mode) (n : Nat) :
    (s.addChild p name type mode).refs n = if n = s.count then 1 else s.refs n := by
  have a := Tmpfs.added_addChild (s := s.store) hp name type mode
  unfold Vfs.refs
  by_cases hn : n = s.count
  · rw [if_pos hn, hn]
    exact congrArg Vnode.refcount a.new
  · rw [if_neg hn]
    by_cases hnp : n = p
    · rw [hnp]
      have h := congrArg Vnode.refcount a.parent
      exact h
    · exact congrArg Vnode.refcount (a.other n hn hnp)

/-- Every branch of `vfs_create`. -/
theorem create_balanced (s : Vfs) (ref : Option Nat) (path : Option CStr)
    (attr : Option Mode) (type : Mode) (result ok : Bool)
    (hlt : ∀ n, ref = some n → n < s.count) :
    Balanced s (.create ref path attr type result ok)
      (s.vfsCreate ref path attr type result ok).1
      ((s.vfsCreate ref path attr type result ok).2.map some) := by
  unfold vfsCreate
  split
  · exact balanced_error rfl fun _ => rfl
  rcases s.vfsLookup_cases true ref path VFS_LOOKUP_PARENT with ⟨rc, he, -⟩ | ⟨f, he, -⟩
  · rw [he]
    exact balanced_error rfl fun _ => rfl
  rw [he]
  -- from here on the parent is held
  have hdrop : ∀ rc, Balanced s (.create ref path attr type result ok)
      ((s.vnodeHold f.node).vnodeRelease (some f.node)) (.error rc) := fun rc =>
    balanced_error (count_release _ _) fun n => refs_hold_release s f.node n
  simp only
  split
  · exact hdrop (-1)
  cases hc : (s.vnodeHold f.node).store.tmpfsCreate (some f.node)
      (some (f.lastcomp.getD [])) attr type true ok with
  | error rc => exact hdrop rc
  | ok r =>
      obtain ⟨store, node⟩ := r
      obtain ⟨p, nm, ty, mode, hp, -, -, -, -, -, -, hnode, rfl⟩ := Tmpfs.tmpfsCreate_cases hc
      have hplt : f.node < s.count := parent_lt hlt he
      cases hp
      have hcount : ∀ q, (((s.vnodeHold f.node).addChild f.node nm ty mode).vnodeRelease
          q).count = s.count + 1 := count_release _
      have hrefs : ∀ n, (((s.vnodeHold f.node).addChild f.node nm ty mode).vnodeRelease
          (some f.node)).refs n
          = (if n = s.count then 1
              else s.refs n + Int32.ofInt (if some f.node = some n then 1 else 0))
            + Int32.ofInt (if some f.node = some n then -1 else 0) := by
        intro n
        rw [refs_release, refs_addChild (s.vnodeHold f.node) hplt, refs_hold]
        rfl
      refine ⟨fun n hn => ?_, fun n hn hn' => ?_, fun _ r hr => ?_⟩
      · refine (hrefs n).trans ?_
        rw [if_neg (Nat.ne_of_lt hn), ofInt_cancel]
        exact (Int32.add_zero _).symm
      · have hn1 : n = s.count := by
          have : n < s.count + 1 := by
            rw [← hcount (some f.node)]
            exact hn'
          omega
        refine (hrefs n).trans ?_
        rw [if_pos hn1, if_neg]
        · rfl
        · intro e
          have := Option.some.inj e
          omega
      · cases hr
        exact ⟨congrArg some hnode, hcount _⟩

/-- The one way out of `vfs_mount` that keeps a reference: behind a lookup
that has found the mountpoint. -/
theorem mount_balanced (s : Vfs) (pathref : Option Nat) (path name : Option CStr)
    (ok : Bool) (hlt : ∀ n, pathref = some n → n < s.count) :
    Balanced s (.mount pathref path name ok) (s.vfsMount pathref path name ok hlt).1
        (outcome (s.vfsMount pathref path name ok hlt).2)
      ↔ s.Afforded (.mount pathref path name ok) := by
  have hfail : ∀ rc : Int, rc ≠ 0 →
      Balanced s (.mount pathref path name ok) s (outcome rc) := fun rc hrc => by
    unfold outcome
    rw [if_neg hrc]
    exact balanced_error rfl fun _ => rfl
  cases name with
  | none => exact ⟨fun _ => by cases path <;> trivial, fun _ => hfail (-1) (by decide)⟩
  | some name =>
      unfold vfsMount
      simp only
      split
      · rename_i hreg
        refine ⟨fun _ => ?_, fun _ => hfail (-1) (by decide)⟩
        cases path with
        | none => trivial
        | some path => exact fun h => (hreg h).elim
      rename_i hreg
      cases path with
      | none =>
          refine ⟨fun _ => trivial, fun _ => ?_⟩
          simp only
          rcases s.mountOn_cases pathref ok hlt with ⟨-, he⟩ | ⟨-, s', he, hm⟩
          · rw [he]
            exact hfail (-1) (by decide)
          · rw [he]
            refine ⟨fun n hn => ?_, fun n hn hn' => hm.refs_new hn hn', fun h => by cases h⟩
            rw [hm.refs hn]
            exact (Int32.add_zero _).symm
      | some path =>
          simp only
          split
          · rename_i t rc hl
            rcases s.vfsLookup_cases true pathref (some path) 0#32 with
              ⟨rc', he, hnone⟩ | ⟨f, he, -⟩
            · rw [he] at hl
              cases hl
              have hpath := hnone rfl rfl path rfl
              refine ⟨fun _ _ hsome => (hsome hpath).elim, fun _ => ?_⟩
              by_cases hrc : rc = 0
              · rw [hrc]
                refine balanced_ok rfl rfl fun n _ => ?_
                show _ = s.refs n + Int32.ofInt (if s.found pathref path = some n then 1 else 0)
                rw [hpath, if_neg (by simp)]
                exact (Int32.add_zero _).symm
              · exact hfail rc hrc
            · rw [he] at hl
              cases hl
          · rename_i t f hl
            rcases s.vfsLookup_cases true pathref (some path) 0#32 with
              ⟨rc', he, -⟩ | ⟨f', he, hsome⟩
            · rw [he] at hl
              cases hl
            rw [he] at hl
            cases hl
            obtain ⟨p, hp, hpath⟩ := hsome rfl
            cases hp
            have hflt : f.node < s.count := s.store.found_lt hlt hpath
            rcases (s.vnodeHold f.node).mountOn_cases (some f.node) ok _ with
              ⟨hok, hres⟩ | ⟨hok, s', hres, hm⟩
            · -- the reference of the lookup stays
              rw [hres]
              refine ⟨fun hb => ?_, fun ha => ?_⟩
              · have h1 := hb.old f.node hflt
                rw [show outcome (-1) = .error (-1) from rfl, change_error, refs_hold,
                  if_pos rfl] at h1
                exact absurd ((Int32.add_right_inj _).mp h1) (by decide)
              · have := ha (not_not.mp hreg) (by rw [hpath]; simp)
                rw [hok] at this
                cases this
            · rw [hres]
              refine ⟨fun _ _ _ => hok, fun _ => ⟨fun n hn => ?_, fun n hn hn' => ?_,
                fun h => by cases h⟩⟩
              · show s'.refs n
                  = s.refs n + Int32.ofInt (if s.found pathref path = some n then 1 else 0)
                rw [hm.refs hn, refs_hold, hpath]
              · exact hm.refs_new hn hn'

/-- A call balances exactly if it is not a mount that has found its
mountpoint and then no memory. -/
theorem step_balanced (s : Vfs) (k : Call) (hv : s.Valid k) :
    Balanced s k (s.step k hv).1 (s.step k hv).2 ↔ s.Afforded k := by
  cases k with
  | register name ok => exact ⟨fun _ => trivial, fun _ => s.register_balanced name ok⟩
  | mount pathref path name ok => exact s.mount_balanced pathref path name ok hv
  | lookup result start path flags =>
      exact ⟨fun _ => trivial, fun _ => s.lookup_balanced result start path flags⟩
  | openPath ref path flags result =>
      exact ⟨fun _ => trivial, fun _ => s.open_balanced ref path flags result⟩
  | close node => exact ⟨fun _ => trivial, fun _ => s.close_balanced node⟩
  | create ref path attr type result ok =>
      exact ⟨fun _ => trivial, fun _ => s.create_balanced ref path attr type result ok hv⟩
  | release node => exact ⟨fun _ => trivial, fun _ => s.release_balanced node⟩

/-- The stores that calls which `may` allows come to, and for each vnode
what they have taken and not dropped, with the one reference it began
with. -/
inductive Ledger (may : Vfs → Call → Prop) : Vfs → (Nat → Int) → Prop
  | init : Ledger may vfsInit fun _ => 0
  | step {s : Vfs} {owed : Nat → Int} {k : Call} : Ledger may s owed →
      (hv : s.Valid k) → may s k →
      Ledger may (s.step k hv).1 fun n =>
        if n < s.count then owed n + s.change k (s.step k hv).2 n else 1

/-- A run in which every call balances: the counts are what is owed. -/
theorem Ledger.refs {owed : Nat → Int} (h : Ledger Afforded s owed) :
    ∀ n, n < s.count → s.refs n = Int32.ofInt (owed n) := by
  induction h with
  | init =>
      intro n hn
      cases hn
  | @step s owed k _ hv hmay ih =>
      intro n hn
      have hb := (s.step_balanced k hv).mpr hmay
      simp only
      split
      · rename_i hlt
        rw [hb.old n hlt, ih n hlt, Int32.ofInt_add]
      · rename_i hge
        exact hb.new n (Nat.le_of_not_lt hge) hn

/-- A number in 32 bits is the number itself where it fits. -/
theorem toInt_ofInt_iff (x : Int) :
    (Int32.ofInt x).toInt = x ↔ -2 ^ 31 ≤ x ∧ x < 2 ^ 31 := by
  constructor
  · intro h
    rw [← h]
    exact ⟨Int32.le_toInt _, Int32.toInt_lt _⟩
  · rintro ⟨hle, hlt⟩
    exact Int32.toInt_ofInt_of_le hle hlt

/-- As long as no mount runs out of memory behind its lookup, the counts
are what is owed, in 32 bits, so the very number where it is one of an
`int` and nowhere else; and the calls that balance are the calls that do
not run out of it. -/
theorem ledger_refs {owed : Nat → Int} (h : Ledger Afforded s owed) :
    (∀ n, n < s.count → s.refs n = Int32.ofInt (owed n)
      ∧ ((s.refs n).toInt = owed n ↔ -2 ^ 31 ≤ owed n ∧ owed n < 2 ^ 31))
    ∧ ∀ k (hv : s.Valid k),
        Balanced s k (s.step k hv).1 (s.step k hv).2 ↔ s.Afforded k := by
  refine ⟨fun n hn => ?_, s.step_balanced⟩
  have hrefs := h.refs n hn
  refine ⟨hrefs, ?_⟩
  rw [hrefs]
  exact toInt_ofInt_iff _

-- ==== traces

instance (s : Vfs) (k : Call) : Decidable (s.Valid k) :=
  inferInstanceAs (Decidable (∀ n ∈ k.ref, n < s.count))

instance (s : Vfs) (k : Call) : Decidable (s.Afforded k) :=
  match k with
  | .mount _ (some _) (some _) _ => inferInstanceAs (Decidable (_ → _ ≠ none → _))
  | .mount _ none _ _ | .mount _ (some _) none _ | .register .. | .lookup ..
  | .openPath .. | .close _ | .create .. | .release _ => inferInstanceAs (Decidable True)

/-- Makes the calls of a list, as long as `may` allows them. -/
def play (may : Vfs → Call → Prop) [∀ s k, Decidable (may s k)] :
    Vfs → List Call → Option Vfs
  | s, [] => some s
  | s, k :: ks =>
      if h : s.Valid k ∧ may s k then play may (s.step k h.1).1 ks else none

theorem ledger_play {may : Vfs → Call → Prop} [∀ s k, Decidable (may s k)]
    {owed : Nat → Int} {ks : List Call} (h : Ledger may s owed)
    (hp : play may s ks = some s') : ∃ owed', Ledger may s' owed' := by
  induction ks generalizing s owed with
  | nil =>
      cases hp
      exact ⟨owed, h⟩
  | cons k ks ih =>
      unfold play at hp
      split at hp
      · rename_i hk
        exact ih (h.step hk.1 hk.2) hp
      · cases hp

/-- "tmpfs". -/
def tmpfsName : CStr := [116, 109, 112, 102, 115]

/-- A root and a directory "a" in it. -/
def small : List Call :=
  [.register (some tmpfsName) true, .mount none none (some tmpfsName) true,
    .create (some 0) (some [97]) none S_IFDIR true true]

/-- A mount on "/a", a lookup that follows it, and a mount on "/b", which is
not there, without memory. -/
theorem ledger_refs_mount : ∃ s : Vfs, s.refs 1 = 2 ∧ s.refs 2 = 2
    ∧ ∃ owed : Nat → Int, s.refs 2 = Int32.ofInt (owed 2)
      ∧ ((s.refs 2).toInt = owed 2 ↔ -2 ^ 31 ≤ owed 2 ∧ owed 2 < 2 ^ 31) := by
  have hrun : (play Afforded vfsInit (small
      ++ [.mount none (some [SLASH, 97]) (some tmpfsName) true,
        .lookup true (some 0) (some [97]) 0#32,
        .mount none (some [SLASH, 98]) (some tmpfsName) false])).map
      (fun s => (s.count, s.refs 1, s.refs 2)) = some (3, 2, 2) := by
    decide +kernel
  obtain ⟨s, hs, heq⟩ := Option.map_eq_some_iff.mp hrun
  obtain ⟨hc, heq⟩ := Prod.mk.inj heq
  obtain ⟨h1, h2⟩ := Prod.mk.inj heq
  obtain ⟨owed, hl⟩ := ledger_play .init hs
  exact ⟨s, h1, h2, owed, (ledger_refs hl).1 2 (by omega)⟩

/-- A mount on "/a" without memory fails, and "/a" has one reference more. -/
theorem mount_leaks : ∃ (s : Vfs) (owed : Nat → Int)
    (hv : s.Valid (.mount none (some [SLASH, 97]) (some tmpfsName) false)),
    Ledger (fun _ _ => True) s owed ∧ s.refs 1 = 1
    ∧ (s.step _ hv).2 = .error (-1) ∧ (s.step _ hv).1.refs 1 = 2 := by
  have hrun : (play (fun _ _ => True) vfsInit small).map (fun s =>
      (s.refs 1, (s.step (.mount none (some [SLASH, 97]) (some tmpfsName) false)
        fun n hn => by cases hn).1.refs 1,
      match (s.step (.mount none (some [SLASH, 97]) (some tmpfsName) false)
        fun n hn => by cases hn).2 with
      | .error rc => some rc
      | .ok _ => none)) = some (1, 2, some (-1)) := by
    decide +kernel
  obtain ⟨s, hs, heq⟩ := Option.map_eq_some_iff.mp hrun
  obtain ⟨h1, heq⟩ := Prod.mk.inj heq
  obtain ⟨h2, hout⟩ := Prod.mk.inj heq
  obtain ⟨owed, hl⟩ := ledger_play .init hs
  refine ⟨s, owed, fun n hn => (by cases hn), hl, h1, ?_, h2⟩
  split at hout
  · rename_i rc he
    rw [he, Option.some.inj hout]
  · cases hout

end Vfs

end Alix
