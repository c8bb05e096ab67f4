/-
`vfs_create` against the lookups after it.

`vfs_create` resolves all components but the last (`parentWalk`) and
gives the last one, as it stands, to `tmpfs_create`. A lookup enters
every component but the dotted ones. So the two agree on all of the path
up to the last component, and on that one if it has no leading dot:
`vfs_create` makes nodes named ".a", "." or "..", and no lookup ever
finds them.

A new node is in nobody's way. Its name was free in its directory, so
the lookups that succeeded before find what they found
(`Added.codeWalk`).
-/
import Mathlib.Data.List.Find
import Alix.Fs.Proofs.Lookup
import Alix.Fs.Proofs.Tmpfs

namespace Alix

-- ==== the parent walk

namespace Fs

variable (fs : Fs)

/-- The loop of `vfs_lookup` with `VFS_LOOKUP_PARENT`, over the components
that are left. -/
def parentWalk : List CStr → Nat → Option (Nat × CStr)
  | [], _ => none
  | c :: cs, current =>
      if 255 < c.length then none
      else if cs = [] then some (current, c)
      else if Dotted c then parentWalk cs current
      else (fs.enter current c).bind fun next => parentWalk cs next

/-- With `VFS_LOOKUP_PARENT` the loop stops one earlier. -/
theorem lookupLoop_parent (fuel : Nat) (current : Nat) (cursor : CStr)
    (hs : Skipped cursor) (hfuel : cursor.length < fuel) :
    (fs.lookupLoop VFS_LOOKUP_PARENT fuel current cursor).toOption
      = (fs.parentWalk (components cursor) current).map
          fun r => ⟨r.1, some r.2⟩ := by
  induction fuel generalizing current cursor with
  | zero => omega
  | succ fuel ih =>
      by_cases hne : cursor = []
      · subst hne
        rfl
      obtain ⟨c, rest, hcomp, hskip, hshort, hround⟩ := fs.lookupLoop_round hs hne
      have hflag : VFS_LOOKUP_PARENT &&& VFS_LOOKUP_PARENT ≠ 0 := by decide
      rw [hround, hcomp]
      unfold parentWalk
      simp only [hflag, ne_eq, not_false_eq_true, true_and]
      by_cases hlong : 255 < c.length
      · rw [if_pos hlong, if_pos hlong]
        rfl
      rw [if_neg hlong, if_neg hlong]
      by_cases hr : components rest = []
      · rw [if_pos hr, if_pos hr]
        rfl
      rw [if_neg hr, if_neg hr]
      by_cases hd : Dotted c
      · rw [if_pos hd, if_pos hd]
        exact ih current rest hskip (by omega)
      rw [if_neg hd, if_neg hd]
      cases fs.enter current c with
      | none => rfl
      | some next =>
          show (if components rest = [] then _ else _) = _
          rw [if_neg hr]
          exact ih next rest hskip (by omega)

/-- Where the walk of a path begins. -/
def startNode (start : Option Nat) (path : CStr) : Option Nat :=
  fs.vfsFollowMounts (if vfsIsAbsolutePath path then fs.vfsroot else start)

/-- `vfs_lookup` with `VFS_LOOKUP_PARENT`, by components. -/
theorem vfsLookup_parent (start : Option Nat) (path : CStr) :
    (fs.vfsLookup start (some path) VFS_LOOKUP_PARENT).toOption.map Prod.snd
      = (fs.startNode start path).bind fun current =>
          if components path = [] then some ⟨current, none⟩
          else (fs.parentWalk (components path) current).map
            fun r => ⟨r.1, some r.2⟩ := by
  rw [vfsLookup_loop]
  refine Option.bind_congr fun current _ => ?_
  have hloop := fs.lookupLoop_parent _ current _ (skipped_skipSlashes path) (Nat.lt_succ_self _)
  rw [components_skipSlashes] at hloop
  rw [hloop]

/-- The walks stay inside the store. -/
theorem followLoop_lt {fuel n : Nat} (h : n < fs.count) :
    fs.followLoop fuel n < fs.count := by
  induction fuel generalizing n with
  | zero => exact h
  | succ fuel ih =>
      unfold followLoop
      cases hm : (fs.nodes n).mounted with
      | none => exact h
      | some r => exact ih (fs.mount_lt n r hm).2

variable {fs}

theorem vfsFollowMounts_lt {node : Option Nat} {n : Nat}
    (hlt : ∀ m, node = some m → m < fs.count)
    (h : fs.vfsFollowMounts node = some n) : n < fs.count := by
  obtain ⟨m, rfl, rfl⟩ := Option.map_eq_some_iff.mp h
  exact fs.followLoop_lt (hlt m rfl)

theorem Closed.startNode_lt (hcl : fs.Closed) {start : Option Nat} {path : CStr}
    {n : Nat} (hlt : ∀ m, start = some m → m < fs.count)
    (h : fs.startNode start path = some n) : n < fs.count := by
  refine vfsFollowMounts_lt (fun m hm => ?_) h
  split at hm
  · exact hcl.root m hm
  · exact hlt m hm

theorem Closed.childNamed_lt (hcl : fs.Closed) {d n : Nat} {c : CStr}
    (h : fs.childNamed d c = some n) : n < fs.count := by
  unfold childNamed at h
  split at h
  · exact hcl.child d n (List.mem_of_find?_eq_some h)
  · cases h

theorem Closed.enter_lt (hcl : fs.Closed) {d n : Nat} {c : CStr}
    (h : fs.enter d c = some n) : n < fs.count := by
  obtain ⟨m, hm, hf⟩ := Option.bind_eq_some_iff.mp h
  refine vfsFollowMounts_lt (fun k hk => ?_) hf
  cases hk
  exact hcl.childNamed_lt hm

theorem Closed.parentWalk_lt (hcl : fs.Closed) {cs : List CStr} {d n : Nat}
    {c : CStr} (hd : d < fs.count) (h : fs.parentWalk cs d = some (n, c)) :
    n < fs.count := by
  induction cs generalizing d with
  | nil => cases h
  | cons b cs ih =>
      unfold parentWalk at h
      split at h
      · cases h
      split at h
      · cases h
        exact hd
      split at h
      · exact ih hd h
      · obtain ⟨next, hnext, h⟩ := Option.bind_eq_some_iff.mp h
        exact ih (hcl.enter_lt hnext) h

end Fs

namespace Tmpfs

variable {s s' : Tmpfs} {p : Nat} {name : CStr} {type : NodeType}

-- ==== what create does

/-- The store with one more reference on a node. -/
def held (s : Tmpfs) (n : Nat) : Tmpfs :=
  { s with fs := s.fs.vnodeHold n, closed := s.closed.vnodeHold n }

theorem held_nodes (s : Tmpfs) (n m : Nat) :
    ((s.held n).fs.nodes m).type = (s.fs.nodes m).type
    ∧ ((s.held n).fs.nodes m).children = (s.fs.nodes m).children
    ∧ ((s.held n).fs.nodes m).name = (s.fs.nodes m).name := by
  by_cases hm : m = n
  · subst hm
    simp [held, Fs.vnodeHold]
  · simp [held, Fs.vnodeHold, Function.update_of_ne hm]

theorem held_tmpfsFindChild (s : Tmpfs) (n d : Nat) (c : CStr) :
    (s.held n).fs.tmpfsFindChild d c = s.fs.tmpfsFindChild d c := by
  unfold Fs.tmpfsFindChild
  simp only [(s.held_nodes n _).2.1, (s.held_nodes n _).2.2]

/-- Holding the parent around `tmpfs_create` leaves no trace. -/
theorem Added.released (a : Added (s.held p) s' p name type) :
    Added s (s'.vnodeRelease p) p name type := by
  have hlt : p < s.fs.count := a.lt
  have hnew := a.new
  have hpar := a.parent
  have hother := a.other
  refine ⟨a.lt, a.count, a.vfsroot, a.superCount, ?_, ?_, ?_, a.vfs, a.data,
    a.size, a.inode, a.file, a.super, a.supers⟩
  · rw [← hnew]
    simp [Tmpfs.vnodeRelease, Fs.vnodeRelease, Fs.modNode,
      Function.update_of_ne (Nat.ne_of_gt hlt), held, Fs.vnodeHold]
  · simp [Tmpfs.vnodeRelease, Fs.vnodeRelease, Fs.modNode, hpar, held,
      Fs.vnodeHold]
  · intro n hn hnp
    have := hother n hn hnp
    simpa [Tmpfs.vnodeRelease, Fs.vnodeRelease, Fs.modNode,
      Function.update_of_ne hnp, held, Fs.vnodeHold] using this

/-- What a successful `vfs_create` has done. -/
theorem vfsCreate_added {ref : Nat} {path : CStr} {attr : Option Mode}
    {mode : Mode} {ok : Bool} {node : Nat} (href : ref < s.fs.count)
    (h : s.vfsCreate (some ref) (some path) attr mode ok = .ok (s', node)) :
    ∃ top p name type, s.fs.startNode (some ref) path = some top
      ∧ top < s.fs.count
      ∧ s.fs.parentWalk (components path) top = some (p, name)
      ∧ s.fs.tmpfsFindChild p name = none
      ∧ (s.fs.nodes p).type = .dir ∧ nodeType mode = some type
      ∧ node = s.fs.count ∧ Added s s' p name type := by
  simp only [vfsCreate, Option.isNone_some, Bool.false_eq_true, or_self,
    if_false] at h
  have hpath := s.fs.vfsLookup_parent (some ref) path
  unfold Tmpfs.vfsLookup at h
  cases hl : s.fs.vfsLookup (some ref) (some path) VFS_LOOKUP_PARENT with
  | error rc =>
      rw [hl] at h
      cases h
  | ok r =>
      obtain ⟨fs1, n, last⟩ := r
      rw [hl] at h hpath
      cases last with
      | none => cases h
      | some name =>
          obtain ⟨top, htop, hwalk⟩ := Option.bind_eq_some_iff.mp hpath.symm
          have htlt := s.closed.startNode_lt (fun m hm => by cases hm; exact href) htop
          split at hwalk
          · cases hwalk
          · obtain ⟨⟨q, c⟩, hparent, he⟩ := Option.map_eq_some_iff.mp hwalk
            obtain ⟨rfl, rfl⟩ : q = n ∧ c = name := by
              cases he
              exact ⟨rfl, rfl⟩
            have hplt := s.closed.parentWalk_lt htlt hparent
            simp only at h
            split at h
            · cases h
            rename_i s2 m hcreate
            cases h
            obtain ⟨p', nm, ty, md, hp', hnm, -, hty, hdir, -, hfind, rfl, rfl⟩ :=
              tmpfsCreate_cases hcreate
            cases hp'
            cases hnm
            have a := added_addChild (s := s.held q) hplt c ty md
            refine ⟨top, q, c, ty, htop, htlt, hparent, ?_, ?_, hty, rfl, a.released⟩
            · rw [← s.held_tmpfsFindChild q]
              exact hfind
            · rw [← (s.held_nodes q q).1]
              exact hdir

-- ==== lookups after create

theorem followLoop_congr {fs fs' : Fs}
    (h : ∀ n, n < fs.count → (fs'.nodes n).mounted = (fs.nodes n).mounted)
    {fuel fuel' n : Nat} (hn : n < fs.count) (hf : fs.count ≤ n + fuel)
    (hf' : fs.count ≤ n + fuel') :
    fs'.followLoop fuel' n = fs.followLoop fuel n := by
  induction fuel generalizing fuel' n with
  | zero => omega
  | succ fuel ih =>
      cases fuel' with
      | zero => omega
      | succ fuel' =>
          unfold Fs.followLoop
          rw [h n hn]
          cases hm : (fs.nodes n).mounted with
          | none => rfl
          | some r =>
              have := fs.mount_lt n r hm
              exact ih this.2 (by omega) (by omega)

/-- Mounts are where they were; the fuel is enough before and after. -/
theorem Added.follow (a : Added s s' p name type) {node : Option Nat}
    (hlt : ∀ n, node = some n → n < s.fs.count) :
    s'.fs.vfsFollowMounts node = s.fs.vfsFollowMounts node := by
  cases node with
  | none => rfl
  | some n =>
      refine congrArg some (followLoop_congr (fun m hm => ?_) (hlt n rfl)
        (by omega) (by rw [a.count]; omega))
      by_cases hmp : m = p
      · rw [hmp, a.parent]
      · rw [a.other m (Nat.ne_of_lt hm) hmp]

theorem Added.startNode (a : Added s s' p name type) {start : Option Nat}
    (path : CStr) (hlt : ∀ n, start = some n → n < s.fs.count) :
    s'.fs.startNode start path = s.fs.startNode start path := by
  unfold Fs.startNode
  rw [a.vfsroot]
  refine a.follow fun n hn => ?_
  split at hn
  · exact s.closed.root n hn
  · exact hlt n hn

/-- An old directory has its old children. -/
theorem Added.find_old (a : Added s s' p name type) (d : Nat) (c : CStr) :
    (s.fs.nodes d).children.find? (fun m => (s'.fs.nodes m).name = c)
      = (s.fs.nodes d).children.find? fun m => (s.fs.nodes m).name = c := by
  refine List.find?_congr fun m hm => ?_
  rw [(a.old (s.closed.child d m hm)).2.2]

/-- And `p` has the new one. -/
theorem Added.childNamed (a : Added s s' p name type) {d : Nat}
    (hd : d < s.fs.count) (c : CStr) :
    s'.fs.childNamed d c
      = if d = p ∧ c = name ∧ (s.fs.nodes p).type = .dir then some s.fs.count
        else s.fs.childNamed d c := by
  unfold Fs.childNamed
  rw [(a.old hd).1]
  by_cases hdp : d = p
  · subst hdp
    rw [a.parent]
    by_cases ht : (s.fs.nodes d).type = .dir
    · rw [if_pos ht, if_pos ht]
      by_cases hc : c = name
      · rw [if_pos ⟨rfl, hc, ht⟩, List.find?_cons_of_pos (by rw [a.new]; simp [hc])]
      · rw [if_neg fun h => hc h.2.1,
          List.find?_cons_of_neg (by rw [a.new]; simpa using Ne.symm hc)]
        exact a.find_old d c
    · rw [if_neg ht, if_neg ht, if_neg fun h => ht h.2.2]
  · rw [if_neg (c := d = p ∧ _) fun h => hdp h.1, a.other d (Nat.ne_of_lt hd) hdp,
      a.find_old d c]

/-- The lookup of the new name. -/
theorem Added.enter_new (a : Added s s' p name type)
    (hdir : (s.fs.nodes p).type = .dir) :
    s'.fs.enter p name = some s.fs.count := by
  unfold Fs.enter
  rw [a.childNamed a.lt, if_pos ⟨rfl, rfl, hdir⟩, Option.bind_some]
  show some (s'.fs.followLoop s'.fs.count s.fs.count) = _
  rw [a.count]
  unfold Fs.followLoop
  rw [a.new]

/-- The lookup of a name that was there. -/
theorem Added.enter_old (a : Added s s' p name type)
    (hfind : s.fs.tmpfsFindChild p name = none) {d n : Nat} {c : CStr}
    (hd : d < s.fs.count) (h : s.fs.enter d c = some n) :
    s'.fs.enter d c = some n := by
  obtain ⟨m, hm, hf⟩ := Option.bind_eq_some_iff.mp h
  have hchild : s'.fs.childNamed d c = some m := by
    rw [a.childNamed hd, if_neg ?_, hm]
    rintro ⟨rfl, rfl, hdir⟩
    rw [Fs.childNamed, if_pos hdir] at hm
    rw [Fs.tmpfsFindChild, hm] at hfind
    cases hfind
  have hmlt := s.closed.childNamed_lt hm
  unfold Fs.enter
  rw [hchild, Option.bind_some, a.follow (fun k hk => by cases hk; exact hmlt)]
  exact hf

/-- A walk that succeeded still does. -/
theorem Added.codeWalk (a : Added s s' p name type)
    (hfind : s.fs.tmpfsFindChild p name = none) {cs : List CStr} {d n : Nat}
    (hd : d < s.fs.count) (h : s.fs.codeWalk cs d = some n) :
    s'.fs.codeWalk cs d = some n := by
  induction cs generalizing d with
  | nil => cases h
  | cons c cs ih =>
      unfold Fs.codeWalk at h ⊢
      split
      · rw [if_pos ‹_›] at h
        cases h
      rw [if_neg ‹_›] at h
      split
      · rw [if_pos ‹_›] at h
        exact ih hd h
      rw [if_neg ‹_›] at h
      obtain ⟨next, hnext, h⟩ := Option.bind_eq_some_iff.mp h
      rw [a.enter_old hfind hd hnext, Option.bind_some]
      split
      · rw [if_pos ‹_›] at h
        exact h
      · rw [if_neg ‹_›] at h
        exact ih (s.closed.enter_lt hnext) h

/-- The walk of the path itself comes to the new node. -/
theorem Added.codeWalk_new (a : Added s s' p name type)
    (hfind : s.fs.tmpfsFindChild p name = none)
    (hdir : (s.fs.nodes p).type = .dir) {cs : List CStr} {d : Nat}
    (hd : d < s.fs.count) (h : s.fs.parentWalk cs d = some (p, name))
    (hdot : ¬ Fs.DotEnd cs) : s'.fs.codeWalk cs d = some s.fs.count := by
  induction cs generalizing d with
  | nil => cases h
  | cons c cs ih =>
      unfold Fs.parentWalk at h
      unfold Fs.codeWalk
      split at h
      · cases h
      rename_i hlen
      rw [if_neg hlen]
      by_cases hnil : cs = []
      · subst hnil
        cases h
        have hc : ¬ Dotted name := fun hc => hdot ⟨name, rfl, hc⟩
        rw [if_neg hc, a.enter_new hdir]
        rfl
      · rw [if_neg hnil] at h
        have hdot' : ¬ Fs.DotEnd cs := by
          unfold Fs.DotEnd at hdot ⊢
          rwa [List.getLast?_cons_of_ne_nil hnil] at hdot
        split at h
        · rw [if_pos ‹_›]
          exact ih hd h hdot'
        · obtain ⟨next, hnext, h⟩ := Option.bind_eq_some_iff.mp h
          rw [if_neg ‹_›, a.enter_old hfind hd hnext, Option.bind_some, if_neg hnil]
          exact ih (s.closed.enter_lt hnext) h hdot'

-- ==== create and lookup

/-- The vnode a lookup comes to. -/
def found (s : Tmpfs) (start : Option Nat) (path : CStr) : Option Nat :=
  (s.vfsLookup start (some path) 0#32).toOption.map fun r => r.2.node

theorem found_eq (s : Tmpfs) (start : Option Nat) (path : CStr) :
    s.found start path = (s.fs.startNode start path).bind fun current =>
      if components path = [] then some current
      else s.fs.codeWalk (components path) current := by
  unfold Fs.startNode
  rw [← s.fs.vfsLookup_eq start path (by decide : 0#32 &&& VFS_LOOKUP_PARENT = 0)]
  unfold found Tmpfs.vfsLookup
  cases s.fs.vfsLookup start (some path) 0#32 with
  | error rc => rfl
  | ok r => rfl

/-- Paths that resolved still do, to the same vnode. -/
theorem Added.found (a : Added s s' p name type)
    (hfind : s.fs.tmpfsFindChild p name = none) {start : Option Nat}
    {path : CStr} {n : Nat} (hlt : ∀ m, start = some m → m < s.fs.count)
    (h : s.found start path = some n) : s'.found start path = some n := by
  rw [found_eq] at h ⊢
  obtain ⟨top, htop, h⟩ := Option.bind_eq_some_iff.mp h
  rw [a.startNode path hlt, htop, Option.bind_some]
  split
  · rw [if_pos ‹_›] at h
    exact h
  · rw [if_neg ‹_›] at h
    exact a.codeWalk hfind (s.closed.startNode_lt hlt htop) h

/-- A walk that ends in a dotted component fails. -/
theorem found_dotEnd {start : Option Nat} {path : CStr}
    (hdot : Fs.DotEnd (components path)) : s.found start path = none := by
  have hne : components path ≠ [] := by
    intro e
    rw [e] at hdot
    obtain ⟨c, hc, -⟩ := hdot
    cases hc
  rw [found_eq]
  cases s.fs.startNode start path with
  | none => rfl
  | some top =>
      rw [Option.bind_some, if_neg hne]
      by_cases hl : Fs.Long (components path)
      · exact s.fs.codeWalk_long hl top
      · exact (s.fs.codeWalk_eq hne hl top).1 hdot

/-- After a successful `vfs_create`, the path leads to the new node and
every path that resolved before to the vnode it resolved to, exactly when
the last component of the path has no leading dot. -/
theorem create_then_lookup_iff {ref : Nat} {path : CStr} {attr : Option Mode}
    {mode : Mode} {ok : Bool} {node : Nat} (href : ref < s.fs.count)
    (h : s.vfsCreate (some ref) (some path) attr mode ok = .ok (s', node)) :
    (s'.found (some ref) path = some node
      ∧ ∀ start other n, (∀ m, start = some m → m < s.fs.count) →
        s.found start other = some n → s'.found start other = some n)
      ↔ ¬ Fs.DotEnd (components path) := by
  obtain ⟨top, p, name, type, htop, htlt, hwalk, hfind, hdir, -, rfl, a⟩ :=
    vfsCreate_added href h
  constructor
  · rintro ⟨hnew, -⟩ hdot
    rw [found_dotEnd hdot] at hnew
    cases hnew
  · intro hdot
    refine ⟨?_, fun start other n hlt hf => a.found hfind hlt hf⟩
    have hne : components path ≠ [] := by
      intro e
      rw [e] at hwalk
      cases hwalk
    rw [found_eq, a.startNode path (fun m hm => by cases hm; exact href), htop,
      Option.bind_some, if_neg hne]
    exact a.codeWalk_new hfind hdir htlt hwalk hdot

/-- A file `a` in a fresh root. -/
theorem create_then_lookup_file :
    ∃ s s' : Tmpfs, ∃ node, empty.tmpfsMount true = some s ∧ 0 < s.fs.count
      ∧ s.vfsCreate (some 0) (some [97]) none S_IFREG true = .ok (s', node)
      ∧ s'.found (some 0) [97] = some node := by
  obtain ⟨s, hs, hlt, s', node, hc⟩ : ∃ s : Tmpfs, empty.tmpfsMount true = some s
      ∧ 0 < s.fs.count ∧ ∃ s' node,
        s.vfsCreate (some 0) (some [97]) none S_IFREG true = .ok (s', node) :=
    ⟨_, rfl, Nat.zero_lt_succ 0, _, _, rfl⟩
  have hdot : ¬ Fs.DotEnd (components [97]) := by
    rintro ⟨c, hc, hd⟩
    rw [show components [97] = [[97]] by decide +kernel] at hc
    cases hc
    cases hd
  exact ⟨s, s', node, hs, hlt, hc, ((create_then_lookup_iff hlt hc).mpr hdot).1⟩

/-- `vfs_create` makes a file `.a` there, and no lookup finds it. -/
theorem create_dotted_lost :
    ∃ s s' : Tmpfs, ∃ node, empty.tmpfsMount true = some s
      ∧ s.vfsCreate (some 0) (some [DOT, 97]) none S_IFREG true = .ok (s', node)
      ∧ s'.found (some 0) [DOT, 97] ≠ some node := by
  refine ⟨_, _, _, rfl, rfl, ?_⟩
  decide +kernel

end Tmpfs

end Alix
