/-
`vfs_lookup` against path resolution by components.

# Two resolutions

`resolve` is what a path means: split it at runs of slashes, start at
`vfsroot` or at the given vnode, stay for ".", fail for "..", and enter
the child of exactly that name for every other component.

`vfs_lookup` compares a component with "." over the length of the
literal, so every component that begins with a dot passes for ".":
`codeWalk` is its loop in terms of components (`lookupLoop_eq`). Dotted
components are skipped, whatever follows the dot, the test for ".." is
never reached, and since a skipped component goes back to the head of
the loop without the test for the end of the path, a path that ends in
one runs into the check for an empty component and fails.

# Where they agree

`lookup_agrees_iff` says for which paths the two agree on every tree. The
hard direction needs, for every other path, a tree that tells them apart:
a chain of directories named like the components (`chain`).

# Slashes

The loop sees a path through its components alone, so in every mode two
paths with the same ones have the same result (`vfsLookup_slashes`).
-/
import Mathlib.Data.List.GetD
import Alix.Fs.Vfs
import Alix.Lib.Words

namespace Alix

open Words

-- ==== reference resolution

/-- The components of a path. -/
def components (path : CStr) : List CStr := words SLASH path

namespace Fs

/-- The child of a directory with a given name. -/
def childNamed (fs : Fs) (dir : Nat) (name : CStr) : Option Nat :=
  if (fs.nodes dir).type = .dir then
    (fs.nodes dir).children.find? fun child => (fs.nodes child).name = name
  else none

/-- Entering a child and the file systems mounted on it. -/
def enter (fs : Fs) (dir : Nat) (name : CStr) : Option Nat :=
  (fs.childNamed dir name).bind fun child => fs.vfsFollowMounts (some child)

/-- One component of a reference resolution. -/
def resolveStep (fs : Fs) (current : Nat) (component : CStr) : Option Nat :=
  if component = [DOT] then some current
  else if component = [DOT, DOT] then none
  else fs.enter current component

/-- Reference resolution: the vnode a path names, if every step succeeds
and no component is longer than 255 bytes. -/
def resolve (fs : Fs) (start : Option Nat) (path : CStr) : Option Nat := do
  let current ← fs.vfsFollowMounts
    (if vfsIsAbsolutePath path then fs.vfsroot else start)
  if ∃ c ∈ components path, 255 < c.length then none
  else (components path).foldlM fs.resolveStep current

/-- `vfs_lookup` succeeds exactly when the reference resolution does, and
with its vnode. -/
def LookupAgrees (fs : Fs) (start : Option Nat) (path : CStr)
    (flags : BitVec 32) : Prop :=
  (fs.vfsLookup start (some path) flags).toOption.map (fun r => r.2.node)
    = fs.resolve start path

end Fs

-- ==== mounts

/-- Enough fuel follows mounts to the end. -/
theorem Fs.followLoop_unmounted (fs : Fs) (fuel n : Nat)
    (h : fs.count ≤ n + fuel) :
    (fs.nodes (fs.followLoop fuel n)).mounted = none := by
  induction fuel generalizing n with
  | zero =>
      cases hm : (fs.nodes n).mounted with
      | none => exact hm
      | some r =>
          have := fs.mount_lt n r hm
          omega
  | succ fuel ih =>
      unfold Fs.followLoop
      cases hm : (fs.nodes n).mounted with
      | none => exact hm
      | some r =>
          have := fs.mount_lt n r hm
          exact ih r (by omega)

/-- `vfs_follow_mounts` ends on a vnode that nothing is mounted on. -/
theorem Fs.followMounts_unmounted (fs : Fs) {node : Option Nat} {n : Nat}
    (h : fs.vfsFollowMounts node = some n) :
    (fs.nodes n).mounted = none := by
  obtain ⟨m, -, rfl⟩ := Option.map_eq_some_iff.mp h
  exact fs.followLoop_unmounted fs.count m (by omega)

-- ==== scanning

theorem vfsComponentLength_eq (path : CStr) :
    vfsComponentLength path
      = (path.takeWhile fun c => !(c == SLASH)).length := by
  induction path with
  | nil => rfl
  | cons c path ih =>
      unfold vfsComponentLength
      by_cases hc : c = SLASH
      · simp [hc]
      · simp [hc, ih]

theorem vfsSkipSlashes_eq (path : CStr) :
    vfsSkipSlashes path = path.dropWhile fun c => c == SLASH := by
  induction path with
  | nil => rfl
  | cons c path ih =>
      unfold vfsSkipSlashes
      by_cases hc : c = SLASH
      · simp [hc, ih]
      · simp [hc]

theorem components_skipSlashes (path : CStr) :
    components (vfsSkipSlashes path) = components path := by
  rw [vfsSkipSlashes_eq]
  exact words_dropWhile SLASH path

theorem length_skipSlashes (path : CStr) :
    (vfsSkipSlashes path).length ≤ path.length := by
  rw [vfsSkipSlashes_eq]
  exact (List.dropWhile_suffix _).length_le

/-- A cursor that has skipped its slashes. -/
def Skipped (cursor : CStr) : Prop := ∀ c ∈ cursor.head?, c ≠ SLASH

theorem skipped_skipSlashes (path : CStr) : Skipped (vfsSkipSlashes path) := by
  intro c hc
  rw [vfsSkipSlashes_eq] at hc
  have := List.head?_dropWhile_not (fun c => c == SLASH) path
  rw [hc] at this
  simpa using this

theorem components_eq_nil {cursor : CStr} (h : Skipped cursor) :
    components cursor = [] ↔ cursor = [] := by
  constructor
  · intro hc
    cases cursor with
    | nil => rfl
    | cons c cursor =>
        have hne : c ≠ SLASH := h c (by simp)
        unfold components at hc
        rw [words_scan SLASH (by simp [hne])] at hc
        cases hc
  · intro hc
    rw [hc]
    exact words_nil SLASH

/-- One round of scanning: the first component, the cursor behind it, and
a cursor that got shorter. -/
theorem scan_component {cursor : CStr} (hs : Skipped cursor)
    (hne : cursor ≠ []) :
    vfsComponentLength cursor ≠ 0
      ∧ components cursor = cursor.take (vfsComponentLength cursor)
        :: components (vfsSkipSlashes
            (cursor.drop (vfsComponentLength cursor)))
      ∧ (vfsSkipSlashes (cursor.drop (vfsComponentLength cursor))).length
        < cursor.length := by
  have htake : cursor.take (vfsComponentLength cursor)
      = cursor.takeWhile fun c => !(c == SLASH) := by
    rw [vfsComponentLength_eq]
    exact (List.prefix_iff_eq_take.mp (List.takeWhile_prefix _)).symm
  have hdrop : cursor.drop (vfsComponentLength cursor)
      = cursor.dropWhile fun c => !(c == SLASH) := by
    rw [vfsComponentLength_eq]
    nth_rewrite 2 [← List.takeWhile_append_dropWhile
      (p := fun c => !(c == SLASH)) (l := cursor)]
    exact List.drop_left
  have hword : cursor.takeWhile (fun c => !(c == SLASH)) ≠ [] := by
    cases cursor with
    | nil => exact (hne rfl).elim
    | cons c cursor => simp [hs c (by simp)]
  have hlen : vfsComponentLength cursor ≠ 0 := by
    rw [vfsComponentLength_eq]
    exact fun h => hword (List.length_eq_zero_iff.mp h)
  refine ⟨hlen, ?_, ?_⟩
  · rw [components_skipSlashes, htake, hdrop]
    exact words_scan SLASH hword
  · refine Nat.lt_of_le_of_lt (length_skipSlashes _) ?_
    rw [List.length_drop]
    have := List.length_pos_of_ne_nil hne
    omega

/-- The component is as long as it was measured. -/
theorem take_component {cursor : CStr} (h : vfsComponentLength cursor ≠ 0) :
    (cursor.take (vfsComponentLength cursor)).length = vfsComponentLength cursor
      ∧ cursor.take (vfsComponentLength cursor) ≠ [] := by
  have hle : vfsComponentLength cursor ≤ cursor.length := by
    rw [vfsComponentLength_eq]
    exact (List.takeWhile_prefix _).length_le
  have hlen : (cursor.take (vfsComponentLength cursor)).length
      = vfsComponentLength cursor := by
    rw [List.length_take]
    omega
  refine ⟨hlen, fun e => h ?_⟩
  rw [← hlen, e]
  rfl

-- ==== the loop, by components

/-- Components that the test for "." takes. -/
def Dotted (c : CStr) : Prop := c.head? = some DOT

instance (c : CStr) : Decidable (Dotted c) :=
  inferInstanceAs (Decidable (c.head? = some DOT))

/-- The components the code enters. -/
def undotted (c : CStr) : Bool := !decide (Dotted c)

/-- The components the reference enters. -/
def named (c : CStr) : Bool := !decide (c = [DOT])

theorem undotted_iff {c : CStr} : undotted c = true ↔ ¬ Dotted c := by
  simp [undotted]

theorem named_iff {c : CStr} : named c = true ↔ c ≠ [DOT] := by
  simp [named]

/-- The test for "." looks at one byte. -/
theorem componentEqual_dot {c : CStr} (hne : c ≠ []) :
    vfsComponentEqual c [DOT] 1 = decide (Dotted c) := by
  cases c with
  | nil => exact (hne rfl).elim
  | cons b c =>
      unfold vfsComponentEqual Dotted
      rw [Bool.eq_iff_iff]
      simp

/-- So the test for ".." never passes behind it. -/
theorem componentEqual_dotdot {c : CStr} (hne : c ≠ []) (hd : ¬ Dotted c) :
    vfsComponentEqual c [DOT, DOT] 2 = false := by
  cases c with
  | nil => exact (hne rfl).elim
  | cons b c =>
      have hb : b ≠ DOT := fun e => hd (by rw [e]; rfl)
      unfold vfsComponentEqual
      simp [hb]

namespace Fs

variable (fs : Fs)

/-- `tmpfs_lookup` and mounts, for a component without a leading dot. -/
theorem tmpfsLookup_eq {c : CStr} (hd : ¬ Dotted c) (n : Nat) :
    ((fs.tmpfsLookup n c).toOption.bind fun m => fs.vfsFollowMounts (some m))
      = fs.enter n c := by
  have h1 : c ≠ [46] := fun e => hd (by rw [e]; rfl)
  have h2 : c ≠ [46, 46] := fun e => hd (by rw [e]; rfl)
  unfold tmpfsLookup enter childNamed tmpfsFindChild
  rw [if_neg h1, if_neg h2]
  by_cases ht : (fs.nodes n).type = .dir
  · rw [if_neg (not_not.mpr ht), if_pos ht]
    cases (fs.nodes n).children.find? fun m => (fs.nodes m).name = c with
    | none => rfl
    | some m => rfl
  · rw [if_pos ht, if_neg ht]
    rfl

/-- One round of the loop of `vfs_lookup`: it takes one component off the path
and stops there, stays where it is or goes down. -/
theorem lookupLoop_round {cursor : CStr} (hs : Skipped cursor) (hne : cursor ≠ []) :
    ∃ c rest, components cursor = c :: components rest ∧ Skipped rest
      ∧ rest.length < cursor.length
      ∧ ∀ flags fuel current, (fs.lookupLoop flags (fuel + 1) current cursor).toOption
        = if 255 < c.length then none
          else if flags &&& VFS_LOOKUP_PARENT ≠ 0 ∧ components rest = [] then
            some ⟨current, some c⟩
          else if Dotted c then (fs.lookupLoop flags fuel current rest).toOption
          else (fs.enter current c).bind fun next =>
            if components rest = [] then some ⟨next, none⟩
            else (fs.lookupLoop flags fuel next rest).toOption := by
  obtain ⟨hlen, hcomp, hshort⟩ := scan_component hs hne
  obtain ⟨hclen, hcne⟩ := take_component hlen
  have hskip := skipped_skipSlashes (cursor.drop (vfsComponentLength cursor))
  have hempty := components_eq_nil hskip
  refine ⟨_, _, hcomp, hskip, hshort, fun flags fuel current => ?_⟩
  rw [lookupLoop]
  simp only [hlen, false_or, hclen, hempty]
  by_cases hlong : 256 ≤ vfsComponentLength cursor
  · rw [if_pos hlong, if_pos (show 255 < vfsComponentLength cursor by omega)]
    rfl
  rw [if_neg hlong, if_neg (show ¬ 255 < vfsComponentLength cursor by omega)]
  generalize cursor.take (vfsComponentLength cursor) = c at hcne
  generalize vfsSkipSlashes (cursor.drop (vfsComponentLength cursor)) = rest
  by_cases hlast : flags &&& VFS_LOOKUP_PARENT ≠ 0 ∧ rest = []
  · rw [if_pos hlast, if_pos hlast]
    rfl
  rw [if_neg hlast, if_neg hlast, componentEqual_dot hcne]
  by_cases hd : Dotted c
  · rw [if_pos (decide_eq_true hd), if_pos hd]
  rw [if_neg (by simpa using hd), if_neg hd, componentEqual_dotdot hcne hd,
    ← tmpfsLookup_eq fs hd]
  cases fs.tmpfsLookup current c with
  | error rc => rfl
  | ok next =>
      show Except.toOption (if rest = [] then _ else _) = if rest = [] then _ else _
      split
      · rfl
      · rfl

/-- The loop of `vfs_lookup` without `VFS_LOOKUP_PARENT`, over the
components that are left. -/
def codeWalk : List CStr → Nat → Option Nat
  | [], _ => none
  | c :: cs, current =>
      if 255 < c.length then none
      else if Dotted c then codeWalk cs current
      else (fs.enter current c).bind fun next =>
        if cs = [] then some next else codeWalk cs next

theorem lookupLoop_eq {flags : BitVec 32} (hf : flags &&& VFS_LOOKUP_PARENT = 0)
    (fuel : Nat) (current : Nat) (cursor : CStr) (hs : Skipped cursor)
    (hfuel : cursor.length < fuel) :
    (fs.lookupLoop flags fuel current cursor).toOption.map Found.node
      = fs.codeWalk (components cursor) current := by
  induction fuel generalizing current cursor with
  | zero => omega
  | succ fuel ih =>
      by_cases hne : cursor = []
      · subst hne
        rfl
      obtain ⟨c, rest, hcomp, hskip, hshort, hround⟩ := fs.lookupLoop_round hs hne
      rw [hround, hcomp]
      unfold codeWalk
      simp only [hf, ne_eq, not_true_eq_false, false_and, if_false]
      by_cases hlong : 255 < c.length
      · rw [if_pos hlong, if_pos hlong]
        rfl
      rw [if_neg hlong, if_neg hlong]
      by_cases hd : Dotted c
      · rw [if_pos hd, if_pos hd]
        exact ih current rest hskip (by omega)
      rw [if_neg hd, if_neg hd]
      cases fs.enter current c with
      | none => rfl
      | some next =>
          show Option.map Found.node (if components rest = [] then _ else _)
            = if components rest = [] then _ else _
          by_cases hr : components rest = []
          · rw [if_pos hr, if_pos hr]
            rfl
          · rw [if_neg hr, if_neg hr]
            exact ih next rest hskip (by omega)

/-- What `vfs_lookup` finds: where the path starts, or what the loop finds. -/
theorem vfsLookup_loop (start : Option Nat) (path : CStr) (flags : BitVec 32) :
    (fs.vfsLookup start (some path) flags).toOption.map Prod.snd
      = (fs.vfsFollowMounts
          (if vfsIsAbsolutePath path then fs.vfsroot else start)).bind
          fun current =>
            if components path = [] then some ⟨current, none⟩
            else (fs.lookupLoop flags ((vfsSkipSlashes path).length + 1) current
              (vfsSkipSlashes path)).toOption := by
  have hempty := components_eq_nil (skipped_skipSlashes path)
  rw [components_skipSlashes] at hempty
  unfold vfsLookup
  simp only [hempty]
  cases fs.vfsFollowMounts
      (if vfsIsAbsolutePath path then fs.vfsroot else start) with
  | none => rfl
  | some current =>
      show _ = if vfsSkipSlashes path = [] then _ else _
      by_cases hc : vfsSkipSlashes path = []
      · simp only [hc, if_true]
        rfl
      · simp only [hc, if_false]
        cases fs.lookupLoop flags ((vfsSkipSlashes path).length + 1) current
          (vfsSkipSlashes path) with
        | error rc => rfl
        | ok found => rfl

/-- `vfs_lookup` by components. -/
theorem vfsLookup_eq (start : Option Nat) (path : CStr) {flags : BitVec 32}
    (hf : flags &&& VFS_LOOKUP_PARENT = 0) :
    (fs.vfsLookup start (some path) flags).toOption.map (fun r => r.2.node)
      = (fs.vfsFollowMounts
          (if vfsIsAbsolutePath path then fs.vfsroot else start)).bind
          fun current =>
            if components path = [] then some current
            else fs.codeWalk (components path) current := by
  have hnode : (fs.vfsLookup start (some path) flags).toOption.map (fun r => r.2.node)
      = ((fs.vfsLookup start (some path) flags).toOption.map Prod.snd).map Found.node := by
    rw [Option.map_map]
    rfl
  rw [hnode, vfsLookup_loop, Option.map_bind]
  refine Option.bind_congr fun current _ => ?_
  have hloop := fs.lookupLoop_eq hf _ current _ (skipped_skipSlashes path) (Nat.lt_succ_self _)
  rw [components_skipSlashes] at hloop
  rw [← hloop]
  exact apply_ite _ _ _ _

-- ==== both as one walk

/-- Some component does not fit the buffer. -/
def Long (cs : List CStr) : Prop := ∃ c ∈ cs, 255 < c.length

instance (cs : List CStr) : Decidable (Long cs) :=
  inferInstanceAs (Decidable (∃ c ∈ cs, 255 < c.length))

/-- The last component begins with a dot. -/
def DotEnd (cs : List CStr) : Prop := ∃ c ∈ cs.getLast?, Dotted c

/-- What the code does: enter every component without a leading dot, and
fail if the last one has one. -/
theorem codeWalk_eq {cs : List CStr} (hne : cs ≠ []) (hl : ¬ Long cs)
    (current : Nat) :
    (DotEnd cs → fs.codeWalk cs current = none)
      ∧ (¬ DotEnd cs → fs.codeWalk cs current
          = (cs.filter undotted).foldlM fs.enter current) := by
  induction cs generalizing current with
  | nil => exact (hne rfl).elim
  | cons c cs ih =>
      have hc : ¬ 255 < c.length := fun h => hl ⟨c, List.mem_cons_self, h⟩
      have hcs : ¬ Long cs := by
        intro h
        obtain ⟨d, hd, hlen⟩ := h
        exact hl ⟨d, List.mem_cons_of_mem _ hd, hlen⟩
      unfold codeWalk
      rw [if_neg hc]
      by_cases hnil : cs = []
      · subst hnil
        by_cases hd : Dotted c
        · rw [if_pos hd]
          exact ⟨fun _ => rfl, fun h => (h ⟨c, rfl, hd⟩).elim⟩
        · rw [if_neg hd]
          refine ⟨fun h => ?_, fun _ => ?_⟩
          · obtain ⟨d, hd', hdot⟩ := h
            cases hd'
            exact (hd hdot).elim
          · simp [undotted_iff.mpr hd]
      · have hlast : DotEnd (c :: cs) ↔ DotEnd cs := by
          unfold DotEnd
          rw [List.getLast?_cons_of_ne_nil hnil]
        rw [hlast]
        by_cases hd : Dotted c
        · rw [if_pos hd, List.filter_cons_of_neg fun h => undotted_iff.mp h hd]
          exact ih hnil hcs current
        · rw [if_neg hd, List.filter_cons_of_pos (undotted_iff.mpr hd),
            List.foldlM_cons]
          cases henter : fs.enter current c with
          | none => exact ⟨fun _ => rfl, fun _ => rfl⟩
          | some next =>
              obtain ⟨h1, h2⟩ := ih hnil hcs next
              refine ⟨fun h => ?_, fun h => ?_⟩
              · rw [Option.bind_some, if_neg hnil, h1 h]
              · rw [Option.bind_some, if_neg hnil, h2 h]
                rfl

theorem codeWalk_long {cs : List CStr} (hl : Long cs) (current : Nat) :
    fs.codeWalk cs current = none := by
  induction cs generalizing current with
  | nil => rfl
  | cons c cs ih =>
      unfold codeWalk
      by_cases hc : 255 < c.length
      · rw [if_pos hc]
      · have hcs : Long cs := by
          obtain ⟨d, hd, hlen⟩ := hl
          cases hd with
          | head => exact (hc hlen).elim
          | tail _ hd => exact ⟨d, hd, hlen⟩
        have hnil : cs ≠ [] := by
          intro e
          obtain ⟨d, hd, -⟩ := hcs
          rw [e] at hd
          cases hd
        rw [if_neg hc]
        by_cases hd : Dotted c
        · rw [if_pos hd]
          exact ih hcs current
        · rw [if_neg hd]
          cases fs.enter current c with
          | none => rfl
          | some next =>
              rw [Option.bind_some, if_neg hnil]
              exact ih hcs next

/-- What the reference does: fail if ".." occurs, and enter every
component but ".". -/
theorem resolveFold_eq (cs : List CStr) (current : Nat) :
    cs.foldlM fs.resolveStep current
      = if [DOT, DOT] ∈ cs then none
        else (cs.filter named).foldlM fs.enter current := by
  induction cs generalizing current with
  | nil => rfl
  | cons c cs ih =>
      rw [List.foldlM_cons]
      unfold resolveStep
      by_cases h1 : c = [DOT]
      · subst h1
        rw [if_pos rfl, List.filter_cons_of_neg (by simp [named])]
        show List.foldlM fs.resolveStep current cs = _
        rw [ih current]
        simp
      · rw [if_neg h1]
        by_cases h2 : c = [DOT, DOT]
        · subst h2
          rw [if_pos rfl, if_pos List.mem_cons_self]
          rfl
        · rw [if_neg h2, List.filter_cons_of_pos (named_iff.mpr h1),
            List.foldlM_cons]
          have hmem : [DOT, DOT] ∈ c :: cs ↔ [DOT, DOT] ∈ cs := by
            simp [Ne.symm h2]
          simp only [hmem]
          cases fs.enter current c with
          | none => simp
          | some next => exact ih next

end Fs

-- ==== the paths that come out

/-- The paths on which the loop of `vfs_lookup` does what the components
say: a component is too long for both; or both fail, the code on a final
dotted component and the reference on ".."; or every component with a
leading dot is ".", and it is not the last. -/
def Plain (path : CStr) : Prop :=
  Fs.Long (components path)
    ∨ ([DOT, DOT] ∈ components path ∧ Fs.DotEnd (components path))
    ∨ ((∀ c ∈ components path, Dotted c → c = [DOT])
        ∧ ¬ Fs.DotEnd (components path))

/-- The root of a chain of directories, each with the next one in it. -/
def chain (names : List CStr) : Fs where
  nodes := fun n =>
    { type := .dir
      mounted := none
      refcount := 1
      parent := if n = 0 then none else some (n - 1)
      children := if n < names.length then [n + 1] else []
      name := if n = 0 then [] else names.getD (n - 1) [] }
  count := names.length + 1
  vfsroot := some 0
  mount_lt := by
    intro n r h
    cases h

theorem chain_follow (names : List CStr) (n : Nat) :
    (chain names).vfsFollowMounts (some n) = some n := rfl

theorem chain_enter (names : List CStr) (n : Nat) (c : CStr) :
    (chain names).enter n c
      = if n < names.length ∧ names.getD n [] = c then some (n + 1)
        else none := by
  unfold Fs.enter Fs.childNamed
  rw [if_pos (show ((chain names).nodes n).type = .dir from rfl)]
  by_cases hn : n < names.length
  · by_cases hc : names.getD n [] = c
    · rw [if_pos ⟨hn, hc⟩]
      rw [List.getD_eq_getElem _ _ hn] at hc
      simp [chain, hn, hc, Fs.vfsFollowMounts, Fs.followLoop]
    · rw [if_neg fun h => hc h.2]
      rw [List.getD_eq_getElem _ _ hn] at hc
      simp [chain, hn, hc]
  · rw [if_neg fun h => hn h.1]
    simp [chain, hn]

/-- The chain resolves its own names to its last directory. -/
theorem chain_walk (done rest : List CStr) :
    rest.foldlM (chain (done ++ rest)).enter done.length
      = some (done.length + rest.length) := by
  induction rest generalizing done with
  | nil => rfl
  | cons c rest ih =>
      have h := ih (done ++ [c])
      rw [List.append_assoc, List.length_append, List.length_singleton] at h
      rw [List.foldlM_cons, chain_enter, if_pos (by simp)]
      show List.foldlM _ (done.length + 1) rest = _
      rw [show done ++ c :: rest = done ++ ([c] ++ rest) from rfl, h,
        List.length_cons]
      congr 1
      omega

/-- And no list of names leads below that. -/
theorem chain_depth (names cs : List CStr) {n m : Nat} (hn : n ≤ names.length)
    (h : cs.foldlM (chain names).enter n = some m) :
    m = n + cs.length ∧ m ≤ names.length := by
  induction cs generalizing n with
  | nil =>
      cases h
      exact ⟨rfl, hn⟩
  | cons c cs ih =>
      rw [List.foldlM_cons, chain_enter] at h
      by_cases hc : n < names.length ∧ names.getD n [] = c
      · rw [if_pos hc] at h
        obtain ⟨h1, h2⟩ := ih hc.1 h
        rw [List.length_cons]
        exact ⟨by omega, h2⟩
      · rw [if_neg hc] at h
        cases h

/-- On a chain both resolutions start at its root. -/
theorem chain_agrees {names : List CStr} {path : CStr} :
    (chain names).LookupAgrees (some 0) path 0
      ↔ (if components path = [] then some 0
          else (chain names).codeWalk (components path) 0)
        = if Fs.Long (components path) then none
          else (components path).foldlM (chain names).resolveStep 0 := by
  have hstart : (if vfsIsAbsolutePath path then (chain names).vfsroot
      else some 0) = some 0 := by
    split <;> rfl
  unfold Fs.LookupAgrees Fs.resolve
  rw [Fs.vfsLookup_eq _ _ _ (by decide), hstart, chain_follow]
  exact Iff.rfl

/-- Dropping the dotted components and dropping "." is the same where the
only dotted component is ".". -/
theorem filter_dotted {cs : List CStr} (h : ∀ c ∈ cs, Dotted c → c = [DOT]) :
    cs.filter undotted = cs.filter named := by
  refine List.filter_congr fun c hc => ?_
  rw [Bool.eq_iff_iff, undotted_iff, named_iff, ne_eq, not_iff_not]
  exact ⟨h c hc, fun e => by rw [e]; rfl⟩

theorem dotted_dotdot : Dotted [DOT, DOT] := rfl

/-- `vfs_lookup` resolves plain paths like the reference. -/
theorem Plain.agrees {path : CStr} (h : Plain path) (fs : Fs)
    (start : Option Nat) {flags : BitVec 32}
    (hf : flags &&& VFS_LOOKUP_PARENT = 0) : fs.LookupAgrees start path flags := by
  unfold Fs.LookupAgrees Fs.resolve
  rw [Fs.vfsLookup_eq _ _ _ hf]
  refine congrArg (Option.bind _) (funext fun current => ?_)
  show _ = if Fs.Long (components path) then none
    else (components path).foldlM fs.resolveStep current
  by_cases hl : Fs.Long (components path)
  · have hne : components path ≠ [] := by
      intro e
      obtain ⟨c, hc, -⟩ := hl
      rw [e] at hc
      cases hc
    rw [if_neg hne, if_pos hl, fs.codeWalk_long hl]
  · rw [if_neg hl, fs.resolveFold_eq]
    by_cases hne : components path = []
    · rw [hne]
      rfl
    · rw [if_neg hne]
      obtain ⟨hend, hwalk⟩ := fs.codeWalk_eq hne hl current
      rcases h with h | ⟨hdd, hde⟩ | ⟨hdot, hde⟩
      · exact (hl h).elim
      · rw [hend hde, if_pos hdd]
      · have hdd : [DOT, DOT] ∉ components path := by
          intro hm
          have := hdot _ hm dotted_dotdot
          cases this
        rw [hwalk hde, if_neg hdd, filter_dotted hdot]

/-- Every other path is told apart by a chain. -/
theorem Plain.of_chains {path : CStr}
    (h : ∀ names, (chain names).LookupAgrees (some 0) path 0) : Plain path := by
  by_cases hl : Fs.Long (components path)
  · exact Or.inl hl
  right
  have hagree := fun names => chain_agrees.mp (h names)
  by_cases hne : components path = []
  · right
    rw [hne]
    refine ⟨fun c hc => (by cases hc), fun hd => ?_⟩
    obtain ⟨c, hc, -⟩ := hd
    cases hc
  simp only [if_neg hl, if_neg hne, Fs.resolveFold_eq] at hagree
  by_cases hde : Fs.DotEnd (components path)
  -- the code fails; a chain of everything but "." lets the reference pass
  · left
    refine ⟨?_, hde⟩
    by_contra hdd
    have heq := hagree ((components path).filter named)
    rw [((chain _).codeWalk_eq hne hl 0).1 hde, if_neg hdd] at heq
    have hwalk := chain_walk [] ((components path).filter named)
    rw [List.nil_append, List.length_nil] at hwalk
    rw [hwalk] at heq
    cases heq
  -- a chain of the undotted components lets the code pass
  · right
    refine ⟨fun c hc hd => ?_, hde⟩
    by_contra hcd
    have heq := hagree ((components path).filter undotted)
    have hwalk := chain_walk [] ((components path).filter undotted)
    rw [List.nil_append, List.length_nil, Nat.zero_add] at hwalk
    rw [((chain _).codeWalk_eq hne hl 0).2 hde, hwalk] at heq
    split at heq
    case isTrue => cases heq
    case isFalse =>
      -- the reference has `c` to enter as well, and the chain is too short
      obtain ⟨hlen, -⟩ := chain_depth _ _ (Nat.zero_le _) heq.symm
      have hsub : ((components path).filter undotted).Sublist
          ((components path).filter named) := by
        refine List.monotone_filter_right _ fun d hd => ?_
        rw [undotted_iff] at hd
        rw [named_iff]
        exact fun e => hd (by rw [e]; rfl)
      have hsame := hsub.eq_of_length (by omega)
      have hmem : c ∈ (components path).filter named :=
        List.mem_filter.mpr ⟨hc, named_iff.mpr hcd⟩
      rw [← hsame] at hmem
      exact undotted_iff.mp (List.mem_filter.mp hmem).2 hd

/-- `vfs_lookup` agrees with the reference resolution on every tree and
from every start exactly for the plain paths. -/
theorem lookup_agrees_iff (path : CStr) :
    (∀ (fs : Fs) (start : Option Nat) (flags : BitVec 32),
      flags &&& VFS_LOOKUP_PARENT = 0 → fs.LookupAgrees start path flags)
      ↔ Plain path := by
  constructor
  · intro h
    exact Plain.of_chains fun names => h (chain names) (some 0) 0 (by decide)
  · intro h fs start flags hf
    exact h.agrees fs start hf

/-- In a root with a directory `a`, the path `a/.` names `a`; `vfs_lookup`
fails on it. -/
theorem lookup_trailing_dot :
    ((chain [[97]]).vfsLookup (some 0) (some [97, SLASH, DOT]) 0).toOption.map
        (fun r => r.2.node) = none
      ∧ (chain [[97]]).resolve (some 0) [97, SLASH, DOT] = some 1
      ∧ ¬ (chain [[97]]).LookupAgrees (some 0) [97, SLASH, DOT] 0 := by
  have hcode : ((chain [[97]]).vfsLookup (some 0) (some [97, SLASH, DOT])
      0).toOption.map (fun r => r.2.node) = none := by decide
  have href : (chain [[97]]).resolve (some 0) [97, SLASH, DOT] = some 1 := by
    decide
  refine ⟨hcode, href, fun h => ?_⟩
  unfold Fs.LookupAgrees at h
  rw [hcode, href] at h
  cases h

-- ==== slashes do not matter

/-- Two cursors before the same components are the same to the loop. -/
theorem Fs.lookupLoop_congr (fs : Fs) (flags : BitVec 32) :
    ∀ (fuel fuel' current : Nat) {p q : CStr}, Skipped p → Skipped q →
      components p = components q → p.length < fuel → q.length < fuel' →
      fs.lookupLoop flags fuel current p = fs.lookupLoop flags fuel' current q := by
  intro fuel
  induction fuel with
  | zero => intro _ _ p q _ _ _ hp; exact (Nat.not_lt_zero _ hp).elim
  | succ fuel ih =>
      intro fuel' current p q hsp hsq hc hp hq
      cases fuel' with
      | zero => exact (Nat.not_lt_zero _ hq).elim
      | succ fuel' =>
          by_cases hnil : p = []
          -- both run into the test for an empty component
          · have hqnil : q = [] := by
              rw [← components_eq_nil hsq, ← hc, components_eq_nil hsp]
              exact hnil
            rw [hnil, hqnil]
            rfl
          · have hqne : q ≠ [] := by
              intro e
              apply hnil
              rw [← components_eq_nil hsp, hc, components_eq_nil hsq]
              exact e
            obtain ⟨hlen, hscan, hshort⟩ := scan_component hsp hnil
            obtain ⟨hlen', hscan', hshort'⟩ := scan_component hsq hqne
            rw [hscan, hscan'] at hc
            obtain ⟨hword, hrest⟩ := List.cons.inj hc
            have hsame : vfsComponentLength p = vfsComponentLength q := by
              rw [← (take_component hlen).1, ← (take_component hlen').1, hword]
            have hs := skipped_skipSlashes (p.drop (vfsComponentLength p))
            have hs' := skipped_skipSlashes (q.drop (vfsComponentLength q))
            have hend := components_eq_nil hs
            rw [hrest, components_eq_nil hs'] at hend
            unfold lookupLoop
            dsimp only
            rw [← hsame] at hword hrest hshort' hs' hend ⊢
            rw [← hword]
            generalize vfsSkipSlashes (p.drop (vfsComponentLength p)) = rest
              at hrest hshort hs hend
            generalize vfsSkipSlashes (q.drop (vfsComponentLength p)) = rest'
              at hrest hshort' hs' hend
            have hgo := fun n => ih fuel' n hs hs' hrest (by omega) (by omega)
            simp only [hend, hgo]

/-- `vfs_lookup` reads a path as its components: repeated and trailing
slashes change neither the return code nor the vnode nor `lastcomp`. -/
theorem vfsLookup_slashes (fs : Fs) (start : Option Nat) {p q : CStr}
    (flags : BitVec 32) (habs : vfsIsAbsolutePath p = vfsIsAbsolutePath q)
    (hc : components p = components q) :
    fs.vfsLookup start (some p) flags = fs.vfsLookup start (some q) flags := by
  have hsp := skipped_skipSlashes p
  have hsq := skipped_skipSlashes q
  have hskip : components (vfsSkipSlashes p) = components (vfsSkipSlashes q) := by
    rw [components_skipSlashes, components_skipSlashes, hc]
  have hend := components_eq_nil hsp
  rw [hskip, components_eq_nil hsq] at hend
  unfold Fs.vfsLookup
  simp only [habs]
  cases fs.vfsFollowMounts (if vfsIsAbsolutePath q then fs.vfsroot else start) with
  | none => rfl
  | some current =>
      have hloop := fs.lookupLoop_congr flags _ _ current hsp hsq hskip
        (Nat.lt_succ_self _) (Nat.lt_succ_self _)
      simp only [hend, hloop]

/-- The paths `/a` and `//a///`. -/
theorem vfsLookup_slashes_run :
    (chain [[97]]).vfsLookup none (some [SLASH, 97]) VFS_LOOKUP_PARENT
      = (chain [[97]]).vfsLookup none
        (some [SLASH, SLASH, 97, SLASH, SLASH, SLASH]) VFS_LOOKUP_PARENT :=
  vfsLookup_slashes _ none VFS_LOOKUP_PARENT rfl (by decide)

end Alix
