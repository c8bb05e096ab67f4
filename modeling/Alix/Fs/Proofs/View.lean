/-
What a tmpfs tree shows: a map from paths to directories and files.

`Shows s r T` says that the tree below the root `r` of a store without
mounts is the map `T`, and that it is all there is in the store: every
node is at exactly one path. A call then is an update of the map
(`Shows.add`, `Shows.write`), and references do not matter
(`Shows.congr`).
-/
import Alix.Fs.Proofs.Create

namespace Alix

/-- What a path can name. -/
inductive Obj where
  | dir
  | file (bytes : List UInt8)

/-- The absolute path with given components. -/
def absPath (cs : List CStr) : CStr := cs.flatMap fun c => SLASH :: c

/-- Names that a path passes through unchanged. -/
structure Good (c : CStr) : Prop where
  ne : c ≠ []
  le : c.length ≤ 255
  slash : SLASH ∉ c
  dot : ¬ Dotted c

theorem components_absPath {cs : List CStr} (h : ∀ c ∈ cs, Good c) :
    components (absPath cs) = cs := by
  induction cs with
  | nil => exact Words.words_nil SLASH
  | cons c cs ih =>
      have hc := h c List.mem_cons_self
      have hin : ∀ x ∈ c, (!(x == SLASH)) = true := by
        intro x hx
        have : x ≠ SLASH := fun e => hc.slash (e ▸ hx)
        simpa using this
      have htake : (c ++ absPath cs).takeWhile (fun x => !(x == SLASH)) = c := by
        rw [List.takeWhile_append_of_pos hin]
        cases cs with
        | nil => simp [absPath]
        | cons d cs => simp [absPath]
      have hdrop : (c ++ absPath cs).dropWhile (fun x => !(x == SLASH))
          = absPath cs := by
        rw [List.dropWhile_append_of_pos hin]
        cases cs with
        | nil => simp [absPath]
        | cons d cs => simp [absPath]
      show Words.words SLASH (SLASH :: (c ++ absPath cs)) = _
      rw [Words.words_cons_sep, Words.words_scan SLASH (by rw [htake]; exact hc.ne),
        htake, hdrop]
      exact congrArg (c :: ·) (ih fun d hd => h d (List.mem_cons_of_mem _ hd))

namespace Tmpfs

-- ==== the view

/-- The node at a path. -/
def node (s : Tmpfs) (r : Nat) (cs : List CStr) : Option Nat :=
  cs.foldlM s.fs.childNamed r

/-- What a node is. -/
def obj (s : Tmpfs) (n : Nat) : Obj :=
  match (s.fs.nodes n).type with
  | .dir => .dir
  | .reg => .file ((s.file n).data.take (s.file n).size)

/-- The store is one tree, and the tree is `T`. -/
structure Shows (s : Tmpfs) (r : Nat) (T : List CStr → Option Obj) : Prop where
  root : s.fs.vfsroot = some r
  lt : r < s.fs.count
  plain : ∀ n, n < s.fs.count → (s.fs.nodes n).mounted = none
  tree : ∀ cs, (s.node r cs).map s.obj = T cs
  inj : ∀ cs ds n, s.node r cs = some n → s.node r ds = some n → cs = ds
  all : ∀ n, n < s.fs.count → ∃ cs, s.node r cs = some n
  sized : ∀ n, n < s.fs.count → (s.file n).size ≤ (s.file n).capacity

variable {s s' : Tmpfs} {r p : Nat} {name : CStr} {type : NodeType}
  {T : List CStr → Option Obj}

theorem node_append (s : Tmpfs) (r : Nat) (cs : List CStr) (c : CStr) :
    s.node r (cs ++ [c]) = (s.node r cs).bind fun n => s.fs.childNamed n c := by
  unfold node
  rw [List.foldlM_append]
  cases h : cs.foldlM s.fs.childNamed r with
  | none => rfl
  | some n =>
      show List.foldlM s.fs.childNamed n [c] = _
      simp

theorem node_lt (hr : r < s.fs.count) {cs : List CStr} {n : Nat}
    (h : s.node r cs = some n) : n < s.fs.count := by
  obtain rfl | ⟨cs, c, rfl⟩ := cs.eq_nil_or_concat
  · cases h
    exact hr
  · rw [List.concat_eq_append, node_append] at h
    obtain ⟨m, -, hm⟩ := Option.bind_eq_some_iff.mp h
    exact s.closed.childNamed_lt hm

/-- A free name in a directory. -/
theorem tmpfsFindChild_eq {d : Nat} (h : (s.fs.nodes d).type = .dir) (c : CStr) :
    s.fs.tmpfsFindChild d c = s.fs.childNamed d c := by
  unfold Fs.tmpfsFindChild Fs.childNamed
  rw [if_pos h]

-- ==== updates of the view

/-- References are not shown. -/
theorem Shows.congr (h : Shows s r T) (hroot : s'.fs.vfsroot = s.fs.vfsroot)
    (hcount : s'.fs.count = s.fs.count) (hfile : s'.file = s.file)
    (hshape : ∀ n, (s'.fs.nodes n).type = (s.fs.nodes n).type
      ∧ (s'.fs.nodes n).mounted = (s.fs.nodes n).mounted
      ∧ (s'.fs.nodes n).children = (s.fs.nodes n).children
      ∧ (s'.fs.nodes n).name = (s.fs.nodes n).name) : Shows s' r T := by
  have hchild : s'.fs.childNamed = s.fs.childNamed := by
    funext d c
    unfold Fs.childNamed
    simp only [(hshape _).1, (hshape _).2.2.1, (hshape _).2.2.2]
  have hnode : ∀ cs, s'.node r cs = s.node r cs := by
    intro cs
    unfold node
    rw [hchild]
  have hobj : s'.obj = s.obj := by
    funext n
    unfold obj
    rw [(hshape n).1, hfile]
  refine ⟨by rw [hroot]; exact h.root, by rw [hcount]; exact h.lt, ?_, ?_, ?_, ?_,
    by rw [hcount, hfile]; exact h.sized⟩
  · intro n hn
    rw [hcount] at hn
    rw [(hshape n).2.1]
    exact h.plain n hn
  · intro cs
    rw [hnode, hobj]
    exact h.tree cs
  · intro cs ds n
    rw [hnode, hnode]
    exact h.inj cs ds n
  · intro n hn
    rw [hcount] at hn
    obtain ⟨cs, hcs⟩ := h.all n hn
    exact ⟨cs, by rw [hnode]; exact hcs⟩

theorem Shows.held (h : Shows s r T) (n : Nat) : Shows (s.held n) r T := by
  refine h.congr rfl rfl rfl fun m => ?_
  by_cases hm : m = n
  · subst hm
    simp [Tmpfs.held, Fs.vnodeHold]
  · simp [Tmpfs.held, Fs.vnodeHold, Function.update_of_ne hm]

theorem Shows.vnodeRelease (h : Shows s r T) (n : Nat) :
    Shows (s.vnodeRelease n) r T := by
  refine h.congr rfl rfl rfl fun m => ?_
  by_cases hm : m = n
  · subst hm
    simp [Tmpfs.vnodeRelease, Fs.vnodeRelease, Fs.modNode]
  · simp [Tmpfs.vnodeRelease, Fs.vnodeRelease, Fs.modNode, Function.update_of_ne hm]

/-- One more path leads to a node: the new one, to the new node. -/
theorem Shows.node_add (h : Shows s r T) (a : Added s s' p name type)
    {ps : List CStr} (hps : s.node r ps = some p)
    (hdir : (s.fs.nodes p).type = .dir)
    (hfree : s.node r (ps ++ [name]) = none) (cs : List CStr) :
    s'.node r cs = if cs = ps ++ [name] then some s.fs.count else s.node r cs := by
  induction cs using List.reverseRecOn with
  | nil =>
      rw [if_neg (by simp)]
      rfl
  | append_singleton cs c ih =>
      rw [node_append, node_append, ih]
      by_cases hcs : cs = ps ++ [name]
      -- below the new node there is nothing
      · subst hcs
        rw [if_pos rfl, if_neg (by simp), hfree, Option.bind_some]
        unfold Fs.childNamed
        rw [a.new]
        simp
      · rw [if_neg hcs]
        cases hn : s.node r cs with
        | none =>
            rw [if_neg ?_]
            · rfl
            · intro e
              obtain ⟨rfl, -⟩ := List.append_inj' e rfl
              rw [hps] at hn
              cases hn
        | some n =>
            rw [Option.bind_some, Option.bind_some,
              a.childNamed (node_lt h.lt hn)]
            by_cases hnew : cs ++ [c] = ps ++ [name]
            · obtain ⟨rfl, hc⟩ := List.append_inj' hnew rfl
              rw [hps] at hn
              cases hn
              cases hc
              rw [if_pos ⟨rfl, rfl, hdir⟩, if_pos rfl]
            · rw [if_neg hnew, if_neg]
              rintro ⟨rfl, rfl, -⟩
              exact hnew (by rw [h.inj cs ps n hn hps])

/-- A new node shows as an empty object of its type. -/
theorem Shows.add (h : Shows s r T) (a : Added s s' p name type)
    {ps : List CStr} (hps : s.node r ps = some p)
    (hdir : (s.fs.nodes p).type = .dir)
    (hfree : s.node r (ps ++ [name]) = none) :
    Shows s' r (Function.update T (ps ++ [name])
      (some (match type with | .dir => .dir | .reg => .file []))) := by
  have hnode := h.node_add a hps hdir hfree
  have hobj : ∀ n, n < s.fs.count → s'.obj n = s.obj n := by
    intro n hn
    unfold obj
    rw [(a.old hn).1, a.file n (Nat.ne_of_lt hn)]
  refine ⟨by rw [a.vfsroot]; exact h.root, by rw [a.count]; have := h.lt; omega,
    ?_, ?_, ?_, ?_, ?_⟩
  · intro n hn
    by_cases hnew : n = s.fs.count
    · rw [hnew, a.new]
    · have hlt : n < s.fs.count := by
        rw [a.count] at hn
        omega
      by_cases hnp : n = p
      · rw [hnp, a.parent]
        exact h.plain p a.lt
      · rw [a.other n hnew hnp]
        exact h.plain n hlt
  · intro cs
    rw [hnode]
    by_cases hcs : cs = ps ++ [name]
    · rw [if_pos hcs, hcs, Function.update_self, Option.map_some]
      unfold obj
      rw [a.new, a.data, a.size]
      cases type with
      | dir => rfl
      | reg => rfl
    · rw [if_neg hcs, Function.update_of_ne hcs, ← h.tree cs]
      cases hn : s.node r cs with
      | none => rfl
      | some n => exact congrArg some (hobj n (node_lt h.lt hn))
  · intro cs ds n hcs hds
    rw [hnode] at hcs hds
    split at hcs
    · cases hcs
      split at hds
      · simp only [*]
      · exact absurd (node_lt h.lt hds) (Nat.lt_irrefl _)
    · split at hds
      · cases hds
        exact absurd (node_lt h.lt hcs) (Nat.lt_irrefl _)
      · exact h.inj cs ds n hcs hds
  · intro n hn
    by_cases hnew : n = s.fs.count
    · exact ⟨ps ++ [name], by rw [hnode, if_pos rfl, hnew]⟩
    · rw [a.count] at hn
      obtain ⟨cs, hcs⟩ := h.all n (by omega)
      refine ⟨cs, ?_⟩
      rw [hnode, if_neg]
      · exact hcs
      · rintro rfl
        rw [hfree] at hcs
        cases hcs
  · intro n hn
    by_cases hnew : n = s.fs.count
    · rw [hnew, a.size]
      exact Nat.zero_le _
    · rw [a.count] at hn
      rw [a.file n hnew]
      exact h.sized n (by omega)

/-- New bytes in a file. -/
theorem Shows.write (h : Shows s r T) {cs : List CStr} {n size : Nat}
    (hcs : s.node r cs = some n) (htype : (s.fs.nodes n).type = .reg)
    (hr : Resized s s' n size) :
    Shows s' r (Function.update T cs
      (some (.file ((s'.file n).data.take size)))) := by
  have hnode : ∀ ds, s'.node r ds = s.node r ds := by
    intro ds
    unfold node
    rw [hr.fs]
  refine ⟨by rw [hr.fs]; exact h.root, by rw [hr.fs]; exact h.lt,
    by rw [hr.fs]; exact h.plain, ?_, ?_, ?_, ?_⟩
  · intro ds
    rw [hnode]
    by_cases hds : ds = cs
    · rw [hds, hcs, Function.update_self, Option.map_some]
      unfold obj
      rw [hr.fs, htype, hr.resized]
    · rw [Function.update_of_ne hds, ← h.tree ds]
      cases hm : s.node r ds with
      | none => rfl
      | some m =>
          have hmn : m ≠ n := by
            rintro rfl
            exact hds (h.inj ds cs m hm hcs)
          rw [Option.map_some, Option.map_some]
          unfold obj
          rw [hr.fs, hr.other m hmn]
  · intro ds es m
    rw [hnode, hnode]
    exact h.inj ds es m
  · intro m hm
    rw [hr.fs] at hm
    obtain ⟨ds, hds⟩ := h.all m hm
    exact ⟨ds, by rw [hnode]; exact hds⟩
  · intro m hm
    rw [hr.fs] at hm
    by_cases hmn : m = n
    · rw [hmn, hr.resized]
      exact hr.size_le
    · rw [hr.other m hmn]
      exact h.sized m hm

-- ==== calls on a shown store

theorem Shows.enter (h : Shows s r T) (d : Nat) (c : CStr) :
    s.fs.enter d c = s.fs.childNamed d c := by
  unfold Fs.enter
  cases hm : s.fs.childNamed d c with
  | none => rfl
  | some m =>
      have hplain := h.plain m (s.closed.childNamed_lt hm)
      show some (s.fs.followLoop s.fs.count m) = some m
      cases s.fs.count with
      | zero => rfl
      | succ k =>
          unfold Fs.followLoop
          rw [hplain]

theorem Shows.startNode (h : Shows s r T) (start : Option Nat) (cs : List CStr)
    (hne : cs ≠ []) : s.fs.startNode start (absPath cs) = some r := by
  have habs : vfsIsAbsolutePath (absPath cs) = true := by
    cases cs with
    | nil => exact (hne rfl).elim
    | cons c cs => rfl
  unfold Fs.startNode
  rw [habs, if_pos rfl, h.root]
  show some (s.fs.followLoop s.fs.count r) = some r
  have hplain := h.plain r h.lt
  cases s.fs.count with
  | zero => rfl
  | succ k =>
      unfold Fs.followLoop
      rw [hplain]

theorem not_dotEnd {cs : List CStr} (h : ∀ c ∈ cs, Good c) : ¬ Fs.DotEnd cs := by
  rintro ⟨c, hc, hd⟩
  exact (h c (List.mem_of_getLast? hc)).dot hd

theorem not_long {cs : List CStr} (h : ∀ c ∈ cs, Good c) : ¬ Fs.Long cs := by
  rintro ⟨c, hc, hlen⟩
  have := (h c hc).le
  omega

/-- A lookup comes to the node at the path. -/
theorem Shows.found (h : Shows s r T) (start : Option Nat) (cs : List CStr)
    (hne : cs ≠ []) (hgood : ∀ c ∈ cs, Good c) :
    s.found start (absPath cs) = s.node r cs := by
  rw [found_eq, h.startNode start cs hne, Option.bind_some, components_absPath hgood,
    if_neg hne, (s.fs.codeWalk_eq hne (not_long hgood) r).2 (not_dotEnd hgood)]
  have hall : cs.filter undotted = cs :=
    List.filter_eq_self.mpr fun c hc => undotted_iff.mpr (hgood c hc).dot
  rw [hall]
  unfold node
  rw [show s.fs.enter = s.fs.childNamed from funext₂ h.enter]

/-- The parent's lookup comes to the node of the directory. -/
theorem Shows.parentWalk (h : Shows s r T) {cs : List CStr} {c : CStr}
    (hgood : ∀ d ∈ cs ++ [c], Good d) (n : Nat) :
    s.fs.parentWalk (cs ++ [c]) n
      = (cs.foldlM s.fs.childNamed n).map fun p => (p, c) := by
  induction cs generalizing n with
  | nil =>
      have := (hgood c (by simp)).le
      show Fs.parentWalk s.fs [c] n = _
      unfold Fs.parentWalk
      rw [if_neg (by omega), if_pos rfl]
      rfl
  | cons d cs ih =>
      have hd := hgood d (by simp)
      have hlen := hd.le
      show Fs.parentWalk s.fs (d :: (cs ++ [c])) n = _
      unfold Fs.parentWalk
      rw [if_neg (by omega), if_neg (by simp), if_neg hd.dot, h.enter,
        List.foldlM_cons]
      cases hm : s.fs.childNamed n d with
      | none => rfl
      | some m => exact ih (fun e he => hgood e (by simp at he ⊢; tauto)) m

/-- `vfs_create` succeeds where nothing stands in its way. -/
theorem vfsCreate_ok {ref top : Nat} {path : CStr} {mode : Mode}
    (attr : Option Mode) (htop : s.fs.startNode (some ref) path = some top)
    (hwalk : s.fs.parentWalk (components path) top = some (p, name))
    (hname : name ≠ []) (hty : nodeType mode = some type)
    (hdir : (s.fs.nodes p).type = .dir) (hlen : name.length ≤ NAME_MAX)
    (hfind : s.fs.tmpfsFindChild p name = none) :
    ∃ s' n, s.vfsCreate (some ref) (some path) attr mode true = .ok (s', n) := by
  have hne : components path ≠ [] := by
    intro e
    rw [e] at hwalk
    cases hwalk
  have hpath := s.fs.vfsLookup_parent (some ref) path
  rw [htop, Option.bind_some, if_neg hne, hwalk, Option.map_some] at hpath
  have hdir' : ((s.held p).fs.nodes p).type = .dir := by
    rw [(s.held_nodes p p).1]
    exact hdir
  have hfind' : ((s.held p).fs.tmpfsFindChild p name).isSome = false := by
    rw [s.held_tmpfsFindChild, hfind]
    rfl
  cases hl : s.fs.vfsLookup (some ref) (some path) VFS_LOOKUP_PARENT with
  | error rc =>
      rw [hl] at hpath
      cases hpath
  | ok q =>
      rw [hl] at hpath
      obtain ⟨fs1, found⟩ := q
      obtain rfl : found = ⟨p, some name⟩ := Option.some.inj hpath
      have hlook : s.vfsLookup (some ref) (some path) VFS_LOOKUP_PARENT
          = .ok (s.held p, ⟨p, some name⟩) := by
        unfold Tmpfs.vfsLookup
        rw [hl]
        rfl
      have hcreate : ∃ s1 n, (s.held p).tmpfsCreate (some p) (some name) attr mode
          true true = .ok (s1, n) := by
        unfold tmpfsCreate
        simp only [hname, Bool.not_true, Bool.false_eq_true, or_self, if_false, hty,
          hdir', ne_eq, not_true_eq_false, hfind']
        rw [if_neg (by omega)]
        exact ⟨_, _, rfl⟩
      obtain ⟨s1, n, hcreate⟩ := hcreate
      unfold vfsCreate
      simp only [Option.isNone_some, Bool.false_eq_true, or_self, if_false, hlook,
        hcreate]
      exact ⟨_, _, rfl⟩

/-- `vfs_create` at a free path below a directory. -/
theorem Shows.vfsCreate (h : Shows s r T) {ps : List CStr} {mode : Mode}
    (attr : Option Mode) (hgood : ∀ c ∈ ps ++ [name], Good c)
    (hps : s.node r ps = some p) (hdir : (s.fs.nodes p).type = .dir)
    (hfree : s.node r (ps ++ [name]) = none) (hty : nodeType mode = some type) :
    ∃ s', s.vfsCreate (some r) (some (absPath (ps ++ [name]))) attr mode true
      = .ok (s', s.fs.count) ∧ Added s s' p name type := by
  have hname := hgood name (by simp)
  have htop := h.startNode (some r) (ps ++ [name]) (by simp)
  have hwalk : s.fs.parentWalk (components (absPath (ps ++ [name]))) r
      = some (p, name) := by
    rw [components_absPath hgood, h.parentWalk hgood]
    show Option.map _ (s.node r ps) = _
    rw [hps]
    rfl
  have hfind : s.fs.tmpfsFindChild p name = none := by
    rw [tmpfsFindChild_eq hdir]
    rw [node_append, hps] at hfree
    exact hfree
  obtain ⟨s', n, hok⟩ := vfsCreate_ok attr htop hwalk hname.ne hty hdir hname.le hfind
  obtain ⟨top, q, c, ty, htop', -, hwalk', -, -, hty', rfl, a⟩ :=
    vfsCreate_added h.lt hok
  rw [htop] at htop'
  cases htop'
  rw [hwalk] at hwalk'
  cases hwalk'
  rw [hty] at hty'
  cases hty'
  exact ⟨s', hok, a⟩

theorem Shows.at_dir (h : Shows s r T) {cs : List CStr} (hd : T cs = some .dir) :
    ∃ n, s.node r cs = some n ∧ (s.fs.nodes n).type = .dir := by
  rw [← h.tree cs] at hd
  obtain ⟨n, hn, ho⟩ := Option.map_eq_some_iff.mp hd
  refine ⟨n, hn, ?_⟩
  unfold obj at ho
  split at ho
  · assumption
  · cases ho

theorem Shows.at_none (h : Shows s r T) {cs : List CStr} (hd : T cs = none) :
    s.node r cs = none := by
  rw [← h.tree cs] at hd
  exact Option.map_eq_none_iff.mp hd

theorem vfsLookup_of_found {start : Option Nat} {path : CStr} :
    (∀ n, s.found start path = some n → ∃ last,
      s.vfsLookup start (some path) 0#32 = .ok (s.held n, ⟨n, last⟩))
    ∧ (s.found start path = none →
      ∃ rc, s.vfsLookup start (some path) 0#32 = .error rc) := by
  unfold Tmpfs.found Tmpfs.vfsLookup
  cases s.fs.vfsLookup start (some path) 0#32 with
  | error rc => exact ⟨fun n h => (by cases h), fun _ => ⟨rc, rfl⟩⟩
  | ok q =>
      obtain ⟨fs1, n, last⟩ := q
      refine ⟨fun m h => ?_, fun h => by cases h⟩
      cases h
      exact ⟨last, rfl⟩

end Tmpfs

end Alix
