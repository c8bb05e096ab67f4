/-
What `initrd_unpack` makes of an archive.

# The round trip

An archive is a list of entries in newc format and a trailer (`archive`).
Unpacking it into an empty root gives the tree of its entries
(`unpack_archive`): each entry at its path, with its bytes, and nothing
else but the directories above them.

# How

Each entry is an update of the map from paths to objects that a store
shows (`addEntry`), and the code makes that update (`Shows.entry`). The
parent directories are made on the way through the path: `parentLoop_spec`
follows the scan for slashes, component by component.
What the updates of all entries add up to is a matter of lists of paths
(`addEntry_treeOf`); there the entries must not get in each other's way.
-/
import Alix.Fs.Initrd
import Alix.Fs.Proofs.View

namespace Alix.Initrd

open Tmpfs

-- ==== the format

/-- The digit the encoder writes. -/
def hexChar (d : Nat) : UInt8 := UInt8.ofNat (if d < 10 then 48 + d else 55 + d)

/-- The last `k` digits of a number. -/
def hexDigits (n : Nat) : Nat → List UInt8
  | 0 => []
  | k + 1 => hexChar (n / 16 ^ k % 16) :: hexDigits n k

/-- A header field. -/
def hex8 (v : BitVec 32) : List UInt8 := hexDigits v.toNat 8

/-- The header fields that unpacking does not read. -/
structure Meta where
  ino : BitVec 32
  uid : BitVec 32
  gid : BitVec 32
  nlink : BitVec 32
  mtime : BitVec 32
  devmajor : BitVec 32
  devminor : BitVec 32
  rdevmajor : BitVec 32
  rdevminor : BitVec 32
  check : BitVec 32

/-- Zeros up to the next multiple of four. -/
def pad (n : Nat) : List UInt8 := List.replicate (initrdAlign4 n - n) 0

/-- `cpio_newc_header_t`. -/
def encodeHeader (m : Meta) (mode : Mode) (nameSize fileSize : Nat) : List UInt8 :=
  magic ++ hex8 m.ino ++ hex8 mode ++ hex8 m.uid ++ hex8 m.gid ++ hex8 m.nlink
    ++ hex8 m.mtime ++ hex8 (BitVec.ofNat 32 fileSize) ++ hex8 m.devmajor
    ++ hex8 m.devminor ++ hex8 m.rdevmajor ++ hex8 m.rdevminor
    ++ hex8 (BitVec.ofNat 32 nameSize) ++ hex8 m.check

/-- An entry: header, name and data, each padded. -/
def encode (m : Meta) (mode : Mode) (name : CStr) (bytes : List UInt8) :
    List UInt8 :=
  encodeHeader m mode (name.length + 1) bytes.length ++ (name ++ [0])
    ++ pad (HEADER + (name.length + 1)) ++ bytes ++ pad bytes.length

/-- What an entry is for. The root directory has no components. -/
structure Entry where
  aux : Meta
  mode : Mode
  prefixed : Bool
  path : List CStr
  obj : Obj

/-- The name of an entry: ".", or its path, perhaps behind "./". -/
def Entry.name (e : Entry) : CStr :=
  if e.path = [] then [DOT]
  else (if e.prefixed then [DOT, SLASH] else []) ++ (absPath e.path).tail

/-- The data of an entry. -/
def Entry.bytes (e : Entry) : List UInt8 :=
  match e.obj with
  | .dir => []
  | .file bytes => bytes

/-- The type bits of an object. -/
def typeOf : Obj → NodeType
  | .dir => .dir
  | .file _ => .reg

/-- The entries a tree is archived as. -/
structure Entry.Ok (e : Entry) : Prop where
  good : ∀ c ∈ e.path, Good c
  text : ∀ c ∈ e.path, (0 : UInt8) ∉ c
  short : (absPath e.path).length < PATH_MAX - 1
  type : nodeType e.mode = some (typeOf e.obj)
  root : e.path = [] → e.obj = .dir
  small : e.bytes.length < 2 ^ 32
  named : e.name ≠ trailer

/-- A file's path is neither another entry's nor above it. -/
def Apart (d e : Entry) : Prop :=
  (d.obj ≠ .dir → ¬ d.path <+: e.path) ∧ (e.obj ≠ .dir → ¬ e.path <+: d.path)

/-- The archive of a list of entries. -/
def archive (es : List Entry) (m : Meta) (mode : Mode) : List UInt8 :=
  (es.flatMap fun e => encode e.aux e.mode e.name e.bytes)
    ++ encode m mode trailer []

-- ==== directories

/-- All memory is given. -/
structure Heap.Plenty (heap : Heap) : Prop where
  node : ∀ path, heap.node path = true
  bytes : ∀ path, heap.bytes path = true

variable {heap : Heap} {s s' : Tmpfs} {r : Nat} {T : List CStr → Option Obj}

/-- `initrd_ensure_dir` makes a directory, or finds it. -/
theorem ensureDir_spec (hh : heap.Plenty) (h : Shows s r T) {ps : List CStr}
    {c : CStr} (mode : Mode) (hgood : ∀ d ∈ ps ++ [c], Good d)
    (hps : T ps = some .dir) (hc : T (ps ++ [c]) = none ∨ T (ps ++ [c]) = some .dir) :
    ∃ s', initrdEnsureDir heap s (absPath (ps ++ [c])) mode = (s', 0)
      ∧ Shows s' r (Function.update T (ps ++ [c]) (some .dir)) := by
  have hlong : ¬ (absPath (ps ++ [c]) = [] ∨ absPath (ps ++ [c]) = [SLASH]) := by
    have hne := (hgood c (by simp)).ne
    rintro (e | e)
    · simp [absPath] at e
    · have := congrArg List.length e
      have hlen := List.length_pos_of_ne_nil hne
      simp [absPath] at this
      omega
  have hfound := h.found (some r) (ps ++ [c]) (by simp) hgood
  obtain ⟨p, hp, hdir⟩ := h.at_dir hps
  unfold initrdEnsureDir
  rw [if_neg hlong, h.root]
  rcases hc with hc | hc
  · rw [h.at_none hc] at hfound
    obtain ⟨rc, hl⟩ := vfsLookup_of_found.2 hfound
    obtain ⟨s1, hok, a⟩ := h.vfsCreate
      (some (S_IFDIR ||| (mode &&& ACCESSPERMS))) hgood hp hdir (h.at_none hc)
      (show nodeType S_IFDIR = some .dir by decide)
    have hadd := h.add a hp hdir (h.at_none hc)
    simp only [hl, hh.node, hok]
    exact ⟨_, rfl, hadd.vnodeRelease _⟩
  · obtain ⟨n, hn, -⟩ := h.at_dir hc
    rw [hn] at hfound
    obtain ⟨last, hl⟩ := vfsLookup_of_found.1 n hfound
    rw [hl]
    refine ⟨_, rfl, ?_⟩
    rw [← hc, Function.update_eq_self]
    exact (h.held n).vnodeRelease n

/-- Strictly between a directory and a path below it. -/
def Between (ds es x : List CStr) : Prop := ds <+: x ∧ x ≠ ds ∧ x <+: es ∧ x ≠ es

instance (ds es x : List CStr) : Decidable (Between ds es x) :=
  inferInstanceAs (Decidable (_ ∧ _ ∧ _ ∧ _))

/-- The next directory on the way, and the rest. -/
theorem between_step (ds : List CStr) (c d : CStr) (cs x : List CStr) :
    Between ds (ds ++ c :: d :: cs) x
      ↔ x = ds ++ [c] ∨ Between (ds ++ [c]) (ds ++ c :: d :: cs) x := by
  constructor
  · rintro ⟨⟨y, rfl⟩, hne, hpre, hlast⟩
    have hy : y <+: c :: d :: cs := (List.prefix_append_right_inj ds).mp hpre
    cases y with
    | nil => exact (hne (by simp)).elim
    | cons b y =>
        obtain ⟨rfl, hy⟩ := List.cons_prefix_cons.mp hy
        cases y with
        | nil => exact Or.inl rfl
        | cons a y =>
            refine Or.inr ⟨⟨a :: y, by simp⟩, by simp, hpre, hlast⟩
  · rintro (rfl | ⟨hpre, hne, hle, hlast⟩)
    · exact ⟨List.prefix_append _ _, by simp, ⟨d :: cs, by simp⟩, by simp⟩
    · refine ⟨(List.prefix_append ds [c]).trans hpre, ?_, hle, hlast⟩
      rintro rfl
      have := hpre.length_le
      simp at this

theorem not_between_last (ds : List CStr) (c : CStr) (x : List CStr) :
    ¬ Between ds (ds ++ [c]) x := by
  rintro ⟨⟨y, rfl⟩, hne, hpre, hlast⟩
  have hy : y <+: [c] := (List.prefix_append_right_inj ds).mp hpre
  cases y with
  | nil => exact hne (by simp)
  | cons b y =>
      obtain ⟨rfl, hnil⟩ := List.cons_prefix_cons.mp hy
      rw [List.prefix_nil.mp hnil] at hlast
      exact hlast rfl

theorem absPath_append (ds cs : List CStr) :
    absPath (ds ++ cs) = absPath ds ++ absPath cs := List.flatMap_append

theorem absPath_cons (c : CStr) (cs : List CStr) :
    absPath (c :: cs) = SLASH :: (c ++ absPath cs) := rfl

/-- The scan passes the bytes of a component. -/
theorem parentLoop_skip (path : CStr) (k : Nat) (s : Tmpfs) :
    ∀ n i, (∀ j, j < n → path.getD (i + j) 0 ≠ SLASH) →
      parentLoop heap path (n + k) i s = parentLoop heap path k (i + n) s
  | 0, i, _ => by rw [Nat.zero_add, Nat.add_zero]
  | n + 1, i, h => by
      have hhere : path.getD i 0 ≠ SLASH := h 0 (Nat.succ_pos n)
      have hrest : ∀ j, j < n → path.getD (i + 1 + j) 0 ≠ SLASH := by
        intro j hj
        have := h (j + 1) (by omega)
        rwa [Nat.add_right_comm, Nat.add_assoc]
      rw [Nat.add_right_comm, ← Nat.add_assoc, Nat.add_right_comm i n 1,
        ← parentLoop_skip path k s n (i + 1) hrest]
      show (if _ then _ else _) = _
      rw [if_pos hhere]

/-- The bytes of a component in a path. -/
theorem getD_component {A c R : CStr} {j : Nat} (hj : j < c.length) :
    (A ++ SLASH :: (c ++ R)).getD (A.length + 1 + j) 0 ∈ c := by
  rw [List.getD_append_right _ _ _ _ (by omega),
    show A.length + 1 + j - A.length = j + 1 by omega, List.getD_cons_succ,
    List.getD_append _ _ _ _ hj, List.getD_eq_getElem _ _ hj]
  exact List.getElem_mem hj

/-- The slash behind it. -/
theorem getD_slash (A c R : CStr) :
    (A ++ SLASH :: (c ++ SLASH :: R)).getD (A.length + 1 + c.length) 0 = SLASH := by
  rw [List.getD_append_right _ _ _ _ (by omega),
    show A.length + 1 + c.length - A.length = c.length + 1 by omega,
    List.getD_cons_succ, List.getD_append_right _ _ _ _ (Nat.le_refl _), Nat.sub_self]
  rfl

/-- The directories on the way to a path. -/
theorem parentLoop_spec (hh : heap.Plenty) (cs : List CStr) :
    ∀ (ds : List CStr) (c : CStr) (s : Tmpfs) (T : List CStr → Option Obj),
      Shows s r T → (∀ d ∈ ds ++ c :: cs, Good d) → T ds = some .dir →
      (∀ x, Between ds (ds ++ c :: cs) x → T x = none ∨ T x = some .dir) →
      ∃ s', parentLoop heap (absPath (ds ++ c :: cs))
          (c.length + (absPath cs).length) ((absPath ds).length + 1) s = (s', 0)
        ∧ Shows s' r fun x =>
          if Between ds (ds ++ c :: cs) x then some .dir else T x := by
  -- inside a component there is no slash
  have hskip : ∀ (ds cs : List CStr) (c : CStr) (k : Nat) (s : Tmpfs), Good c →
      parentLoop heap (absPath (ds ++ c :: cs)) (c.length + k)
          ((absPath ds).length + 1) s
        = parentLoop heap (absPath (ds ++ c :: cs)) k
          ((absPath ds).length + 1 + c.length) s := by
    intro ds cs c k s hc
    refine parentLoop_skip _ k s c.length _ fun j hj hslash => hc.slash ?_
    rw [absPath_append, absPath_cons] at hslash
    rw [← hslash]
    exact getD_component hj
  induction cs with
  | nil =>
      intro ds c s T h hgood hds hT
      refine ⟨s, ?_, ?_⟩
      · exact hskip ds [] c 0 s (hgood c (by simp))
      · simp only [if_neg (not_between_last ds c _)]
        exact h
  | cons d cs ih =>
      intro ds c s T h hgood hds hT
      have hgood' : ∀ b ∈ ds ++ [c], Good b := by
        intro b hb
        refine hgood b ?_
        simp only [List.mem_append, List.mem_cons, List.not_mem_nil, or_false] at hb ⊢
        tauto
      have hpath : ds ++ c :: d :: cs = (ds ++ [c]) ++ d :: cs := by simp
      have hT' := fun x hx => hT x ((between_step ds c d cs x).mpr hx)
      obtain ⟨s1, hens, h1⟩ := ensureDir_spec hh h 0x1ed#32 hgood' hds
        (hT' _ (Or.inl rfl))
      obtain ⟨s2, hloop, h2⟩ := ih (ds ++ [c]) d s1 _ h1 (by rwa [← hpath])
        (Function.update_self _ _ _) (by
          rw [← hpath]
          intro x hx
          rw [Function.update_of_ne hx.2.1]
          exact hT' x (Or.inr hx))
      rw [← hpath] at hloop h2
      have hpos : (absPath (ds ++ [c])).length = (absPath ds).length + 1 + c.length := by
        rw [absPath_append, absPath_cons]
        simp [absPath]
        omega
      refine ⟨s2, ?_, ?_⟩
      · have hslash : (absPath (ds ++ c :: d :: cs)).getD
            ((absPath ds).length + 1 + c.length) 0 = SLASH := by
          rw [absPath_append, absPath_cons, absPath_cons]
          exact getD_slash _ c _
        have htake : (absPath (ds ++ c :: d :: cs)).take
            ((absPath ds).length + 1 + c.length) = absPath (ds ++ [c]) := by
          rw [hpath, absPath_append, ← hpos]
          exact List.take_left
        rw [hskip ds (d :: cs) c _ s (hgood c (by simp)), absPath_cons,
          List.length_cons, List.length_append]
        show (if _ then _ else _) = _
        rw [if_neg (not_not.mpr hslash), htake, hens]
        rw [hpos] at hloop
        exact hloop
      · refine (show (fun x => _) = _ from funext fun x => ?_) ▸ h2
        rw [if_congr (between_step ds c d cs x) rfl rfl]
        by_cases hx : x = ds ++ [c]
        · rw [if_pos (Or.inl hx), hx, Function.update_self, ite_self]
        · rw [Function.update_of_ne hx]
          exact if_congr ⟨fun h => h.resolve_left hx, Or.inr⟩ rfl rfl

/-- A tree with the directories above a path. -/
def withParents (T : List CStr → Option Obj) (cs x : List CStr) : Option Obj :=
  if Between [] cs x then some .dir else T x

theorem withParents_parent (hroot : T [] = some .dir) (ps : List CStr) (c : CStr) :
    withParents T (ps ++ [c]) ps = some .dir := by
  unfold withParents
  by_cases hnil : ps = []
  · rw [hnil, hroot, ite_self]
  · exact if_pos ⟨List.nil_prefix, hnil, List.prefix_append _ _, by simp⟩

theorem withParents_self (cs : List CStr) : withParents T cs cs = T cs :=
  if_neg fun h => h.2.2.2 rfl

/-- `initrd_ensure_parent_dirs`. -/
theorem ensureParentDirs_spec (hh : heap.Plenty) (h : Shows s r T)
    {cs : List CStr} (hne : cs ≠ []) (hgood : ∀ d ∈ cs, Good d)
    (hshort : (absPath cs).length < PATH_MAX - 1) (hroot : T [] = some .dir)
    (hT : ∀ x, Between [] cs x → T x = none ∨ T x = some .dir) :
    ∃ s', initrdEnsureParentDirs heap s (absPath cs) = (s', 0)
      ∧ Shows s' r (withParents T cs) := by
  cases cs with
  | nil => exact (hne rfl).elim
  | cons c cs =>
      obtain ⟨s', hloop, hs'⟩ := parentLoop_spec hh cs [] c s T h hgood hroot hT
      refine ⟨s', ?_, hs'⟩
      unfold initrdEnsureParentDirs
      rw [if_neg (by omega)]
      simpa [absPath] using hloop

-- ==== files

/-- The loop ends where doubling reaches the size without overflow. -/
theorem growLoop_some {size : Nat} : ∀ {k fuel capacity : Nat}, k < fuel →
    size ≤ capacity * 2 ^ k → capacity * 2 ^ k < 2 ^ 64 →
    ∃ c, growLoop fuel capacity size = some c
  | 0, fuel + 1, capacity, _, hle, _ => by
      unfold growLoop
      rw [if_neg (by simpa using hle)]
      exact ⟨capacity, rfl⟩
  | k + 1, fuel + 1, capacity, hk, hle, hlt => by
      unfold growLoop
      have hpow : capacity * 2 * 2 ^ k = capacity * 2 ^ (k + 1) := by
        rw [Nat.pow_succ, Nat.mul_assoc, Nat.mul_comm 2]
      split
      · have hpos : 1 ≤ 2 ^ k := Nat.one_le_two_pow
        have hsmall : capacity * 2 < 2 ^ 64 :=
          lt_of_le_of_lt (Nat.le_mul_of_pos_right _ hpos) (hpow ▸ hlt)
        rw [Nat.mod_eq_of_lt hsmall]
        exact growLoop_some (k := k) (by omega) (by rw [hpow]; exact hle)
          (by rw [hpow]; exact hlt)
      · exact ⟨capacity, rfl⟩

theorem take_memcpyAt_zero (data src : List UInt8) :
    (memcpyAt data 0 src).take src.length = src := by
  simp [memcpyAt]

/-- `vfs_write` of bytes into a new file. -/
theorem tmpfsWrite_new {n : Nat} {data : List UInt8} {flags : BitVec 32}
    (hflags : flags &&& O_APPEND = 0) (htype : (s.fs.nodes n).type = .reg)
    (hempty : (s.file n).data = []) (hsmall : data.length < 2 ^ 32)
    (hne : data ≠ []) :
    ∃ s', s.tmpfsWrite (some n) (some data) data.length 0 flags true = some (s', 0)
      ∧ Resized s s' n data.length
      ∧ (s'.file n).data.take data.length = data := by
  have hcap : (s.file n).capacity = 0 := by
    unfold FileData.capacity
    rw [hempty]
    rfl
  have hpos := List.length_pos_of_ne_nil hne
  obtain ⟨c, hc⟩ : ∃ c, growLoop 66 64 data.length = some c :=
    growLoop_some (k := 26) (by decide) (by omega) (by decide)
  obtain ⟨s1, hres⟩ : ∃ s1, s.tmpfsResizeNode n data.length true = some (s1, 0) := by
    unfold tmpfsResizeNode
    rw [if_neg (by omega)]
    simp only [hcap, ne_eq, not_true_eq_false, if_false, hc, Bool.not_true,
      Bool.false_eq_true]
    exact ⟨_, rfl⟩
  obtain ⟨-, hcon⟩ | ⟨hr, -⟩ := tmpfsResizeNode_cases hres
  · exact (hcon rfl).elim
  refine ⟨s1.modFile n fun f => { f with data := memcpyAt f.data 0 data }, ?_, ?_, ?_⟩
  · have hoff : s.writeOffset n 0 flags = 0 := by
      unfold writeOffset
      rw [if_neg (not_not.mpr hflags)]
    unfold tmpfsWrite
    simp only [hoff, Nat.zero_add, Nat.mod_eq_of_lt (show data.length < 2 ^ 64 by omega),
      hres, htype, Option.isNone_some, Bool.false_eq_true, false_and, if_false, ne_eq,
      not_true_eq_false, Option.getD_some, List.take_length]
    rw [if_pos (by omega)]
  · refine hr.memcpyAt ?_
    rw [Nat.zero_add]
    exact hr.size_le
  · simp only [modFile, Function.update_self]
    exact take_memcpyAt_zero _ data

/-- `initrd_unpack_file` at a free path below directories. -/
theorem unpackFile_spec (hh : heap.Plenty) (h : Shows s r T) {ps : List CStr}
    {c : CStr} (mode : Mode) {data : List UInt8}
    (hgood : ∀ d ∈ ps ++ [c], Good d)
    (hshort : (absPath (ps ++ [c])).length < PATH_MAX - 1)
    (hroot : T [] = some .dir)
    (hT : ∀ x, Between [] (ps ++ [c]) x → T x = none ∨ T x = some .dir)
    (hfree : T (ps ++ [c]) = none) (hsmall : data.length < 2 ^ 32) :
    ∃ s', initrdUnpackFile heap s (absPath (ps ++ [c])) mode data data.length
        = some (s', 0)
      ∧ Shows s' r (Function.update (withParents T (ps ++ [c])) (ps ++ [c])
        (some (.file data))) := by
  obtain ⟨s1, hpar, h1⟩ := ensureParentDirs_spec hh h (by simp) hgood hshort hroot hT
  rw [← withParents_self (T := T)] at hfree
  obtain ⟨p, hp, hdir⟩ := h1.at_dir (withParents_parent hroot ps c)
  have hnone := h1.at_none hfree
  obtain ⟨s2, hok, a⟩ := h1.vfsCreate (some (S_IFREG ||| (mode &&& ACCESSPERMS)))
    hgood hp hdir hnone (show nodeType S_IFREG = some .reg by decide)
  have h2 := h1.add a hp hdir hnone
  have hnode : s2.node r (ps ++ [c]) = some s1.fs.count := by
    rw [h1.node_add a hp hdir hnone, if_pos rfl]
  have htype : (s2.fs.nodes s1.fs.count).type = .reg := by rw [a.new]
  unfold initrdUnpackFile
  simp only [hpar, ne_eq, not_true_eq_false, if_false, h1.root, hh.node, hh.bytes, hok]
  by_cases hnil : data = []
  · subst hnil
    exact ⟨_, rfl, h2.vnodeRelease _⟩
  · obtain ⟨s3, hwrite, hr, htake⟩ := tmpfsWrite_new
      (show (O_WRONLY ||| O_TRUNC) &&& O_APPEND = 0 by decide) htype a.data hsmall hnil
    have h3 := h2.write hnode htype hr
    rw [htake, Function.update_idem] at h3
    rw [if_neg (by simpa using hnil), hwrite]
    exact ⟨_, rfl, h3.vnodeRelease _⟩

/-- `initrd_unpack_dir`. -/
theorem unpackDir_spec (hh : heap.Plenty) (h : Shows s r T) {ps : List CStr}
    {c : CStr} (mode : Mode) (hgood : ∀ d ∈ ps ++ [c], Good d)
    (hshort : (absPath (ps ++ [c])).length < PATH_MAX - 1)
    (hroot : T [] = some .dir)
    (hT : ∀ x, Between [] (ps ++ [c]) x → T x = none ∨ T x = some .dir)
    (hc : T (ps ++ [c]) = none ∨ T (ps ++ [c]) = some .dir) :
    ∃ s', initrdUnpackDir heap s (absPath (ps ++ [c])) mode = (s', 0)
      ∧ Shows s' r (Function.update (withParents T (ps ++ [c])) (ps ++ [c])
        (some .dir)) := by
  obtain ⟨s1, hpar, h1⟩ := ensureParentDirs_spec hh h (by simp) hgood hshort hroot hT
  rw [← withParents_self (T := T)] at hc
  unfold initrdUnpackDir
  rw [hpar]
  exact ensureDir_spec hh h1 mode hgood (withParents_parent hroot ps c) hc

-- ==== the tree

/-- The tree of a root without anything in it. -/
def emptyTree (x : List CStr) : Option Obj := if x = [] then some .dir else none

/-- A tree with one more entry. -/
def addEntry (T : List CStr → Option Obj) (e : Entry) : List CStr → Option Obj :=
  Function.update (withParents T e.path) e.path (some e.obj)

/-- The tree of a list of entries: each at its path, and the directories
above them. -/
def treeOf (es : List Entry) (x : List CStr) : Option Obj :=
  match es.find? fun e => e.path = x with
  | some e => some e.obj
  | none => if x = [] ∨ ∃ e ∈ es, x <+: e.path then some .dir else none

theorem treeOf_nil : treeOf [] = emptyTree := by
  funext x
  simp [treeOf, emptyTree]

theorem treeOf_root {es : List Entry} (hok : ∀ e ∈ es, e.Ok) :
    treeOf es [] = some .dir := by
  unfold treeOf
  cases hf : es.find? fun e => e.path = [] with
  | none => exact if_pos (Or.inl rfl)
  | some e =>
      have hpath : e.path = [] := by simpa using List.find?_some hf
      exact congrArg some ((hok e (List.mem_of_find?_eq_some hf)).root hpath)

/-- What is not free is a directory, above an entry that is apart. -/
theorem treeOf_above {es : List Entry} {e : Entry} (hap : ∀ d ∈ es, Apart d e)
    {x : List CStr} (hx : x <+: e.path) :
    treeOf es x = none ∨ treeOf es x = some .dir := by
  unfold treeOf
  cases hf : es.find? fun d => d.path = x with
  | none =>
      show (if _ then _ else _) = none ∨ (if _ then _ else _) = some _
      split
      · exact Or.inr rfl
      · exact Or.inl rfl
  | some d =>
      have hpath : d.path = x := by simpa using List.find?_some hf
      have hdir : d.obj = .dir := by
        by_contra hd
        exact (hap d (List.mem_of_find?_eq_some hf)).1 hd (by rw [hpath]; exact hx)
      exact Or.inr (congrArg some hdir)

/-- The path of a file that is apart is free. -/
theorem treeOf_file {es : List Entry} {e : Entry} (hap : ∀ d ∈ es, Apart d e)
    (hne : e.path ≠ []) (hfile : e.obj ≠ .dir) : treeOf es e.path = none := by
  unfold treeOf
  cases hf : es.find? fun d => d.path = e.path with
  | none =>
      refine if_neg ?_
      rintro (hx | ⟨d, hd, hpre⟩)
      · exact hne hx
      · exact (hap d hd).2 hfile hpre
  | some d =>
      have hpath : d.path = e.path := by simpa using List.find?_some hf
      exact ((hap d (List.mem_of_find?_eq_some hf)).2 hfile
        (by rw [hpath])).elim

/-- One entry more. -/
theorem addEntry_treeOf {es : List Entry} {e : Entry} (hap : ∀ d ∈ es, Apart d e) :
    addEntry (treeOf es) e = treeOf (es ++ [e]) := by
  funext x
  have hfind : (es ++ [e]).find? (fun d => d.path = x)
      = (es.find? fun d => d.path = x).or (if e.path = x then some e else none) := by
    rw [List.find?_append]
    congr 1
    by_cases hx : e.path = x
    · simp [hx]
    · simp [hx]
  unfold addEntry
  by_cases hx : x = e.path
  · subst hx
    rw [Function.update_self]
    unfold treeOf
    rw [hfind, if_pos rfl]
    cases hf : es.find? fun d => d.path = e.path with
    | none => rfl
    | some d =>
        -- two entries of one path are both directories
        have hpath : d.path = e.path := by simpa using List.find?_some hf
        have hd := hap d (List.mem_of_find?_eq_some hf)
        have h1 : d.obj = .dir := by
          by_contra h
          exact hd.1 h (by rw [hpath])
        have h2 : e.obj = .dir := by
          by_contra h
          exact hd.2 h (by rw [hpath])
        show some e.obj = some d.obj
        rw [h1, h2]
  · rw [Function.update_of_ne hx]
    unfold withParents
    have hnew : treeOf (es ++ [e]) x = match es.find? fun d => d.path = x with
        | some d => some d.obj
        | none => if x = [] ∨ (∃ d ∈ es, x <+: d.path) ∨ x <+: e.path
            then some .dir else none := by
      unfold treeOf
      rw [hfind, if_neg (Ne.symm hx)]
      cases es.find? fun d => d.path = x with
      | some d => rfl
      | none =>
          show (if _ then _ else _) = if _ then _ else _
          refine if_congr ?_ rfl rfl
          simp only [List.mem_append, List.mem_singleton, or_and_right, exists_or,
            exists_eq_left]
    by_cases hb : Between [] e.path x
    · rw [if_pos hb]
      have habove := treeOf_above hap hb.2.2.1
      rw [hnew]
      unfold treeOf at habove
      cases hf : es.find? fun d => d.path = x with
      | some d =>
          rw [hf] at habove
          exact (habove.resolve_left (by simp)).symm
      | none => exact (if_pos (Or.inr (Or.inr hb.2.2.1))).symm
    · rw [if_neg hb, hnew]
      unfold treeOf
      cases es.find? fun d => d.path = x with
      | some d => rfl
      | none =>
          refine if_congr ⟨?_, ?_⟩ rfl rfl
          · rintro (h | h)
            · exact Or.inl h
            · exact Or.inr (Or.inl h)
          · rintro (h | h | h)
            · exact Or.inl h
            · exact Or.inr h
            · refine Or.inl ?_
              by_contra hnil
              exact hb ⟨List.nil_prefix, hnil, h, hx⟩

-- ==== reading back

theorem hexDigit_hexChar {d : Nat} (h : d < 16) :
    hexDigit (hexChar d) = some (BitVec.ofNat 32 d) := by
  have hall : ∀ k : Fin 16, hexDigit (hexChar k.1) = some (BitVec.ofNat 32 k.1) := by
    decide
  exact hall ⟨d, h⟩

/-- Shifting a digit in. -/
theorem shift_digit {q : Nat} (h : q < 2 ^ 32) :
    BitVec.ofNat 32 (q / 16) <<< 4 ||| BitVec.ofNat 32 (q % 16) = BitVec.ofNat 32 q := by
  apply BitVec.eq_of_toNat_eq
  have hor := Nat.shiftLeft_add_eq_or_of_lt (show q % 16 < 2 ^ 4 by omega) (q / 16)
  rw [Nat.shiftLeft_eq] at hor
  rw [BitVec.toNat_or, BitVec.toNat_shiftLeft, BitVec.toNat_ofNat, BitVec.toNat_ofNat,
    BitVec.toNat_ofNat, Nat.mod_eq_of_lt (show q / 16 < 2 ^ 32 by omega),
    Nat.mod_eq_of_lt (show q % 16 < 2 ^ 32 by omega), Nat.mod_eq_of_lt h,
    Nat.shiftLeft_eq, Nat.mod_eq_of_lt (show q / 16 * 2 ^ 4 < 2 ^ 32 by omega), ← hor]
  omega

/-- The digits that are left complete the value. -/
theorem parseLoop_hexDigits {n : Nat} (hn : n < 2 ^ 32) (k : Nat) :
    parseLoop (BitVec.ofNat 32 (n / 16 ^ k)) (hexDigits n k)
      = some (BitVec.ofNat 32 n) := by
  induction k with
  | zero => simp [hexDigits, parseLoop]
  | succ k ih =>
      have hq : n / 16 ^ k < 2 ^ 32 := lt_of_le_of_lt (Nat.div_le_self _ _) hn
      unfold hexDigits parseLoop
      rw [hexDigit_hexChar (Nat.mod_lt _ (by omega))]
      show parseLoop (BitVec.ofNat 32 (n / 16 ^ (k + 1)) <<< 4
        ||| BitVec.ofNat 32 (n / 16 ^ k % 16)) (hexDigits n k) = _
      rw [Nat.pow_succ, ← Nat.div_div_eq_div_mul, shift_digit hq]
      exact ih

theorem parse_hex8 (v : BitVec 32) : initrdParseHex (hex8 v) = some v := by
  have h := parseLoop_hexDigits v.isLt 8
  rw [Nat.div_eq_of_lt (by have := v.isLt; omega)] at h
  rw [BitVec.ofNat_toNat, BitVec.setWidth_eq] at h
  exact h

@[simp] theorem length_hexDigits (n k : Nat) : (hexDigits n k).length = k := by
  induction k with
  | zero => rfl
  | succ k ih => simp [hexDigits, ih]

@[simp] theorem length_hex8 (v : BitVec 32) : (hex8 v).length = 8 :=
  length_hexDigits _ 8

@[simp] theorem length_magic : magic.length = 6 := rfl

@[simp] theorem length_encodeHeader (m : Meta) (mode : Mode) (n k : Nat) :
    (encodeHeader m mode n k).length = HEADER := by
  simp [encodeHeader]

theorem le_align4 (n : Nat) : n ≤ initrdAlign4 n := by
  unfold initrdAlign4
  omega

theorem length_pad (n : Nat) : n + (pad n).length = initrdAlign4 n := by
  have := le_align4 n
  unfold pad
  rw [List.length_replicate]
  omega

theorem length_encode (m : Meta) (mode : Mode) (name : CStr) (bytes : List UInt8) :
    (encode m mode name bytes).length
      = initrdAlign4 (HEADER + (name.length + 1)) + initrdAlign4 bytes.length := by
  have h1 := length_pad (HEADER + (name.length + 1))
  have h2 := length_pad bytes.length
  simp only [encode, List.length_append, length_encodeHeader, List.length_singleton]
  omega

/-- A piece in the middle. -/
theorem slice_mid {mem a b c : List UInt8} {cursor off len : Nat}
    (h : mem.drop cursor = a ++ (b ++ c)) (ha : a.length = off) (hb : b.length = len) :
    slice mem (cursor + off) len = b := by
  unfold slice
  rw [← List.drop_drop, h, ← ha, List.drop_left, ← hb, List.take_left]

section entry

variable {mem rest : List UInt8} {cursor : Nat} {m : Meta} {mode : Mode} {name : CStr}
  {bytes : List UInt8}

theorem header_encode (h : mem.drop cursor = encode m mode name bytes ++ rest)
    (hname : name.length + 1 < 2 ^ 32) (hbytes : bytes.length < 2 ^ 32) :
    header mem cursor = some (mode, name.length + 1, bytes.length) := by
  simp only [encode, encodeHeader, List.append_assoc] at h
  have hmagic : slice mem (cursor + 0) 6 = magic :=
    slice_mid (a := []) h rfl length_magic
  have hmode : slice mem (cursor + 14) 8 = hex8 mode :=
    slice_mid (a := magic ++ hex8 m.ino)
      (by rw [h]; simp only [List.append_assoc]; rfl) (by simp) (length_hex8 _)
  have hfile : slice mem (cursor + 54) 8 = hex8 (BitVec.ofNat 32 bytes.length) :=
    slice_mid (a := magic ++ hex8 m.ino ++ hex8 mode ++ hex8 m.uid ++ hex8 m.gid
        ++ hex8 m.nlink ++ hex8 m.mtime)
      (by rw [h]; simp only [List.append_assoc]; rfl) (by simp) (length_hex8 _)
  have hsize : slice mem (cursor + 94) 8 = hex8 (BitVec.ofNat 32 (name.length + 1)) :=
    slice_mid (a := magic ++ hex8 m.ino ++ hex8 mode ++ hex8 m.uid ++ hex8 m.gid
        ++ hex8 m.nlink ++ hex8 m.mtime ++ hex8 (BitVec.ofNat 32 bytes.length)
        ++ hex8 m.devmajor ++ hex8 m.devminor ++ hex8 m.rdevmajor ++ hex8 m.rdevminor)
      (by rw [h]; simp only [List.append_assoc]; rfl) (by simp) (length_hex8 _)
  have hne : BitVec.ofNat 32 (name.length + 1) ≠ 0 := by
    intro e
    have := congrArg BitVec.toNat e
    rw [BitVec.toNat_ofNat, Nat.mod_eq_of_lt hname] at this
    simp at this
  unfold header
  rw [Nat.add_zero] at hmagic
  rw [hmagic, hmode, hfile, hsize, parse_hex8, parse_hex8, parse_hex8]
  simp only [ne_eq, not_true_eq_false, if_false, hne, BitVec.toNat_ofNat,
    Nat.mod_eq_of_lt hname, Nat.mod_eq_of_lt hbytes]

theorem cstr_encode (h : mem.drop cursor = encode m mode name bytes ++ rest)
    (hname : (0 : UInt8) ∉ name) : cstr mem (cursor + HEADER) = name := by
  unfold cstr encode at *
  rw [← List.drop_drop, h]
  simp only [List.append_assoc]
  rw [List.drop_left' (length_encodeHeader _ _ _ _), List.takeWhile_append_of_pos]
  · simp
  · intro x hx
    have : x ≠ 0 := fun e => hname (e ▸ hx)
    simpa using this

theorem slice_encode (h : mem.drop cursor = encode m mode name bytes ++ rest) :
    slice mem (cursor + initrdAlign4 (HEADER + (name.length + 1))) bytes.length
      = bytes := by
  refine slice_mid (a := encodeHeader m mode (name.length + 1) bytes.length
    ++ (name ++ [0]) ++ pad (HEADER + (name.length + 1)))
    (c := pad bytes.length ++ rest) ?_ ?_ rfl
  · rw [h]
    simp only [encode, List.append_assoc]
  · have := length_pad (HEADER + (name.length + 1))
    simp only [List.length_append, length_encodeHeader, List.length_singleton]
    omega

end entry

-- ==== names

theorem skipDots_of_head {name : CStr} (h : name.head? ≠ some DOT) :
    skipDots name = some name := by
  match name with
  | [] => rfl
  | [c] =>
      have hc : c ≠ DOT := fun e => h (by rw [e]; rfl)
      unfold skipDots
      rw [if_neg hc]
  | c :: d :: name =>
      have hc : c ≠ DOT := fun e => h (by rw [e]; rfl)
      unfold skipDots
      rw [if_neg fun hcd => hc hcd.1]

variable {e : Entry}

/-- Normalising takes the name of an entry to its path. -/
theorem normalize_name (hok : e.Ok) (hne : e.path ≠ []) :
    initrdNormalizePath e.name = absPath e.path := by
  obtain ⟨c, cs, hpath⟩ := List.exists_cons_of_ne_nil hne
  have hc := hok.good c (by rw [hpath]; exact List.mem_cons_self)
  have hshort := hok.short
  rw [hpath, absPath_cons, List.length_cons] at hshort
  have hhead : (c ++ absPath cs).head? ≠ some DOT := by
    rw [List.head?_append_of_ne_nil _ hc.ne]
    exact hc.dot
  have hskip : skipDots e.name = some (c ++ absPath cs) := by
    unfold Entry.name
    rw [if_neg hne, hpath, absPath_cons, List.tail_cons]
    cases e.prefixed with
    | false => exact skipDots_of_head hhead
    | true => exact skipDots_of_head hhead
  unfold initrdNormalizePath
  rw [hskip, hpath, absPath_cons]
  show SLASH :: List.take _ _ = _
  rw [List.take_of_length_le (by omega)]

theorem name_root (h : e.path = []) : e.name = [DOT] := if_pos h

theorem zero_notMem_absPath {cs : List CStr} (h : ∀ c ∈ cs, (0 : UInt8) ∉ c) :
    (0 : UInt8) ∉ absPath cs := by
  intro hm
  obtain ⟨c, hc, hin⟩ := List.mem_flatMap.mp hm
  rcases List.mem_cons.mp hin with h0 | hin
  · cases h0
  · exact h c hc hin

theorem zero_notMem_name (hok : e.Ok) : (0 : UInt8) ∉ e.name := by
  have habs := zero_notMem_absPath hok.text
  unfold Entry.name
  split
  · decide
  · intro hm
    rcases List.mem_append.mp hm with hm | hm
    · split at hm
      · revert hm
        decide
      · cases hm
    · exact habs (List.mem_of_mem_tail hm)

theorem length_name (hok : e.Ok) : e.name.length + 1 < 2 ^ 32 := by
  have hshort : (absPath e.path).length < 4095 := hok.short
  have htail : (absPath e.path).tail.length ≤ (absPath e.path).length := by
    rw [List.length_tail]
    omega
  unfold Entry.name
  split
  · decide
  · rw [List.length_append]
    split
    · simp only [List.length_cons, List.length_nil]
      omega
    · simp only [List.length_nil]
      omega

-- ==== the loop

theorem Shows.entry (hh : heap.Plenty) {done : List Entry}
    (h : Shows s r (treeOf done)) (hok : e.Ok) (hne : e.path ≠ [])
    (hdone : ∀ d ∈ done, d.Ok) (hap : ∀ d ∈ done, Apart d e) :
    (e.obj = .dir → ∃ s', initrdUnpackDir heap s (absPath e.path) e.mode = (s', 0)
      ∧ Shows s' r (treeOf (done ++ [e])))
    ∧ (e.obj ≠ .dir → ∃ s', initrdUnpackFile heap s (absPath e.path) e.mode e.bytes
        e.bytes.length = some (s', 0) ∧ Shows s' r (treeOf (done ++ [e]))) := by
  rw [← addEntry_treeOf hap]
  unfold addEntry
  have habove := fun x (hx : Between [] e.path x) => treeOf_above hap hx.2.2.1
  have hfile := treeOf_file hap hne
  have hself := treeOf_above hap (List.prefix_refl e.path)
  have hgood := hok.good
  have hshort := hok.short
  have hsmall := hok.small
  obtain ⟨ps, c, hpath⟩ : ∃ ps c, e.path = ps ++ [c] :=
    ⟨_, _, (List.dropLast_append_getLast hne).symm⟩
  rw [hpath] at habove hfile hself hgood hshort ⊢
  constructor
  · intro hdir
    rw [hdir]
    exact unpackDir_spec hh h e.mode hgood hshort (treeOf_root hdone) habove hself
  · intro hdir
    obtain ⟨s', hrun, hs'⟩ := unpackFile_spec hh h e.mode hgood hshort
      (treeOf_root hdone) habove (hfile hdir) hsmall
    refine ⟨s', hrun, ?_⟩
    have hobj : e.obj = .file e.bytes := by
      unfold Entry.bytes
      cases ho : e.obj with
      | dir => exact (hdir ho).elim
      | file b => rfl
    rw [hobj]
    exact hs'

/-- A round of the loop on an entry. -/
theorem unpackLoop_entry (hh : heap.Plenty) {done : List Entry}
    {mem rest : List UInt8} {cursor length : Nat}
    (h : Shows s r (treeOf done)) (hok : e.Ok)
    (hdone : ∀ d ∈ done, d.Ok) (hap : ∀ d ∈ done, Apart d e)
    (hmem : mem.drop cursor = encode e.aux e.mode e.name e.bytes ++ rest)
    (hlen : cursor + (encode e.aux e.mode e.name e.bytes).length ≤ length) :
    ∃ s', (∀ fuel, unpackLoop heap mem length (fuel + 1) s cursor
        = unpackLoop heap mem length fuel s'
          (cursor + (encode e.aux e.mode e.name e.bytes).length))
      ∧ Shows s' r (treeOf (done ++ [e])) := by
  have hhead := header_encode hmem (length_name hok) hok.small
  have hname := cstr_encode hmem (zero_notMem_name hok)
  have hdata := slice_encode hmem
  rw [length_encode, ← Nat.add_assoc cursor] at hlen ⊢
  have hle1 := le_align4 (HEADER + (e.name.length + 1))
  have hle2 := le_align4 e.bytes.length
  have h1 : ¬ length < cursor + HEADER := by omega
  have h2 : ¬ length < cursor + HEADER + (e.name.length + 1) := by omega
  have h3 : ¬ length < cursor + initrdAlign4 (HEADER + (e.name.length + 1))
      + e.bytes.length := by omega
  by_cases hne : e.path = []
  · refine ⟨s, fun fuel => ?_, ?_⟩
    · have hpath : initrdNormalizePath e.name = [] := by
        rw [name_root hne]
        rfl
      simp only [unpackLoop, hhead, hname, h1, h2, h3, hok.named, hpath, if_false,
        if_true]
    -- the root is there already
    · rw [← addEntry_treeOf hap]
      unfold addEntry
      rw [hne, hok.root hne, ← treeOf_root hdone]
      have hsame : withParents (treeOf done) [] = treeOf done :=
        funext fun x => if_neg fun hb => hb.2.1 (List.prefix_nil.mp hb.2.2.1)
      rw [hsame, Function.update_eq_self]
      exact h
  · have hpath := normalize_name hok hne
    have hnil : absPath e.path ≠ [] := by
      obtain ⟨c, cs, hcs⟩ := List.exists_cons_of_ne_nil hne
      rw [hcs, absPath_cons]
      exact List.cons_ne_nil _ _
    obtain ⟨hdirs, hfiles⟩ := Shows.entry hh h hok hne hdone hap
    have htype := hok.type
    by_cases hdir : e.obj = .dir
    · obtain ⟨s', hrun, hs'⟩ := hdirs hdir
      rw [hdir] at htype
      refine ⟨s', fun fuel => ?_, hs'⟩
      simp only [unpackLoop, hhead, hname, h1, h2, h3, hok.named, hpath, hnil, if_false,
        htype, typeOf, hrun, ne_eq, not_true_eq_false]
    · obtain ⟨s', hrun, hs'⟩ := hfiles hdir
      have hreg : typeOf e.obj = .reg := by
        cases ho : e.obj with
        | dir => exact (hdir ho).elim
        | file b => rfl
      rw [hreg] at htype
      refine ⟨s', fun fuel => ?_, hs'⟩
      simp only [unpackLoop, hhead, hname, hdata, h1, h2, h3, hok.named, hpath, hnil,
        if_false, htype, hrun, ne_eq, not_true_eq_false]

/-- The round on the trailer is the last. -/
theorem unpackLoop_trailer {mem rest : List UInt8} {cursor length : Nat} {m : Meta}
    {mode : Mode} (hmem : mem.drop cursor = encode m mode trailer [] ++ rest)
    (hlen : cursor + (encode m mode trailer []).length ≤ length) (fuel : Nat) :
    unpackLoop heap mem length (fuel + 1) s cursor = some (s, 0) := by
  have hhead := header_encode hmem (by decide) (by decide)
  have hname := cstr_encode hmem (by decide)
  rw [length_encode] at hlen
  have hle := le_align4 (HEADER + (trailer.length + 1))
  have h1 : ¬ length < cursor + HEADER := by omega
  have h2 : ¬ length < cursor + HEADER + (trailer.length + 1) := by omega
  have h3 : ¬ length < cursor + initrdAlign4 (HEADER + (trailer.length + 1))
      + ([] : List UInt8).length := by
    have := le_align4 ([] : List UInt8).length
    omega
  simp only [unpackLoop, hhead, hname, h1, h2, h3, if_false, if_true]

/-- The loop, over the entries that are left. -/
theorem unpackLoop_spec (hh : heap.Plenty) {mem rest : List UInt8} {length : Nat}
    {m : Meta} {mode : Mode} (es : List Entry) :
    ∀ (done : List Entry) (s : Tmpfs) (cursor fuel : Nat),
      Shows s r (treeOf done) → (∀ d ∈ done ++ es, d.Ok) →
      (done ++ es).Pairwise Apart →
      mem.drop cursor = archive es m mode ++ rest →
      cursor + (archive es m mode).length ≤ length → es.length < fuel →
      ∃ s', unpackLoop heap mem length fuel s cursor = some (s', 0)
        ∧ Shows s' r (treeOf (done ++ es)) := by
  induction es with
  | nil =>
      intro done s cursor fuel h _ _ hmem hlen hfuel
      have hnil : archive [] m mode = encode m mode trailer [] := by simp [archive]
      rw [hnil] at hmem hlen
      cases fuel with
      | zero => omega
      | succ fuel =>
          refine ⟨s, unpackLoop_trailer hmem hlen fuel, ?_⟩
          rw [List.append_nil]
          exact h
  | cons e es ih =>
      intro done s cursor fuel h hok hap hmem hlen hfuel
      have hsplit : archive (e :: es) m mode
          = encode e.aux e.mode e.name e.bytes ++ archive es m mode := by
        simp [archive]
      have hassoc : done ++ e :: es = (done ++ [e]) ++ es := by simp
      rw [hsplit, List.append_assoc] at hmem
      rw [hsplit, List.length_append] at hlen
      cases fuel with
      | zero => omega
      | succ fuel =>
          have hend : cursor + (encode e.aux e.mode e.name e.bytes).length ≤ length := by
            omega
          obtain ⟨s1, hround, h1⟩ := unpackLoop_entry hh h
            (hok e (by simp)) (fun d hd => hok d (by simp [hd]))
            (fun d hd => (List.pairwise_append.mp hap).2.2 d hd e (by simp)) hmem hend
          rw [hround, hassoc]
          refine ih (done ++ [e]) s1 _ fuel h1 (by rwa [← hassoc]) (by rwa [← hassoc])
            ?_ (by omega) (by simpa using hfuel)
          rw [← List.drop_drop, hmem, List.drop_left]

-- ==== the round trip

/-- A root directory with nothing in it and nothing else in the store. -/
structure EmptyRoot (s : Tmpfs) (r : Nat) : Prop where
  root : s.fs.vfsroot = some r
  only : ∀ n, n < s.fs.count ↔ n = r
  dir : (s.fs.nodes r).type = .dir
  bare : (s.fs.nodes r).children = []
  plain : (s.fs.nodes r).mounted = none
  fresh : (s.file r).size = 0

theorem EmptyRoot.shows (h : EmptyRoot s r) : Shows s r (treeOf []) := by
  have hnode : ∀ cs, s.node r cs = if cs = [] then some r else none := by
    intro cs
    cases cs with
    | nil => rfl
    | cons c cs =>
        have hnone : s.fs.childNamed r c = none := by
          unfold Fs.childNamed
          rw [if_pos h.dir, h.bare]
          rfl
        unfold node
        rw [List.foldlM_cons, hnone]
        rfl
  rw [treeOf_nil]
  refine ⟨h.root, (h.only r).mpr rfl, ?_, ?_, ?_, ?_, ?_⟩
  · intro n hn
    rw [(h.only n).mp hn]
    exact h.plain
  · intro cs
    rw [hnode]
    unfold emptyTree
    by_cases hcs : cs = []
    · rw [if_pos hcs, if_pos hcs, Option.map_some]
      unfold obj
      rw [h.dir]
    · rw [if_neg hcs, if_neg hcs]
      rfl
  · intro cs ds n hcs hds
    rw [hnode] at hcs hds
    split at hcs
    · split at hds
      · simp only [*]
      · cases hds
    · cases hcs
  · intro n hn
    exact ⟨[], by rw [(h.only n).mp hn]; rfl⟩
  · intro n hn
    rw [(h.only n).mp hn, h.fresh]
    exact Nat.zero_le _

/-- What a node of the unpacked tree is. -/
def Is (s : Tmpfs) (n : Nat) : Obj → Prop
  | .dir => (s.fs.nodes n).type = .dir
  | .file bytes => (s.fs.nodes n).type = .reg ∧ (s.file n).size = bytes.length
      ∧ (s.file n).data.take bytes.length = bytes

/-- A store that holds the entries, with the directories above them, and
nothing else. -/
structure Unpacked (s : Tmpfs) (es : List Entry) : Prop where
  root : ∃ r, s.fs.vfsroot = some r ∧ Is s r .dir
  entry : ∀ e ∈ es, e.path ≠ [] →
    ∃ n, s.found s.fs.vfsroot (absPath e.path) = some n ∧ Is s n e.obj
  only : ∀ n, n < s.fs.count → s.fs.vfsroot = some n ∨ ∃ e ∈ es, ∃ cs, cs ≠ []
    ∧ cs <+: e.path ∧ s.found s.fs.vfsroot (absPath cs) = some n
    ∧ ((∀ d ∈ es, d.path ≠ cs) → Is s n .dir)
  paths : ∀ cs, cs ≠ [] → (∀ c ∈ cs, Good c) →
    (s.found s.fs.vfsroot (absPath cs)).isSome → ∃ e ∈ es, cs <+: e.path

theorem Shows.is_of_tree (h : Shows s r T) {cs : List CStr} {o : Obj}
    (ho : T cs = some o) : ∃ n, s.node r cs = some n ∧ Is s n o := by
  rw [← h.tree cs] at ho
  obtain ⟨n, hn, rfl⟩ := Option.map_eq_some_iff.mp ho
  refine ⟨n, hn, ?_⟩
  have hsize := h.sized n (node_lt h.lt hn)
  unfold obj
  cases ht : (s.fs.nodes n).type with
  | dir => exact ht
  | reg =>
      have hlen : ((s.file n).data.take (s.file n).size).length = (s.file n).size :=
        List.length_take_of_le hsize
      refine ⟨ht, hlen.symm, ?_⟩
      rw [hlen]

instance : Std.Symm Apart := ⟨fun _ _ h => ⟨h.2, h.1⟩⟩

theorem treeOf_entry {es : List Entry} (hap : es.Pairwise Apart) (he : e ∈ es) :
    treeOf es e.path = some e.obj := by
  unfold treeOf
  cases hf : es.find? fun d => d.path = e.path with
  | none => exact (List.find?_eq_none.mp hf e he (by simp)).elim
  | some d =>
      have hpath : d.path = e.path := by simpa using List.find?_some hf
      have hd := List.mem_of_find?_eq_some hf
      show some d.obj = some e.obj
      by_cases hde : d = e
      · rw [hde]
      · have ha := hap.forall hd he hde
        have h1 : d.obj = .dir := by
          by_contra h
          exact ha.1 h (by rw [hpath])
        have h2 : e.obj = .dir := by
          by_contra h
          exact ha.2 h (by rw [hpath])
        rw [h1, h2]

/-- What is in the tree is at the path of an entry or above one. -/
theorem treeOf_some {es : List Entry} {cs : List CStr} {o : Obj} (hne : cs ≠ [])
    (h : treeOf es cs = some o) :
    (∃ e ∈ es, cs <+: e.path) ∧ ((∀ d ∈ es, d.path ≠ cs) → o = .dir) := by
  unfold treeOf at h
  cases hf : es.find? fun d => d.path = cs with
  | some d =>
      have hpath : d.path = cs := by simpa using List.find?_some hf
      have hd := List.mem_of_find?_eq_some hf
      exact ⟨⟨d, hd, by rw [hpath]⟩, fun hall => (hall d hd hpath).elim⟩
  | none =>
      rw [hf] at h
      dsimp only at h
      split at h
      · cases h
        rename_i hin
        exact ⟨hin.resolve_left hne, fun _ => rfl⟩
      · cases h

theorem Shows.unpacked {es : List Entry} (h : Shows s r (treeOf es))
    (hok : ∀ e ∈ es, e.Ok) (hap : es.Pairwise Apart) : Unpacked s es := by
  have hgood : ∀ e ∈ es, ∀ cs, cs <+: e.path → ∀ c ∈ cs, Good c :=
    fun e he cs hcs c hc => (hok e he).good c (hcs.subset hc)
  refine ⟨⟨r, h.root, ?_⟩, ?_, ?_, ?_⟩
  · obtain ⟨n, hn, his⟩ := Shows.is_of_tree h (treeOf_root hok)
    cases hn
    exact his
  · intro e he hne
    obtain ⟨n, hn, his⟩ := Shows.is_of_tree h (treeOf_entry hap he)
    refine ⟨n, ?_, his⟩
    rw [h.found _ _ hne (hok e he).good]
    exact hn
  · intro n hn
    obtain ⟨cs, hcs⟩ := h.all n hn
    by_cases hne : cs = []
    · subst hne
      cases hcs
      exact Or.inl h.root
    · obtain ⟨o, ho⟩ : ∃ o, treeOf es cs = some o :=
        ⟨s.obj n, by rw [← h.tree, hcs]; rfl⟩
      obtain ⟨⟨e, he, hpre⟩, hdir⟩ := treeOf_some hne ho
      obtain ⟨m, hm, his⟩ := Shows.is_of_tree h ho
      rw [hcs] at hm
      cases hm
      refine Or.inr ⟨e, he, cs, hne, hpre, ?_, fun hall => ?_⟩
      · rw [h.found _ cs hne (hgood e he cs hpre)]
        exact hcs
      · rw [hdir hall] at his
        exact his
  · intro cs hne hcs hsome
    rw [h.found _ cs hne hcs] at hsome
    obtain ⟨n, hn⟩ := Option.isSome_iff_exists.mp hsome
    have ho : treeOf es cs = some (s.obj n) := by
      rw [← h.tree, hn]
      rfl
    exact (treeOf_some hne ho).1

theorem length_le_archive (es : List Entry) (m : Meta) (mode : Mode) :
    es.length < (archive es m mode).length := by
  induction es with
  | nil =>
      have := length_encode m mode trailer []
      have hle := le_align4 (HEADER + (trailer.length + 1))
      simp only [archive, List.flatMap_nil, List.nil_append, List.length_nil]
      omega
  | cons e es ih =>
      have := length_encode e.aux e.mode e.name e.bytes
      have hle := le_align4 (HEADER + (e.name.length + 1))
      simp only [archive, List.flatMap_cons, List.length_append, List.length_cons] at ih ⊢
      omega

/-- `initrd_unpack` of an archive of entries that are apart, into an empty
root and with all the memory it asks for, returns 0 and leaves the tree
of the entries. The module may be longer than the archive, and the memory
longer than the module. -/
theorem unpack_archive (hh : heap.Plenty) (hroot : EmptyRoot s r)
    {es : List Entry} (hok : ∀ e ∈ es, e.Ok) (hap : es.Pairwise Apart)
    (m : Meta) (mode : Mode) (rest : List UInt8) {length : Nat}
    (hlen : (archive es m mode).length ≤ length) :
    ∃ s', initrdUnpack heap s (archive es m mode ++ rest) length = some (s', 0)
      ∧ Unpacked s' es := by
  have hpos := length_le_archive es m mode
  have hmem : (archive es m mode ++ rest).drop 0 = archive es m mode ++ rest := rfl
  have hend : 0 + (archive es m mode).length ≤ length := by omega
  obtain ⟨s', hrun, hs'⟩ := unpackLoop_spec hh es [] s 0 (length + 1) hroot.shows hok
    hap hmem hend (by omega)
  refine ⟨s', ?_, Shows.unpacked hs' hok hap⟩
  unfold initrdUnpack
  rw [if_neg (by omega)]
  exact hrun

/-- The store after a tmpfs is mounted as the root. -/
def rootMount : Tmpfs where
  fs :=
    { nodes := fun _ =>
        { type := .dir, mounted := none, refcount := 1, parent := none
          children := [], name := [] }
      count := 1, vfsroot := some 0
      mount_lt := fun _ _ h => nomatch h }
  file := fun _ => { vfs := 0, data := [], size := 0, mode := 0x41ed#32, inode := 1 }
  supers := fun _ => { root := 0, nextInode := 2, nodeCount := 1, byteCount := 0 }
  superCount := 1
  closed := ⟨fun _ _ h => (nomatch h), fun _ h => by cases h; exact Nat.zero_lt_one⟩

theorem rootMount_empty : EmptyRoot rootMount 0 where
  root := rfl
  only := fun _ => Nat.lt_one_iff
  dir := rfl
  bare := rfl
  plain := rfl
  fresh := rfl

/-- A file `./a/b` and, behind it, its directory `a`. -/
theorem unpack_archive_file :
    let m : Meta := ⟨0, 0, 0, 0, 0, 0, 0, 0, 0, 0⟩
    let es : List Entry :=
      [⟨m, 0x81a4#32, true, [[97], [98]], .file [1, 2, 3]⟩,
        ⟨m, 0x41ed#32, false, [[97]], .dir⟩]
    ∃ s', initrdUnpack ⟨fun _ => true, fun _ => true⟩ rootMount (archive es m 0) 356
        = some (s', 0) ∧ Unpacked s' es := by
  intro m es
  have hgood : ∀ c ∈ [[(97 : UInt8)], [98]], Good c ∧ (0 : UInt8) ∉ c := by
    intro c hc
    simp only [List.mem_cons, List.not_mem_nil, or_false] at hc
    rcases hc with rfl | rfl
    · exact ⟨⟨by decide, by decide, by decide, by decide⟩, by decide⟩
    · exact ⟨⟨by decide, by decide, by decide, by decide⟩, by decide⟩
  have hok : ∀ e ∈ es, e.Ok := by
    intro e he
    simp only [es, List.mem_cons, List.not_mem_nil, or_false] at he
    rcases he with rfl | rfl
    · exact ⟨fun c hc => (hgood c hc).1, fun c hc => (hgood c hc).2, by decide,
        by decide, fun h => (nomatch h), by decide, by decide⟩
    · exact ⟨fun c hc => (hgood c (List.mem_cons.mpr (Or.inl (by simpa using hc)))).1,
        fun c hc => (hgood c (List.mem_cons.mpr (Or.inl (by simpa using hc)))).2,
        by decide, by decide, fun h => (nomatch h), by decide, by decide⟩
  have hap : es.Pairwise Apart := by
    refine List.pairwise_pair.mpr ⟨fun _ h => ?_, fun h => (h rfl).elim⟩
    have := h.length_le
    simp at this
  have hheap : Heap.Plenty ⟨fun _ => true, fun _ => true⟩ :=
    ⟨fun _ => rfl, fun _ => rfl⟩
  have hrun := unpack_archive hheap rootMount_empty hok hap m 0 []
    (show (archive es m 0).length ≤ 356 by decide +kernel)
  rwa [List.append_nil] at hrun

end Alix.Initrd
