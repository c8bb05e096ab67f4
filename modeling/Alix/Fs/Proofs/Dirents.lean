/-
A directory read in pieces while files are created in it.

The entries a directory has are a list: ".", ".." and the children, newest
first (`slots`), and an offset is a position in it. `tmpfs_getdents` reads
from a position on (`getdentsLoop_slots`), and `tmpfs_create` inserts behind
the first two. So a scan is a cursor over a list that grows (`Scan.run`),
and a creation that comes when the cursor has passed the new files moves
an old one over it: that one is returned twice (`scan_once_iff`).

An entry is known by its inode number and its name. They tell all entries
of a directory apart (`slots_nodup`), also in a directory with a child
called "." or "..", which `tmpfs_create` makes.
-/
import Alix.Lib.Cursor
import Alix.Fs.Dirents
import Alix.Fs.Proofs.Tmpfs

namespace Alix.Tmpfs

variable {s s' : Tmpfs} {d : Nat}

-- ==== the entries

/-- What an entry is known by. -/
structure Key where
  ino : Nat
  name : CStr
  deriving DecidableEq

def Dirent.key (e : Dirent) : Key := ⟨e.ino, e.name⟩

/-- The key of a node under a name. -/
def keyOf (s : Tmpfs) (name : CStr) (n : Nat) : Key := ⟨(s.file n).inode, name⟩

/-- The entries "." and "..". -/
def dots (s : Tmpfs) (d : Nat) : List Key :=
  [s.keyOf [DOT] d, s.keyOf [DOT, DOT] ((s.fs.nodes d).parent.getD d)]

/-- The entries of the children. -/
def childSlots (s : Tmpfs) (d : Nat) : List Key :=
  (s.fs.nodes d).children.map fun c => s.keyOf (s.fs.nodes c).name c

/-- All entries, by position. -/
def slots (s : Tmpfs) (d : Nat) : List Key := s.dots d ++ s.childSlots d

/-- What is at each position: a node, and the name that it has there. -/
def places (s : Tmpfs) (d : Nat) : List (Nat × CStr) :=
  [(d, [DOT]), ((s.fs.nodes d).parent.getD d, [DOT, DOT])]
    ++ (s.fs.nodes d).children.map fun c => (c, (s.fs.nodes c).name)

theorem slots_places (s : Tmpfs) (d : Nat) :
    s.slots d = (s.places d).map fun p => s.keyOf p.2 p.1 := by
  simp [slots, dots, childSlots, places]

theorem length_slots (s : Tmpfs) (d : Nat) :
    (s.slots d).length = (s.fs.nodes d).children.length + 2 := by
  simp [slots, dots, childSlots]

theorem Inv.children_nodup (h : Inv s) (hd : d < s.fs.count) :
    (s.fs.nodes d).children.Nodup :=
  ((h.each _ (h.vfs_lt d hd)).names d (mem_nodesOf.mpr ⟨hd, rfl⟩)).of_map

/-- Positions fit in 64 bits. -/
theorem Inv.slots_lt (h : Inv s) (hd : d < s.fs.count) :
    (s.slots d).length < 2 ^ 64 := by
  have hsub : (s.fs.nodes d).children.toFinset ⊆ Finset.range s.fs.count := by
    intro c hc
    rw [Finset.mem_range]
    exact s.closed.child d c (List.mem_toFinset.mp hc)
  have hcard := Finset.card_le_card hsub
  rw [List.toFinset_card_of_nodup (h.children_nodup hd), Finset.card_range] at hcard
  have hfits := h.fits
  unfold Fits at hfits
  rw [length_slots]
  omega

/-- The children of a directory are nodes of its instance below it. -/
theorem Inv.child (h : Inv s) (hd : d < s.fs.count) {c : Nat}
    (hc : c ∈ (s.fs.nodes d).children) :
    c ∈ s.nodesOf (s.file d).vfs ∧ (s.fs.nodes c).parent = some d :=
  ((h.each _ (h.vfs_lt d hd)).parent_iff d c).mp ⟨mem_nodesOf.mpr ⟨hd, rfl⟩, hc⟩

/-- So is what ".." names. -/
theorem Inv.parent_mem (h : Inv s) (hd : d < s.fs.count) :
    (s.fs.nodes d).parent.getD d ∈ s.nodesOf (s.file d).vfs := by
  have hmem : d ∈ s.nodesOf (s.file d).vfs := mem_nodesOf.mpr ⟨hd, rfl⟩
  cases hp : (s.fs.nodes d).parent with
  | none => exact hmem
  | some p =>
      exact (((h.each _ (h.vfs_lt d hd)).parent_iff p d).mpr ⟨hmem, hp⟩).1

/-- No child is the directory or what is above it: from there no parent
pointer would lead to the root. -/
theorem Inv.child_below (h : Inv s) (hd : d < s.fs.count) {c : Nat}
    (hc : c ∈ (s.fs.nodes d).children) :
    c ≠ d ∧ c ≠ (s.fs.nodes d).parent.getD d := by
  have hcon := h.each _ (h.vfs_lt d hd)
  obtain ⟨hcmem, hparent⟩ := h.child hd hc
  have hmem : d ∈ s.nodesOf (s.file d).vfs := mem_nodesOf.mpr ⟨hd, rfl⟩
  -- a set of nodes closed under parents that have one misses the root
  have hloop : ∀ n, Relation.ReflTransGen
      (fun c p => c ∈ s.nodesOf (s.file d).vfs ∧ (s.fs.nodes c).parent = some p)
      d n → (s.fs.nodes d).parent = some c → n = d ∨ n = c := by
    intro n hn hdc
    induction hn with
    | refl => exact Or.inl rfl
    | tail _ hstep ih =>
        obtain ⟨-, hstep⟩ := hstep
        obtain rfl | rfl := ih
        · rw [hdc] at hstep
          cases hstep
          exact Or.inr rfl
        · rw [hparent] at hstep
          cases hstep
          exact Or.inl rfl
  have habove : (s.fs.nodes d).parent ≠ some c := by
    intro hdc
    have hroot := (hcon.top (s.supers (s.file d).vfs).root hcon.root_mem).mpr rfl
    obtain hn | hn := hloop _ (hcon.rooted d hmem) hdc
    · rw [hn, hdc] at hroot
      cases hroot
    · rw [hn, hparent] at hroot
      cases hroot
  have hself : c ≠ d := by
    intro hcd
    subst hcd
    exact habove hparent
  refine ⟨hself, fun hcp => ?_⟩
  cases hp : (s.fs.nodes d).parent with
  | none =>
      rw [hp] at hcp
      exact hself hcp
  | some p =>
      rw [hp] at hcp
      exact habove (hp.trans (congrArg some hcp.symm))

/-- Inode numbers tell the nodes of an instance apart. -/
theorem Inv.keyOf_inj (h : Inv s) (hd : d < s.fs.count) {n m : Nat}
    (hn : n ∈ s.nodesOf (s.file d).vfs) (hm : m ∈ s.nodesOf (s.file d).vfs)
    {x y : CStr} (he : s.keyOf x n = s.keyOf y m) : n = m :=
  (h.each _ (h.vfs_lt d hd)).inode_inj n hn m hm (Key.mk.inj he).1

theorem Inv.slots_nodup (h : Inv s) (hd : d < s.fs.count) : (s.slots d).Nodup := by
  have hmem : d ∈ s.nodesOf (s.file d).vfs := mem_nodesOf.mpr ⟨hd, rfl⟩
  unfold slots
  rw [List.nodup_append]
  refine ⟨?_, ?_, ?_⟩
  · have hne : s.keyOf [DOT] d
        ≠ s.keyOf [DOT, DOT] ((s.fs.nodes d).parent.getD d) := by
      intro he
      have := (Key.mk.inj he).2
      cases this
    simp [dots, hne]
  · refine List.Nodup.of_map Key.name ?_
    rw [childSlots, List.map_map]
    exact (h.each _ (h.vfs_lt d hd)).names d hmem
  · intro a ha b hb hab
    obtain ⟨c, hc, rfl⟩ := List.mem_map.mp hb
    have hcmem := (h.child hd hc).1
    have hbelow := h.child_below hd hc
    rw [dots, List.mem_cons, List.mem_singleton] at ha
    obtain rfl | rfl := ha
    · exact hbelow.1 (h.keyOf_inj hd hmem hcmem hab).symm
    · exact hbelow.2 (h.keyOf_inj hd (h.parent_mem hd) hcmem hab).symm

-- ==== one call

/-- What the loop makes of a position: the entry there, and the next
position; nothing behind the last child. -/
theorem getdentsLoop_places (s : Tmpfs) (d left index : Nat) :
    s.getdentsLoop d (left + 1) index = [] ∧ (s.places d).length ≤ index
      ∨ ∃ p, (s.places d)[index]? = some p
        ∧ s.getdentsLoop d (left + 1) index
          = s.tmpfsFillDirent (some p.1) (some p.2) ((index + 1) % 2 ^ 64)
            :: s.getdentsLoop d left ((index + 1) % 2 ^ 64) := by
  rw [getdentsLoop]
  dsimp only
  by_cases h0 : index = 0
  · subst h0
    rw [if_pos rfl]
    exact Or.inr ⟨_, rfl, rfl⟩
  rw [if_neg h0]
  by_cases h1 : index = 1
  · subst h1
    rw [if_pos rfl]
    exact Or.inr ⟨_, rfl, rfl⟩
  rw [if_neg h1]
  obtain ⟨i, rfl⟩ : ∃ i, index = i + 2 := ⟨index - 2, by omega⟩
  rw [Nat.add_sub_cancel]
  cases hc : s.tmpfsChildAt d i with
  | none =>
      refine Or.inl ⟨rfl, ?_⟩
      have hlen := List.getElem?_eq_none_iff.mp hc
      simp only [places, List.length_append, List.length_map, List.length_cons, List.length_nil]
      omega
  | some c =>
      refine Or.inr ⟨(c, (s.fs.nodes c).name), ?_, rfl⟩
      unfold tmpfsChildAt at hc
      show ((s.fs.nodes d).children.map fun c => (c, (s.fs.nodes c).name))[i]? = _
      rw [List.getElem?_map, hc]
      rfl

/-- Its key and where it goes on. -/
theorem getdentsLoop_succ (s : Tmpfs) (d left index : Nat) :
    s.getdentsLoop d (left + 1) index = []
        ∧ (s.slots d).length ≤ index
      ∨ ∃ e, s.getdentsLoop d (left + 1) index
          = e :: s.getdentsLoop d left ((index + 1) % 2 ^ 64)
        ∧ e.off = (index + 1) % 2 ^ 64
        ∧ ∃ k, (s.slots d)[index]? = some k ∧ e.ino = k.ino
          ∧ e.name = k.name.take NAME_MAX := by
  rw [slots_places, List.length_map]
  rcases s.getdentsLoop_places d left index with hend | ⟨p, hp, hloop⟩
  · exact Or.inl hend
  · refine Or.inr ⟨_, hloop, rfl, s.keyOf p.2 p.1, ?_, rfl, rfl⟩
    rw [List.getElem?_map, hp]
    rfl

/-- No name is cut. -/
theorem Inv.slot_name (h : Inv s) (hd : d < s.fs.count) {k : Key}
    (hk : k ∈ s.slots d) : k.name.take NAME_MAX = k.name := by
  refine List.take_of_length_le ?_
  unfold slots dots childSlots at hk
  simp only [List.mem_append, List.mem_cons, List.not_mem_nil, or_false,
    List.mem_map] at hk
  obtain (rfl | rfl) | ⟨c, hc, rfl⟩ := hk
  · exact show [DOT].length ≤ NAME_MAX by decide
  · exact show [DOT, DOT].length ≤ NAME_MAX by decide
  · exact (h.each _ (h.vfs_lt d hd)).name_le c (h.child hd hc).1

/-- A call returns the entries from its offset on, as many as fit, and the
last one has the offset behind it. -/
theorem getdentsLoop_slots (h : Inv s) (hd : d < s.fs.count) (left : Nat) :
    ∀ index, (s.getdentsLoop d left index).map Dirent.key
        = ((s.slots d).drop index).take left
      ∧ ∀ e ∈ (s.getdentsLoop d left index).getLast?,
        e.off = index + (s.getdentsLoop d left index).length := by
  have hlt := h.slots_lt hd
  induction left with
  | zero =>
      intro index
      refine ⟨rfl, fun e he => ?_⟩
      cases he
  | succ left ih =>
      intro index
      obtain ⟨hnil, hlen⟩ | ⟨e, hloop, hoff, k, hk, hino, hname⟩ :=
        getdentsLoop_succ s d left index
      · rw [hnil, List.drop_of_length_le hlen]
        refine ⟨rfl, fun e he => ?_⟩
        cases he
      · obtain ⟨hindex, hkey⟩ := List.getElem?_eq_some_iff.mp hk
        have hmod : (index + 1) % 2 ^ 64 = index + 1 :=
          Nat.mod_eq_of_lt (by omega)
        rw [hmod] at hloop hoff
        obtain ⟨ih1, ih2⟩ := ih (index + 1)
        have hentry : Dirent.key e = (s.slots d)[index] := by
          have hcut := h.slot_name hd (List.mem_of_getElem? hk)
          rw [hcut] at hname
          rw [hkey]
          exact congrArg₂ Key.mk hino hname
        rw [hloop]
        refine ⟨?_, ?_⟩
        · rw [List.map_cons, ih1, List.drop_eq_getElem_cons hindex,
            List.take_succ_cons, hentry]
        · intro last hlast
          rw [List.length_cons]
          cases hrest : s.getdentsLoop d left (index + 1) with
          | nil =>
              rw [hrest] at hlast
              cases hlast
              exact hoff
          | cons e' rest =>
              rw [hrest, List.getLast?_cons_cons] at hlast
              have := ih2 last (by rw [hrest]; exact hlast)
              rw [hrest] at this
              omega

-- ==== a scan

/-- A scan of a directory: the store, where it goes on, the entries it has,
where it was at the creations, and whether it has come to the end. -/
structure Scan where
  store : Tmpfs
  offset : Nat
  seen : List Dirent
  log : List Nat
  done : Bool

/-- It goes on at `d_off` of the last entry, and ends without one. -/
def Scan.answer (sc : Scan) (entries : List Dirent) : Scan :=
  match entries.getLast? with
  | none => { sc with done := true }
  | some e => { sc with offset := e.off, seen := sc.seen ++ entries }

/-- The scans of a directory, with calls of `tmpfs_create` in it between
the calls of `tmpfs_getdents`. A call has room for an entry. -/
inductive Scanned (s : Tmpfs) (d : Nat) : Scan → Prop
  | start : Scanned s d ⟨s, 0, [], [], false⟩
  | call {sc : Scan} {entries : List Dirent} (size : Nat) (hsize : DIRENT ≤ size)
      (h : Scanned s d sc) (hlive : sc.done = false)
      (hcall : sc.store.tmpfsGetdents (some d) true size sc.offset = (0, entries)) :
      Scanned s d (sc.answer entries)
  | create {sc : Scan} {s' : Tmpfs} {n : Nat} (name : Option CStr)
      (attr : Option Mode) (type : Mode) (result ok : Bool)
      (h : Scanned s d sc) (hlive : sc.done = false)
      (hcreate : sc.store.tmpfsCreate (some d) name attr type result ok = .ok (s', n))
      (hfits : Fits s') :
      Scanned s d { sc with store := s', log := sc.log ++ [sc.offset] }

/-- ".", ".." and each child there was are returned once. -/
def Once (s : Tmpfs) (d : Nat) (seen : List Dirent) : Prop :=
  ∀ k ∈ s.slots d, (seen.map Dirent.key).count k = 1

/-- No creation finds the scan behind the files created since it began. -/
def InTime (log : List Nat) : Prop := ∀ i off, log[i]? = some off → off ≤ 2 + i

/-- A creation puts one entry behind "." and "..". -/
theorem Added.slots {name : CStr} {type : NodeType} (a : Added s s' d name type)
    (h : Inv s) :
    ∃ k, s'.dots d = s.dots d ∧ s'.childSlots d = k :: s.childSlots d := by
  have hkey : ∀ n, n < s.fs.count → ∀ x, s'.keyOf x n = s.keyOf x n := by
    intro n hn x
    unfold keyOf
    rw [a.file n (Nat.ne_of_lt hn)]
  refine ⟨s'.keyOf (s'.fs.nodes s.fs.count).name s.fs.count, ?_, ?_⟩
  · have hp := (mem_nodesOf.mp (h.parent_mem a.lt)).1
    unfold dots
    rw [(a.old a.lt).2.1, hkey d a.lt, hkey _ hp]
  · unfold childSlots
    rw [show (s'.fs.nodes d).children = s.fs.count :: (s.fs.nodes d).children by
      rw [a.parent], List.map_cons]
    refine congrArg _ (List.map_congr_left fun c hc => ?_)
    have hlt := s.closed.child d c hc
    rw [(a.old hlt).2.2, hkey c hlt]

/-- A scan as a cursor over the entries. -/
structure Tracks (s : Tmpfs) (d : Nat) (sc : Scan) (grown : List Key) : Prop where
  run : Cursor.Run (s.dots d) (s.childSlots d) grown sc.offset
    (sc.seen.map Dirent.key) sc.log
  slots : sc.store.slots d = s.dots d ++ (grown ++ s.childSlots d)
  dots : sc.store.dots d = s.dots d
  inv : Inv sc.store
  lt : d < sc.store.fs.count
  stop : sc.done = true → (sc.store.slots d).drop sc.offset = []

theorem Tracks.answer {sc : Scan} {grown : List Key} {entries : List Dirent}
    {size : Nat} (h : Tracks s d sc grown) (hsize : DIRENT ≤ size)
    (hlive : sc.done = false)
    (hcall : sc.store.tmpfsGetdents (some d) true size sc.offset = (0, entries)) :
    Tracks s d (sc.answer entries) grown := by
  have hcap : 1 ≤ size / DIRENT := (Nat.le_div_iff_mul_le (by decide)).mpr (by omega)
  have hloop : entries = sc.store.getdentsLoop d (size / DIRENT) sc.offset := by
    unfold tmpfsGetdents at hcall
    dsimp only [Bool.not_true, Bool.false_eq_true, if_false] at hcall
    split at hcall
    case isTrue h => cases h
    split at hcall
    case isTrue => cases hcall
    rw [if_neg (by omega)] at hcall
    exact (Prod.ext_iff.mp hcall).2.symm
  obtain ⟨hkeys, hlast⟩ :=
    getdentsLoop_slots h.inv h.lt (size / DIRENT) sc.offset
  rw [← hloop] at hkeys hlast
  unfold Scan.answer
  cases he : entries.getLast? with
  | none =>
      rw [List.getLast?_eq_none_iff] at he
      rw [he, List.map_nil] at hkeys
      refine ⟨h.run, h.slots, h.dots, h.inv, h.lt, fun _ => ?_⟩
      have hlen := congrArg List.length hkeys
      rw [List.length_take, List.length_nil] at hlen
      refine List.eq_nil_of_length_eq_zero ?_
      show ((sc.store.slots d).drop sc.offset).length = 0
      omega
  | some e =>
      have hoff := hlast e he
      have hread := Cursor.Run.read (size / DIRENT) h.run
      rw [← h.slots, ← hkeys, List.length_map, ← hoff, ← List.map_append] at hread
      refine ⟨hread, h.slots, h.dots, h.inv, h.lt, fun hdone => ?_⟩
      rw [hlive] at hdone
      cases hdone

theorem Tracks.create {sc : Scan} {grown : List Key} {s' : Tmpfs} {n : Nat}
    {name : Option CStr} {attr : Option Mode} {type : Mode} {result ok : Bool}
    (h : Tracks s d sc grown) (hlive : sc.done = false)
    (hcreate : sc.store.tmpfsCreate (some d) name attr type result ok = .ok (s', n))
    (hfits : Fits s') :
    ∃ k, Tracks s d { sc with store := s', log := sc.log ++ [sc.offset] }
      (k :: grown) := by
  have hlt : ∀ p, some d = some p → p < sc.store.fs.count := by
    intro p hp
    cases hp
    exact h.lt
  have hinv := inv_tmpfsCreate h.inv hlt hcreate hfits
  obtain ⟨p, nm, ty, mode, hp, -, -, -, -, -, -, -, rfl⟩ := tmpfsCreate_cases hcreate
  cases hp
  have a := added_addChild h.lt nm ty mode
  obtain ⟨k, hdots, hchildren⟩ := a.slots h.inv
  have hlt' : d < (sc.store.addChild d nm ty mode).fs.count := by
    rw [a.count]
    exact Nat.lt_succ_of_lt h.lt
  have htail : sc.store.childSlots d = grown ++ s.childSlots d := by
    have hslots := h.slots
    unfold Tmpfs.slots at hslots
    rw [h.dots] at hslots
    exact List.append_cancel_left hslots
  have hslots : (sc.store.addChild d nm ty mode).slots d
      = s.dots d ++ (k :: grown ++ s.childSlots d) := by
    unfold Tmpfs.slots
    rw [hdots, hchildren, h.dots, htail]
    rfl
  have hnew : k ∉ s.dots d ++ s.childSlots d := by
    have hnodup := hinv.slots_nodup hlt'
    rw [hslots, List.cons_append, List.nodup_middle] at hnodup
    intro hk
    refine (List.nodup_cons.mp hnodup).1 ?_
    simp only [List.mem_append] at hk ⊢
    tauto
  refine ⟨k, h.run.insert k hnew, hslots, hdots.trans h.dots, hinv, hlt', fun hdone => ?_⟩
  rw [hlive] at hdone
  cases hdone

theorem Scanned.tracks (h : Reachable s) (hd : d < s.fs.count) {sc : Scan}
    (hrun : Scanned s d sc) : ∃ grown, Tracks s d sc grown := by
  induction hrun with
  | start =>
      refine ⟨[], Cursor.Run.start, rfl, rfl, h.inv, hd, fun hdone => ?_⟩
      cases hdone
  | call size hsize _ hlive hcall ih =>
      obtain ⟨grown, ih⟩ := ih
      exact ⟨grown, ih.answer hsize hlive hcall⟩
  | create name attr type result ok _ hlive hcreate hfits ih =>
      obtain ⟨grown, ih⟩ := ih
      obtain ⟨k, hk⟩ := ih.create hlive hcreate hfits
      exact ⟨k :: grown, hk⟩

/-- A scan that comes to its end has returned ".", ".." and each child there
was at its start once, exactly if no creation found it behind the files
created since. -/
theorem scan_once_iff (h : Reachable s) (hd : d < s.fs.count) {sc : Scan}
    (hrun : Scanned s d sc) (hdone : sc.done = true) :
    Once s d sc.seen ↔ InTime sc.log := by
  obtain ⟨grown, ht⟩ := hrun.tracks h hd
  have hend := ht.stop hdone
  rw [ht.slots] at hend
  exact ht.run.once_iff (h.inv.slots_nodup hd) hend

/-- A mount, and a file "a" below its root. -/
def oneFile : Tmpfs :=
  match empty.tmpfsMount true with
  | none => empty
  | some s =>
      match s.tmpfsCreate (some 0) (some [97]) none S_IFREG true true with
      | .error _ => s
      | .ok (s, _) => s

theorem reachable_oneFile : Reachable oneFile :=
  .create (some 0) (some [97]) none S_IFREG true true
    (.mount true .init rfl (by unfold Fits; decide +kernel))
    (fun p hp => by cases hp; decide +kernel) rfl
    (by unfold Fits; decide +kernel)

/-- A file "b" is created when the scan has returned "." and "..". -/
theorem scan_once_iff_early :
    ∃ sc, Scanned oneFile 0 sc ∧ sc.done = true ∧ sc.log = [2]
      ∧ (Once oneFile 0 sc.seen ↔ InTime sc.log) := by
  have hrun : Scanned oneFile 0 _ :=
    .call 840 (by decide)
      (.call 840 (by decide)
        (.create (some [98]) none S_IFREG true true
          (.call 560 (by decide) .start rfl rfl) rfl rfl
          (by unfold Fits; decide +kernel)) rfl rfl) rfl rfl
  exact ⟨_, hrun, rfl, rfl, scan_once_iff reachable_oneFile (by decide +kernel) hrun rfl⟩

/-- And when it has returned "a" as well: "a" moves to where the scan goes
on. -/
theorem scan_twice :
    Reachable oneFile ∧ ∃ sc, Scanned oneFile 0 sc ∧ sc.done = true
      ∧ sc.seen.map Dirent.key = [⟨1, [DOT]⟩, ⟨1, [DOT, DOT]⟩, ⟨2, [97]⟩, ⟨2, [97]⟩]
      ∧ ¬ Once oneFile 0 sc.seen := by
  have hrun : Scanned oneFile 0 _ :=
    .call 840 (by decide)
      (.call 840 (by decide)
        (.create (some [98]) none S_IFREG true true
          (.call 840 (by decide) .start rfl rfl) rfl rfl
          (by unfold Fits; decide +kernel)) rfl rfl) rfl rfl
  refine ⟨reachable_oneFile, _, hrun, rfl, by decide +kernel, fun honce => ?_⟩
  have hmem : (⟨2, [97]⟩ : Key) ∈ oneFile.slots 0 := by decide +kernel
  have hcount := honce _ hmem
  revert hcount
  decide +kernel

end Alix.Tmpfs
