/-
`sdi_read_file` gives the file or nothing.

# The loop

At the start of a round the buffer has the bytes of the file up to the
offset, and the heap has one allocation more than at the start, or none as
long as nothing has been read (`Reading`). The capacity is 4096 or more
and a chunk is shorter, so one doubling is always enough. Growing keeps
the bytes (`Reading.grow`), the copy adds those of the chunk
(`Reading.append`).

# The ways out

A failure frees the buffer, which leaves the heap with the allocations it
had (`readFailed_spec`). All three ways out drop the reference that
`vfs_open` has taken, so the vnodes are as they were (`read_file_exact`).
-/
import Alix.Fs.Proofs.Contents
import Alix.Fs.Proofs.Mount
import Alix.Mm.Proofs.Payload
import Alix.Sdi.ReadFile

namespace Alix

open Bytes (Memory copy)
open Dyadic (Block)
open Kheap (Run SameBytes granted released MayFree)
open Tmpfs (growLoop)

-- ==== references

/-- A reference that is taken and dropped leaves everything as it was. -/
theorem Vfs.hold_release (s : Vfs) (node : Nat) :
    (s.vnodeHold node).vnodeRelease (some node) = s := by
  have hnodes : (s.store.held node |>.vnodeRelease node).fs.nodes = s.store.fs.nodes := by
    simp [Tmpfs.held, Tmpfs.vnodeRelease, Fs.vnodeRelease, Fs.modNode, Fs.vnodeHold]
  obtain ⟨store, registry⟩ := s
  obtain ⟨fs, file, supers, superCount, closed⟩ := store
  obtain ⟨nodes, count, vfsroot, hlt⟩ := fs
  unfold Vfs.vnodeHold Vfs.vnodeRelease Tmpfs.held Tmpfs.vnodeRelease Fs.vnodeRelease Fs.modNode
    Fs.vnodeHold at *
  dsimp only at *
  congr

/-- A vnode that is opened for reading is held, and nothing else. -/
theorem Vfs.openNode_rdonly (s : Vfs) (node : Nat) :
    s.openNode node O_RDONLY = (s, .ok node) := by
  have hopen : s.store.tmpfsOpen (some node) O_RDONLY = (s.store, 0) := by
    unfold Tmpfs.tmpfsOpen
    simp [Tmpfs.tmpfsOpenFlagsValid]
  unfold Vfs.openNode
  rw [hopen]
  rfl

theorem Vfs.vfsOpen_rdonly (s : Vfs) (path : CStr) :
    (∃ rc, s.vfsOpen s.store.fs.vfsroot (some path) O_RDONLY true = (s, .error rc))
      ∨ ∃ node, s.found s.store.fs.vfsroot path = some node
        ∧ s.vfsOpen s.store.fs.vfsroot (some path) O_RDONLY true
          = (s.vnodeHold node, .ok node) := by
  unfold Vfs.vfsOpen
  rcases s.vfsLookup_cases true s.store.fs.vfsroot (some path) 0#32 with ⟨rc, he, -⟩ | ⟨f, he, hf⟩
  · left
    exact ⟨rc, by simp [he]⟩
  · right
    obtain ⟨p, hp, hfound⟩ := hf rfl
    cases hp
    refine ⟨f.node, hfound, ?_⟩
    simp [he, openNode_rdonly]

-- ==== the heap

namespace Kheap

variable {maxPfn : Nat} {usable : Nat → Bool} {s s' heap heap' heap₀ : Kheap}
  {live : List (Nat × Nat)} {others : List Block} {F : List UInt8}
  {buffer capacity size n b c : Nat}

/-- What has been handed out may be given back. -/
theorem mayFree_granted (live : List (Nat × Nat)) (buffer capacity : Nat) :
    MayFree (granted live buffer capacity) buffer := by
  unfold granted
  by_cases h : buffer = 0
  · exact Or.inl h
  · rw [if_neg h]
    exact Or.inr ⟨capacity, List.mem_cons_self⟩

/-- And then the others are left. -/
theorem released_granted (h : Run maxPfn usable s (granted live buffer capacity) others) :
    released (granted live buffer capacity) buffer = live := by
  have hkept := h.kept
  unfold granted at hkept ⊢
  by_cases h0 : buffer = 0
  · simp only [h0, if_true] at hkept ⊢
    exact hkept.released_null
  · simp only [h0, if_false] at hkept ⊢
    obtain ⟨⟨G, ref, hinv⟩, -⟩ := hkept
    unfold released
    rw [List.filter_cons_of_neg (by simp)]
    apply List.filter_eq_self.mpr
    intro e he
    exact decide_eq_true (hinv.newest_ne he)

theorem granted_of_ne (h : buffer ≠ 0) :
    granted live buffer capacity = (buffer, capacity) :: live :=
  if_neg h

-- ==== the loop

/-- The start of a round: the buffer has the bytes of the file up to
`size`, and nobody else's bytes have changed. -/
structure Reading (maxPfn : Nat) (usable : Nat → Bool) (heap₀ : Kheap) (live : List (Nat × Nat))
    (others : List Block) (F : List UInt8) (heap : Kheap) (buffer capacity size : Nat) : Prop where
  run : Run maxPfn usable heap (granted live buffer capacity) others
  empty : buffer = 0 → capacity = 0
  least : capacity = 0 ∨ 4096 ≤ capacity
  room : size ≤ capacity
  upto : size ≤ F.length
  bytes : ∀ i, i < size → heap.mem (buffer + i) = (F.getD i 0).toBitVec
  rest : SameBytes live heap₀.mem heap.mem

theorem Reading.le (h : Reading maxPfn usable heap₀ live others F heap buffer capacity size) :
    capacity ≤ 2 ^ 22 := by
  by_cases h0 : buffer = 0
  · rw [h.empty h0]
    exact Nat.zero_le _
  · have hrun := h.run
    rw [granted_of_ne h0] at hrun
    exact (hrun.kept.live_bounds List.mem_cons_self).2

/-- Room for more: the buffer or a larger one, with what has been read. -/
theorem Reading.grow (h : Reading maxPfn usable heap₀ live others F heap buffer capacity size)
    (hn : n ≤ size + sizeofChunk) (hpos : 0 < n) :
    ∃ heap' r, growBuffer heap buffer capacity n = .ok (heap', r)
      ∧ ((r = none ∧ heap' = heap)
        ∨ ∃ b c, r = some (b, c) ∧ b ≠ 0 ∧ n ≤ c
          ∧ Reading maxPfn usable heap₀ live others F heap' b c size) := by
  have hle := h.le
  have hroom := h.room
  have hchunk : sizeofChunk = 1024 := rfl
  unfold growBuffer
  by_cases hmore : n > capacity
  · rw [if_pos hmore]
    obtain ⟨start, hstart, hs1, hs2, hs3⟩ : ∃ start,
        (if capacity ≠ 0 then capacity * 2 % 2 ^ 64 else 4096) = start ∧ n ≤ start ∧ 4096 ≤ start
          ∧ start ≤ 2 ^ 23 := by
      refine ⟨_, rfl, ?_⟩
      by_cases h0 : capacity = 0
      · rw [if_neg (not_not.mpr h0)]
        omega
      · rw [if_pos h0, Nat.mod_eq_of_lt (by omega)]
        have hleast := h.least
        omega
    have hloop : growLoop 66 start n = some start := by
      unfold Tmpfs.growLoop
      rw [if_neg (by omega)]
    rw [hstart, hloop]
    obtain ⟨heap', p, hre, -⟩ := h.run.kept.krealloc_null (n := start)
      (mayFree_granted live buffer capacity) (by omega) (by omega)
    simp only [hre]
    refine ⟨heap', _, rfl, ?_⟩
    cases h.run.kept.krealloc_bytes (mayFree_granted live buffer capacity) (by omega) (by omega)
        hre with
    | inl hz =>
        rw [if_pos hz.1]
        exact Or.inl ⟨rfl, hz.2⟩
    | inr hz =>
        obtain ⟨hp, -, -, hsame, hcontents⟩ := hz
        rw [if_neg hp]
        refine Or.inr ⟨p, start, rfl, hp, hs1, ?_⟩
        rw [released_granted h.run] at hsame
        have hrun := h.run.call (k := .krealloc buffer start)
          ⟨mayFree_granted live buffer capacity, by omega⟩ hre
        have hafter : HeapCall.after (granted live buffer capacity) p (.krealloc buffer start)
            = granted live p start := by
          simp only [HeapCall.after]
          rw [if_neg (by omega), if_neg hp, released_granted h.run]
        rw [hafter] at hrun
        refine ⟨hrun, fun e => absurd e hp, Or.inr hs2, by omega, h.upto, ?_, h.rest.trans hsame⟩
        intro i hi
        have h0 : buffer ≠ 0 := fun e => by
          have := h.empty e
          omega
        rw [← h.bytes i hi]
        apply hcontents capacity
        · rw [granted_of_ne h0]
          exact List.mem_cons_self
        · omega
        · omega
  · rw [if_neg hmore]
    refine ⟨heap, _, rfl, Or.inr ⟨buffer, capacity, rfl, ?_, by omega, h⟩⟩
    intro e
    have := h.empty e
    omega

/-- The next bytes are copied behind the others. -/
theorem Reading.append (h : Reading maxPfn usable heap₀ live others F heap b c size) (hb : b ≠ 0)
    {chunk : List UInt8} (hchunk : chunk = (F.drop size).take sizeofChunk)
    (hroom : size + chunk.length ≤ c) :
    Reading maxPfn usable heap₀ live others F
      { heap with mem := copy heap.mem (b + size) (chunkMemory chunk) 0 chunk.length } b c
      (size + chunk.length) := by
  have hrun := h.run
  rw [granted_of_ne hb] at hrun
  have hlen : size + chunk.length ≤ F.length := by
    have := h.upto
    rw [hchunk, List.length_take, List.length_drop]
    omega
  refine ⟨?_, h.empty, h.least, hroom, hlen, ?_, ?_⟩
  · rw [granted_of_ne hb]
    apply hrun.write List.mem_cons_self
    intro a ha
    have hin := Bytes.copy_changed ha
    omega
  · intro i hi
    dsimp only
    by_cases hold : i < size
    · rw [Bytes.copy_outside (by omega)]
      exact h.bytes i hold
    · rw [Bytes.copy_inside (by omega) (by omega)]
      unfold chunkMemory
      rw [show 0 + (b + i - (b + size)) = i - size by omega, hchunk]
      have hin : i - size < ((F.drop size).take sizeofChunk).length := by
        rw [← hchunk]
        omega
      rw [List.getD_eq_getElem _ _ hin, List.getElem_take, List.getElem_drop,
        List.getD_eq_getElem _ _ (show i < F.length by omega)]
      congr 2
      omega
  · apply h.rest.trans
    intro y m hy a h1 h2
    obtain ⟨⟨G, ref, hinv⟩, -⟩ := hrun.kept
    have hapart := hinv.live_apart (List.mem_cons_of_mem _ hy) List.mem_cons_self
      (hinv.newest_ne hy)
    by_contra hne
    have hin := Bytes.copy_changed hne
    omega

/-- What a call leaves of the heap, and what it returns: -1, and the
allocations are those of before; or the bytes of the file. An empty file
has no buffer. -/
inductive ReadDone (maxPfn : Nat) (usable : Nat → Bool) (heap₀ : Kheap) (live : List (Nat × Nat))
    (others : List Block) (F : List UInt8) (heap : Kheap) : Option (Nat × Nat) → Prop where
  | failed (run : Run maxPfn usable heap live others) (rest : SameBytes live heap₀.mem heap.mem) :
      ReadDone maxPfn usable heap₀ live others F heap none
  | empty (run : Run maxPfn usable heap live others) (rest : SameBytes live heap₀.mem heap.mem)
      (h : F = []) : ReadDone maxPfn usable heap₀ live others F heap (some (0, 0))
  | full {buffer capacity : Nat} (run : Run maxPfn usable heap ((buffer, capacity) :: live) others)
      (rest : SameBytes live heap₀.mem heap.mem) (notNull : buffer ≠ 0)
      (room : F.length ≤ capacity)
      (bytes : ∀ i, i < F.length → heap.mem (buffer + i) = (F.getD i 0).toBitVec) :
      ReadDone maxPfn usable heap₀ live others F heap (some (buffer, F.length))

/-- The end of the file. -/
theorem Reading.done (h : Reading maxPfn usable heap₀ live others F heap buffer capacity size)
    (hend : F.length ≤ size) :
    ReadDone maxPfn usable heap₀ live others F heap (some (buffer, size)) := by
  have hsize : size = F.length := Nat.le_antisymm h.upto hend
  have hrun := h.run
  have hroom := h.room
  subst hsize
  by_cases h0 : buffer = 0
  · have hcap := h.empty h0
    have hnil : F = [] := List.length_eq_zero_iff.mp (by omega)
    subst h0 hnil
    exact .empty hrun h.rest rfl
  · rw [granted_of_ne h0] at hrun
    exact .full hrun h.rest h0 hroom h.bytes

end Kheap

open Kheap (Reading ReadDone)

variable {maxPfn : Nat} {usable : Nat → Bool} {heap heap₀ : Kheap} {live : List (Nat × Nat)}
  {others : List Block} {F : List UInt8} {buffer capacity size : Nat} {s : Vfs} {node : Nat}

/-- A `kfree` of what may be given back. -/
theorem Kheap.Run.kfree {s : Kheap} {p : Nat} (h : Run maxPfn usable s live others)
    (hmay : MayFree live p) :
    ∃ s', s.kfree p = .ok s' ∧ Run maxPfn usable s' (released live p) others := by
  obtain ⟨s', hfree, -⟩ := h.kept.kfree hmay
  have hcall : s.heapCall (.kfree p) = .ok (s', 0) := by
    unfold Kheap.heapCall
    simp only [hfree]
  exact ⟨s', hfree, h.call (k := .kfree p) hmay hcall⟩

/-- A failure: the reference is dropped and the buffer is freed. -/
theorem readFailed_spec (s : Vfs) (node : Nat)
    (h : Reading maxPfn usable heap₀ live others F heap buffer capacity size) :
    ∃ heap', readFailed (s.vnodeHold node) heap node buffer = .ok (s, heap', none)
      ∧ ReadDone maxPfn usable heap₀ live others F heap' none := by
  obtain ⟨heap', hfree, hrun⟩ := h.run.kfree (Kheap.mayFree_granted live buffer capacity)
  rw [Kheap.released_granted h.run] at hrun
  refine ⟨heap', ?_, ?_⟩
  · unfold readFailed Vfs.vfsClose
    simp only [hfree, Vfs.hold_release]
  · refine .failed hrun (h.rest.trans ?_)
    by_cases h0 : buffer = 0
    · unfold Kheap.kfree at hfree
      rw [if_pos h0] at hfree
      cases hfree
      exact SameBytes.refl live heap.mem
    · have hmine : (buffer, capacity) ∈ granted live buffer capacity := by
        rw [Kheap.granted_of_ne h0]
        exact List.mem_cons_self
      obtain ⟨⟨G, ref, hinv⟩, -⟩ := h.run.kept
      have hsame := hinv.kfree_bytes hmine hfree
      rwa [Kheap.released_granted h.run] at hsame

theorem vnodeHold_type :
    ((s.vnodeHold node).store.fs.nodes node).type = (s.store.fs.nodes node).type := by
  simp [Vfs.vnodeHold, Tmpfs.held, Fs.vnodeHold]

theorem vnodeHold_contents (n : Nat) :
    (s.vnodeHold node).store.contents n = s.store.contents n := rfl

/-- What `vfs_read` answers: an error, or the next bytes. -/
theorem vfsRead_cases (fault : Nat → Bool) (hreg : (s.store.fs.nodes node).type = .reg)
    (k offset : Nat) :
    (s.vnodeHold node).vfsRead fault k node offset = (-1, [])
      ∨ (s.vnodeHold node).vfsRead fault k node offset
        = (0, ((s.store.contents node).drop offset).take sizeofChunk) := by
  unfold Vfs.vfsRead
  cases fault k with
  | true => exact Or.inl rfl
  | false =>
      right
      simp only [Bool.false_eq_true, if_false]
      rw [Tmpfs.tmpfsRead_eq (vnodeHold_type.trans hreg), vnodeHold_contents]

/-- The loop, from a round that starts with the first `size` bytes. -/
theorem readLoop_spec (fault : Nat → Bool) (fuel k : Nat)
    (hreg : (s.store.fs.nodes node).type = .reg) (hF : s.store.contents node = F)
    (h : Reading maxPfn usable heap₀ live others F heap buffer capacity size)
    (hfuel : F.length < fuel + size) :
    ∃ heap' r, readLoop (s.vnodeHold node) node fault fuel k heap buffer capacity size size
        = .ok (s, heap', r)
      ∧ ReadDone maxPfn usable heap₀ live others F heap' r := by
  induction fuel generalizing k heap buffer capacity size with
  | zero =>
      have := h.upto
      omega
  | succ fuel ih =>
      unfold readLoop
      rcases vfsRead_cases fault hreg k size with hread | hread
      · obtain ⟨heap', hfailed, hdone⟩ := readFailed_spec s node h
        refine ⟨heap', none, ?_, hdone⟩
        simp [hread, hfailed]
      · rw [hF] at hread
        obtain ⟨chunk, hchunk⟩ : ∃ chunk, (F.drop size).take sizeofChunk = chunk := ⟨_, rfl⟩
        rw [hchunk] at hread
        have hlen : chunk.length = min 1024 (F.length - size) := by
          rw [← hchunk, List.length_take, List.length_drop]
        have hle := h.le
        have hroom := h.room
        have hupto := h.upto
        simp only [hread, ne_eq, not_true_eq_false, if_false]
        by_cases hgot : chunk.length = 0
        · rw [if_pos hgot]
          refine ⟨heap, _, ?_, h.done (by omega)⟩
          unfold Vfs.vfsClose
          simp only [Vfs.hold_release]
        · rw [if_neg hgot]
          have hsum : (size + chunk.length) % 2 ^ 64 = size + chunk.length :=
            Nat.mod_eq_of_lt (by omega)
          rw [hsum]
          obtain ⟨heap', r, hgrow, hcase⟩ := h.grow (n := size + chunk.length)
            (by unfold sizeofChunk; omega) (by omega)
          rw [hgrow]
          rcases hcase with ⟨hr, hheap⟩ | ⟨b, c, hr, hb, hc, hnext⟩
          · subst hr hheap
            obtain ⟨heap'', hfailed, hdone⟩ := readFailed_spec s node h
            exact ⟨heap'', none, hfailed, hdone⟩
          · subst hr
            exact ih (k + 1) (hnext.append hb hchunk.symm hc) (by omega)

/-- What is not a regular file cannot be read. -/
theorem readLoop_other (fault : Nat → Bool) (fuel k : Nat)
    (hreg : (s.store.fs.nodes node).type ≠ .reg)
    (h : Reading maxPfn usable heap₀ live others F heap buffer capacity size) :
    ∃ heap', readLoop (s.vnodeHold node) node fault (fuel + 1) k heap buffer capacity size size
        = .ok (s, heap', none)
      ∧ ReadDone maxPfn usable heap₀ live others F heap' none := by
  obtain ⟨heap', hfailed, hdone⟩ := readFailed_spec s node h
  refine ⟨heap', ?_, hdone⟩
  have hread : (s.vnodeHold node).vfsRead fault k node size = (-1, []) := by
    unfold Vfs.vfsRead
    cases fault k with
    | true => rfl
    | false =>
        have hheld : ((s.vnodeHold node).store.fs.nodes node).type ≠ .reg := by
          rwa [vnodeHold_type]
        unfold Tmpfs.tmpfsRead
        simp [hheld]
  unfold readLoop
  simp [hread, hfailed]

/-- `sdi_read_file` returns, and the vnodes are as they were. What it
returns is -1, or a buffer with the bytes of the regular file; in either
case nothing else has been allocated or freed. -/
theorem read_file_exact (s : Vfs) (fault : Nat → Bool) (path : Option CStr)
    (outBuffer outSize : Bool) (hrun : Run maxPfn usable heap live others) :
    ∃ heap' r, sdiReadFile s heap fault path outBuffer outSize = .ok (s, heap', r)
      ∧ ((r = none ∧ ReadDone maxPfn usable heap live others [] heap' none)
        ∨ ∃ p node, path = some p ∧ s.found s.store.fs.vfsroot p = some node
          ∧ (s.store.fs.nodes node).type = .reg
          ∧ ReadDone maxPfn usable heap live others (s.store.contents node) heap' r) := by
  have hfresh : ReadDone maxPfn usable heap live others [] heap none :=
    .failed hrun (SameBytes.refl live heap.mem)
  unfold sdiReadFile
  by_cases hargs : path.isNone ∨ (!outBuffer) = true ∨ (!outSize) = true
  · rw [if_pos hargs]
    exact ⟨heap, none, rfl, Or.inl ⟨rfl, hfresh⟩⟩
  · rw [if_neg hargs]
    obtain ⟨p, hp⟩ : ∃ p, path = some p := Option.ne_none_iff_exists'.mp (by simp_all)
    subst hp
    have hstart : ∀ F, Reading maxPfn usable heap live others F heap 0 0 0 := fun F =>
      { run := hrun, empty := fun _ => rfl, least := Or.inl rfl, room := Nat.le_refl 0,
        upto := Nat.zero_le _, bytes := fun i hi => absurd hi (Nat.not_lt_zero i),
        rest := SameBytes.refl live heap.mem }
    rcases s.vfsOpen_rdonly p with ⟨rc, hopen⟩ | ⟨node, hfound, hopen⟩
    · refine ⟨heap, none, ?_, Or.inl ⟨rfl, hfresh⟩⟩
      simp only [hopen]
    · simp only [hopen]
      by_cases hreg : (s.store.fs.nodes node).type = .reg
      · have hshort : (s.store.contents node).length ≤ (s.store.file node).data.length :=
          List.length_take_le' _ _
        obtain ⟨heap', r, hloop, hdone⟩ := readLoop_spec fault
          ((s.store.file node).data.length + 1) 0 hreg rfl (hstart _) (by omega)
        exact ⟨heap', r, hloop, Or.inr ⟨p, node, rfl, hfound, hreg, hdone⟩⟩
      · obtain ⟨heap', hloop, hdone⟩ := readLoop_other fault
          (s.store.file node).data.length 0 hreg (hstart [])
        exact ⟨heap', none, hloop, Or.inl ⟨rfl, hdone⟩⟩

/-- A root and a file "a" of three bytes in it. -/
def threeBytes : Option Vfs :=
  (Vfs.play Vfs.Afforded Vfs.vfsInit
      [.register (some Vfs.tmpfsName) true, .mount none none (some Vfs.tmpfsName) true,
        .create (some 0) (some [97]) none S_IFREG true true]).bind fun s =>
    (s.store.tmpfsWrite (some 1) (some [1, 2, 3]) 3 0 O_WRONLY true).map fun r =>
      { s with store := r.1 }

/-- It is read. -/
theorem read_file_exact_three : ∃ s, threeBytes = some s ∧ ∃ heap' out,
    sdiReadFile s Kheap.bootHeap (fun _ => false) (some [SLASH, 97]) true true
      = .ok (s, heap', some out)
      ∧ ReadDone 16 (fun q => 1 ≤ q) Kheap.bootHeap [] [] [1, 2, 3] heap' (some out) := by
  have hplay : (threeBytes.map fun s =>
      ((s.found s.store.fs.vfsroot [SLASH, 97]).map fun node => s.store.contents node,
        (sdiReadFile s Kheap.bootHeap (fun _ => false) (some [SLASH, 97]) true true).toOption.map
          fun r => r.2.2.isSome)) = some (some [1, 2, 3], some true) := by
    decide +kernel
  obtain ⟨s, hs, heq⟩ := Option.map_eq_some_iff.mp hplay
  obtain ⟨hfile, hread⟩ := Prod.mk.inj heq
  obtain ⟨heap', r, hret, hdone⟩ :=
    read_file_exact s (fun _ => false) (some [SLASH, 97]) true true Kheap.run_bootHeap
  rw [hret] at hread
  obtain ⟨out, hout⟩ := Option.isSome_iff_exists.mp (Option.some.inj hread)
  change r = some out at hout
  subst hout
  rcases hdone with ⟨hnone, -⟩ | ⟨p, node, hp, hfound, -, hdone⟩
  · cases hnone
  · cases hp
    rw [hfound] at hfile
    have hcontents : s.store.contents node = [1, 2, 3] := Option.some.inj hfile
    rw [hcontents] at hdone
    exact ⟨s, hs, heap', out, hret, hdone⟩

end Alix
