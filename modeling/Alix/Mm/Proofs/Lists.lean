/-
The allocator's stores, one lemma a field: what `free_list_push` and
`free_list_remove` do to the links, to the list heads and counts, and to
the rest of the descriptors. The links are the library's `pushFront`
and `unlink` (`freeListPush_links`, `freeListRemove_links`); nothing
but links changes in a descriptor (`freeListPush_data`,
`freeListRemove_data`).
-/
import Alix.Mm.Pmm

namespace Alix.Pmm

open Dyadic (Block)
open Dll (Links IsList)

/-- The link fields of the database, as the list library reads them. -/
def links (s : Pmm) : Links Nat :=
  { next := fun p => (s.pages p).next, prev := fun p => (s.pages p).prev }

-- ==== single stores

theorem modPage_pages_self (s : Pmm) (p : Nat) (f : Page → Page) :
    (s.modPage p f).pages p = f (s.pages p) := by
  simp [modPage]

theorem modPage_pages_of_ne (s : Pmm) {p q : Nat} (h : q ≠ p)
    (f : Page → Page) : (s.modPage p f).pages q = s.pages q := by
  simp [modPage, h]

@[simp] theorem modPage_maxPfn (s : Pmm) (p : Nat) (f : Page → Page) :
    (s.modPage p f).maxPfn = s.maxPfn := rfl

@[simp] theorem modPage_freeLists (s : Pmm) (p : Nat) (f : Page → Page) :
    (s.modPage p f).freeLists = s.freeLists := rfl

@[simp] theorem modPage_freePageCount (s : Pmm) (p : Nat)
    (f : Page → Page) : (s.modPage p f).freePageCount = s.freePageCount := rfl

/-- A store that keeps the link fields keeps the links. -/
theorem modPage_links (s : Pmm) (p : Nat) {f : Page → Page}
    (hn : ∀ q, (f q).next = q.next) (hp : ∀ q, (f q).prev = q.prev) :
    (s.modPage p f).links = s.links := by
  unfold links
  congr 1 <;> funext q
  · by_cases h : q = p
    · rw [h, modPage_pages_self, hn]
    · rw [modPage_pages_of_ne s h]
  · by_cases h : q = p
    · rw [h, modPage_pages_self, hp]
    · rw [modPage_pages_of_ne s h]

theorem setNext_links (s : Pmm) (p : Nat) (v : Option Nat) :
    (s.setNext p v).links = s.links.setNext p v := by
  unfold links setNext Links.setNext
  congr 1 <;> funext q <;> by_cases h : q = p <;> simp [modPage, h]

theorem setPrev_links (s : Pmm) (p : Nat) (v : Option Nat) :
    (s.setPrev p v).links = s.links.setPrev p v := by
  unfold links setPrev Links.setPrev
  congr 1 <;> funext q <;> by_cases h : q = p <;> simp [modPage, h]

theorem setPrev?_links (s : Pmm) (o v : Option Nat) :
    (s.setPrev? o v).links = s.links.setPrev? o v := by
  cases o with
  | none => rfl
  | some p => exact setPrev_links s p v

theorem setNext_data (s : Pmm) (p : Nat) (v : Option Nat) (q : Nat) :
    ((s.setNext p v).pages q).data = (s.pages q).data := by
  unfold setNext
  by_cases h : q = p <;> simp [modPage, h, Page.data]

theorem setPrev_data (s : Pmm) (p : Nat) (v : Option Nat) (q : Nat) :
    ((s.setPrev p v).pages q).data = (s.pages q).data := by
  unfold setPrev
  by_cases h : q = p <;> simp [modPage, h, Page.data]

theorem setPrev?_data (s : Pmm) (o v : Option Nat) (q : Nat) :
    ((s.setPrev? o v).pages q).data = (s.pages q).data := by
  cases o with
  | none => rfl
  | some p => exact setPrev_data s p v q

@[simp] theorem setNext_freeLists (s : Pmm) (p : Nat) (v : Option Nat) :
    (s.setNext p v).freeLists = s.freeLists := rfl

@[simp] theorem setPrev_freeLists (s : Pmm) (p : Nat) (v : Option Nat) :
    (s.setPrev p v).freeLists = s.freeLists := rfl

@[simp] theorem setPrev?_freeLists (s : Pmm) (o v : Option Nat) :
    (s.setPrev? o v).freeLists = s.freeLists := by
  cases o <;> rfl

/-- The fields a list store never touches. -/
theorem setPrev?_fixed (s : Pmm) (o v : Option Nat) :
    (s.setPrev? o v).maxPfn = s.maxPfn
      ∧ (s.setPrev? o v).freePageCount = s.freePageCount := by
  cases o <;> exact ⟨rfl, rfl⟩

@[simp] theorem setHead_links (s : Pmm) (o : Nat) (v : Option Nat) :
    (s.setHead o v).links = s.links := rfl

@[simp] theorem setCount_links (s : Pmm) (o v : Nat) :
    (s.setCount o v).links = s.links := rfl

-- ==== free_list_push

theorem freeListPush_links (s : Pmm) (o p : Nat) :
    (s.freeListPush o p).links
      = s.links.pushFront (s.freeLists o).head p := by
  show ((((s.setPrev p none).setNext p _).setPrev? _ (some p))).links = _
  rw [setPrev?_links, setNext_links, setPrev_links]
  rfl

theorem freeListPush_data (s : Pmm) (o p q : Nat) :
    ((s.freeListPush o p).pages q).data = (s.pages q).data := by
  show (((((s.setPrev p none).setNext p _).setPrev? _ (some p))).pages q).data
    = _
  rw [setPrev?_data, setNext_data, setPrev_data]

theorem freeListPush_head_self (s : Pmm) (o p : Nat) :
    ((s.freeListPush o p).freeLists o).head = some p := by
  simp [freeListPush, setCount, setHead]

theorem freeListPush_count_self (s : Pmm) (o p : Nat) :
    ((s.freeListPush o p).freeLists o).count
      = (s.freeLists o).count + 1 := by
  simp [freeListPush, setCount, setHead]

theorem freeListPush_freeLists_of_ne (s : Pmm) {o j : Nat} (h : j ≠ o)
    (p : Nat) : (s.freeListPush o p).freeLists j = s.freeLists j := by
  simp [freeListPush, setCount, setHead, h]

theorem freeListPush_fixed (s : Pmm) (o p : Nat) :
    (s.freeListPush o p).maxPfn = s.maxPfn
      ∧ (s.freeListPush o p).freePageCount = s.freePageCount := by
  obtain ⟨h1, h2⟩ := setPrev?_fixed
    ((s.setPrev p none).setNext p (s.freeLists o).head)
    (s.freeLists o).head (some p)
  exact ⟨h1, h2⟩

-- ==== free_list_remove

/-- The state after `free_list_remove`'s first statement. -/
def detachPrev (s : Pmm) (o p : Nat) : Pmm :=
  match (s.pages p).prev with
  | some q => s.setNext q (s.pages p).next
  | none => s.setHead o (s.pages p).next

theorem freeListRemove_eq (s : Pmm) (o p : Nat) :
    s.freeListRemove o p
      = (((((s.detachPrev o p).setPrev? ((s.detachPrev o p).pages p).next
            ((s.detachPrev o p).pages p).prev).setNext p none).setPrev p
          none).setCount o (((s.detachPrev o p).freeLists o).count - 1)) := by
  show (((_ : Pmm).setNext p none).setPrev p none).setCount o _ = _
  rw [setPrev_freeLists, setNext_freeLists, setPrev?_freeLists]
  rfl

theorem detachPrev_links (s : Pmm) (o p : Nat) :
    (s.detachPrev o p).links
      = s.links.setNext? (s.links.prev p) (s.links.next p) := by
  unfold detachPrev
  show _ = s.links.setNext? (s.pages p).prev (s.pages p).next
  cases (s.pages p).prev with
  | none => rfl
  | some q => exact setNext_links s q _

theorem detachPrev_data (s : Pmm) (o p q : Nat) :
    ((s.detachPrev o p).pages q).data = (s.pages q).data := by
  unfold detachPrev
  cases (s.pages p).prev with
  | none => rfl
  | some r => exact setNext_data s r _ q

/-- Joining a node's neighbours leaves the node's own links readable:
the one store that could hit them writes what is there already. -/
theorem detachPrev_own_links (s : Pmm) (o p : Nat) :
    ((s.detachPrev o p).pages p).next = (s.pages p).next
      ∧ ((s.detachPrev o p).pages p).prev = (s.pages p).prev := by
  unfold detachPrev
  cases hq : (s.pages p).prev with
  | none => exact ⟨rfl, hq⟩
  | some q =>
      by_cases h : p = q
      · subst h
        exact ⟨by simp [setNext, modPage], by simp [setNext, modPage, hq]⟩
      · exact ⟨by simp [setNext, modPage, h],
          by simp [setNext, modPage, h, hq]⟩

theorem freeListRemove_links (s : Pmm) (o p : Nat) :
    (s.freeListRemove o p).links = s.links.unlink p := by
  obtain ⟨hn, hp⟩ := detachPrev_own_links s o p
  rw [freeListRemove_eq, setCount_links, setPrev_links, setNext_links,
    setPrev?_links, detachPrev_links, hn, hp]
  rfl

theorem freeListRemove_data (s : Pmm) (o p q : Nat) :
    ((s.freeListRemove o p).pages q).data = (s.pages q).data := by
  rw [freeListRemove_eq]
  show ((((((s.detachPrev o p).setPrev? _ _).setNext p none).setPrev p
    none)).pages q).data = _
  rw [setPrev_data, setNext_data, setPrev?_data, detachPrev_data]

theorem freeListRemove_head_self (s : Pmm) (o p : Nat) :
    ((s.freeListRemove o p).freeLists o).head
      = if (s.pages p).prev = none then (s.pages p).next
        else (s.freeLists o).head := by
  rw [freeListRemove_eq]
  simp only [setCount, setPrev_freeLists, setNext_freeLists,
    setPrev?_freeLists, Function.update_self]
  unfold detachPrev
  cases (s.pages p).prev with
  | none => simp [setHead]
  | some q => simp

theorem freeListRemove_count_self (s : Pmm) (o p : Nat) :
    ((s.freeListRemove o p).freeLists o).count
      = (s.freeLists o).count - 1 := by
  rw [freeListRemove_eq]
  simp only [setCount, Function.update_self]
  unfold detachPrev
  cases (s.pages p).prev with
  | none => simp [setHead]
  | some q => simp

theorem freeListRemove_freeLists_of_ne (s : Pmm) {o j : Nat} (h : j ≠ o)
    (p : Nat) : (s.freeListRemove o p).freeLists j = s.freeLists j := by
  rw [freeListRemove_eq]
  simp only [setCount, setPrev_freeLists, setNext_freeLists,
    setPrev?_freeLists, Function.update_of_ne h]
  unfold detachPrev
  cases (s.pages p).prev with
  | none => simp [setHead, h]
  | some q => simp

theorem freeListRemove_fixed (s : Pmm) (o p : Nat) :
    (s.freeListRemove o p).maxPfn = s.maxPfn
      ∧ (s.freeListRemove o p).freePageCount = s.freePageCount := by
  have hd : (s.detachPrev o p).maxPfn = s.maxPfn
      ∧ (s.detachPrev o p).freePageCount = s.freePageCount := by
    unfold detachPrev
    cases (s.pages p).prev <;> exact ⟨rfl, rfl⟩
  obtain ⟨h1, h2⟩ := setPrev?_fixed (s.detachPrev o p)
    ((s.detachPrev o p).pages p).next ((s.detachPrev o p).pages p).prev
  rw [freeListRemove_eq]
  exact ⟨h1.trans hd.1, h2.trans hd.2⟩

end Alix.Pmm
