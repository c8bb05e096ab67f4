/-
Forests of tables: radix trees whose nodes are frames of one memory.

A table frame maps an index to the frame of a subordinate table or to
nothing, and a path of indices from a root names at most one frame
(`walk`). What makes such a structure a forest, and not a graph, is that
no frame is reached twice: `Forest` says so for the roots and the paths
a client owns. The paths are a prefix-closed set `ok`, so a client can
leave out the levels that hold no tables and the parts of a root that
are shared on purpose.

Two edits matter to a client.

- A store into a place no owned path goes through changes no walk
  (`walk_congr`, `Forest.congr`).
- Linking a fresh empty table below an empty slot adds one walk and
  changes no other (`Forest.walk_link`, `Forest.link`).

A root comes and goes with `Forest.plant` and `Forest.mono`.

A tree is taken down in post-order: `below` lists the frames of a tree,
each behind the frames below it. In a forest every frame stands there
once (`nodup_flatMap_over`).
-/
import Mathlib.Data.List.Induction
import Mathlib.Data.List.Nodup
import Mathlib.Logic.Function.Basic

namespace Radix

variable {F I : Type}

-- ==== walks

/-- The frame a path of indices leads to. -/
def walk (child : F → I → Option F) (r : F) (p : List I) : Option F :=
  p.foldlM child r

@[simp] theorem walk_nil (child : F → I → Option F) (r : F) :
    walk child r [] = some r := rfl

theorem walk_cons (child : F → I → Option F) (r : F) (i : I) (p : List I) :
    walk child r (i :: p) = (child r i).bind fun f => walk child f p := rfl

theorem walk_append (child : F → I → Option F) (r : F) (p q : List I) :
    walk child r (p ++ q) = (walk child r p).bind fun f => walk child f q := by
  unfold walk
  rw [List.foldlM_append]
  rfl

theorem walk_snoc (child : F → I → Option F) (r : F) (p : List I) (i : I) :
    walk child r (p ++ [i]) = (walk child r p).bind fun f => child f i := by
  rw [walk_append]
  refine congrArg (Option.bind _) (funext fun f => ?_)
  rw [walk_cons]
  cases child f i with
  | none => rfl
  | some g => rfl

theorem walk_snoc_of {child : F → I → Option F} {r f : F} {p : List I}
    (h : walk child r p = some f) (i : I) :
    walk child r (p ++ [i]) = child f i := by
  rw [walk_snoc, h]
  rfl

/-- The last step of a walk that gets somewhere. -/
theorem walk_snoc_some {child : F → I → Option F} {r g : F} {p : List I}
    {i : I} (h : walk child r (p ++ [i]) = some g) :
    ∃ f, walk child r p = some f ∧ child f i = some g := by
  rw [walk_snoc] at h
  exact Option.bind_eq_some_iff.mp h

-- ==== forests

/-- The paths a client owns are closed under prefixes. -/
structure Owned (ok : List I → Prop) : Prop where
  nil : ok []
  init : ∀ p i, ok (p ++ [i]) → ok p

/-- No two owned paths from the roots `R` lead to one frame. -/
structure Forest (child : F → I → Option F) (R : F → Prop)
    (ok : List I → Prop) : Prop where
  sep : ∀ {r r' p p' f}, R r → R r' → ok p → ok p' →
    walk child r p = some f → walk child r' p' = some f → r = r' ∧ p = p'

/-- The frames of a forest. -/
def Tables (child : F → I → Option F) (R : F → Prop) (ok : List I → Prop)
    (f : F) : Prop :=
  ∃ r p, R r ∧ ok p ∧ walk child r p = some f

variable {child child' : F → I → Option F} {R : F → Prop} {ok : List I → Prop}

/-- Walks read the slots on their path and nothing else. -/
theorem walk_congr (hok : Owned ok) {r : F}
    (h : ∀ p i f, ok (p ++ [i]) → walk child r p = some f →
      child' f i = child f i) {p : List I} (hp : ok p) :
    walk child' r p = walk child r p := by
  induction p using List.reverseRecOn with
  | nil => rfl
  | append_singleton p i ih =>
      rw [walk_snoc, walk_snoc, ih (hok.init p i hp)]
      cases hw : walk child r p with
      | none => rfl
      | some f => exact h p i f hp hw

/-- A forest survives a store off its owned paths. -/
theorem Forest.congr (hok : Owned ok) (hf : Forest child R ok)
    (h : ∀ r p i f, R r → ok (p ++ [i]) → walk child r p = some f →
      child' f i = child f i) : Forest child' R ok where
  sep := by
    intro r r' p p' f hr hr' hp hp' hw hw'
    rw [walk_congr hok (fun p i f => h r p i f hr) hp] at hw
    rw [walk_congr hok (fun p i f => h r' p i f hr') hp'] at hw'
    exact hf.sep hr hr' hp hp' hw hw'

theorem Forest.mono (hf : Forest child R ok) {S : F → Prop}
    (h : ∀ r, S r → R r) : Forest child S ok where
  sep := fun hr hr' hp hp' hw hw' =>
    hf.sep (h _ hr) (h _ hr') hp hp' hw hw'

-- ==== linking a fresh table

section link

variable [DecidableEq F] [DecidableEq I] {r f g : F} {q : List I} {i : I}

/-- The walks after an empty fresh table `g` went below slot `i` of the
table `f` that path `q` of root `r` leads to: one more, the others as
they were. -/
theorem Forest.walk_link (hok : Owned ok) (hf : Forest child R ok)
    (hr : R r) (hq : ok (q ++ [i])) (hwalk : walk child r q = some f)
    (hempty : child f i = none) (hfresh : ¬ Tables child R ok g)
    (hnew : child' f i = some g) (hzero : ∀ j, child' g j = none)
    (hrest : ∀ x j, x ≠ g → ¬ (x = f ∧ j = i) → child' x j = child x j)
    {t : F} {p : List I} (ht : R t) (hp : ok p) :
    walk child' t p
      = if t = r ∧ p = q ++ [i] then some g else walk child t p := by
  induction p using List.reverseRecOn with
  | nil =>
      rw [if_neg (fun h => by simpa using congrArg List.length h.2)]
      rfl
  | append_singleton p j ih =>
      have hp0 := hok.init p j hp
      rw [walk_snoc, ih hp0]
      by_cases hnode : t = r ∧ p = q ++ [i]
      -- below the fresh table there is nothing, before as after
      · rw [if_pos hnode, if_neg, Option.bind_some, hzero]
        · obtain ⟨rfl, rfl⟩ := hnode
          rw [walk_snoc, walk_snoc_of hwalk, hempty]
          rfl
        · intro h
          have := congrArg List.length (hnode.2.symm.trans
            (List.append_inj' h.2 rfl).1)
          simp at this
      · rw [if_neg hnode, walk_snoc]
        cases hw : walk child t p with
        | none =>
            rw [if_neg]
            · rfl
            · intro h
              obtain ⟨rfl, h⟩ := h
              rw [(List.append_inj' h rfl).1, hwalk] at hw
              cases hw
        | some x =>
            rw [Option.bind_some, Option.bind_some]
            have hxg : x ≠ g := fun e => hfresh ⟨t, p, ht, hp0, e ▸ hw⟩
            by_cases hslot : x = f ∧ j = i
            · obtain ⟨rfl, rfl⟩ := hslot
              obtain ⟨rfl, rfl⟩ :=
                hf.sep ht hr hp0 (hok.init q j hq) hw hwalk
              rw [if_pos ⟨rfl, rfl⟩, hnew]
            · rw [hrest x j hxg hslot, if_neg]
              intro h
              obtain ⟨rfl, h⟩ := h
              obtain ⟨rfl, hj⟩ := List.append_inj' h rfl
              rw [hwalk] at hw
              exact hslot
                ⟨(Option.some.inj hw).symm, List.head_eq_of_cons_eq hj⟩

/-- Linking a fresh empty table keeps the forest. -/
theorem Forest.link (hok : Owned ok) (hf : Forest child R ok)
    (hr : R r) (hq : ok (q ++ [i])) (hwalk : walk child r q = some f)
    (hempty : child f i = none) (hfresh : ¬ Tables child R ok g)
    (hnew : child' f i = some g) (hzero : ∀ j, child' g j = none)
    (hrest : ∀ x j, x ≠ g → ¬ (x = f ∧ j = i) → child' x j = child x j) :
    Forest child' R ok where
  sep := by
    intro t t' p p' x ht ht' hp hp' hw hw'
    have key := fun {t p} => hf.walk_link hok hr hq hwalk hempty hfresh hnew
      hzero hrest (t := t) (p := p)
    rw [key ht hp] at hw
    rw [key ht' hp'] at hw'
    split at hw
    case isTrue h =>
      cases hw
      split at hw'
      case isTrue h' => exact ⟨h.1.trans h'.1.symm, h.2.trans h'.2.symm⟩
      case isFalse => exact (hfresh ⟨t', p', ht', hp', hw'⟩).elim
    case isFalse =>
      split at hw'
      case isTrue =>
        cases hw'
        exact (hfresh ⟨t, p, ht, hp, hw⟩).elim
      case isFalse => exact hf.sep ht ht' hp hp' hw hw'

end link

-- ==== a fresh root

/-- A fresh frame whose owned slots are empty is a new tree. -/
theorem Forest.plant (hok : Owned ok) (hf : Forest child R ok) {g : F}
    (hfresh : ¬ Tables child R ok g)
    (hzero : ∀ i, ok [i] → child' g i = none)
    (hrest : ∀ x j, x ≠ g → child' x j = child x j) :
    Forest child' (fun r => r = g ∨ R r) ok := by
  -- old trees walk as before, and the new one has its root only
  have hold : ∀ r p, R r → ok p → walk child' r p = walk child r p := by
    intro r p hr hp
    refine walk_congr hok (fun q i f hq hw => hrest f i ?_) hp
    intro e
    exact hfresh ⟨r, q, hr, hok.init q i hq, e ▸ hw⟩
  have hroot : ∀ p f, ok p → walk child' g p = some f → p = [] ∧ f = g := by
    intro p
    induction p using List.reverseRecOn with
    | nil => intro f _ h; exact ⟨rfl, (Option.some.inj h).symm⟩
    | append_singleton p i ih =>
        intro f hp h
        obtain ⟨x, hx, hc⟩ := walk_snoc_some h
        obtain ⟨rfl, rfl⟩ := ih x (hok.init p i hp) hx
        rw [hzero i hp] at hc
        cases hc
  constructor
  intro r r' p p' f hr hr' hp hp' hw hw'
  rcases hr with rfl | hr <;> rcases hr' with rfl | hr'
  · exact ⟨rfl, (hroot p f hp hw).1.trans (hroot p' f hp' hw').1.symm⟩
  · obtain ⟨-, rfl⟩ := hroot p f hp hw
    exact (hfresh ⟨r', p', hr', hp', by rw [← hold r' p' hr' hp', hw']⟩).elim
  · obtain ⟨-, rfl⟩ := hroot p' f hp' hw'
    exact (hfresh ⟨r, p, hr, hp, by rw [← hold r p hr hp, hw]⟩).elim
  · rw [hold r p hr hp] at hw
    rw [hold r' p' hr' hp'] at hw'
    exact hf.sep hr hr' hp hp' hw hw'

/-- The empty forest. -/
theorem Forest.empty : Forest child (fun _ => False) ok where
  sep := fun h => h.elim

-- ==== post-order

section postorder

variable {idx : List I} {f g : F}

/-- The frame of a slot behind what is below it. -/
def beneath (below : F → List F) : Option F → List F
  | none => []
  | some g => below g ++ [g]

/-- The frames at most `n` levels below `f`. -/
def below (child : F → I → Option F) (idx : List I) : Nat → F → List F
  | 0, _ => []
  | n + 1, f => idx.flatMap fun i => beneath (below child idx n) (child f i)

/-- The frames over a slot are those whose paths start with the slot. -/
theorem mem_beneath_below {n : Nat} {i : I} :
    g ∈ beneath (below child idx n) (child f i)
      ↔ ∃ p, p.length ≤ n ∧ (∀ j ∈ p, j ∈ idx) ∧ walk child f (i :: p) = some g := by
  induction n generalizing f i with
  | zero =>
      cases hc : child f i with
      | none => simp [beneath, walk_cons, hc]
      | some x =>
          simp only [beneath, below, List.nil_append, List.mem_singleton]
          constructor
          · rintro rfl
            exact ⟨[], Nat.le_refl 0, fun j hj => (by cases hj), by simp [walk_cons, hc]⟩
          · intro h
            obtain ⟨p, hp, -, hw⟩ := h
            rw [List.length_eq_zero_iff.mp (Nat.le_zero.mp hp), walk_cons, hc] at hw
            exact (Option.some.inj hw).symm
  | succ n ih =>
      cases hc : child f i with
      | none => simp [beneath, walk_cons, hc]
      | some x =>
          simp only [beneath, below, List.mem_append, List.mem_flatMap, List.mem_singleton]
          constructor
          · intro h
            rcases h with ⟨j, hj, hg⟩ | rfl
            · obtain ⟨p, hp, hidx, hw⟩ := ih.mp hg
              refine ⟨j :: p, Nat.succ_le_succ hp, fun a ha => ?_, ?_⟩
              · rcases List.mem_cons.mp ha with rfl | ha
                · exact hj
                · exact hidx a ha
              · rw [walk_cons, hc]
                exact hw
            · exact ⟨[], Nat.zero_le _, fun j hj => (by cases hj), by simp [walk_cons, hc]⟩
          · intro h
            obtain ⟨p, hp, hidx, hw⟩ := h
            rw [walk_cons, hc] at hw
            cases p with
            | nil => exact Or.inr (Option.some.inj hw).symm
            | cons j p =>
                refine Or.inl ⟨j, hidx j List.mem_cons_self, ih.mpr ?_⟩
                exact ⟨p, Nat.le_of_succ_le_succ hp,
                  fun a ha => hidx a (List.mem_cons_of_mem _ ha), hw⟩

/-- Where paths of slots in `top` that go on in `idx` separate frames, the
post-order has every frame once. -/
theorem nodup_flatMap_over {n : Nat} {top : List I} (htop : top.Nodup)
    (hidx : idx.Nodup)
    (hsep : ∀ i j p q g, i ∈ top → j ∈ top → p.length ≤ n → q.length ≤ n →
      (∀ a ∈ p, a ∈ idx) → (∀ a ∈ q, a ∈ idx) → walk child f (i :: p) = some g →
      walk child f (j :: q) = some g → i :: p = j :: q) :
    (top.flatMap fun i => beneath (below child idx n) (child f i)).Nodup := by
  induction n generalizing f top with
  | zero =>
      refine List.nodup_flatMap.mpr ⟨fun i _ => ?_, htop.pairwise_of_forall_ne ?_⟩
      · cases child f i with
        | none => exact List.nodup_nil
        | some x => exact List.nodup_singleton x
      · intro i hi j hj hne g hg hg'
        obtain ⟨p, hp, hpi, hw⟩ := mem_beneath_below.mp hg
        obtain ⟨q, hq, hqi, hw'⟩ := mem_beneath_below.mp hg'
        exact hne (List.head_eq_of_cons_eq (hsep i j p q g hi hj hp hq hpi hqi hw hw'))
  | succ n ih =>
      refine List.nodup_flatMap.mpr ⟨fun i hi => ?_, htop.pairwise_of_forall_ne ?_⟩
      · cases hc : child f i with
        | none => exact List.nodup_nil
        | some x =>
            have hwalk : ∀ p, walk child f (i :: p) = walk child x p := fun p => by
              rw [walk_cons, hc]
              rfl
            refine List.nodup_append.mpr ⟨ih hidx ?_, List.nodup_singleton x, ?_⟩
            · intro j k p q g hj hk hp hq hpi hqi hw hw'
              rw [← hwalk] at hw hw'
              have hcons : ∀ {a : I} {r : List I}, a ∈ idx → (∀ b ∈ r, b ∈ idx) →
                  ∀ b ∈ a :: r, b ∈ idx := fun ha hr b hb =>
                (List.mem_cons.mp hb).elim (fun e => by rw [e]; exact ha) (hr b)
              exact List.tail_eq_of_cons_eq (hsep i i (j :: p) (k :: q) g hi hi
                (Nat.succ_le_succ hp) (Nat.succ_le_succ hq) (hcons hj hpi) (hcons hk hqi)
                hw hw')
            · -- the frame itself is at the path that stops there
              intro g hg y hy
              rintro rfl
              rw [List.mem_singleton.mp hy] at hg
              obtain ⟨j, hj, hg⟩ := List.mem_flatMap.mp hg
              obtain ⟨p, hp, hpi, hw⟩ := mem_beneath_below.mp hg
              rw [← hwalk] at hw
              have heq := hsep i i (j :: p) [] x hi hi (Nat.succ_le_succ hp)
                (Nat.zero_le _) (fun b hb => (List.mem_cons.mp hb).elim
                  (fun e => by rw [e]; exact hj) (hpi b)) (fun b hb => (by cases hb)) hw
                (by rw [hwalk]; rfl)
              cases List.tail_eq_of_cons_eq heq
      · intro i hi j hj hne g hg hg'
        obtain ⟨p, hp, hpi, hw⟩ := mem_beneath_below.mp hg
        obtain ⟨q, hq, hqi, hw'⟩ := mem_beneath_below.mp hg'
        exact hne (List.head_eq_of_cons_eq (hsep i j p q g hi hj hp hq hpi hqi hw hw'))

end postorder

end Radix
