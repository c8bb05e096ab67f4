/-
Straight-line programs that run side by side on one state.

An agent has a list of operations left, or has not entered yet. A step lets
one agent enter, with the program the state then has for it, or do its next
operation; an operation that answers nothing has to wait. So a run is any
interleaving, and what an agent has done is the front of its program.

`Contract` is what has to be shown about single operations: what they keep,
what an agent's own operation adds to what is known about the operations it
has done, and that the others take nothing away. `Contract.runs` gives it in
every state of every run. What is not about one agent goes through
`Runs.keeps`.
-/
import Mathlib.Logic.Function.Basic

namespace Parallel

variable {κ ω σ : Type} [DecidableEq κ]

structure System (κ ω σ : Type) where
  exec : κ → ω → σ → Option σ
  enter : κ → σ → Option (List ω)

/-- The state, and what every agent has left; nothing for one that has not
entered. -/
structure State (κ ω σ : Type) where
  shared : σ
  rest : κ → Option (List ω)

inductive Step (P : System κ ω σ) (s : State κ ω σ) : State κ ω σ → Prop where
  | enter {c : κ} {ops : List ω} : s.rest c = none → P.enter c s.shared = some ops →
      Step P s ⟨s.shared, Function.update s.rest c (some ops)⟩
  | exec {c : κ} {op : ω} {ops : List ω} {x : σ} : s.rest c = some (op :: ops) →
      P.exec c op s.shared = some x → Step P s ⟨x, Function.update s.rest c (some ops)⟩

inductive Runs (P : System κ ω σ) (s₀ : State κ ω σ) : State κ ω σ → Prop where
  | init : Runs P s₀ s₀
  | step {s s' : State κ ω σ} : Runs P s₀ s → Step P s s' → Runs P s₀ s'

variable {P : System κ ω σ} {s₀ s : State κ ω σ}

/-- What holds at first, and is kept along a run, holds. -/
theorem Runs.keeps {Q : State κ ω σ → Prop} (hr : Runs P s₀ s) (h0 : Q s₀)
    (hstep : ∀ {s s'}, Runs P s₀ s → Q s → Step P s s' → Q s') : Q s := by
  induction hr with
  | init => exact h0
  | step hr hs ih => exact hstep hr ih hs

/-- What the operations have to do with what is known: `I` about the state,
`Idle` about an agent that has not entered, and `Trace` about one that has
done the front of its program. -/
structure Contract (P : System κ ω σ) (program : κ → List ω) (I : σ → Prop)
    (Idle : κ → σ → Prop) (Trace : κ → List ω → σ → Prop) : Prop where
  enter : ∀ {c x ops}, I x → Idle c x → P.enter c x = some ops → ops = program c ∧ Trace c [] x
  inv : ∀ {c op x y}, op ∈ program c → I x → P.exec c op x = some y → I y
  own : ∀ {c done op x y}, op ∈ program c → I x → Trace c done x → P.exec c op x = some y →
    Trace c (done ++ [op]) y
  other : ∀ {c c' done op x y}, c ≠ c' → op ∈ program c' → I x → Trace c done x →
    P.exec c' op x = some y → Trace c done y
  idle : ∀ {c c' op x y}, c ≠ c' → op ∈ program c' → I x → Idle c x →
    P.exec c' op x = some y → Idle c y

/-- What is known in a state of a run. -/
structure Holds (program : κ → List ω) (I : σ → Prop) (Idle : κ → σ → Prop)
    (Trace : κ → List ω → σ → Prop) (s : State κ ω σ) : Prop where
  inv : I s.shared
  idle : ∀ c, s.rest c = none → Idle c s.shared
  trace : ∀ c ops, s.rest c = some ops → ∃ done, program c = done ++ ops ∧ Trace c done s.shared

variable {program : κ → List ω} {I : σ → Prop} {Idle : κ → σ → Prop}
  {Trace : κ → List ω → σ → Prop}

/-- An entry after an update of another or of this one. -/
theorem update_eq {α : Type} {f : κ → α} {c d : κ} {v w : α}
    (h : Function.update f c v d = w) : d = c ∧ v = w ∨ d ≠ c ∧ f d = w := by
  by_cases hdc : d = c
  · rw [hdc, Function.update_self] at h
    exact Or.inl ⟨hdc, h⟩
  · rw [Function.update_of_ne hdc] at h
    exact Or.inr ⟨hdc, h⟩

theorem Contract.step (h : Contract P program I Idle Trace) {s' : State κ ω σ}
    (hs : Holds program I Idle Trace s) (hstep : Step P s s') :
    Holds program I Idle Trace s' := by
  cases hstep with
  | @enter c ops hrest henter =>
      obtain ⟨rfl, htrace⟩ := h.enter hs.inv (hs.idle c hrest) henter
      refine ⟨hs.inv, fun d hd => ?_, fun d ops hd => ?_⟩
      · obtain ⟨-, hd⟩ | ⟨-, hd⟩ := update_eq hd
        · cases hd
        · exact hs.idle d hd
      · obtain ⟨rfl, hnew⟩ | ⟨-, hd⟩ := update_eq hd
        · rw [← Option.some.inj hnew]
          exact ⟨[], rfl, htrace⟩
        · exact hs.trace d ops hd
  | @exec c op ops x hrest hexec =>
      obtain ⟨done, hprog, htrace⟩ := hs.trace c _ hrest
      have hmem : op ∈ program c := by
        rw [hprog]
        exact List.mem_append_right _ List.mem_cons_self
      refine ⟨h.inv hmem hs.inv hexec, fun d hd => ?_, fun d ops' hd => ?_⟩
      · obtain ⟨-, hd⟩ | ⟨hdc, hd⟩ := update_eq hd
        · cases hd
        · exact h.idle hdc hmem hs.inv (hs.idle d hd) hexec
      · obtain ⟨rfl, hnew⟩ | ⟨hdc, hd⟩ := update_eq hd
        · rw [← Option.some.inj hnew]
          exact ⟨done ++ [op], by rw [hprog, List.append_assoc]; rfl,
            h.own hmem hs.inv htrace hexec⟩
        · obtain ⟨done', hprog', htrace'⟩ := hs.trace d ops' hd
          exact ⟨done', hprog', h.other hdc hmem hs.inv htrace' hexec⟩

/-- In every state of every run. -/
theorem Contract.runs (h : Contract P program I Idle Trace)
    (h0 : Holds program I Idle Trace s₀) (hr : Runs P s₀ s) : Holds program I Idle Trace s :=
  hr.keeps h0 fun _ hs hstep => h.step hs hstep

end Parallel
