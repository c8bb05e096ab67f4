/-
Loops with exits that leave a trace.

A computation is traced when it says, next to its value, what it touched
on the way (`Traced`). The body of a loop ends it or goes round again
(`Turn`), and `run` goes round on fuel.

What goes on in a run is what goes on in front of its rounds: `Reaches`
are the states the loop comes to. If a measure falls from round to round
(`Falls`), enough fuel does not show. The run ends as the round ends that
ends it (`run_ends`, `Reaches.run_eq`), and it touches what the rounds it
comes to touch (`mem_run_trace`).

A loop over numbers that only goes on or ends is a search (`scan`); it
comes to the numbers up to the first with a result (`mem_scan_trace`).
-/
import Mathlib.Data.List.Basic

/-- A value, and what was touched to compute it. -/
structure Traced (τ α : Type) where
  trace : List τ
  value : α

namespace Traced

variable {τ α β σ ρ : Type}

instance : Monad (Traced τ) where
  pure a := ⟨[], a⟩
  bind x f := ⟨x.trace ++ (f x.value).trace, (f x.value).value⟩

@[simp] theorem trace_pure (a : α) : (pure a : Traced τ α).trace = [] := rfl

@[simp] theorem value_pure (a : α) : (pure a : Traced τ α).value = a := rfl

@[simp] theorem trace_bind (x : Traced τ α) (f : α → Traced τ β) :
    (x >>= f).trace = x.trace ++ (f x.value).trace := rfl

@[simp] theorem value_bind (x : Traced τ α) (f : α → Traced τ β) :
    (x >>= f).value = (f x.value).value := rfl

/-- What the body of a loop says at its end. -/
inductive Turn (σ ρ : Type) where
  | next (s : σ)
  | stop (r : ρ)

/-- A loop on fuel; `none` if the fuel runs out. -/
def run (body : σ → Traced τ (Turn σ ρ)) : Nat → σ → Traced τ (Option ρ)
  | 0, _ => pure none
  | fuel + 1, s => do
      match ← body s with
      | .stop r => pure (some r)
      | .next s => run body fuel s

/-- The states in front of the rounds of a loop. -/
inductive Reaches (body : σ → Traced τ (Turn σ ρ)) (s : σ) : σ → Prop
  | refl : Reaches body s s
  | next {t u : σ} : Reaches body s t → (body t).value = .next u → Reaches body s u

/-- A measure that falls from round to round. -/
def Falls (body : σ → Traced τ (Turn σ ρ)) (μ : σ → Nat) : Prop :=
  ∀ s t, (body s).value = .next t → μ t < μ s

variable {body : σ → Traced τ (Turn σ ρ)} {μ : σ → Nat}

theorem Reaches.head {s t u : σ} (hs : (body s).value = .next t)
    (h : Reaches body t u) : Reaches body s u := by
  induction h with
  | refl => exact Reaches.next Reaches.refl hs
  | next _ hu ih => exact Reaches.next ih hu

theorem run_succ (fuel : Nat) (s : σ) :
    run body (fuel + 1) s = (body s >>= fun turn =>
      match turn with
      | .stop r => pure (some r)
      | .next s => run body fuel s) := rfl

/-- A run that starts with a round that goes on. -/
theorem run_next {s t : σ} (hs : (body s).value = .next t) (fuel : Nat) :
    (run body (fuel + 1) s).value = (run body fuel t).value
      ∧ (run body (fuel + 1) s).trace
        = (body s).trace ++ (run body fuel t).trace := by
  rw [run_succ, value_bind, trace_bind, hs]
  exact ⟨rfl, rfl⟩

/-- A run of one round. -/
theorem run_stop {s : σ} {r : ρ} (hs : (body s).value = .stop r) (fuel : Nat) :
    (run body (fuel + 1) s).value = some r
      ∧ (run body (fuel + 1) s).trace = (body s).trace := by
  rw [run_succ, value_bind, trace_bind, hs]
  exact ⟨rfl, List.append_nil _⟩

/-- With enough fuel a run ends, in a round the loop comes to. -/
theorem run_ends (hμ : Falls body μ) {fuel : Nat} {s : σ} (hf : μ s < fuel) :
    ∃ t r, Reaches body s t ∧ (body t).value = .stop r
      ∧ (run body fuel s).value = some r := by
  induction fuel generalizing s with
  | zero => exact (Nat.not_lt_zero _ hf).elim
  | succ fuel ih =>
      cases hs : (body s).value with
      | stop r => exact ⟨s, r, Reaches.refl, hs, (run_stop hs fuel).1⟩
      | next u =>
          have hu := hμ s u hs
          obtain ⟨t, r, ht, hstop, hrun⟩ := ih (show μ u < fuel by omega)
          exact ⟨t, r, Reaches.head hs ht, hstop, (run_next hs fuel).1.trans hrun⟩

/-- Enough fuel does not show. -/
theorem run_fuel (hμ : Falls body μ) {fuel fuel' : Nat} {s : σ} (hf : μ s < fuel)
    (hf' : μ s < fuel') : (run body fuel s).value = (run body fuel' s).value := by
  induction fuel generalizing fuel' s with
  | zero => exact (Nat.not_lt_zero _ hf).elim
  | succ fuel ih =>
      cases fuel' with
      | zero => exact (Nat.not_lt_zero _ hf').elim
      | succ fuel' =>
          cases hs : (body s).value with
          | stop r => rw [(run_stop hs fuel).1, (run_stop hs fuel').1]
          | next u =>
              have hu := hμ s u hs
              rw [(run_next hs fuel).1, (run_next hs fuel').1]
              exact ih (by omega) (by omega)

/-- A run ends as it would from any state it comes to. -/
theorem Reaches.run_eq (hμ : Falls body μ) {s t : σ} (h : Reaches body s t)
    {fuel fuel' : Nat} (hf : μ s < fuel) (hf' : μ t < fuel') :
    (run body fuel s).value = (run body fuel' t).value := by
  induction h generalizing fuel' with
  | refl => exact run_fuel hμ hf hf'
  | @next t u _ hu ih =>
      have hlt : μ t < max fuel' (μ t) + 1 := by omega
      rw [ih hlt, (run_next hu _).1]
      exact run_fuel hμ (by have := hμ t u hu; omega) hf'

/-- The one round a loop ends in. -/
theorem Reaches.run_stop (hμ : Falls body μ) {s t : σ} {r : ρ}
    (h : Reaches body s t) (ht : (body t).value = .stop r) {fuel : Nat}
    (hf : μ s < fuel) : (run body fuel s).value = some r := by
  rw [h.run_eq hμ hf (Nat.lt_succ_self (μ t))]
  exact (Traced.run_stop ht (μ t)).1

/-- Goes through the numbers from `i` on, up to the first with a result. -/
def scan (body : Nat → Traced τ (Option ρ)) : Nat → Nat → Traced τ (Option ρ)
  | 0, _ => pure none
  | n + 1, i => do
      match ← body i with
      | some r => pure (some r)
      | none => scan body n (i + 1)

variable {step : Nat → Traced τ (Option ρ)} {n i : Nat} {x : τ}

theorem scan_some {r : ρ} (h : (step i).value = some r) :
    (scan step (n + 1) i).value = some r ∧ (scan step (n + 1) i).trace = (step i).trace := by
  unfold scan
  rw [value_bind, trace_bind, h]
  exact ⟨rfl, List.append_nil _⟩

theorem scan_none (h : (step i).value = none) :
    (scan step (n + 1) i).value = (scan step n (i + 1)).value
      ∧ (scan step (n + 1) i).trace = (step i).trace ++ (scan step n (i + 1)).trace := by
  rw [scan]
  rw [value_bind, trace_bind, h]
  exact ⟨rfl, rfl⟩

/-- A search touches what is touched for the numbers it comes to. -/
theorem mem_scan_trace : x ∈ (scan step n i).trace
    ↔ ∃ k, i ≤ k ∧ k < i + n ∧ (∀ j, i ≤ j → j < k → (step j).value = none)
      ∧ x ∈ (step k).trace := by
  induction n generalizing i with
  | zero =>
      constructor
      · intro h
        cases h
      · intro h
        obtain ⟨k, h1, h2, -⟩ := h
        omega
  | succ n ih =>
      cases hs : (step i).value with
      | some r =>
          rw [(scan_some hs).2]
          constructor
          · intro hx
            exact ⟨i, Nat.le_refl i, by omega, fun j h1 h2 => absurd h2 (by omega), hx⟩
          · intro h
            obtain ⟨k, h1, -, hnone, hx⟩ := h
            by_cases hk : k = i
            · rwa [hk] at hx
            · rw [hnone i (Nat.le_refl i) (by omega)] at hs
              cases hs
      | none =>
          rw [(scan_none hs).2, List.mem_append, ih]
          constructor
          · intro hx
            cases hx with
            | inl hx => exact ⟨i, Nat.le_refl i, by omega, fun j h1 h2 => absurd h2 (by omega), hx⟩
            | inr hx =>
                obtain ⟨k, h1, h2, hnone, hx⟩ := hx
                refine ⟨k, by omega, by omega, fun j h3 h4 => ?_, hx⟩
                by_cases hj : j = i
                · rw [hj]
                  exact hs
                · exact hnone j (by omega) h4
          · intro h
            obtain ⟨k, h1, h2, hnone, hx⟩ := h
            by_cases hk : k = i
            · rw [hk] at hx
              exact Or.inl hx
            · exact Or.inr ⟨k, by omega, by omega, fun j h3 h4 => hnone j (by omega) h4, hx⟩

-- ==== all touched

/-- Everything that is touched has a property. -/
def All (P : τ → Prop) (t : Traced τ α) : Prop := ∀ x ∈ t.trace, P x

variable {P : τ → Prop} {t : Traced τ α} {f : α → Traced τ β}

theorem All.pure (a : α) : All P (pure a : Traced τ α) := fun _ hx => by cases hx

theorem mem_bind_trace : x ∈ (t >>= f).trace ↔ x ∈ t.trace ∨ x ∈ (f t.value).trace :=
  List.mem_append

theorem All.bind (ht : All P t) (hf : All P (f t.value)) : All P (t >>= f) := by
  intro x hx
  cases mem_bind_trace.mp hx with
  | inl hx => exact ht x hx
  | inr hx => exact hf x hx

theorem All.mono {Q : τ → Prop} (ht : All P t) (h : ∀ x, P x → Q x) : All Q t :=
  fun x hx => h x (ht x hx)

theorem All.scan (h : ∀ j, i ≤ j → j < i + n → All P (step j)) : All P (scan step n i) := by
  intro x hx
  obtain ⟨k, h1, h2, -, hx⟩ := mem_scan_trace.mp hx
  exact h k h1 h2 x hx

end Traced
