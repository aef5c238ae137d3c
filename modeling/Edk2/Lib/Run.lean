import Mathlib.Data.List.Basic

/-!
# Runs of a step relation

A system is a step relation `step s i s'` on states, with the input `i` of the step; a run is
any finite sequence of steps. What one step preserves, a run preserves.

## Main results

* `Run.invariant`: what every step preserves holds at the end of every run
* `Run.history`: the same for what speaks of the inputs so far
* `Run.mono`: a run of a smaller relation is a run of a larger one
* `Run.of_foldlM`: the run of a step function, from its evaluation
-/

namespace Edk2

variable {σ ι : Type*}

/-- A run: the inputs `is`, one step each, lead from the first state to the second. -/
inductive Run (step : σ → ι → σ → Prop) : σ → List ι → σ → Prop
  | nil (s : σ) : Run step s [] s
  | cons {s s' s'' : σ} {i : ι} {is : List ι} :
      step s i s' → Run step s' is s'' → Run step s (i :: is) s''

namespace Run

variable {step step' : σ → ι → σ → Prop} {s s' s'' : σ} {is js : List ι}

theorem invariant {P : σ → Prop} (hst : ∀ s i s', P s → step s i s' → P s')
    (h : Run step s is s') (hs : P s) : P s' := by
  induction h with
  | nil => exact hs
  | cons h₁ _ ih => exact ih (hst _ _ _ hs h₁)

/-- An invariant that speaks of the inputs so far. -/
theorem history {P : List ι → σ → Prop} (hnil : P [] s)
    (hst : ∀ is s i s', P is s → step s i s' → P (is ++ [i]) s') (h : Run step s is s') :
    P is s' := by
  suffices hg : ∀ before, P before s → P (before ++ is) s' from hg [] hnil
  clear hnil
  induction h with
  | nil =>
    intro before hs
    rwa [List.append_nil]
  | cons h₁ _ ih =>
    intro before hs
    have := ih (before ++ [_]) (hst _ _ _ _ hs h₁)
    rwa [List.append_assoc] at this

theorem mono (hle : ∀ s i s', step s i s' → step' s i s') (h : Run step s is s') :
    Run step' s is s' := by
  induction h with
  | nil => exact .nil _
  | cons h₁ _ ih => exact .cons (hle _ _ _ h₁) ih

/-- A run whose last input is `i` ends with a step. -/
theorem of_concat {i : ι} (h : Run step s (is ++ [i]) s'') :
    ∃ s', Run step s is s' ∧ step s' i s'' := by
  induction is generalizing s with
  | nil =>
    cases h with
    | cons hs hnil =>
      cases hnil
      exact ⟨s, .nil s, hs⟩
  | cons j is ih =>
    cases h with
    | cons hs hre =>
      obtain ⟨s', hr, hlast⟩ := ih hre
      exact ⟨s', .cons hs hr, hlast⟩

/-- The run of a step function, from its evaluation. -/
theorem of_foldlM {f : σ → ι → Option σ} (h : is.foldlM f s = some s') :
    Run (fun s i s' => f s i = some s') s is s' := by
  induction is generalizing s with
  | nil =>
    obtain rfl := Option.some.inj h
    exact .nil _
  | cons i is ih =>
    obtain ⟨s₁, h₁, h₂⟩ := Option.bind_eq_some_iff.mp h
    exact .cons h₁ (ih h₂)

/-- What holds of every input holds at every step. -/
theorem restrict {Q : ι → Prop} (hQ : ∀ i ∈ is, Q i) (h : Run step s is s') :
    Run (fun s i s' => Q i ∧ step s i s') s is s' := by
  induction h with
  | nil => exact .nil _
  | cons h₁ _ ih =>
    obtain ⟨hi, his⟩ := List.forall_mem_cons.mp hQ
    exact .cons ⟨hi, h₁⟩ (ih his)

end Run

end Edk2
