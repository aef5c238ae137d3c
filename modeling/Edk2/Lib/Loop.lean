import Mathlib.Logic.Relation
import Mathlib.Data.Nat.Notation

/-!
# Loops

A loop is a step that goes on with another state or returns a result. It may never return; how often
it may go round is a parameter of its evaluation, so that a loop that returns is one that returns
for some number of rounds.

## Main results

* `Returns.unique`: a loop returns one result
* `Reaches.invariant`: what every round keeps holds at every state the loop reaches
* `exists_returns`: a loop whose states have a measure that falls returns
* `not_returns`: a loop that keeps going on does not return
* `yields_bind`, `terminates_bind`: what an evaluation in two parts yields
* `yields_nestedLoop_inl`, `yields_nestedLoop_inr`: what a loop yields, by its first round
-/

namespace Edk2

open Option

variable {σ ρ : Type*} {step : σ → σ ⊕ ρ} {s s' : σ} {r r' : ρ}

/-- The loop from `s`, for at most `fuel` rounds. -/
def loop (step : σ → σ ⊕ ρ) : ℕ → σ → Option ρ
  | 0, _ => none
  | fuel + 1, s =>
    match step s with
    | .inl s' => loop step fuel s'
    | .inr r => some r

def Returns (step : σ → σ ⊕ ρ) (s : σ) (r : ρ) : Prop := ∃ fuel, loop step fuel s = some r

/-- The loop goes on from `s` to `s'`, in any number of rounds. -/
def Reaches (step : σ → σ ⊕ ρ) : σ → σ → Prop :=
  Relation.ReflTransGen fun s s' => step s = .inl s'

theorem loop_inl {fuel : ℕ} (h : step s = .inl s') :
    loop step (fuel + 1) s = loop step fuel s' := by
  rw [loop, h]

theorem loop_inr {fuel : ℕ} (h : step s = .inr r) : loop step (fuel + 1) s = some r := by
  rw [loop, h]

/-- A result does not depend on how often the loop might still have gone round. -/
theorem loop_mono {fuel fuel' : ℕ} (hle : fuel ≤ fuel') (h : loop step fuel s = some r) :
    loop step fuel' s = some r := by
  induction fuel generalizing fuel' s with
  | zero => cases h
  | succ fuel ih =>
    obtain ⟨fuel', rfl⟩ := Nat.exists_eq_add_of_le' hle
    cases hs : step s with
    | inl s' =>
      rw [loop_inl hs] at h
      rw [← Nat.add_assoc, loop_inl hs]
      exact ih (Nat.le_add_left _ _) h
    | inr r₀ =>
      rw [loop_inr hs] at h
      rw [← Nat.add_assoc, loop_inr hs, h]

theorem returns_of_inr (h : step s = .inr r) : Returns step s r := ⟨1, loop_inr h⟩

theorem returns_inl_iff (h : step s = .inl s') : Returns step s r ↔ Returns step s' r := by
  constructor
  · rintro ⟨fuel, hf⟩
    cases fuel with
    | zero => cases hf
    | succ fuel => exact ⟨fuel, loop_inl h ▸ hf⟩
  · rintro ⟨fuel, hf⟩
    exact ⟨fuel + 1, (loop_inl h).trans hf⟩

theorem returns_inr_iff (h : step s = .inr r) : Returns step s r' ↔ r' = r := by
  constructor
  · rintro ⟨fuel, hf⟩
    cases fuel with
    | zero => cases hf
    | succ fuel => exact some.inj (hf.symm.trans (loop_inr h))
  · rintro rfl
    exact returns_of_inr h

theorem Reaches.returns_iff (h : Reaches step s s') : Returns step s r ↔ Returns step s' r := by
  induction h with
  | refl => exact Iff.rfl
  | tail _ hs ih => rw [ih, returns_inl_iff hs]

/-- What every round keeps holds wherever the loop goes on to. -/
theorem Reaches.invariant {P : σ → Prop} (hst : ∀ s s', P s → step s = .inl s' → P s')
    (h : Reaches step s s') (hs : P s) : P s' := by
  induction h with
  | refl => exact hs
  | tail _ hlast ih => exact hst _ _ ih hlast

theorem Returns.unique (h : Returns step s r) (h' : Returns step s r') : r = r' := by
  obtain ⟨fuel, hf⟩ := h
  induction fuel generalizing s with
  | zero => cases hf
  | succ fuel ih =>
    cases hs : step s with
    | inl s' => exact ih ((returns_inl_iff hs).mp h') (loop_inl hs ▸ hf)
    | inr r₀ =>
      rw [(returns_inr_iff hs).mp h']
      exact some.inj (hf.symm.trans (loop_inr hs))

/-- Two loops that take the same rounds wherever the one goes return the same. -/
theorem returns_congr {step' : σ → σ ⊕ ρ} (h : ∀ s', Reaches step s s' → step' s' = step s') :
    Returns step' s r ↔ Returns step s r := by
  suffices hl : ∀ fuel s₁, Reaches step s s₁ → loop step' fuel s₁ = loop step fuel s₁ by
    simp only [Returns, hl _ s .refl]
  intro fuel
  induction fuel with
  | zero => exact fun _ _ => rfl
  | succ fuel ih =>
    intro s₁ hr
    rw [loop, loop, h s₁ hr]
    cases hs : step s₁ with
    | inl s₂ => exact ih s₂ (hr.tail hs)
    | inr r₀ => rfl

theorem Returns.exists_reaches (h : Returns step s r) :
    ∃ s', Reaches step s s' ∧ step s' = .inr r := by
  obtain ⟨fuel, hf⟩ := h
  induction fuel generalizing s with
  | zero => cases hf
  | succ fuel ih =>
    cases hs : step s with
    | inl s' =>
      obtain ⟨s'', hre, hr⟩ := ih (loop_inl hs ▸ hf)
      exact ⟨s'', .head hs hre, hr⟩
    | inr r₀ =>
      obtain rfl := some.inj (hf.symm.trans (loop_inr hs))
      exact ⟨s, .refl, hs⟩

/-- **A loop whose measure falls returns.** -/
theorem exists_returns (measure : σ → ℕ)
    (hf : ∀ s₁ s₂, Reaches step s s₁ → step s₁ = .inl s₂ → measure s₂ < measure s₁) :
    ∃ r, Returns step s r := by
  suffices ha : ∀ n s₁, Reaches step s s₁ → measure s₁ ≤ n → ∃ r, Returns step s₁ r from
    ha _ s .refl (Nat.le_refl _)
  intro n
  induction n with
  | zero =>
    intro s₁ hre hn
    cases hs : step s₁ with
    | inl s₂ => exact absurd (hf s₁ s₂ hre hs) (by omega)
    | inr r => exact ⟨r, returns_of_inr hs⟩
  | succ n ih =>
    intro s₁ hre hn
    cases hs : step s₁ with
    | inl s₂ =>
      have hlt := hf s₁ s₂ hre hs
      obtain ⟨r, hr⟩ := ih s₂ (hre.tail hs) (by omega)
      exact ⟨r, (returns_inl_iff hs).mpr hr⟩
    | inr r => exact ⟨r, returns_of_inr hs⟩

/-- **A loop that keeps going on does not return.** -/
theorem not_returns {P : σ → Prop} (hst : ∀ s, P s → ∃ s', step s = .inl s' ∧ P s') (hs : P s) :
    ¬ Returns step s r := by
  rintro ⟨fuel, hf⟩
  induction fuel generalizing s with
  | zero => cases hf
  | succ fuel ih =>
    obtain ⟨s', hs', hP⟩ := hst s hs
    exact ih hP (loop_inl hs' ▸ hf)

/-! ## Evaluations by rounds -/

section Yields

variable {α β : Type*} {f : ℕ → Option α} {h : ℕ → α → Option β} {x y : α} {z : β}

/-- The evaluation yields `x`, for enough rounds. -/
def Yields (f : ℕ → Option α) (x : α) : Prop := ∃ fuel, f fuel = some x

def Terminates (f : ℕ → Option α) : Prop := ∃ x, Yields f x

/-- What an evaluation yields, it yields for more rounds too. -/
def Steady (f : ℕ → Option α) : Prop := ∀ ⦃m n x⦄, m ≤ n → f m = some x → f n = some x

theorem steady_loop (step : σ → σ ⊕ ρ) (s : σ) : Steady fun fuel => loop step fuel s :=
  fun _ _ _ => loop_mono

theorem steady_const (o : Option α) : Steady fun _ => o := fun _ _ _ _ => id

theorem Steady.bind (hf : Steady f) (hh : ∀ x, Steady (h · x)) :
    Steady fun fuel => (f fuel).bind (h fuel) := by
  intro m n z hmn hz
  obtain ⟨x, hx, hz⟩ := bind_eq_some_iff.mp hz
  exact bind_eq_some_iff.mpr ⟨x, hf hmn hx, hh x hmn hz⟩

theorem Steady.map (hf : Steady f) (k : α → β) : Steady fun fuel => (f fuel).map k := by
  intro m n z hmn hz
  obtain ⟨x, hx, rfl⟩ := map_eq_some_iff.mp hz
  exact map_eq_some_iff.mpr ⟨x, hf hmn hx, rfl⟩

theorem Yields.map (hx : Yields f x) (k : α → β) :
    Yields (fun fuel => (f fuel).map k) (k x) := by
  obtain ⟨fuel, hf⟩ := hx
  exact ⟨fuel, map_eq_some_iff.mpr ⟨x, hf, rfl⟩⟩

theorem Yields.unique (hf : Steady f) (hx : Yields f x) (hy : Yields f y) : x = y := by
  obtain ⟨m, hm⟩ := hx
  obtain ⟨n, hn⟩ := hy
  have hm' := hf (Nat.le_max_left m n) hm
  exact some.inj (hm'.symm.trans (hf (Nat.le_max_right m n) hn))

@[simp] theorem yields_const {o : Option α} : Yields (fun _ => o) x ↔ o = some x :=
  ⟨fun ⟨_, h⟩ => h, fun h => ⟨0, h⟩⟩

theorem Yields.bind (hf : Steady f) (hx : Yields f x) (hh : Steady (h · x))
    (hz : Yields (h · x) z) : Yields (fun fuel => (f fuel).bind (h fuel)) z := by
  obtain ⟨m, hm⟩ := hx
  obtain ⟨n, hn⟩ := hz
  refine ⟨max m n, bind_eq_some_iff.mpr ⟨x, ?_, ?_⟩⟩
  · exact hf (Nat.le_max_left m n) hm
  · exact hh (Nat.le_max_right m n) hn

theorem Yields.exists_bind {Q : β → Prop} (hx : Yields f x) (hf : Steady f) (hh : Steady (h · x))
    (hz : ∃ z, Yields (h · x) z ∧ Q z) :
    ∃ z, Yields (fun fuel => (f fuel).bind (h fuel)) z ∧ Q z := by
  obtain ⟨z, hz, hQ⟩ := hz
  exact ⟨z, hx.bind hf hh hz, hQ⟩

/-- **An evaluation in two parts.** -/
theorem yields_bind (hf : Steady f) (hh : ∀ x, Steady (h · x)) :
    Yields (fun fuel => (f fuel).bind (h fuel)) z ↔ ∃ x, Yields f x ∧ Yields (h · x) z := by
  constructor
  · rintro ⟨fuel, hz⟩
    obtain ⟨x, hx, hz⟩ := bind_eq_some_iff.mp hz
    exact ⟨x, ⟨fuel, hx⟩, ⟨fuel, hz⟩⟩
  · rintro ⟨x, hx, hz⟩
    exact hx.bind hf (hh x) hz

theorem terminates_bind (hf : Steady f) (hh : ∀ x, Steady (h · x)) :
    Terminates (fun fuel => (f fuel).bind (h fuel)) ↔ ∃ x, Yields f x ∧ Terminates (h · x) := by
  constructor
  · rintro ⟨z, hz⟩
    obtain ⟨x, hx, hz⟩ := (yields_bind hf hh).mp hz
    exact ⟨x, hx, z, hz⟩
  · rintro ⟨x, hx, z, hz⟩
    exact ⟨z, (yields_bind hf hh).mpr ⟨x, hx, hz⟩⟩

theorem Terminates.bind (hf : Steady f) (hx : Yields f x) (hh : Steady (h · x))
    (hz : Terminates (h · x)) : Terminates fun fuel => (f fuel).bind (h fuel) := by
  obtain ⟨z, hz⟩ := hz
  exact ⟨z, hx.bind hf hh hz⟩

theorem terminates_const : Terminates fun _ => some x := ⟨x, 0, rfl⟩

end Yields

/-! ## Loops of evaluations -/

section Nested

variable {body : ℕ → σ → Option (σ ⊕ ρ)}

/-- At most `n` rounds of a loop, each evaluated for `fuel` rounds. -/
def nestedRounds (body : ℕ → σ → Option (σ ⊕ ρ)) (fuel : ℕ) : ℕ → σ → Option ρ
  | 0, _ => none
  | n + 1, s => (body fuel s).bind (Sum.elim (nestedRounds body fuel n) some)

/-- A loop the rounds of which are evaluated by rounds themselves. -/
def nestedLoop (body : ℕ → σ → Option (σ ⊕ ρ)) (fuel : ℕ) (s : σ) : Option ρ :=
  nestedRounds body fuel fuel s

theorem nestedRounds_mono (hb : ∀ s, Steady (body · s)) {k k' n n' : ℕ} (hk : k ≤ k')
    (hn : n ≤ n') (h : nestedRounds body k n s = some r) : nestedRounds body k' n' s = some r := by
  induction n generalizing n' s with
  | zero => cases h
  | succ n ih =>
    obtain ⟨n', rfl⟩ : ∃ m, n' = m + 1 := ⟨n' - 1, by omega⟩
    obtain ⟨x, hx, hr⟩ := bind_eq_some_iff.mp h
    refine bind_eq_some_iff.mpr ⟨x, hb s hk hx, ?_⟩
    cases x with
    | inl s' => exact ih (Nat.le_of_succ_le_succ hn) hr
    | inr r₀ => exact hr

theorem steady_nestedLoop (hb : ∀ s, Steady (body · s)) (s : σ) :
    Steady fun fuel => nestedLoop body fuel s :=
  fun _ _ _ hmn h => nestedRounds_mono hb hmn hmn h

theorem yields_nestedLoop_inr (h : Yields (body · s) (.inr r)) (hb : ∀ s, Steady (body · s)) :
    Yields (fun fuel => nestedLoop body fuel s) r := by
  obtain ⟨k, hk⟩ := h
  refine ⟨k + 1, bind_eq_some_iff.mpr ⟨.inr r, ?_, rfl⟩⟩
  exact hb s (Nat.le_succ k) hk

theorem yields_nestedLoop_inl (h : Yields (body · s) (.inl s')) (hb : ∀ s, Steady (body · s))
    (hr : Yields (fun fuel => nestedLoop body fuel s') r) :
    Yields (fun fuel => nestedLoop body fuel s) r := by
  obtain ⟨k, hk⟩ := h
  obtain ⟨m, hm⟩ := hr
  refine ⟨max k m + 1, bind_eq_some_iff.mpr ⟨.inl s', ?_, ?_⟩⟩
  · exact hb s (by omega) hk
  · exact nestedRounds_mono hb (by omega) (by omega) hm

end Nested

end Edk2
