import Edk2.Lib.Loop
import Mathlib.Data.Fintype.Pigeonhole
import Mathlib.Data.Set.Finite.Basic
import Mathlib.Logic.Function.Iterate

/-!
# Chains

A chain follows a function `next` from a first element until an element is a stop. In a store of
finitely many elements it either ends or comes back to an element that it has passed.

## Main results

* `ends_iff`, `ends_iff_of_mem`: over finitely many elements a chain ends unless it comes back
* `returns_iff_ends`: a loop that follows a chain returns when the chain ends
-/

namespace Edk2

variable {α σ ρ : Type*} {next next' : α → α} {stop : α → Prop} {a : α}

/-- The chain from `a` comes to a stop. -/
def Ends (next : α → α) (stop : α → Prop) (a : α) : Prop := ∃ n, stop (next^[n] a)

/-- The chain from `a` comes back to an element it has passed, with no stop on the way. -/
def Returning (next : α → α) (stop : α → Prop) (a : α) : Prop :=
  ∃ i j, i < j ∧ next^[i] a = next^[j] a ∧ ∀ k ≤ j, ¬ stop (next^[k] a)

theorem Returning.not_ends (h : Returning next stop a) : ¬ Ends next stop a := by
  obtain ⟨i, j, hij, heq, hgo⟩ := h
  rintro ⟨n, hn⟩
  induction n using Nat.strong_induction_on with
  | _ n ih =>
    by_cases hle : n ≤ j
    · exact hgo n hle hn
    -- one turn earlier the chain was at same element
    · refine ih (n - (j - i)) (by omega) ?_
      have hb : next^[n - j + i] a = next^[n - j + j] a := by
        rw [Function.iterate_add_apply, heq, ← Function.iterate_add_apply]
      rw [show n - (j - i) = n - j + i by omega, hb, Nat.sub_add_cancel (by omega)]
      exact hn

/-- A chain that stays among finitely many elements ends unless it comes back. -/
theorem ends_of_not_returning {F : Set α} (hF : F.Finite)
    (hmem : ∀ n, (∀ k ≤ n, ¬ stop (next^[k] a)) → next^[n] a ∈ F)
    (hno : ¬ Returning next stop a) : Ends next stop a := by
  by_contra hgo
  have hgo' : ∀ n, ¬ stop (next^[n] a) := fun n hn => hgo ⟨n, hn⟩
  obtain ⟨i, -, j, -, hne, heq⟩ := Set.infinite_univ.exists_ne_map_eq_of_mapsTo
    (fun n _ => hmem n fun k _ => hgo' k : Set.MapsTo (fun n => next^[n] a) Set.univ F) hF
  rcases Nat.lt_or_gt_of_ne hne with hij | hij
  · exact hno ⟨i, j, hij, heq, fun k _ => hgo' k⟩
  · exact hno ⟨j, i, hij, heq.symm, fun k _ => hgo' k⟩

/-- **A chain among finitely many elements ends unless it comes back.** -/
theorem ends_iff_of_mem {F : Set α} (hF : F.Finite) (ha : a ∈ F)
    (hnext : ∀ x ∈ F, ¬ stop x → next x ∈ F) : Ends next stop a ↔ ¬ Returning next stop a := by
  refine ⟨fun he hr => hr.not_ends he, ends_of_not_returning hF fun n hgo => ?_⟩
  induction n with
  | zero => exact ha
  | succ n ih =>
    rw [Function.iterate_succ_apply']
    exact hnext _ (ih fun k hk => hgo k (by omega)) (hgo n (by omega))

/-- **Over finitely many elements a chain ends unless it comes back.** -/
theorem ends_iff {F : Set α} (hF : F.Finite) (hout : ∀ x, x ∉ F → stop x ∨ stop (next x)) :
    Ends next stop a ↔ ¬ Returning next stop a := by
  refine ⟨fun he hr => hr.not_ends he, fun hno => ?_⟩
  by_contra hgo
  refine hgo (ends_of_not_returning hF (fun n _ => ?_) hno)
  by_contra hn
  rcases hout _ hn with hstop | hstop
  · exact hgo ⟨n, hstop⟩
  · rw [← Function.iterate_succ_apply' next n a] at hstop
    exact hgo ⟨n + 1, hstop⟩

theorem iterate_congr {n : ℕ} (h : ∀ k < n, next' (next^[k] a) = next (next^[k] a)) {k : ℕ}
    (hk : k ≤ n) : next'^[k] a = next^[k] a := by
  induction k with
  | zero => rfl
  | succ k ih =>
    rw [Function.iterate_succ_apply', Function.iterate_succ_apply', ih (by omega), h k (by omega)]

/-! ## Loops along a chain -/

section Loops

variable {step : σ → σ ⊕ ρ} {P : σ → Prop} (pos : σ → α) {s : σ}

theorem exists_returns_of_ends
    (hgo : ∀ s, P s → ¬ stop (pos s) →
      (∃ r, step s = .inr r) ∨ ∃ s', step s = .inl s' ∧ P s' ∧ pos s' = next (pos s))
    (hstop : ∀ s, P s → stop (pos s) → ∃ r, step s = .inr r) (hs : P s)
    (he : Ends next stop (pos s)) : ∃ r, Returns step s r := by
  obtain ⟨n, hn⟩ := he
  induction n generalizing s with
  | zero =>
    obtain ⟨r, hr⟩ := hstop s hs hn
    exact ⟨r, returns_of_inr hr⟩
  | succ n ih =>
    by_cases hno : stop (pos s)
    · obtain ⟨r, hr⟩ := hstop s hs hno
      exact ⟨r, returns_of_inr hr⟩
    · rcases hgo s hs hno with ⟨r, hr⟩ | ⟨s', hst, hs', hpos⟩
      · exact ⟨r, returns_of_inr hr⟩
      · rw [Function.iterate_succ_apply, ← hpos] at hn
        obtain ⟨r, hr⟩ := ih hs' hn
        exact ⟨r, (returns_inl_iff hst).mpr hr⟩

/-- **A loop that follows a chain returns when the chain ends.** -/
theorem returns_iff_ends
    (hgo : ∀ s, P s → ¬ stop (pos s) → ∃ s', step s = .inl s' ∧ P s' ∧ pos s' = next (pos s))
    (hstop : ∀ s, P s → stop (pos s) → ∃ r, step s = .inr r) (hs : P s) :
    (∃ r, Returns step s r) ↔ Ends next stop (pos s) := by
  refine ⟨?_, exists_returns_of_ends pos (fun s hs h => .inr (hgo s hs h)) hstop hs⟩
  rintro ⟨r, hr⟩
  by_contra he
  refine not_returns (P := fun s => P s ∧ ¬ Ends next stop (pos s)) ?_ ⟨hs, he⟩ hr
  rintro s ⟨hs, he⟩
  obtain ⟨s', hst, hs', hpos⟩ := hgo s hs fun h => he ⟨0, h⟩
  refine ⟨s', hst, hs', ?_⟩
  rintro ⟨n, hn⟩
  rw [hpos] at hn
  exact he ⟨n + 1, hn⟩

end Loops

end Edk2
