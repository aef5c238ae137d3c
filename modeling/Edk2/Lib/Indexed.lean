import Mathlib.Data.List.Nodup
import Mathlib.Data.List.Perm.Basic
import Mathlib.Logic.Function.Basic

/-!
# Lists that index a heap

Records live at addresses of a heap; for each key there is a list of the addresses of the records
with that key, each address once. Records are allocated and freed, and put on their list and taken
off it.

## Main results

* `Indexed.insert`, `Indexed.erase`: a record is allocated, a record is freed
* `Indexed.congr`: records are changed, but not their keys
-/

namespace Edk2

open Function (update update_self update_of_ne)

variable {κ ρ : Type*} {lists : κ → List ℕ} {key : ρ → κ} {heap heap' : ℕ → Option ρ} {p : ℕ} {r : ρ}

/-- Each list holds the addresses of the records with its key, once each. -/
structure Indexed (lists : κ → List ℕ) (key : ρ → κ) (heap : ℕ → Option ρ) : Prop where
  nodup : ∀ k, (lists k).Nodup
  mem_iff : ∀ k p, p ∈ lists k ↔ ∃ r, heap p = some r ∧ key r = k

namespace Indexed

theorem mem (h : Indexed lists key heap) (hp : heap p = some r) : p ∈ lists (key r) :=
  (h.mem_iff _ p).mpr ⟨r, hp, rfl⟩

theorem key_eq (h : Indexed lists key heap) (hp : heap p = some r) {k : κ} (hmem : p ∈ lists k) :
    key r = k := by
  obtain ⟨r', hp', hk⟩ := (h.mem_iff k p).mp hmem
  obtain rfl := Option.some.inj (hp.symm.trans hp')
  exact hk

theorem notMem (h : Indexed lists key heap) (hp : heap p = none) (k : κ) : p ∉ lists k := by
  intro hmem
  obtain ⟨r, hp', -⟩ := (h.mem_iff k p).mp hmem
  rw [hp] at hp'
  cases hp'

theorem congr (h : Indexed lists key heap) (hk : ∀ p, (heap' p).map key = (heap p).map key) :
    Indexed lists key heap' := by
  refine ⟨h.nodup, fun k p => ?_⟩
  rw [h.mem_iff, ← Option.map_eq_some_iff, ← Option.map_eq_some_iff, hk]

variable [DecidableEq κ]

/-- **A record is allocated** and put on its list. -/
theorem insert (h : Indexed lists key heap) (hp : heap p = none) {l : List ℕ}
    (hl : l.Perm (p :: lists (key r))) :
    Indexed (update lists (key r) l) key (update heap p (some r)) := by
  constructor
  · intro k
    by_cases hk : k = key r
    · subst hk
      rw [update_self, hl.nodup_iff]
      exact List.nodup_cons.mpr ⟨h.notMem hp _, h.nodup _⟩
    · rw [update_of_ne hk]
      exact h.nodup k
  · intro k p'
    by_cases hp' : p' = p
    · subst hp'
      rw [update_self]
      by_cases hk : k = key r
      · subst hk
        rw [update_self, hl.mem_iff]
        exact ⟨fun _ => ⟨r, rfl, rfl⟩, fun _ => List.mem_cons_self⟩
      · rw [update_of_ne hk]
        refine ⟨fun hmem => absurd hmem (h.notMem hp k), fun ⟨r', hr', hke⟩ => ?_⟩
        obtain rfl := Option.some.inj hr'
        exact absurd hke.symm hk
    · rw [update_of_ne hp', ← h.mem_iff]
      by_cases hk : k = key r
      · subst hk
        rw [update_self, hl.mem_iff, List.mem_cons, or_iff_right hp']
      · rw [update_of_ne hk]

/-- **A record is freed** and taken off its list. -/
theorem erase (h : Indexed lists key heap) (hp : heap p = some r) :
    Indexed (update lists (key r) ((lists (key r)).erase p)) key
      (update heap p none) := by
  constructor
  · intro k
    by_cases hk : k = key r
    · subst hk
      rw [update_self]
      exact (h.nodup _).erase p
    · rw [update_of_ne hk]
      exact h.nodup k
  · intro k p'
    by_cases hp' : p' = p
    · subst hp'
      rw [update_self]
      refine ⟨fun hmem => ?_, fun ⟨r', hr', _⟩ => by cases hr'⟩
      by_cases hk : k = key r
      · subst hk
        rw [update_self] at hmem
        exact absurd hmem (h.nodup _).not_mem_erase
      · rw [update_of_ne hk] at hmem
        exact absurd (h.key_eq hp hmem).symm hk
    · rw [update_of_ne hp', ← h.mem_iff]
      by_cases hk : k = key r
      · subst hk
        rw [update_self, List.mem_erase_of_ne hp']
      · rw [update_of_ne hk]

end Indexed

end Edk2
