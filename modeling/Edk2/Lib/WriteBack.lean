import Mathlib.Logic.Function.Basic

/-!
# Write-back caches

A cache has lines, and behind it is a store, of which there may be several copies. A line holds the
page of one key, in the slot of the key; it is dirty when the store may not have the page yet. What
the cache and the store show together is the page of the line where there is one, and of the store
elsewhere.

## Main results

* `Shows.page_eq`, `Shows.store_eq`: what a line and what the store has
* `Shows.scribble`: behind a dirty line the store may have anything
* `Shows.clean`, `Shows.load`, `Shows.put`, `Shows.bypass`: the steps of a cache
-/

namespace Edk2

open Function (update update_self update_of_ne)

structure Line (κ P : Type) where
  key : κ
  dirty : Bool
  page : P

variable {ι κ σ P : Type} {slot : κ → ι} {lines : ι → Option (Line κ P)} {store store' : σ → κ → P}
  {content : κ → P} {line : Line κ P} {i : ι} {k : κ}

theorem update_eq_some_iff [DecidableEq ι] {j : ι} {other : Line κ P} :
    update lines i (some line) j = some other ↔
      (j = i ∧ line = other) ∨ (j ≠ i ∧ lines j = some other) := by
  by_cases hij : j = i
  · subst hij
    simp
  · simp [hij]

/-- No line holds a page of the key that the store may not have. -/
def CleanAt (slot : κ → ι) (lines : ι → Option (Line κ P)) (k : κ) : Prop :=
  ∀ line, lines (slot k) = some line → line.key = k → line.dirty = false

/-- The lines over the store show the content. -/
structure Shows (slot : κ → ι) (lines : ι → Option (Line κ P)) (store : σ → κ → P)
    (content : κ → P) : Prop where
  slot_eq : ∀ i line, lines i = some line → slot line.key = i
  page_eq : ∀ i line, lines i = some line → line.page = content line.key
  store_eq : ∀ c k, CleanAt slot lines k → store c k = content k

namespace Shows

theorem empty (hl : ∀ i, lines i = none) (hs : ∀ c k, store c k = content k) :
    Shows slot lines store content where
  slot_eq i line h := by
    rw [hl] at h
    cases h
  page_eq i line h := by
    rw [hl] at h
    cases h
  store_eq c k _ := hs c k

/-- Behind a dirty line the store may have anything. -/
theorem scribble (h : Shows slot lines store content) (hl : lines i = some line)
    (hd : line.dirty = true) (ho : ∀ c k, k ≠ line.key → store' c k = store c k) :
    Shows slot lines store' content where
  slot_eq := h.slot_eq
  page_eq := h.page_eq
  store_eq c k hc := by
    by_cases hk : k = line.key
    · subst hk
      have hs := h.slot_eq i line hl
      have := hc line (hs ▸ hl) rfl
      rw [hd] at this
      cases this
    · rw [ho c k hk]
      exact h.store_eq c k hc

variable [DecidableEq ι]

theorem cleanAt_of_update {new : Line κ P} (hl : lines i = some line)
    (hk : k ≠ line.key) (h : CleanAt slot (update lines i (some new)) k) :
    CleanAt slot lines k := by
  intro other ho hke
  by_cases hij : slot k = i
  · rw [hij, hl] at ho
    cases ho
    exact absurd hke.symm hk
  · exact h other (by rwa [update_of_ne hij]) hke

theorem clean (h : Shows slot lines store content) (hl : lines i = some line)
    (hs : ∀ c, store c line.key = line.page) :
    Shows slot (update lines i (some { line with dirty := false })) store content where
  slot_eq j other hj := by
    rcases update_eq_some_iff.mp hj with ⟨rfl, rfl⟩ | ⟨-, hj⟩
    · exact h.slot_eq j line hl
    · exact h.slot_eq j other hj
  page_eq j other hj := by
    rcases update_eq_some_iff.mp hj with ⟨rfl, rfl⟩ | ⟨-, hj⟩
    · exact h.page_eq j line hl
    · exact h.page_eq j other hj
  store_eq c k hc := by
    by_cases hk : k = line.key
    · rw [hk, hs c]
      exact h.page_eq i line hl
    · exact h.store_eq c k (cleanAt_of_update hl hk hc)

theorem load (h : Shows slot lines store content)
    (hold : ∀ old, lines (slot k) = some old → old.dirty = false) {page : P}
    (hp : page = content k) :
    Shows slot (update lines (slot k) (some ⟨k, false, page⟩)) store content where
  slot_eq j other hj := by
    rcases update_eq_some_iff.mp hj with ⟨rfl, rfl⟩ | ⟨-, hj⟩
    · rfl
    · exact h.slot_eq j other hj
  page_eq j other hj := by
    rcases update_eq_some_iff.mp hj with ⟨rfl, rfl⟩ | ⟨-, hj⟩
    · exact hp
    · exact h.page_eq j other hj
  store_eq c k' hc := by
    refine h.store_eq c k' fun other ho hk => ?_
    by_cases hij : slot k' = slot k
    · exact hold other (hij ▸ ho)
    · exact hc other (by rwa [update_of_ne hij]) hk

theorem put [DecidableEq κ] (h : Shows slot lines store content) (hl : lines i = some line)
    (page : P) :
    Shows slot (update lines i (some ⟨line.key, true, page⟩)) store
      (update content line.key page) where
  slot_eq j other hj := by
    rcases update_eq_some_iff.mp hj with ⟨rfl, rfl⟩ | ⟨-, hj⟩
    · exact h.slot_eq j line hl
    · exact h.slot_eq j other hj
  page_eq j other hj := by
    rcases update_eq_some_iff.mp hj with ⟨rfl, rfl⟩ | ⟨hij, hj⟩
    · rw [update_self]
    · have hne : other.key ≠ line.key := by
        intro hke
        have hj' := h.slot_eq j other hj
        rw [hke, h.slot_eq i line hl] at hj'
        exact hij hj'.symm
      rw [update_of_ne hne]
      exact h.page_eq j other hj
  store_eq c k hc := by
    by_cases hk : k = line.key
    · subst hk
      have hd := hc ⟨line.key, true, page⟩
        (by rw [h.slot_eq i line hl, update_self]) rfl
      cases hd
    · rw [update_of_ne hk]
      exact h.store_eq c k (cleanAt_of_update hl hk hc)

omit [DecidableEq ι] in
/-- Pages may be written around the cache, when their lines are dropped. -/
theorem bypass (h : Shows slot lines store content) {K : κ → Prop}
    {lines' : ι → Option (Line κ P)} {content' : κ → P}
    (hli : ∀ i line, lines' i = some line ↔ lines i = some line ∧ ¬ K line.key)
    (hin : ∀ c k, K k → store' c k = content' k)
    (hout : ∀ k, ¬ K k → content' k = content k)
    (ho : ∀ c k, ¬ K k → store' c k = store c k) : Shows slot lines' store' content' where
  slot_eq i line hl := h.slot_eq i line ((hli i line).mp hl).1
  page_eq i line hl := by
    obtain ⟨hold, hK⟩ := (hli i line).mp hl
    rw [hout line.key hK]
    exact h.page_eq i line hold
  store_eq c k hc := by
    by_cases hK : K k
    · exact hin c k hK
    · rw [ho c k hK, hout k hK]
      refine h.store_eq c k fun line hl hk => ?_
      exact hc line ((hli _ line).mpr ⟨hl, hk ▸ hK⟩) hk

end Shows

end Edk2
