import Mathlib.Data.List.Basic

/-!
# Linked lists in a table

A table of links is a function `next`. A path follows the links from one element to another and
passes a list of elements on its way; the elements it passes are all that it depends on.

## Main results

* `path_append`: a path in two parts
* `Path.congr`: a path depends on the links of the elements it passes
* `Path.next_mem`: a path stays on itself up to its end
* `path_concat`: the end of a path is the link of its last element
* `Path.next_getElem?`: the link of an element on the path leads to the one behind it
-/

namespace Edk2

open List

variable {α : Type} {next next' : α → α} {a b c x : α} {xs ys : List α}

/-- Following the links from `a`, one passes `xs` and comes to `b`. -/
def Path (next : α → α) : α → List α → α → Prop
  | a, [], b => a = b
  | a, x :: xs, b => a = x ∧ Path next (next x) xs b

@[simp] theorem path_nil : Path next a [] b ↔ a = b := Iff.rfl

@[simp] theorem path_cons : Path next a (x :: xs) b ↔ a = x ∧ Path next (next x) xs b := Iff.rfl

/-- A path in two parts. -/
theorem path_append : Path next a (xs ++ ys) c ↔ ∃ b, Path next a xs b ∧ Path next b ys c := by
  induction xs generalizing a with
  | nil => simp
  | cons x xs ih =>
    rw [cons_append, path_cons, ih]
    constructor
    · rintro ⟨heq, b, hxs, hys⟩
      exact ⟨b, ⟨heq, hxs⟩, hys⟩
    · rintro ⟨b, ⟨heq, hxs⟩, hys⟩
      exact ⟨heq, b, hxs, hys⟩

/-- A path depends on the links of the elements it passes. -/
theorem Path.congr (h : Path next a xs b) (heq : ∀ x ∈ xs, next' x = next x) :
    Path next' a xs b := by
  induction xs generalizing a with
  | nil => exact h
  | cons x xs ih =>
    obtain ⟨hax, htail⟩ := h
    refine ⟨hax, ?_⟩
    rw [heq x mem_cons_self]
    apply ih htail
    intro y hy
    exact heq y (mem_cons_of_mem x hy)

/-- The end of a path is the link of its last element. -/
theorem path_concat : Path next a (xs ++ [x]) b ↔ Path next a xs x ∧ next x = b := by
  rw [path_append]
  constructor
  · rintro ⟨c, hxs, rfl, he⟩
    exact ⟨hxs, he⟩
  · rintro ⟨hxs, he⟩
    exact ⟨x, hxs, rfl, he⟩

/-- The link of an element on the path leads to an element on the path, or to its end. -/
theorem Path.next_mem (h : Path next a xs b) (hx : x ∈ xs) : next x ∈ xs ∨ next x = b := by
  induction xs generalizing a with
  | nil => cases hx
  | cons y xs ih =>
    obtain ⟨rfl, htail⟩ := h
    rcases mem_cons.mp hx with rfl | hx
    · cases xs with
      | nil => exact .inr htail
      | cons z zs => exact .inl (mem_cons_of_mem _ (htail.1 ▸ mem_cons_self))
    · exact (ih htail hx).imp_left (mem_cons_of_mem _)

/-- The link of an element on the path leads to the element behind it, and that of the last one to
the end. -/
theorem Path.next_getElem? (h : Path next a xs b) {i : ℕ} (hx : xs[i]? = some x) :
    next x = (xs[i + 1]?).getD b := by
  induction xs generalizing a i with
  | nil => cases hx
  | cons y xs ih =>
    obtain ⟨rfl, htail⟩ := h
    cases i with
    | zero =>
      cases hx
      cases xs with
      | nil => exact htail
      | cons z zs => exact htail.1
    | succ i => exact ih htail hx

end Edk2
