import Mathlib.Data.List.Perm.Basic

/-!
# Insertion before the first element with a property

The loop of an ordered insertion: it walks a list to the first element with a property and puts the
new one in front of it.

## Main results

* `insertBefore_perm`: the elements are those of the list and the new one
* `pairwise_insertBefore`: an ordered list stays ordered
-/

namespace Edk2

open List

variable {α : Type*} {p : α → Bool} {a : α} {l : List α}

/-- `a` in front of the first element of the list with `p`, or at its end. -/
def insertBefore (p : α → Bool) (a : α) : List α → List α
  | [] => [a]
  | b :: l => if p b then a :: b :: l else b :: insertBefore p a l

theorem insertBefore_perm (p : α → Bool) (a : α) (l : List α) :
    (insertBefore p a l).Perm (a :: l) := by
  induction l with
  | nil => exact .refl _
  | cons b l ih =>
    rw [insertBefore]
    split
    · exact .refl _
    · exact (ih.cons b).trans (.swap a b l)

@[simp] theorem mem_insertBefore {b : α} : b ∈ insertBefore p a l ↔ b = a ∨ b ∈ l := by
  rw [(insertBefore_perm p a l).mem_iff, mem_cons]

/-- **An ordered list stays ordered** when the new element is related to each element on the side of
it that the property says. -/
theorem pairwise_insertBefore {r : α → α → Prop} (htrans : ∀ x y z, r x y → r y z → r x z)
    (hl : l.Pairwise r) (ha : ∀ b ∈ l, p b = true → r a b)
    (hbe : ∀ b ∈ l, p b = false → r b a) : (insertBefore p a l).Pairwise r := by
  induction l with
  | nil => exact pairwise_singleton r a
  | cons b l ih =>
    obtain ⟨hb, hl⟩ := pairwise_cons.mp hl
    rw [insertBefore]
    split
    · rename_i hp
      have hab := ha b mem_cons_self hp
      refine pairwise_cons.mpr ⟨?_, pairwise_cons.mpr ⟨hb, hl⟩⟩
      intro c hc
      rcases mem_cons.mp hc with rfl | hc
      · exact hab
      · exact htrans a b c hab (hb c hc)
    · rename_i hp
      have hba := hbe b mem_cons_self (by simpa using hp)
      refine pairwise_cons.mpr ⟨?_, ih hl ?_ ?_⟩
      · intro c hc
        rcases mem_insertBefore.mp hc with rfl | hc
        · exact hba
        · exact hb c hc
      · exact fun c hc => ha c (mem_cons_of_mem b hc)
      · exact fun c hc => hbe c (mem_cons_of_mem b hc)

end Edk2
