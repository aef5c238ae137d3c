import Mathlib.Data.List.Nodup

/-!
# Listings by successor

A listing asks for the element after a given one until it is told that there is none. The answers
come from a list that may repeat an element, and an element stands for its first place in that list.
Such a listing gives every element once and ends exactly when the list has no repetition and the
first answer is the head of the list.

## Main results

* `Listing.complete_iff`: when a listing is complete, without repetition, and ends
-/

namespace Edk2

open List

variable {α : Type*}

/-- The answers `xs` after `x`: each is what follows the one before, and the last is told to be the
last. -/
inductive Listing (more : α → α → Prop) (done : α → Prop) : α → List α → Prop
  | done {x : α} : done x → Listing more done x []
  | more {x y : α} {ys : List α} :
      more x y → Listing more done y ys → Listing more done x (y :: ys)

namespace Listing

variable [BEq α] [LawfulBEq α] {more : α → α → Prop} {done : α → Prop} {l : List α} {start : α}
  {first : ℕ}

theorem idxOf_le {i : ℕ} (hi : i < l.length) : l.idxOf l[i] ≤ i := by
  have ht : l[i] ∈ l.take (i + 1) := by
    rw [take_succ_eq_append_getElem hi]
    exact mem_append_right _ (mem_singleton_self _)
  exact Nat.lt_succ_iff.mp ((mem_take_iff_idxOf_lt (getElem_mem hi)).mp ht)

theorem idxOf_split {pre post : List α} {x : α} (hl : (pre ++ x :: post).Nodup) :
    (pre ++ x :: post).idxOf x = pre.length := by
  rw [idxOf_append_of_notMem, idxOf_cons_self, Nat.add_zero]
  intro hx
  exact (nodup_append.mp hl).2.2 x hx x mem_cons_self rfl

section

variable (hmore : ∀ x ∈ l, ∀ y, more x y ↔ l[l.idxOf x + 1]? = some y)
  (hdone : ∀ x ∈ l, done x ↔ l[l.idxOf x + 1]? = none)

include hmore hdone

theorem of_nodup (hl : l.Nodup) {pre post : List α} {x : α} (hs : l = pre ++ x :: post) :
    Listing more done x post := by
  induction post generalizing pre x with
  | nil =>
    refine .done ((hdone x (by simp [hs])).mpr ?_)
    have hid : l.idxOf x = pre.length := hs ▸ idxOf_split (hs ▸ hl)
    rw [hid, hs]
    simp
  | cons y post ih =>
    have hid : l.idxOf x = pre.length := hs ▸ idxOf_split (hs ▸ hl)
    refine .more ((hmore x (by simp [hs]) y).mpr ?_)
      (ih (by rw [hs, append_cons, append_assoc]))
    rw [hid, hs]
    simp

theorem idxOf_eq {x : α} {xs : List α} (h : Listing more done x xs) {i : ℕ}
    (hi : l[i]? = some x) :
    xs = l.drop (i + 1) ∧ ∀ j y, i ≤ j → l[j]? = some y → l.idxOf y = j := by
  induction h generalizing i with
  | @done x hx =>
    obtain ⟨hlt, rfl⟩ := List.getElem?_eq_some_iff.mp hi
    have hmem : l[i] ∈ l := getElem_mem hlt
    have he := List.getElem?_eq_none_iff.mp ((hdone _ hmem).mp hx)
    have hle : l.idxOf l[i] ≤ i := idxOf_le hlt
    refine ⟨(drop_eq_nil_iff.mpr (by omega)).symm, fun j y hj hy => ?_⟩
    obtain ⟨hjl, rfl⟩ := List.getElem?_eq_some_iff.mp hy
    have hji : j = i := by omega
    subst hji
    omega
  | @more x y ys hxy _ ih =>
    obtain ⟨hlt, rfl⟩ := List.getElem?_eq_some_iff.mp hi
    have hmem : l[i] ∈ l := getElem_mem hlt
    have hle : l.idxOf l[i] ≤ i := idxOf_le hlt
    have hnext := (hmore _ hmem y).mp hxy
    obtain ⟨hys, hl⟩ := ih hnext
    -- Had the element stood for an earlier place, the listing would have come by it again.
    have hid : l.idxOf l[i] = i := by
      by_contra hne
      exact hne (hl i l[i] (by omega) hi)
    rw [hid] at hnext hys hl
    obtain ⟨hlt', rfl⟩ := List.getElem?_eq_some_iff.mp hnext
    refine ⟨by rw [hys, drop_eq_getElem_cons hlt'], fun j z hj hz => ?_⟩
    rcases Nat.eq_or_lt_of_le hj with rfl | hj
    · obtain ⟨_, rfl⟩ := List.getElem?_eq_some_iff.mp hz
      exact hid
    · exact hl j z hj hz

end

/-- **When a listing is complete.** It gives the elements of the list, each once, and ends exactly
when the list has no repetition and the first answer is its head. -/
theorem complete_iff
    (hmore : ∀ x ∈ l, ∀ y, more x y ↔ l[l.idxOf x + 1]? = some y)
    (hdone : ∀ x ∈ l, done x ↔ l[l.idxOf x + 1]? = none)
    (hs : ∀ y, more start y ↔ l[first]? = some y) (hempty : done start ↔ l[first]? = none)
    (hf : first < l.length ∨ first = 0) :
    (∃ xs, Listing more done start xs ∧ xs.Nodup ∧ ∀ x, x ∈ xs ↔ x ∈ l) ↔
      l.Nodup ∧ first = 0 := by
  constructor
  · rintro ⟨xs, hxs, -, hmem⟩
    cases hxs with
    | done hd' =>
      have hnil : l = [] := by
        rw [eq_nil_iff_forall_not_mem]
        exact fun x hx => not_mem_nil ((hmem x).mpr hx)
      subst hnil
      exact ⟨nodup_nil, hf.resolve_left (Nat.not_lt_zero _)⟩
    | @more _ y ys hy hys =>
      have hg := (hs y).mp hy
      obtain ⟨hr, hid⟩ := hys.idxOf_eq hmore hdone hg
      obtain ⟨hlt, rfl⟩ := List.getElem?_eq_some_iff.mp hg
      have hd : l[first] :: ys = l.drop first := by
        rw [hr, drop_eq_getElem_cons hlt]
      have hz : first = 0 := by
        have hh : l[0] ∈ l.drop first :=
          hd ▸ (hmem _).mpr (getElem_mem (Nat.zero_lt_of_lt hlt))
        obtain ⟨j, hj⟩ := mem_iff_getElem?.mp hh
        rw [List.getElem?_drop] at hj
        have hj' := hid (first + j) _ (Nat.le_add_right _ _) hj
        have hle : l.idxOf l[0] ≤ 0 := idxOf_le (Nat.zero_lt_of_lt hlt)
        omega
      subst hz
      refine ⟨nodup_iff_injective_getElem.mpr fun i j hij => ?_, rfl⟩
      have hi := hid i _ (Nat.zero_le _) (List.getElem?_eq_getElem i.2)
      have hj := hid j _ (Nat.zero_le _) (List.getElem?_eq_getElem j.2)
      exact Fin.ext (hi.symm.trans ((congrArg l.idxOf hij).trans hj))
  · rintro ⟨hl, rfl⟩
    cases l with
    | nil => exact ⟨[], .done (hempty.mpr rfl), nodup_nil, fun _ => Iff.rfl⟩
    | cons x xs =>
      have hr : Listing more done x xs := of_nodup hmore hdone hl (nil_append _).symm
      exact ⟨x :: xs, .more ((hs x).mpr rfl) hr, hl, fun _ => Iff.rfl⟩

end Listing

end Edk2
