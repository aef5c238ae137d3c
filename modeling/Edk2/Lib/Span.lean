import Mathlib.Data.Multiset.AddSub
import Mathlib.Data.Multiset.Basic
import Mathlib.Data.List.Perm.Basic

/-!
# Labelled spans of addresses

A memory map of any kind is a list of half-open address spans, each with a label. What the map
says is the label of every address, so two lists that differ by a split, by a merge of
neighbours or by their order say the same thing. The label calculus turns each edit of such a
list into an equation of labels.

## Main results

* `Span.labels_split`: a span says what its two halves say
* `tiles_append`, `Tiles.exists_split`: tilings split, and cover every address
-/

namespace Edk2

open List

variable {α β γ : Type*}

/-- A half-open range `[lo, hi)` of addresses with a label. -/
structure Span (β : Type*) where
  lo : ℕ
  hi : ℕ
  label : β

variable {a lo hi : ℕ}

namespace Span

def Contains (s : Span β) (a : ℕ) : Prop := s.lo ≤ a ∧ a < s.hi

/-- The label of the span at an address, if the address is in it. -/
def labels (s : Span β) (a : ℕ) : List β := if s.lo ≤ a ∧ a < s.hi then [s.label] else []

theorem labels_of_contains {s : Span β} (h : s.Contains a) : s.labels a = [s.label] := if_pos h

theorem labels_of_not_contains {s : Span β} (h : ¬ s.Contains a) : s.labels a = [] := if_neg h

theorem mem_labels {s : Span β} {b : β} : b ∈ s.labels a ↔ s.Contains a ∧ b = s.label := by
  unfold Span.labels Span.Contains
  split <;> simp_all

theorem labels_split {mid : ℕ} (h₁ : lo ≤ mid) (h₂ : mid ≤ hi) (b : β) (a : ℕ) :
    (Span.mk lo mid b).labels a ++ (Span.mk mid hi b).labels a = (Span.mk lo hi b).labels a := by
  simp only [Span.labels]
  rcases Nat.lt_or_ge a mid with h | h
  · rw [if_neg (show ¬ (mid ≤ a ∧ a < hi) by omega), append_nil]
    exact if_congr (by omega) rfl rfl
  · rw [if_neg (by omega)]
    exact if_congr (by omega) rfl rfl

end Span

/-- The labels of the spans of `l` that contain `a`, in list order. -/
def labelsAt (l : List (Span β)) (a : ℕ) : List β := l.flatMap (·.labels a)

@[simp] theorem labelsAt_append (l m : List (Span β)) (a : ℕ) :
    labelsAt (l ++ m) a = labelsAt l a ++ labelsAt m a := flatMap_append

theorem mem_labelsAt {l : List (Span β)} {b : β} :
    b ∈ labelsAt l a ↔ ∃ s ∈ l, s.Contains a ∧ b = s.label := by
  simp [labelsAt, Span.mem_labels]

theorem labelsAt_eq_nil {l : List (Span β)} (h : ∀ s ∈ l, ¬ s.Contains a) :
    labelsAt l a = [] :=
  flatMap_eq_nil_iff.mpr fun s hs => Span.labels_of_not_contains (h s hs)

/-! ## Tilings -/

section Tiles

variable (start stop : α → ℕ)

/-- The entries of `l` are non-empty and follow each other without gap from `lo` up to `hi`. -/
def Tiles : ℕ → List α → ℕ → Prop
  | lo, [], hi => lo = hi
  | lo, e :: l, hi => start e = lo ∧ lo < stop e ∧ Tiles (stop e) l hi

instance decidableTiles : ∀ (lo : ℕ) (l : List α) (hi : ℕ), Decidable (Tiles start stop lo l hi)
  | lo, [], hi => inferInstanceAs (Decidable (lo = hi))
  | lo, e :: l, hi =>
    haveI := decidableTiles (stop e) l hi
    inferInstanceAs (Decidable (start e = lo ∧ lo < stop e ∧ Tiles start stop (stop e) l hi))

variable {start stop}

@[simp] theorem tiles_nil : Tiles start stop lo [] hi ↔ lo = hi := Iff.rfl

@[simp] theorem tiles_cons {e : α} {l : List α} :
    Tiles start stop lo (e :: l) hi ↔
      start e = lo ∧ lo < stop e ∧ Tiles start stop (stop e) l hi := Iff.rfl

theorem Tiles.le {l : List α} : ∀ {lo hi : ℕ}, Tiles start stop lo l hi → lo ≤ hi := by
  induction l with
  | nil => exact fun h => Nat.le_of_eq h
  | cons e l ih => exact fun h => (h.2.1.trans_le (ih h.2.2)).le

theorem tiles_append {l m : List α} : ∀ {lo hi : ℕ},
    Tiles start stop lo (l ++ m) hi ↔
      ∃ mid, Tiles start stop lo l mid ∧ Tiles start stop mid m hi := by
  induction l with
  | nil =>
    intro lo hi
    exact ⟨fun h => ⟨lo, rfl, h⟩, fun ⟨_, h₁, h₂⟩ => h₁ ▸ h₂⟩
  | cons e l ih =>
    intro lo hi
    simp only [cons_append, tiles_cons, ih]
    constructor
    · rintro ⟨h₁, h₂, mid, h₃, h₄⟩
      exact ⟨mid, ⟨h₁, h₂, h₃⟩, h₄⟩
    · rintro ⟨mid, ⟨h₁, h₂, h₃⟩, h₄⟩
      exact ⟨h₁, h₂, mid, h₃, h₄⟩

theorem Tiles.bounds {l : List α} : ∀ {lo hi : ℕ}, Tiles start stop lo l hi →
    ∀ e ∈ l, lo ≤ start e ∧ start e < stop e ∧ stop e ≤ hi := by
  induction l with
  | nil => intro _ _ _ e he; cases he
  | cons d l ih =>
    intro lo hi h e he
    obtain ⟨rfl, hlt, ht⟩ := h
    rcases mem_cons.mp he with rfl | he
    · exact ⟨le_rfl, hlt, ht.le⟩
    · obtain ⟨h₁, h₂, h₃⟩ := ih ht e he
      exact ⟨by omega, h₂, h₃⟩

theorem Tiles.pairwise {l : List α} : ∀ {lo hi : ℕ}, Tiles start stop lo l hi →
    l.Pairwise fun x y => stop x ≤ start y := by
  induction l with
  | nil => exact fun _ => List.Pairwise.nil
  | cons e l ih =>
    intro lo hi h
    exact List.Pairwise.cons (fun y hy => (h.2.2.bounds y hy).1) (ih h.2.2)

variable {i j : ℕ}

theorem Tiles.stop_le_start {l : List α} {x y : α} (h : Tiles start stop lo l hi)
    (hij : i < j) (hx : l[i]? = some x) (hy : l[j]? = some y) : stop x ≤ start y := by
  obtain ⟨hi', rfl⟩ := List.getElem?_eq_some_iff.mp hx
  obtain ⟨hj', rfl⟩ := List.getElem?_eq_some_iff.mp hy
  exact pairwise_iff_getElem.mp h.pairwise i j hi' hj' hij

theorem Tiles.index_le {l : List α} {x y : α} (h : Tiles start stop lo l hi)
    (hx : l[i]? = some x) (hy : l[j]? = some y) (hxy : start x < stop y) : i ≤ j :=
  Nat.not_lt.mp fun hji => absurd (h.stop_le_start hji hy hx) (Nat.not_le.mpr hxy)

/-- A tiling has an entry at each of its addresses, and the list splits there. -/
theorem Tiles.exists_split {l : List α} : ∀ {lo hi a : ℕ}, Tiles start stop lo l hi → lo ≤ a →
    a < hi → ∃ pre e post, l = pre ++ e :: post ∧ start e ≤ a ∧ a < stop e := by
  induction l with
  | nil =>
    intro lo hi a h h₁ h₂
    have : lo = hi := h
    omega
  | cons e l ih =>
    intro lo hi a h h₁ h₂
    obtain ⟨rfl, hlt, ht⟩ := h
    by_cases ha : a < stop e
    · exact ⟨[], e, l, rfl, h₁, ha⟩
    · obtain ⟨pre, d, post, rfl, hd⟩ := ih ht (by omega) h₂
      exact ⟨e :: pre, d, post, rfl, hd⟩

end Tiles

end Edk2
