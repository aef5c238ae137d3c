import Mathlib.Data.List.TakeWhile
import Mathlib.Algebra.Order.Group.Int
import Mathlib.Algebra.Ring.Int.Defs
import Mathlib.Algebra.BigOperators.Group.List.Basic

/-!
# Intervals that tile a range

Elements of a list stand for intervals `[lo f, hi f)`, in order and disjoint. Their widths add up to
no more than the range they lie in, and if they add up to the range, each interval begins where the
one before it ends: what the intervals carry, one after the other, is what the range carries.

## Main results

* `sum_width_le`: disjoint intervals are no wider than the range
* `chained_of_le_sum`: disjoint intervals as wide as the range tile it
* `Chained.getElem?_flatMap`: what is carried at a position of the range
* `hi_le_of_getLast?`: the last interval of an ordered list
-/

namespace Edk2

open List

variable {α β : Type*} {lo hi : α → ℤ} {l : List α} {a b : ℤ}

/-- The intervals of `l` follow each other from `a` to `b`. -/
def Chained (lo hi : α → ℤ) : ℤ → List α → ℤ → Prop
  | a, [], b => a = b
  | a, f :: l, b => lo f = a ∧ Chained lo hi (hi f) l b

/-- The intervals of `l` are in order, disjoint, and in `[a, b)`. -/
structure Within (lo hi : α → ℤ) (a : ℤ) (l : List α) (b : ℤ) : Prop where
  disjoint : l.Pairwise fun f g => hi f ≤ lo g
  le : ∀ f ∈ l, lo f ≤ hi f
  lower : ∀ f ∈ l, a ≤ lo f
  upper : ∀ f ∈ l, hi f ≤ b

theorem Within.tail {f : α} (h : Within lo hi a (f :: l) b) : Within lo hi (hi f) l b where
  disjoint := (pairwise_cons.mp h.disjoint).2
  le g hg := h.le g (mem_cons_of_mem f hg)
  lower := (pairwise_cons.mp h.disjoint).1
  upper g hg := h.upper g (mem_cons_of_mem f hg)

/-- Disjoint intervals are no wider than the range they lie in. -/
theorem sum_width_le (hab : a ≤ b) (h : Within lo hi a l b) :
    (l.map fun f => hi f - lo f).sum ≤ b - a := by
  induction l generalizing a with
  | nil =>
    rw [map_nil, sum_nil]
    omega
  | cons f l ih =>
    have hr := ih (h.upper f mem_cons_self) h.tail
    have hl := h.lower f mem_cons_self
    rw [map_cons, sum_cons]
    omega

/-- **Disjoint intervals as wide as the range tile it.** -/
theorem chained_of_le_sum (hab : a ≤ b) (h : Within lo hi a l b)
    (hs : b - a ≤ (l.map fun f => hi f - lo f).sum) : Chained lo hi a l b := by
  induction l generalizing a with
  | nil =>
    rw [map_nil, sum_nil] at hs
    show a = b
    omega
  | cons f l ih =>
    have hfb := h.upper f mem_cons_self
    have hl := h.lower f mem_cons_self
    have hr := sum_width_le hfb h.tail
    rw [map_cons, sum_cons] at hs
    -- the rest is no wider than `b - hi f`, so that the first interval leaves no gap before it
    refine ⟨by omega, ih hfb h.tail (by omega)⟩

/-- Intervals that follow each other are in order, and as wide as the range. -/
theorem Chained.ordered (hle : ∀ f ∈ l, lo f ≤ hi f) (h : Chained lo hi a l b) :
    (∀ f ∈ l, a ≤ lo f) ∧ l.Pairwise (fun f g => hi f ≤ lo g) ∧
      (l.map fun f => hi f - lo f).sum = b - a := by
  induction l generalizing a with
  | nil =>
    have hab : a = b := h
    simp [hab]
  | cons f l ih =>
    obtain ⟨rfl, hr⟩ := h
    obtain ⟨hf, hl⟩ := forall_mem_cons.mp hle
    obtain ⟨hlo, hp, hs⟩ := ih hl hr
    refine ⟨forall_mem_cons.mpr ⟨le_refl _, fun g hg => ?_⟩, pairwise_cons.mpr ⟨hlo, hp⟩, ?_⟩
    · have := hlo g hg
      omega
    · rw [map_cons, sum_cons]
      omega

theorem Chained.hi_getLast? {last : α} (h : Chained lo hi a l b) (hlast : l.getLast? = some last) :
    hi last = b := by
  induction l generalizing a with
  | nil => cases hlast
  | cons f l ih =>
    obtain ⟨-, hr⟩ := h
    cases l with
    | nil =>
      cases hlast
      exact hr
    | cons g l =>
      exact ih hr hlast

/-- What lies before the last interval of an ordered list lies before its end. -/
theorem hi_le_of_getLast? {last : α} (hd : l.Pairwise fun f g => hi f ≤ lo g)
    (hle : ∀ f ∈ l, lo f ≤ hi f) (hlast : l.getLast? = some last) :
    ∀ f ∈ l, hi f ≤ hi last ∧ (f ≠ last → hi f ≤ lo last) := by
  obtain ⟨init, rfl⟩ := List.getLast?_eq_some_iff.mp hlast
  have hc := (pairwise_append.mp hd).2.2
  intro f hf
  rcases mem_append.mp hf with hf | hf
  · have he := hc f hf last (mem_singleton_self last)
    have hs := hle last (mem_append_right _ (mem_singleton_self last))
    exact ⟨by omega, fun _ => he⟩
  · obtain rfl := mem_singleton.mp hf
    exact ⟨Int.le_refl _, fun hne => absurd rfl hne⟩

section Carried

variable {carried : α → List β}

theorem Chained.length_flatMap (hle : ∀ f ∈ l, ((carried f).length : ℤ) = hi f - lo f)
    (h : Chained lo hi a l b) : ((l.flatMap carried).length : ℤ) = b - a := by
  induction l generalizing a with
  | nil =>
    have : a = b := h
    rw [flatMap_nil, length_nil]
    omega
  | cons f l ih =>
    obtain ⟨rfl, hr⟩ := h
    obtain ⟨hf, hl⟩ := forall_mem_cons.mp hle
    have := ih hl hr
    rw [flatMap_cons, length_append]
    omega

/-- **What is carried at a position of the range** is what the interval there carries. -/
theorem Chained.getElem?_flatMap (hle : ∀ f ∈ l, ((carried f).length : ℤ) = hi f - lo f)
    (h : Chained lo hi a l b) {i : ℤ} (hai : a ≤ i) (hib : i < b) :
    ∃ f ∈ l, lo f ≤ i ∧ i < hi f ∧
      (l.flatMap carried)[(i - a).toNat]? = (carried f)[(i - lo f).toNat]? := by
  induction l generalizing a with
  | nil =>
    have : a = b := h
    omega
  | cons f l ih =>
    obtain ⟨rfl, hr⟩ := h
    obtain ⟨hf, hl⟩ := forall_mem_cons.mp hle
    rw [flatMap_cons]
    by_cases hh : i < hi f
    · refine ⟨f, mem_cons_self, hai, hh, ?_⟩
      rw [List.getElem?_append_left (by omega)]
    · obtain ⟨g, hg, hlo, hhi, hge⟩ := ih hl hr (by omega)
      refine ⟨g, mem_cons_of_mem f hg, hlo, hhi, ?_⟩
      rw [List.getElem?_append_right (by omega), ← hge]
      congr 1
      omega

end Carried

/-- An interval between `before` and `rest` takes the place of those there. -/
theorem pairwise_replace {before gone rest : List α} {f : α}
    (hd : (before ++ (gone ++ rest)).Pairwise fun f g => hi f ≤ lo g)
    (hb : ∀ g ∈ before, hi g ≤ lo f) (hr : ∀ g ∈ rest, hi f ≤ lo g) :
    (before ++ f :: rest).Pairwise fun f g => hi f ≤ lo g := by
  obtain ⟨hp, hm, hc⟩ := pairwise_append.mp hd
  refine pairwise_append.mpr ⟨hp, pairwise_cons.mpr ⟨hr, (pairwise_append.mp hm).2.1⟩, ?_⟩
  intro g hg g' hg'
  rcases mem_cons.mp hg' with rfl | hg'
  · exact hb g hg
  · exact hc g hg g' (mem_append_right _ hg')

theorem exists_mem_replace {before gone rest : List α} {f : α} {q : α → Prop}
    (hg : ∀ g ∈ gone, ¬ q g) (hf : ¬ q f) :
    (∃ g ∈ before ++ (gone ++ rest), q g) ↔ ∃ g ∈ before ++ f :: rest, q g := by
  simp only [mem_append, mem_cons, or_and_right, exists_or, exists_eq_left, hf, false_or]
  have hnone : ¬ ∃ g, g ∈ gone ∧ q g := by
    rintro ⟨g, hm, hq⟩
    exact hg g hm hq
  simp only [hnone, false_or]

theorem takeWhile_dropWhile_lo {p : α → Bool} {x : ℤ}
    (hd : l.Pairwise fun f g => hi f ≤ lo g) (hle : ∀ f ∈ l, lo f ≤ hi f)
    (hp : ∀ f, p f = true ↔ lo f ≤ x) :
    l = l.takeWhile p ++ l.dropWhile p ∧ (∀ f ∈ l.takeWhile p, f ∈ l ∧ lo f ≤ x) ∧
      ∀ f ∈ l.dropWhile p, f ∈ l ∧ x < lo f := by
  refine ⟨takeWhile_append_dropWhile.symm, fun f hf => ⟨(takeWhile_sublist p).subset hf,
    (hp f).mp (mem_takeWhile_imp hf)⟩, fun f hf => ⟨(dropWhile_sublist p).subset hf, ?_⟩⟩
  revert f
  induction l with
  | nil => exact fun f hf => absurd hf not_mem_nil
  | cons f l ih =>
    obtain ⟨hf, hl⟩ := pairwise_cons.mp hd
    obtain ⟨hlef, hlel⟩ := forall_mem_cons.mp hle
    rw [dropWhile_cons]
    split
    · exact ih hl hlel
    · rename_i hb
      rw [hp] at hb
      refine forall_mem_cons.mpr ⟨by omega, fun g hg => ?_⟩
      have hfg := hf g hg
      omega

end Edk2
