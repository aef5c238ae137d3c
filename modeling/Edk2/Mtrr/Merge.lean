import Edk2.Base
import Mathlib.Data.List.Perm.Basic

/-!
# Merging variable MTRRs

`MtrrLibMergeVariableMtrr` of `MtrrLib.c` gives an array of MTRRs new settings with as few changes
as it can. A setting of length zero is an empty slot. The first pass empties the slots whose setting
is not wanted, and crosses the wanted ones that are there off the source; the second pass puts what
is left of the source into empty slots. A slot is its setting and its flag in `Modified`.

## Main results

* `removePass_perm`: what the slots keep and what is left of the source, together, is the source
* `addPass_spec`: the second pass finds a slot for each setting, if there are enough
* `mergeVariableMtrr_spec`: both passes
-/

namespace Edk2.Mtrr

open List Option

/-- `MTRR_MEMORY_CACHE_TYPE`. -/
inductive CacheType
  | uncacheable
  | writeCombining
  | writeThrough
  | writeProtected
  | writeBack
  | invalid
  deriving DecidableEq

/-- `MTRR_MEMORY_RANGE`. -/
structure MemoryRange where
  baseAddress : ℕ
  length : ℕ
  type : CacheType
  deriving DecidableEq

abbrev Slot := MemoryRange × Bool

/-- The search for a setting in the source: the source with it crossed off, if it is there. -/
def crossOff (d : MemoryRange) : List MemoryRange → Option (List MemoryRange)
  | [] => none
  | s :: src => if d = s then some ({ s with length := 0 } :: src) else (crossOff d src).map (s :: ·)

/-- The first pass at a slot. -/
def removeStep (d : MemoryRange) (src : List MemoryRange) : Slot × List MemoryRange :=
  if d.length = 0 then ((d, false), src)
  else
    match crossOff d src with
    | none => (({ d with length := 0 }, true), src)
    | some src' => ((d, false), src')

/-- The first pass: the slots, and what is left of the source. -/
def removePass : List MemoryRange → List MemoryRange → List Slot × List MemoryRange
  | [], src => ([], src)
  | d :: dst, src =>
    let r := removePass dst (removeStep d src).2
    ((removeStep d src).1 :: r.1, r.2)

def settings (l : List MemoryRange) : List MemoryRange := l.filter (·.length ≠ 0)

/-- The second pass: each setting that is left goes to the next empty slot from `DstIndex` on. The
result is `none` if there is no such slot, which is the failed `ASSERT`. -/
def addPass : List MemoryRange → List Slot → Option (List Slot)
  | [], dst => some dst
  | _ :: _, [] => none
  | s :: src, a :: dst =>
    if a.1.length = 0 then (addPass src dst).map ((s, true) :: ·)
    else (addPass (s :: src) dst).map (a :: ·)

def mergeVariableMtrr (dst src : List MemoryRange) : Option (List Slot) :=
  let r := removePass dst src
  addPass (settings r.2) r.1

def held (l : List Slot) : List MemoryRange := settings (l.map Prod.fst)

variable {d : MemoryRange} {src src' dst : List MemoryRange} {slots : List Slot}

theorem settings_cons_of_ne (h : d.length ≠ 0) : settings (d :: src) = d :: settings src :=
  filter_cons_of_pos (by simpa using h)

theorem settings_cons_of_eq (h : d.length = 0) : settings (d :: src) = settings src :=
  filter_cons_of_neg (by simpa using h)

/-! ## The first pass -/

theorem crossOff_perm (hd : d.length ≠ 0) (h : crossOff d src = some src') :
    d :: settings src' ~ settings src := by
  induction src generalizing src' with
  | nil => cases h
  | cons s src ih =>
    rw [crossOff] at h
    split_ifs at h with heq
    · obtain rfl := some.inj h
      rw [← heq, settings_cons_of_ne hd, settings_cons_of_eq rfl]
    · obtain ⟨rest, hr, rfl⟩ := map_eq_some_iff.mp h
      by_cases hs : s.length = 0
      · rw [settings_cons_of_eq hs, settings_cons_of_eq hs]
        exact ih hr
      · rw [settings_cons_of_ne hs, settings_cons_of_ne hs]
        exact (Perm.swap s d _).trans ((ih hr).cons s)

theorem crossOff_ne_none (h : d ∈ src) : crossOff d src ≠ none := by
  induction src with
  | nil => cases h
  | cons s src ih =>
    rw [crossOff]
    split_ifs with heq
    · simp
    · rw [ne_eq, map_eq_none_iff]
      exact ih (mem_of_ne_of_mem heq h)

theorem removeStep_spec (d : MemoryRange) (src : List MemoryRange) :
    settings [(removeStep d src).1.1] ++ settings (removeStep d src).2 ~ settings src ∧
      ((removeStep d src).1 = (d, false) ∨
        d ∉ src ∧ (removeStep d src).1 = ({ d with length := 0 }, true)) := by
  unfold removeStep
  split_ifs with hz
  · exact ⟨by rw [settings_cons_of_eq hz]; rfl, .inl rfl⟩
  · cases hc : crossOff d src with
    | none => exact ⟨.refl _, .inr ⟨fun hmem => crossOff_ne_none hmem hc, rfl⟩⟩
    | some src' =>
      refine ⟨?_, .inl rfl⟩
      rw [settings_cons_of_ne hz]
      exact crossOff_perm hz hc

theorem held_cons (a : Slot) (slots : List Slot) :
    held (a :: slots) = settings [a.1] ++ held slots := by
  rw [held, map_cons, held, settings, settings, settings, ← filter_append, singleton_append]

/-- What the slots keep and what is left of the source, together, is the source. -/
theorem removePass_perm (dst src : List MemoryRange) :
    held (removePass dst src).1 ++ settings (removePass dst src).2 ~ settings src := by
  induction dst generalizing src with
  | nil => exact .refl _
  | cons d dst ih =>
    rw [removePass, held_cons, append_assoc]
    exact ((ih _).append_left _).trans (removeStep_spec d src).1

theorem removePass_slots (dst src : List MemoryRange) :
    Forall₂ (fun d a => a = (d, false) ∨ a.2 = true) dst (removePass dst src).1 := by
  induction dst generalizing src with
  | nil => exact .nil
  | cons d dst ih =>
    refine .cons ?_ (ih _)
    exact (removeStep_spec d src).2.imp_right fun h => by rw [h.2]

theorem removePass_keeps {i : ℕ} (hd : dst[i]? = some d)
    (hc : (dst.take i).count d < (settings src).count d) :
    (removePass dst src).1[i]? = some (d, false) := by
  induction dst generalizing src i with
  | nil => cases hd
  | cons d' dst ih =>
    obtain ⟨hp, hs⟩ := removeStep_spec d' src
    rw [← hp.count_eq, count_append] at hc
    cases i with
    | zero =>
      obtain rfl := some.inj hd
      rw [← count_append, hp.count_eq] at hc
      have hmem := mem_of_mem_filter (count_pos_iff.mp (Nat.zero_lt_of_lt hc))
      exact congrArg some (hs.resolve_right fun h => h.1 hmem)
    | succ i =>
      refine ih hd ?_
      have hle : (settings [(removeStep d' src).1.1]).count d ≤ [d'].count d := by
        rcases hs with h | ⟨-, h⟩
        · rw [h]
          exact filter_sublist.count_le d
        · rw [h, settings_cons_of_eq rfl]
          exact Nat.zero_le _
      rw [take_succ_cons, ← singleton_append, count_append] at hc
      omega

/-! ## The second pass -/

/-- **The second pass** changes empty slots only, and there is one for each setting if there are
enough of them. -/
theorem addPass_spec (hsr : ∀ s ∈ src, s.length ≠ 0)
    (hr : src.length + (held slots).length ≤ slots.length) :
    ∃ slots', addPass src slots = some slots' ∧ held slots' ~ held slots ++ src ∧
      Forall₂ (fun a b => b = a ∨ a.1.length = 0 ∧ b.2 = true) slots slots' := by
  induction slots generalizing src with
  | nil =>
    obtain rfl : src = [] := length_eq_zero_iff.mp (Nat.eq_zero_of_le_zero (Nat.le_of_add_right_le hr))
    exact ⟨[], rfl, .refl _, .nil⟩
  | cons a slots ih =>
    cases src with
    | nil =>
      refine ⟨a :: slots, rfl, ?_, forall₂_same.mpr fun _ _ => .inl rfl⟩
      rw [append_nil]
    | cons s src =>
      rw [addPass]
      rw [held_cons, length_append] at hr
      split_ifs with hempty
      · rw [settings_cons_of_eq hempty] at hr
        obtain ⟨slots', ha, hp, hsl⟩ :=
          ih (fun s hs => hsr s (mem_cons_of_mem _ hs)) (by simp at hr; omega)
        refine ⟨(s, true) :: slots', by rw [ha]; rfl, ?_, .cons (.inr ⟨hempty, rfl⟩) hsl⟩
        rw [held_cons, held_cons, settings_cons_of_eq hempty,
          settings_cons_of_ne (hsr s mem_cons_self)]
        exact (hp.cons s).trans perm_middle.symm
      · rw [settings_cons_of_ne hempty] at hr
        obtain ⟨slots', ha, hp, hsl⟩ := ih hsr (by simp at hr ⊢; omega)
        refine ⟨a :: slots', by rw [ha]; rfl, ?_, .cons (.inl rfl) hsl⟩
        rw [held_cons, held_cons, append_assoc]
        exact hp.append_left _

theorem exists_getElem?_of_forall₂ {α β : Type*} {R : α → β → Prop} {l : List α} {m : List β}
    {i : ℕ} {a : α} (h : Forall₂ R l m) (ha : l[i]? = some a) : ∃ b, m[i]? = some b ∧ R a b := by
  induction h generalizing i with
  | nil => cases ha
  | cons hab _ ih =>
    cases i with
    | zero =>
      obtain rfl := some.inj ha
      exact ⟨_, rfl, hab⟩
    | succ i => exact ih ha

/-- **The slots end with the settings of the source.** An empty slot is found for each setting that
is put in; a slot whose setting changes is marked in `Modified`; and a slot whose setting the source
has, more often than the slots before it, keeps it and is not marked. -/
theorem mergeVariableMtrr_spec (hsrc : ∀ s ∈ src, s.length ≠ 0) (hcount : src.length ≤ dst.length) :
    ∃ slots, mergeVariableMtrr dst src = some slots ∧ slots.length = dst.length ∧
      held slots ~ src ∧
      (∀ (i : ℕ) (d : MemoryRange) (a : Slot), dst[i]? = some d → slots[i]? = some a →
        a.1 ≠ d → a.2 = true) ∧
      ∀ (i : ℕ) (d : MemoryRange), dst[i]? = some d → d.length ≠ 0 →
        (dst.take i).count d < src.count d → slots[i]? = some (d, false) := by
  have hal : settings src = src := filter_eq_self.mpr fun s hs => by simpa using hsrc s hs
  have hp := removePass_perm dst src
  have hsl := removePass_slots dst src
  have hl := hp.length_eq
  rw [hal] at hp hl
  rw [length_append] at hl
  obtain ⟨slots, hadd, hh, hc⟩ := addPass_spec
    (fun s hs => by simpa using (mem_filter.mp hs).2 : ∀ s ∈ settings (removePass dst src).2, _)
    (show _ + (held (removePass dst src).1).length ≤ _ by rw [← hsl.length_eq]; omega)
  refine ⟨slots, hadd, ?_, hh.trans hp, ?_, ?_⟩
  · rw [← hc.length_eq, ← hsl.length_eq]
  · intro i d a hd ha hne
    obtain ⟨b, hb, hbd⟩ := exists_getElem?_of_forall₂ hsl hd
    obtain ⟨a', ha', hab⟩ := exists_getElem?_of_forall₂ hc hb
    obtain rfl := some.inj (ha.symm.trans ha')
    rcases hab with rfl | ⟨-, h⟩
    · exact hbd.resolve_left fun h => hne (by rw [h])
    · exact h
  · intro i d hd hz hlt
    rw [← hal] at hlt
    obtain ⟨a, ha, had⟩ := exists_getElem?_of_forall₂ hc (removePass_keeps hd hlt)
    rw [ha, had.resolve_right fun h => hz h.1]

/-- The slot of the setting that stays is not marked; the other one is written. -/
theorem mergeVariableMtrr_spec_two :
    (∀ s ∈ [(⟨0x1000, 0x1000, .uncacheable⟩ : MemoryRange), ⟨0, 0x1000, .writeBack⟩],
      s.length ≠ 0) ∧
      ∃ slots, mergeVariableMtrr [⟨0, 0x1000, .writeBack⟩, ⟨0x2000, 0x1000, .writeThrough⟩]
        [⟨0x1000, 0x1000, .uncacheable⟩, ⟨0, 0x1000, .writeBack⟩] = some slots ∧
        slots[0]? = some (⟨0, 0x1000, .writeBack⟩, false) := by
  refine ⟨by decide, ?_⟩
  obtain ⟨slots, hm, -, -, -, hk⟩ := @mergeVariableMtrr_spec
    [⟨0x1000, 0x1000, .uncacheable⟩, ⟨0, 0x1000, .writeBack⟩]
    [⟨0, 0x1000, .writeBack⟩, ⟨0x2000, 0x1000, .writeThrough⟩] (by decide) (by decide)
  exact ⟨slots, hm, hk 0 _ rfl (by decide) (by decide)⟩

end Edk2.Mtrr
