import Mathlib.Data.List.Basic
import Mathlib.Tactic.ByContra
import Mathlib.Tactic.Push
import Mathlib.Tactic.SplitIfs
import Edk2.Var.Store

/-!
# What a search finds

`FindVariableEx` walks a store once. It returns the first added entry of the variable, with the last
transition entry before it, and where there is no added entry the last transition entry. `Found`
states this about the list of entries, and every result on searching is read off it.

## Main results

* `found_findLoop`: the search of one store
* `findVariable_cases`: the search of all stores
* `findVariableEx_isSome_iff`: when a search of one store finds a variable
-/

namespace Edk2.Var

open List VarRecord

variable {sought : VarRecord → Bool} {pre post l : List VarRecord} {r : VarRecord}

/-! ## States of an entry -/

theorem VarRecord.not_isInTransition_of_isAdded (h : r.isAdded = true) :
    r.isInTransition = false := by
  have hs : r.state = varAdded := by simpa [isAdded] using h
  simp [isInTransition, hs, varAdded, varInDeletedTransition]

theorem VarRecord.not_isAdded_of_isInTransition (h : r.isInTransition = true) :
    r.isAdded = false := by
  by_contra ha
  have hn := not_isInTransition_of_isAdded (by simpa using ha)
  rw [h] at hn
  cases hn

theorem VarRecord.isLive_iff : r.isLive = true ↔ r.isAdded = true ∨ r.isInTransition = true := by
  simp [isLive]

/-! ## The search of one store -/

/-- The position of the last entry with a property, as the loop remembers it. -/
inductive LastIn (p : VarRecord → Prop) : List VarRecord → Option ℕ → Prop
  | absent {l : List VarRecord} : (∀ x ∈ l, ¬ p x) → LastIn p l none
  | present {pre post : List VarRecord} {r : VarRecord} :
      p r → (∀ x ∈ post, ¬ p x) → LastIn p (pre ++ r :: post) (some pre.length)

/-- An entry in transition of the variable searched for. -/
def SoughtInTransition (sought : VarRecord → Bool) (x : VarRecord) : Prop :=
  x.isInTransition = true ∧ sought x = true

/-- An added entry of the variable searched for. -/
def SoughtAdded (sought : VarRecord → Bool) (x : VarRecord) : Prop :=
  x.isAdded = true ∧ sought x = true

/-- What a search of a store returns: the entry found and the twin in transition. -/
inductive Found (sought : VarRecord → Bool) (l : List VarRecord) : Option ℕ × Option ℕ → Prop
  | added {pre post : List VarRecord} {r : VarRecord} {d : Option ℕ} :
      l = pre ++ r :: post → SoughtAdded sought r → (∀ x ∈ pre, ¬ SoughtAdded sought x) →
      LastIn (SoughtInTransition sought) pre d → Found sought l (some pre.length, d)
  | transition {pre post : List VarRecord} {r : VarRecord} :
      l = pre ++ r :: post → SoughtInTransition sought r → (∀ x ∈ l, ¬ SoughtAdded sought x) →
      (∀ x ∈ post, ¬ SoughtInTransition sought x) → Found sought l (some pre.length, none)
  | absent : (∀ x ∈ l, ¬ SoughtAdded sought x) → (∀ x ∈ l, ¬ SoughtInTransition sought x) →
      Found sought l (none, none)

theorem LastIn.concat_of_not {p : VarRecord → Prop} {d : Option ℕ} (h : LastIn p pre d)
    (hr : ¬ p r) : LastIn p (pre ++ [r]) d := by
  cases h with
  | absent ha =>
    refine .absent fun x hx => ?_
    rcases mem_append.mp hx with hx | hx
    · exact ha x hx
    · rwa [mem_singleton.mp hx]
  | present ht ha =>
    rw [append_assoc]
    refine .present ht fun x hx => ?_
    rcases mem_append.mp hx with hx | hx
    · exact ha x hx
    · rwa [mem_singleton.mp hx]

theorem found_findLoop_from (post : List VarRecord) {d : Option ℕ}
    (hp : ∀ x ∈ pre, ¬ SoughtAdded sought x) (hd : LastIn (SoughtInTransition sought) pre d) :
    Found sought (pre ++ post) (findLoop sought pre.length d post) := by
  induction post generalizing pre d with
  | nil =>
    rw [append_nil]
    cases hd with
    | absent hal => exact .absent hp hal
    | present ht hal => exact .transition rfl ht hp hal
  | cons r post ih =>
    have hs : pre ++ r :: post = (pre ++ [r]) ++ post := by simp
    have hl : (pre ++ [r]).length = pre.length + 1 := by simp
    have hc : ¬ SoughtAdded sought r → ∀ x ∈ pre ++ [r], ¬ SoughtAdded sought x := by
      intro hr x hx
      rcases mem_append.mp hx with hx | hx
      · exact hp x hx
      · rwa [mem_singleton.mp hx]
    rw [findLoop]
    split_ifs with ha htrans
    · rw [Bool.and_eq_true] at ha
      exact .added rfl ha hp hd
    · rw [Bool.and_eq_true] at ha htrans
      rw [hs, ← hl]
      exact ih (hc ha) (.present htrans fun _ hx => absurd hx not_mem_nil)
    · rw [Bool.and_eq_true] at ha htrans
      rw [hs, ← hl]
      exact ih (hc ha) (hd.concat_of_not htrans)

/-- **What a search of one store returns.** -/
theorem found_findLoop (sought : VarRecord → Bool) (l : List VarRecord) :
    Found sought l (findLoop sought 0 none l) :=
  found_findLoop_from l (fun _ hx => absurd hx not_mem_nil)
    (.absent fun _ hx => absurd hx not_mem_nil)

namespace Found

variable {i : ℕ} {d : Option ℕ}

theorem getElem? (h : Found sought l (some i, d)) :
    ∃ r, l[i]? = some r ∧ r.isLive = true ∧ sought r = true := by
  cases h with
  | @added pre post r d hl hr _ _ =>
    exact ⟨r, by simp [hl], isLive_iff.mpr (.inl hr.1), hr.2⟩
  | @transition pre post r hl hr _ _ =>
    exact ⟨r, by simp [hl], isLive_iff.mpr (.inr hr.1), hr.2⟩

theorem none_iff {res : Option ℕ × Option ℕ} (h : Found sought l res) :
    res.1 = none ↔ ∀ x ∈ l, x.isLive = true → sought x = false := by
  have hli : ∀ {x : VarRecord}, x.isLive = true → sought x = true →
      SoughtAdded sought x ∨ SoughtInTransition sought x := fun hx hs =>
    (isLive_iff.mp hx).imp (⟨·, hs⟩) (⟨·, hs⟩)
  cases h with
  | @added pre post r d hl hr _ _ =>
    refine iff_of_false nofun fun ha => ?_
    have hf := ha r (by simp [hl]) (isLive_iff.mpr (.inl hr.1))
    rw [hr.2] at hf
    cases hf
  | @transition pre post r hl hr _ _ =>
    refine iff_of_false nofun fun ha => ?_
    have hf := ha r (by simp [hl]) (isLive_iff.mpr (.inr hr.1))
    rw [hr.2] at hf
    cases hf
  | absent had htrans =>
    refine iff_of_true rfl fun x hx hlv => ?_
    by_contra hs
    rcases hli hlv (by simpa using hs) with h | h
    · exact had x hx h
    · exact htrans x hx h

theorem not_added (h : Found sought l (some i, d)) (hg : l[i]? = some r)
    (hr : r.isAdded = false) : ∀ x ∈ l, ¬ SoughtAdded sought x := by
  cases h with
  | @added pre post r' d hl hr' _ _ =>
    rw [hl, List.getElem?_append_right (Nat.le_refl _), Nat.sub_self] at hg
    obtain rfl := Option.some.inj hg
    rw [hr'.1] at hr
    cases hr
  | transition _ _ ha _ => exact ha

end Found

/-! ## The search of all stores -/

section

variable (env : Env) (ignoreRtCheck : Bool) (key : VarKey)

theorem findVariableEx_found (store : StoreType) (l : List VarRecord) :
    Found (matchesKey env ignoreRtCheck key) l
      ((findVariableEx env ignoreRtCheck key store l).currPtr,
        (findVariableEx env ignoreRtCheck key store l).inDeletedTransitionPtr) :=
  found_findLoop _ _

@[simp] theorem findVariableEx_store (store : StoreType) (l : List VarRecord) :
    (findVariableEx env ignoreRtCheck key store l).store = store := rfl

/-- A store has a live entry of the variable. -/
def Holds (l : List VarRecord) : Prop :=
  ∃ x ∈ l, x.isLive = true ∧ matchesKey env ignoreRtCheck key x = true

end

theorem findVariableEx_isSome_iff {env : Env} {ignoreRtCheck : Bool} {key : VarKey}
    {store : StoreType} :
    (findVariableEx env ignoreRtCheck key store l).currPtr.isSome = true ↔
      Holds env ignoreRtCheck key l := by
  have hnone := (findVariableEx_found env ignoreRtCheck key store l).none_iff
  rw [Option.isSome_iff_ne_none, ne_eq, hnone]
  constructor
  · intro h
    push Not at h
    obtain ⟨x, hx, hl, hs⟩ := h
    exact ⟨x, hx, hl, by simpa using hs⟩
  · rintro ⟨x, hx, hl, hs⟩ ha
    rw [ha x hx hl] at hs
    cases hs

theorem found_any_isAdded_iff {env : Env} {ignoreRtCheck : Bool} {key : VarKey} {store : StoreType}
    {s : VarState} :
    ((findVariableEx env ignoreRtCheck key store (s.records store)).found s).any
        isAdded = true ↔
      ∃ x ∈ s.records store, SoughtAdded (matchesKey env ignoreRtCheck key) x := by
  have hf := findVariableEx_found env ignoreRtCheck key store (s.records store)
  rw [PointerTrack.found]
  generalize (findVariableEx env ignoreRtCheck key store (s.records store)).currPtr = curr at *
  generalize (findVariableEx env ignoreRtCheck key store
    (s.records store)).inDeletedTransitionPtr = inDeleted at *
  cases hf with
  | @added pre post r _ hl hr _ _ =>
    refine iff_of_true ?_ ⟨r, by simp [hl], hr⟩
    simp [hl, hr.1]
  | @transition pre post r hl hr ha _ =>
    refine iff_of_false ?_ fun ⟨x, hx, h⟩ => ha x hx h
    simp [hl, not_isAdded_of_isInTransition hr.1]
  | absent ha _ =>
    exact iff_of_false (by simp) fun ⟨x, hx, h⟩ => ha x hx h

/-- **The search of all stores.** It is the search of the first store that holds the variable, or of
the non-volatile store where none does. -/
theorem findVariable_cases (env : Env) (s : VarState) (key : VarKey) (ignoreRtCheck : Bool) :
    ∃ store, findVariable env s key ignoreRtCheck =
        findVariableEx env ignoreRtCheck key store (s.records store) ∧
      (store = .volatile ∧ Holds env ignoreRtCheck key (s.records .volatile) ∨
        store = .hob ∧ ¬ Holds env ignoreRtCheck key (s.records .volatile) ∧
          Holds env ignoreRtCheck key (s.records .hob) ∨
        store = .nv ∧ ¬ Holds env ignoreRtCheck key (s.records .volatile) ∧
          ¬ Holds env ignoreRtCheck key (s.records .hob)) := by
  simp only [findVariable]
  split_ifs with hv hh
  · rw [findVariableEx_isSome_iff] at hv
    exact ⟨.volatile, rfl, .inl ⟨rfl, hv⟩⟩
  · rw [findVariableEx_isSome_iff] at hv hh
    exact ⟨.hob, rfl, .inr (.inl ⟨rfl, hv, hh⟩)⟩
  · rw [findVariableEx_isSome_iff] at hv hh
    exact ⟨.nv, rfl, .inr (.inr ⟨rfl, hv, hh⟩)⟩

end Edk2.Var
