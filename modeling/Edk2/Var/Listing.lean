import Edk2.Lib.Listing
import Edk2.Lib.Run
import Edk2.Var.Lookup
import Edk2.Var.Update

/-!
# Listing the variables

`GetNextVariableName` is called with the empty name first and then with each name it returned. It
looks the name up and goes on after the entry it finds, so what the calls list depends on which
entry the search finds: for the empty name that is the first added entry of the first store in use,
and where that store has none its last entry in transition.

The entries of all stores form one list in the order of the search. The listing shows those entries
that are live, are no twin in transition of an added entry and are not overridden by the HOB store,
and it goes from one shown entry to the next. Two things go wrong. An entry in transition that
stands before the first added entry is skipped, because the search for the empty name starts behind
it. And a variable with two shown entries sends the listing back, or ahead.

## Main results

* `listsAll_iff`: when the listing is complete
* `not_listsAll`: a failed update leaves a variable that is found and not listed
-/

namespace Edk2.Var

open List VarState

/-! ## The entries in the order of the search -/

variable {e : StoreType × VarRecord}

namespace VarState

section

variable (s : VarState) (store : StoreType) (i : ℕ)

def tagged : List (StoreType × VarRecord) :=
  ((s.records store).drop i).map (Prod.mk store)

/-- The entries from a position of a store on, those of the following stores included. -/
def entriesFrom : List (StoreType × VarRecord) :=
  match store with
  | .volatile => s.tagged .volatile i ++ (s.tagged .hob 0 ++ s.tagged .nv 0)
  | .hob => s.tagged .hob i ++ s.tagged .nv 0
  | .nv => s.tagged .nv i

/-- The entries before a position of a store, those of the stores before it included. -/
def entriesBefore : List (StoreType × VarRecord) :=
  let before := ((s.records store).take i).map (Prod.mk store)
  match store with
  | .volatile => before
  | .hob => s.tagged .volatile 0 ++ before
  | .nv => s.tagged .volatile 0 ++ (s.tagged .hob 0 ++ before)

end

def entries (s : VarState) : List (StoreType × VarRecord) := s.entriesFrom .volatile 0

variable {s : VarState} {store : StoreType} {i : ℕ} {r : VarRecord}

theorem entries_eq (s : VarState) (store : StoreType) (i : ℕ) :
    s.entries = s.entriesBefore store i ++ s.entriesFrom store i := by
  have ht : ∀ store, s.tagged store 0 =
      ((s.records store).take i).map (Prod.mk store) ++ s.tagged store i := by
    intro store
    rw [tagged, tagged, ← map_append, drop_zero, take_append_drop]
  cases store with
  | volatile => rw [entries, entriesFrom, entriesBefore, entriesFrom, ht, append_assoc]
  | hob => rw [entries, entriesFrom, entriesBefore, entriesFrom, ht .hob]; simp
  | nv => rw [entries, entriesFrom, entriesBefore, entriesFrom, ht .nv]; simp

theorem entriesFrom_eq_cons (h : (s.records store)[i]? = some r) :
    s.entriesFrom store i = (store, r) :: s.entriesFrom store (i + 1) := by
  obtain ⟨hlt, hr⟩ := List.getElem?_eq_some_iff.mp h
  have hd : s.tagged store i = (store, r) :: s.tagged store (i + 1) := by
    rw [tagged, tagged, drop_eq_getElem_cons hlt, map_cons, hr]
  cases store <;> simp [entriesFrom, hd]

theorem mem_entries : e ∈ s.entries ↔ e.2 ∈ s.records e.1 := by
  obtain ⟨store, r⟩ := e
  cases store <;> simp [entries, entriesFrom, tagged]

theorem mem_entriesBefore (h : e ∈ s.entriesBefore store i) :
    e.1 = store ∧ e.2 ∈ (s.records store).take i ∨ e ∈ s.entriesBefore store 0 := by
  obtain ⟨t, r⟩ := e
  cases store <;> simp only [entriesBefore, mem_append, mem_map, Prod.mk.injEq] at h ⊢ <;>
    grind

theorem mem_entriesBefore_of_ne (s : VarState) {store' : StoreType} (h : store' ≠ store) :
    (∀ x ∈ s.records store', (store', x) ∈ s.entriesBefore store 0) ∨
      ∀ x ∈ s.records store, (store, x) ∈ s.entriesBefore store' 0 := by
  cases store <;> cases store' <;> simp_all [entriesBefore, tagged]

end VarState

theorem split_cases {pre post pre' post' : List VarRecord} {r x : VarRecord}
    (h : pre ++ r :: post = pre' ++ x :: post') :
    r ∈ pre' ∧ x ∈ post ∨ x = r ∧ post' = post ∨ x ∈ pre := by
  rcases append_eq_append_iff.mp h with ⟨mid, rfl, hm⟩ | ⟨mid, rfl, hm⟩
  · cases mid with
    | nil => exact .inr (.inl ⟨(List.cons.inj hm).1.symm, (List.cons.inj hm).2.symm⟩)
    | cons y mid =>
      obtain ⟨rfl, rfl⟩ := List.cons.inj hm
      exact .inl ⟨by simp, by simp⟩
  · cases mid with
    | nil => exact .inr (.inl ⟨(List.cons.inj hm).1, (List.cons.inj hm).2⟩)
    | cons y mid =>
      obtain ⟨rfl, rfl⟩ := List.cons.inj hm
      exact .inr (.inr (by simp))

/-! ## The entries shown -/

section Shown

/-- The entry is shown by the listing. -/
def Shown (s : VarState) (e : StoreType × VarRecord) : Prop :=
  e.2.isLive = true ∧
    (e.2.isInTransition = true →
      ∀ x ∈ s.records e.1, x.key = e.2.key → x.isAdded = false) ∧
    (e.1 = .nv → ∀ x ∈ s.records .hob, x.key = e.2.key → x.isLive = false)

instance (s : VarState) (e : StoreType × VarRecord) : Decidable (Shown s e) := by
  unfold Shown
  infer_instance

/-- Every entry a search can find has a name. -/
def Named (s : VarState) : Prop := ∀ store, ∀ r ∈ s.records store, r.isLive = true → r.key.1 ≠ []

def OneShown (s : VarState) : Prop :=
  s.entries.Pairwise fun e e' => Shown s e → Shown s e' → e.2.key ≠ e'.2.key

/-- No variable has two shown entries in transition in one store. -/
def SingleTransition (s : VarState) : Prop :=
  ∀ store, (s.records store).Pairwise fun x y =>
    Shown s (store, x) → Shown s (store, y) → x.isInTransition = true → y.isInTransition = true →
      x.key ≠ y.key

/-- In the first store in use, an entry in transition without an added twin comes after an added
entry or is the last live entry. -/
def StartsFirst (s : VarState) : Prop :=
  ∀ store, (∀ e ∈ s.entriesBefore store 0, e.2.isLive = false) →
    ∀ pre r post, s.records store = pre ++ r :: post → r.isInTransition = true →
      (∀ x ∈ s.records store, x.key = r.key → x.isAdded = false) →
        (∃ x ∈ pre, x.isAdded = true) ∨ ∀ x ∈ post, x.isLive = false

variable {env : Env} {s : VarState}

theorem OneShown.singleTransition (h : OneShown s) : SingleTransition s := by
  intro store
  have hf : (s.entriesFrom store 0).Pairwise fun e e' =>
      Shown s e → Shown s e' → e.2.key ≠ e'.2.key := by
    unfold OneShown at h
    rw [entries_eq s store 0] at h
    exact (pairwise_append.mp h).2.1
  have ht : (s.tagged store 0).Pairwise fun e e' =>
      Shown s e → Shown s e' → e.2.key ≠ e'.2.key := by
    cases store with
    | volatile | hob => exact (pairwise_append.mp hf).1
    | nv => exact hf
  rw [tagged, pairwise_map] at ht
  exact ht.imp fun hne hx hy _ _ => hne hx hy

/-! ## Searching at boot time -/

variable (hboot : env.atRuntime = false)

include hboot

variable {key : VarKey} {store : StoreType} {i : ℕ} {r : VarRecord}

theorem matchesKey_iff (hk : key.1 ≠ []) :
    matchesKey env false key r = true ↔ r.key = key := by
  have hn : (key.1 == []) = false := by simpa using hk
  simp only [matchesKey, hboot, hn, Bool.not_false, Bool.or_true, Bool.true_or, Bool.true_and,
    Bool.false_or, beq_iff_eq]
  exact eq_comm

variable {guid : EfiGuid} {d : Option ℕ}

theorem matchesKey_empty : matchesKey env false ([], guid) r = true := by
  simp [matchesKey, hboot]

theorem holds_iff (hk : key.1 ≠ []) {l : List VarRecord} :
    Holds env false key l ↔ ∃ x ∈ l, x.isLive = true ∧ x.key = key := by
  simp only [Holds, matchesKey_iff hboot hk]

/-- The listing's own check is that the entry is shown. -/
theorem isListed_iff (hnamed : Named s) (he : e.2 ∈ s.records e.1) :
    isListed env s e.1 e.2 = true ↔ Shown s e := by
  obtain ⟨store, r⟩ := e
  by_cases hl : r.isLive = true
  swap
  · simp [isListed, Shown, hl]
  have hk := hnamed store r he hl
  have hh : (s.hobStore.isSome && store == .nv &&
      (findVariableEx env false r.key .hob (s.records .hob)).currPtr.isSome) = true ↔
      ¬ (store = .nv → ∀ x ∈ s.records .hob, x.key = r.key → x.isLive = false) := by
    rw [Bool.and_eq_true, findVariableEx_isSome_iff, holds_iff hboot hk, Bool.and_eq_true,
      beq_iff_eq]
    constructor
    · rintro ⟨⟨-, hs⟩, x, hx, hxl, hxk⟩ ha
      rw [ha hs x hx hxk] at hxl
      cases hxl
    · intro hn
      push Not at hn
      obtain ⟨hs, x, hx, hxk, hxl⟩ := hn
      refine ⟨⟨?_, hs⟩, x, hx, by simpa using hxl, hxk⟩
      cases hh : s.hobStore with
      | none => simp [records, hh] at hx
      | some l => rfl
  have ht : (r.isInTransition && ((findVariableEx env false r.key store
        (s.records store)).found s).any VarRecord.isAdded) = true ↔
      ¬ (r.isInTransition = true → ∀ x ∈ s.records store, x.key = r.key → x.isAdded = false) := by
    rw [Bool.and_eq_true, found_any_isAdded_iff]
    simp only [SoughtAdded, matchesKey_iff hboot hk]
    constructor
    · rintro ⟨htrans, x, hx, hxa, hxk⟩ ha
      rw [ha htrans x hx hxk] at hxa
      cases hxa
    · intro hn
      push Not at hn
      obtain ⟨htrans, x, hx, hxk, hxa⟩ := hn
      exact ⟨htrans, x, hx, by simpa using hxa, hxk⟩
  simp only [isListed, Shown, hl, hboot, Bool.not_false, Bool.true_or, Bool.and_true,
    Bool.true_and, Bool.and_eq_true, Bool.not_eq_true', ← Bool.not_eq_true, ht, hh,
    not_not, true_and]

/-! ## Where the listing goes on -/

omit hboot in
theorem nextListed_eq (env : Env) (s : VarState) (store : StoreType) (i : ℕ) :
    nextListed env s store i =
      ((s.entriesFrom store i).find? fun e => isListed env s e.1 e.2).map Prod.snd := by
  have ht : ∀ store i, ((s.tagged store i).find? fun e => isListed env s e.1 e.2) =
      (((s.records store).drop i).find? (isListed env s store)).map (Prod.mk store) := by
    intro store i
    rw [tagged, List.find?_map]
    rfl
  cases store with
  | volatile =>
    simp only [nextListed, entriesFrom, List.find?_append, ht, drop_zero]
    cases ((s.records .volatile).drop i).find? (isListed env s .volatile) <;>
      cases (s.records .hob).find? (isListed env s .hob) <;>
      cases (s.records .nv).find? (isListed env s .nv) <;> rfl
  | hob =>
    simp only [nextListed, entriesFrom, List.find?_append, ht, drop_zero]
    cases ((s.records .hob).drop i).find? (isListed env s .hob) <;>
      cases (s.records .nv).find? (isListed env s .nv) <;> rfl
  | nv =>
    simp only [nextListed, entriesFrom, ht]
    cases ((s.records .nv).drop i).find? (isListed env s .nv) <;> rfl

/-- The variables of the shown entries, in the order of the search. -/
def listedKeys (env : Env) (s : VarState) (l : List (StoreType × VarRecord)) : List VarKey :=
  (l.filter fun e => isListed env s e.1 e.2).map fun e => e.2.key

omit hboot in
theorem listedKeys_append (l l' : List (StoreType × VarRecord)) :
    listedKeys env s (l ++ l') = listedKeys env s l ++ listedKeys env s l' := by
  simp [listedKeys]

omit hboot in
theorem head?_listedKeys (store : StoreType) (i : ℕ) :
    (listedKeys env s (s.entriesFrom store i)).head? =
      (nextListed env s store i).map VarRecord.key := by
  rw [nextListed_eq, listedKeys, List.head?_map, List.head?_filter, Option.map_map]
  rfl

omit hboot in
/-- The store a search ends in: no entry before it is of the variable, and where nothing is found it
is the last one. -/
theorem findVariable_store (env : Env) (s : VarState) (key : VarKey) :
    ∃ store, findVariable env s key false = findVariableEx env false key store (s.records store) ∧
      (∀ e ∈ s.entriesBefore store 0, e.2.isLive = true → matchesKey env false key e.2 = false) ∧
      ((findVariable env s key false).currPtr = none → store = .nv) := by
  obtain ⟨store, heq, hs⟩ := findVariable_cases env s key false
  have hn : ∀ {l : List VarRecord}, ¬ Holds env false key l → ∀ x ∈ l, x.isLive = true →
      matchesKey env false key x = false := by
    intro l hl x hx hli
    by_contra h
    exact hl ⟨x, hx, hli, by simpa using h⟩
  refine ⟨store, heq, fun e he hli => ?_, fun hnone => ?_⟩
  · rcases hs with ⟨rfl, -⟩ | ⟨rfl, hv, -⟩ | ⟨rfl, hv, hho⟩
    · simp [entriesBefore] at he
    · simp only [entriesBefore, tagged, take_zero, map_nil,
        append_nil, drop_zero, mem_map] at he
      obtain ⟨x, hx, rfl⟩ := he
      exact hn hv x hx hli
    · simp only [entriesBefore, tagged, take_zero, map_nil,
        append_nil, drop_zero, mem_append, mem_map] at he
      rcases he with ⟨x, hx, rfl⟩ | ⟨x, hx, rfl⟩
      · exact hn hv x hx hli
      · exact hn hho x hx hli
  · rw [heq] at hnone
    rcases hs with ⟨rfl, hh⟩ | ⟨rfl, -, hh⟩ | ⟨rfl, -⟩
    · rw [← findVariableEx_isSome_iff, hnone] at hh
      cases hh
    · rw [← findVariableEx_isSome_iff, hnone] at hh
      cases hh
    · rfl

omit hboot in
theorem findVariable_eq_none (h : (findVariable env s key false).currPtr = none) :
    ∀ e ∈ s.entries, e.2.isLive = true → matchesKey env false key e.2 = false := by
  obtain ⟨store, heq, hb, hnv⟩ := findVariable_store env s key
  obtain rfl := hnv h
  intro e he hl
  rw [entries_eq s .nv 0] at he
  rcases mem_append.mp he with he | he
  · exact hb e he hl
  · rw [heq] at h
    simp only [entriesFrom, tagged, drop_zero, mem_map] at he
    obtain ⟨x, hx, rfl⟩ := he
    exact (findVariableEx_found env false key .nv _).none_iff.mp h x hx hl

theorem shown_of_found
    (hb : ∀ e ∈ s.entriesBefore store 0, e.2.isLive = true →
      matchesKey env false key e.2 = false)
    (hf : Found (matchesKey env false key) (s.records store) (some i, d))
    (hr : (s.records store)[i]? = some r) : Shown s (store, r) := by
  obtain ⟨r', hr', hl, hm⟩ := hf.getElem?
  obtain rfl := Option.some.inj (hr.symm.trans hr')
  have hs : ∀ x : VarRecord, x.key = r.key → matchesKey env false key x = true := by
    intro x hx
    by_cases hke : key.1 = []
    · simp [matchesKey, hboot, hke]
    · rw [matchesKey_iff hboot hke] at hm ⊢
      rw [hx, hm]
  refine ⟨hl, fun htrans x hx hk => ?_, ?_⟩
  · by_contra ha
    exact hf.not_added hr (VarRecord.not_isAdded_of_isInTransition htrans) x hx
      ⟨by simpa using ha, hs x hk⟩
  · rintro rfl x hx hk
    by_contra hlv
    have hmem : (StoreType.hob, x) ∈ s.entriesBefore .nv 0 := by
      simp [entriesBefore, tagged, hx]
    have hno := hb _ hmem (by simpa using hlv)
    rw [hs x hk] at hno
    cases hno

theorem not_shown_before (hsingle : SingleTransition s) (hke : key.1 ≠ [])
    (hb : ∀ e ∈ s.entriesBefore store 0, e.2.isLive = true →
      matchesKey env false key e.2 = false)
    (hf : Found (matchesKey env false key) (s.records store) (some i, d)) :
    ∀ e ∈ s.entriesBefore store i, Shown s e → e.2.key ≠ key := by
  intro e he hs hk
  have hm : matchesKey env false key e.2 = true := (matchesKey_iff hboot hke).mpr hk
  rcases mem_entriesBefore he with ⟨hst, hmem⟩ | he
  swap
  · rw [hb e he hs.1] at hm
    cases hm
  obtain ⟨store', x⟩ := e
  obtain rfl : store' = store := hst
  cases hf with
  | @added pre post r _ hl hr hpr _ =>
    rw [hl, take_left] at hmem
    -- The entry is no added one, and an added entry of the variable follows it.
    rcases VarRecord.isLive_iff.mp hs.1 with hx | hx
    · exact hpr x hmem ⟨hx, hm⟩
    · have hno := hs.2.1 hx r (by simp [hl])
        (((matchesKey_iff hboot hke).mp hr.2).trans hk.symm)
      rw [hr.1] at hno
      cases hno
  | @transition pre post r hl hr ha _ =>
    rw [hl, take_left] at hmem
    have hx : x.isInTransition = true :=
      (VarRecord.isLive_iff.mp hs.1).resolve_left fun hx =>
        ha x (by simp [hl, hmem]) ⟨hx, hm⟩
    have hr' : Shown s (store', r) := by
      refine shown_of_found hboot hb (.transition hl hr ha ?_) (by simp [hl])
      assumption
    have hp := hsingle store'
    rw [hl] at hp
    exact (pairwise_append.mp hp).2.2 x hmem r mem_cons_self hs hr' hx hr.1
      (hk.trans ((matchesKey_iff hboot hke).mp hr.2).symm)

/-- Nothing is shown before the entry where the listing starts exactly when the first store in use
starts as it should. -/
theorem startsFirst_iff {store : StoreType} {i : ℕ}
    (hb : ∀ e ∈ s.entriesBefore store 0, e.2.isLive = false)
    (hfo : Found (matchesKey env false ([], guid)) (s.records store) (some i, d)) :
    StartsFirst s ↔ ∀ e ∈ s.entriesBefore store i, ¬ Shown s e := by
  have ha : ∀ x : VarRecord, matchesKey env false ([], guid) x = true := fun x =>
    matchesKey_empty hboot
  constructor
  · rintro hsta ⟨store', x⟩ he hsh
    rcases mem_entriesBefore he with ⟨hst, hmem⟩ | he
    swap
    · exact absurd hsh.1 (by simp [hb _ he])
    obtain rfl : store' = store := hst
    cases hfo with
    | @added pre post r _ hl hr hp _ =>
      rw [hl, take_left] at hmem
      obtain ⟨pre₁, pre₂, rfl⟩ := append_of_mem hmem
      have hx : x.isInTransition = true :=
        (VarRecord.isLive_iff.mp hsh.1).resolve_left fun hx => hp x hmem ⟨hx, ha x⟩
      rcases hsta store' hb pre₁ x (pre₂ ++ r :: post) (by simp [hl]) hx
        (hsh.2.1 hx) with ⟨y, hy, had⟩ | hlast
      · exact hp y (by simp [hy]) ⟨had, ha y⟩
      · have hli := hlast r (by simp)
        rw [VarRecord.isLive_iff.mpr (.inl hr.1)] at hli
        cases hli
    | @transition pre post r hl hr had _ =>
      rw [hl, take_left] at hmem
      obtain ⟨pre₁, pre₂, rfl⟩ := append_of_mem hmem
      have hnone : ∀ y ∈ s.records store', y.isAdded = false := fun y hy => by
        by_contra h
        exact had y hy ⟨by simpa using h, ha y⟩
      have hx : x.isInTransition = true :=
        (VarRecord.isLive_iff.mp hsh.1).resolve_left (by simp [hnone x (by simp [hl])])
      rcases hsta store' hb pre₁ x (pre₂ ++ r :: post) (by simp [hl]) hx
        (hsh.2.1 hx) with ⟨y, hy, hya⟩ | hlast
      · rw [hnone y (by simp [hl, hy])] at hya
        cases hya
      · have hli := hlast r (by simp)
        rw [VarRecord.isLive_iff.mpr (.inr hr.1)] at hli
        cases hli
  · intro hno store' hf pre' x post' hl' hx hs
    have hxl : x.isLive = true := VarRecord.isLive_iff.mpr (.inr hx)
    obtain ⟨r₀, hr₀, hrl, -⟩ := hfo.getElem?
    -- There is one first store in use.
    obtain rfl : store' = store := by
      by_contra hne
      rcases s.mem_entriesBefore_of_ne hne with h | h
      · exact absurd hxl (by simp [hb _ (h x (by simp [hl']))])
      · exact absurd hrl (by simp [hf _ (h r₀ (mem_of_getElem? hr₀))])
    have hsh : Shown s (store', x) := by
      refine ⟨hxl, fun _ => hs, ?_⟩
      rintro rfl y hy -
      exact hb (.hob, y) (by simp [entriesBefore, tagged, hy])
    have hn : ∀ {pre : List VarRecord} {r : VarRecord} {post : List VarRecord},
        s.records store' = pre ++ r :: post →
        (∀ e ∈ s.entriesBefore store' pre.length, ¬ Shown s e) → x ∉ pre := by
      intro pre r post hl hno hmem
      refine hno (store', x) ?_ hsh
      cases store' <;> simp [entriesBefore, hl, hmem]
    cases hfo with
    | @added pre post r _ hl hr hp hd =>
      rcases split_cases (hl.symm.trans hl') with ⟨hrm, -⟩ | ⟨rfl, -⟩ | hmem
      · exact .inl ⟨r, hrm, hr.1⟩
      · exact absurd hr.1 (by simp [VarRecord.not_isAdded_of_isInTransition hx])
      · exact absurd hmem (hn hl hno)
    | @transition pre post r hl hr had hlast =>
      rcases split_cases (hl.symm.trans hl') with ⟨-, hxm⟩ | ⟨rfl, rfl⟩ | hmem
      · exact absurd ⟨hx, ha x⟩ (hlast x hxm)
      · refine .inr fun y hy => ?_
        by_contra hyl
        rcases VarRecord.isLive_iff.mp (by simpa using hyl) with h | h
        · exact had y (by simp [hl, hy]) ⟨h, ha y⟩
        · exact hlast y hy ⟨h, ha y⟩
      · exact absurd hmem (hn hl hno)

end Shown

/-! ## The service -/

section Service

section

variable (env : Env) (s : VarState) (size : ℕ)

/-- The service returns a variable after a variable. -/
def Follows (key key' : VarKey) : Prop :=
  ∃ size', getNextVariableName env s size key = (.success, size', key')

/-- The service returns that there is no further variable. -/
def IsLast (key : VarKey) : Prop :=
  (getNextVariableName env s size key).1 = .notFound

/-- Listing from the empty name with a buffer of the given size gives every variable that can be
found, each once, and then `EFI_NOT_FOUND`. -/
def ListsAll (guid : EfiGuid) : Prop :=
  ∃ keys, Listing (Follows env s size) (IsLast env s size) ([], guid) keys ∧ keys.Nodup ∧
    ∀ key, key ∈ keys ↔ key.1 ≠ [] ∧ (lookup env s key).isSome = true

end

/-- The buffer takes the name of every variable. -/
def Fits (s : VarState) (size : ℕ) : Prop :=
  2 ≤ size ∧ ∀ store, ∀ r ∈ s.records store, r.isLive = true → strSize r.key.1 ≤ size

variable {env : Env} {s : VarState} {size : ℕ} {key : VarKey} {i : ℕ}

theorem nextListed_mem {store : StoreType} {r : VarRecord}
    (h : nextListed env s store i = some r) :
    ∃ store', r ∈ s.records store' ∧ r.isLive = true := by
  rw [nextListed_eq, Option.map_eq_some_iff] at h
  obtain ⟨e, he, rfl⟩ := h
  have hmem := mem_of_find?_eq_some he
  have hl := List.find?_some he
  refine ⟨e.1, mem_entries.mp ?_, ?_⟩
  · rw [entries_eq s store i]
    exact mem_append_right _ hmem
  · simp only [isListed, Bool.and_eq_true] at hl
    exact hl.1.1.1

theorem getNextVariableName_iff (env : Env) (key : VarKey) (hf : Fits s size)
    (hle : strSize key.1 ≤ size)
    (h : (findVariable env s key false).currPtr = some i) :
    (∀ key', Follows env s size key key' ↔
      (nextListed env s (findVariable env s key false).store
        (if key.1 ≠ [] then i + 1 else i)).map VarRecord.key = some key') ∧
    (IsLast env s size key ↔
      (nextListed env s (findVariable env s key false).store
        (if key.1 ≠ [] then i + 1 else i)).map VarRecord.key = none) := by
  have hp : ¬ (size / 2 = 0 ∨ size / 2 ≤ key.1.length) := by
    unfold strSize at hle
    omega
  simp only [Follows, IsLast, getNextVariableName, if_neg hp, getNextVariableInternal, h]
  cases hnext : nextListed env s (findVariable env s key false).store
      (if key.1 ≠ [] then i + 1 else i) with
  | none => simp
  | some r =>
    obtain ⟨store, hr, hl⟩ := nextListed_mem hnext
    have hs := hf.2 store r hr hl
    simp [hs]

theorem lookup_isSome_iff :
    (lookup env s key).isSome = true ↔ (findVariable env s key false).currPtr.isSome = true := by
  obtain ⟨store, heq, -⟩ := findVariable_store env s key
  have hf := findVariableEx_found env false key store (s.records store)
  rw [lookup, PointerTrack.found, heq]
  cases hc : (findVariableEx env false key store (s.records store)).currPtr with
  | none => simp
  | some i =>
    rw [hc] at hf
    obtain ⟨r, hr, -⟩ := hf.getElem?
    simp [hr]

section Boot

variable (hboot : env.atRuntime = false) (hnamed : Named s)

include hboot hnamed

theorem mem_listedKeys {l : List (StoreType × VarRecord)} (hl : ∀ e ∈ l, e ∈ s.entries) :
    key ∈ listedKeys env s l ↔ ∃ e ∈ l, Shown s e ∧ e.2.key = key := by
  simp only [listedKeys, mem_map, mem_filter, and_assoc]
  refine exists_congr fun e => and_congr_right fun he => and_congr_left fun _ => ?_
  exact isListed_iff hboot hnamed (mem_entries.mp (hl e he))

theorem listedKeys_split {store : StoreType} {r : VarRecord} (hr : (s.records store)[i]? = some r)
    (hs : Shown s (store, r)) :
    listedKeys env s s.entries = listedKeys env s (s.entriesBefore store i) ++
      r.key :: listedKeys env s (s.entriesFrom store (i + 1)) := by
  rw [entries_eq s store i, entriesFrom_eq_cons hr]
  have hl : isListed env s store r = true :=
    (isListed_iff hboot hnamed (mem_of_getElem? hr)).mpr hs
  simp [listedKeys, hl]

theorem nodup_listedKeys_iff : (listedKeys env s s.entries).Nodup ↔ OneShown s := by
  rw [listedKeys, List.Nodup, pairwise_map, pairwise_filter]
  refine List.Pairwise.iff_of_mem fun {e e'} he he' => ?_
  rw [isListed_iff hboot hnamed (mem_entries.mp he),
    isListed_iff hboot hnamed (mem_entries.mp he')]

theorem mem_listedKeys_iff :
    key ∈ listedKeys env s s.entries ↔ key.1 ≠ [] ∧ (lookup env s key).isSome = true := by
  rw [mem_listedKeys hboot hnamed fun _ he => he, lookup_isSome_iff]
  constructor
  · rintro ⟨e, he, hs, rfl⟩
    have hk := hnamed e.1 e.2 (mem_entries.mp he) hs.1
    refine ⟨hk, ?_⟩
    by_contra hnone
    have hno := findVariable_eq_none (by simpa using hnone) e he hs.1
    rw [(matchesKey_iff hboot hk).mpr rfl] at hno
    cases hno
  · rintro ⟨hk, hso⟩
    obtain ⟨i, hi⟩ := Option.isSome_iff_exists.mp hso
    obtain ⟨store, heq, hb, -⟩ := findVariable_store env s key
    have hf := findVariableEx_found env false key store (s.records store)
    rw [← heq, hi] at hf
    obtain ⟨r, hr, -, hm⟩ := hf.getElem?
    exact ⟨(store, r), mem_entries.mpr (mem_of_getElem? hr),
      shown_of_found hboot hb hf hr, (matchesKey_iff hboot hk).mp hm⟩

theorem follows_iff (hsingle : SingleTransition s) (hfi : Fits s size)
    (hk : key ∈ listedKeys env s s.entries) :
    (∀ key', Follows env s size key key' ↔
      (listedKeys env s s.entries)[(listedKeys env s s.entries).idxOf key + 1]? = some key') ∧
    (IsLast env s size key ↔
      (listedKeys env s s.entries)[(listedKeys env s s.entries).idxOf key + 1]? = none) := by
  obtain ⟨hna, hs⟩ := (mem_listedKeys_iff hboot hnamed).mp hk
  obtain ⟨i, hi⟩ := Option.isSome_iff_exists.mp (lookup_isSome_iff.mp hs)
  obtain ⟨store, heq, hb, -⟩ := findVariable_store env s key
  have hf := findVariableEx_found env false key store (s.records store)
  rw [← heq, hi] at hf
  obtain ⟨r, hr, hl, hm⟩ := hf.getElem?
  have hrk := (matchesKey_iff hboot hna).mp hm
  have hsh := shown_of_found hboot hb hf hr
  have hn : key ∉ listedKeys env s (s.entriesBefore store i) := by
    rw [mem_listedKeys hboot hnamed fun e he => by
      rw [entries_eq s store i]; exact mem_append_left _ he]
    rintro ⟨e, he, hes, hek⟩
    exact not_shown_before hboot hsingle hna hb hf e he hes hek
  have hnext : (listedKeys env s s.entries)[(listedKeys env s s.entries).idxOf key + 1]? =
      (nextListed env s store (i + 1)).map VarRecord.key := by
    rw [listedKeys_split hboot hnamed hr hsh, idxOf_append_of_notMem hn, hrk,
      ← head?_listedKeys, List.head?_eq_getElem?,
      List.getElem?_append_right (by omega)]
    simp
  have hle : strSize key.1 ≤ size :=
    hrk ▸ hfi.2 store r (mem_of_getElem? hr) hl
  have hc := getNextVariableName_iff env key hfi hle hi
  rw [heq, if_pos hna] at hc
  rw [hnext]
  exact hc

theorem start_cases (hfi : Fits s size) (guid : EfiGuid) :
    ∃ first, (∀ key', Follows env s size ([], guid) key' ↔
        (listedKeys env s s.entries)[first]? = some key') ∧
      (IsLast env s size ([], guid) ↔ (listedKeys env s s.entries)[first]? = none) ∧
      (first < (listedKeys env s s.entries).length ∨ first = 0) ∧ (first = 0 ↔ StartsFirst s) := by
  cases hcu : (findVariable env s ([], guid) false).currPtr with
  | none =>
    have hdead : ∀ e ∈ s.entries, e.2.isLive = false := by
      intro e he
      by_contra hli
      have hno := findVariable_eq_none hcu e he (by simpa using hli)
      rw [matchesKey_empty hboot] at hno
      cases hno
    have hnil : listedKeys env s s.entries = [] := by
      rw [eq_nil_iff_forall_not_mem]
      intro key hk
      obtain ⟨e, he, hsho, -⟩ := (mem_listedKeys hboot hnamed fun _ he => he).mp hk
      exact absurd hsho.1 (by simp [hdead e he])
    have hp : ¬ size < 2 := Nat.not_lt.mpr hfi.1
    refine ⟨0, ?_, ?_, .inr rfl, iff_of_true rfl ?_⟩
    · simp [Follows, getNextVariableName, hp, getNextVariableInternal, hcu, hnil]
    · simp [IsLast, getNextVariableName, hp, getNextVariableInternal, hcu, hnil]
    · intro store _ pre r post hl hr
      have := hdead (store, r) (mem_entries.mpr (by simp [hl]))
      rw [VarRecord.isLive_iff.mpr (.inr hr)] at this
      cases this
  | some i =>
    obtain ⟨store, heq, hb, -⟩ := findVariable_store env s ([], guid)
    have hfo := findVariableEx_found env false ([], guid) store (s.records store)
    rw [← heq, hcu] at hfo
    obtain ⟨r, hr, hli, -⟩ := hfo.getElem?
    have hsho := shown_of_found hboot hb hfo hr
    have hs := listedKeys_split hboot hnamed hr hsho
    have hf : (listedKeys env s s.entries)[(listedKeys env s
        (s.entriesBefore store i)).length]? = (nextListed env s store i).map VarRecord.key := by
      rw [← head?_listedKeys, entries_eq s store i, listedKeys_append,
        List.getElem?_append_right (Nat.le_refl _), Nat.sub_self, List.head?_eq_getElem?]
    have hc := getNextVariableName_iff env ([], guid) hfi hfi.1 hcu
    rw [heq, findVariableEx_store, if_neg (by simp), ← hf] at hc
    refine ⟨_, hc.1, hc.2, .inl (by simp [hs]), ?_⟩
    have hdead : ∀ e ∈ s.entriesBefore store 0, e.2.isLive = false := by
      intro e he
      by_contra hlv
      have hno := hb e he (by simpa using hlv)
      rw [matchesKey_empty hboot] at hno
      cases hno
    rw [startsFirst_iff hboot hdead hfo, length_eq_zero_iff,
      eq_nil_iff_forall_not_mem]
    have hmem : ∀ key, key ∈ listedKeys env s (s.entriesBefore store i) ↔ _ := fun key =>
      mem_listedKeys hboot hnamed fun e he => by
        rw [entries_eq s store i]; exact mem_append_left _ he
    simp only [hmem]
    constructor
    · exact fun h e he hsh => h e.2.key ⟨e, he, hsh, rfl⟩
    · rintro h key ⟨e, he, hsh, -⟩
      exact h e he hsh

theorem listsAll_iff_of_single (hsingle : SingleTransition s) (hf : Fits s size)
    (guid : EfiGuid) : ListsAll env s size guid ↔ OneShown s ∧ StartsFirst s := by
  obtain ⟨first, hm, hd, hfi, hs⟩ := start_cases hboot hnamed hf guid
  have hc := Listing.complete_iff
    (fun key hk => (follows_iff hboot hnamed hsingle hf hk).1)
    (fun key hk => (follows_iff hboot hnamed hsingle hf hk).2) hm hd hfi
  rw [ListsAll, ← nodup_listedKeys_iff hboot hnamed, ← hs, ← hc]
  simp only [mem_listedKeys_iff hboot hnamed]

end Boot

/-- **When the listing is complete.** At boot time, with a buffer that takes every name, the service
lists every variable once, and no variable has two shown entries in transition in one store, exactly
when no variable has two shown entries at all and the first store in use does not start with an
entry in transition that has no added twin. -/
theorem listsAll_iff (env : Env) (s : VarState) (size : ℕ) (guid : EfiGuid)
    (hboot : env.atRuntime = false) (hnamed : Named s) (hfits : Fits s size) :
    ListsAll env s size guid ∧ SingleTransition s ↔ OneShown s ∧ StartsFirst s := by
  constructor
  · rintro ⟨hl, hsingle⟩
    exact (listsAll_iff_of_single hboot hnamed hsingle hfits guid).mp hl
  · intro hc
    have hsingle := hc.1.singleTransition
    exact ⟨(listsAll_iff_of_single hboot hnamed hsingle hfits guid).mpr hc, hsingle⟩

/-! ## A variable that is not listed -/

/-- A platform with room for 100 bytes of non-volatile variables, at boot time. -/
def smallEnv : Env where
  authFormat := false
  emuNvMode := false
  fvbReady := true
  atRuntime := false
  endOfDxe := false
  volatileSize := 4096
  nvSize := 4096
  hwErrStorageSize := 0
  commonVariableSpace := 100
  commonRuntimeVariableSpace := 100
  commonMaxUserVariableSpace := 100
  maxAuthVariableSize := 1024
  maxVariableSize := 1024
  maxVolatileVariableSize := 1024
  maxHardwareErrorVariableSize := 1024
  hasProperty := fun _ => true
  accessOk := fun _ => true

def emptyState : VarState where
  volatileStore := []
  hobStore := none
  nvStore := []
  volatileLastVariableOffset := variableStoreHeaderSize
  hwErrVariableTotalSize := 0
  commonVariableTotalSize := 0
  commonUserVariableTotalSize := 0
  currentBootVarErrFlag := 0xFF
  accesses := 0

/-- A call of `UpdateVariable` with the search its caller makes. -/
def update (env : Env) (s : VarState) (args : UpdateArgs) : Outcome :=
  updateVariable env s args (findVariable env s args.key true)

/-- The variables `X` and `Y`. -/
def sampleX : VarKey := ([0x58], List.replicate 16 0)
def sampleY : VarKey := ([0x59], List.replicate 16 0)

/-- Sets a non-volatile variable to `n` bytes. -/
def setBytes (key : VarKey) (n : ℕ) : UpdateArgs :=
  ⟨key, List.replicate n 1, efiVariableNonVolatile ||| efiVariableBootserviceAccess, none⟩

/-- The stores after `X` and `Y` were set, and `X` once more to a value that does not fit: that
update fails and leaves `X` in transition. -/
def stuckState : VarState :=
  (update smallEnv (update smallEnv (update smallEnv emptyState (setBytes sampleX 4)).state
    (setBytes sampleY 4)).state (setBytes sampleX 30)).state

/-- After the failed update `X` is found and not listed: the listing starts at `Y`, behind it. -/
theorem not_listsAll :
    Run (fun s args s' => s' = (update smallEnv s args).state) emptyState
        [setBytes sampleX 4, setBytes sampleY 4, setBytes sampleX 30] stuckState ∧
      Named stuckState ∧ Fits stuckState 64 ∧ (lookup smallEnv stuckState sampleX).isSome = true ∧
      ¬ ListsAll smallEnv stuckState 64 [] := by
  have hv : stuckState.volatileStore = [] := by decide +kernel
  have hh : stuckState.hobStore = none := by decide +kernel
  have ha : ∀ store, ∀ r ∈ stuckState.records store, r.key.1 ≠ [] ∧ strSize r.key.1 ≤ 64 := by
    intro store r hr
    cases store with
    | volatile => simp [records, hv] at hr
    | hob => simp [records, hh] at hr
    | nv =>
      revert r
      decide
  refine ⟨.cons rfl (.cons rfl (.cons rfl (.nil _))), fun store r hr _ => (ha store r hr).1,
    ⟨by decide, fun store r hr _ => (ha store r hr).2⟩, by decide +kernel, ?_⟩
  rintro ⟨keys, hk, -, hmem⟩
  have hf : getNextVariableName smallEnv stuckState 64 ([], []) = (.success, 4, sampleY) := by
    decide +kernel
  have hnext : getNextVariableName smallEnv stuckState 64 sampleY = (.notFound, 64, sampleY) := by
    decide +kernel
  have hX : sampleX ∈ keys := (hmem sampleX).mpr ⟨by decide, by decide +kernel⟩
  cases hk with
  | done hd =>
    cases hd
  | more hm hre =>
    obtain ⟨size', hm⟩ := hm
    obtain rfl : sampleY = _ := congrArg (fun x => x.2.2) (hf.symm.trans hm)
    cases hre with
    | done hd =>
      revert hX
      decide
    | more hm _ =>
      obtain ⟨size'', hm⟩ := hm
      cases congrArg Prod.fst (hnext.symm.trans hm)

/-- `X` and, in transition behind it, `Y` are volatile; `Z` is in the HOB store and in the
non-volatile one, where an update of `W` was cut off before it deleted the old value. -/
def mixedState : VarState :=
  { emptyState with
    volatileStore := [entry varAdded sampleX, entry (varInDeletedTransition &&& varAdded) sampleY]
    hobStore := some [entry varAdded ([0x5A], List.replicate 16 0)]
    nvStore := [entry varAdded ([0x5A], List.replicate 16 0),
      entry (varInDeletedTransition &&& varAdded) ([0x57], List.replicate 16 0),
      entry varAdded ([0x57], List.replicate 16 0)] }
where
  entry (state : BitVec 8) (key : VarKey) : VarRecord :=
    ⟨state, efiVariableBootserviceAccess, .zero, key, [1]⟩

/-- The listing of the mixed stores is complete. -/
theorem listsAll_iff_mixedState :
    ListsAll smallEnv mixedState 64 [] ∧ SingleTransition mixedState := by
  have ha : ∀ store, ∀ r ∈ mixedState.records store, r.key.1 ≠ [] ∧ strSize r.key.1 ≤ 64 := by
    intro store
    cases store with
    | volatile => decide +kernel
    | hob => decide +kernel
    | nv => decide +kernel
  have ho : OneShown mixedState := by
    unfold OneShown
    decide +kernel
  refine (listsAll_iff smallEnv mixedState 64 [] rfl (fun store r hr _ => (ha store r hr).1)
    ⟨by decide, fun store r hr _ => (ha store r hr).2⟩).mpr ⟨ho, ?_⟩
  intro store hb pre r post hl hr _
  cases store with
  | volatile =>
    -- the first entry is added, so any other one comes after an added entry
    cases pre with
    | nil =>
      obtain ⟨rfl, -⟩ := List.cons.inj hl
      cases hr
    | cons x pre =>
      obtain ⟨rfl, -⟩ := List.cons.inj hl
      exact .inl ⟨_, mem_cons_self, rfl⟩
  | hob => cases hb _ mem_cons_self
  | nv => cases hb _ mem_cons_self

end Service

end Edk2.Var
