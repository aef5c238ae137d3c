import Edk2.Var.Effect

/-!
# An update as a whole, with the HOB store

Variables that an earlier phase of the boot left in the HOB store override those of the non-volatile
store. The first update of a non-volatile entry that succeeds flushes them: each is written like any
other variable, the one updated is dropped, and where all could be written the store goes.

## Main results

* `updateVariable_keeps`: an update leaves the other variables alone, unless it flushes them
* `updateSpec_updateVariable`: an update does what `applied` says to the variable, and the HOB store
  no longer overrides it
* `UpdateSpec.current_cases`: the value of the variable after an update
-/

namespace Edk2.Var

open List Option VarState VarRecord UpdateArgs

variable {env : Env} {s s' s'' : VarState} {key key' : VarKey} {store store' : StoreType}
  {l : List VarRecord} {track : PointerTrack} {new : VarRecord} {args : UpdateArgs}

def variableExLibUpdateVariable (env : Env) (s : VarState) (args : UpdateArgs) : Outcome :=
  updateVariable env s args (findVariable env s args.key false)

/-! ## Search results -/

variable {i : ℕ} {ignoreRtCheck : Bool} {r : VarRecord} {o : UpdateOutcome}

theorem Found.inDeleted {sought : VarRecord → Bool} {c : Option ℕ}
    (h : Found sought l (c, some i)) : ∃ r, l[i]? = some r ∧ sought r = true := by
  cases h with
  | @added pre post r d hl _ _ hd =>
    cases hd with
    | @present pre₁ mid t ht _ => exact ⟨t, by simp [hl], ht.2⟩

theorem pointsTo_findVariableEx (hk : key.1 ≠ []) (hs : store ≠ .hob) :
    PointsTo s key (findVariableEx env ignoreRtCheck key store (s.records store)) := by
  have hf := findVariableEx_found env ignoreRtCheck key store (s.records store)
  refine ⟨hs, fun i r hi hr => ?_, fun i r hi hr => ?_⟩
  · rw [hi] at hf
    obtain ⟨r', hr', -, hm⟩ := hf.getElem?
    rw [some.inj (hr.symm.trans hr')]
    exact matchesKey_key hk hm
  · rw [hi] at hf
    obtain ⟨r', hr', hm⟩ := hf.inDeleted
    rw [some.inj (hr.symm.trans hr')]
    exact matchesKey_key hk hm

/-- A search points to entries of the variable. -/
theorem pointsTo_findVariable (hk : key.1 ≠ []) (hs : s.hobStore = none) :
    PointsTo s key (findVariable env s key ignoreRtCheck) := by
  obtain ⟨store, heq, hc⟩ := findVariable_cases env s key ignoreRtCheck
  rw [heq]
  refine pointsTo_findVariableEx hk ?_
  rintro rfl
  rcases hc with ⟨hst, -⟩ | ⟨-, -, x, hx, -⟩ | ⟨hst, -⟩
  · cases hst
  · simp [records, hs] at hx
  · cases hst

/-! ## Changes of the HOB store -/

/-- The change adds nothing to the HOB store: its entries are entries of before, or no longer live.
-/
structure HobFrom (s s' : VarState) : Prop where
  absent : s.hobStore = none → s'.hobStore = none
  mem : ∀ r' ∈ s'.records .hob, ∃ r ∈ s.records .hob, r'.key = r.key ∧
    (r'.state = r.state ∨ r'.isLive = false)

namespace HobFrom

theorem of_eq (h : s'.hobStore = s.hobStore) : HobFrom s s' where
  absent := fun hs => h.trans hs
  mem := fun r' hr' => ⟨r', by rwa [records, h] at hr', rfl, .inl rfl⟩

theorem refl : HobFrom s s := of_eq rfl

theorem trans (h : HobFrom s s') (h' : HobFrom s' s'') : HobFrom s s'' where
  absent := fun hs => h'.absent (h.absent hs)
  mem := fun r'' hr'' => by
    obtain ⟨r', hr', hk', hs'⟩ := h'.mem r'' hr''
    obtain ⟨r, hr, hk, hst⟩ := h.mem r' hr'
    refine ⟨r, hr, hk'.trans hk, ?_⟩
    rcases hs' with hs' | hdead
    · rcases hst with hst | hdead
      · exact .inl (hs'.trans hst)
      · refine .inr ?_
        rwa [isLive, isAdded, isInTransition, hs']
    · exact .inr hdead

theorem liveOf_eq_nil (h : HobFrom s s') (hnil : liveOf key (s.records .hob) = []) :
    liveOf key (s'.records .hob) = [] := by
  refine liveOf_eq_nil_iff.mpr fun r' hr' hk' => ?_
  obtain ⟨r, hr, hk, hs | hdead⟩ := h.mem r' hr'
  · have hr := liveOf_eq_nil_iff.mp hnil r hr (hk ▸ hk')
    rwa [isAdded, isInTransition, hs]
  · simpa [isLive] using hdead

end HobFrom

/-- The added entries of the HOB store have names. -/
def HobNamed (s : VarState) : Prop := ∀ r ∈ s.records .hob, r.isAdded = true → r.key.1 ≠ []

theorem HobFrom.named (h : HobFrom s s') (hn : HobNamed s) : HobNamed s' := by
  intro r' hr' ha
  obtain ⟨r, hr, hk, hs | hdead⟩ := h.mem r' hr'
  · rw [hk]
    refine hn r hr ?_
    rwa [isAdded, ← hs]
  · rw [isLive, ha] at hdead
    cases hdead

theorem hobStore_updateState {mask : BitVec 8} (h : store ≠ .hob) :
    (updateState env s store i mask).state.hobStore = s.hobStore := by
  rcases updateState_cases env s store i mask with ho | ho
  · rw [ho]
    rfl
  · rw [ho, hobStore_setRecords h]
    rfl

theorem hobStore_deleteFound (h : track.store ≠ .hob) :
    (deleteFound env s track).state.hobStore = s.hobStore :=
  deleteFound_marks (R := fun s s' => s'.hobStore = s.hobStore) (fun _ => rfl)
    (fun _ _ _ h₁₂ h₂₃ => h₂₃.trans h₁₂) fun _ _ _ => hobStore_updateState h

theorem hobStore_writeNew (h : track.store ≠ .hob) (hs : store ≠ .hob) :
    (writeNew env s track store new).state.hobStore = s.hobStore := by
  obtain ⟨s₁, -, hh, ho | ho⟩ := writeNew_cases env s track store new
  · rw [ho]
    exact hh
  · rw [ho]
    refine (hobStore_deleteFound h).trans ?_
    rw [withNew, hobStore_countNew, hobStore_setRecords hs, hh]

theorem hobStore_reclaim (hs : store ≠ .hob) :
    (reclaim env s store track new).state.hobStore = s.hobStore := by
  rcases reclaim_cases env s store track new with ⟨-, -, hh⟩ | ho
  · exact hh
  · rw [ho, hobStore_recount, hobStore_setRecords hs]
    rfl

theorem hobFrom_setRecords_modify {f : VarRecord → VarRecord}
    (hr : (s.records store)[i]? = some r) (hf : ∀ r, (f r).key = r.key ∧ (f r).state = r.state) :
    HobFrom s (s.setRecords store ((s.records store).modify i f)) := by
  by_cases hst : store = .hob
  swap
  · exact .of_eq (hobStore_setRecords hst)
  subst hst
  refine ⟨fun hs => ?_, fun r' hr' => ?_⟩
  · simp [records, hs] at hr
  · rw [records_setRecords_hob _ _ (ne_nil_of_mem (mem_of_getElem? hr))] at hr'
    obtain ⟨j, hj⟩ := List.getElem?_of_mem hr'
    rw [List.getElem?_modify] at hj
    obtain ⟨r₀, hr₀, rfl⟩ := map_eq_some_iff.mp hj
    refine ⟨r₀, mem_of_getElem? hr₀, ?_⟩
    split_ifs
    · exact ⟨(hf r₀).1, .inl (hf r₀).2⟩
    · exact ⟨rfl, .inl rfl⟩

theorem hobFrom_recordVarErrorFlag {flag : UInt8} :
    HobFrom s (recordVarErrorFlag env s flag) := by
  rcases recordVarErrorFlag_cases env s flag with ⟨-, hh⟩ |
    ⟨i, r, store, data, hr, hrk, -, ho⟩
  · exact .of_eq hh
  · rw [ho]
    exact (HobFrom.of_eq hobStore_accessed).trans
      (hobFrom_setRecords_modify hr fun _ => ⟨rfl, rfl⟩)

theorem hobFrom_recordSpaceErrors {space : ℕ} :
    HobFrom s (recordSpaceErrors env s space new) := by
  unfold recordSpaceErrors
  dsimp only
  split_ifs
  · exact hobFrom_recordVarErrorFlag.trans hobFrom_recordVarErrorFlag
  · exact hobFrom_recordVarErrorFlag
  · exact hobFrom_recordVarErrorFlag
  · exact .refl

theorem CreateSteps.hobFrom (h : CreateSteps env s args track new o)
    (ht : track.store ≠ .hob) : HobFrom s o.state := by
  cases h with
  | full => exact hobFrom_recordSpaceErrors
  | reclaimFailed =>
    exact (HobFrom.of_eq (hobStore_reclaim (by decide))).trans hobFrom_recordSpaceErrors
  | reclaimed | reclaimedVolatile => exact .of_eq (hobStore_reclaim (by decide))
  | written => exact .of_eq (hobStore_writeNew ht store_ne_hob)

/-- An update adds nothing to the HOB store. -/
theorem hobFrom_updateFound (ht : track.store ≠ .hob) :
    HobFrom s (updateFound env s args track).state := by
  have hs := updateSteps_updateFound env s args track
  generalize updateFound env s args track = o at hs
  cases hs with
  | rejected | unchanged | nothing => exact .refl
  | deleted => exact .of_eq (hobStore_deleteFound ht)
  | markFailed => exact .of_eq (hobStore_updateState ht)
  | replaced =>
    exact (HobFrom.of_eq (hobStore_updateState ht)).trans
      ((createSteps_createNew ..).hobFrom ht)
  | created => exact (createSteps_createNew ..).hobFrom ht

/-! ## The flush -/

/-- The entries of the HOB store after a flush for the variable. -/
structure FlushedFrom (key : VarKey) (l l' : List VarRecord) : Prop where
  mem : ∀ r' ∈ l', ∃ r ∈ l, r'.key = r.key ∧ (r' = r ∨ r'.isLive = false)
  dropped : ∀ r' ∈ l', r'.key = key → r'.isAdded = false

theorem FlushedFrom.cons {r' : VarRecord} {l' : List VarRecord} (h : FlushedFrom key l l')
    (hk : r'.key = r.key) (hs : r' = r ∨ r'.isLive = false)
    (hd : r'.key = key → r'.isAdded = false) : FlushedFrom key (r :: l) (r' :: l') where
  mem := fun x hx => by
    rcases mem_cons.mp hx with rfl | hx
    · exact ⟨r, by simp, hk, hs⟩
    · obtain ⟨y, hy, hxy⟩ := h.mem x hx
      exact ⟨y, mem_cons_of_mem _ hy, hxy⟩
  dropped := fun x hx => by
    rcases mem_cons.mp hx with rfl | hx
    · exact hd
    · exact h.dropped x hx

theorem VarRecord.isLive_of_isAdded (h : r.isAdded = true) : r.isLive = true :=
  isLive_iff.mpr (.inl h)

/-- **A flush leaves the variables alone that it does not write.** -/
theorem flushLoop_spec (env : Env) (key : VarKey) (l : List VarRecord)
    (hna : ∀ r ∈ l, r.isAdded = true → r.key.1 ≠ []) (hs : s.hobStore = none) :
    (flushLoop env key l s).2.1.hobStore = none ∧ FlushedFrom key l (flushLoop env key l s).1 ∧
      ∀ key', key' ≠ varErrorFlagKey →
        (∀ r ∈ l, r.isAdded = true → r.key = key' → r.key = key) →
        KeepsAll key' s (flushLoop env key l s).2.1 := by
  induction l generalizing s with
  | nil => exact ⟨hs, ⟨fun _ h => absurd h not_mem_nil, fun _ h => absurd h not_mem_nil⟩,
      fun _ _ _ => .refl⟩
  | cons r rest ih =>
    have hr : ∀ r ∈ rest, r.isAdded = true → r.key.1 ≠ [] := fun x hx =>
      hna x (mem_cons_of_mem _ hx)
    unfold flushLoop
    by_cases ha : r.isAdded = true
    swap
    · rw [if_pos (by simpa using ha)]
      obtain ⟨hnone, hf, hke⟩ := ih hr hs
      refine ⟨hnone, hf.cons rfl (.inl rfl) fun _ => by simpa using ha, ?_⟩
      exact fun key' he hke' => hke key' he fun x hx =>
        hke' x (mem_cons_of_mem _ hx)
    rw [if_neg (by simp [ha])]
    by_cases hk : r.key = key
    · -- The variable updated is only dropped.
      simp only [if_pos hk]
      obtain ⟨hnone, hf, hke⟩ := ih hr hs
      have hdead := isLive_clearState_deleted (isLive_of_isAdded ha)
      refine ⟨hnone, hf.cons rfl (.inr hdead) fun _ => ?_, ?_⟩
      · simpa [isLive] using (Bool.or_eq_false_iff.mp hdead).1
      · exact fun key' he hke' => hke key' he fun x hx =>
          hke' x (mem_cons_of_mem _ hx)
    simp only [if_neg hk]
    have hn := hna r (by simp) ha
    have hh : (flushRecord env s r).state.hobStore = none := by
      unfold flushRecord
      dsimp only
      split_ifs
      · exact hs
      · exact (hobFrom_updateFound (pointsTo_findVariable hn hs).store).absent hs
    obtain ⟨hnone, hf, hke⟩ := ih hr hh
    have hk' : ∀ key', key' ≠ varErrorFlagKey →
        (∀ x ∈ r :: rest, x.isAdded = true → x.key = key' → x.key = key) →
        KeepsAll key' s (flushLoop env key rest (flushRecord env s r).state).2.1 := by
      intro key' he hke'
      have hne : key' ≠ r.key := fun heq => hk (hke' r (by simp) ha heq.symm)
      refine KeepsAll.trans ?_ (hke key' he fun x hx => hke' x (mem_cons_of_mem _ hx))
      unfold flushRecord
      dsimp only
      split_ifs
      · exact .refl
      · exact updateFound_keeps (pointsTo_findVariable hn hs) hne he
    split_ifs
    · exact ⟨hnone, hf.cons rfl (.inl rfl) fun heq => absurd heq hk, hk'⟩
    · have hdead := isLive_clearState_deleted (isLive_of_isAdded ha)
      exact ⟨hnone, hf.cons rfl (.inr hdead) fun heq => absurd heq hk, hk'⟩

/-- What a flush leaves of a variable that it does not write. -/
structure FlushSpec (key : VarKey) (s s' : VarState) : Prop where
  hobFrom : HobFrom s s'
  dropped : (∀ r ∈ liveOf key (s.records .hob), r.isAdded = true) →
    liveOf key (s'.records .hob) = []
  keeps : ∀ key', key' ≠ varErrorFlagKey → (key' = key ∨ liveOf key' (s.records .hob) = []) →
    ∀ store, store ≠ .hob → Keeps key' (s.records store) (s'.records store)

theorem records_none_of_ne (h : store ≠ .hob) :
    ({ s with hobStore := none } : VarState).records store = s.records store := by
  cases store <;> first | rfl | exact absurd rfl h

/-- **What a flush does.** -/
theorem flushSpec_flushHobVariableToFlash (env : Env) (key : VarKey) (hna : HobNamed s) :
    FlushSpec key s (flushHobVariableToFlash env s key) := by
  unfold flushHobVariableToFlash
  split
  · rename_i hnone
    have hnil : s.records .hob = [] := by simp [records, hnone]
    exact ⟨.refl, fun _ => by rw [hnil]; rfl, fun _ _ _ _ _ => .refl⟩
  · rename_i l hso
    have hre : s.records .hob = l := by simp [records, hso]
    rw [HobNamed, hre] at hna
    obtain ⟨hnone, hf, hk⟩ :=
      flushLoop_spec (s := { s with hobStore := none }) env key l hna rfl
    generalize flushLoop env key l { s with hobStore := none } = flushed at hnone hf hk
    have hh : ∀ key', key' ≠ varErrorFlagKey →
        (key' = key ∨ liveOf key' (s.records .hob) = []) → ∀ store, store ≠ .hob →
        Keeps key' (s.records store) (flushed.2.1.records store) := by
      intro key' he hk' store hsto
      have hke := hk key' he (fun r hr ha heq => ?_) store
      · rwa [records_none_of_ne hsto] at hke
      · rcases hk' with rfl | hnil
        · exact heq
        · rw [hre] at hnil
          have := (liveOf_eq_nil_iff.mp hnil r hr heq).1
          rw [ha] at this
          cases this
    dsimp only
    split_ifs
    · refine ⟨⟨fun hs => by simp [hso] at hs, ?_⟩, fun ha => ?_, fun key' he hk' store hst =>
        ?_⟩
      · intro r' hr'
        obtain ⟨r, hr, hrk, hsta⟩ := hf.mem r' hr'
        exact ⟨r, by rwa [hre], hrk, hsta.imp_left fun h => by rw [h]⟩
      · refine liveOf_eq_nil_iff.mpr fun r' hr' hr'key => ?_
        have hn := hf.dropped r' hr' hr'key
        refine ⟨hn, ?_⟩
        obtain ⟨r, hr, hrk, rfl | hdead⟩ := hf.mem r' hr'
        · by_contra htrans
          have hl : r'.isLive = true := isLive_iff.mpr (.inr (by simpa using htrans))
          have := ha r' (mem_liveOf.mpr ⟨by rwa [hre], hl, hr'key⟩)
          rw [hn] at this
          cases this
        · exact (Bool.or_eq_false_iff.mp hdead).2
      · have hke := hh key' he hk' store hst
        cases store <;> first | exact hke | exact absurd rfl hst
    · have hnil : flushed.2.1.records .hob = [] := by simp [records, hnone]
      refine ⟨⟨fun hs => by simp [hso] at hs, fun r' hr' => ?_⟩, fun _ => by rw [hnil]; rfl, hh⟩
      rw [hnil] at hr'
      cases hr'

/-! ## How an update goes -/

/-- How an update from a search of its own goes. -/
inductive LibSteps (env : Env) (s : VarState) (args : UpdateArgs) : Outcome → Prop
  | notReady : LibSteps env s args ⟨.notAvailableYet, s⟩
  | hobOnly : ¬ Holds env false args.key (s.records .volatile) →
      Holds env false args.key (s.records .hob) → ¬ Holds env false args.key (s.records .nv) →
      (args.isAppend = false ∧ args.data = []) ∨ args.attributes = 0#32 →
      LibSteps env s args ⟨.success, flushHobVariableToFlash env s args.key⟩
  | found {store : StoreType} : store ≠ .hob →
      (store = .volatile ↔ Holds env false args.key (s.records .volatile)) →
      LibSteps env s args ((updateFound env s args
        (findVariableEx env false args.key store (s.records store))).finish env args.key)

/-- Every call goes one of these ways. -/
theorem libSteps_variableExLibUpdateVariable (env : Env) (s : VarState) (args : UpdateArgs) :
    LibSteps env s args (variableExLibUpdateVariable env s args) := by
  obtain ⟨store, heq, hc⟩ := findVariable_cases env s args.key false
  unfold variableExLibUpdateVariable updateVariable
  rw [heq]
  by_cases hr : notWritable env args = true
  · rw [if_pos hr]
    exact .notReady
  rw [if_neg hr]
  rcases hc with ⟨rfl, hv⟩ | ⟨rfl, hv, hh⟩ | ⟨rfl, hv, -⟩
  · rw [if_neg (by simp)]
    exact .found (by decide) (iff_of_true rfl hv)
  · rw [if_pos (by simpa using findVariableEx_isSome_iff.mpr hh)]
    dsimp only
    split_ifs with hempty
    · rw [Bool.and_eq_true] at hempty
      refine .hobOnly hv hh (fun hnv => ?_) (by simpa using hempty.2)
      have hs : (findVariableEx env false args.key .nv (s.records .nv)).currPtr.isSome = true :=
        findVariableEx_isSome_iff.mpr hnv
      rw [Option.isNone_iff_eq_none] at hempty
      rw [hempty.1] at hs
      cases hs
    · exact .found (by decide) (iff_of_false (by decide) hv)
  · rw [if_neg (by simp)]
    exact .found (by decide) (iff_of_false (by decide) hv)

theorem UpdateOutcome.finish_state (o : UpdateOutcome) :
    (o.finish env key).state = if o.flush then flushHobVariableToFlash env o.state key
      else o.state := rfl

/-- A flush keeps the other variables. -/
theorem FlushSpec.keepsAll (h : FlushSpec key s s') (he : key' ≠ varErrorFlagKey)
    (hh : liveOf key' (s.records .hob) = []) : KeepsAll key' s s' := by
  intro store
  by_cases hs : store = .hob
  · subst hs
    exact .of_liveOf_eq (by rw [h.hobFrom.liveOf_eq_nil hh, hh])
  · exact h.keeps key' he (.inr hh) store hs

/-- **An update leaves the other variables alone**, unless it flushes them from the HOB store. -/
theorem updateVariable_keeps (hke : args.key.1 ≠ []) (hn : HobNamed s)
    (hne : key' ≠ args.key) (he : key' ≠ varErrorFlagKey)
    (hh : liveOf key' (s.records .hob) = []) :
    KeepsAll key' s (variableExLibUpdateVariable env s args).state := by
  have hs := libSteps_variableExLibUpdateVariable env s args
  generalize variableExLibUpdateVariable env s args = o at hs
  cases hs with
  | notReady => exact .refl
  | hobOnly => exact (flushSpec_flushHobVariableToFlash env args.key hn).keepsAll he hh
  | @found store hst =>
    have hp : PointsTo s args.key (findVariableEx env false args.key store
        (s.records store)) := pointsTo_findVariableEx hke hst
    have hk : KeepsAll key' s (updateFound env s args _).state :=
      updateFound_keeps hp hne he
    have hf : HobFrom s (updateFound env s args _).state :=
      hobFrom_updateFound hp.store
    rw [UpdateOutcome.finish_state]
    split_ifs
    · exact hk.trans ((flushSpec_flushHobVariableToFlash env args.key
        (hf.named hn)).keepsAll he (hf.liveOf_eq_nil hh))
    · exact hk

theorem hobFrom_updateVariable (hn : HobNamed s) :
    HobFrom s (variableExLibUpdateVariable env s args).state := by
  have hs := libSteps_variableExLibUpdateVariable env s args
  generalize variableExLibUpdateVariable env s args = o at hs
  cases hs with
  | notReady => exact .refl
  | hobOnly => exact (flushSpec_flushHobVariableToFlash env args.key hn).hobFrom
  | @found store hst =>
    have hf : HobFrom s (updateFound env s args
        (findVariableEx env false args.key store (s.records store))).state :=
      hobFrom_updateFound hst
    rw [UpdateOutcome.finish_state]
    split_ifs
    · exact hf.trans (flushSpec_flushHobVariableToFlash env args.key
        (hf.named hn)).hobFrom
    · exact hf

/-! ## The variable updated -/

theorem UpdateArgs.store_eq_nv_iff : args.store = .nv ↔ args.isNonVolatile = true := by
  unfold store
  split_ifs with h <;> simp [h]

/-- A non-volatile variable is flushed on success. -/
theorem CreateSteps.flush_iff (h : CreateSteps env s args track new o) :
    o.flush = true ↔ o.status = .success ∧ args.isNonVolatile = true := by
  cases h with
  | full => simp
  | reclaimFailed _ hf => simp [EfiStatus.isError_eq_true.mp hf]
  | reclaimed hnv hok => simp [hnv, EfiStatus.isError_eq_false.mp hok]
  | reclaimedVolatile hv => simp [hv]
  | written =>
    obtain ⟨s₁, -, -, ho | ho⟩ := writeNew_cases env s track args.store new
    · simp [ho]
    · simp [ho, EfiStatus.isError_eq_false, store_eq_nv_iff]

/-- A flush follows a success only. -/
theorem status_of_flush (hf : (updateFound env s args track).flush = true) :
    (updateFound env s args track).status = .success := by
  have hs := updateSteps_updateFound env s args track
  generalize updateFound env s args track = o at hs hf
  cases hs with
  | rejected => cases hf
  | unchanged => rfl
  | nothing => rfl
  | deleted =>
    rw [← EfiStatus.isError_eq_false]
    simpa using (Bool.and_eq_true_iff.mp hf).1
  | markFailed => cases hf
  | replaced | created => exact ((createSteps_createNew ..).flush_iff.mp hf).1

theorem flush_of_success (hin : InStore track args.store) (hnv : args.isNonVolatile = true)
    (hti : args.timeStamp ≠ none) (hd : ¬ (args.data = [] ∧ args.isAppend = true))
    (hsu : (updateFound env s args track).status = .success) :
    (updateFound env s args track).flush = true := by
  have hs := updateSteps_updateFound env s args track
  generalize updateFound env s args track = o at hs hsu
  cases hs with
  | @rejected status hst =>
    obtain rfl : status = .success := hsu
    simp at hst
  | unchanged _ _ _ _ _ hnone => exact absurd hnone hti
  | nothing _ hempty ha => exact absurd ⟨hempty, ha⟩ hd
  | @deleted i old hc =>
    have ht : track.store = .nv := by
      rw [hin.curr (by simp [hc]), store, if_pos hnv]
    rw [← EfiStatus.isError_eq_false] at hsu
    simp [ht, hsu]
  | markFailed _ _ hf =>
    rw [show _ = EfiStatus.success from hsu] at hf
    cases hf
  | replaced | created => exact (createSteps_createNew ..).flush_iff.mpr ⟨hsu, hnv⟩

theorem flush_of_idle (hf : track.found s = none) (hd : args.data = []) :
    (updateFound env s args track).flush = false := by
  have hst := updateSteps_updateFound env s args track
  generalize updateFound env s args track = o at hst
  cases hst with
  | rejected => rfl
  | unchanged => rfl
  | nothing => rfl
  | deleted _ hs => rw [hf] at hs; cases hs
  | markFailed => rfl
  | replaced _ hs => rw [hf] at hs; cases hs
  | created _ hne => exact absurd hd hne

/-- A search by name sees every live entry of the variable. -/
structure Visible (env : Env) (s : VarState) (key : VarKey) : Prop where
  named : key.1 ≠ []
  attributes : env.atRuntime = true → ∀ store, ∀ r ∈ liveOf key (s.records store),
    hasAttribute r.attributes efiVariableRuntimeAccess = true

/-- A variable as the driver keeps it, for calls that name the store: its live entries are in that
store, tracked, or in the HOB store, and a search sees them. -/
structure Ready (env : Env) (s : VarState) (key : VarKey) (store : StoreType) : Prop
    extends Visible env s key where
  notFlag : key ≠ varErrorFlagKey
  tracked : Tracked key (s.records store)
  home : ∀ store', store' ≠ store → store' ≠ .hob → liveOf key (s.records store') = []
  hobHome : store = .nv ∨ liveOf key (s.records .hob) = []
  hobSingle : Single key (s.records .hob)
  hobAdded : ∀ r ∈ liveOf key (s.records .hob), r.isAdded = true
  hobNamed : HobNamed s

/-- **What an update makes of a variable.** -/
structure UpdateSpec (env : Env) (s : VarState) (args : UpdateArgs) (status : EfiStatus)
    (s' : VarState) : Prop where
  rejected : status ∉ [.success, .outOfResources, .deviceError] → s' = s
  success : status = .success →
    valueOf args.key (s'.records args.store) =
        applied env args (valueOf args.key (s.records args.store)) ∧
      Tracked args.key (s'.records args.store)
  hobCleared : status = .success → ¬ (args.data = [] ∧ args.isAppend = true) →
    liveOf args.key (s'.records .hob) = []
  failed : status ≠ .success →
    (valueOf args.key (s'.records args.store) = valueOf args.key (s.records args.store) ∨
        (¬ ∀ n, env.accessOk n = true) ∧ valueOf args.key (s'.records args.store) =
          applied env args (valueOf args.key (s.records args.store))) ∧
      liveOf args.key (s'.records .hob) = liveOf args.key (s.records .hob)
  ordered : Ordered args.key (s'.records args.store)
  home : ∀ store, store ≠ args.store → store ≠ .hob → liveOf args.key (s'.records store) = []
  hob : liveOf args.key (s'.records .hob) = liveOf args.key (s.records .hob) ∨
    liveOf args.key (s'.records .hob) = []
  idle : valueOf args.key (s.records args.store) = none → args.data = [] → args.isAppend = true →
    s' = s
  absent : valueOf args.key (s.records args.store) = none →
    liveOf args.key (s.records .hob) = [] → args.data = [] → args.isAppend = false →
    status ≠ .success

namespace Visible

theorem sees (h : Visible env s key) (store : StoreType) :
    Sees (matchesKey env false key) key (s.records store) := by
  intro r hr hl
  refine ⟨matchesKey_key h.named, fun hk => ?_⟩
  have hrt : (!env.atRuntime || hasAttribute r.attributes efiVariableRuntimeAccess) = true := by
    cases hru : env.atRuntime with
    | false => rfl
    | true => exact h.attributes hru store r (mem_liveOf.mpr ⟨hr, hl, hk⟩)
  simp [matchesKey, hk] at hrt ⊢
  exact hrt

theorem holds_iff (h : Visible env s key) (store : StoreType) :
    Holds env false key (s.records store) ↔ liveOf key (s.records store) ≠ [] := by
  constructor
  · rintro ⟨x, hx, hl, hm⟩ hnil
    have := mem_liveOf.mpr ⟨hx, hl, matchesKey_key h.named hm⟩
    rw [hnil] at this
    cases this
  · intro hne
    obtain ⟨x, hx⟩ := exists_mem_of_ne_nil _ hne
    obtain ⟨hx, hl, hk⟩ := mem_liveOf.mp hx
    exact ⟨x, hx, hl, ((h.sees store) x hx hl).mpr hk⟩

/-- What is found has the value of the variable. -/
theorem found_eq (h : Visible env s key) (ho : Ordered key (s.records store)) :
    ((findVariableEx env false key store (s.records store)).found s).map asAdded =
      valueOf key (s.records store) := by
  have hf := findVariableEx_found env false key store (s.records store)
  rw [valueOf, ← getElem?_of_found hf (h.sees store) ho]
  rfl

end Visible

/-- The value of a variable: that of the first store that has it. -/
def current (s : VarState) (key : VarKey) : Option VarRecord :=
  (valueOf key (s.records .volatile)).or
    ((valueOf key (s.records .hob)).or (valueOf key (s.records .nv)))

theorem valueOf_eq_none_iff : valueOf key l = none ↔ liveOf key l = [] := by
  simp [valueOf]

/-- **A search of all stores finds the value of the variable.** -/
theorem lookup_eq_current (h : Visible env s key)
    (ho : ∀ store, Ordered key (s.records store)) :
    (lookup env s key).map asAdded = current s key := by
  obtain ⟨store, heq, hc⟩ := findVariable_cases env s key false
  have hnone : ∀ store, ¬ Holds env false key (s.records store) →
      valueOf key (s.records store) = none := by
    intro store hn
    rw [h.holds_iff, not_not] at hn
    exact valueOf_eq_none_iff.mpr hn
  have hs : ∀ store, Holds env false key (s.records store) →
      ∃ r, valueOf key (s.records store) = some r := by
    intro store hho
    rw [← ne_none_iff_exists', ne_eq, valueOf_eq_none_iff]
    exact (h.holds_iff store).mp hho
  rw [lookup, heq, h.found_eq (ho store), current]
  rcases hc with ⟨rfl, hv⟩ | ⟨rfl, hv, hh⟩ | ⟨rfl, hv, hh⟩
  · obtain ⟨r, hr⟩ := hs _ hv
    rw [hr, some_or]
  · obtain ⟨r, hr⟩ := hs _ hh
    rw [hnone _ hv, hr, none_or, some_or]
  · rw [hnone _ hv, hnone _ hh, none_or, none_or]

theorem inStore_findVariableEx : InStore (findVariableEx env false key store l) store :=
  ⟨fun _ => rfl, fun _ => rfl⟩

/-- The search of an update finds the slot of its variable. -/
theorem Ready.slot (h : Ready env s args.key args.store) (hsto : store ≠ .hob)
    (hv : store = .volatile ↔ Holds env false args.key (s.records .volatile)) :
    InStore (findVariableEx env false args.key store (s.records store)) args.store ∧
      Slot args.key (s.records args.store)
        (findVariableEx env false args.key store (s.records store)).currPtr
        (findVariableEx env false args.key store (s.records store)).inDeletedTransitionPtr := by
  rw [h.holds_iff] at hv
  by_cases heq : store = args.store
  · rw [heq]
    exact ⟨inStore_findVariableEx, slot_of_found (findVariableEx_found ..) (h.sees _) h.tracked⟩
  -- The call names a store that does not hold the variable, and no other does.
  have hnil := h.home store heq hsto
  obtain ⟨hc, hd⟩ : (findVariableEx env false args.key store (s.records store)).currPtr = none ∧
      (findVariableEx env false args.key store (s.records store)).inDeletedTransitionPtr = none := by
    have hf := findVariableEx_found env false args.key store (s.records store)
    have ht : Tracked args.key (s.records store) := by
      unfold Tracked
      rw [hnil]
      trivial
    have hs := (slot_of_found hf (h.sees store) ht).spot
    rw [hnil] at hs
    generalize findVariableEx env false args.key store (s.records store) = track at hs
    generalize s.records store = l at hs
    obtain ⟨st, curr, inDeleted⟩ := track
    cases hs
    exact ⟨rfl, rfl⟩
  have ht : liveOf args.key (s.records args.store) = [] := by
    have hne : args.store ≠ .hob := store_ne_hob
    cases hargs : args.store with
    | hob => exact absurd hargs hne
    | volatile =>
      rw [hargs] at heq
      by_contra hn
      exact heq (hv.mpr hn)
    | nv =>
      rw [hargs] at heq
      cases hst : store with
      | hob => exact absurd hst hsto
      | nv => exact absurd hst heq
      | volatile => exact absurd (hst ▸ hnil) (hv.mp hst)
  rw [hc, hd]
  refine ⟨⟨fun hs => ?_, fun hs => ?_⟩, .empty ht⟩
  · rw [hc] at hs
    cases hs
  · rw [hd] at hs
    cases hs

/-- **An update with its flush.** -/
theorem TargetSpec.finish {u : UpdateOutcome} (ht : TargetSpec env s args u.status u.state)
    (h : Ready env s args.key args.store) (hfr : HobFrom s u.state)
    (hc : args.isNonVolatile = true → ¬ (args.data = [] ∧ args.isAppend = true) →
      u.status = .success → u.flush = true)
    (hfl : u.flush = true → u.status = .success)
    (hid : valueOf args.key (s.records args.store) = none → args.data = [] →
      args.isAppend = true → u.flush = false) :
    UpdateSpec env s args (u.finish env args.key).status (u.finish env args.key).state := by
  have htr : u.status = .success → Tracked args.key (u.state.records args.store) := by
    intro hsu
    rcases (ht.success hsu).2 with hsa | hsingle
    · unfold Tracked
      rw [hsa]
      exact h.tracked
    · exact hsingle.tracked
  have hh := ht.others .hob store_ne_hob.symm
  have hho : ∀ store, store ≠ args.store → store ≠ .hob →
      liveOf args.key (u.state.records store) = [] := fun store hne hst =>
    (ht.others store hne).trans (h.home store hne hst)
  rw [UpdateOutcome.finish_state]
  change UpdateSpec env s args u.status _
  by_cases hf : u.flush = true
  · have hsu := hfl hf
    have hs := flushSpec_flushHobVariableToFlash env args.key (hfr.named h.hobNamed)
    have hke := hs.keeps args.key h.notFlag (.inl rfl)
    have hk := hke args.store store_ne_hob
    have hd := hs.dropped (by rw [hh]; exact h.hobAdded)
    rw [if_pos hf]
    exact {
      rejected := fun hn => absurd (by simp [hsu]) hn
      success := fun _ => ⟨(hk.value (htr hsu)).trans (ht.success hsu).1,
        hk.tracked (htr hsu)⟩
      hobCleared := fun _ _ => hd
      failed := fun hne => absurd hsu hne
      ordered := (hk.tracked (htr hsu)).ordered
      home := fun store hne hst => (hke store hst).liveOf_eq_nil (hho store hne hst)
      hob := .inr hd
      idle := fun hnone hda ha => by
        rw [hid hnone hda ha] at hf
        cases hf
      absent := fun hnone _ hda ha => (ht.idle hnone hda).2 ha }
  · rw [if_neg hf]
    exact {
      rejected := ht.rejected
      success := fun hsu => ⟨(ht.success hsu).1, htr hsu⟩
      hobCleared := fun hsu hda => by
        rcases h.hobHome with hnv | hnil
        · exact absurd (hc (store_eq_nv_iff.mp hnv) hda hsu) hf
        · exact hh.trans hnil
      failed := fun hne => ⟨ht.failed hne, hh⟩
      ordered := ht.ordered
      home := hho
      hob := .inl hh
      idle := fun hnone hda _ => (ht.idle hnone hda).1
      absent := fun hnone _ hda ha => (ht.idle hnone hda).2 ha }

/-- **An update of a variable does what `applied` says, and the HOB store no longer overrides the
variable.** -/
theorem updateSpec_updateVariable (h : Ready env s args.key args.store)
    (hattr : args.attributes ≠ 0#32) (hti : args.timeStamp ≠ none) :
    UpdateSpec env s args (variableExLibUpdateVariable env s args).status
      (variableExLibUpdateVariable env s args).state := by
  have hste := libSteps_variableExLibUpdateVariable env s args
  generalize variableExLibUpdateVariable env s args = o at hste
  cases hste with
  | notReady => exact {
      rejected := fun _ => rfl
      success := fun hsu => by cases hsu
      hobCleared := fun hsu => by cases hsu
      failed := fun _ => ⟨.inl rfl, rfl⟩
      ordered := h.tracked.ordered
      home := h.home
      hob := .inl rfl
      idle := fun _ _ _ => rfl
      absent := fun _ _ _ _ => by simp }
  | hobOnly hv hh hnv hempty =>
    have hde : args.isAppend = false ∧ args.data = [] := hempty.resolve_right hattr
    have hsp := flushSpec_flushHobVariableToFlash env args.key h.hobNamed
    have hst : args.store = .nv := h.hobHome.resolve_right ((h.holds_iff .hob).mp hh)
    have hnil : liveOf args.key (s.records args.store) = [] := by
      rw [hst]
      by_contra hne
      exact hnv ((h.holds_iff .nv).mpr hne)
    have hk := hsp.keeps args.key h.notFlag (.inl rfl)
    have ht := hk args.store store_ne_hob
    exact {
      rejected := fun hn => absurd (by simp) hn
      success := fun _ => ⟨by
        rw [ht.value h.tracked, valueOf, hnil]
        simp [applied, hde.2], ht.tracked h.tracked⟩
      hobCleared := fun _ _ => hsp.dropped h.hobAdded
      failed := fun hne => absurd rfl hne
      ordered := (ht.tracked h.tracked).ordered
      home := fun store hne hs => (hk store hs).liveOf_eq_nil (h.home store hne hs)
      hob := .inr (hsp.dropped h.hobAdded)
      idle := fun _ _ ha => by
        rw [hde.1] at ha
        cases ha
      absent := fun _ hnil => absurd hnil ((h.holds_iff .hob).mp hh) }
  | @found store hs hv =>
    obtain ⟨hin, hsl⟩ := h.slot hs hv
    have ht := updateFound_target env h.tracked hsl hin h.notFlag
    have hf : HobFrom s (updateFound env s args
        (findVariableEx env false args.key store (s.records store))).state :=
      hobFrom_updateFound hs
    refine ht.finish h hf (fun hnv hd hsu => flush_of_success hin hnv hti hd hsu)
      status_of_flush fun hnone hd _ => flush_of_idle ?_ hd
    rw [hsl.found hin]
    simpa [valueOf] using hnone

/-! ## The value after an update -/

theorem Ready.ordered (h : Ready env s key store) (store' : StoreType) :
    Ordered key (s.records store') := by
  by_cases hs : store' = store
  · exact hs ▸ h.tracked.ordered
  by_cases hh : store' = .hob
  · exact hh ▸ h.hobSingle.tracked.ordered
  · exact (single_of_nil (h.home store' hs hh)).tracked.ordered

/-- A variable that is in no store. -/
theorem ready_of_absent (hn : key.1 ≠ []) (hf : key ≠ varErrorFlagKey)
    (hh : HobNamed s) (hnil : ∀ store, liveOf key (s.records store) = []) :
    Ready env s key store where
  named := hn
  attributes := fun _ store => forall_mem_of_nil (hnil store)
  notFlag := hf
  tracked := (single_of_nil (hnil store)).tracked
  home := fun store' _ _ => hnil store'
  hobHome := .inr (hnil .hob)
  hobSingle := single_of_nil (hnil .hob)
  hobAdded := forall_mem_of_nil (hnil .hob)
  hobNamed := hh

theorem liveOf_eq_nil_of_current (h : current s key = none) (store : StoreType) :
    liveOf key (s.records store) = [] := by
  rw [current, or_eq_none_iff, or_eq_none_iff] at h
  simp only [valueOf_eq_none_iff] at h
  cases store with
  | volatile => exact h.1
  | hob => exact h.2.1
  | nv => exact h.2.2

/-- A variable that is in one store. -/
theorem current_of_home
    (hh : ∀ store', store' ≠ store → store' ≠ .hob → liveOf key (s.records store') = [])
    (hs : store ≠ .hob) (hho : store = .nv ∨ liveOf key (s.records .hob) = []) :
    current s key = (valueOf key (s.records .hob)).or (valueOf key (s.records store)) := by
  cases store with
  | hob => exact absurd rfl hs
  | volatile =>
    rw [current, valueOf_eq_none_iff.mpr (hho.resolve_left (by simp)),
      valueOf_eq_none_iff.mpr (hh .nv (by simp) (by simp))]
    simp
  | nv =>
    rw [current, valueOf_eq_none_iff.mpr (hh .volatile (by simp) (by simp)), none_or]

theorem Ready.current_of_hob (h : Ready env s key store) (hs : store ≠ .hob)
    (hh : liveOf key (s.records .hob) = []) : current s key = valueOf key (s.records store) := by
  rw [current_of_home h.home hs h.hobHome, valueOf_eq_none_iff.mpr hh, none_or]

/-- **The value after an update** is the one before it, and the update failed, or the one that the
update is for. An append must not find the variable in the HOB store. -/
theorem UpdateSpec.current_cases {status : EfiStatus} (hsp : UpdateSpec env s args status s')
    (h : Ready env s args.key args.store)
    (hho : args.isAppend = true → liveOf args.key (s.records .hob) = []) :
    status ≠ .success ∧ current s' args.key = current s args.key ∨
      current s' args.key = applied env args (valueOf args.key (s.records args.store)) := by
  have hhh : args.store = .nv ∨ liveOf args.key (s'.records .hob) = [] :=
    h.hobHome.imp_right fun hnil => hsp.hob.elim (fun hsa => hsa.trans hnil) id
  rw [current_of_home hsp.home store_ne_hob hhh,
    current_of_home h.home store_ne_hob h.hobHome]
  by_cases hs : status = .success
  · have hnil : liveOf args.key (s'.records .hob) = [] := by
      cases ha : args.isAppend with
      | true => exact hsp.hob.elim (fun hsa => hsa.trans (hho ha)) id
      | false => exact hsp.hobCleared hs fun hn => by simp [ha] at hn
    rw [valueOf_eq_none_iff.mpr hnil]
    exact .inr (hsp.success hs).1
  · obtain ⟨hv, hsa⟩ := hsp.failed hs
    have hh : valueOf args.key (s'.records .hob) = valueOf args.key (s.records .hob) := by
      rw [valueOf, valueOf, hsa]
    rw [hh]
    -- The HOB store is searched first: a value there is the value before and after.
    cases hold : valueOf args.key (s.records .hob) with
    | some r => exact .inl ⟨hs, by rw [some_or, some_or]⟩
    | none =>
      exact hv.imp (fun heq => ⟨hs, heq⟩) fun hnew => hnew.2

end Edk2.Var
