import Edk2.Var.Slots

/-!
# What an update does to the variables

The other variables first: whatever the outcome of an update, and with any access to the device
failing, a variable that is not the one updated keeps its value, unless it is the one that records
variable errors. Then the variable updated itself.

## Main results

* `updateFound_keeps`: an update leaves the other variables alone
-/

namespace Edk2.Var

open List Option VarState VarRecord UpdateArgs

variable {env : Env} {s s' s'' : VarState} {key : VarKey} {store store' : StoreType}
  {l : List VarRecord} {track : PointerTrack} {new : VarRecord} {args : UpdateArgs}

/-! ## The stores of a changed state -/

namespace VarState

@[simp] theorem records_setRecords_self (h : store ≠ .hob) :
    (s.setRecords store l).records store = l := by
  cases store <;> first | rfl | exact absurd rfl h

@[simp] theorem records_setRecords_of_ne (h : store' ≠ store) :
    (s.setRecords store l).records store' = s.records store' := by
  cases store <;> cases store' <;> first | rfl | exact absurd rfl h

@[simp] theorem hobStore_setRecords (h : store ≠ .hob) :
    (s.setRecords store l).hobStore = s.hobStore := by
  cases store <;> first | rfl | exact absurd rfl h

@[simp] theorem records_accessed : s.accessed.records store = s.records store := by
  cases store <;> rfl

@[simp] theorem hobStore_accessed : s.accessed.hobStore = s.hobStore := rfl

@[simp] theorem records_recount :
    (s.recount env store' l).records store = s.records store := by
  cases store <;> cases store' <;> rfl

@[simp] theorem hobStore_recount : (s.recount env store l).hobStore = s.hobStore := by
  cases store <;> rfl

@[simp] theorem records_countNew : (s.countNew env store' new).records store = s.records store := by
  cases store' <;> unfold countNew <;> split_ifs <;> cases store <;> rfl

@[simp] theorem hobStore_countNew : (s.countNew env store new).hobStore = s.hobStore := by
  cases store <;> unfold countNew <;> split_ifs <;> rfl

end VarState

/-! ## The other variables -/

/-- The change leaves the variable alone in every store. -/
def KeepsAll (key : VarKey) (s s' : VarState) : Prop :=
  ∀ store, Keeps key (s.records store) (s'.records store)

namespace KeepsAll

theorem refl : KeepsAll key s s := fun _ => .refl

theorem trans (h : KeepsAll key s s') (h' : KeepsAll key s' s'') : KeepsAll key s s'' :=
  fun store => (h store).trans (h' store)

theorem setRecords (hs : store ≠ .hob) (h : Keeps key (s.records store) l) :
    KeepsAll key s (s.setRecords store l) := by
  intro store'
  by_cases hne : store' = store
  · subst hne
    rwa [records_setRecords_self hs]
  · rw [records_setRecords_of_ne hne]
    exact .refl

theorem of_records (h : ∀ store, s'.records store = s.records store) : KeepsAll key s s' :=
  fun store => by rw [h store]; exact .refl

end KeepsAll

/-- The search result points to entries of the variable. -/
structure PointsTo (s : VarState) (key : VarKey) (track : PointerTrack) : Prop where
  store : track.store ≠ .hob
  curr : ∀ (i : ℕ) (r : VarRecord), track.currPtr = some i →
    (s.records track.store)[i]? = some r → r.key = key
  inDeleted : ∀ (i : ℕ) (r : VarRecord), track.inDeletedTransitionPtr = some i →
    (s.records track.store)[i]? = some r → r.key = key

/-- Changing entries in place does not change what they belong to. -/
theorem PointsTo.of_keys (h : PointsTo s key track)
    (hke : ∀ (i : ℕ) (r : VarRecord), (s'.records track.store)[i]? = some r →
      r.key = key ∨ ∃ r', (s.records track.store)[i]? = some r' ∧ r'.key = r.key) :
    PointsTo s' key track where
  store := h.store
  curr := fun i r hi hr => by
    rcases hke i r hr with hk | ⟨r', hr', hk⟩
    · exact hk
    · rw [← hk]; exact h.curr i r' hi hr'
  inDeleted := fun i r hi hr => by
    rcases hke i r hr with hk | ⟨r', hr', hk⟩
    · exact hk
    · rw [← hk]; exact h.inDeleted i r' hi hr'

/-- The state of an entry is changed, or the device fails. -/
theorem updateState_cases (env : Env) (s : VarState) (store : StoreType) (i : ℕ)
    (mask : BitVec 8) :
    updateState env s store i mask = ⟨.deviceError, s.accessed⟩ ∨
      updateState env s store i mask = ⟨.success, s.accessed.setRecords store
        ((s.records store).modify i fun r => r.clearState mask)⟩ := by
  unfold updateState
  split_ifs
  · exact .inr rfl
  · exact .inl rfl

theorem PointsTo.updateState (h : PointsTo s key track) (i : ℕ) (mask : BitVec 8) :
    PointsTo (updateState env s track.store i mask).state key track := by
  refine h.of_keys fun j r hr => .inr ?_
  rcases updateState_cases env s track.store i mask with ho | ho
  · rw [ho, records_accessed] at hr
    exact ⟨r, hr, rfl⟩
  · rw [ho, records_setRecords_self h.store, List.getElem?_modify] at hr
    obtain ⟨r', hr', rfl⟩ := map_eq_some_iff.mp hr
    refine ⟨r', hr', ?_⟩
    split_ifs <;> rfl

variable {i space : ℕ} {mask : BitVec 8} {ignoreRtCheck : Bool} {r : VarRecord} {o : UpdateOutcome}

/-- Marking an entry keeps the other variables. -/
theorem keepsAll_updateState (hs : store ≠ .hob)
    (hne : ∀ r, (s.records store)[i]? = some r → r.key ≠ key) :
    KeepsAll key s (updateState env s store i mask).state := by
  rcases updateState_cases env s store i mask with ho | ho
  · rw [ho]
    exact .of_records fun _ => records_accessed
  · rw [ho]
    refine KeepsAll.trans (.of_records fun _ => records_accessed)
      (.setRecords hs (.of_liveOf_eq ?_))
    exact liveOf_modify_of_ne hne fun _ => rfl

variable {key' : VarKey}

/-- A deletion marks the entries found, one after the other. -/
theorem deleteFound_marks {R : VarState → VarState → Prop} (hr : ∀ s, R s s)
    (htrans : ∀ s₁ s₂ s₃, R s₁ s₂ → R s₂ s₃ → R s₁ s₃)
    (hm : ∀ s i, track.currPtr = some i ∨ track.inDeletedTransitionPtr = some i →
      R s (updateState env s track.store i varDeleted).state) :
    R s (deleteFound env s track).state := by
  unfold deleteFound
  cases hd : track.inDeletedTransitionPtr with
  | none =>
    cases hc : track.currPtr with
    | none => exact hr s
    | some i => exact hm s i (.inl hc)
  | some j =>
    have hf := hm s j (.inr hd)
    dsimp only
    split_ifs
    · exact hf
    · cases hc : track.currPtr with
      | none => exact hf
      | some i => exact htrans _ _ _ hf (hm _ i (.inl hc))

/-- A deletion keeps the other variables. -/
theorem keepsAll_deleteFound (h : PointsTo s key track) (hne : key' ≠ key) :
    KeepsAll key' s (deleteFound env s track).state := by
  refine (deleteFound_marks (R := fun s s' => PointsTo s key track →
    PointsTo s' key track ∧ KeepsAll key' s s') (fun s h => ⟨h, .refl⟩) ?_ ?_ h).2
  · intro s₁ s₂ s₃ h₁₂ h₂₃ h
    exact ⟨(h₂₃ (h₁₂ h).1).1, (h₁₂ h).2.trans (h₂₃ (h₁₂ h).1).2⟩
  · intro s i hi h
    refine ⟨h.updateState i varDeleted, keepsAll_updateState h.store fun r hr => ?_⟩
    rw [hi.elim (fun hc => h.curr i r hc hr) fun hd => h.inDeleted i r hd hr]
    exact hne.symm

@[simp] theorem records_writeAll (n : ℕ) :
    (writeAll env store' n s).2.records store = s.records store := by
  induction n generalizing s with
  | zero => rfl
  | succ n ih =>
    rw [writeAll]
    split_ifs
    · rw [ih, records_accessed]
    · exact records_accessed

@[simp] theorem hobStore_writeAll (n : ℕ) : (writeAll env store n s).2.hobStore = s.hobStore := by
  induction n generalizing s with
  | zero => rfl
  | succ n ih =>
    rw [writeAll]
    split_ifs
    · rw [ih, hobStore_accessed]
    · rfl

theorem keeps_concat_of_ne (hne : key' ≠ new.key) : Keeps key' l (l ++ [new]) := by
  refine .of_liveOf_eq ?_
  rw [liveOf_append, liveOf_cons_of_ne hne.symm, liveOf_nil, append_nil]

/-- The state with the new entry written. -/
def withNew (env : Env) (s : VarState) (store : StoreType) (new : VarRecord) : VarState :=
  (s.setRecords store (s.records store ++ [new])).countNew env store new

theorem records_withNew_self (h : store ≠ .hob) :
    (withNew env s store new).records store = s.records store ++ [new] := by
  rw [withNew, records_countNew, records_setRecords_self h]

theorem records_withNew_of_ne (h : store' ≠ store) :
    (withNew env s store new).records store' = s.records store' := by
  rw [withNew, records_countNew, records_setRecords_of_ne h]

theorem PointsTo.withNew (h : PointsTo s new.key track) (hs : store ≠ .hob) :
    PointsTo (withNew env s store new) new.key track := by
  refine h.of_keys fun i r hr => ?_
  by_cases hst : track.store = store
  · rw [hst, records_withNew_self hs] at hr
    rw [hst]
    rcases Nat.lt_or_ge i (s.records store).length with hi | hi
    · rw [List.getElem?_append_left hi] at hr
      exact .inr ⟨r, hr, rfl⟩
    · rw [List.getElem?_append_right hi] at hr
      have hr' := mem_of_getElem? hr
      rw [mem_singleton.mp hr']
      exact .inl rfl
  · rw [records_withNew_of_ne hst] at hr
    exact .inr ⟨r, hr, rfl⟩

theorem keepsAll_withNew (hs : store ≠ .hob) (hne : key' ≠ new.key) :
    KeepsAll key' s (withNew env s store new) :=
  .trans (.setRecords hs (keeps_concat_of_ne hne))
    (.of_records fun _ => records_countNew)

/-- The new entry is written, or the device fails. -/
theorem writeNew_cases (env : Env) (s : VarState) (track : PointerTrack) (store : StoreType)
    (new : VarRecord) :
    ∃ s₁ : VarState, (∀ store, s₁.records store = s.records store) ∧ s₁.hobStore = s.hobStore ∧
      (writeNew env s track store new = ⟨⟨.deviceError, s₁⟩, false⟩ ∨
        writeNew env s track store new = ⟨deleteFound env (withNew env s₁ store new) track,
          !(deleteFound env (withNew env s₁ store new) track).status.isError && store == .nv⟩) := by
  unfold writeNew
  generalize (if store = .nv ∧ env.emuNvMode = false then 4 else 1) = n
  refine ⟨(writeAll env store n s).2, fun _ => records_writeAll n, hobStore_writeAll n, ?_⟩
  dsimp only
  split_ifs
  · exact .inl rfl
  · exact .inr rfl

/-- Writing an entry keeps the other variables. -/
theorem keepsAll_writeNew (hs : store ≠ .hob) (h : PointsTo s new.key track)
    (hne : key' ≠ new.key) : KeepsAll key' s (writeNew env s track store new).state := by
  obtain ⟨s₁, hre, -, ho | ho⟩ := writeNew_cases env s track store new
  · rw [ho]
    exact .of_records hre
  · rw [ho]
    have hp : PointsTo s₁ new.key track := h.of_keys fun i r hr => .inr ⟨r, by
      rwa [hre] at hr, rfl⟩
    exact (KeepsAll.of_records hre).trans ((keepsAll_withNew hs hne).trans
      (keepsAll_deleteFound (hp.withNew hs) hne))

/-! ### Variable errors -/

theorem matchesKey_key (hk : key.1 ≠ [])
    (h : matchesKey env ignoreRtCheck key r = true) : r.key = key := by
  have hn : (key.1 == []) = false := by simpa using hk
  simp only [matchesKey, hn, Bool.false_or, Bool.and_eq_true, beq_iff_eq] at h
  exact h.2.symm

/-- A search finds a live entry of the variable. -/
theorem findVariable_getElem? (hk : key.1 ≠ [])
    (h : (findVariable env s key ignoreRtCheck).currPtr = some i) :
    ∃ r, (s.records (findVariable env s key ignoreRtCheck).store)[i]? = some r ∧ r.key = key ∧
      r.isLive = true := by
  obtain ⟨store, heq, -⟩ := findVariable_cases env s key ignoreRtCheck
  rw [heq] at h ⊢
  have hf := findVariableEx_found env ignoreRtCheck key store (s.records store)
  rw [h] at hf
  obtain ⟨r, hr, hl, hm⟩ := hf.getElem?
  exact ⟨r, hr, matchesKey_key hk hm, hl⟩

/-- At most the variable for errors is changed. -/
theorem recordVarErrorFlag_cases (env : Env) (s : VarState) (flag : UInt8) :
    (∀ store, (recordVarErrorFlag env s flag).records store = s.records store) ∧
        (recordVarErrorFlag env s flag).hobStore = s.hobStore ∨
      ∃ i r store data, (s.records store)[i]? = some r ∧ r.key = varErrorFlagKey ∧
        env.endOfDxe = true ∧
        recordVarErrorFlag env s flag = s.accessed.setRecords store
          ((s.records store).modify i fun r => { r with data := data }) := by
  unfold recordVarErrorFlag
  by_cases he : env.endOfDxe = true
  swap
  · rw [if_pos (by simp [he])]
    exact .inl ⟨fun store => by cases store <;> rfl, rfl⟩
  rw [if_neg (by simp [he])]
  dsimp only
  split
  · rename_i i varErrFlag rest hc _
    obtain ⟨r, hr, hrk, -⟩ := findVariable_getElem? (by decide) hc
    by_cases hs : varErrFlag &&& flag = varErrFlag
    · rw [if_pos hs]
      exact .inl ⟨fun _ => rfl, rfl⟩
    · rw [if_neg hs]
      split
      · exact .inr ⟨i, r, _, _, hr, hrk, he, rfl⟩
      · exact .inl ⟨fun _ => records_accessed, rfl⟩
  · exact .inl ⟨fun _ => rfl, rfl⟩

theorem records_setRecords_hob (s : VarState) (l : List VarRecord) (hs : s.records .hob ≠ []) :
    (s.setRecords .hob l).records .hob = l := by
  cases hh : s.hobStore with
  | none => simp [records, hh] at hs
  | some l' => simp [setRecords, records, hh]

theorem liveOf_setRecords_modify {f : VarRecord → VarRecord}
    (hr : (s.records store')[i]? = some r) (hne : r.key ≠ key) (hf : ∀ r, (f r).key = r.key) :
    liveOf key ((s.setRecords store' ((s.records store').modify i f)).records store) =
      liveOf key (s.records store) := by
  by_cases hst : store = store'
  swap
  · rw [records_setRecords_of_ne hst]
  subst hst
  have hs : (s.setRecords store ((s.records store).modify i f)).records store =
      (s.records store).modify i f := by
    by_cases hh : store = .hob
    · subst hh
      exact records_setRecords_hob _ _ (ne_nil_of_mem (mem_of_getElem? hr))
    · exact records_setRecords_self hh
  rw [hs]
  refine liveOf_modify_of_ne (fun r' hr' => ?_) hf
  rwa [some.inj (hr'.symm.trans hr)]

theorem liveOf_recordSpaceErrors (hne : key ≠ varErrorFlagKey) :
    liveOf key ((recordSpaceErrors env s space new).records store) =
      liveOf key (s.records store) := by
  have hf : ∀ s flag, liveOf key ((recordVarErrorFlag env s flag).records store) =
      liveOf key (s.records store) := by
    intro s flag
    rcases recordVarErrorFlag_cases env s flag with ⟨hre, -⟩ | ⟨i, r, store', data, hr, hrk, -, ho⟩
    · rw [hre]
    · rw [ho]
      exact liveOf_setRecords_modify hr (hrk ▸ hne.symm) fun _ => rfl
  unfold recordSpaceErrors
  dsimp only
  split_ifs <;> simp only [hf]

theorem keepsAll_recordSpaceErrors (hne : key ≠ varErrorFlagKey) :
    KeepsAll key s (recordSpaceErrors env s space new) :=
  fun _ => .of_liveOf_eq (liveOf_recordSpaceErrors hne)

/-! ### Reclaiming and creating -/

/-- What a reclaim keeps, from the search result of the update. -/
def reclaimKept (s : VarState) (store : StoreType) (track : PointerTrack) : List VarRecord :=
  reclaimed (if track.store = store then track.currPtr else none)
    (if track.store = store then track.inDeletedTransitionPtr else none) (s.records store)

/-- A reclaim fails, or leaves what it keeps and the new entry. -/
theorem reclaim_cases (env : Env) (s : VarState) (store : StoreType) (track : PointerTrack)
    (new : VarRecord) :
    ((reclaim env s store track new).status ∈ [.outOfResources, .deviceError] ∧
        (∀ store', (reclaim env s store track new).state.records store' = s.records store') ∧
        (reclaim env s store track new).state.hobStore = s.hobStore) ∨
      reclaim env s store track new = ⟨.success, (s.accessed.setRecords store
        (reclaimKept s store track ++ [new])).recount env store
          (reclaimKept s store track ++ [new])⟩ := by
  unfold reclaim reclaimKept
  dsimp only
  generalize reclaimed _ _ (s.records store) = kept
  split_ifs
  · exact .inl ⟨by simp, fun _ => records_accessed, rfl⟩
  · exact .inl ⟨by simp, fun _ => records_accessed, rfl⟩
  · exact .inl ⟨by simp, fun _ => by rw [records_recount, records_accessed],
      by rw [hobStore_recount]; rfl⟩
  · exact .inr rfl

/-- A reclaim keeps the other variables. -/
theorem keepsAll_reclaim (hs : store ≠ .hob) (h : PointsTo s new.key track)
    (hne : key' ≠ new.key) : KeepsAll key' s (reclaim env s store track new).state := by
  rcases reclaim_cases env s store track new with ⟨-, hre, -⟩ | ho
  · exact .of_records hre
  · rw [ho]
    refine (KeepsAll.of_records fun _ => records_accessed).trans
      (.trans (.setRecords hs ?_) (.of_records fun _ => records_recount))
    refine Keeps.trans (keeps_reclaimed ?_ ?_) (keeps_concat_of_ne hne)
    · intro i r hi hr
      split_ifs at hi with hst
      · subst hst
        rw [h.curr i r hi hr]
        exact hne.symm
    · intro i r hi hr
      split_ifs at hi with hst
      · subst hst
        rw [h.inDeleted i r hi hr]
        exact hne.symm

/-- How an update from the search result on creates the new entry. -/
inductive CreateSteps (env : Env) (s : VarState) (args : UpdateArgs) (track : PointerTrack)
    (new : VarRecord) : UpdateOutcome → Prop
  | full : args.isNonVolatile = true → env.atRuntime = true →
      CreateSteps env s args track new
        ⟨⟨.outOfResources, recordSpaceErrors env s env.commonRuntimeVariableSpace new⟩, false⟩
  | reclaimFailed : args.isNonVolatile = true →
      (reclaim env s .nv track new).status.isError = true →
      CreateSteps env s args track new
        ⟨⟨(reclaim env s .nv track new).status, recordSpaceErrors env
          (reclaim env s .nv track new).state env.commonVariableSpace new⟩, false⟩
  | reclaimed : args.isNonVolatile = true →
      (reclaim env s .nv track new).status.isError = false →
      CreateSteps env s args track new ⟨reclaim env s .nv track new, true⟩
  | reclaimedVolatile : args.isNonVolatile = false →
      CreateSteps env s args track new ⟨reclaim env s .volatile track new, false⟩
  | written : CreateSteps env s args track new (writeNew env s track args.store new)

theorem createSteps_createNew (env : Env) (s : VarState) (args : UpdateArgs) (track : PointerTrack)
    (new : VarRecord) :
    CreateSteps env s args track new (createNew env s args track new) := by
  have hw : CreateSteps env s args track new (writeNew env s track args.store new) := .written
  unfold store at hw
  unfold createNew
  dsimp only
  split_ifs with hnv hfu hrt hf
  · exact .full hnv hrt
  · exact .reclaimFailed hnv hf
  · exact .reclaimed hnv (by simpa using hf)
  · rwa [if_pos hnv] at hw
  · exact .reclaimedVolatile (by simpa using hnv)
  · rwa [if_neg hnv] at hw

theorem UpdateArgs.store_ne_hob : args.store ≠ .hob := by
  unfold store
  split_ifs <;> simp

/-- Creating an entry keeps the other variables. -/
theorem CreateSteps.keepsAll (h : CreateSteps env s args track new o)
    (hp : PointsTo s new.key track) (hne : key' ≠ new.key) (he : key' ≠ varErrorFlagKey) :
    KeepsAll key' s o.state := by
  cases h with
  | full => exact keepsAll_recordSpaceErrors he
  | reclaimFailed =>
    exact (keepsAll_reclaim (by decide) hp hne).trans (keepsAll_recordSpaceErrors he)
  | reclaimed | reclaimedVolatile => exact keepsAll_reclaim (by decide) hp hne
  | written => exact keepsAll_writeNew store_ne_hob hp hne

/-- How an update goes from the search result on. -/
inductive UpdateSteps (env : Env) (s : VarState) (args : UpdateArgs) (track : PointerTrack) :
    UpdateOutcome → Prop
  | rejected {status : EfiStatus} :
      status ∈ [.writeProtected, .invalidParameter, .notFound] →
      UpdateSteps env s args track ⟨⟨status, s⟩, false⟩
  | unchanged {i : ℕ} {old : VarRecord} :
      track.currPtr = some i → track.found s = some old → args.isDelete = false →
      old.data = args.data → args.isAppend = false → args.timeStamp = none →
      UpdateSteps env s args track ⟨⟨.success, s⟩, false⟩
  | nothing : track.found s = none → args.data = [] → args.isAppend = true →
      UpdateSteps env s args track ⟨⟨.success, s⟩, false⟩
  | deleted {i : ℕ} {old : VarRecord} :
      track.currPtr = some i → track.found s = some old → args.isDelete = true →
      UpdateSteps env s args track
        ⟨deleteFound env s track,
          !(deleteFound env s track).status.isError && track.store == .nv⟩
  | markFailed {i : ℕ} {old : VarRecord} :
      track.currPtr = some i → track.found s = some old →
      (updateState env s track.store i varInDeletedTransition).status.isError = true →
      UpdateSteps env s args track
        ⟨updateState env s track.store i varInDeletedTransition, false⟩
  | replaced {i : ℕ} {old : VarRecord} :
      track.currPtr = some i → track.found s = some old → args.isDelete = false →
      ¬ (old.data = args.data ∧ args.isAppend = false ∧ args.timeStamp = none) →
      (updateState env s track.store i varInDeletedTransition).status.isError = false →
      UpdateSteps env s args track
        (createNew env (updateState env s track.store i varInDeletedTransition).state args track
          (newRecord env args (some old)))
  | created : track.found s = none → args.data ≠ [] → args.hasAccess = true →
      UpdateSteps env s args track (createNew env s args track (newRecord env args none))

/-- Every update goes one of these ways. -/
theorem updateSteps_updateFound (env : Env) (s : VarState) (args : UpdateArgs)
    (track : PointerTrack) : UpdateSteps env s args track (updateFound env s args track) := by
  unfold updateFound
  split
  · rename_i i old hc hfo
    dsimp only
    split_ifs with h₁ h₂ h₃ hd hs hl hf
    · exact .rejected (by simp)
    · exact .rejected (by simp)
    · exact .rejected (by simp)
    · exact .deleted hc hfo hd
    · exact .unchanged hc hfo (by simpa using hd) hs.1 hs.2.1 hs.2.2
    · exact .rejected (by simp)
    · exact .markFailed hc hfo hf
    · exact .replaced hc hfo (by simpa using hd) hs (by simpa using hf)
  · rename_i hnone
    have hfo : track.found s = none := by
      cases hc : track.currPtr with
      | none => simp [PointerTrack.found, hc]
      | some i =>
        by_contra h
        obtain ⟨old, hold⟩ := ne_none_iff_exists'.mp h
        exact hnone i old hc hold
    split_ifs with hempty hr h₃
    · exact .nothing hfo hempty.1 hempty.2
    · exact .rejected (by simp)
    · exact .rejected (by simp)
    · push Not at hr
      exact .created hfo hr.1 (by simpa using hr.2)

/-- **An update leaves the other variables alone**, whatever it returns. -/
theorem updateFound_keeps (h : PointsTo s args.key track) (hne : key' ≠ args.key)
    (he : key' ≠ varErrorFlagKey) :
    KeepsAll key' s (updateFound env s args track).state := by
  have hs := updateSteps_updateFound env s args track
  generalize updateFound env s args track = o at hs
  cases hs with
  | rejected | unchanged | nothing => exact .refl
  | deleted => exact keepsAll_deleteFound h hne
  | @markFailed i old hc =>
    exact keepsAll_updateState h.store fun r hr => by rw [h.curr i r hc hr]; exact hne.symm
  | @replaced i old hc =>
    have hm : KeepsAll key' s
        (updateState env s track.store i varInDeletedTransition).state :=
      keepsAll_updateState h.store fun r hr => by rw [h.curr i r hc hr]; exact hne.symm
    exact hm.trans ((createSteps_createNew ..).keepsAll (h.updateState _ _) hne he)
  | created => exact (createSteps_createNew ..).keepsAll h hne he

/-! ## The variable updated -/

section Target

variable {curr inDeleted : Option ℕ} {L tail : List VarRecord}

/-- Where the live entries of a variable are, and which they are. -/
inductive Spot (key : VarKey) :
    List VarRecord → Option ℕ → Option ℕ → List VarRecord → Prop
  | empty {l : List VarRecord} : liveOf key l = [] → Spot key l none none []
  | one {pre post : List VarRecord} {r : VarRecord} :
      liveOf key pre = [] → liveOf key post = [] → r.isLive = true → r.key = key →
      Spot key (pre ++ r :: post) (some pre.length) none [r]
  | two {pre mid post : List VarRecord} {t a : VarRecord} :
      liveOf key pre = [] → liveOf key mid = [] → liveOf key post = [] →
      t.isInTransition = true → t.key = key → a.isLive = true → a.key = key →
      Spot key ((pre ++ t :: mid) ++ a :: post) (some (pre ++ t :: mid).length) (some pre.length)
        [t, a]

/-- What marking the entry found makes of the live entries. -/
def markLast (L : List VarRecord) : List VarRecord :=
  L.dropLast ++ (L.getLast?.map fun r => r.clearState varInDeletedTransition).toList

/-- The entry found is marked. -/
theorem Spot.mark (h : Spot key l (some i) inDeleted L) :
    Spot key (l.modify i fun r => r.clearState varInDeletedTransition) (some i) inDeleted
      (markLast L) := by
  cases h with
  | one hp hpo hl hk =>
    rw [modify_append_cons]
    exact .one hp hpo
      (isLive_iff.mpr (.inr (isInTransition_clearState hl))) hk
  | two hp hm hpo ht htk ha hak =>
    rw [modify_append_cons]
    exact .two hp hm hpo ht htk
      (isLive_iff.mpr (.inr (isInTransition_clearState ha))) hak

theorem Spot.liveOf_eq (h : Spot key l curr inDeleted L) : liveOf key l = L := by
  cases h with
  | empty hl => exact hl
  | one hp hpo hli hk =>
    rw [liveOf_append, liveOf_cons_of_live hli hk, hp, hpo]
    rfl
  | @two pre mid post t a hp hm hpo ht htk ha hak =>
    have htl : t.isLive = true := isLive_iff.mpr (.inr ht)
    rw [liveOf_append, liveOf_append, liveOf_cons_of_live htl htk,
      liveOf_cons_of_live ha hak, hp, hm, hpo]
    rfl

theorem Slot.spot (h : Slot key l curr inDeleted) : Spot key l curr inDeleted (liveOf key l) := by
  obtain ⟨L, hs⟩ : ∃ L, Spot key l curr inDeleted L := by
    cases h with
    | empty hl => exact ⟨_, .empty hl⟩
    | one hp hpo hli hk => exact ⟨_, .one hp hpo hli hk⟩
    | two hp hm hpo ht htk ha hak =>
      exact ⟨_, .two hp hm hpo ht htk (isLive_iff.mpr (.inl ha)) hak⟩
  rwa [hs.liveOf_eq]

/-- **A deletion leaves no live entry**, or the device fails. -/
theorem Spot.deleteFound (env : Env)
    (h : Spot key l track.currPtr track.inDeletedTransitionPtr L) (hs : track.store ≠ .hob)
    (hre : s.records track.store = l ++ tail) :
    ((deleteFound env s track).status = .success ∧
        liveOf key ((deleteFound env s track).state.records track.store) = liveOf key tail) ∨
      ((deleteFound env s track).status = .deviceError ∧ ∃ L', L' ≠ [] ∧ L' <:+ L ∧
        liveOf key ((deleteFound env s track).state.records track.store) =
          L' ++ liveOf key tail) := by
  obtain ⟨store, curr, inDeleted⟩ := track
  dsimp only at h hs hre ⊢
  have hli := h.liveOf_eq
  cases h with
  | empty => exact .inl ⟨rfl, by rw [Var.deleteFound, hre, liveOf_append, hli]; rfl⟩
  | @one pre post r hp hpo hr hk =>
    have hd : Var.deleteFound env s ⟨store, some pre.length, none⟩ =
        updateState env s store pre.length varDeleted := rfl
    rw [hd]
    rcases updateState_cases env s store pre.length varDeleted with ho | ho
    · refine .inr ⟨congrArg Outcome.status ho, [r], by simp, suffix_rfl, ?_⟩
      rw [ho, records_accessed, hre, liveOf_append, hli]
    · refine .inl ⟨congrArg Outcome.status ho, ?_⟩
      rw [ho, records_setRecords_self hs, hre, append_assoc, cons_append, modify_append_cons,
        liveOf_append, liveOf_cons_of_dead (isLive_clearState_deleted hr), liveOf_append, hp, hpo]
      rfl
  | @two pre mid post t a hp hm hpo ht htk ha hak =>
    have htl : t.isLive = true := isLive_iff.mpr (.inr ht)
    rcases updateState_cases env s store pre.length varDeleted with ho | ho
    · have hd : Var.deleteFound env s ⟨store, some (pre ++ t :: mid).length,
          some pre.length⟩ = ⟨.deviceError, s.accessed⟩ := by
        simp [Var.deleteFound, ho, EfiStatus.isError]
      refine .inr ⟨congrArg Outcome.status hd, [t, a], by simp, suffix_rfl, ?_⟩
      rw [hd, records_accessed, hre, liveOf_append, hli]
    -- The twin is deleted; now the entry found.
    have hd : Var.deleteFound env s ⟨store, some (pre ++ t :: mid).length, some pre.length⟩ =
        updateState env (updateState env s store pre.length varDeleted).state store
          (pre ++ t :: mid).length varDeleted := by
      simp [Var.deleteFound, ho]
    have hf : (updateState env s store pre.length varDeleted).state.records store =
        (pre ++ t.clearState varDeleted :: mid) ++ a :: (post ++ tail) := by
      rw [ho, records_setRecords_self hs, hre]
      simp only [append_assoc, cons_append]
      exact modify_append_cons _
    have hdead := isLive_clearState_deleted htl
    rcases updateState_cases env (updateState env s store pre.length varDeleted).state store
      (pre ++ t :: mid).length varDeleted with ho' | ho'
    · refine .inr ⟨by rw [hd, ho'], [a], by simp, ⟨[t], rfl⟩, ?_⟩
      rw [hd, ho', records_accessed, hf]
      simp [liveOf_cons_of_dead hdead, liveOf_cons_of_live ha hak, hp, hm, hpo]
    · refine .inl ⟨by rw [hd, ho'], ?_⟩
      have hl : (pre ++ t :: mid).length = (pre ++ t.clearState varDeleted :: mid).length := by
        simp
      rw [hd, ho', records_setRecords_self hs, hf, hl, modify_append_cons]
      simp [liveOf_cons_of_dead hdead,
        liveOf_cons_of_dead (isLive_clearState_deleted ha), hp, hm, hpo]

theorem getElem?_split {pre post : List VarRecord} {r₀ : VarRecord}
    (h : (pre ++ r₀ :: post)[i]? = some r) :
    pre[i]? = some r ∨ (i = pre.length ∧ r = r₀) ∨ r ∈ post := by
  rcases Nat.lt_trichotomy i pre.length with hi | rfl | hi
  · rw [List.getElem?_append_left hi] at h
    exact .inl h
  · rw [List.getElem?_append_right (Nat.le_refl _), Nat.sub_self] at h
    exact .inr (.inl ⟨rfl, (some.inj h).symm⟩)
  · rw [List.getElem?_append_right (Nat.le_of_lt hi)] at h
    obtain ⟨n, hn⟩ : ∃ n, i - pre.length = n + 1 := ⟨i - pre.length - 1, by omega⟩
    rw [hn] at h
    exact .inr (.inr (mem_of_getElem? h))

theorem not_mem_of_liveOf_eq_nil (h : liveOf key l = []) (hr : r ∈ l)
    (hl : r.isLive = true) : r.key ≠ key := by
  intro hk
  have := mem_liveOf.mpr ⟨hr, hl, hk⟩
  rw [h] at this
  cases this

/-- Every live entry of the variable is one of those found, and an added one is the first of them.
-/
theorem Spot.index (h : Spot key l curr inDeleted L)
    (hi : l[i]? = some r) (hk : r.key = key) (hli : r.isLive = true) :
    curr = some i ∨ inDeleted = some i ∧ r.isInTransition = true := by
  cases h with
  | empty hl => exact absurd hk (not_mem_of_liveOf_eq_nil hl (mem_of_getElem? hi) hli)
  | one hp hpo =>
    rcases getElem?_split hi with h | ⟨rfl, rfl⟩ | h
    · exact absurd hk (not_mem_of_liveOf_eq_nil hp (mem_of_getElem? h) hli)
    · exact .inl rfl
    · exact absurd hk (not_mem_of_liveOf_eq_nil hpo h hli)
  | two hp hm hpo ht =>
    rcases getElem?_split hi with h | ⟨rfl, rfl⟩ | h
    · rcases getElem?_split h with h | ⟨rfl, rfl⟩ | h
      · exact absurd hk (not_mem_of_liveOf_eq_nil hp (mem_of_getElem? h) hli)
      · exact .inr ⟨rfl, ht⟩
      · exact absurd hk (not_mem_of_liveOf_eq_nil hm h hli)
    · exact .inl rfl
    · exact absurd hk (not_mem_of_liveOf_eq_nil hpo h hli)

theorem Spot.isSome (h : Spot key l curr inDeleted L) (hd : inDeleted = some i) :
    curr.isSome = true := by
  cases h with
  | empty => cases hd
  | one => rfl
  | two => rfl

/-- A reclaim keeps no entry of the variable. -/
theorem Spot.reclaimKept (h : Spot key (s.records store) track.currPtr
      track.inDeletedTransitionPtr L)
    (hs : track.currPtr.isSome = true → track.store = store) :
    liveOf key (reclaimKept s store track) = [] := by
  unfold Var.reclaimKept
  refine liveOf_reclaimed_eq_nil (fun i r hi hk ha => ?_) fun i r hi hk htrans => ?_
  · rcases h.index hi hk (isLive_iff.mpr (.inl ha)) with hc | ⟨-, htrans⟩
    · rw [if_pos (hs (by simp [hc])), hc]
    · rw [not_isInTransition_of_isAdded ha] at htrans
      cases htrans
  · rcases h.index hi hk (isLive_iff.mpr (.inr htrans)) with hc | ⟨hd, -⟩
    · exact .inl (by rw [if_pos (hs (by simp [hc])), hc])
    · exact .inr (by rw [if_pos (hs (h.isSome hd)), hd])

/-! ### Accesses that succeed -/

theorem updateState_success (hok : ∀ n, env.accessOk n = true) (i : ℕ) (mask : BitVec 8) :
    (updateState env s store i mask).status = .success := by
  simp [updateState, accessSucceeds, hok]

theorem deleteFound_success (hok : ∀ n, env.accessOk n = true) :
    (Var.deleteFound env s track).status = .success := by
  unfold Var.deleteFound
  cases track.inDeletedTransitionPtr <;> cases track.currPtr <;>
    simp [updateState_success hok]

theorem writeAll_success (hok : ∀ n, env.accessOk n = true) (n : ℕ) :
    (writeAll env store n s).1 = true := by
  induction n generalizing s with
  | zero => rfl
  | succ n ih => simp [writeAll, accessSucceeds, hok, ih]

/-! ### The stores the variable is not in -/

/-- The search result is of the store the new entry goes to. -/
structure InStore (track : PointerTrack) (store : StoreType) : Prop where
  curr : track.currPtr.isSome = true → track.store = store
  inDeleted : track.inDeletedTransitionPtr.isSome = true → track.store = store

theorem records_updateState_of_ne (h : store' ≠ store) :
    (updateState env s store i mask).state.records store' = s.records store' := by
  rcases updateState_cases env s store i mask with ho | ho
  · rw [ho, records_accessed]
  · rw [ho, records_setRecords_of_ne h, records_accessed]

theorem records_deleteFound_of_ne (hin : InStore track store) (h : store' ≠ store) :
    (Var.deleteFound env s track).state.records store' = s.records store' := by
  refine deleteFound_marks (R := fun s s' => s'.records store' = s.records store') (fun _ => rfl)
    (fun _ _ _ h₁₂ h₂₃ => h₂₃.trans h₁₂) fun s i hi => records_updateState_of_ne ?_
  rw [hi.elim (fun hc => hin.curr (by simp [hc])) fun hd => hin.inDeleted (by simp [hd])]
  exact h

theorem records_writeNew_of_ne (hin : InStore track store) (h : store' ≠ store) :
    (writeNew env s track store new).state.records store' = s.records store' := by
  obtain ⟨s₁, hr, -, ho | ho⟩ := writeNew_cases env s track store new
  · rw [ho]
    exact hr store'
  · rw [ho]
    exact (records_deleteFound_of_ne hin h).trans ((records_withNew_of_ne h).trans (hr _))

theorem records_reclaim_of_ne (h : store' ≠ store) :
    (reclaim env s store track new).state.records store' = s.records store' := by
  rcases reclaim_cases env s store track new with ⟨-, hr, -⟩ | ho
  · exact hr store'
  · rw [ho, records_recount, records_setRecords_of_ne h,
      records_accessed]

/-- In other stores the variable is as it was. -/
theorem CreateSteps.liveOf_of_ne (h : CreateSteps env s args track new o)
    (hin : InStore track args.store) (hst : store' ≠ args.store) (he : key ≠ varErrorFlagKey) :
    liveOf key (o.state.records store') = liveOf key (s.records store') := by
  cases h with
  | full => exact liveOf_recordSpaceErrors he
  | reclaimFailed hnv =>
    rw [store, if_pos hnv] at hst
    exact (liveOf_recordSpaceErrors he).trans (by rw [records_reclaim_of_ne hst])
  | reclaimed hnv =>
    rw [store, if_pos hnv] at hst
    exact congrArg _ (records_reclaim_of_ne hst)
  | reclaimedVolatile hnv =>
    rw [store, if_neg (by simp [hnv])] at hst
    exact congrArg _ (records_reclaim_of_ne hst)
  | written => exact congrArg _ (records_writeNew_of_ne hin hst)

/-! ### The store the variable is in -/

/-- **The new entry is the only one**, or the device fails. -/
theorem Spot.writeNew (env : Env) (h : Spot new.key (s.records store) track.currPtr
      track.inDeletedTransitionPtr L) (hin : InStore track store) (hsto : store ≠ .hob)
    (hnew : new.isAdded = true) :
    ((writeNew env s track store new).status = .success ∧
        liveOf new.key ((writeNew env s track store new).state.records store) = [new]) ∨
      ((writeNew env s track store new).status = .deviceError ∧
        (liveOf new.key ((writeNew env s track store new).state.records store) = L ∨
          ∃ L', L' <:+ L ∧ liveOf new.key ((writeNew env s track store new).state.records store) =
            L' ++ [new])) := by
  have hli : liveOf new.key [new] = [new] :=
    liveOf_cons_of_live (isLive_iff.mpr (.inl hnew)) rfl
  obtain ⟨s₁, hr, -, ho | ho⟩ := writeNew_cases env s track store new
  · rw [ho]
    exact .inr ⟨rfl, .inl (by rw [hr, h.liveOf_eq])⟩
  rw [ho]
  have hw : (withNew env s₁ store new).records store = s.records store ++ [new] := by
    rw [records_withNew_self hsto, hr]
  cases hc : track.currPtr with
  | none =>
    have hd : track.inDeletedTransitionPtr = none := by
      by_contra hd
      obtain ⟨i, hi⟩ := ne_none_iff_exists'.mp hd
      have := h.isSome hi
      rw [hc] at this
      cases this
    have hde : Var.deleteFound env (withNew env s₁ store new) track =
        ⟨.success, withNew env s₁ store new⟩ := by
      simp [Var.deleteFound, hc, hd]
    rw [hc, hd] at h
    have hnil : L = [] := by
      generalize s.records store = l at h
      cases h
      rfl
    refine .inl ⟨by rw [hde], ?_⟩
    rw [hde, hw, liveOf_append, h.liveOf_eq, hnil, hli]
    rfl
  | some i =>
    have hst := hin.curr (by simp [hc])
    have hde := Spot.deleteFound env h (by rw [hst]; exact hsto)
      (show (withNew env s₁ store new).records track.store = s.records store ++ [new] by
        rw [hst, hw])
    rw [hst, hli] at hde
    rcases hde with ⟨hs, hl⟩ | ⟨hs, L', -, hL', hl⟩
    · exact .inl ⟨hs, hl⟩
    · exact .inr ⟨hs, .inr ⟨L', hL', hl⟩⟩

/-- After a reclaim the new entry is the only one. -/
theorem Spot.reclaim (env : Env) (h : Spot new.key (s.records store) track.currPtr
      track.inDeletedTransitionPtr L) (hin : InStore track store) (hs : store ≠ .hob)
    (hnew : new.isAdded = true) :
    ((reclaim env s store track new).status = .success ∧
        liveOf new.key ((reclaim env s store track new).state.records store) = [new]) ∨
      ((reclaim env s store track new).status ∈ [.outOfResources, .deviceError] ∧
        liveOf new.key ((reclaim env s store track new).state.records store) = L) := by
  rcases reclaim_cases env s store track new with ⟨hst, hr, -⟩ | ho
  · exact .inr ⟨hst, by rw [hr, h.liveOf_eq]⟩
  · refine .inl ⟨by rw [ho], ?_⟩
    rw [ho, records_recount, records_setRecords_self hs, liveOf_append,
      h.reclaimKept hin.curr, liveOf_cons_of_live (isLive_iff.mpr (.inl hnew)) rfl]
    rfl

/-- **What creating an entry leaves of the variable.** -/
theorem CreateSteps.liveOf_eq (h : CreateSteps env s args track new o)
    (hsp : Spot new.key (s.records args.store) track.currPtr track.inDeletedTransitionPtr L)
    (hin : InStore track args.store) (hnew : new.isAdded = true)
    (he : new.key ≠ varErrorFlagKey) :
    (o.status = .success ∧ liveOf new.key (o.state.records args.store) = [new]) ∨
      (o.status ∈ [.outOfResources, .deviceError] ∧
        (liveOf new.key (o.state.records args.store) = L ∨
          (¬ ∀ n, env.accessOk n = true) ∧
            ∃ L', L' <:+ L ∧ liveOf new.key (o.state.records args.store) = L' ++ [new])) := by
  cases h with
  | full =>
    exact .inr ⟨by simp, .inl ((liveOf_recordSpaceErrors he).trans hsp.liveOf_eq)⟩
  | reclaimFailed hnv hf =>
    have hst : args.store = .nv := by rw [store, if_pos hnv]
    rw [hst] at hsp hin ⊢
    rcases Spot.reclaim env hsp hin (by decide) hnew with ⟨hs, -⟩ | ⟨hs, hl⟩
    · rw [hs] at hf
      cases hf
    · exact .inr ⟨hs, .inl ((liveOf_recordSpaceErrors he).trans hl)⟩
  | reclaimed hnv hok =>
    have hst : args.store = .nv := by rw [store, if_pos hnv]
    rw [hst] at hsp hin ⊢
    rcases Spot.reclaim env hsp hin (by decide) hnew with ⟨hs, hl⟩ | ⟨hs, -⟩
    · exact .inl ⟨hs, hl⟩
    · rw [EfiStatus.isError_eq_false] at hok
      rw [hok] at hs
      simp at hs
  | reclaimedVolatile hnv =>
    have hst : args.store = .volatile := by rw [store, if_neg (by simp [hnv])]
    rw [hst] at hsp hin ⊢
    rcases Spot.reclaim env hsp hin (by decide) hnew with ⟨hs, hl⟩ | ⟨hs, hl⟩
    · exact .inl ⟨hs, hl⟩
    · exact .inr ⟨hs, .inl hl⟩
  | written =>
    rcases Spot.writeNew env hsp hin store_ne_hob hnew with
      ⟨hs, hl⟩ | ⟨hs, hl | ⟨L', hL', hl⟩⟩
    · exact .inl ⟨hs, hl⟩
    · exact .inr ⟨by simp [hs], .inl hl⟩
    · refine .inr ⟨by simp [hs], .inr ⟨fun hok => ?_, L', hL', hl⟩⟩
      simp [writeNew, writeAll_success hok, deleteFound_success hok] at hs

/-! ### The update as a whole -/

/-- The value of a variable after a successful update. -/
def applied (env : Env) (args : UpdateArgs) : Option VarRecord → Option VarRecord
  | some old =>
    if args.isDelete then none
    else if old.data = args.data ∧ args.isAppend = false ∧ args.timeStamp = none then some old
    else some (newRecord env args (some old))
  | none => if args.data = [] then none else some (newRecord env args none)

/-- What an update makes of the variable, in the store the call names. -/
structure TargetSpec (env : Env) (s : VarState) (args : UpdateArgs) (status : EfiStatus)
    (s' : VarState) : Prop where
  rejected : status ∉ [.success, .outOfResources, .deviceError] → s' = s
  success : status = .success →
    valueOf args.key (s'.records args.store) =
        applied env args (valueOf args.key (s.records args.store)) ∧
      (liveOf args.key (s'.records args.store) = liveOf args.key (s.records args.store) ∨
        Single args.key (s'.records args.store))
  failed : status ≠ .success →
    valueOf args.key (s'.records args.store) = valueOf args.key (s.records args.store) ∨
      (¬ ∀ n, env.accessOk n = true) ∧
        valueOf args.key (s'.records args.store) =
          applied env args (valueOf args.key (s.records args.store))
  ordered : Ordered args.key (s'.records args.store)
  single : (∀ n, env.accessOk n = true) → Single args.key (s.records args.store) →
    Single args.key (s'.records args.store)
  contents : ∀ r ∈ liveOf args.key (s'.records args.store),
    (∃ x ∈ liveOf args.key (s.records args.store), r.asAdded = x.asAdded) ∨
      applied env args (valueOf args.key (s.records args.store)) = some r
  others : ∀ store, store ≠ args.store →
    liveOf args.key (s'.records store) = liveOf args.key (s.records store)
  idle : valueOf args.key (s.records args.store) = none → args.data = [] →
    s' = s ∧ (args.isAppend = false → status ≠ .success)

theorem Spot.getLast? (h : Spot key l curr inDeleted L) :
    curr.bind (fun i => l[i]?) = L.getLast? := by
  cases h with
  | empty => rfl
  | one => simp
  | two => simp

/-- The entry found is the last live one. -/
theorem Slot.found (h : Slot key (s.records store) track.currPtr track.inDeletedTransitionPtr)
    (hin : InStore track store) :
    track.found s = (liveOf key (s.records store)).getLast? := by
  rw [← h.spot.getLast?, PointerTrack.found]
  cases hc : track.currPtr with
  | none => rfl
  | some i => rw [hin.curr (by simp [hc])]

theorem isInTransition_of_mem_markLast (hl : ∀ r ∈ L, r.isLive = true) (h : TrackedList L) :
    ∀ r ∈ markLast L, r.isInTransition = true := by
  rcases L with _ | ⟨t, _ | ⟨a, _ | ⟨b, L⟩⟩⟩
  · simp [markLast]
  · simpa [markLast] using isInTransition_clearState (hl t (by simp))
  · simpa [markLast] using ⟨h.1, isInTransition_clearState (hl a (by simp))⟩
  · exact h.elim

theorem map_asAdded_markLast : (markLast L).map asAdded = L.map asAdded := by
  unfold markLast
  rcases eq_nil_or_concat L with rfl | ⟨L, r, rfl⟩
  · rfl
  · simp

variable {l' L₁ : List VarRecord}

theorem valueOf_concat (h : liveOf key l' = L ++ [new])
    (hnew : new.isAdded = true) : valueOf key l' = some new := by
  rw [valueOf, h]
  simp [asAdded_eq_self hnew]

theorem exists_asAdded_of_map (h : L₁.map asAdded =
    L.map asAdded) (hr : r ∈ L₁) : ∃ x ∈ L, r.asAdded = x.asAdded := by
  have hmem := mem_map_of_mem (f := asAdded) hr
  rw [h] at hmem
  obtain ⟨x, hx, heq⟩ := mem_map.mp hmem
  exact ⟨x, hx, heq.symm⟩

/-- From the state with the old entries marked, creating the new entry does what the update is to
do. -/
theorem CreateSteps.targetSpec {s₁ : VarState}
    (h : CreateSteps env s₁ args track new o) (hk : new.key = args.key)
    (hnew : new.isAdded = true)
    (hsp : Spot args.key (s₁.records args.store) track.currPtr track.inDeletedTransitionPtr L₁)
    (hin : InStore track args.store) (he : args.key ≠ varErrorFlagKey)
    (ha : applied env args (valueOf args.key (s.records args.store)) = some new)
    (htrans : ∀ r ∈ L₁, r.isInTransition = true)
    (hm : L₁.map asAdded =
      (liveOf args.key (s.records args.store)).map asAdded)
    (ho : ∀ store, store ≠ args.store →
      liveOf args.key (s₁.records store) = liveOf args.key (s.records store)) :
    TargetSpec env s args o.status o.state := by
  have hc := h.liveOf_eq (by rw [hk]; exact hsp) hin hnew (by rw [hk]; exact he)
  rw [hk] at hc
  have hre : o.status ∉ [.success, .outOfResources, .deviceError] → o.state = s := by
    intro hn
    rcases hc with ⟨hsta, -⟩ | ⟨hsta, -⟩
    · exact absurd (by simp [hsta]) hn
    · exact absurd (mem_cons_of_mem _ hsta) hn
  have hot : ∀ store, store ≠ args.store →
      liveOf args.key (o.state.records store) = liveOf args.key (s.records store) := fun store hst =>
    (h.liveOf_of_ne hin hst he).trans (ho store hst)
  have hid : valueOf args.key (s.records args.store) = none → args.data = [] →
      o.state = s ∧ (args.isAppend = false → o.status ≠ .success) := by
    intro hnone hd
    rw [hnone] at ha
    simp [applied, hd] at ha
  have her : o.status ∈ [EfiStatus.outOfResources, .deviceError] → o.status ≠ .success := by
    intro hmem heq
    rw [heq] at hmem
    simp at hmem
  rcases hc with ⟨hsta, hl⟩ | ⟨hsta, hl | ⟨hf, L', hL', hl⟩⟩
  · exact {
      rejected := hre
      success := fun _ => ⟨by
        rw [ha, valueOf_concat (L := []) (by rw [hl]; rfl) hnew], .inr (by simp [Single, hl])⟩
      failed := fun hne => absurd hsta hne
      ordered := by unfold Ordered; rw [hl]; trivial
      single := fun _ _ => by simp [Single, hl]
      contents := fun r hr => by
        rw [hl, mem_singleton] at hr
        exact .inr (by rw [ha, hr])
      others := hot
      idle := hid }
  · exact {
      rejected := hre
      success := fun hsu => absurd hsu (her hsta)
      failed := fun _ => .inl (by
        rw [valueOf, valueOf, ← List.getLast?_map, ← List.getLast?_map, hl, hm])
      ordered := by
        unfold Ordered
        rw [hl, orderedList_iff]
        exact fun t ht => htrans t ((dropLast_sublist _).subset ht)
      single := fun _ hs => by
        unfold Single at ⊢
        rw [hl, ← length_map, hm, length_map]
        exact hs
      contents := fun r hr => .inl (exists_asAdded_of_map hm (hl ▸ hr))
      others := hot
      idle := hid }
  · have hL'trans : ∀ r ∈ L', r.isInTransition = true := fun r hr => htrans r (hL'.subset hr)
    exact {
      rejected := hre
      success := fun hsu => absurd hsu (her hsta)
      failed := fun _ => .inr ⟨hf, by rw [ha, valueOf_concat hl hnew]⟩
      ordered := by
        unfold Ordered
        rw [hl, orderedList_iff, dropLast_concat]
        exact hL'trans
      single := fun hok => absurd hok hf
      contents := fun r hr => by
        rw [hl] at hr
        rcases mem_append.mp hr with hr | hr
        · exact .inl (exists_asAdded_of_map hm (hL'.subset hr))
        · rw [mem_singleton] at hr
          exact .inr (by rw [ha, hr])
      others := hot
      idle := hid }

/-- An update that changes nothing. -/
theorem targetSpec_same {status : EfiStatus} (ht : Tracked args.key (s.records args.store))
    (ha : status = .success → applied env args (valueOf args.key (s.records args.store)) =
      valueOf args.key (s.records args.store))
    (hap : status = .success → valueOf args.key (s.records args.store) = none →
      args.isAppend = true) : TargetSpec env s args status s where
  rejected _ := rfl
  success hst := ⟨(ha hst).symm, .inl rfl⟩
  failed _ := .inl rfl
  ordered := ht.ordered
  single _ hs := hs
  contents r hr := .inl ⟨r, hr, rfl⟩
  others _ _ := rfl
  idle hnone _ := ⟨rfl, fun hn hsu => by
    rw [hap hsu hnone] at hn
    cases hn⟩

/-- An update that deletes the variable. -/
theorem targetSpec_deleteFound (htr : Tracked args.key (s.records args.store))
    (hsp : Spot args.key (s.records args.store) track.currPtr track.inDeletedTransitionPtr
      (liveOf args.key (s.records args.store)))
    (hin : InStore track args.store) (hst : track.store = args.store) {old : VarRecord}
    (hv : valueOf args.key (s.records args.store) = some old) (hde : args.isDelete = true) :
    TargetSpec env s args (Var.deleteFound env s track).status
      (Var.deleteFound env s track).state := by
  have ho : ∀ store, store ≠ args.store →
      liveOf args.key ((Var.deleteFound env s track).state.records store) =
        liveOf args.key (s.records store) := fun store hne =>
    congrArg _ (records_deleteFound_of_ne hin hne)
  have hso : valueOf args.key (s.records args.store) ≠ none := by
    rw [hv]
    exact nofun
  have hd := Spot.deleteFound env hsp (by rw [hst]; exact store_ne_hob)
    (by rw [hst, append_nil])
  simp only [hst, liveOf_nil, append_nil] at hd
  rcases hd with ⟨hsta, hl⟩ | ⟨hsta, L', hne, hL', hl⟩
  · exact {
      rejected := fun hn => absurd (by simp [hsta]) hn
      success := fun _ => ⟨by rw [hv, applied, if_pos hde, valueOf, hl]; rfl,
        .inr (by simp [Single, hl])⟩
      failed := fun hf => absurd hsta hf
      ordered := by unfold Ordered; rw [hl]; trivial
      single := fun _ _ => by simp [Single, hl]
      contents := fun r hr => by rw [hl] at hr; cases hr
      others := ho
      idle := fun hnone => absurd hnone hso }
  · obtain ⟨p, hp⟩ := hL'
    exact {
      rejected := fun hn => absurd (by simp [hsta]) hn
      success := fun hs => by rw [hsta] at hs; cases hs
      failed := fun _ => .inl (by
        rw [valueOf, valueOf, hl, ← hp, List.getLast?_append_of_ne_nil _ hne])
      ordered := by
        unfold Ordered
        rw [hl, orderedList_iff]
        intro t ht
        refine orderedList_iff.mp htr.ordered t ?_
        rw [← hp, dropLast_append_of_ne_nil hne]
        exact mem_append_right p ht
      single := fun hok _ => by
        rw [deleteFound_success hok] at hsta
        cases hsta
      contents := fun r hr => .inl ⟨r, hp ▸ mem_append_right p (hl ▸ hr), rfl⟩
      others := ho
      idle := fun hnone => absurd hnone hso }

/-- **What an update does to its variable.** -/
theorem updateFound_target (env : Env)
    (htr : Tracked args.key (s.records args.store))
    (hsl : Slot args.key (s.records args.store) track.currPtr track.inDeletedTransitionPtr)
    (hin : InStore track args.store) (he : args.key ≠ varErrorFlagKey) :
    TargetSpec env s args (updateFound env s args track).status
      (updateFound env s args track).state := by
  have hsp := hsl.spot
  have hfo := hsl.found hin
  have hv : valueOf args.key (s.records args.store) =
      (track.found s).map asAdded := by rw [valueOf, hfo]
  have hst := updateSteps_updateFound env s args track
  generalize updateFound env s args track = o at hst
  cases hst with
  | @rejected status hsta =>
    have hne : status ≠ .success := by
      rintro rfl
      simp at hsta
    exact targetSpec_same htr (fun hs => absurd hs hne) fun hs => absurd hs hne
  | @unchanged i old hc hold hde hda ha ht =>
    rw [hold] at hv
    refine targetSpec_same htr (fun _ => ?_) fun _ hnone => by cases hv.symm.trans hnone
    rw [hv, map_some, applied, if_neg (by simp [hde]),
      if_pos ⟨hda, ha, ht⟩]
  | nothing hnone hda ha =>
    refine targetSpec_same htr (fun _ => ?_) fun _ _ => ha
    rw [hv, hnone, map_none, applied, if_pos hda]
  | @deleted i old hc hold hde =>
    rw [hold] at hv
    exact targetSpec_deleteFound htr hsp hin (hin.curr (by simp [hc])) hv hde
  | @markFailed i old hc hold hf =>
    rcases updateState_cases env s track.store i varInDeletedTransition with ho | ho
    · rw [ho]
      exact {
        rejected := fun hn => absurd (by simp) hn
        success := fun hsu => nomatch hsu
        failed := fun _ => .inl (by rw [records_accessed])
        ordered := by rw [records_accessed]; exact htr.ordered
        single := fun _ hs => by rw [records_accessed]; exact hs
        contents := fun r hr => .inl ⟨r, by rwa [records_accessed] at hr, rfl⟩
        others := fun _ _ => by rw [records_accessed]
        idle := fun hnone => absurd hnone (by rw [hv, hold]; nofun) }
    · rw [ho] at hf
      cases hf
  | @replaced i old hc hold hde hd hok =>
    have hm : ∀ store, (updateState env s track.store i varInDeletedTransition).state.records store =
        if store = args.store then
          (s.records store).modify i fun r => r.clearState varInDeletedTransition
        else s.records store := by
      intro store
      have hst : track.store = args.store := hin.curr (by simp [hc])
      rcases updateState_cases env s track.store i varInDeletedTransition with ho | ho
      · rw [ho] at hok
        cases hok
      split_ifs with heq
      · rw [ho, heq, hst, records_setRecords_self store_ne_hob]
      · exact records_updateState_of_ne (by rwa [hst])
    have hma : Spot args.key
        ((updateState env s track.store i varInDeletedTransition).state.records args.store)
        track.currPtr track.inDeletedTransitionPtr
        (markLast (liveOf args.key (s.records args.store))) := by
      rw [hm, if_pos rfl, hc]
      exact (hc ▸ hsp).mark
    have hl : ∀ r ∈ liveOf args.key (s.records args.store), r.isLive = true := fun r hr =>
      (mem_liveOf.mp hr).2.1
    refine (createSteps_createNew ..).targetSpec rfl rfl hma hin he ?_
      (isInTransition_of_mem_markLast hl htr) map_asAdded_markLast ?_
    · rw [hv, hold, map_some, applied, if_neg (by simp [hde])]
      exact if_neg hd
    · intro store hne
      rw [hm, if_neg hne]
  | created hnone hda hac =>
    have hnil : liveOf args.key (s.records args.store) = [] := by
      rw [hnone] at hfo
      exact List.getLast?_eq_none_iff.mp hfo.symm
    refine (createSteps_createNew ..).targetSpec rfl rfl
      hsp hin he ?_ (by simp [hnil]) rfl fun _ _ => rfl
    rw [valueOf, hnil]
    exact if_neg hda

end Target

end Edk2.Var
