import Edk2.Var.Flush
import Edk2.Var.Listing

/-!
# The variables as a map

At boot time, without a HOB store and on a device that does not fail, the stores behave as a map
from names and GUIDs to attributes and data: each request that succeeds changes the map at its
variable, and each request that fails leaves the map alone.

`VariableServiceSetVariable` does not rewrite a variable with other attributes. So a variable stays
in the store that its attributes name, and has no second live entry there or elsewhere. A request
that does not fit is recorded in the variable `VarErrorFlag`, so that this variable changes although
no request names it.

## Main results

* `setVariable_spec`: what one request does
* `readBack_of_run`: what is read back after any run of requests
* `not_readBack_flag`: `VarErrorFlag` after a request that failed
-/

namespace Edk2.Var

open List Option VarRecord
open Function (update_self update_of_ne)

variable {env : Env} {s s' : VarState} {key : VarKey} {store : StoreType} {args : UpdateArgs}

/-! ## Requests -/

/-- The end of `VariableServiceSetVariable`, behind the checks of sizes and policies: a variable is
not rewritten with other attributes. -/
def setVariable (env : Env) (s : VarState) (args : UpdateArgs) : Outcome :=
  if args.key.1 = [] then ⟨.invalidParameter, s⟩
  else
    let track := findVariable env s args.key true
    match track.found s with
    | some r =>
      if env.atRuntime && !hasAttribute r.attributes efiVariableRuntimeAccess then
        ⟨.writeProtected, s⟩
      else if args.attributes ≠ 0#32 ∧
          args.attributes &&& ~~~efiVariableAppendWrite ≠ r.attributes then
        ⟨.invalidParameter, s⟩
      else updateVariable env s args track
    | none => updateVariable env s args track

/-- The driver runs at boot time, and its device and its allocations do not fail. -/
structure AtBoot (env : Env) : Prop where
  boot : env.atRuntime = false
  accessOk : ∀ n, env.accessOk n = true

theorem AtBoot.visible (h : AtBoot env) (hn : key.1 ≠ []) : Visible env s key :=
  ⟨hn, fun hr => by simp [h.boot] at hr⟩

structure SetCall where
  env : Env
  args : UpdateArgs
  status : EfiStatus

def SetStep (s : VarState) (c : SetCall) (s' : VarState) : Prop :=
  AtBoot c.env ∧ (setVariable c.env s c.args).status = c.status ∧
    (setVariable c.env s c.args).state = s'

/-! ## The map -/

/-- What is read back of a variable: its attributes and its data. -/
abbrev VarValue := BitVec 32 × List UInt8

abbrev VarMap := VarKey → Option VarValue

def VarRecord.value (r : VarRecord) : VarValue := (r.attributes, r.data)

/-- What `FindVariable` reads back. -/
def readBack (env : Env) (s : VarState) : VarMap := fun key =>
  (lookup env s key).map value

/-- The value that a request gives to a variable. -/
def UpdateArgs.valueFrom (args : UpdateArgs) : Option VarValue → Option VarValue
  | none =>
    if args.data = [] then none
    else some (args.attributes &&& ~~~efiVariableAppendWrite, args.data)
  | some old =>
    if args.isDelete then none
    else some (args.attributes &&& ~~~efiVariableAppendWrite,
      if args.isAppend then old.2 ++ args.data else args.data)

/-- A request changes the map if it succeeds. -/
def SetCall.applyTo (c : SetCall) (map : VarMap) : VarMap :=
  if c.status = .success then Function.update map c.args.key (c.args.valueFrom (map c.args.key))
  else map

theorem SetCall.applyTo_apply (c : SetCall) (map : VarMap) (key : VarKey) :
    c.applyTo map key = if c.status = .success ∧ key = c.args.key then c.args.valueFrom (map key)
      else map key := by
  unfold SetCall.applyTo
  by_cases hs : c.status = .success
  · rw [if_pos hs]
    by_cases hk : key = c.args.key
    · rw [if_pos ⟨hs, hk⟩, hk, update_self]
    · rw [if_neg (fun h => hk h.2), update_of_ne hk]
  · rw [if_neg hs, if_neg (fun h => hs h.1)]

/-! ## Where variables are -/

/-- A variable has one live entry at most, in the store that its attributes name. -/
structure Home (s : VarState) (key : VarKey) (store : StoreType) : Prop where
  notHob : store ≠ .hob
  single : Single key (s.records store)
  others : ∀ store', store' ≠ store → liveOf key (s.records store') = []
  kind : ∀ r, valueOf key (s.records store) = some r →
    (hasAttribute r.attributes efiVariableNonVolatile = true ↔ store = .nv)

/-- There is no HOB store, and every variable but `VarErrorFlag` is where it belongs. -/
structure WellPlaced (s : VarState) : Prop where
  noHob : s.hobStore = none
  home : ∀ key, key ≠ varErrorFlagKey → ∃ store, Home s key store

namespace Home

theorem ordered (h : Home s key store) (store' : StoreType) : Ordered key (s.records store') := by
  by_cases hs : store' = store
  · exact hs ▸ h.single.tracked.ordered
  · exact (single_of_nil (h.others store' hs)).tracked.ordered

theorem current_eq (h : Home s key store) : current s key = valueOf key (s.records store) := by
  have hh := h.others .hob h.notHob.symm
  rw [current_of_home (fun store' hne _ => h.others store' hne) h.notHob (.inr hh),
    valueOf_eq_none_iff.mpr hh, none_or]

theorem lookup_eq (h : Home s key store) (he : AtBoot env) (hn : key.1 ≠ []) :
    (lookup env s key).map asAdded = valueOf key (s.records store) := by
  rw [lookup_eq_current (he.visible hn) h.ordered, h.current_eq]

theorem readBack_eq (h : Home s key store) (he : AtBoot env) (hn : key.1 ≠ []) :
    readBack env s key = (valueOf key (s.records store)).map value := by
  rw [← h.lookup_eq he hn, Option.map_map]
  rfl

theorem of_nil (hs : store ≠ .hob) (hnil : ∀ store', liveOf key (s.records store') = []) :
    Home s key store where
  notHob := hs
  single := single_of_nil (hnil store)
  others store' _ := hnil store'
  kind r hr := by
    rw [valueOf_eq_none_iff.mpr (hnil store)] at hr
    cases hr

theorem nil (h : Home s key store) (hnone : valueOf key (s.records store) = none)
    (store' : StoreType) : liveOf key (s.records store') = [] := by
  by_cases hs : store' = store
  · exact hs ▸ valueOf_eq_none_iff.mp hnone
  · exact h.others store' hs

theorem value_keeps (h : Home s key store) (hk : KeepsAll key s s') :
    valueOf key (s'.records store) = valueOf key (s.records store) :=
  (hk store).value h.single.tracked

theorem keeps (h : Home s key store) (hk : KeepsAll key s s') : Home s' key store where
  notHob := h.notHob
  single := (hk store).single h.single
  others store' hne := (hk store').liveOf_eq_nil (h.others store' hne)
  kind r hr := h.kind r ((h.value_keeps hk).symm.trans hr)

theorem readBack_keeps (h : Home s key store) (hk : KeepsAll key s s') (he : AtBoot env)
    (hn : key.1 ≠ []) : readBack env s' key = readBack env s key := by
  rw [(h.keeps hk).readBack_eq he hn, h.readBack_eq he hn, h.value_keeps hk]

theorem ready (h : Home s args.key args.store) (he : AtBoot env) (hn : args.key.1 ≠ [])
    (hf : args.key ≠ varErrorFlagKey) (hh : s.hobStore = none) :
    Ready env s args.key args.store := by
  have hnil := h.others .hob h.notHob.symm
  exact {
    named := hn
    attributes := fun hru => by simp [he.boot] at hru
    notFlag := hf
    tracked := h.single.tracked
    home := fun store' hne _ => h.others store' hne
    hobHome := .inr hnil
    hobSingle := single_of_nil hnil
    hobAdded := forall_mem_of_nil hnil
    hobNamed := fun r hr => by simp [VarState.records, hh] at hr }

end Home

/-! ## One request -/

theorem hasAttribute_and_not_append (attributes : BitVec 32) :
    hasAttribute (attributes &&& ~~~efiVariableAppendWrite) efiVariableNonVolatile =
      hasAttribute attributes efiVariableNonVolatile := by
  have hm : ~~~efiVariableAppendWrite &&& efiVariableNonVolatile = efiVariableNonVolatile := by
    decide
  rw [hasAttribute, hasAttribute, BitVec.and_assoc, hm]

/-- The check of the attributes against those of the variable. -/
def SameAttributes (args : UpdateArgs) (old : Option VarRecord) : Prop :=
  ∀ r, old = some r → args.attributes = 0#32 ∨
    args.attributes &&& ~~~efiVariableAppendWrite = r.attributes

theorem isDelete_of_zero (h : args.attributes = 0#32) : args.isDelete = true := by
  simp [UpdateArgs.isDelete, UpdateArgs.hasAccess, hasAttribute, h]

/-- What `applied` says, as attributes and data. -/
theorem value_applied {old : Option VarRecord} (hs : SameAttributes args old) :
    (applied env args old).map value = args.valueFrom (old.map value) := by
  cases old with
  | none =>
    simp only [applied, UpdateArgs.valueFrom, map_none]
    split_ifs
    · rfl
    · rfl
  | some r =>
    simp only [applied, UpdateArgs.valueFrom, map_some]
    split_ifs with hd he ha ha
    · rfl
    · rw [he.2.1] at ha
      cases ha
    · rcases hs r rfl with hz | hattr
      · exact absurd (isDelete_of_zero hz) hd
      · rw [hattr, ← he.1]
        rfl
    · simp [newRecord, newData, value, ha]
    · simp [newRecord, newData, value, ha]

theorem attribute_applied {r : VarRecord} (h : Home s args.key args.store)
    (hr : applied env args (valueOf args.key (s.records args.store)) = some r) :
    hasAttribute r.attributes efiVariableNonVolatile = true ↔ args.store = .nv := by
  have hnew : ∀ old, newRecord env args old = r →
      (hasAttribute r.attributes efiVariableNonVolatile = true ↔ args.store = .nv) := by
    rintro old rfl
    rw [UpdateArgs.store_eq_nv_iff]
    show hasAttribute (args.attributes &&& ~~~efiVariableAppendWrite) _ = true ↔ _
    rw [hasAttribute_and_not_append]
    rfl
  cases hold : valueOf args.key (s.records args.store) with
  | none =>
    rw [hold, applied] at hr
    split_ifs at hr
    exact hnew none (some.inj hr)
  | some old =>
    rw [hold, applied] at hr
    split_ifs at hr
    · exact h.kind r (hold.trans hr)
    · exact hnew (some old) (some.inj hr)

/-- What a request should do to its variable. -/
structure Answered (env : Env) (s : VarState) (args : UpdateArgs) (status : EfiStatus)
    (s' : VarState) : Prop where
  home : ∃ store, Home s' args.key store
  value : readBack env s' args.key =
    if status = .success then args.valueFrom (readBack env s args.key)
    else readBack env s args.key

theorem Home.answered (h : Home s key store) (hk : args.key = key) {status : EfiStatus}
    (hf : status ≠ .success) : Answered env s args status s where
  home := ⟨store, hk ▸ h⟩
  value := by rw [if_neg hf]

theorem TargetSpec.answered {status : EfiStatus} (h : TargetSpec env s args status s')
    (hh : Home s args.key args.store) (he : AtBoot env) (hn : args.key.1 ≠ [])
    (hsa : SameAttributes args (valueOf args.key (s.records args.store))) :
    Answered env s args status s' := by
  have hv : valueOf args.key (s'.records args.store) =
      if status = .success then applied env args (valueOf args.key (s.records args.store))
      else valueOf args.key (s.records args.store) := by
    split_ifs with hs
    · exact (h.success hs).1
    · exact (h.failed hs).resolve_right fun hno => hno.1 he.accessOk
  have hh' : Home s' args.key args.store := {
    notHob := hh.notHob
    single := h.single he.accessOk hh.single
    others := fun store' hne => (h.others store' hne).trans (hh.others store' hne)
    kind := fun r hr => by
      rw [hv] at hr
      split_ifs at hr
      · exact attribute_applied hh hr
      · exact hh.kind r hr }
  refine ⟨⟨_, hh'⟩, ?_⟩
  rw [hh'.readBack_eq he hn, hh.readBack_eq he hn, hv]
  split_ifs
  · exact value_applied hsa
  · rfl

/-- A request without attributes deletes a variable from whatever store it is in. -/
theorem Home.deleted (h : Home s args.key .nv) (he : AtBoot env) (hn : args.key.1 ≠ [])
    (hd : args.isDelete = true) (hv : valueOf args.key (s.records .nv) ≠ none) :
    let o := updateFound env s args (findVariableEx env false args.key .nv (s.records .nv))
    Answered env s args o.status o.state := by
  have hsl := slot_of_found (findVariableEx_found env false args.key .nv (s.records .nv))
    ((he.visible hn).sees .nv) h.single.tracked
  have hin : InStore (findVariableEx env false args.key .nv (s.records .nv)) .nv :=
    inStore_findVariableEx
  have hfo : (findVariableEx env false args.key .nv (s.records .nv)).found s ≠ none := by
    intro hnone
    rw [hsl.found hin] at hnone
    exact hv (by rw [valueOf, hnone]; rfl)
  have hs := updateSteps_updateFound env s args
    (findVariableEx env false args.key .nv (s.records .nv))
  generalize ht : findVariableEx env false args.key .nv (s.records .nv) = track at *
  have hst : track.store = .nv := by rw [← ht]; rfl
  generalize updateFound env s args track = o at hs
  cases hs with
  | @rejected status hsta =>
    refine h.answered rfl fun hsu => ?_
    rw [show status = .success from hsu] at hsta
    simp at hsta
  | unchanged _ _ hno => rw [hd] at hno; cases hno
  | nothing hnone => exact absurd hnone hfo
  | markFailed _ _ hf =>
    rw [updateState_success he.accessOk] at hf
    cases hf
  | replaced _ _ hno => rw [hd] at hno; cases hno
  | created hnone => exact absurd hnone hfo
  | deleted =>
    have hsu : (deleteFound env s track).status = .success :=
      deleteFound_success he.accessOk
    have hg : liveOf args.key ((deleteFound env s track).state.records .nv) = [] := by
      have hre : s.records track.store = s.records .nv ++ [] := by rw [hst, append_nil]
      rcases hsl.spot.deleteFound env (by rw [hst]; decide) hre with
        ⟨-, hl⟩ | ⟨hf, -⟩
      · rwa [hst] at hl
      · rw [hsu] at hf
        cases hf
    have hh : Home (deleteFound env s track).state args.key .nv := by
      refine .of_nil (by decide) fun store' => ?_
      by_cases hne : store' = .nv
      · rw [hne]
        exact hg
      · rw [records_deleteFound_of_ne hin hne]
        exact h.others store' hne
    refine ⟨⟨_, hh⟩, ?_⟩
    rw [if_pos hsu, hh.readBack_eq he hn, h.readBack_eq he hn,
      valueOf_eq_none_iff.mpr hg]
    obtain ⟨r, hr⟩ := ne_none_iff_exists'.mp hv
    rw [hr]
    simp [UpdateArgs.valueFrom, hd]

theorem findVariable_boot (he : AtBoot env) (s : VarState) (key : VarKey) :
    findVariable env s key true = findVariable env s key false := by
  have hm : matchesKey env true key = matchesKey env false key := by
    funext r
    simp [matchesKey, he.boot]
  unfold findVariable findVariableEx
  rw [hm]

/-- A request is refused, or reaches `UpdateVariable`. -/
theorem setVariable_cases (he : AtBoot env) (s : VarState) (args : UpdateArgs) :
    (∃ status, status ≠ .success ∧ setVariable env s args = ⟨status, s⟩) ∨
      args.key.1 ≠ [] ∧ SameAttributes args (lookup env s args.key) ∧
        setVariable env s args = variableExLibUpdateVariable env s args := by
  unfold setVariable
  rw [findVariable_boot he]
  split_ifs with hempty
  · exact .inl ⟨_, by simp, rfl⟩
  dsimp only
  split
  · rename_i r hr
    rw [he.boot]
    by_cases ho : args.attributes ≠ 0#32 ∧
        args.attributes &&& ~~~efiVariableAppendWrite ≠ r.attributes
    · rw [if_pos ho]
      exact .inl ⟨_, by simp, rfl⟩
    · rw [if_neg ho]
      refine .inr ⟨hempty, fun r' hr' => ?_, rfl⟩
      obtain rfl : r = r' := some.inj (hr.symm.trans hr')
      tauto
  · rename_i hnone
    refine .inr ⟨hempty, fun r' hr' => ?_, rfl⟩
    cases hnone.symm.trans hr'

/-- **A request that reaches `UpdateVariable` does what it says to its variable.** -/
theorem answered_update (h : WellPlaced s) (hen : AtBoot env) (hn : args.key.1 ≠ [])
    (hfl : args.key ≠ varErrorFlagKey) (hsa : SameAttributes args (lookup env s args.key)) :
    Answered env s args (variableExLibUpdateVariable env s args).status
      (variableExLibUpdateVariable env s args).state := by
  obtain ⟨home, hh⟩ := h.home args.key hfl
  have hl := hh.lookup_eq hen hn
  have hs' : SameAttributes args (valueOf args.key (s.records home)) := by
    intro r hr
    obtain ⟨r', hr', rfl⟩ := map_eq_some_iff.mp (hl.trans hr)
    exact hsa r' hr'
  have hste := libSteps_variableExLibUpdateVariable env s args
  generalize variableExLibUpdateVariable env s args = o at hste
  cases hste with
  | notReady => exact hh.answered rfl (by simp)
  | hobOnly _ hho =>
    obtain ⟨r, hr, -⟩ := hho
    simp [VarState.records, h.noHob] at hr
  | @found store hsto hvo =>
    have hf : HobFrom s (updateFound env s args
        (findVariableEx env false args.key store (s.records store))).state :=
      hobFrom_updateFound hsto
    have hsta : ((updateFound env s args (findVariableEx env false args.key store
        (s.records store))).finish env args.key).state = (updateFound env s args
          (findVariableEx env false args.key store (s.records store))).state := by
      rw [UpdateOutcome.finish_state, flushHobVariableToFlash, hf.absent h.noHob]
      exact ite_self _
    rw [hsta]
    by_cases hnone : valueOf args.key (s.records home) = none
    -- the variable is in no store, so it is at in the one that the request names
    · have hnil := hh.nil hnone
      have hargs : Home s args.key args.store := .of_nil UpdateArgs.store_ne_hob hnil
      have hre := hargs.ready hen hn hfl h.noHob
      obtain ⟨hin, hs⟩ := hre.slot hsto hvo
      refine (updateFound_target env hre.tracked hs hin hfl).answered hargs hen hn ?_
      rw [valueOf_eq_none_iff.mpr (hnil _)]
      rintro _ ⟨⟩
    by_cases hargs : home = args.store
    · rw [hargs] at hh hs'
      have hre := hh.ready hen hn hfl h.noHob
      obtain ⟨hin, hs⟩ := hre.slot hsto hvo
      refine (updateFound_target env hre.tracked hs hin hfl).answered hh hen hn ?_
      exact hs'
    -- the request names another store, which it may do only when it deletes
    · obtain ⟨r, hr⟩ := ne_none_iff_exists'.mp hnone
      have ha := hh.kind r hr
      have hz : args.attributes = 0#32 := by
        refine (hs' r hr).resolve_right fun he => hargs ?_
        rw [← he, hasAttribute_and_not_append] at ha
        have hif : home = .nv ↔ args.store = .nv :=
          ha.symm.trans UpdateArgs.store_eq_nv_iff.symm
        have hne : args.store ≠ .hob := UpdateArgs.store_ne_hob
        have hho := hh.notHob
        cases home <;> cases hst : args.store <;> simp_all
      have hv : args.store = .volatile := by
        simp [UpdateArgs.store, UpdateArgs.isNonVolatile, hasAttribute, hz]
      obtain rfl : home = .nv := by
        have hho := hh.notHob
        cases home with
        | volatile => exact absurd hv.symm hargs
        | hob => exact absurd rfl hho
        | nv => rfl
      obtain rfl : store = .nv := by
        rw [(hen.visible hn).holds_iff, hh.others .volatile (by decide)] at hvo
        cases store with
        | volatile => exact absurd rfl (hvo.mp rfl)
        | hob => exact absurd rfl hsto
        | nv => rfl
      exact hh.deleted hen hn (isDelete_of_zero hz) hnone

/-- **What one request does**: it changes its own variable as it says if it succeeds, and nothing
else. -/
theorem setVariable_spec (h : WellPlaced s) (he : AtBoot env) (args : UpdateArgs) :
    WellPlaced (setVariable env s args).state ∧ ∀ key, key.1 ≠ [] → key ≠ varErrorFlagKey →
      readBack env (setVariable env s args).state key =
        (SetCall.mk env args (setVariable env s args).status).applyTo (readBack env s) key := by
  simp only [SetCall.applyTo_apply]
  rcases setVariable_cases he s args with ⟨status, hfa, heq⟩ | ⟨hn, hsa, heq⟩
  · rw [heq]
    exact ⟨h, fun key _ _ => (if_neg fun hs => hfa hs.1).symm⟩
  rw [heq]
  have hhn : HobNamed s := fun r hr => by simp [VarState.records, h.noHob] at hr
  have hke : ∀ key, key ≠ args.key → key ≠ varErrorFlagKey →
      KeepsAll key s (variableExLibUpdateVariable env s args).state := by
    intro key hne hf
    obtain ⟨store, hh⟩ := h.home key hf
    exact updateVariable_keeps hn hhn hne hf (hh.others .hob hh.notHob.symm)
  refine ⟨⟨(hobFrom_updateVariable hhn).absent h.noHob, fun key hf => ?_⟩,
    fun key hk hf => ?_⟩
  · by_cases hne : key = args.key
    · rw [hne] at hf ⊢
      exact (answered_update h he hn hf hsa).home
    · obtain ⟨store, hh⟩ := h.home key hf
      exact ⟨store, hh.keeps (hke key hne hf)⟩
  · by_cases hne : key = args.key
    · rw [hne] at hf ⊢
      rw [(answered_update h he hn hf hsa).value]
      simp only [and_true]
    · obtain ⟨store, hh⟩ := h.home key hf
      rw [hh.readBack_keeps (hke key hne hf) he hk, if_neg fun h => hne h.2]

/-! ## Runs -/

/-- What is read back at boot time does not depend on the platform. -/
theorem readBack_boot {env' : Env} (he : AtBoot env) (he' : AtBoot env') (s : VarState) :
    readBack env s = readBack env' s := by
  have hm : ∀ key, matchesKey env false key = matchesKey env' false key := by
    intro key
    funext r
    simp [matchesKey, he.boot, he'.boot]
  funext key
  unfold readBack lookup findVariable findVariableEx
  rw [hm]

/-- A state in which an update calls `Reclaim`: the one it was called in, or with the entry found
marked. -/
def MidUpdate (env : Env) (s : VarState) (args : UpdateArgs) (s₁ : VarState) : Prop :=
  s₁ = s ∨ ∃ i, (findVariable env s args.key true).currPtr = some i ∧
    s₁ = (updateState env s (findVariable env s args.key true).store i
      varInDeletedTransition).state

/-- A reclaim in the middle of an update leaves the other variables alone. -/
theorem keepsAll_midUpdate {s₁ : VarState} {new : VarRecord} (h : s.hobStore = none)
    (he : AtBoot env) (hn : args.key.1 ≠ []) (hne : key ≠ args.key) (hs : store ≠ .hob)
    (hnew : new.key = args.key) (hm : MidUpdate env s args s₁) :
    KeepsAll key s (reclaim env s₁ store (findVariable env s args.key true) new).state := by
  unfold MidUpdate at hm
  rw [findVariable_boot he] at hm ⊢
  have hp : PointsTo s args.key (findVariable env s args.key false) := by
    obtain ⟨store', heq, hc⟩ := findVariable_cases env s args.key false
    rw [heq]
    refine pointsTo_findVariableEx hn ?_
    rcases hc with ⟨rfl, -⟩ | ⟨rfl, -, ⟨r, hr, -⟩⟩ | ⟨rfl, -⟩
    · decide
    · simp [VarState.records, h] at hr
    · decide
  rcases hm with rfl | ⟨i, hi, rfl⟩
  · exact keepsAll_reclaim hs (hnew ▸ hp) (hnew ▸ hne)
  · have hma : PointsTo (updateState env s _ i varInDeletedTransition).state args.key _ :=
      hp.updateState i varInDeletedTransition
    refine (keepsAll_updateState hp.store fun r hr => ?_).trans
      (keepsAll_reclaim hs (hnew ▸ hma) (hnew ▸ hne))
    rw [hp.curr i r hi hr]
    exact hne.symm

/-- **The variables are a map.** After every run of requests at boot time, what is read back of a
variable other than `VarErrorFlag` is what the requests that succeeded have made of it, and a
reclaim in the middle of a further request leaves every other variable as it is. -/
theorem readBack_of_run {s₀ : VarState} {calls : List SetCall} (henv : AtBoot env)
    (h : WellPlaced s₀) (hrun : Run SetStep s₀ calls s) (hnamed : key.1 ≠ [])
    (hflag : key ≠ varErrorFlagKey) :
    readBack env s key = calls.foldl (fun map c => c.applyTo map) (readBack env s₀) key ∧
      ∀ (args : UpdateArgs) (store : StoreType) (new : VarRecord) (s₁ : VarState),
        args.key.1 ≠ [] → key ≠ args.key → store ≠ .hob → new.key = args.key →
        MidUpdate env s args s₁ →
        readBack env (reclaim env s₁ store (findVariable env s args.key true) new).state key =
          readBack env s key := by
  have hr : WellPlaced s ∧ ∀ key, key.1 ≠ [] → key ≠ varErrorFlagKey →
      readBack env s key = calls.foldl (fun map c => c.applyTo map) (readBack env s₀) key := by
    refine Run.history (P := fun calls s => WellPlaced s ∧ ∀ key, key.1 ≠ [] →
      key ≠ varErrorFlagKey →
        readBack env s key = calls.foldl (fun map c => c.applyTo map) (readBack env s₀) key)
      ⟨h, fun _ _ _ => rfl⟩ ?_ hrun
    rintro calls s ⟨env', args, status⟩ s' ⟨hs, hre⟩ ⟨he', hsta, rfl⟩
    obtain ⟨hp, hv⟩ := setVariable_spec hs he' args
    refine ⟨hp, fun key hnamed hflag => ?_⟩
    rw [foldl_append, foldl_cons, foldl_nil, readBack_boot henv he', hv key hnamed hflag,
      hsta, ← readBack_boot henv he', SetCall.applyTo_apply, SetCall.applyTo_apply,
      hre key hnamed hflag]
  refine ⟨hr.2 key hnamed hflag, fun args store new s₁ hargs hne hst hnew hm => ?_⟩
  obtain ⟨home, hh⟩ := hr.1.home key hflag
  exact hh.readBack_keeps
    (keepsAll_midUpdate hr.1.noHob henv hargs hne hst hnew hm) henv hnamed

/-! ## Requests on empty stores -/

theorem wellPlaced_emptyState : WellPlaced emptyState where
  noHob := rfl
  home key _ := ⟨.volatile, .of_nil (by decide) fun store => by cases store <;> rfl⟩

theorem atBoot_smallEnv : AtBoot smallEnv := ⟨rfl, fun _ => rfl⟩

/-- Appends to a non-volatile variable. -/
def appendBytes (key : VarKey) (n : ℕ) : UpdateArgs :=
  { setBytes key n with
    attributes := (setBytes key n).attributes ||| efiVariableAppendWrite }

/-- A variable is set and appended to. -/
theorem readBack_of_run_append : ∃ s, Run SetStep emptyState
      [⟨smallEnv, setBytes sampleX 4, .success⟩, ⟨smallEnv, appendBytes sampleX 3, .success⟩] s ∧
    readBack smallEnv s sampleX =
      some (efiVariableNonVolatile ||| efiVariableBootserviceAccess, List.replicate 7 1) := by
  have hr : Run SetStep emptyState
      [⟨smallEnv, setBytes sampleX 4, .success⟩, ⟨smallEnv, appendBytes sampleX 3, .success⟩] _ :=
    .cons ⟨atBoot_smallEnv, by decide +kernel, rfl⟩
      (.cons ⟨atBoot_smallEnv, by decide +kernel, rfl⟩ (.nil _))
  refine ⟨_, hr, ?_⟩
  rw [(readBack_of_run atBoot_smallEnv wellPlaced_emptyState hr (by decide) (by decide)).1]
  decide +kernel

/-- The platform after the end of the DXE phase. -/
def lateEnv : Env := { smallEnv with endOfDxe := true }

/-- `VarErrorFlag` is created, and then a variable does not fit: the request fails, and
`VarErrorFlag` is no longer what it was set to. -/
theorem not_readBack_flag : ∃ s, Run SetStep emptyState
      [⟨smallEnv, ⟨varErrorFlagKey, [0xFF],
        efiVariableNonVolatile ||| efiVariableBootserviceAccess, none⟩, .success⟩,
        ⟨lateEnv, setBytes sampleX 30, .outOfResources⟩] s ∧
    readBack smallEnv s varErrorFlagKey =
      some (efiVariableNonVolatile ||| efiVariableBootserviceAccess, [0xEF]) := by
  refine ⟨_, .cons ⟨atBoot_smallEnv, by decide +kernel, rfl⟩
    (.cons ⟨⟨rfl, fun _ => rfl⟩, by decide +kernel, rfl⟩ (.nil _)), ?_⟩
  decide +kernel

end Edk2.Var
