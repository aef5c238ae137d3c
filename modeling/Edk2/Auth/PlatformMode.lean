import Edk2.Auth.Verify
import Edk2.Lib.Run

/-!
# The platform mode follows PK

`ProcessVarWithPk` changes the platform mode from a deletion flag that it computes from the size of
the request, apart from what the variable driver does with the request. The two agree for requests
that give an access attribute and, in setup mode or in custom mode with a physically present user,
are no append of nothing.

## Main results

* `platformMode_of_run`: in every run of requests that meet the condition, a request that succeeds
  leaves the mode as PK and SetupMode say
* `not_platformMode`: an append of nothing in custom mode that ends in setup mode with PK in place
-/

namespace Edk2.Auth

open Var Option

/-! ## The state between requests -/

/-- A variable of the volatile store with one live entry, that a search sees at runtime as well. -/
structure InVolatile (s : VarState) (key : VarKey) (r : VarRecord) : Prop where
  single : Single key (s.records .volatile)
  value : valueOf key (s.records .volatile) = some r
  runtime : hasAttribute r.attributes efiVariableRuntimeAccess = true

def PkExists (s : VarState) : Prop := ∃ store, liveOf platformKey (s.records store) ≠ []

/-- **The state between requests**: PK is a non-volatile variable, or in the HOB store; SetupMode is
a volatile variable that holds the mode. -/
structure ModeInv (s : VarState) (mode : PlatformMode) : Prop where
  hobNamed : HobNamed s
  pkVolatile : liveOf platformKey (s.records .volatile) = []
  pkHobSingle : Single platformKey (s.records .hob)
  pkHobAdded : ∀ r ∈ liveOf platformKey (s.records .hob), r.isAdded = true
  setupHob : liveOf setupModeKey (s.records .hob) = []
  setupMode : ∃ r, InVolatile s setupModeKey r ∧ r.data.head? = some mode.byte

/-- After a successful update of PK: it is in the non-volatile store only. -/
structure Settled (s : VarState) (mode : PlatformMode) : Prop extends ModeInv s mode where
  pkTracked : Tracked platformKey (s.records .nv)
  pkHob : liveOf platformKey (s.records .hob) = []

variable {env : AuthEnv} {fuel : ℕ} {vars vars' : VarState} {mode : PlatformMode} {s s' : AuthState}
  {args : UpdateArgs}

theorem pkExists_iff (h : Settled vars mode) :
    PkExists vars ↔ valueOf platformKey (vars.records .nv) ≠ none := by
  rw [ne_eq, valueOf_eq_none_iff]
  constructor
  · rintro ⟨store, hne⟩
    cases store with
    | volatile => exact absurd h.pkVolatile hne
    | hob => exact absurd h.pkHob hne
    | nv => exact hne
  · exact fun hne => ⟨.nv, hne⟩

/-! ## Updates of other variables -/

variable {key : VarKey} {r : VarRecord} {driver : Env} {del : Bool} {o : EfiStatus × AuthState}

theorem InVolatile.keeps (h : InVolatile vars key r)
    (hk : Keeps key (vars.records .volatile) (vars'.records .volatile)) :
    InVolatile vars' key r where
  single := hk.single h.single
  value := (hk.value h.single.tracked).trans h.value
  runtime := h.runtime

/-- What the updates after that of PK leave: PK with its value. -/
structure Follows (mode : PlatformMode) (s s' : VarState) : Prop where
  settled : Settled s' mode
  value : valueOf platformKey (s'.records .nv) = valueOf platformKey (s.records .nv)

theorem Follows.trans {vars'' : VarState} (h : Follows mode vars vars')
    (h' : Follows mode vars' vars'') : Follows mode vars vars'' :=
  ⟨h'.settled, h'.value.trans h.value⟩

theorem Follows.pkExists_iff (h : Follows mode vars vars') (hs : Settled vars mode) :
    PkExists vars' ↔ PkExists vars := by
  rw [Auth.pkExists_iff h.settled, Auth.pkExists_iff hs, h.value]

/-- **An update of another variable** leaves PK and SetupMode. -/
theorem Settled.update (driver : Env) (args : UpdateArgs) (h : Settled vars mode)
    (hk : args.key.1 ≠ []) (hpk : platformKey ≠ args.key) (hse : setupModeKey ≠ args.key) :
    Follows mode vars (variableExLibUpdateVariable driver vars args).state := by
  have hp : KeepsAll platformKey vars (variableExLibUpdateVariable driver vars args).state :=
    updateVariable_keeps hk h.hobNamed hpk (by decide +kernel) h.pkHob
  have hs : KeepsAll setupModeKey vars
      (variableExLibUpdateVariable driver vars args).state :=
    updateVariable_keeps hk h.hobNamed hse (by decide +kernel) h.setupHob
  have hf : HobFrom vars (variableExLibUpdateVariable driver vars args).state :=
    hobFrom_updateVariable h.hobNamed
  have hh := hf.liveOf_eq_nil h.pkHob
  obtain ⟨r, hr, hm⟩ := h.setupMode
  exact ⟨{
    hobNamed := hf.named h.hobNamed
    pkVolatile := (hp .volatile).liveOf_eq_nil h.pkVolatile
    pkHobSingle := single_of_nil hh
    pkHobAdded := forall_mem_of_nil hh
    setupHob := hf.liveOf_eq_nil h.setupHob
    setupMode := ⟨r, hr.keeps (hs .volatile), hm⟩
    pkTracked := (hp .nv).tracked h.pkTracked
    pkHob := hh }, (hp .nv).value h.pkTracked⟩

theorem platformMode_vendorKeyIsModified :
    (vendorKeyIsModified env s).2.platformMode = s.platformMode := by
  unfold vendorKeyIsModified
  dsimp only
  split_ifs <;> rfl

theorem Settled.vendorKeyIsModified (env : AuthEnv) (h : Settled s.vars mode) :
    Follows mode s.vars (vendorKeyIsModified env s).2.vars := by
  unfold Auth.vendorKeyIsModified
  dsimp only
  split_ifs with hm
  · exact ⟨h, rfl⟩
  · exact h.update _ _ (by decide) (by decide +kernel) (by decide +kernel)
  · have hf := h.update env.driver ⟨vendorKeysNvKey, [VendorKeyState.modified.byte],
      nvBs ||| efiVariableTimeBasedAuthenticatedWriteAccess, none⟩
      (by decide) (by decide +kernel) (by decide +kernel)
    exact hf.trans
      (hf.settled.update _ _ (by decide) (by decide +kernel) (by decide +kernel))

theorem platformMode_updateSecureBoot :
    (updateSecureBoot env s).2.platformMode = s.platformMode := by
  unfold updateSecureBoot
  dsimp only
  split_ifs <;> rfl

theorem Settled.updateSecureBoot (env : AuthEnv) (h : Settled s.vars mode) :
    Follows mode s.vars (updateSecureBoot env s).2.vars := by
  have ho : ∀ (vars : VarState) (key : VarKey) (data : List UInt8) (attributes : BitVec 32),
      Settled vars mode → key = secureBootKey ∨ key = secureBootEnableKey → Follows mode vars
        (variableExLibUpdateVariable env.driver vars ⟨key, data, attributes, none⟩).state := by
    intro vars key data attributes hs hk
    have hne : key.1 ≠ [] ∧ platformKey ≠ key ∧ setupModeKey ≠ key := by
      rcases hk with rfl | rfl <;> decide +kernel
    exact hs.update _ _ hne.1 hne.2.1 hne.2.2
  unfold Auth.updateSecureBoot
  dsimp only
  generalize ((findVariableInfo env s secureBootKey).isSome && s.platformMode == .user) = enable
  generalize (if enable = true then (1 : UInt8) else 0) = byte
  have hf := ho s.vars secureBootKey [byte] rtBs h (.inl rfl)
  split_ifs
  · exact hf
  · exact hf.trans (ho _ _ _ _ hf.settled (.inr rfl))
  · exact hf
  · exact hf.trans (ho _ _ _ _ hf.settled (.inr rfl))

/-! ## The mode -/

theorem InVolatile.findVariable (driver : Env) (hk : key.1 ≠ [])
    (h : InVolatile vars key r) :
    ∃ pre x post, vars.records .volatile = pre ++ x :: post ∧ x.asAdded = r ∧ x.key = key ∧
      x.isLive = true ∧ liveOf key pre = [] ∧ liveOf key post = [] ∧
      Var.findVariable driver vars key false = ⟨.volatile, some pre.length, none⟩ := by
  have hlis : ∃ x, liveOf key (vars.records .volatile) = [x] ∧ x.asAdded = r := by
    have hv := h.value
    have hsingle := h.single
    unfold Single at hsingle
    rw [valueOf] at hv
    rcases hl : liveOf key (vars.records .volatile) with _ | ⟨x, _ | ⟨y, rest⟩⟩
    · rw [hl] at hv
      cases hv
    · rw [hl] at hv
      exact ⟨x, rfl, some.inj hv⟩
    · rw [hl] at hsingle
      simp at hsingle
  obtain ⟨x, hlis, hxr⟩ := hlis
  have hse : Sees (matchesKey driver false key) key (vars.records .volatile) := by
    intro y hy hli
    refine ⟨matchesKey_key hk, fun hyk => ?_⟩
    have hyx : y = x := by
      have := mem_liveOf.mpr ⟨hy, hli, hyk⟩
      rw [hlis] at this
      exact List.mem_singleton.mp this
    have hattr : hasAttribute y.attributes efiVariableRuntimeAccess = true := by
      rw [hyx]
      have := h.runtime
      rwa [← hxr] at this
    simp [matchesKey, hyk, hattr]
  have hsl := slot_of_found (findVariableEx_found driver false key .volatile _) hse
    h.single.tracked
  have hh : Holds driver false key (vars.records .volatile) := by
    have hx : x ∈ liveOf key (vars.records .volatile) := by simp [hlis]
    obtain ⟨hx, hli, hxk⟩ := mem_liveOf.mp hx
    exact ⟨x, hx, hli, (hse x hx hli).mpr hxk⟩
  have hf : Var.findVariable driver vars key false =
      findVariableEx driver false key .volatile (vars.records .volatile) := by
    exact if_pos (findVariableEx_isSome_iff.mpr hh)
  rw [hf]
  have hs := hsl.spot
  rw [hlis] at hs
  have hst := findVariableEx_store driver false key .volatile (vars.records .volatile)
  generalize findVariableEx driver false key .volatile (vars.records .volatile) = track
    at hs hst
  obtain ⟨st, curr, inDeleted⟩ := track
  obtain rfl : st = .volatile := hst
  generalize vars.records .volatile = l at hs
  cases hs with
  | @one pre post _ hp hpo hli hxk =>
    exact ⟨pre, x, post, rfl, hxr, hxk, hli, hp, hpo, rfl⟩

/-- **The mode is set and PK stays**, whatever becomes of SecureBoot. -/
theorem Settled.updatePlatformMode (env : AuthEnv) (h : Settled s.vars s.platformMode)
    (mode : PlatformMode) :
    (updatePlatformMode env s mode).2.platformMode = mode ∧
      Settled (updatePlatformMode env s mode).2.vars mode ∧
      (PkExists (updatePlatformMode env s mode).2.vars ↔ PkExists s.vars) := by
  obtain ⟨r, hr, hb⟩ := h.setupMode
  obtain ⟨pre, x, post, hl, hxr, hxk, hli, hp, hpo, hfi⟩ :=
    hr.findVariable env.driver (by decide)
  have hd : x.data ≠ [] := by
    have : r.data = x.data := by rw [← hxr]; rfl
    rw [this] at hb
    exact fun hnil => by rw [hnil] at hb; cases hb
  -- SetupMode is overwritten in place.
  let x' : VarRecord := { x with data := mode.byte :: x.data.tail }
  have ho : overwriteByte s.vars ⟨.volatile, some pre.length, none⟩ mode.byte =
      s.vars.setRecords .volatile (pre ++ x' :: post) := by
    simp only [overwriteByte, hl, modify_append_cons, if_neg hd]
    rfl
  have hse : (s.vars.setRecords .volatile (pre ++ x' :: post)).records .volatile =
      pre ++ x' :: post := rfl
  have hl' : liveOf setupModeKey (pre ++ x' :: post) = [x'] := by
    rw [liveOf_append, hp, liveOf_cons_of_live (r := x') hli hxk, hpo]
    rfl
  have hpk : liveOf platformKey (pre ++ x' :: post) = [] := by
    have hx : x.key ≠ platformKey := by rw [hxk]; decide +kernel
    have := h.pkVolatile
    rw [hl, liveOf_append, liveOf_cons_of_ne hx] at this
    rw [liveOf_append, liveOf_cons_of_ne (r := x') hx]
    exact this
  have hs : Settled (s.vars.setRecords .volatile (pre ++ x' :: post)) mode := {
    hobNamed := h.hobNamed
    pkVolatile := hpk
    pkHobSingle := h.pkHobSingle
    pkHobAdded := h.pkHobAdded
    setupHob := h.setupHob
    setupMode := ⟨x'.asAdded, ⟨by rw [hse, Single, hl']; rfl, by rw [hse, valueOf, hl']; rfl,
      by have := hr.runtime; rwa [← hxr] at this⟩, rfl⟩
    pkTracked := h.pkTracked
    pkHob := h.pkHob }
  have he : PkExists (s.vars.setRecords .volatile (pre ++ x' :: post)) ↔ PkExists s.vars := by
    rw [pkExists_iff hs, pkExists_iff h]
    rfl
  unfold Auth.updatePlatformMode
  rw [hfi]
  dsimp only
  rw [if_neg (by simp), ho]
  split_ifs
  · exact ⟨rfl, hs, he⟩
  · have hf := Settled.updateSecureBoot env (s := ⟨s.vars.setRecords .volatile
      (pre ++ x' :: post), mode, s.vendorKeyState⟩) hs
    exact ⟨platformMode_updateSecureBoot, hf.settled,
      (hf.pkExists_iff hs).trans he⟩

/-! ## The update of PK -/

/-- What the update of PK leaves. -/
structure PkUpdated (driver : Env) (vars : VarState) (mode : PlatformMode) (args : UpdateArgs)
    (o : Var.Outcome) : Prop where
  inv : ModeInv o.state mode
  settled : o.status = .success → ¬ (args.data = [] ∧ args.isAppend = true) →
    Settled o.state mode ∧
      (PkExists o.state ↔
        applied driver args (valueOf platformKey (vars.records .nv)) ≠ none)
  kept : o.status = .success → args.data = [] → args.isAppend = true → args.hasAccess = true →
    PkExists vars → PkExists o.state
  found : o.status = .success → args.data = [] → args.isAppend = false → PkExists vars

theorem ModeInv.ready (h : ModeInv vars mode)
    (ht : Tracked platformKey (vars.records .nv))
    (hv : driver.atRuntime = true → ∀ store, ∀ r ∈ liveOf platformKey (vars.records store),
      hasAttribute r.attributes efiVariableRuntimeAccess = true) :
    Ready driver vars platformKey .nv where
  named := by decide
  attributes := hv
  notFlag := by decide +kernel
  tracked := ht
  home := fun store hne hh => by
    cases store with
    | volatile => exact h.pkVolatile
    | hob => exact absurd rfl hh
    | nv => exact absurd rfl hne
  hobHome := .inl rfl
  hobSingle := h.pkHobSingle
  hobAdded := h.pkHobAdded
  hobNamed := h.hobNamed

theorem ModeInv.updatePk (h : ModeInv vars mode)
    (hre : Ready driver vars platformKey .nv) (hk : args.key = platformKey)
    (hnv : args.isNonVolatile = true) (hattr : args.attributes ≠ 0#32)
    (hti : args.timeStamp ≠ none) :
    PkUpdated driver vars mode args (variableExLibUpdateVariable driver vars args) := by
  have hst : args.store = .nv := UpdateArgs.store_eq_nv_iff.mpr hnv
  have hsp := updateSpec_updateVariable (show Ready driver vars args.key args.store by
    rw [hk, hst]; exact hre) hattr hti
  have hse : KeepsAll setupModeKey vars (variableExLibUpdateVariable driver vars args).state :=
    updateVariable_keeps (by rw [hk]; decide) h.hobNamed (by rw [hk]; decide +kernel)
      (by decide +kernel) h.setupHob
  have hf : HobFrom vars (variableExLibUpdateVariable driver vars args).state :=
    hobFrom_updateVariable h.hobNamed
  generalize variableExLibUpdateVariable driver vars args = o at hsp hse hf
  obtain ⟨r, hr, hm⟩ := h.setupMode
  have hin : ModeInv o.state mode := {
    hobNamed := hf.named h.hobNamed
    pkVolatile := hk ▸ hsp.home .volatile (by rw [hst]; decide) (by decide)
    pkHobSingle := by
      rcases hsp.hob with hs | hnil
      · rw [hk] at hs
        rw [Single, hs]
        exact h.pkHobSingle
      · exact single_of_nil (hk ▸ hnil)
    pkHobAdded := by
      rcases hsp.hob with hs | hnil
      · rw [hk] at hs
        rw [hs]
        exact h.pkHobAdded
      · exact forall_mem_of_nil (hk ▸ hnil)
    setupHob := hf.liveOf_eq_nil h.setupHob
    setupMode := ⟨r, hr.keeps (hse .volatile), hm⟩ }
  refine ⟨hin, fun hsu hd => ?_, fun hsu hd hap ha he => ?_,
    fun hsu hd hap => ?_⟩
  · obtain ⟨hv, ht⟩ := hsp.success hsu
    rw [hk, hst] at hv ht
    have hset : Settled o.state mode :=
      { hin with pkTracked := ht, pkHob := hk ▸ hsp.hobCleared hsu hd }
    refine ⟨hset, ?_⟩
    rw [pkExists_iff hset, hv]
  · cases hold : valueOf platformKey (vars.records .nv) with
    | none =>
      rw [hsp.idle (by rw [hk, hst]; exact hold) hd hap]
      exact he
    | some old =>
      obtain ⟨hv, -⟩ := hsp.success hsu
      rw [hk, hst, hold, applied, if_neg (by simp [UpdateArgs.isDelete, hap, ha])]
        at hv
      refine ⟨.nv, ?_⟩
      rw [ne_eq, ← valueOf_eq_none_iff, hv]
      split_ifs <;> simp
  · by_contra hn
    have hnil : ∀ store, liveOf platformKey (vars.records store) = [] := by
      intro store
      by_contra hne
      exact hn ⟨store, hne⟩
    exact hsp.absent (by rw [hk, hst]; exact valueOf_eq_none_iff.mpr (hnil .nv))
      (hk ▸ hnil .hob) hd hap hsu

/-! ## Requests -/

structure PkRequest where
  env : AuthEnv
  fuel : ℕ
  attributes : BitVec 32
  buffer : AuthBuffer

namespace PkRequest

variable (i : PkRequest)

/-- `EFI_VARIABLE_APPEND_WRITE` is set. -/
def isAppend : Bool := hasAttribute i.attributes efiVariableAppendWrite

/-- The call of `ProcessVarWithPk`. -/
def process (s : AuthState) : Option (EfiStatus × AuthState) :=
  processVarWithPk i.env i.fuel s platformKey i.attributes i.buffer true

/-- What the variable driver is asked to do with PK. -/
def updateArgs : UpdateArgs := ⟨platformKey, i.buffer.payload, i.attributes, some i.buffer.timeStamp⟩

end PkRequest

/-- **What a request for PK has to meet**: it gives an access attribute, unless it deletes PK; an
append of nothing comes in user mode only, and not from a physically present user in custom mode. Of
the stored PK at most one entry is in transition beside an added one, and at runtime it is seen. -/
structure Meets (i : PkRequest) (s : AuthState) : Prop where
  access :
    hasAttribute i.attributes (efiVariableRuntimeAccess ||| efiVariableBootserviceAccess) = true ∨
      (i.buffer.payloadSize = 0 ∧ i.isAppend = false)
  appendNothing : i.buffer.payloadSize = 0 → i.isAppend = true →
    s.platformMode = .user ∧ isCustomPresent i.env s = false
  tracked : Tracked platformKey (s.vars.records .nv)
  visible : i.env.driver.atRuntime = true → ∀ store, ∀ r ∈ liveOf platformKey (s.vars.records store),
    hasAttribute r.attributes efiVariableRuntimeAccess = true

variable {i : PkRequest} {status : EfiStatus}

theorem updateVariableWithTimeStamp_pk (b : AuthBuffer) (attributes : BitVec 32) :
    updateVariableWithTimeStamp env fuel s platformKey b.payloadMemory b.payloadSize attributes
        b.timeStamp =
      some (updateVariableInfo env s ⟨platformKey, b.payload, attributes, some b.timeStamp⟩) := by
  have hf : isFiltered platformKey = false := by decide +kernel
  unfold updateVariableWithTimeStamp
  rw [hf, Bool.and_false]
  cases findVariableInfo env s platformKey <;> rfl

theorem applied_ne_none_iff (h : Meets i s)
    (hda : ¬ (i.updateArgs.data = [] ∧ i.updateArgs.isAppend = true)) (old : Option VarRecord) :
    applied i.env.driver i.updateArgs old ≠ none ↔ i.buffer.payloadSize ≠ 0 := by
  have hnil : i.updateArgs.data = [] ↔ i.buffer.payloadSize = 0 := AuthBuffer.payload_eq_nil_iff
  cases old with
  | none =>
    rw [applied]
    split_ifs with hempty
    · simp [hnil.mp hempty]
    · simp [← hnil, hempty]
  | some old =>
    rw [applied]
    by_cases hempty : i.updateArgs.data = []
    · have ha : i.updateArgs.isAppend = false := by
        by_contra hn
        exact hda ⟨hempty, by simpa using hn⟩
      rw [if_pos (by simp [UpdateArgs.isDelete, ha, hempty])]
      simp [hnil.mp hempty]
    · have hac : i.updateArgs.hasAccess = true :=
        h.access.resolve_right fun hd => hempty (hnil.mpr hd.1)
      rw [if_neg (by simp [UpdateArgs.isDelete, hempty, hac])]
      refine iff_of_true ?_ (hnil.not.mp hempty)
      split_ifs <;> simp

theorem followPk_spec (env : AuthEnv) (h : Settled s.vars s.platformMode)
    (hd : del = true ↔ ¬ PkExists s.vars) (hst : status = .success) :
    ModeInv (followPk env s true status del).2.vars (followPk env s true status del).2.platformMode ∧
      ((followPk env s true status del).2.platformMode = .user ↔
        PkExists (followPk env s true status del).2.vars) := by
  subst hst
  unfold followPk
  rw [if_pos (by rfl)]
  split_ifs with hse hu
  · obtain ⟨hmo, hs, he⟩ := h.updatePlatformMode env .user
    have hpk : PkExists s.vars := by
      by_contra hn
      rw [hd.mpr hn] at hse
      cases hse.2
    rw [hmo]
    exact ⟨hs.toModeInv, iff_of_true rfl (he.mpr hpk)⟩
  · obtain ⟨hmo, hs, he⟩ := h.updatePlatformMode env .setup
    rw [hmo]
    exact ⟨hs.toModeInv, iff_of_false (by simp) fun hpk => hd.mp hu.2 (he.mp hpk)⟩
  · refine ⟨h.toModeInv, ?_⟩
    cases hm : s.platformMode with
    | user =>
      refine iff_of_true rfl ?_
      by_contra hn
      exact hu ⟨hm, hd.mpr hn⟩
    | setup =>
      refine iff_of_false (by simp) fun hpk => hse ⟨hm, ?_⟩
      by_contra hn
      exact hd.mp (by simpa using hn) hpk

theorem followPk_error {isPk : Bool} (hs : status ≠ .success) :
    followPk env s isPk status del = (status, s) := by
  have he : status.isError = true := EfiStatus.isError_eq_true.mpr hs
  unfold followPk
  rw [if_neg (by simp [he])]

theorem Accepted.findVariableInfo {attributes : BitVec 32} {b : AuthBuffer} {org : Option EfiTime}
    (h : Accepted env fuel s key attributes b .pk org s')
    (ha : hasAttribute attributes efiVariableAppendWrite = true) :
    (findVariableInfo env s platformKey).isSome = true := by
  rcases h.verified with ⟨-, hn, -⟩ | ⟨-, hv⟩
  · rw [ha] at hn
    cases hn
  · by_contra hnone
    have hn' : Auth.findVariableInfo env s platformKey = none := by simpa using hnone
    have hpk : verifyPk env s (serialized key attributes b) b = false := by
      unfold verifyPk
      rw [hn']
      cases env.pkcs7GetSigners b.sigData <;> rfl
    simp [verifySignature, hpk] at hv

theorem pkExists_of_found (h : (findVariableInfo env s platformKey).isSome = true) :
    PkExists s.vars := by
  obtain ⟨r, hr⟩ := isSome_iff_exists.mp h
  rw [findVariableInfo, lookup, PointerTrack.found, bind_eq_some_iff] at hr
  obtain ⟨j, hj, hg⟩ := hr
  obtain ⟨x, hx, hk, hl⟩ := findVariable_getElem? (by decide) hj
  exact ⟨_, List.ne_nil_of_mem (mem_liveOf.mpr ⟨List.mem_of_getElem? hx, hl, hk⟩)⟩

theorem found_of_pkExists (h : ModeInv s.vars s.platformMode) (hm : Meets i s)
    (hpk : PkExists s.vars) : (findVariableInfo i.env s platformKey).isSome = true := by
  have hr := h.ready hm.tracked hm.visible
  have ho : ∀ store, Ordered platformKey (s.vars.records store) := by
    intro store
    cases store with
    | volatile => exact (single_of_nil h.pkVolatile).tracked.ordered
    | hob => exact h.pkHobSingle.tracked.ordered
    | nv => exact hm.tracked.ordered
  have hc := lookup_eq_current hr.toVisible ho
  by_contra hnone
  have hn' : lookup i.env.driver s.vars platformKey = none := by
    simpa [findVariableInfo] using hnone
  rw [hn', map_none, current, eq_comm, or_eq_none_iff, or_eq_none_iff] at hc
  simp only [valueOf_eq_none_iff] at hc
  obtain ⟨store, hne⟩ := hpk
  cases store with
  | volatile => exact hne hc.1
  | hob => exact hne hc.2.1
  | nv => exact hne hc.2.2

/-- What a request leaves: the state between requests and, where it succeeds, the mode as PK says.
-/
structure Leaves (o : EfiStatus × AuthState) : Prop where
  inv : ModeInv o.2.vars o.2.platformMode
  mode : o.1 = .success → (o.2.platformMode = .user ↔ PkExists o.2.vars)

theorem leaves_of_error (h : ModeInv s.vars s.platformMode) (hs : status ≠ .success)
    (del : Bool) : Leaves (followPk env s true status del) := by
  rw [followPk_error hs]
  exact ⟨h, fun hsu => absurd hsu hs⟩

theorem leaves_of_settled (h : Settled s.vars s.platformMode)
    (hd : del = true ↔ ¬ PkExists s.vars) : Leaves (followPk env s true status del) := by
  by_cases hs : status = .success
  · have hsp := followPk_spec env h hd hs
    exact ⟨hsp.1, fun _ => hsp.2⟩
  · exact leaves_of_error h.toModeInv hs del

theorem pkUpdated_updateArgs (h : ModeInv s.vars s.platformMode) (hm : Meets i s)
    (hb : isTimeBasedNv i.attributes = true) :
    PkUpdated i.env.driver s.vars s.platformMode i.updateArgs
      (variableExLibUpdateVariable i.env.driver s.vars i.updateArgs) := by
  have hnv := (Bool.and_eq_true_iff.mp hb).1
  refine h.updatePk (h.ready hm.tracked hm.visible) rfl hnv ?_ (by simp [PkRequest.updateArgs])
  intro hz
  rw [show i.attributes = 0#32 from hz] at hnv
  simp [hasAttribute] at hnv

theorem pkExists_updateArgs (h : ModeInv s.vars s.platformMode) (hm : Meets i s)
    (hb : isTimeBasedNv i.attributes = true)
    (hd : ¬ (i.buffer.payloadSize = 0 ∧ i.isAppend = true))
    (hs : (updateVariableInfo i.env s i.updateArgs).1 = .success) :
    Settled (updateVariableInfo i.env s i.updateArgs).2.vars s.platformMode ∧
      (PkExists (updateVariableInfo i.env s i.updateArgs).2.vars ↔ i.buffer.payloadSize ≠ 0) := by
  have hnil : i.updateArgs.data = [] ↔ i.buffer.payloadSize = 0 := AuthBuffer.payload_eq_nil_iff
  have hd' : ¬ (i.updateArgs.data = [] ∧ i.updateArgs.isAppend = true) := by
    rw [hnil]
    exact hd
  obtain ⟨hse, he⟩ := (pkUpdated_updateArgs h hm hb).settled hs hd'
  exact ⟨hse, he.trans (applied_ne_none_iff hm hd' _)⟩

theorem leaves_unverified (h : ModeInv s.vars s.platformMode) (hm : Meets i s)
    (hb : isTimeBasedNv i.attributes = true) (hc : isCustomPresent i.env s = true)
    (ho : updateUnverified i.env i.fuel s platformKey i.attributes i.buffer true = some o) :
    Leaves (followPk i.env o.2 true o.1 (i.buffer.payloadSize == 0)) := by
  have hd : ¬ (i.buffer.payloadSize = 0 ∧ i.isAppend = true) := by
    rintro ⟨hempty, ha⟩
    have hn := (hm.appendNothing hempty ha).2
    rw [hc] at hn
    cases hn
  unfold updateUnverified at ho
  split at ho
  · cases ho
  split at ho
  · rename_i hf
    obtain rfl := some.inj ho
    exact leaves_of_error h (EfiStatus.isError_eq_true.mp hf) _
  rw [updateVariableWithTimeStamp_pk, ← PkRequest.updateArgs, map_some] at ho
  have ho := some.inj ho
  split at ho
  · rename_i he
    rw [← ho]
    exact leaves_of_error (pkUpdated_updateArgs h hm hb).inv (EfiStatus.isError_eq_true.mp he) _
  · rename_i hok
    rw [Bool.not_eq_true, EfiStatus.isError_eq_false] at hok
    rw [← ho, if_pos rfl]
    obtain ⟨hs, hex⟩ := pkExists_updateArgs h hm hb hd hok
    have hv := hs.vendorKeyIsModified i.env
    refine leaves_of_settled ?_ ?_
    · rw [platformMode_vendorKeyIsModified]
      exact hv.settled
    · rw [hv.pkExists_iff hs, hex]
      simp

theorem leaves_verified (h : ModeInv s.vars s.platformMode) (hm : Meets i s)
    (hb : isTimeBasedNv i.attributes = true) {o : EfiStatus × Bool × AuthState}
    (ho : verifyTimeBasedPayloadAndUpdate i.env i.fuel s platformKey i.attributes i.buffer
      (if s.platformMode = .user then .pk else .payload) = some o) :
    Leaves (followPk i.env o.2.2 true o.1 o.2.1) := by
  have ht : (if s.platformMode = .user then AuthVarType.pk else .payload) ≠ .priv := by
    split_ifs <;> simp
  have hup := pkUpdated_updateArgs h hm hb
  rcases verifyAndUpdate_cases ho with ⟨status, s₁, hv, her, rfl⟩ | ⟨s₁, u, hv, hu, hc⟩
  · obtain rfl := (verifyTimeBasedPayload_state ht hv).symm
    exact leaves_of_error h her _
  obtain rfl := (verifyTimeBasedPayload_state ht hv).symm
  rw [updateVariableWithTimeStamp_pk] at hu
  obtain rfl : u = updateVariableInfo i.env s i.updateArgs := (some.inj hu).symm
  obtain rfl := hc.resolve_right fun hp => ht hp.1
  rw [← PkRequest.isAppend]
  have hac := accepted_of_verify hv
  by_cases hsu : (updateVariableInfo i.env s i.updateArgs).1 = .success
  swap
  · exact leaves_of_error hup.inv hsu _
  by_cases hda : i.buffer.payloadSize = 0 ∧ i.isAppend = true
  · -- An append of nothing: PK was found, so it is still there, and nothing is deleted.
    obtain ⟨hu, -⟩ := hm.appendNothing hda.1 hda.2
    rw [if_pos hu] at hac
    have hacc := hm.access.resolve_right fun hn => by
      rw [hda.2] at hn
      cases hn.2
    have hpk := hup.kept hsu (AuthBuffer.payload_eq_nil_iff.mpr hda.1) hda.2 hacc
      (pkExists_of_found (hac.findVariableInfo hda.2))
    have hmo : (updateVariableInfo i.env s i.updateArgs).2.platformMode = .user := hu
    unfold followPk
    rw [if_pos (by simp [hsu]), if_neg (by simp [hmo]), if_neg (by simp [hda.2])]
    exact ⟨hup.inv, fun _ => iff_of_true hmo hpk⟩
  · obtain ⟨hs, he⟩ := pkExists_updateArgs h hm hb hda hsu
    refine leaves_of_settled hs ?_
    rw [he, not_not, hsu]
    constructor
    · intro hd
      simp only [Bool.and_eq_true, beq_iff_eq] at hd
      exact hd.1.1.2
    · intro hempty
      have ha : i.isAppend = false := by
        by_contra hn
        exact hda ⟨hempty, by simpa using hn⟩
      have hpk := hup.found hsu (AuthBuffer.payload_eq_nil_iff.mpr hempty) ha
      simp [found_of_pkExists h hm hpk, hempty, ha]

/-- **What one request leaves.** -/
theorem ModeInv.process (h : ModeInv s.vars s.platformMode) (hm : Meets i s)
    (hp : i.process s = some (status, s')) : Leaves (status, s') := by
  unfold PkRequest.process processVarWithPk at hp
  by_cases hb : isTimeBasedNv i.attributes = true
  swap
  · rw [if_pos (by simpa using hb)] at hp
    obtain ⟨rfl, rfl⟩ := Prod.mk.inj (some.inj hp)
    exact ⟨h, fun hs => by cases hs⟩
  rw [if_neg (by simp [hb]), Bool.not_true, Bool.and_false, Bool.or_false, Bool.or_true] at hp
  by_cases hc : isCustomPresent i.env s = true
  · rw [if_pos hc] at hp
    obtain ⟨o, ho, hf⟩ := map_eq_some_iff.mp hp
    rw [← hf]
    exact leaves_unverified h hm hb hc ho
  · rw [if_neg hc] at hp
    obtain ⟨o, ho, hf⟩ := map_eq_some_iff.mp hp
    rw [← hf]
    exact leaves_verified h hm hb ho

/-! ## Runs -/

/-- What SetupMode reads. -/
def readSetupMode (driver : Env) (s : VarState) : Option UInt8 :=
  (lookup driver s setupModeKey).bind fun r => r.data.head?

theorem ModeInv.readSetupMode (h : ModeInv vars mode) (driver : Env) :
    readSetupMode driver vars = some mode.byte := by
  obtain ⟨r, hr, hb⟩ := h.setupMode
  obtain ⟨pre, x, post, hl, hxr, -, -, -, -, hf⟩ := hr.findVariable driver (by decide)
  have hlo : lookup driver vars setupModeKey = some x := by
    rw [lookup, hf]
    simp [PointerTrack.found, hl]
  rw [Auth.readSetupMode, hlo]
  rw [← hxr] at hb
  exact hb

/-- **The platform mode follows PK.** In every run of requests for PK that meet the condition, from
a state in which SetupMode holds the mode, every request that succeeds leaves the platform in user
mode exactly if PK is in the stores, and SetupMode reads 0 exactly in user mode. -/
theorem platformMode_of_run {is : List PkRequest} {s₀ : AuthState}
    (h : ModeInv s₀.vars s₀.platformMode)
    (hrun : Run (fun s i s' => Meets i s ∧ ∃ status, i.process s = some (status, s')) s₀ is s)
    (hm : Meets i s) (hp : i.process s = some (.success, s')) (driver : Env) :
    (s'.platformMode = .user ↔ PkExists s'.vars) ∧
      (readSetupMode driver s'.vars = some 0 ↔ s'.platformMode = .user) := by
  have hin : ModeInv s.vars s.platformMode := hrun.invariant
    (P := fun s => ModeInv s.vars s.platformMode)
    (fun s i s' hs hst => by
      obtain ⟨hme, status, hpr⟩ := hst
      exact (hs.process hme hpr).inv) h
  have hl := hin.process hm hp
  refine ⟨hl.mode rfl, ?_⟩
  rw [hl.inv.readSetupMode driver]
  cases s'.platformMode <;> simp [PlatformMode.byte]

/-! ### A run -/

/-- A descriptor without SignedData, with a time stamp of January 2023. -/
def sampleHeader (second : UInt8) : List UInt8 :=
  [0xE7, 0x07, 1, 1, 0, 0, second, 0, 0, 0, 0, 0, 0, 0, 0, 0, 24, 0, 0, 0, 0, 2, 0xF1, 0x0E] ++
    gEfiCertPkcs7Guid

def sampleBuffer (second : UInt8) (payload : List UInt8) : AuthBuffer where
  data := fun a => (sampleHeader second ++ payload).getD a 0
  dataSize := 40 + payload.length
  header := Nat.le_add_right 40 _
  dwLength_le := by
    have hlength : dwLength (fun a => (sampleHeader second ++ payload).getD a 0) = 24 := rfl
    omega
  le_dwLength := le_of_eq rfl

def sampleDriver : Env where
  authFormat := true
  emuNvMode := false
  fvbReady := true
  atRuntime := false
  endOfDxe := false
  volatileSize := 4096
  nvSize := 4096
  hwErrStorageSize := 0
  commonVariableSpace := 2048
  commonRuntimeVariableSpace := 2048
  commonMaxUserVariableSpace := 2048
  maxAuthVariableSize := 1024
  maxVariableSize := 1024
  maxVolatileVariableSize := 1024
  maxHardwareErrorVariableSize := 1024
  hasProperty := fun _ => true
  accessOk := fun _ => true

/-- A platform on which every signature is accepted. -/
def sampleEnv (present : Bool) : AuthEnv where
  driver := sampleDriver
  scratchBufferSize := 1024
  userPhysicalPresent := present
  variablePolicyEnabled := true
  maxCertDbSize := 1024
  certDbStore := fun _ => 0
  beyond := fun _ => 0
  x509Key := fun _ _ _ => true
  pkcs7GetSigners := fun _ => some ⟨[], [7]⟩
  pkcs7Verify := fun _ _ _ => true
  signChainDigest := fun _ _ => some []

/-- `NV | BS | RT | AT`. -/
def sampleAttributes : BitVec 32 :=
  nvBs ||| rtBs ||| efiVariableTimeBasedAuthenticatedWriteAccess

/-- An X.509 list with a certificate of one byte. -/
def samplePk : List UInt8 :=
  gEfiCertX509Guid ++ [45, 0, 0, 0, 0, 0, 0, 0, 17, 0, 0, 0] ++ List.replicate 16 0 ++ [7]

def sampleState (mode : PlatformMode) (nvStore : List VarRecord) : AuthState where
  vars :=
    { volatileStore := [⟨varAdded, rtBs, .zero, setupModeKey, [mode.byte]⟩]
      hobStore := none
      nvStore := nvStore
      volatileLastVariableOffset := 100
      hwErrVariableTotalSize := 0
      commonVariableTotalSize := 100
      commonUserVariableTotalSize := 0
      currentBootVarErrFlag := 0xFF
      accesses := 0 }
  platformMode := mode
  vendorKeyState := .modified

theorem modeInv_sampleState (mode : PlatformMode) (nvStore : List VarRecord) :
    ModeInv (sampleState mode nvStore).vars mode where
  hobNamed := fun _ hr => absurd hr List.not_mem_nil
  pkVolatile := by cases mode <;> rfl
  pkHobSingle := Nat.zero_le 1
  pkHobAdded := fun _ hr => absurd hr List.not_mem_nil
  setupHob := rfl
  setupMode := ⟨⟨varAdded, rtBs, .zero, setupModeKey, [mode.byte]⟩,
    ⟨le_refl 1, rfl, show hasAttribute rtBs efiVariableRuntimeAccess = true by decide +kernel⟩,
    rfl⟩

def enrollPk : PkRequest := ⟨sampleEnv false, 3, sampleAttributes, sampleBuffer 0 samplePk⟩

def enrolled : AuthState :=
  ((enrollPk.process (sampleState .setup [])).map Prod.snd).getD (sampleState .setup [])

def deletePk : PkRequest := ⟨sampleEnv false, 3, sampleAttributes, sampleBuffer 1 []⟩

def deleted : AuthState := ((deletePk.process enrolled).map Prod.snd).getD enrolled

/-- PK is enrolled and then deleted. -/
theorem platformMode_of_run_deletePk :
    enrolled.platformMode = .user ∧ PkExists enrolled.vars ∧ deleted.platformMode = .setup ∧
      ¬ PkExists deleted.vars ∧ readSetupMode sampleDriver deleted.vars ≠ some 0 := by
  have hpe : enrollPk.process (sampleState .setup []) = some (.success, enrolled) := by
    decide +kernel
  have hme : Meets enrollPk (sampleState .setup []) := {
    access := .inl (by decide +kernel)
    appendNothing := fun hempty => absurd hempty (by decide +kernel)
    tracked := trivial
    visible := fun hrt => by cases hrt }
  have hpd : deletePk.process enrolled = some (.success, deleted) := by decide +kernel
  have hmd : Meets deletePk enrolled := {
    access := .inl (by decide +kernel)
    appendNothing := fun _ happend => absurd happend (by decide +kernel)
    tracked := Single.tracked (show List.length _ ≤ 1 by decide +kernel)
    visible := fun hrt => by cases hrt }
  have hmode : deleted.platformMode = .setup := by decide +kernel
  obtain ⟨hex, hread⟩ := platformMode_of_run (modeInv_sampleState .setup [])
    (.cons ⟨hme, _, hpe⟩ (.nil _)) hmd hpd sampleDriver
  exact ⟨by decide +kernel, ⟨.nv, by decide +kernel⟩, hmode, by simp [← hex, hmode],
    by simp [hread, hmode]⟩

/-- An append of nothing to PK, from a physically present user. -/
def appendNothing : PkRequest :=
  ⟨sampleEnv true, 3, sampleAttributes ||| efiVariableAppendWrite, sampleBuffer 0 []⟩

def customState : AuthState :=
  sampleState .user [⟨varAdded, sampleAttributes, .zero, platformKey, samplePk⟩,
    ⟨varAdded, nvBs, .zero, customModeKey, [1]⟩]

/-- **The mode need not follow PK**: in custom mode, an append of nothing leaves PK where it is and
switches to setup mode. -/
theorem not_platformMode :
    ¬ ∀ (i : PkRequest) (s s' : AuthState), ModeInv s.vars s.platformMode →
      (s.platformMode = .user ↔ PkExists s.vars) → (∀ n, i.env.driver.accessOk n = true) →
      i.process s = some (.success, s') → (s'.platformMode = .user ↔ PkExists s'.vars) := by
  intro ha
  have hpk : PkExists customState.vars := ⟨.nv, by decide +kernel⟩
  obtain ⟨s', hp, hm, he⟩ : ∃ s', appendNothing.process customState =
      some (.success, s') ∧ s'.platformMode = .setup ∧
        liveOf platformKey (s'.vars.records .nv) ≠ [] := by
    refine ⟨((appendNothing.process customState).map Prod.snd).getD customState, ?_, ?_, ?_⟩
    · decide +kernel
    · decide +kernel
    · decide +kernel
  have hb := ha appendNothing customState s' (modeInv_sampleState _ _)
    (iff_of_true rfl hpk) (fun _ => rfl) hp
  rw [hm] at hb
  cases hb.mpr ⟨.nv, he⟩

end Edk2.Auth
