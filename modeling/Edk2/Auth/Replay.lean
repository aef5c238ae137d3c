import Mathlib.Data.Prod.Lex
import Edk2.Auth.PlatformMode

/-!
# Replay protection

The time stamp stored with a variable guards it against old requests: one library compares the time
stamp of a request with it, field by field and for non-appends only, and the variable driver chooses
the time stamp it stores. Both look at one entry where the variable is in the store that the request
names. An append that finds the variable in the HOB store is stored as a new variable, with the time
zero.

## Main results

* `replay_of_run`: in every run of updates that meet the condition the stored time stamp does not
  decrease, and no non-append is accepted twice
* `not_replay`: an append to PK of the HOB store, after which the stored time is zero
-/

namespace Edk2.Auth

open Var Option

/-! ## Calendar order -/

/-- Dates and times, earlier ones first. -/
abbrev Calendar : Type := ℕ ×ₗ ℕ ×ₗ ℕ ×ₗ ℕ ×ₗ ℕ ×ₗ ℕ

def calendar (t : EfiTime) : Calendar :=
  toLex (t.year, toLex (t.month, toLex (t.day, toLex (t.hour, toLex (t.minute, t.second)))))

/-- The field-by-field comparison is that of the calendar order. -/
theorem compareTimeStamp_iff {t t' : EfiTime} :
    compareTimeStamp t t' = true ↔ calendar t ≤ calendar t' := by
  simp only [calendar, Prod.Lex.toLex_le_toLex, compareTimeStamp]
  split_ifs <;> simp only [decide_eq_true_eq] <;> omega

/-! ## Updates -/

/-- The time stamp stored with a variable. -/
def stored (s : AuthState) (key : VarKey) : Option EfiTime :=
  (current s.vars key).map VarRecord.timeStamp

/-- The stored time stamp in calendar order, below every time for a variable that does not exist. -/
def storedTime (s : AuthState) (key : VarKey) : WithBot Calendar :=
  (stored s key).elim ⊥ fun t => (calendar t : WithBot Calendar)

/-- A call of `VerifyTimeBasedPayloadAndUpdate`. -/
structure TimedUpdate where
  env : AuthEnv
  fuel : ℕ
  attributes : BitVec 32
  buffer : AuthBuffer
  type : AuthVarType

namespace TimedUpdate

variable (c : TimedUpdate)

/-- `EFI_VARIABLE_APPEND_WRITE` is set. -/
def isAppend : Bool := hasAttribute c.attributes efiVariableAppendWrite

def call (key : VarKey) (s : AuthState) : Option (EfiStatus × Bool × AuthState) :=
  verifyTimeBasedPayloadAndUpdate c.env c.fuel s key c.attributes c.buffer c.type

def store : StoreType :=
  if hasAttribute c.attributes efiVariableNonVolatile then .nv else .volatile

theorem store_ne_hob : c.store ≠ .hob := by
  unfold store
  split_ifs <;> simp

/-- What the variable driver is asked to do. -/
def updateArgs (key : VarKey) (data : List UInt8) : UpdateArgs :=
  ⟨key, data, c.attributes, some c.buffer.timeStamp⟩

end TimedUpdate

/-- **What an update has to meet.** It is a time-based one of a variable that is not a database of
stored certificates, and no deletion. The variable is in the store that the attributes name, or in
the HOB store, and in the latter for a non-append only. -/
structure Guarded (key : VarKey) (c : TimedUpdate) (s : AuthState) : Prop where
  authFormat : c.env.driver.authFormat = true
  timeBased : hasAttribute c.attributes efiVariableTimeBasedAuthenticatedWriteAccess = true
  notCertDb : key ≠ certDbKey ∧ key ≠ certDbVolatileKey
  access : hasAttribute c.attributes (efiVariableRuntimeAccess ||| efiVariableBootserviceAccess) = true
  notDelete : c.buffer.payloadSize ≠ 0 ∨ c.isAppend = true
  ready : Ready c.env.driver s.vars key c.store
  hobAppend : c.isAppend = true → liveOf key (s.vars.records .hob) = []

variable {key : VarKey} {c : TimedUpdate} {s s' : AuthState} {status : EfiStatus} {del : Bool}

/-! ## What is stored -/

theorem orgTimeStamp_eq (h : Guarded key c s) : orgTimeStamp c.env s key = stored s key := by
  have hc := lookup_eq_current h.ready.toVisible h.ready.ordered
  rw [orgTimeStamp, if_pos h.authFormat, stored, ← hc, map_map]
  rfl

theorem Guarded.certsStored (h : Guarded key c s) (hnone : stored s key = none)
    (hs : CertsStored c.env c.attributes s s') :
    Guarded key c s' ∧ stored s' key = none := by
  obtain ⟨data, rfl⟩ := hs
  have hnil := liveOf_eq_nil_of_current (map_eq_none_iff.mp hnone)
  have hdb : (certDbOf c.attributes).1.1 ≠ [] ∧ key ≠ (certDbOf c.attributes).1 := by
    unfold certDbOf
    split_ifs
    · exact ⟨by decide, h.notCertDb.1⟩
    · exact ⟨by decide, h.notCertDb.2⟩
  have hk : ∀ store, liveOf key ((updateVariableInfo c.env s
      ⟨(certDbOf c.attributes).1, data, (certDbOf c.attributes).2, none⟩).2.vars.records store) =
        [] := fun store =>
    (updateVariable_keeps hdb.1 h.ready.hobNamed hdb.2 h.ready.notFlag (hnil .hob) store).liveOf_eq_nil
      (hnil store)
  refine ⟨{ h with
    ready := ready_of_absent h.ready.named h.ready.notFlag
      ((hobFrom_updateVariable h.ready.hobNamed).named h.ready.hobNamed) hk
    hobAppend := fun _ => hk .hob }, ?_⟩
  simp [stored, current, valueOf_eq_none_iff.mpr (hk _)]

/-! ## One update -/

/-- **What an update does to the stored time stamp.** -/
structure Advances (key : VarKey) (c : TimedUpdate) (s : AuthState) (status : EfiStatus)
    (s' : AuthState) : Prop where
  mono : storedTime s key ≤ storedTime s' key
  later : status = .success → c.isAppend = false →
    storedTime s key < calendar c.buffer.timeStamp ∧
      storedTime s' key = calendar c.buffer.timeStamp
  kept : status = .success → c.isAppend = true → ∀ t ∈ stored s key,
    calendar c.buffer.timeStamp < calendar t → stored s' key = some t

section Update

variable {bytes : List UInt8}

theorem advances_of_eq (hsa : stored s' key = stored s key) (hst : status ≠ .success) :
    Advances key c s status s' where
  mono := by rw [storedTime, storedTime, hsa]
  later := fun hs => absurd hs hst
  kept := fun hs => absurd hs hst

variable (h : Guarded key c s)
include h

theorem Guarded.isDelete_eq_false (hd : c.isAppend = false → bytes ≠ []) :
    (c.updateArgs key bytes).isDelete = false := by
  have hac : (c.updateArgs key bytes).hasAccess = true := h.access
  rw [UpdateArgs.isDelete, hac, Bool.not_true, Bool.or_false, Bool.and_eq_false_iff]
  cases ha : c.isAppend with
  | true => exact .inl (by rw [show (c.updateArgs key bytes).isAppend = true from ha]; rfl)
  | false => exact .inr (by simpa [TimedUpdate.updateArgs] using hd ha)

theorem Guarded.updateSpec (bytes : List UInt8) :
    UpdateSpec c.env.driver s.vars (c.updateArgs key bytes)
      (updateVariableInfo c.env s (c.updateArgs key bytes)).1
      (updateVariableInfo c.env s (c.updateArgs key bytes)).2.vars := by
  refine updateSpec_updateVariable h.ready ?_ (by simp [TimedUpdate.updateArgs])
  intro hz
  have hb := h.timeBased
  rw [show c.attributes = 0#32 from hz] at hb
  simp [hasAttribute] at hb

theorem Guarded.newTimeStamp_eq (bytes : List UInt8) (old : Option VarRecord) :
    newTimeStamp c.env.driver (c.updateArgs key bytes) old =
      if c.isAppend = false then c.buffer.timeStamp
      else old.elim .zero fun old =>
        if calendar old.timeStamp ≤ calendar c.buffer.timeStamp then c.buffer.timeStamp
        else old.timeStamp := by
  have hb : hasAttribute (c.updateArgs key bytes).attributes
      efiVariableTimeBasedAuthenticatedWriteAccess = true := h.timeBased
  have ha : (c.updateArgs key bytes).isAppend = c.isAppend := rfl
  rw [newTimeStamp, h.authFormat, hb, ha]
  cases c.isAppend <;> cases old <;> simp [TimedUpdate.updateArgs, compareTimeStamp_iff]

theorem Guarded.applied_some (hd : c.isAppend = false → bytes ≠ [])
    (old : VarRecord) : applied c.env.driver (c.updateArgs key bytes) (some old) =
      some (newRecord c.env.driver (c.updateArgs key bytes) (some old)) := by
  rw [applied, h.isDelete_eq_false hd]
  simp [TimedUpdate.updateArgs]

/-- The stored time stamp after an update: an append finds the variable in its own store, and a
non-append stores its own time stamp whatever it finds. -/
theorem Guarded.stored_updated (hd : c.isAppend = false → bytes ≠ [])
    (hsp : UpdateSpec c.env.driver s.vars (c.updateArgs key bytes) status s'.vars) :
    status ≠ .success ∧ stored s' key = stored s key ∨
      stored s' key = if c.isAppend = false then some c.buffer.timeStamp
        else (applied c.env.driver (c.updateArgs key bytes) (current s.vars key)).map
          VarRecord.timeStamp := by
  refine (hsp.current_cases h.ready h.hobAppend).imp
    (fun hs => ⟨hs.1, congrArg (Option.map VarRecord.timeStamp) hs.2⟩) fun hnew => ?_
  have hst : stored s' key = (applied c.env.driver (c.updateArgs key bytes)
      (valueOf key (s.vars.records c.store))).map VarRecord.timeStamp :=
    congrArg (Option.map VarRecord.timeStamp) hnew
  rw [hst]
  split_ifs with ha
  · have hb : (c.updateArgs key bytes).data ≠ [] := hd ha
    cases valueOf key (s.vars.records c.store) with
    | none =>
      rw [applied, if_neg hb, map_some, newRecord, h.newTimeStamp_eq, if_pos ha]
    | some old =>
      rw [h.applied_some hd, map_some, newRecord, h.newTimeStamp_eq, if_pos ha]
  · rw [h.ready.current_of_hob c.store_ne_hob (h.hobAppend (by simpa using ha))]

/-- An append stores the later of the two time stamps. -/
theorem advances_append (ha : c.isAppend = true)
    (hsp : UpdateSpec c.env.driver s.vars (c.updateArgs key bytes) status s'.vars) :
    Advances key c s status s' := by
  have hn : ¬ c.isAppend = false := by simp [ha]
  rcases h.stored_updated (fun hse => absurd hse hn) hsp with ⟨hf, hsa⟩ | hnew
  · exact advances_of_eq hsa hf
  rw [if_neg hn] at hnew
  refine ⟨?_, fun _ hse => absurd hse hn, fun _ _ t ht he => ?_⟩
  · cases hold : current s.vars key with
    | none => simp [storedTime, stored, hold]
    | some old =>
      rw [hold, h.applied_some (fun hse => absurd hse hn), map_some, newRecord,
        h.newTimeStamp_eq, elim_some] at hnew
      have hs : stored s key = some old.timeStamp := by rw [stored, hold, map_some]
      rw [storedTime, storedTime, hnew, hs, elim_some, elim_some,
        WithBot.coe_le_coe]
      split_ifs with hle
      · exact hle
      · exact le_rfl
  · obtain ⟨old, hold, rfl⟩ := map_eq_some_iff.mp ht
    rw [hnew, hold, h.applied_some (fun hse => absurd hse hn), map_some, newRecord,
      h.newTimeStamp_eq, if_neg hn, elim_some, if_neg (not_le.mpr he)]

theorem advances_set (ha : c.isAppend = false) (hd : bytes ≠ [])
    (hl : storedTime s key < calendar c.buffer.timeStamp)
    (hs : UpdateSpec c.env.driver s.vars (c.updateArgs key bytes) status s'.vars) :
    Advances key c s status s' := by
  rcases h.stored_updated (fun _ => hd) hs with ⟨hf, hsa⟩ | hnew
  · exact advances_of_eq hsa hf
  rw [if_pos ha] at hnew
  have ht : storedTime s' key = calendar c.buffer.timeStamp := by
    rw [storedTime, hnew, elim_some]
  exact {
    mono := ht ▸ hl.le
    later := fun _ _ => ⟨hl, ht⟩
    kept := fun _ hse => by simp [ha] at hse }

theorem Guarded.verified {s₁ : AuthState}
    (hv : verifyTimeBasedPayload c.env c.fuel s key c.attributes c.buffer c.type
      (orgTimeStamp c.env s key) = some (status, s₁)) :
    Guarded key c s₁ ∧ stored s₁ key = stored s key := by
  rcases verifyTimeBasedPayload_cases hv with rfl | ⟨-, ho, hc⟩
  · exact ⟨h, rfl⟩
  · rw [orgTimeStamp_eq h] at ho
    have hs := h.certsStored ho hc
    exact ⟨hs.1, hs.2.trans ho.symm⟩

/-- **What one update does.** -/
theorem Guarded.advances (hc : c.call key s = some (status, del, s')) :
    Advances key c s status s' := by
  rcases verifyAndUpdate_cases hc with ⟨status', s₁, hv, hsta, ho⟩ |
    ⟨s₁, u, hv, hu, ho⟩
  · obtain ⟨rfl, -, rfl⟩ := ho
    exact advances_of_eq (h.verified hv).2 hsta
  obtain ⟨h₁, hst⟩ := h.verified hv
  obtain ⟨bytes, rfl, hb⟩ := updateVariableWithTimeStamp_cases hu
  have ho' := ho.resolve_right fun hd => h.notDelete.elim (fun hsi => hsi hd.2.1)
    fun hap => by simp [show c.isAppend = false from hd.2.2] at hap
  obtain ⟨rfl, -, rfl⟩ := ho'
  have hs := h₁.updateSpec bytes
  have ht : storedTime s₁ key = storedTime s key := by rw [storedTime, storedTime, hst]
  cases hap : c.isAppend with
  | true =>
    have ha := advances_append h₁ hap hs
    exact ⟨ht ▸ ha.mono, ht ▸ ha.later, hst ▸ ha.kept⟩
  | false =>
    -- The filter is for appends only, so the data is the payload, and not empty.
    have hp : bytes = c.buffer.payload := (hb.resolve_right fun hf => by
      simp [show c.isAppend = true from hf.1] at hap).2
    have hda : bytes ≠ [] := by
      rw [hp, ne_eq, AuthBuffer.payload_eq_nil_iff]
      exact h.notDelete.resolve_right (by simp [hap])
    have hl : storedTime s key < calendar c.buffer.timeStamp := by
      have hla := (accepted_of_verify hv).later hap
      rw [orgTimeStamp_eq h] at hla
      unfold storedTime
      cases hsto : stored s key with
      | none => exact WithBot.bot_lt_coe _
      | some t =>
        rw [elim_some, WithBot.coe_lt_coe]
        rw [← not_le, ← compareTimeStamp_iff, Bool.not_eq_true]
        exact hla t hsto
    have ha := advances_set h₁ hap hda (ht ▸ hl) hs
    exact ⟨ht ▸ ha.mono, ht ▸ ha.later, hst ▸ ha.kept⟩

end Update

/-! ## Runs -/

/-- An update that meets the condition and returns. -/
def GuardedStep (key : VarKey) (s : AuthState) (c : TimedUpdate) (s' : AuthState) : Prop :=
  Guarded key c s ∧ ∃ status del, c.call key s = some (status, del, s')

theorem storedTime_mono_of_run {cs : List TimedUpdate} (hr : Run (GuardedStep key) s cs s') :
    storedTime s key ≤ storedTime s' key := by
  induction hr with
  | nil => exact le_rfl
  | cons hs _ ih =>
    obtain ⟨hg, status, del, hc⟩ := hs
    exact (hg.advances hc).mono.trans ih

/-- **Replay protection.** Along every run of updates that meet the condition the stored time stamp
does not decrease in calendar order. The next update does not decrease it either. As a non-append it
is accepted only if it is later than the stored time stamp. As an append that is earlier it keeps
the stored time stamp. A non-append that was accepted is not accepted again after any further such
run. -/
theorem replay_of_run {cs : List TimedUpdate} {s₀ : AuthState}
    (hrun : Run (GuardedStep key) s₀ cs s) (h : Guarded key c s)
    (hcall : c.call key s = some (status, del, s')) :
    storedTime s₀ key ≤ storedTime s key ∧ storedTime s key ≤ storedTime s' key ∧
      (status = .success → c.isAppend = false →
        storedTime s key < calendar c.buffer.timeStamp) ∧
      (status = .success → c.isAppend = true → ∀ t ∈ stored s key,
        calendar c.buffer.timeStamp < calendar t → stored s' key = some t) ∧
      (status = .success → c.isAppend = false → ∀ cs' s₁ c' del' s₂,
        Run (GuardedStep key) s' cs' s₁ → Guarded key c' s₁ → c'.buffer = c.buffer →
          c'.isAppend = false → c'.call key s₁ ≠ some (.success, del', s₂)) := by
  have ha := h.advances hcall
  refine ⟨storedTime_mono_of_run hrun, ha.mono,
    fun hs hap => (ha.later hs hap).1, ha.kept, ?_⟩
  intro hs hap cs' s₁ c' del' s₂ hr' h' hb ha' hc'
  have ht := (ha.later hs hap).2
  have hag := ((h'.advances hc').later rfl ha').1
  rw [hb, ← ht] at hag
  exact absurd (storedTime_mono_of_run hr') (not_le.mpr hag)

/-! ### A run -/

/-- An update of PK, at a second of the first of January 2023. -/
def updatePk (append : BitVec 32) (second : UInt8) : TimedUpdate :=
  ⟨sampleEnv false, 3, sampleAttributes ||| append, sampleBuffer second samplePk, .pk⟩

def userState : AuthState :=
  sampleState .user [⟨varAdded, sampleAttributes, .zero, platformKey, samplePk⟩]

def afterUpdatePk (s : AuthState) (c : TimedUpdate) : AuthState :=
  ((c.call platformKey s).map fun o => o.2.2).getD s

theorem guarded_updatePk {second : UInt8} (hh : s.vars.hobStore = none)
    (hv : liveOf platformKey (s.vars.records .volatile) = [])
    (hsingle : Single platformKey (s.vars.records .nv)) :
    Guarded platformKey (updatePk 0#32 second) s where
  authFormat := rfl
  timeBased := show hasAttribute (sampleAttributes ||| 0#32) _ = true by decide +kernel
  notCertDb := by decide +kernel
  access := show hasAttribute (sampleAttributes ||| 0#32) _ = true by decide +kernel
  notDelete := .inl (show samplePk.length ≠ 0 by decide +kernel)
  ready := by
    have hs : (updatePk 0#32 second).store = .nv := if_pos
      (show hasAttribute (sampleAttributes ||| 0#32) efiVariableNonVolatile = true by
        decide +kernel)
    rw [hs]
    exact {
      named := by decide
      attributes := fun hrt => by cases hrt
      notFlag := by decide
      tracked := hsingle.tracked
      home := by
        intro store hnv hn
        cases store with
        | volatile => exact hv
        | hob => exact absurd rfl hn
        | nv => exact absurd rfl hnv
      hobHome := .inl rfl
      hobSingle := by simp [VarState.records, hh, Single]
      hobAdded := by simp [VarState.records, hh]
      hobNamed := by simp [HobNamed, VarState.records, hh] }
  hobAppend := fun hn => absurd hn
    (show hasAttribute (sampleAttributes ||| 0#32) efiVariableAppendWrite ≠ true by decide +kernel)

def updatedState : AuthState := afterUpdatePk userState (updatePk 0#32 1)

theorem replay_of_run_updatePk :
    storedTime userState platformKey ≤ storedTime updatedState platformKey ∧
      storedTime updatedState platformKey < calendar (updatePk 0#32 2).buffer.timeStamp := by
  have hf : Guarded platformKey (updatePk 0#32 1) userState :=
    guarded_updatePk rfl (by decide +kernel)
      (show (liveOf platformKey (userState.vars.records .nv)).length ≤ 1 by decide +kernel)
  have hs : Guarded platformKey (updatePk 0#32 2) updatedState :=
    guarded_updatePk (by decide +kernel) (by decide +kernel)
      (show (liveOf platformKey (updatedState.vars.records .nv)).length ≤ 1 by decide +kernel)
  have hc : (updatePk 0#32 1).call platformKey userState = some (.success, false, updatedState) := by
    decide +kernel
  have hc' : (updatePk 0#32 2).call platformKey updatedState =
      some (.success, false, afterUpdatePk updatedState (updatePk 0#32 2)) := by
    decide +kernel
  have ha : (updatePk 0#32 2).isAppend = false := by decide +kernel
  have hr := replay_of_run (.cons ⟨hf, _, _, hc⟩ (.nil _)) hs hc'
  exact ⟨hr.1, hr.2.2.1 rfl ha⟩

/-- User mode, with PK in the HOB store only, enrolled in 2023. -/
def hobState : AuthState :=
  { userState with vars :=
    { userState.vars with
      hobStore := some [⟨varAdded, sampleAttributes, (sampleBuffer 1 []).timeStamp, platformKey,
        samplePk⟩]
      nvStore := [] } }

/-- **The stored time stamp may decrease**: an append finds PK in the HOB store and is stored as a
new variable, with the time zero. -/
theorem not_replay :
    ¬ ∀ (key : VarKey) (c : TimedUpdate) (s s' : AuthState) (del : Bool), s.platformMode = .user →
      c.env.driver.authFormat = true →
      hasAttribute c.attributes efiVariableTimeBasedAuthenticatedWriteAccess = true →
      hasAttribute c.attributes (efiVariableRuntimeAccess ||| efiVariableBootserviceAccess) = true →
      c.buffer.payloadSize ≠ 0 → Ready c.env.driver s.vars key c.store →
      (∀ n, c.env.driver.accessOk n = true) → c.call key s = some (.success, del, s') →
      storedTime s key ≤ storedTime s' key := by
  intro hal
  let c := updatePk efiVariableAppendWrite 2
  have hr : Ready sampleDriver hobState.vars platformKey .nv := {
    named := by decide
    attributes := fun hrt => by cases hrt
    notFlag := by decide
    tracked := trivial
    home := by
      intro store hnv hn
      cases store with
      | volatile => decide +kernel
      | hob => exact absurd rfl hn
      | nv => exact absurd rfl hnv
    hobHome := .inl rfl
    hobSingle := show (liveOf platformKey (hobState.vars.records .hob)).length ≤ 1 by
      decide +kernel
    hobAdded := by decide +kernel
    hobNamed := show ∀ r ∈ hobState.vars.records .hob, r.isAdded = true → r.key.1 ≠ [] by
      decide +kernel }
  have hs : c.store = .nv := by decide +kernel
  have hc : c.call platformKey hobState =
      some (.success, false, afterUpdatePk hobState c) := by decide +kernel
  have hm := hal platformKey c hobState (afterUpdatePk hobState c) false rfl rfl
    (by decide +kernel) (by decide +kernel) (by decide +kernel) (hs ▸ hr) (fun _ => rfl) hc
  have hb : stored hobState platformKey = some (sampleBuffer 1 []).timeStamp := by
    decide +kernel
  have ha : stored (afterUpdatePk hobState c) platformKey = some .zero := by decide +kernel
  exact absurd hm (by decide +kernel)

end Edk2.Auth
