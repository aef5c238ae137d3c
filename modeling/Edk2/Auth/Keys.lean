import Edk2.Auth.PlatformMode

/-!
# The keys of Secure Boot

PK, KEK, db, dbx and dbt in user mode. A call of `ProcessVarWithPk` or `ProcessVarWithKek` that
changes anything was signed: under the certificate in PK, or under an X.509 certificate in KEK. db,
dbx and dbt are tried with PK first, so that the owner of PK may change them without KEK. What is
written is what was signed; an append to KEK, db, dbx or dbt leaves out the signatures that are
there already, and one to PK does not.

Two kinds of requests do something else than what was signed, and the content is stated without
them. One without boot service and runtime access deletes the variable; `SetVariable` does not pass
it on for a variable with access. An append to a variable that is only in the HOB store replaces it.

## Main results

* `keys_signed`: a call that changes the state was signed, and writes what was signed
* `first_change_signed`: a run that changes the state has a request that was signed at its start
* `not_keys_signed`: db changes without a signature under KEK, and PK gets a signature that it has
  already
-/

namespace Edk2.Auth

open Var VarRecord Option

/-! ## Calls -/

/-- `L"db"`, `L"dbx"` and `L"dbt"` with the GUID of image security databases. -/
def imageDatabaseKeys : List VarKey :=
  [(efiImageSecurityDatabase, gEfiImageSecurityDatabaseGuid),
    (efiImageSecurityDatabase1, gEfiImageSecurityDatabaseGuid),
    (efiImageSecurityDatabase2, gEfiImageSecurityDatabaseGuid)]

def secureBootKeys : List VarKey := platformKey :: keyExchangeKey :: imageDatabaseKeys

/-- User mode, without a physically present user in custom mode and with variable policies enforced.
-/
structure UserMode (env : AuthEnv) (s : AuthState) : Prop where
  mode : s.platformMode = .user
  custom : isCustomPresent env s = false
  policy : env.variablePolicyEnabled = true

/-- A call for one of the variables, with the certificates it is checked with. -/
inductive KeyCall (env : AuthEnv) (fuel : ℕ) (s : AuthState) (attributes : BitVec 32)
    (b : AuthBuffer) : VarKey → AuthVarType → EfiStatus × AuthState → Prop
  | withPk {key : VarKey} {o : EfiStatus × AuthState} : key ∈ secureBootKeys →
      processVarWithPk env fuel s key attributes b (key = platformKey) = some o →
      KeyCall env fuel s attributes b key .pk o
  | withKek {key : VarKey} {o : EfiStatus × AuthState} : key ∈ imageDatabaseKeys →
      processVarWithKek env fuel s key attributes b = some o →
      KeyCall env fuel s attributes b key .kek o

/-- **The certificates of PK and KEK**: the first one of PK, and the X.509 certificates of all lists
of KEK. -/
def Certificate (env : AuthEnv) (s : AuthState) (cert : List UInt8) : AuthVarType → Prop
  | .pk => ∃ pk, findVariableInfo env s platformKey = some pk ∧
      cert = firstCertificate (dataMemory env.beyond pk.data)
  | .kek => ∃ kek, findVariableInfo env s keyExchangeKey = some kek ∧
      ∃ list, ListAt (dataMemory env.beyond kek.data) list (kek.data.length % 2 ^ 32) 0 ∧
        signatureType (dataMemory env.beyond kek.data) list = gEfiCertX509Guid ∧
        ∃ signature ∈ signaturesAt (dataMemory env.beyond kek.data) list,
          cert = bytesAt (dataMemory env.beyond kek.data) (signature + 16)
            (sub64 (signatureSize (dataMemory env.beyond kek.data) list) 16)
  | _ => False

def content (s : AuthState) (key : VarKey) : Option (List UInt8) :=
  (current s.vars key).map data

/-- **The content that a request is for.** -/
inductive Written (env : AuthEnv) (s : AuthState) (key : VarKey) (attributes : BitVec 32)
    (b : AuthBuffer) : Option (List UInt8) → Prop
  | set : hasAttribute attributes efiVariableAppendWrite = false ∨ content s key = none →
      Written env s key attributes b (if b.payload = [] then none else some b.payload)
  | append {old : List UInt8} {lists : List ℕ} :
      hasAttribute attributes efiVariableAppendWrite = true → content s key = some old →
      key ≠ platformKey → Lists b.payloadMemory b.payloadSize 0 lists →
      Written env s key attributes b
        (some (old ++ withoutPresent (dataMemory env.beyond old) old.length b.payloadMemory lists))
  | appendPk {old : List UInt8} :
      hasAttribute attributes efiVariableAppendWrite = true → content s key = some old →
      key = platformKey → Written env s key attributes b (some (old ++ b.payload))

variable {env : AuthEnv} {fuel : ℕ} {s s' : AuthState} {key key' : VarKey} {attributes : BitVec 32}
  {b : AuthBuffer} {type : AuthVarType} {status : EfiStatus}

/-! ## Signatures -/

/-- A certificate of the lists verifies. -/
def SomeVerifies (kek : Memory) (verify : List UInt8 → Bool) (size pos : ℕ) : Prop :=
  ∃ list, ListAt kek list size pos ∧ signatureType kek list = gEfiCertX509Guid ∧
    ∃ signature ∈ signaturesAt kek list,
      verify (bytesAt kek (signature + 16) (sub64 (signatureSize kek list) 16)) = true

theorem kekLoop_spec {kek : Memory} {verify : List UInt8 → Bool} {size pos : ℕ}
    (h : loop (kekStep kek verify) fuel (size, pos) = some (some true)) :
    SomeVerifies kek verify size pos := by
  induction fuel generalizing size pos with
  | zero => cases h
  | succ fuel ih =>
    by_cases hw : WithinSize kek size pos
    swap
    · rw [loop_inr (show kekStep kek verify (size, pos) = .inr (some false) from if_neg hw)] at h
      cases h
    have hs : kekStep kek verify (size, pos) =
        if signatureType kek pos = gEfiCertX509Guid then
          if signatureSize kek pos = 0 then .inr none
          else if anySignature
              (fun cert => verify (bytesAt kek (cert + 16) (sub64 (signatureSize kek pos) 16)))
              (signatureSize kek pos) (signatureCount kek pos) (firstSignature kek pos) = true then
            .inr (some true)
          else .inl (size - signatureListSize kek pos, pos + signatureListSize kek pos)
        else .inl (size - signatureListSize kek pos, pos + signatureListSize kek pos) := by
      unfold kekStep
      rw [if_pos (show 0 < size ∧ signatureListSize kek pos ≤ size from hw)]
    have hnext : kekStep kek verify (size, pos) =
        .inl (size - signatureListSize kek pos, pos + signatureListSize kek pos) →
        SomeVerifies kek verify size pos := by
      intro hin
      rw [loop_inl hin] at h
      obtain ⟨list, hat, hl⟩ := ih h
      exact ⟨list, .there hw hat, hl⟩
    by_cases ht : signatureType kek pos = gEfiCertX509Guid
    swap
    · rw [if_neg ht] at hs
      exact hnext hs
    rw [if_pos ht] at hs
    by_cases hz : signatureSize kek pos = 0
    · rw [if_pos hz] at hs
      rw [loop_inr hs] at h
      cases h
    rw [if_neg hz] at hs
    split at hs
    · rename_i ha
      exact ⟨pos, .here hw, ht, anySignature_list.mp ha⟩
    · exact hnext hs

/-- **An accepted request was signed.** -/
theorem Accepted.signed {org : Option EfiTime}
    (h : Accepted env fuel s key attributes b type org s')
    (hp : env.variablePolicyEnabled = true) (ht : type = .pk ∨ type = .kek) :
    ∃ cert, Certificate env s cert type ∧
      env.pkcs7Verify b.sigData cert (serialized key attributes b) = true := by
  have hv := (h.verified.resolve_left fun hn => by simp [hp] at hn).2
  unfold verifySignature at hv
  rcases ht with rfl | rfl
  · simp only [some.injEq, Prod.mk.injEq, Sum.inr.injEq] at hv
    have h := hv.1
    unfold verifyPk at h
    split at h
    · cases h
    rename_i signers hs
    split at h
    · cases h
    rename_i pk hpk
    dsimp only at h
    split at h
    · cases h
    rename_i hc
    rw [not_or, not_not, not_not] at hc
    refine ⟨signers.topLevelCert, ⟨pk, hpk, ?_⟩, h⟩
    rw [firstCertificate, ← hc.1, hc.2]
  · dsimp only at hv
    split at hv
    · cases hv
    rename_i kek hk
    obtain ⟨verified, hl, heq⟩ := map_eq_some_iff.mp hv
    obtain rfl : verified = true := by simpa using (Prod.mk.inj heq).1
    obtain ⟨list, hat, hx509, signature, hmem, hve⟩ :=
      kekLoop_spec (join_eq_some_iff.mp hl)
    exact ⟨_, ⟨kek, hk, list, hat, hx509, signature, hmem, rfl⟩, hve⟩

/-! ## Other variables -/

/-- The change leaves the variable alone, and adds nothing to the HOB store. -/
structure Stays (key : VarKey) (s s' : VarState) : Prop where
  keeps : KeepsAll key s s'
  hob : HobFrom s s'

/-- A variable that the changes of others leave alone: it is not in the HOB store, which they flush.
-/
structure Standing (key : VarKey) (s : VarState) : Prop where
  hobNamed : HobNamed s
  notInHob : liveOf key (s.records .hob) = []
  tracked : ∀ store, Tracked key (s.records store)

section Frame

variable {vars vars' vars'' : VarState}

theorem Stays.refl : Stays key vars vars := ⟨.refl, .refl⟩

theorem Stays.trans (h : Stays key vars vars') (h' : Stays key vars' vars'') :
    Stays key vars vars'' := ⟨h.keeps.trans h'.keeps, h.hob.trans h'.hob⟩

theorem Standing.stays (h : Standing key vars) (hs : Stays key vars vars') :
    Standing key vars' where
  hobNamed := hs.hob.named h.hobNamed
  notInHob := hs.hob.liveOf_eq_nil h.notInHob
  tracked := fun store => (hs.keeps store).tracked (h.tracked store)

theorem Standing.current_eq (h : Standing key vars) (hs : Stays key vars vars') :
    current vars' key = current vars key := by
  unfold current
  rw [(hs.keeps .volatile).value (h.tracked _), (hs.keeps .hob).value (h.tracked _),
    (hs.keeps .nv).value (h.tracked _)]

theorem Standing.update {args : UpdateArgs} (driver : Env) (h : Standing key vars)
    (hk : args.key.1 ≠ []) (hne : key ≠ args.key) (hf : key ≠ varErrorFlagKey) :
    Stays key vars (variableExLibUpdateVariable driver vars args).state :=
  ⟨updateVariable_keeps hk h.hobNamed hne hf h.notInHob, hobFrom_updateVariable h.hobNamed⟩

end Frame

theorem ne_of_mem_secureBootKeys (h : key ∈ secureBootKeys) :
    key.1 ≠ [] ∧ key ≠ varErrorFlagKey ∧ key ≠ setupModeKey ∧ key ≠ secureBootKey ∧
      key ≠ secureBootEnableKey := by
  have ha : ∀ k ∈ secureBootKeys, k.1 ≠ [] ∧ k ≠ varErrorFlagKey ∧ k ≠ setupModeKey ∧
    k ≠ secureBootKey ∧ k ≠ secureBootEnableKey := by decide +kernel
  exact ha key h

theorem Standing.followPk {isPk del : Bool} (h : Standing key s.vars) (hk : key ∈ secureBootKeys) :
    Stays key s.vars (followPk env s isPk status del).2.vars := by
  obtain ⟨-, hfl, hs, hb, he⟩ := ne_of_mem_secureBootKeys hk
  have hot : ∀ (s : AuthState) (key' : VarKey) (data : List UInt8) (attributes : BitVec 32),
      Standing key s.vars → key' = secureBootKey ∨ key' = secureBootEnableKey →
      Stays key s.vars (updateVariableInfo env s ⟨key', data, attributes, none⟩).2.vars := by
    intro s key' data attributes h hk'
    have hne : key'.1 ≠ [] ∧ key ≠ key' := by
      rcases hk' with rfl | rfl
      · exact ⟨by decide, hb⟩
      · exact ⟨by decide, he⟩
    exact h.update env.driver hne.1 hne.2 hfl
  have hse : ∀ s : AuthState, Standing key s.vars →
      Stays key s.vars (updateSecureBoot env s).2.vars := by
    intro s h
    unfold updateSecureBoot
    dsimp only
    generalize ((findVariableInfo env s secureBootKey).isSome && s.platformMode == .user) = enable
    generalize (if enable = true then (1 : UInt8) else 0) = byte
    have hf := hot s secureBootKey [byte] rtBs h (.inl rfl)
    split_ifs
    · exact hf
    · exact hf.trans (hot _ _ _ _ (h.stays hf) (.inr rfl))
    · exact hf
    · exact hf.trans (hot _ _ _ _ (h.stays hf) (.inr rfl))
  have hm : ∀ mode, Stays key s.vars (updatePlatformMode env s mode).2.vars := by
    intro mode
    have ho : Stays key s.vars (overwriteByte s.vars
        (findVariable env.driver s.vars setupModeKey false) mode.byte) := by
      unfold overwriteByte
      split
      · exact .refl
      · rename_i i hc
        obtain ⟨r, hr, hrk, -⟩ := findVariable_getElem? (by decide) hc
        exact ⟨fun _ => .of_liveOf_eq (liveOf_setRecords_modify hr (hrk ▸ hs.symm) fun _ => rfl),
          hobFrom_setRecords_modify hr fun _ => ⟨rfl, rfl⟩⟩
    unfold updatePlatformMode
    dsimp only
    split_ifs
    · exact .refl
    · exact ho
    · exact ho.trans (hse ⟨_, mode, s.vendorKeyState⟩ (h.stays ho))
  unfold Auth.followPk
  split_ifs
  · exact hm .user
  · exact hm .setup
  · exact .refl
  · exact .refl

/-! ## Content -/

/-- What a call in user mode hands to the variable driver, and what follows. -/
structure Handed (env : AuthEnv) (fuel : ℕ) (s : AuthState) (attributes : BitVec 32) (b : AuthBuffer)
    (key : VarKey) (type : AuthVarType) (s' : AuthState) : Prop where
  timeBased : isTimeBasedNv attributes = true
  scratch : b.payloadSize ≤ env.scratchBufferSize
  signed : ∃ cert, Certificate env s cert type ∧
    env.pkcs7Verify b.sigData cert (serialized key attributes b) = true
  update : ∃ u isPk del, updateVariableWithTimeStamp env fuel s key b.payloadMemory b.payloadSize
      attributes b.timeStamp = some u ∧
    (del = true → u.1 = .success ∧ b.payloadSize = 0 ∧
      hasAttribute attributes efiVariableAppendWrite = false) ∧
    s' = (followPk env u.2 isPk u.1 del).2

theorem followPk_false {del : Bool} : followPk env s false status del = (status, s) := by
  simp [followPk]

/-- **A call in user mode** changes nothing, or hands on what was signed. -/
theorem handed_of_verify {o : EfiStatus × Bool × AuthState} (isPk : Bool) (hus : UserMode env s)
    (ht : type = .pk ∨ type = .kek) (hb : isTimeBasedNv attributes = true)
    (h : verifyTimeBasedPayloadAndUpdate env fuel s key attributes b type = some o) :
    (followPk env o.2.2 isPk o.1 o.2.1).2 = s ∨
      Handed env fuel s attributes b key type (followPk env o.2.2 isPk o.1 o.2.1).2 := by
  have hp : type ≠ .priv := by rcases ht with rfl | rfl <;> simp
  rcases verifyAndUpdate_cases h with ⟨status, s₁, hv, hs, rfl⟩ |
    ⟨s₁, u, hv, hu, hc⟩
  · obtain rfl := verifyTimeBasedPayload_state hp hv
    exact .inl (by rw [followPk_error hs])
  obtain rfl := verifyTimeBasedPayload_state hp hv
  obtain rfl := hc.resolve_right fun hn => hp hn.1
  have ha := accepted_of_verify hv
  have hl := (ha.verified.resolve_left fun hn => by simp [hus.policy] at hn).1
  refine .inr {
    timeBased := hb
    scratch := ?_
    signed := ha.signed hus.policy ht
    update := ⟨u, isPk, _, hu, fun hd => ?_, rfl⟩ }
  · have hpa : b.payload.length = b.payloadSize := length_bytesAt ..
    rw [serialized, List.length_append] at hl
    omega
  · simp only [Bool.and_eq_true, beq_iff_eq, Bool.not_eq_true'] at hd
    exact ⟨EfiStatus.isError_eq_false.mp hd.2, hd.1.1.2, hd.1.2⟩

theorem KeyCall.handed (h : KeyCall env fuel s attributes b key type (status, s'))
    (hu : UserMode env s) : s' = s ∨ Handed env fuel s attributes b key type s' := by
  cases h with
  | withPk hk hc =>
    unfold processVarWithPk at hc
    by_cases hb : isTimeBasedNv attributes = true
    swap
    · rw [if_pos (by simpa using hb)] at hc
      exact .inl (state_eq hc)
    rw [if_neg (by simp [hb]), if_neg (by simp [hu.custom, hu.mode]),
      if_pos hu.mode] at hc
    obtain ⟨o, ho, hf⟩ := map_eq_some_iff.mp hc
    have hh := handed_of_verify (key = platformKey) hu (.inl rfl) hb ho
    rwa [hf] at hh
  | withKek hk hc =>
    unfold processVarWithKek at hc
    by_cases hb : isTimeBasedNv attributes = true
    swap
    · rw [if_pos (by simpa using hb)] at hc
      exact .inl (state_eq hc)
    rw [if_neg (by simp [hb]), if_pos (by simp [hu.custom, hu.mode])] at hc
    obtain ⟨o, ho, hf⟩ := map_eq_some_iff.mp hc
    have hh := handed_of_verify false hu (.inr rfl) hb ho
    rw [followPk_false] at hh
    rwa [(Prod.mk.inj hf).2] at hh

theorem KeyCall.mem (h : KeyCall env fuel s attributes b key type (status, s')) :
    key ∈ secureBootKeys := by
  cases h with
  | withPk hk _ => exact hk
  | withKek hk _ => exact List.mem_cons_of_mem _ (List.mem_cons_of_mem _ hk)

/-- **What a request has to meet for its content**: the variable is as the driver keeps it, the
request gives access, and an append does not find the variable in the HOB store. -/
structure Writable (env : AuthEnv) (s : AuthState) (key : VarKey) (attributes : BitVec 32) : Prop where
  ready : Ready env.driver s.vars key .nv
  access : hasAttribute attributes (efiVariableRuntimeAccess ||| efiVariableBootserviceAccess) = true
  hobAppend : hasAttribute attributes efiVariableAppendWrite = true →
    liveOf key (s.vars.records .hob) = []

section Content

variable {bytes : List UInt8} {timeStamp : EfiTime}

theorem Writable.applied_some (h : Writable env s key attributes) (old : VarRecord) :
    (applied env.driver ⟨key, bytes, attributes, some timeStamp⟩ (some old)).map data =
      if hasAttribute attributes efiVariableAppendWrite = true then some (old.data ++ bytes)
      else if bytes = [] then none else some bytes := by
  have hd : (UpdateArgs.mk key bytes attributes (some timeStamp)).isDelete = true ↔
      bytes = [] ∧ hasAttribute attributes efiVariableAppendWrite = false := by
    have ha : (UpdateArgs.mk key bytes attributes (some timeStamp)).hasAccess = true := h.access
    rw [UpdateArgs.isDelete, ha]
    simp [UpdateArgs.isAppend, and_comm]
  rw [applied]
  by_cases ha : hasAttribute attributes efiVariableAppendWrite = true
  · rw [if_pos ha, if_neg (by simp [hd, ha]), if_neg (by simp), newRecord]
    exact congrArg some (if_pos ha)
  · rw [if_neg ha]
    by_cases hnil : bytes = []
    · rw [if_pos (hd.mpr ⟨hnil, by simpa using ha⟩), if_pos hnil, map_none]
    · rw [if_neg (by simp [hd, hnil]), if_neg hnil, if_neg (by simp), newRecord]
      exact congrArg some (if_neg ha)

theorem applied_none_data :
    (applied env.driver ⟨key, bytes, attributes, some timeStamp⟩ none).map data =
      if bytes = [] then none else some bytes := by
  rw [applied]
  split_ifs <;> rfl

end Content

theorem isFiltered_iff (h : key ∈ secureBootKeys) : isFiltered key = true ↔ key ≠ platformKey := by
  have ha : ∀ k ∈ secureBootKeys, isFiltered k = true ↔ k ≠ platformKey := by decide +kernel
  exact ha key h

theorem Writable.found_data (h : Writable env s key attributes) :
    (findVariableInfo env s key).map data = content s key := by
  have hc := lookup_eq_current h.ready.toVisible h.ready.ordered
  rw [content, ← hc, map_map]
  rfl

theorem Writable.written {u : EfiStatus × AuthState} (h : Writable env s key attributes)
    (hk : key ∈ secureBootKeys) (hb : isTimeBasedNv attributes = true)
    (hsc : b.payloadSize ≤ env.scratchBufferSize)
    (hu : updateVariableWithTimeStamp env fuel s key b.payloadMemory b.payloadSize attributes
      b.timeStamp = some u) :
    content u.2 key = content s key ∨ Written env s key attributes b (content u.2 key) := by
  obtain ⟨bytes, rfl, hby⟩ := updateVariableWithTimeStamp_cases hu
  have hnv := (Bool.and_eq_true_iff.mp hb).1
  have hst : (UpdateArgs.mk key bytes attributes (some b.timeStamp)).store = .nv :=
    UpdateArgs.store_eq_nv_iff.mpr hnv
  have hr : Ready env.driver s.vars (UpdateArgs.mk key bytes attributes (some b.timeStamp)).key
      (UpdateArgs.mk key bytes attributes (some b.timeStamp)).store := hst ▸ h.ready
  have hz : attributes ≠ 0#32 := by
    rintro rfl
    simp [hasAttribute] at hnv
  have hsp := updateSpec_updateVariable hr hz (by simp)
  rcases hsp.current_cases hr h.hobAppend with ⟨-, hsa⟩ | hnew
  · exact .inl (congrArg (Option.map data) hsa)
  rw [hst] at hnew
  have hco : content (updateVariableInfo env s ⟨key, bytes, attributes, some b.timeStamp⟩).2 key =
      (applied env.driver ⟨key, bytes, attributes, some b.timeStamp⟩
        (valueOf key (s.vars.records .nv))).map data :=
    congrArg (Option.map data) hnew
  rw [hco]
  refine .inr ?_
  have hfo := h.found_data
  by_cases ha : hasAttribute attributes efiVariableAppendWrite = true
  swap
  · -- A non-append replaces whatever is there with the payload.
    have hp : bytes = b.payload := (hby.resolve_right fun hn => ha hn.1).2
    have hse : Written env s key attributes b (if b.payload = [] then none else some b.payload) :=
      .set (.inl (by simpa using ha))
    cases valueOf key (s.vars.records .nv) with
    | none => rwa [applied_none_data, hp]
    | some old => rwa [h.applied_some, if_neg ha, hp]
  have hc : current s.vars key = valueOf key (s.vars.records .nv) :=
    h.ready.current_of_hob (by simp) (h.hobAppend ha)
  cases hold : valueOf key (s.vars.records .nv) with
  | none =>
    have hnone : content s key = none := by rw [content, hc, hold, map_none]
    rcases hby with ⟨-, rfl⟩ | ⟨-, -, org, -, ho, -⟩
    swap
    · rw [ho, hnone] at hfo
      cases hfo
    rw [applied_none_data]
    exact .set (.inr hnone)
  | some old =>
    have hs : content s key = some old.data := by rw [content, hc, hold, map_some]
    rw [h.applied_some, if_pos ha]
    rcases hby with ⟨hpl, rfl⟩ | ⟨-, hfi, org, status, ho, hf⟩
    · refine .appendPk ha hs ?_
      by_contra hne
      rw [hpl ha ((isFiltered_iff hk).mpr hne), hs] at hfo
      cases hfo
    · obtain ⟨lists, hl, rfl⟩ := filterSignatureList_eq hsc hf
      have hd : org.data = old.data := by
        rw [ho, hs] at hfo
        exact some.inj hfo
      rw [hd]
      exact .append ha hs ((isFiltered_iff hk).mp hfi) hl

/-- The end of `ProcessVarWithPk` leaves what was written. -/
theorem Writable.content_followPk {u : EfiStatus × AuthState} {isPk del : Bool}
    (h : Writable env s key attributes) (hus : UserMode env s) (hk : key ∈ secureBootKeys)
    (hb : isTimeBasedNv attributes = true)
    (hu : updateVariableWithTimeStamp env fuel s key b.payloadMemory b.payloadSize attributes
      b.timeStamp = some u)
    (hde : del = true → u.1 = .success ∧ b.payloadSize = 0 ∧
      hasAttribute attributes efiVariableAppendWrite = false) :
    content (followPk env u.2 isPk u.1 del).2 key = content u.2 key := by
  obtain ⟨bytes, rfl, -⟩ := updateVariableWithTimeStamp_cases hu
  by_cases hd : del = true
  · -- PK was deleted: nothing of it is left in any store, and nothing of it comes back.
    obtain ⟨hsu, -, ha⟩ := hde hd
    have hnv := (Bool.and_eq_true_iff.mp hb).1
    have hst : (UpdateArgs.mk key bytes attributes (some b.timeStamp)).store = .nv :=
      UpdateArgs.store_eq_nv_iff.mpr hnv
    have hz : attributes ≠ 0#32 := by
      rintro rfl
      simp [hasAttribute] at hnv
    have hsp := updateSpec_updateVariable (show Ready env.driver s.vars
      (UpdateArgs.mk key bytes attributes (some b.timeStamp)).key
      (UpdateArgs.mk key bytes attributes (some b.timeStamp)).store from hst ▸ h.ready)
      hz (by simp)
    have hh := hsp.hobCleared hsu fun hn => by
      have : hasAttribute attributes efiVariableAppendWrite = true := hn.2
      rw [ha] at this
      cases this
    have hs : Standing key (updateVariableInfo env s
        ⟨key, bytes, attributes, some b.timeStamp⟩).2.vars := {
      hobNamed := (hobFrom_updateVariable h.ready.hobNamed).named h.ready.hobNamed
      notInHob := hh
      tracked := fun store => by
        cases store with
        | volatile =>
          exact (single_of_nil (hsp.home .volatile (by simp [hst]) (by simp))).tracked
        | hob => exact (single_of_nil hh).tracked
        | nv => exact hst ▸ (hsp.success hsu).2 }
    rw [content, hs.current_eq (hs.followPk hk), content]
  · have hm : (updateVariableInfo env s ⟨key, bytes, attributes, some b.timeStamp⟩).2.platformMode =
        .user := hus.mode
    unfold followPk
    rw [if_neg (by simp [hm] : ¬ (_ ∧ _)), if_neg (by simp [hd] : ¬ (_ ∧ _)), ite_self]

/-! ## The result -/

/-- **The keys change only with a signature.** In user mode, without custom mode and with policies
enforced, a call for PK, KEK, db, dbx or dbt that changes anything was signed: the oracle accepted
name, vendor GUID, attributes, time stamp and new content under a certificate of the kind that the
call checks. If the request is writable, the variable has its content from before or the content
that the request is for. The other ones of these variables keep their content, unless the HOB store
holds them. -/
theorem keys_signed (huser : UserMode env s)
    (hcall : KeyCall env fuel s attributes b key type (status, s')) (hchanged : s' ≠ s) :
    (∃ cert, Certificate env s cert type ∧
        env.pkcs7Verify b.sigData cert (serialized key attributes b) = true) ∧
      (Writable env s key attributes →
        content s' key = content s key ∨ Written env s key attributes b (content s' key)) ∧
      ∀ key' ∈ secureBootKeys, key' ≠ key → Standing key' s.vars →
        content s' key' = content s key' := by
  obtain hh := (hcall.handed huser).resolve_left hchanged
  obtain ⟨u, isPk, del, hu, hd, rfl⟩ := hh.update
  refine ⟨hh.signed, fun hw => ?_, fun key' hk' hne hs => ?_⟩
  · rw [hw.content_followPk huser hcall.mem hh.timeBased hu hd]
    exact hw.written hcall.mem hh.timeBased hh.scratch hu
  · obtain ⟨bytes, rfl, -⟩ := updateVariableWithTimeStamp_cases hu
    have hst : Stays key' s.vars (updateVariableInfo env s
        ⟨key, bytes, attributes, some b.timeStamp⟩).2.vars :=
      hs.update env.driver (ne_of_mem_secureBootKeys hcall.mem).1 hne
        (ne_of_mem_secureBootKeys hk').2.1
    exact congrArg (Option.map data)
      (hs.current_eq (hst.trans ((hs.stays hst).followPk hk')))

/-- `AuthVariableLibProcessVariable` treats the variables by such calls: db, dbx and dbt are tried
with KEK where the call with PK fails. -/
theorem keyCalls_of_process {o : EfiStatus × AuthState} (hke : key ∈ secureBootKeys)
    (h : authVariableLibProcessVariable env fuel s key attributes b = some o) :
    KeyCall env fuel s attributes b key .pk o ∨
      ∃ o₁, KeyCall env fuel s attributes b key .pk o₁ ∧ o₁.1 ≠ .success ∧
        KeyCall env fuel o₁.2 attributes b key .kek o := by
  have ha : ∀ k ∈ secureBootKeys, isPlatformKey k.1 k.2 = decide (k = platformKey) ∧
      (isKeyExchangeKey k.1 k.2 = true ∨ isImageDatabase k.1 k.2 = true ∨ k = platformKey) ∧
      (isImageDatabase k.1 k.2 = true → k ∈ imageDatabaseKeys) := by
    decide +kernel
  obtain ⟨hpk, hs, hdb⟩ := ha key hke
  unfold authVariableLibProcessVariable at h
  rw [hpk] at h
  by_cases hp : key = platformKey
  · exact .inl (.withPk hke (by simpa [hp] using h))
  rw [if_neg (by simpa using hp)] at h
  by_cases hk : isKeyExchangeKey key.1 key.2 = true
  · rw [if_pos hk] at h
    exact .inl (.withPk hke (by simpa [hp] using h))
  have him : isImageDatabase key.1 key.2 = true :=
    (hs.resolve_left hk).resolve_right hp
  rw [if_neg hk, if_pos him] at h
  split at h
  · cases h
  rename_i status s₁ hf
  have hc : KeyCall env fuel s attributes b key .pk (status, s₁) :=
    .withPk hke (by simpa [hp] using hf)
  split at h
  · rename_i he
    exact .inr ⟨_, hc, EfiStatus.isError_eq_true.mp he, .withKek (hdb him) h⟩
  · exact .inl (some.inj h ▸ hc)

/-- The arguments of `AuthVariableLibProcessVariable`. -/
structure KeyRequest where
  key : VarKey
  attributes : BitVec 32
  buffer : AuthBuffer

/-- A request for one of the variables is processed. -/
def KeyRequest.Processed (env : AuthEnv) (s : AuthState) (r : KeyRequest) (s' : AuthState) : Prop :=
  r.key ∈ secureBootKeys ∧ ∃ fuel status,
    authVariableLibProcessVariable env fuel s r.key r.attributes r.buffer = some (status, s')

/-- A certificate of PK or KEK accepts what the request is for. -/
def KeyRequest.Signed (env : AuthEnv) (s : AuthState) (r : KeyRequest) : Prop :=
  ∃ type cert, Certificate env s cert type ∧
    env.pkcs7Verify r.buffer.sigData cert (serialized r.key r.attributes r.buffer) = true

theorem KeyRequest.Processed.signed {r : KeyRequest} (huser : UserMode env s)
    (h : r.Processed env s s') : s' = s ∨ r.Signed env s := by
  obtain ⟨hk, fuel, status, ho⟩ := h
  rcases keyCalls_of_process hk ho with hc | ⟨⟨status₁, s₁⟩, hc₁, -, hc⟩
  · exact (hc.handed huser).imp_right fun hh => ⟨_, hh.signed⟩
  -- the call with KEK starts where the failed call with PK has left the state
  · rcases hc₁.handed huser with rfl | hh
    · exact (hc.handed huser).imp_right fun hh => ⟨_, hh.signed⟩
    · exact .inr ⟨_, hh.signed⟩

/-- **The first change is signed under the keys before it.** In every run of requests for PK, KEK,
db, dbx and dbt from user mode: if anything has changed at its end, one of the requests was signed
under a certificate that PK or KEK held at its start. -/
theorem first_change_signed {rs : List KeyRequest} (huser : UserMode env s)
    (hr : Run (fun s r s' => KeyRequest.Processed env s r s') s rs s') (hchanged : s' ≠ s) :
    ∃ r ∈ rs, r.Signed env s := by
  induction hr with
  | nil => exact absurd rfl hchanged
  | cons h₁ _ ih =>
    rcases h₁.signed huser with rfl | hs
    · obtain ⟨r, hr, hs⟩ := ih huser hchanged
      exact ⟨r, List.mem_cons_of_mem _ hr, hs⟩
    · exact ⟨_, List.mem_cons_self, hs⟩

/-! ### Calls that are signed -/

/-- User mode, with PK and without KEK. -/
def ownerState : AuthState :=
  sampleState .user [⟨varAdded, sampleAttributes, .zero, platformKey, samplePk⟩]

def databaseKey : VarKey := (efiImageSecurityDatabase, gEfiImageSecurityDatabaseGuid)

def afterPk (s : AuthState) (key : VarKey) (attributes : BitVec 32) (payload : List UInt8) :
    AuthState :=
  ((processVarWithPk (sampleEnv false) 3 s key attributes (sampleBuffer 0 payload)
    (key = platformKey)).map Prod.snd).getD s

theorem userMode_ownerState : UserMode (sampleEnv false) ownerState where
  mode := rfl
  custom := by decide +kernel
  policy := rfl

/-- PK signs a first db. -/
theorem keyCall_database :
    KeyCall (sampleEnv false) 3 ownerState sampleAttributes (sampleBuffer 0 samplePk) databaseKey .pk
      (.success, afterPk ownerState databaseKey sampleAttributes samplePk) :=
  .withPk (by decide +kernel) (by decide +kernel)

theorem keys_signed_database :
    (∃ cert, Certificate (sampleEnv false) ownerState cert .pk ∧ (sampleEnv false).pkcs7Verify
        (sampleBuffer 0 samplePk).sigData cert
        (serialized databaseKey sampleAttributes (sampleBuffer 0 samplePk)) = true) ∧
      Written (sampleEnv false) ownerState databaseKey sampleAttributes (sampleBuffer 0 samplePk)
        (content (afterPk ownerState databaseKey sampleAttributes samplePk) databaseKey) ∧
      content (afterPk ownerState databaseKey sampleAttributes samplePk) platformKey =
        content ownerState platformKey := by
  have hc : content (afterPk ownerState databaseKey sampleAttributes samplePk) databaseKey ≠
      content ownerState databaseKey := by decide +kernel
  have hsi := keys_signed userMode_ownerState keyCall_database
    fun heq => hc (by rw [heq])
  have hw : Writable (sampleEnv false) ownerState databaseKey sampleAttributes := {
    ready := ready_of_absent (by decide) (by decide +kernel) (fun _ hr => absurd hr List.not_mem_nil)
      (by intro store; cases store <;> decide +kernel)
    access := by decide +kernel
    hobAppend := fun _ => rfl }
  have hs : Standing platformKey ownerState.vars := {
    hobNamed := fun _ hr => absurd hr List.not_mem_nil
    notInHob := rfl
    tracked := fun store => Single.tracked (by
      cases store
      · exact show (liveOf platformKey (ownerState.vars.records .volatile)).length ≤ 1 by decide +kernel
      · exact show (liveOf platformKey (ownerState.vars.records .hob)).length ≤ 1 by decide +kernel
      · exact show (liveOf platformKey (ownerState.vars.records .nv)).length ≤ 1 by decide +kernel) }
  exact ⟨hsi.1, (hsi.2.1 hw).resolve_left hc,
    hsi.2.2 platformKey (by decide +kernel) (by decide +kernel) hs⟩

theorem first_change_signed_database :
    ∃ r ∈ [⟨databaseKey, sampleAttributes, sampleBuffer 0 samplePk⟩],
      KeyRequest.Signed (sampleEnv false) ownerState r := by
  have hc : afterPk ownerState databaseKey sampleAttributes samplePk ≠ ownerState := by
    intro he
    exact absurd (congrArg (content · databaseKey) he) (by decide +kernel)
  refine first_change_signed userMode_ownerState (.cons ⟨?_, 3, .success, ?_⟩ (.nil _)) hc
  · decide +kernel
  · decide +kernel

/-- `NV | BS | RT | AT | APPEND`. -/
def appendAttributes : BitVec 32 := sampleAttributes ||| efiVariableAppendWrite

theorem keyCall_appendPk :
    KeyCall (sampleEnv false) 3 ownerState appendAttributes (sampleBuffer 0 samplePk) platformKey .pk
      (.success, afterPk ownerState platformKey appendAttributes samplePk) :=
  .withPk (by decide +kernel) (by decide +kernel)

theorem withoutPresent_samplePk :
    withoutPresent (dataMemory (fun _ => 0) samplePk) samplePk.length
      (sampleBuffer 0 samplePk).payloadMemory [0] = [] := by
  obtain ⟨signature, hs, hp⟩ : ∃ signature,
      signaturesOf (sampleBuffer 0 samplePk).payloadMemory 0 = [signature] ∧
        Present (dataMemory (fun _ => 0) samplePk) samplePk.length
          (signatureType (sampleBuffer 0 samplePk).payloadMemory 0) signature := by
    refine ⟨List.replicate 16 0 ++ [7], ?_, 0, .here ⟨?_, ?_⟩, ?_, ?_, ?_⟩
    · decide +kernel
    · decide +kernel
    · decide +kernel
    · decide +kernel
    · decide +kernel
    · decide +kernel
  simp [withoutPresent, hs, hp, keptList]

/-- **db need not be signed under KEK, and an append to PK is not filtered**: the owner of PK sets
db while there is no KEK, and appends to PK the signature that it holds. -/
theorem not_keys_signed :
    (¬ ∀ (env : AuthEnv) (fuel : ℕ) (s s' : AuthState) (attributes : BitVec 32) (b : AuthBuffer)
        (key : VarKey) (type : AuthVarType) (status : EfiStatus), UserMode env s →
        KeyCall env fuel s attributes b key type (status, s') → key ∈ imageDatabaseKeys →
        content s' key ≠ content s key → ∃ cert, Certificate env s cert .kek ∧
          env.pkcs7Verify b.sigData cert (serialized key attributes b) = true) ∧
      ¬ ∀ (env : AuthEnv) (fuel : ℕ) (s s' : AuthState) (attributes : BitVec 32) (b : AuthBuffer)
        (key : VarKey) (type : AuthVarType) (old : List UInt8) (lists : List ℕ), UserMode env s →
        KeyCall env fuel s attributes b key type (.success, s') →
        hasAttribute attributes efiVariableAppendWrite = true → content s key = some old →
        Lists b.payloadMemory b.payloadSize 0 lists →
        content s' key = some (old ++
          withoutPresent (dataMemory env.beyond old) old.length b.payloadMemory lists) := by
  constructor
  · intro ha
    obtain ⟨cert, ⟨kek, hk, -⟩, -⟩ := ha _ _ _ _ _ _ _ _ _ userMode_ownerState keyCall_database
      (by decide +kernel) (by decide +kernel)
    have hnone : findVariableInfo (sampleEnv false) ownerState keyExchangeKey = none := by
      decide +kernel
    cases hk
  · intro ha
    have hl : Lists (sampleBuffer 0 samplePk).payloadMemory
        (sampleBuffer 0 samplePk).payloadSize 0 [0] := by
      refine .next ⟨?_, ?_⟩ (.done fun hw => absurd hw.1 ?_)
      · decide +kernel
      · decide +kernel
      · decide +kernel
    have hc := ha _ _ _ _ _ _ _ _ samplePk [0] userMode_ownerState keyCall_appendPk
      (by decide +kernel) (by decide +kernel) hl
    have ht : content (afterPk ownerState platformKey appendAttributes samplePk) platformKey =
        some (samplePk ++ samplePk) := by decide +kernel
    rw [show (sampleEnv false).beyond = fun _ => 0 from rfl, withoutPresent_samplePk] at hc
    exact absurd hc (by decide +kernel)

end Edk2.Auth
