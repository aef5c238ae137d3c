import Edk2.Auth.Service

/-!
# What an accepted request has passed

`VerifyTimeBasedPayload` in reverse: the checks that lie behind a success, and the state it leaves.

## Main results

* `accepted_of_verify`: an accepted request has passed all checks
* `verifyTimeBasedPayload_cases`: the check changes nothing but the stored certificates
* `verifyAndUpdate_cases`: a request is refused, or accepted and handed to the variable driver
-/

namespace Edk2.Auth

open Var Option Bool

variable {env : AuthEnv} {fuel : ℕ} {s s' : AuthState} {key : VarKey} {attributes : BitVec 32}
  {b : AuthBuffer} {type : AuthVarType} {org : Option EfiTime} {status : EfiStatus}

theorem AuthBuffer.payload_eq_nil_iff : b.payload = [] ↔ b.payloadSize = 0 := by
  rw [AuthBuffer.payload, ← List.length_eq_zero_iff, length_bytesAt]

/-- Everything an accepted request has passed. -/
structure Accepted (env : AuthEnv) (fuel : ℕ) (s : AuthState) (key : VarKey)
    (attributes : BitVec 32) (b : AuthBuffer) (type : AuthVarType) (org : Option EfiTime)
    (s' : AuthState) : Prop where
  later : hasAttribute attributes efiVariableAppendWrite = false → ∀ t ∈ org,
    compareTimeStamp b.timeStamp t = false
  format : checkFormat env fuel key b.payloadMemory b.payloadSize = some .success
  verified : (b.payloadSize = 0 ∧ hasAttribute attributes efiVariableAppendWrite = false ∧
      env.variablePolicyEnabled = false ∧ s' = s) ∨
    (serialized key attributes b).length ≤ env.scratchBufferSize ∧
      verifySignature env fuel s key attributes b type org.isSome = some (.inr true, s')

/-- **An accepted request has passed all checks.** -/
theorem accepted_of_verify
    (h : verifyTimeBasedPayload env fuel s key attributes b type org = some (.success, s')) :
    Accepted env fuel s key attributes b type org s' := by
  unfold verifyTimeBasedPayload at h
  dsimp only at h
  split_ifs at h with h₁ h₂ h₃ h₄ h₅ h₆
  · cases h
  · cases h
  · cases h
  · cases h
  all_goals
    have hl : hasAttribute attributes efiVariableAppendWrite = false → ∀ t ∈ org,
        compareTimeStamp b.timeStamp t = false := by
      intro ha t ht
      obtain rfl : org = some t := ht
      simpa [ha] using h₂
  · obtain ⟨status, hf, heq⟩ := map_eq_some_iff.mp h
    obtain ⟨rfl, rfl⟩ := Prod.mk.inj heq
    exact ⟨hl, hf, .inl ⟨h₅.1, h₅.2.1, h₅.2.2, rfl⟩⟩
  · cases h
  · split at h
    · cases h
    · rename_i status s₁ hv
      obtain ⟨rfl, -⟩ := Prod.mk.inj (some.inj h)
      -- the signature check ends early only where there is no KEK
      unfold verifySignature at hv
      split at hv
      · simp at hv
      · split at hv <;> simp at hv
      · simp at hv
      · simp at hv
    · cases h
    · rename_i s₁ hv
      obtain ⟨status, hf, heq⟩ := map_eq_some_iff.mp h
      obtain ⟨rfl, rfl⟩ := Prod.mk.inj heq
      exact ⟨hl, hf, .inr ⟨Nat.le_of_not_lt h₆, hv⟩⟩

/-- The state with other certificates stored. -/
def CertsStored (env : AuthEnv) (attributes : BitVec 32) (s s' : AuthState) : Prop :=
  ∃ data, s' = (updateVariableInfo env s
    ⟨(certDbOf attributes).1, data, (certDbOf attributes).2, none⟩).2

theorem state_eq {α β : Type} {a b : α} {s s' : β} (h : some (a, s) = some (b, s')) : s' = s :=
  (Prod.mk.inj (some.inj h)).2.symm

theorem insertCertsToDb_state {signer topLevel : List UInt8}
    (h : insertCertsToDb env fuel s key attributes signer topLevel = some (status, s')) :
    s' = s ∨ CertsStored env attributes s s' := by
  unfold insertCertsToDb at h
  split at h
  · exact .inl (state_eq h)
  dsimp only at h
  split at h
  · exact .inl (state_eq h)
  obtain ⟨found, -, heq⟩ := map_eq_some_iff.mp h
  split at heq
  · exact .inl (Prod.mk.inj heq).2.symm
  split at heq
  · exact .inl (Prod.mk.inj heq).2.symm
  split at heq
  · exact .inl (Prod.mk.inj heq).2.symm
  · exact .inr ⟨_, (congrArg Prod.snd heq).symm⟩

theorem verifyPriv_state {newData : List UInt8} {found verified : Bool}
    (h : verifyPriv env fuel s key attributes newData b found = some (verified, s')) :
    s' = s ∨ found = false ∧ CertsStored env attributes s s' := by
  unfold verifyPriv at h
  split at h
  · exact .inl (state_eq h)
  obtain ⟨matching, -, h⟩ := bind_eq_some_iff.mp h
  split at h
  · exact .inl (state_eq h)
  split at h
  · exact .inl (state_eq h)
  split at h
  · rename_i hnew
    obtain ⟨⟨st, s₁⟩, hin, heq⟩ := map_eq_some_iff.mp h
    obtain rfl : s₁ = s' := (Prod.mk.inj heq).2
    refine (insertCertsToDb_state hin).imp_right fun hs => ⟨?_, hs⟩
    simpa using (and_eq_true_iff.mp hnew).1
  · exact .inl (state_eq h)

/-- **The check of a request changes nothing**, unless it stores the certificates of a new variable.
-/
theorem verifyTimeBasedPayload_cases
    (h : verifyTimeBasedPayload env fuel s key attributes b type org = some (status, s')) :
    s' = s ∨ type = .priv ∧ org = none ∧ CertsStored env attributes s s' := by
  have hve : ∀ {r s₁}, verifySignature env fuel s key attributes b type org.isSome =
      some (r, s₁) → s₁ = s ∨ type = .priv ∧ org = none ∧ CertsStored env attributes s s₁ := by
    intro r s₁ hv
    cases type with
    | pk => exact .inl (state_eq hv)
    | kek =>
      simp only [verifySignature] at hv
      split at hv
      · exact .inl (state_eq hv)
      · obtain ⟨verified, -, heq⟩ := map_eq_some_iff.mp hv
        exact .inl (Prod.mk.inj heq).2.symm
    | priv =>
      obtain ⟨⟨verified, s₂⟩, hp, heq⟩ := map_eq_some_iff.mp hv
      obtain rfl : s₂ = s₁ := (Prod.mk.inj heq).2
      refine (verifyPriv_state hp).imp_right fun hs => ⟨rfl, ?_, hs.2⟩
      simpa using hs.1
    | payload => exact .inl (state_eq hv)
  unfold verifyTimeBasedPayload at h
  dsimp only at h
  split_ifs at h
  · exact .inl (state_eq h)
  · exact .inl (state_eq h)
  · exact .inl (state_eq h)
  · exact .inl (state_eq h)
  · obtain ⟨_, -, heq⟩ := map_eq_some_iff.mp h
    exact .inl (Prod.mk.inj heq).2.symm
  · exact .inl (state_eq h)
  · split at h
    · cases h
    · rename_i hv
      rw [← (Prod.mk.inj (some.inj h)).2]
      exact hve hv
    · rename_i hv
      rw [← (Prod.mk.inj (some.inj h)).2]
      exact hve hv
    · rename_i hv
      obtain ⟨_, -, heq⟩ := map_eq_some_iff.mp h
      rw [← (Prod.mk.inj heq).2]
      exact hve hv

theorem verifyTimeBasedPayload_state (ht : type ≠ .priv)
    (h : verifyTimeBasedPayload env fuel s key attributes b type org = some (status, s')) :
    s' = s :=
  (verifyTimeBasedPayload_cases h).resolve_right fun hp => ht hp.1

/-- The time stamp `VerifyTimeBasedPayloadAndUpdate` compares with. -/
def orgTimeStamp (env : AuthEnv) (s : AuthState) (key : VarKey) : Option EfiTime :=
  if env.driver.authFormat then (findVariableInfo env s key).map VarRecord.timeStamp else none

/-- **How a request goes**: it is refused, or accepted and then handed to the variable driver; a
deletion may also delete the stored certificates. -/
theorem verifyAndUpdate_cases {o : EfiStatus × Bool × AuthState}
    (h : verifyTimeBasedPayloadAndUpdate env fuel s key attributes b type = some o) :
    (∃ status s₁, verifyTimeBasedPayload env fuel s key attributes b type
          (orgTimeStamp env s key) = some (status, s₁) ∧
        status ≠ .success ∧ o = (status, false, s₁)) ∨
      ∃ s₁ u, verifyTimeBasedPayload env fuel s key attributes b type
          (orgTimeStamp env s key) = some (.success, s₁) ∧
        updateVariableWithTimeStamp env fuel s₁ key b.payloadMemory b.payloadSize attributes
          b.timeStamp = some u ∧
        (o = (u.1, (findVariableInfo env s key).isSome && b.payloadSize == 0 &&
            !hasAttribute attributes efiVariableAppendWrite && !u.1.isError, u.2) ∨
          type = .priv ∧ b.payloadSize = 0 ∧
            hasAttribute attributes efiVariableAppendWrite = false) := by
  unfold verifyTimeBasedPayloadAndUpdate at h
  dsimp only at h
  split at h
  · cases h
  rename_i status s₁ hv
  split at h
  · rename_i he
    exact .inl ⟨status, s₁, hv, EfiStatus.isError_eq_true.mp he, (some.inj h).symm⟩
  rename_i hok
  rw [not_eq_true, EfiStatus.isError_eq_false] at hok
  subst hok
  split at h
  · cases h
  rename_i status s₂ hu
  refine .inr ⟨s₁, _, hv, hu, ?_⟩
  split at h
  · rename_i hd
    simp only [and_eq_true, beq_iff_eq] at hd
    exact .inr ⟨hd.1.2, hd.1.1.1.2, by simpa using hd.1.1.2⟩
  · exact .inl (some.inj h).symm

theorem updateVariableWithTimeStamp_cases {data : Memory} {dataSize : ℕ} {timeStamp : EfiTime}
    {u : EfiStatus × AuthState}
    (h : updateVariableWithTimeStamp env fuel s key data dataSize attributes timeStamp = some u) :
    ∃ bytes, u = updateVariableInfo env s ⟨key, bytes, attributes, some timeStamp⟩ ∧
      ((hasAttribute attributes efiVariableAppendWrite = true → isFiltered key = true →
            findVariableInfo env s key = none) ∧ bytes = bytesAt data 0 dataSize ∨
        hasAttribute attributes efiVariableAppendWrite = true ∧ isFiltered key = true ∧
          ∃ org status, findVariableInfo env s key = some org ∧
            filterSignatureList env.scratchBufferSize fuel (dataMemory env.beyond org.data)
              org.data.length data dataSize = some (status, bytes)) := by
  unfold updateVariableWithTimeStamp at h
  split at h
  · rename_i org ho
    split at h
    · rename_i hf
      obtain ⟨⟨status, bytes⟩, hfi, rfl⟩ := map_eq_some_iff.mp h
      rw [and_eq_true] at hf
      exact ⟨bytes, rfl, .inr ⟨hf.1, hf.2, org, status, ho, hfi⟩⟩
    · rename_i hp
      refine ⟨_, (some.inj h).symm, .inl ⟨fun ha hfi => ?_, rfl⟩⟩
      exact absurd (by rw [ha, hfi]; rfl) hp
  · rename_i hnone
    exact ⟨_, (some.inj h).symm, .inl ⟨fun _ _ => hnone, rfl⟩⟩

end Edk2.Auth
