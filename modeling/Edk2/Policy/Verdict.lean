import Mathlib.Order.WithBot
import Edk2.Policy.Table

/-!
# The best match and the verdict

A more specific policy has fewer wildcards, and a policy of a whole namespace is the least specific
of all. The search returns the most specific match, the first registered of those, as long as no
match has as many wildcards as the priority of a namespace, 255. The verdict on a `SetVariable`
call reads nothing of the table but that entry.

## Main results

* `verdict_of_best`: the best match and the verdict, in every run of registrations
* `not_best_match`: the lock on creation reads the variable itself, and 255 wildcards tie with a
  namespace
-/

namespace Edk2.Policy

open List Option History Target

variable {e e' : EntryPtr} {name : ℕ → ℕ} {guid : EfiGuid} {entries : List EntryPtr}

/-! ## Specificity -/

/-- The number of wildcards; a whole namespace has more than any pattern. -/
def Target.wildcards (target : Target) : WithTop ℕ :=
  match target.pattern with
  | none => ⊤
  | some pattern => (pattern.count wildcard : ℕ)

def Target.Matches (target : Target) (name : ℕ → ℕ) (guid : EfiGuid) : Prop :=
  target.namespaceGuid = guid ∧
    ∀ pattern, target.pattern = some pattern → patternMatches pattern name = true

theorem Target.matchOf_eq_none {target : Target} :
    target.matchOf name guid = none ↔ ¬ target.Matches name guid := by
  unfold matchOf Target.Matches
  by_cases hg : target.namespaceGuid = guid
  · cases target.pattern with
    | none => simp [hg]
    | some pattern => simp [hg]
  · simp [hg]

theorem Target.matchOf_eq_some {target : Target} {p : ℕ}
    (h : target.matchOf name guid = some p) :
    target.Matches name guid ∧ (target.wildcards = p ∨
      (target.wildcards = ⊤ ∧ p = matchPriorityMin)) := by
  have hm : target.Matches name guid := by
    by_contra hn
    rw [matchOf_eq_none.mpr hn] at h
    cases h
  refine ⟨hm, ?_⟩
  rw [matchOf, if_neg (not_not.mpr hm.1)] at h
  unfold wildcards
  cases hp : target.pattern with
  | none =>
    rw [hp] at h
    exact .inr ⟨rfl, (some.inj h).symm⟩
  | some pattern =>
    rw [hp] at h
    dsimp only at h
    rw [if_pos (hm.2 pattern hp)] at h
    exact .inl (congrArg _ (some.inj h))

theorem Terminated.wildcards_le (h : Terminated e) {p : Char16String} (hp : e.pattern = some p) :
    p.count wildcard ≤ matchPriorityMin := by
  have hne : e.size ≠ e.offsetToName := by
    intro heq
    rw [EntryPtr.pattern, if_pos heq] at hp
    cases hp
  obtain ⟨k, hk, -, -, hw⟩ := h.name hne
  rw [EntryPtr.pattern_eq hk] at hp
  exact some.inj hp ▸ hw

/-- The wildcards of a match, from its priority: a priority of 255 is a namespace or a pattern with
255 wildcards. -/
theorem Terminated.match_cases (h : Terminated e) {p : ℕ}
    (hp : e.target.matchOf name guid = some p) :
    (e.target.wildcards = p ∧ p ≤ matchPriorityMin) ∨
      (e.target.wildcards = ⊤ ∧ p = matchPriorityMin) := by
  rcases (matchOf_eq_some hp).2 with hwild | hwild
  · refine .inl ⟨hwild, ?_⟩
    unfold wildcards at hwild
    cases hpa : e.target.pattern with
    | none =>
      rw [hpa] at hwild
      cases hwild
    | some pattern =>
      rw [hpa] at hwild
      have hcnt : pattern.count wildcard = p := WithTop.coe_injective hwild
      exact hcnt ▸ h.wildcards_le hpa
  · exact .inr hwild

theorem wildcards_lt (h : Terminated e) (h' : Terminated e') {p p' : ℕ}
    (hp : e.target.matchOf name guid = some p) (hp' : e'.target.matchOf name guid = some p')
    (hlt : p < p') : e.target.wildcards < e'.target.wildcards := by
  rcases h.match_cases hp with ⟨hw, -⟩ | ⟨-, rfl⟩
  · rcases h'.match_cases hp' with ⟨hw', -⟩ | ⟨hw', -⟩
    · rw [hw, hw']
      exact WithTop.coe_lt_coe.mpr hlt
    · rw [hw, hw']
      exact WithTop.coe_lt_top p
  · rcases h'.match_cases hp' with ⟨-, hle⟩ | ⟨-, rfl⟩
    · exact absurd hlt (not_lt.mpr hle)
    · exact absurd hlt (lt_irrefl _)

theorem wildcards_le (h : Terminated e) (h' : Terminated e') {p p' : ℕ}
    (hp : e.target.matchOf name guid = some p) (hp' : e'.target.matchOf name guid = some p')
    (hne : e'.target.wildcards ≠ 255) (hle : p ≤ p') :
    e.target.wildcards ≤ e'.target.wildcards := by
  rcases h'.match_cases hp' with ⟨hw', hmax⟩ | ⟨hw', -⟩
  · rcases h.match_cases hp with ⟨hw, -⟩ | ⟨-, rfl⟩
    · rw [hw, hw']
      exact WithTop.coe_le_coe.mpr hle
    · refine absurd ?_ hne
      rw [hw', le_antisymm hmax hle]
      rfl
  · rw [hw']
    exact le_top

/-! ## The first of the best -/

section Best

variable {cur : ℕ} {b b' : BestMatch} {pre pre' post post' : List EntryPtr}

variable (h : Best entries name guid cur b pre e post)
include h

theorem Best.not_before {between : List EntryPtr}
    (h' : Best entries name guid cur b' (pre ++ e :: between) e' post') : False := by
  have hlt : b'.matchPriority < b.matchPriority :=
    h'.before e (mem_append_right _ mem_cons_self) _ h.matches_self
  have hp : post = between ++ e' :: post' := by
    have := h.split.symm.trans h'.split
    rw [append_assoc] at this
    exact tail_eq_of_cons_eq (append_cancel_left this)
  have hle : b.matchPriority ≤ b'.matchPriority :=
    h.after e' (hp ▸ mem_append_right _ mem_cons_self) _ h'.matches_self
  omega

theorem Best.eq_of_pre (h' : Best entries name guid cur b' pre e' post') : e = e' ∧ b = b' := by
  obtain ⟨rfl, -⟩ := cons_eq_cons.mp
    (append_cancel_left (h.split.symm.trans h'.split))
  obtain ⟨entry, priority⟩ := b
  obtain ⟨entry', priority'⟩ := b'
  obtain rfl : entry = entry' := h.offset.trans h'.offset.symm
  obtain rfl : priority = priority' := some.inj (h.matches_self.symm.trans h'.matches_self)
  exact ⟨rfl, rfl⟩

/-- **There is one first of the best.** -/
theorem Best.unique (h' : Best entries name guid cur b' pre' e' post') : e = e' ∧ b = b' := by
  have hs := h.split.symm.trans h'.split
  rcases append_eq_append_iff.mp hs with ⟨between, hp, hr⟩ | ⟨between, hp, hr⟩
  · cases between with
    | nil =>
      rw [append_nil] at hp
      exact h.eq_of_pre (hp ▸ h')
    | cons e₁ between =>
      obtain ⟨rfl, -⟩ := cons_eq_cons.mp hr
      exact (h.not_before (hp ▸ h')).elim
  · cases between with
    | nil =>
      rw [append_nil] at hp
      exact (hp ▸ h).eq_of_pre h'
    | cons e₁ between =>
      obtain ⟨rfl, -⟩ := cons_eq_cons.mp hr
      exact (h'.not_before (hp ▸ h)).elim

theorem Best.append {added : EntryPtr}
    (ha : ∀ p, added.target.matchOf name guid = some p → b.matchPriority ≤ p) :
    Best (entries ++ [added]) name guid cur b pre e (post ++ [added]) := by
  refine ⟨?_, h.offset, h.matches_self, h.before, ?_⟩
  · rw [h.split, append_assoc, cons_append]
  · intro e' he'
    rcases mem_append.mp he' with he' | he'
    · exact h.after e' he'
    · exact mem_singleton.mp he' ▸ ha

end Best

/-! ## The verdict reads the entry -/

section Verdict

variable {getVariable getVariable' : GetVariableHelper} {args : SetVariableArgs}

/-- What the lock of an entry asks `GetVariable` for: the variable itself when it locks on creation,
the state variable when it locks on that. -/
def lockQuery (e : EntryPtr) (args : SetVariableArgs) : Option (Char16String × EfiGuid × ℕ) :=
  if e.lockPolicyType = variablePolicyTypeLockOnCreate then
    some (args.variableName, args.vendorGuid, 0)
  else if e.lockPolicyType = variablePolicyTypeLockOnVarState then
    some (e.stateVarString, e.stateNamespace, 1)
  else none

/-- Two helpers give the same answer to what the lock asks for. -/
def AgreeOn (getVariable getVariable' : GetVariableHelper)
    (query : Option (Char16String × EfiGuid × ℕ)) : Prop :=
  ∀ q ∈ query, getVariable q.1 q.2.1 q.2.2 = getVariable' q.1 q.2.1 q.2.2

theorem lockVerdict_congr (h : AgreeOn getVariable getVariable' (lockQuery e args)) :
    lockVerdict getVariable e args = lockVerdict getVariable' e args := by
  unfold lockVerdict
  by_cases hc : e.lockPolicyType = variablePolicyTypeLockOnCreate
  · rw [lockQuery, if_pos hc] at h
    rw [if_pos hc, if_pos hc, h _ rfl]
  · rw [lockQuery, if_neg hc] at h
    rw [if_neg hc, if_neg hc]
    by_cases hs : e.lockPolicyType = variablePolicyTypeLockOnVarState
    · rw [if_pos hs] at h
      rw [if_pos hs, if_pos hs, h _ rfl]
    · rw [if_neg hs, if_neg hs]

theorem readString_congr {f g : ℕ → ℕ} {k fuel i : ℕ} (he : f k = 0)
    (hs : ∀ j ≤ k, f j = g j) (hi : i ≤ k) :
    readString f fuel i = readString g fuel i := by
  induction fuel generalizing i with
  | zero => rfl
  | succ fuel ih =>
    rw [readString, readString, ← hs i hi]
    by_cases hz : f i = 0
    · rw [if_pos hz, if_pos hz]
    · have hlt : i < k := lt_of_le_of_ne hi fun heq => hz (heq ▸ he)
      rw [if_neg hz, if_neg hz, ih hlt]

theorem Terminated.lock_eq (h : Terminated e) (hb : e.bytes = e'.bytes)
    (hs : e.lockPolicyType = variablePolicyTypeLockOnVarState) :
    e.stateVarString = e'.stateVarString ∧ e.stateNamespace = e'.stateNamespace ∧
      e.stateValue = e'.stateValue := by
  obtain ⟨k, hk, hz, -⟩ := h.stateName hs
  have hle := h.offset_le
  refine ⟨?_, EntryPtr.bytesAt_eq hb (by omega), EntryPtr.le_eq hb (by omega)⟩
  rw [EntryPtr.stateVarString, EntryPtr.size_eq hb]
  refine readString_congr hz (fun j hj => ?_) (Nat.zero_le k)
  have := EntryPtr.char16_eq hb (i := 62 + 2 * j) (by omega)
  rwa [← Nat.add_assoc, ← Nat.add_assoc] at this

/-- **The verdict of a policy is in the bytes of its entry.** -/
theorem Terminated.policyVerdict_eq (h : Terminated e) (hb : e.bytes = e'.bytes) :
    policyVerdict getVariable e args = policyVerdict getVariable e' args := by
  have hge := h.size_ge
  unfold policyEntrySize at hge
  have hmi : e.minSize = e'.minSize := EntryPtr.le_eq hb (by omega)
  have hmax : e.maxSize = e'.maxSize := EntryPtr.le_eq hb (by omega)
  have hm : e.attributesMustHave = e'.attributesMustHave :=
    congrArg (BitVec.ofNat 32) (EntryPtr.le_eq hb (by omega))
  have hca : e.attributesCantHave = e'.attributesCantHave :=
    congrArg (BitVec.ofNat 32) (EntryPtr.le_eq hb (by omega))
  have hc : constraintsHold e args = constraintsHold e' args := by
    rw [constraintsHold, constraintsHold, hmi, hmax, hm, hca]
  have hl : lockVerdict getVariable e args = lockVerdict getVariable e' args := by
    have ht := h.lockPolicyType_eq hb
    unfold lockVerdict
    rw [← ht]
    by_cases hs : e.lockPolicyType = variablePolicyTypeLockOnVarState
    · obtain ⟨hna, hn, hv⟩ := h.lock_eq hb hs
      rw [hna, hn, hv]
    · rw [if_neg hs, if_neg hs]
  rw [policyVerdict, policyVerdict, hc, hl]

end Verdict

/-! ## The verdict in a run -/

section Run

variable {s : PolicyState} {args : SetVariableArgs} {getVariable : GetVariableHelper}
  {b : BestMatch} {pre post : List EntryPtr} {h : History}

theorem bytes_of_concatenation {table : Memory} {cur : ℕ}
    (ht : ∀ e' ∈ pre ++ e :: post, Terminated e')
    (hb : bytesAt table cur (extent (pre ++ e :: post)) = concatenation (pre ++ e :: post)) :
    EntryPtr.bytes ⟨table, cur + extent pre⟩ = e.bytes := by
  induction pre generalizing cur with
  | nil =>
    exact (bytesAt_concatenation_cons (ht e (mem_append_right _ mem_cons_self))
      hb).1
  | cons first pre ih =>
    obtain ⟨hf, hr⟩ := forall_mem_cons.mp ht
    rw [extent_cons, ← add_assoc]
    exact ih hr (bytesAt_concatenation_cons hf hb).2

theorem TableOf.best_bytes (ht : TableOf s entries)
    (hb : Best entries name guid 0 b pre e post) :
    EntryPtr.bytes ⟨s.policyTable, b.entry⟩ = e.bytes := by
  obtain rfl := hb.split
  rw [hb.offset]
  exact bytes_of_concatenation ht.terminated ht.bytes_extent

theorem Best.mem (hb : Best entries name guid 0 b pre e post) : e ∈ entries :=
  hb.split ▸ mem_append_right _ mem_cons_self

theorem TableOf.getBestPolicyMatch_eq (ht : TableOf s entries)
    (hb : Best entries name guid 0 b pre e post) : getBestPolicyMatch s name guid = some b := by
  cases hs : getBestPolicyMatch s name guid with
  | none =>
    have := ht.getBestPolicyMatch_eq_none.mp hs e hb.mem
    rw [hb.matches_self] at this
    cases this
  | some b' =>
    obtain ⟨pre', e', post', hb'⟩ := ht.getBestPolicyMatch_best hs
    rw [(hb.unique hb').2]

/-- **The verdict is that of the best match.** -/
theorem History.Tabled.verdict_eq (ht : h.Tabled)
    (hb : Best h.accepted (charAt args.variableName) args.vendorGuid 0 b pre e post) :
    validateSetVariable h.state getVariable args = policyVerdict getVariable e args := by
  have hby := ht.table.best_bytes hb
  rw [validateSetVariable, ht.initialized, ht.enabled,
    ht.table.getBestPolicyMatch_eq hb]
  exact ((ht.table.terminated e hb.mem).policyVerdict_eq hby.symm).symm

theorem History.Tabled.verdict_eq_success (ht : h.Tabled)
    (hnone : ∀ e ∈ h.accepted,
      e.target.matchOf (charAt args.variableName) args.vendorGuid = none) :
    validateSetVariable h.state getVariable args = .success := by
  rw [validateSetVariable, ht.initialized, ht.enabled,
    ht.table.getBestPolicyMatch_eq_none.mpr hnone]
  rfl

/-- The candidate does not match the variable, or an accepted entry matches it at least as
specifically. -/
def NoBetter (h : History) (call : RegisterCall) (args : SetVariableArgs) : Prop :=
  ¬ call.newPolicy.target.Matches (charAt args.variableName) args.vendorGuid ∨
    ∃ e ∈ h.accepted, e.target.Matches (charAt args.variableName) args.vendorGuid ∧
      e.target.wildcards ≤ call.newPolicy.target.wildcards

/-- **A further policy that matches no better never changes the verdict.** -/
theorem History.Tabled.verdict_register (ht : h.Tabled) {call : RegisterCall}
    (hc : NoBetter h call args) :
    validateSetVariable (h.register call).state getVariable args =
      validateSetVariable h.state getVariable args := by
  rcases h.register_cases call with heq | ⟨ha, -, hv, hnext⟩
  · rw [heq]
  have ht' := hnext ht
  cases hs : getBestPolicyMatch h.state (charAt args.variableName) args.vendorGuid with
  | none =>
    have hnone := ht.table.getBestPolicyMatch_eq_none.mp hs
    rw [ht.verdict_eq_success hnone]
    refine ht'.verdict_eq_success fun e he => ?_
    rw [ha] at he
    rcases mem_append.mp he with he | he
    · exact hnone e he
    · obtain rfl := mem_singleton.mp he
      rcases hc with hn | ⟨e', he', hm, -⟩
      · exact matchOf_eq_none.mpr hn
      · exact absurd hm (matchOf_eq_none.mp (hnone e' he'))
  | some b =>
    obtain ⟨pre, e, post, hb⟩ := ht.table.getBestPolicyMatch_best hs
    have hb' : Best (h.register call).accepted (charAt args.variableName) args.vendorGuid 0 b pre e
        (post ++ [call.newPolicy]) := by
      rw [ha]
      refine hb.append fun p hp => ?_
      rcases hc with hn | ⟨e', he', hm, hle⟩
      · exact absurd (matchOf_eq_some hp).1 hn
      · cases hp' : e'.target.matchOf (charAt args.variableName) args.vendorGuid with
        | none => exact absurd hm (matchOf_eq_none.mp hp')
        | some p' =>
          refine (hb.le he' hp').trans (not_lt.mp fun hlt => absurd hle (not_le.mpr ?_))
          exact wildcards_lt (terminated_of_valid hv) (ht.table.terminated e' he') hp hp' hlt
    rw [ht.verdict_eq hb, ht'.verdict_eq hb']

/-- **The best match and the verdict, in every run of registrations.** The search returns nothing
when nothing matches, and otherwise an entry that matches at least as specifically as any other,
more specifically than those registered before it; against entries registered after it this is said
where no pattern of 255 wildcards matches. The verdict is decided by that entry, by the arguments
and by the variable its lock asks for, so that a policy that matches no better does not change
it. -/
theorem verdict_of_best {calls : List RegisterCall} {h : History}
    (hrun : Run (fun h call h' => h' = h.register call) start calls h)
    (args : SetVariableArgs) :
    (getBestPolicyMatch h.state (charAt args.variableName) args.vendorGuid = none ↔
        ∀ e ∈ h.accepted, ¬ e.target.Matches (charAt args.variableName) args.vendorGuid) ∧
      (∀ b, getBestPolicyMatch h.state (charAt args.variableName) args.vendorGuid = some b →
        ∃ pre e post, h.accepted = pre ++ e :: post ∧
          EntryPtr.bytes ⟨h.state.policyTable, b.entry⟩ = e.bytes ∧
          e.target.Matches (charAt args.variableName) args.vendorGuid ∧
          (∀ e' ∈ pre, e'.target.Matches (charAt args.variableName) args.vendorGuid →
            e.target.wildcards < e'.target.wildcards) ∧
          ((∀ e' ∈ h.accepted, e'.target.Matches (charAt args.variableName) args.vendorGuid →
              e'.target.wildcards ≠ 255) →
            ∀ e' ∈ h.accepted, e'.target.Matches (charAt args.variableName) args.vendorGuid →
              e.target.wildcards ≤ e'.target.wildcards)) ∧
      (∀ (calls' : List RegisterCall) (h' : History) (b b' : BestMatch)
          (getVariable getVariable' : GetVariableHelper),
        Run (fun h call h' => h' = h.register call) start calls' h' →
        getBestPolicyMatch h.state (charAt args.variableName) args.vendorGuid = some b →
        getBestPolicyMatch h'.state (charAt args.variableName) args.vendorGuid = some b' →
        EntryPtr.bytes ⟨h.state.policyTable, b.entry⟩ =
          EntryPtr.bytes ⟨h'.state.policyTable, b'.entry⟩ →
        AgreeOn getVariable getVariable' (lockQuery ⟨h.state.policyTable, b.entry⟩ args) →
        validateSetVariable h.state getVariable args =
          validateSetVariable h'.state getVariable' args) ∧
      ∀ (getVariable : GetVariableHelper) (call : RegisterCall), NoBetter h call args →
        validateSetVariable (h.register call).state getVariable args =
          validateSetVariable h.state getVariable args := by
  have hta := tabled_of_run hrun
  refine ⟨?_, ?_, ?_, fun getVariable call hc => hta.verdict_register hc⟩
  · rw [hta.table.getBestPolicyMatch_eq_none]
    exact forall₂_congr fun e he => matchOf_eq_none
  · intro b hse
    obtain ⟨pre, e, post, hb⟩ := hta.table.getBestPolicyMatch_best hse
    have ht := hta.table.terminated
    have hs : ∀ e' : EntryPtr,
        e'.target.Matches (charAt args.variableName) args.vendorGuid →
        ∃ p, e'.target.matchOf (charAt args.variableName) args.vendorGuid = some p := by
      intro e' hm
      refine ne_none_iff_exists'.mp fun hnone => ?_
      exact matchOf_eq_none.mp hnone hm
    refine ⟨pre, e, post, hb.split, hta.table.best_bytes hb,
      (matchOf_eq_some hb.matches_self).1, ?_, ?_⟩
    · intro e' he' hm
      obtain ⟨p', hp'⟩ := hs e' hm
      have hmem : e' ∈ h.accepted := hb.split ▸ mem_append_left _ he'
      exact wildcards_lt (ht e hb.mem) (ht e' hmem) hb.matches_self hp'
        (hb.before e' he' p' hp')
    · intro hf e' he' hm
      obtain ⟨p', hp'⟩ := hs e' hm
      exact wildcards_le (ht e hb.mem) (ht e' he') hb.matches_self hp' (hf e' he' hm)
        (hb.le he' hp')
  · intro calls' h' b b' getVariable getVariable' hr' hse hs' hby ha
    have ht' := tabled_of_run hr'
    obtain ⟨pre, e, post, hb⟩ := hta.table.getBestPolicyMatch_best hse
    obtain ⟨pre', e', post', hb'⟩ := ht'.table.getBestPolicyMatch_best hs'
    have hen := hta.table.best_bytes hb
    have hen' := ht'.table.best_bytes hb'
    have ht := (hta.table.terminated e hb.mem).of_bytes hen.symm
    rw [hta.verdict_eq hb, ht'.verdict_eq hb', ← ht.policyVerdict_eq hen,
      ← ht.policyVerdict_eq (hby.trans hen'), policyVerdict, policyVerdict,
      lockVerdict_congr ha]

theorem verdict_of_best_plain :
    validateSetVariable ((start.register plainCall).register wildcardCall).state
        (fun _ _ _ => (.notFound, 0)) ⟨[0x41], List.replicate 16 0, 0, 1⟩ =
      validateSetVariable (start.register plainCall).state
        (fun _ _ _ => (.notFound, 0)) ⟨[0x41], List.replicate 16 0, 0, 1⟩ := by
  have hr : Run (fun h call h' => h' = h.register call) start [plainCall]
      (start.register plainCall) := .cons rfl (.nil _)
  refine (verdict_of_best hr _).2.2.2 _ wildcardCall (.inr ⟨plainCall.newPolicy, ?_, ?_, ?_⟩)
  · exact mem_append_right _ mem_cons_self
  · exact (matchOf_eq_some (p := 0) (by decide +kernel)).1
  · have hp : plainCall.newPolicy.target.wildcards = 0 := by decide +kernel
    exact bot_le

/-- The policy that locks the variable `A` once it exists. -/
def lockOnCreateCall : RegisterCall := sampleCall 2 0x41 1

def namespaceCall : RegisterCall := sampleCall 0 0 0

/-- The policy of the variables of 255 hexadecimal digits. -/
def manyWildcardsCall : RegisterCall := sampleCall 0 0x23 255

/-- The lock on creation asks for the variable itself, not for a state variable; and a namespace
policy is returned though a pattern of 255 wildcards matches. -/
theorem not_best_match :
    (¬ ∀ (calls : List RegisterCall) (h : History),
        Run (fun h call h' => h' = h.register call) start calls h →
        ∀ (args : SetVariableArgs) (b : BestMatch) (getVariable getVariable' : GetVariableHelper),
          getBestPolicyMatch h.state (charAt args.variableName) args.vendorGuid = some b →
          (EntryPtr.lockPolicyType ⟨h.state.policyTable, b.entry⟩ =
              variablePolicyTypeLockOnVarState →
            AgreeOn getVariable getVariable' (lockQuery ⟨h.state.policyTable, b.entry⟩ args)) →
          validateSetVariable h.state getVariable args =
            validateSetVariable h.state getVariable' args) ∧
      ¬ ∀ (calls : List RegisterCall) (h : History),
        Run (fun h call h' => h' = h.register call) start calls h →
        ∀ (name : Char16String) (guid : EfiGuid) (b : BestMatch),
          getBestPolicyMatch h.state (charAt name) guid = some b →
          EntryPtr.pattern ⟨h.state.policyTable, b.entry⟩ = none →
          ∀ e ∈ h.accepted, e.pattern ≠ none → ¬ e.target.Matches (charAt name) guid := by
  constructor
  · intro hal
    have hr : Run (fun h call h' => h' = h.register call) start [lockOnCreateCall]
        (start.register lockOnCreateCall) := .cons rfl (.nil _)
    have := hal _ _ hr ⟨[0x41], List.replicate 16 0, 0, 1⟩ ⟨0, 0⟩
      (fun _ _ _ => (.bufferTooSmall, 0)) (fun _ _ _ => (.notFound, 0)) (by decide +kernel)
      (fun hs => absurd hs (by decide +kernel))
    exact absurd this (by decide +kernel)
  · intro hal
    have hr : Run (fun h call h' => h' = h.register call) start
        [namespaceCall, manyWildcardsCall]
        ((start.register namespaceCall).register manyWildcardsCall) :=
      .cons rfl (.cons rfl (.nil _))
    have ha : manyWildcardsCall.newPolicy ∈
        ((start.register namespaceCall).register manyWildcardsCall).accepted := by
      rw [accepted_register (by decide +kernel)]
      exact mem_append_right _ mem_cons_self
    have hm : manyWildcardsCall.newPolicy.target.matchOf (charAt (List.replicate 255 0x30))
        (List.replicate 16 0) = some 255 := by decide +kernel
    have hna : manyWildcardsCall.newPolicy.pattern ≠ none := by decide +kernel
    have hb : getBestPolicyMatch
        ((start.register namespaceCall).register manyWildcardsCall).state
        (charAt (List.replicate 255 0x30)) (List.replicate 16 0) = some ⟨0, 255⟩ := by
      decide +kernel
    have hn : EntryPtr.pattern
        ⟨((start.register namespaceCall).register manyWildcardsCall).state.policyTable, 0⟩ =
          none := by
      decide +kernel
    exact hal _ _ hr _ _ _ hb hn _ ha hna (matchOf_eq_some hm).1

end Run

end Edk2.Policy
