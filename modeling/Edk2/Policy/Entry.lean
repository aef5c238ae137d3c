import Mathlib.Data.List.Count
import Mathlib.Tactic.SplitIfs
import Edk2.Policy.Model

/-!
# Valid entries and their targets

A structure that passes the check keeps its two names inside its own bytes, each with its
terminator. What such an entry matches is decided by its target, the namespace and the pattern, and
the priority of a match is the number of wildcards in the pattern.

## Main results

* `terminated_of_valid`: a valid structure is terminated
* `evaluatePolicyMatch_eq`: the match of a valid entry, by its target
-/

namespace Edk2.Policy

open List Option EntryPtr

variable {m : Memory} {entryEnd : ℕ} {e e' : EntryPtr}

/-! ## The two scans -/

/-- The `k` characters at an address. -/
def charsAt (m : Memory) : ℕ → ℕ → List ℕ
  | _, 0 => []
  | a, k + 1 => char16 m a :: charsAt m (a + 2) k

variable {a k fuel checkChar last i : ℕ}

theorem ne_zero_cons (hh : char16 m a ≠ 0)
    (htail : ∀ i < k, char16 m (a + 2 + 2 * i) ≠ 0) : ∀ i < k + 1, char16 m (a + 2 * i) ≠ 0 := by
  intro i hi
  cases i with
  | zero => exact hh
  | succ i =>
    have := htail i (by omega)
    rwa [add_assoc, show 2 + 2 * i = 2 * (i + 1) by omega] at this

theorem scanStateName_eq_some
    (h : scanStateName m entryEnd fuel checkChar = some last) :
    ∃ k, last = checkChar + 2 * k ∧ char16 m last = 0 ∧
      ∀ i < k, char16 m (checkChar + 2 * i) ≠ 0 := by
  induction fuel generalizing checkChar with
  | zero => exact absurd h (by simp [scanStateName])
  | succ fuel ih =>
    rw [scanStateName] at h
    split_ifs at h with hn he
    · obtain rfl := some.inj h
      exact ⟨0, rfl, hn, fun i hi => absurd hi (Nat.not_lt_zero i)⟩
    · obtain ⟨k, hlast, hz, hb⟩ := ih h
      exact ⟨k + 1, by omega, hz, ne_zero_cons hn hb⟩

theorem scanName_eq_some {count : ℕ} (hcnt : count ≤ matchPriorityMin)
    (h : scanName m entryEnd fuel count checkChar = some last) :
    ∃ k, last = checkChar + 2 * k ∧ char16 m last = 0 ∧
      (∀ i < k, char16 m (checkChar + 2 * i) ≠ 0) ∧
      count + (charsAt m checkChar k).count wildcard ≤ matchPriorityMin := by
  induction fuel generalizing checkChar count with
  | zero => exact absurd h (by simp [scanName])
  | succ fuel ih =>
    rw [scanName] at h
    split_ifs at h with hn hm he hwild
    · obtain rfl := some.inj h
      exact ⟨0, rfl, hn, fun i hi => absurd hi (Nat.not_lt_zero i), hcnt⟩
    · obtain ⟨k, hlast, hz, hb, hw⟩ := ih (by omega) h
      refine ⟨k + 1, by omega, hz, ne_zero_cons hn hb, ?_⟩
      rw [charsAt, hwild, count_cons_self]
      omega
    · obtain ⟨k, hlast, hz, hb, hw⟩ := ih hcnt h
      refine ⟨k + 1, by omega, hz, ne_zero_cons hn hb, ?_⟩
      rwa [charsAt, count_cons_of_ne hwild]

/-! ## Valid structures -/

/-- **Both names end inside the structure.** The state variable's name, where there is one, ends
right before the name, and the name, where there is one, ends with the structure. -/
structure Terminated (e : EntryPtr) : Prop where
  size_ge : policyEntrySize ≤ e.size
  offset_ge : policyEntrySize ≤ e.offsetToName
  offset_le : e.offsetToName ≤ e.size
  stateName : e.lockPolicyType = variablePolicyTypeLockOnVarState →
    ∃ k, e.offsetToName = 62 + 2 * k + 2 ∧ e.stateVarName k = 0 ∧ ∀ i < k, e.stateVarName i ≠ 0
  name : e.size ≠ e.offsetToName →
    ∃ k, e.size = e.offsetToName + 2 * k + 2 ∧ e.getPolicyName k = 0 ∧
      (∀ i < k, e.getPolicyName i ≠ 0) ∧
      (charsAt e.mem (e.addr + e.offsetToName) k).count wildcard ≤ matchPriorityMin

theorem lockPolicyValid_spec (h : lockPolicyValid e = true) :
    policyEntrySize ≤ e.offsetToName ∧
      (e.lockPolicyType = variablePolicyTypeLockOnVarState →
        ∃ k, e.offsetToName = 62 + 2 * k + 2 ∧ e.stateVarName k = 0 ∧
          ∀ i < k, e.stateVarName i ≠ 0) := by
  unfold lockPolicyValid at h
  dsimp only at h
  split_ifs at h with ht hr
  · split at h
    · cases h
    · rename_i last hs
      obtain ⟨k, hlast, hz, hb⟩ := scanStateName_eq_some hs
      have ho := beq_iff_eq.mp h
      unfold policyEntrySize lockOnVarStateSize at *
      refine ⟨by omega, fun _ => ⟨k, by omega, ?_, hb⟩⟩
      rwa [hlast] at hz
  · exact ⟨(beq_iff_eq.mp h).ge, fun ht' => absurd ht' ht⟩

theorem nameValid_spec (h : nameValid e = true) (hne : e.size ≠ e.offsetToName) :
    ∃ k, e.size = e.offsetToName + 2 * k + 2 ∧ e.getPolicyName k = 0 ∧
      (∀ i < k, e.getPolicyName i ≠ 0) ∧
      (charsAt e.mem (e.addr + e.offsetToName) k).count wildcard ≤ matchPriorityMin := by
  unfold nameValid at h
  rw [if_neg hne] at h
  dsimp only at h
  split at h
  · cases h
  · rename_i last hs
    obtain ⟨k, hlast, hz, hb, hw⟩ := scanName_eq_some (Nat.zero_le _) hs
    have he := beq_iff_eq.mp h
    unfold entryEnd at he
    refine ⟨k, by omega, ?_, hb, by omega⟩
    rwa [hlast] at hz

/-- **A structure that passes the check is terminated.** -/
theorem terminated_of_valid (h : isValidVariablePolicyStructure e = true) : Terminated e := by
  unfold isValidVariablePolicyStructure at h
  split_ifs at h with hq hf hmax ht
  obtain ⟨hl, hn⟩ := (Bool.and_eq_true _ _).mp h
  obtain ⟨ho, hs⟩ := lockPolicyValid_spec hl
  refine ⟨by omega, ho, ?_, hs, nameValid_spec hn⟩
  by_cases hne : e.size = e.offsetToName
  · exact hne.ge
  · obtain ⟨k, hk, -⟩ := nameValid_spec hn hne
    omega

/-! ## Targets -/

/-- What a policy is about: a namespace and a name pattern in it, or all of the namespace. -/
structure Target where
  namespaceGuid : EfiGuid
  pattern : Option Char16String
  deriving DecidableEq

/-- The name pattern; a missing name is indicated by `Size` equal to `OffsetToName`. -/
def EntryPtr.pattern (e : EntryPtr) : Option Char16String :=
  if e.size = e.offsetToName then none
  else some (charsAt e.mem (e.addr + e.offsetToName) ((e.size - e.offsetToName) / 2 - 1))

def EntryPtr.target (e : EntryPtr) : Target := ⟨e.namespaceGuid, e.pattern⟩

/-- The pattern matches the name: `#` stands for a hexadecimal digit, any other character for
itself, and both end together. -/
def patternMatches : Char16String → (ℕ → ℕ) → Bool
  | [], name => name 0 == 0
  | c :: rest, name =>
    (if c = wildcard then isHexDigit (name 0) else c == name 0) &&
      patternMatches rest fun i => name (i + 1)

/-- What the match of a target with a variable should be: the number of wildcards, or the lowest
priority for a whole namespace. -/
def Target.matchOf (target : Target) (name : ℕ → ℕ) (guid : EfiGuid) : Option ℕ :=
  if target.namespaceGuid ≠ guid then none
  else
    match target.pattern with
    | none => some matchPriorityMin
    | some pattern => if patternMatches pattern name then some (pattern.count wildcard) else none

section Match

variable {policyName name : ℕ → ℕ} {guid : EfiGuid}

/-- The loop over both names, when the pattern is `p` from `index` on. -/
theorem matchLoop_eq {p : Char16String} (hne : ∀ c ∈ p, c ≠ 0) {index priority : ℕ}
    (hf : p.length < fuel) (hch : ∀ i (hi : i < p.length), policyName (index + i) = p[i])
    (he : policyName (index + p.length) = 0)
    (hpr : priority + p.count wildcard ≤ matchPriorityMin) :
    matchLoop policyName name fuel index priority =
      if patternMatches p fun i => name (index + i) then some (priority + p.count wildcard)
      else none := by
  induction p generalizing fuel index priority with
  | nil =>
    obtain ⟨fuel, rfl⟩ := Nat.exists_eq_succ_of_ne_zero (ne_of_gt hf)
    rw [length_nil, add_zero] at he
    rw [matchLoop, he]
    by_cases hn : name index = 0
    · rw [patternMatches, add_zero, hn]
      rfl
    · rw [if_neg fun h => hn h.2, if_pos (.inl (Ne.symm hn)),
        patternMatches, add_zero, beq_eq_false_iff_ne.mpr hn]
      rfl
  | cons c rest ih =>
    obtain ⟨fuel, rfl⟩ := Nat.exists_eq_succ_of_ne_zero (ne_of_gt (Nat.zero_lt_of_lt hf))
    obtain ⟨hc, hr⟩ := forall_mem_cons.mp hne
    have hhe : policyName index = c := hch 0 (Nat.succ_pos _)
    have hc' : ∀ i (hi : i < rest.length), policyName (index + 1 + i) = rest[i] := by
      intro i hi
      have := hch (i + 1) (Nat.succ_lt_succ hi)
      rwa [add_right_comm, add_assoc]
    have he' : policyName (index + 1 + rest.length) = 0 := by
      rwa [add_right_comm, add_assoc]
    have hp : patternMatches (c :: rest) (fun i => name (index + i)) =
        ((if c = wildcard then isHexDigit (name index) else c == name index) &&
          patternMatches rest fun i => name (index + 1 + i)) := by
      have hs : (fun i => name (index + (i + 1))) = fun i => name (index + 1 + i) := by
        funext i
        rw [add_right_comm, add_assoc]
      rw [patternMatches, hs]
      rfl
    rw [matchLoop, hhe, if_neg fun h => hc h.1, hp]
    by_cases hwild : c = wildcard
    · -- a wildcard costs one step of priority
      subst hwild
      rw [count_cons_self] at hpr ⊢
      rw [if_pos (.inr rfl), if_pos rfl]
      by_cases hh : isHexDigit (name index) = true
      · rw [if_pos ⟨rfl, hh⟩, if_pos (by omega),
          ih hr (Nat.lt_of_succ_lt_succ hf) hc' he' (by omega), hh, Bool.true_and,
          add_right_comm, add_assoc]
      · rw [Bool.eq_false_iff.mpr hh]
        rfl
    · rw [count_cons_of_ne hwild] at hpr ⊢
      rw [if_neg hwild]
      by_cases heq : c = name index
      · rw [if_neg fun h => h.elim (absurd heq) hwild,
          ih hr (Nat.lt_of_succ_lt_succ hf) hc' he' hpr, beq_iff_eq.mpr heq,
          Bool.true_and]
      · rw [if_pos (.inl heq), if_neg fun h => hwild h.1, beq_eq_false_iff_ne.mpr heq]
        rfl

theorem length_charsAt (m : Memory) (a k : ℕ) : (charsAt m a k).length = k := by
  induction k generalizing a with
  | zero => rfl
  | succ k ih => rw [charsAt, length_cons, ih]

theorem getElem_charsAt (h : i < (charsAt m a k).length) :
    (charsAt m a k)[i] = char16 m (a + 2 * i) := by
  induction k generalizing a i with
  | zero => exact absurd h (Nat.not_lt_zero i)
  | succ k ih =>
    cases i with
    | zero => rfl
    | succ i =>
      have htail : i < (charsAt m (a + 2) k).length := Nat.lt_of_succ_lt_succ h
      refine (ih htail).trans ?_
      rw [add_assoc, show 2 + 2 * i = 2 * (i + 1) by omega]

theorem EntryPtr.pattern_eq (hk : e.size = e.offsetToName + 2 * k + 2) :
    e.pattern = some (charsAt e.mem (e.addr + e.offsetToName) k) := by
  rw [pattern, if_neg (by omega), hk, show
    (e.offsetToName + 2 * k + 2 - e.offsetToName) / 2 - 1 = k by omega]

/-- **The match of a valid entry is the match of its target**; the loop ends within the name. -/
theorem evaluatePolicyMatch_eq (h : Terminated e) (name : ℕ → ℕ) (guid : EfiGuid) :
    evaluatePolicyMatch e name guid = e.target.matchOf name guid := by
  refine if_congr Iff.rfl rfl ?_
  by_cases hne : e.size = e.offsetToName
  · rw [if_pos hne, target, pattern, if_pos hne]
  · obtain ⟨k, hk, hz, hb, hw⟩ := h.name hne
    have hl := length_charsAt e.mem (e.addr + e.offsetToName) k
    have hch : ∀ i (hi : i < (charsAt e.mem (e.addr + e.offsetToName) k).length),
        e.getPolicyName (0 + i) = (charsAt e.mem (e.addr + e.offsetToName) k)[i] := by
      intro i hi
      rw [getElem_charsAt, zero_add]
      rfl
    have hnz : ∀ c ∈ charsAt e.mem (e.addr + e.offsetToName) k, c ≠ 0 := by
      intro c hc
      obtain ⟨i, hi, rfl⟩ := getElem_of_mem hc
      rw [getElem_charsAt]
      exact hb i (hl ▸ hi)
    rw [if_neg hne, target, pattern_eq hk]
    rw [matchLoop_eq hnz (by omega) hch (by rwa [hl, zero_add])
      (by rwa [matchPriorityExact, zero_add])]
    simp only [zero_add, matchPriorityExact]

end Match

/-! ## Entries with the same bytes -/

section SameBytes

variable (h : Terminated e) (hbytes : e.bytes = e'.bytes)
include hbytes

theorem EntryPtr.size_eq : e.size = e'.size := by
  have := congrArg List.length hbytes
  rwa [bytes, bytes, length_bytesAt, length_bytesAt] at this

theorem EntryPtr.le_eq (hik : i + k ≤ e.size) :
    le e.mem (e.addr + i) k = le e'.mem (e'.addr + i) k := by
  have hs := hbytes
  rw [bytes, bytes, ← size_eq hbytes] at hs
  exact le_eq_of_bytesAt hs hik

theorem EntryPtr.bytesAt_eq (hik : i + k ≤ e.size) :
    bytesAt e.mem (e.addr + i) k = bytesAt e'.mem (e'.addr + i) k := by
  have hs := hbytes
  rw [bytes, bytes, ← size_eq hbytes] at hs
  exact bytesAt_eq_of_bytesAt hs hik

theorem EntryPtr.char16_eq (hi : i + 2 ≤ e.size) :
    char16 e.mem (e.addr + i) = char16 e'.mem (e'.addr + i) :=
  le_eq hbytes hi

theorem EntryPtr.charsAt_eq (hik : i + 2 * k ≤ e.size) :
    charsAt e.mem (e.addr + i) k = charsAt e'.mem (e'.addr + i) k := by
  refine ext_getElem (by rw [length_charsAt, length_charsAt]) fun j hj _ => ?_
  rw [length_charsAt] at hj
  rw [getElem_charsAt, getElem_charsAt, add_assoc, add_assoc]
  exact char16_eq hbytes (by omega)

include h

theorem Terminated.offsetToName_eq : e.offsetToName = e'.offsetToName :=
  le_eq hbytes (by have := h.size_ge; unfold policyEntrySize at this; omega)

theorem Terminated.namespaceGuid_eq : e.namespaceGuid = e'.namespaceGuid :=
  bytesAt_eq hbytes (by have := h.size_ge; unfold policyEntrySize at this; omega)

theorem Terminated.lockPolicyType_eq : e.lockPolicyType = e'.lockPolicyType :=
  le_eq hbytes (by have := h.size_ge; unfold policyEntrySize at this; omega)

/-- **The target is in the bytes of the structure.** -/
theorem Terminated.target_eq : e.target = e'.target := by
  have hs := size_eq hbytes
  have ho := h.offsetToName_eq hbytes
  have hp : e.pattern = e'.pattern := by
    rw [pattern, pattern, ← hs, ← ho]
    have := h.offset_le
    rw [charsAt_eq hbytes (by omega)]
  rw [target, target, h.namespaceGuid_eq hbytes, hp]

theorem Terminated.of_bytes : Terminated e' := by
  have hs := size_eq hbytes
  have ho := h.offsetToName_eq hbytes
  have hle := h.offset_le
  refine ⟨hs ▸ h.size_ge, ho ▸ h.offset_ge, hs ▸ ho ▸ h.offset_le, ?_, ?_⟩
  · intro hl
    obtain ⟨k, hk, hz, hb⟩ := h.stateName ((h.lockPolicyType_eq hbytes).trans hl)
    have hc : ∀ i ≤ k, e.stateVarName i = e'.stateVarName i := by
      intro i hi
      have := char16_eq hbytes (i := 62 + 2 * i) (by omega)
      rwa [← add_assoc, ← add_assoc] at this
    refine ⟨k, ho ▸ hk, hc k le_rfl ▸ hz, fun i hi => ?_⟩
    rw [← hc i hi.le]
    exact hb i hi
  · intro hne
    rw [← hs, ← ho] at hne ⊢
    obtain ⟨k, hk, hz, hb, hw⟩ := h.name hne
    have hc : ∀ i ≤ k, e.getPolicyName i = e'.getPolicyName i := by
      intro i hi
      rw [getPolicyName, getPolicyName, ← ho]
      have := char16_eq hbytes (i := e.offsetToName + 2 * i) (by omega)
      rwa [← add_assoc, ← add_assoc] at this
    refine ⟨k, hk, hc k le_rfl ▸ hz, fun i hi => ?_, ?_⟩
    · rw [← hc i hi.le]
      exact hb i hi
    · rwa [charsAt_eq hbytes (by omega)] at hw

end SameBytes

end Edk2.Policy
